import Racoon.Mm.PhysmemSearch

/-!
# Taking pages one after another

Many callers ask `memory_alloc` for one page at a time and do not look at the answer.
From a sound state on one gets a page as long as two are free, and each page taken is
one less.
-/

namespace Racoon.PhysicalMemory
open Lib

variable {pm pm' : Physmem} {n ptr : ℕ}

/-- The state that `bootstrap_memory` leaves, and every call after it. -/
structure Ready (pm : Physmem) : Prop where
  counted : pm.Counted
  nonneg : 0 ≤ pm.lastPage
  le : pm.lastPage ≤ pm.memoryPages
  aligned : pm.memoryOffset % PAGE_SIZE = 0

/-- The pages from `b` on are handed out: they were clear, and nothing else changes. -/
structure Taken (pm pm' : Physmem) (b n : ℕ) : Prop where
  nonnull : pageAddr pm b ≠ 0
  room : b + n ≤ pm.memoryPages
  clear : ∀ p, b ≤ p → p < b + n → pm.isSet p = false
  set : ∀ p, pm'.isSet p = (decide (b ≤ p ∧ p < b + n) || pm.isSet p)
  count : pm'.free.card + n = pm.free.card

/-- What does not change at all. -/
structure SamePool (pm pm' : Physmem) : Prop where
  pages : pm'.memoryPages = pm.memoryPages
  offset : pm'.memoryOffset = pm.memoryOffset

theorem SamePool.refl (pm : Physmem) : SamePool pm pm := ⟨rfl, rfl⟩

theorem SamePool.trans {pm'' : Physmem} (h : SamePool pm pm') (h' : SamePool pm' pm'') :
    SamePool pm pm'' :=
  ⟨h'.pages.trans h.pages, h'.offset.trans h.offset⟩

theorem SamePool.pageAddr (h : SamePool pm pm') (b : ℕ) : pageAddr pm' b = pageAddr pm b := by
  rw [PhysicalMemory.pageAddr, PhysicalMemory.pageAddr, h.offset]

theorem pageAddr_aligned (h : pm.memoryOffset % PAGE_SIZE = 0) (b : ℕ) :
    pageAddr pm b % PAGE_SIZE = 0 := by
  unfold pageAddr add32
  unfold PAGE_SIZE at *
  omega

theorem pageAddr_injective {b c : ℕ} (hb : b < pm.memoryPages) (hc : c < pm.memoryPages)
    (h : pageAddr pm b = pageAddr pm c) : b = c := by
  rw [← pageIndex_pageAddr pm hb, h, pageIndex_pageAddr pm hc]

theorem freePages_setPages (pm : Physmem) (b n : ℕ) :
    (setPages pm b n).freePages = pm.freePages - n := by
  induction n with
  | zero => simp [setPages]
  | succ n ih =>
    change (setPages pm b n).freePages - 1 = _
    rw [ih]
    push_cast
    ring

/-- `memory_alloc` answers `NULL` and changes nothing, or hands out clear pages. -/
theorem Ready.alloc (h : Ready pm) (hn : 1 ≤ n) (he : memoryAlloc pm n = .ok (pm', ptr)) :
    Ready pm' ∧ SamePool pm pm' ∧
      (ptr = 0 ∧ pm' = pm ∨ ∃ b, ptr = pageAddr pm b ∧ Taken pm pm' b n) := by
  have hpos : 0 < n := hn
  rw [memoryAlloc, assert_of hpos, ok_bind] at he
  by_cases hfree : n < (pm.freePages % 2 ^ 32).toNat
  · have hle := pm.pages_le
    have hcard : pm.free.card ≤ pm.memoryPages := Bitmap.card_free_le _ _
    have hcount := h.counted.count
    obtain ⟨r, hr, hspec⟩ := scan_spec hn (by omega : n ≤ pm.memoryPages) (pm.memoryPages + 1) 0
      (by omega)
    rw [if_pos hfree, memoryMultipleAlloc, hr, ok_bind] at he
    cases r with
    | none =>
      cases he
      exact ⟨h, .refl pm, .inl ⟨rfl, rfl⟩⟩
    | some b =>
      cases he
      obtain ⟨hroom, hclear⟩ := hspec b rfl
      have hset := isSet_setPages pm b n
      have hsame := card_setPages hcount hroom hclear
      have hleft := freePages_setPages pm b n
      have hnull : pageAddr pm b ≠ 0 := fun hz => by
        have hused := h.counted.null b (by omega) hz
        rw [hclear b le_rfl (by omega)] at hused
        cases hused
      refine ⟨⟨?_, ?_, ?_, ?_⟩, ⟨setPages_memoryPages pm b n, setPages_memoryOffset pm b n⟩,
        .inr ⟨b, rfl, hnull, hroom, hclear, hset, ?_⟩⟩
      · refine h.counted.of_eq (setPages_memoryPages pm b n) (setPages_memoryOffset pm b n) hsame
          fun p _ _ hp => ?_
        exact (hset p).trans (by simp [hp])
      · exact Int.natCast_nonneg (b + n)
      · change ((b + n : ℕ) : ℤ) ≤ ((setPages pm b n).memoryPages : ℤ)
        rw [setPages_memoryPages]
        exact_mod_cast hroom
      · change (setPages pm b n).memoryOffset % PAGE_SIZE = 0
        rw [setPages_memoryOffset]
        exact h.aligned
      · change (setPages pm b n).free.card + n = pm.free.card
        omega
  · rw [if_neg hfree] at he
    cases he
    exact ⟨h, .refl pm, .inl ⟨rfl, rfl⟩⟩

/-- One page is always within the reach of the scan. -/
theorem overshoot_one (h : Hinted pm 1) (hrun : Run pm 1 n) :
    ∃ s, Run pm 1 s ∧ (hint pm ≤ s ∨ overshoot pm 1 (hint pm) ≤ s) := by
  have hlt := h.hint_lt
  have hleaves : leaves pm 1 (hint pm) = pm.memoryPages - 1 +
      search (fun k => pm.isSet (pm.memoryPages - 1 + k)) id 0 1 + 1 := if_neg (by omega)
  have hlast : pm.memoryPages - 1 + 1 ≤ pm.memoryPages := by omega
  by_cases hclear : Run pm 1 (pm.memoryPages - 1)
  · exact ⟨_, hclear, .inl (by omega)⟩
  · have hused := (run_iff hlast).not.mp hclear
    refine ⟨n, hrun, .inr ?_⟩
    rw [overshoot, if_pos (by omega)]
    exact Nat.zero_le n

theorem Ready.alloc_one (h : Ready pm) (hfree : 1 < pm.free.card)
    (he : memoryAlloc pm 1 = .ok (pm', ptr)) : ∃ b, ptr = pageAddr pm b ∧ Taken pm pm' b 1 := by
  have hcard : pm.free.card ≤ pm.memoryPages := Bitmap.card_free_le _ _
  have hh : Hinted pm 1 := ⟨h.nonneg, h.le, le_rfl, by omega⟩
  have hex : ∃ p, Run pm 1 p := by
    obtain ⟨p, hp⟩ := Finset.card_pos.mp (Nat.zero_lt_of_lt hfree)
    obtain ⟨hlt, hclear⟩ := Bitmap.mem_free.mp hp
    refine ⟨p, hlt, fun q hq hq' => ?_⟩
    rw [show q = p by omega]
    exact hclear
  obtain ⟨p, hrun⟩ := hex
  obtain ⟨pm₁, ptr₁, halloc, hne⟩ := (found_iff h.counted hh hfree).mpr
    (hh.scan_some_iff.mpr (overshoot_one hh hrun))
  rw [he] at halloc
  cases halloc
  obtain ⟨-, -, ⟨hz, -⟩ | htaken⟩ := h.alloc le_rfl he
  · exact absurd hz hne
  · exact htaken

end Racoon.PhysicalMemory
