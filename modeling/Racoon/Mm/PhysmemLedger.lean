import Racoon.Mm.Physmem

/-!
# The pages in use, above those of a moment

`Above pm₀ s` says that the pages in use are those that were in use in `pm₀` and
the pages of the blocks that are held, which were not. So it stays when a block
is allocated and when one is given back.
-/

namespace Racoon.PhysicalMemory
open Lib

/-- The page is one of the block. -/
def Covers (pm : Physmem) (x : Block) (b : ℕ) : Prop :=
  pageIndex pm x.1 ≤ b ∧ b < pageIndex pm x.1 + x.2

instance (pm : Physmem) (x : Block) (b : ℕ) : Decidable (Covers pm x b) :=
  inferInstanceAs (Decidable (_ ∧ _))

structure Above (pm₀ : Physmem) (s : State) : Prop where
  sound : Sound s
  memoryPages : s.pm.memoryPages = pm₀.memoryPages
  memoryOffset : s.pm.memoryOffset = pm₀.memoryOffset
  used : ∀ b, s.pm.isSet b = true ↔ pm₀.isSet b = true ∨ ∃ x ∈ s.held, Covers pm₀ x b
  fresh : ∀ x ∈ s.held, ∀ b, Covers pm₀ x b → pm₀.isSet b = false

variable {pm pm' pm₀ : Physmem} {s : State} {held held' : List Block} {n ptr : ℕ} {x y : Block}

theorem covers_congr (ho : pm'.memoryOffset = pm.memoryOffset) (x : Block) (b : ℕ) :
    Covers pm' x b ↔ Covers pm x b := by
  rw [Covers, Covers, pageIndex_congr ho]

theorem Apart.not_covers {b : ℕ} (h : Apart pm x y) (hx : Covers pm x b) : ¬ Covers pm y b := by
  unfold Apart at h
  unfold Covers at *
  omega

theorem Sound.perm (h : Sound ⟨pm, held⟩) (hp : held.Perm held') : Sound ⟨pm, held'⟩ :=
  ⟨h.counted, fun x hx => h.held x (hp.mem_iff.mpr hx),
    (hp.pairwise_iff fun {_ _} => Apart.symm).mp h.apart⟩

theorem Sound.sublist (h : Sound ⟨pm, held⟩) (hs : held'.Sublist held) : Sound ⟨pm, held'⟩ :=
  ⟨h.counted, fun x hx => h.held x (hs.subset hx), h.apart.sublist hs⟩

/-- What `memory_alloc` answered is held, unless it was `NULL`. -/
theorem Sound.alloc_eq (h : Sound ⟨pm, held⟩) (hn : 1 ≤ n)
    (he : memoryAlloc pm n = .ok (pm', ptr)) :
    Sound ⟨pm', if ptr = 0 then held else (ptr, n) :: held⟩ := by
  obtain ⟨t, ht, hsound⟩ := h.alloc hn
  simp only [Call.exec, he, ok_bind] at ht
  cases ht
  exact hsound

theorem Sound.free_eq (h : Sound ⟨pm, held⟩) (hx : x ∈ held) :
    ∃ pm', memoryFree pm x.2 x.1 = .ok pm' ∧ Sound ⟨pm', held.erase x⟩ := by
  obtain ⟨t, ht, hsound⟩ := h.free hx
  obtain ⟨pm', hfree, ht⟩ := bind_eq_ok.mp ht
  cases ht
  exact ⟨pm', hfree, hsound⟩

/-- A new block is clear before and set after, and no other page changes. -/
theorem memoryAlloc_bits (h : pm.Counted) (hn : 1 ≤ n) (he : memoryAlloc pm n = .ok (pm', ptr)) :
    pm'.memoryPages = pm.memoryPages ∧ pm'.memoryOffset = pm.memoryOffset ∧
    (ptr = 0 → ∀ b, pm'.isSet b = pm.isSet b) ∧
    (ptr ≠ 0 → (∀ b, Covers pm (ptr, n) b → pm.isSet b = false ∧ pm'.isSet b = true) ∧
      ∀ b, ¬ Covers pm (ptr, n) b → pm'.isSet b = pm.isSet b) := by
  obtain ⟨pm₁, ptr₁, hrun, hspec, -, hpages, hoffset⟩ := memoryAlloc_spec h hn
  rw [he] at hrun
  cases hrun
  refine ⟨hpages, hoffset, fun hz => ?_, fun hz => ?_⟩
  · rcases hspec with ⟨-, hbits, -⟩ | ⟨b, -, hne, -⟩
    · intro b
      rw [Physmem.isSet, Physmem.isSet, hbits]
    · exact absurd hz hne
  · rcases hspec with ⟨h0, -⟩ | ⟨b, hptr, -, hroom, hin, hout⟩
    · exact absurd h0 hz
    · have hindex : pageIndex pm ptr = b := hptr ▸ pageIndex_pageAddr pm (by omega)
      refine ⟨fun p hp => ?_, fun p hp => ?_⟩
      · rw [Covers, hindex] at hp
        exact hin p hp.1 hp.2
      · rw [Covers, hindex] at hp
        exact hout p hp

namespace Above

theorem start (h : pm.Counted) : Above pm ⟨pm, []⟩ :=
  ⟨⟨h, by simp, List.Pairwise.nil⟩, rfl, rfl, by simp, by simp⟩

theorem perm (h : Above pm₀ ⟨pm, held⟩) (hp : held.Perm held') : Above pm₀ ⟨pm, held'⟩ := by
  refine ⟨h.sound.perm hp, h.memoryPages, h.memoryOffset, fun b => (h.used b).trans ?_,
    fun x hx => h.fresh x (hp.mem_iff.mpr hx)⟩
  exact or_congr_right (exists_congr fun x => and_congr_left' hp.mem_iff)

theorem alloc (h : Above pm₀ ⟨pm, held⟩) (hn : 1 ≤ n) (he : memoryAlloc pm n = .ok (pm', ptr)) :
    Above pm₀ ⟨pm', if ptr = 0 then held else (ptr, n) :: held⟩ := by
  have hsound := h.sound.alloc_eq hn he
  obtain ⟨hpages, hoffset, hnull, hblock⟩ := memoryAlloc_bits h.sound.counted hn he
  have hoffset₀ : pm.memoryOffset = pm₀.memoryOffset := h.memoryOffset
  have hused : ∀ b, pm.isSet b = true ↔ pm₀.isSet b = true ∨ ∃ x ∈ held, Covers pm₀ x b := h.used
  refine ⟨hsound, hpages.trans h.memoryPages, hoffset.trans h.memoryOffset, fun b => ?_, ?_⟩
  · dsimp only
    by_cases hz : ptr = 0
    · rw [if_pos hz, hnull hz, hused]
    · obtain ⟨hin, hout⟩ := hblock hz
      rw [if_neg hz]
      simp only [List.mem_cons, exists_eq_or_imp]
      rw [← covers_congr hoffset₀]
      by_cases hc : Covers pm (ptr, n) b
      · exact iff_of_true (hin b hc).2 (.inr (.inl hc))
      · rw [hout b hc, hused]
        simp only [hc, false_or]
  · dsimp only
    split_ifs with hz
    · exact h.fresh
    · intro x hx b hb
      rcases List.mem_cons.mp hx with rfl | hx
      · have hclear := ((hblock hz).1 b ((covers_congr hoffset₀ _ b).mpr hb)).1
        rw [Bool.eq_false_iff]
        intro hset
        rw [(hused b).mpr (.inl hset)] at hclear
        cases hclear
      · exact h.fresh x hx b hb

theorem free (h : Above pm₀ ⟨pm, held⟩) (hx : x ∈ held) :
    ∃ pm', memoryFree pm x.2 x.1 = .ok pm' ∧ Above pm₀ ⟨pm', held.erase x⟩ := by
  have hsound : Sound ⟨pm, held⟩ := h.sound
  have hheld : Held pm x := hsound.held x hx
  have hoffset₀ : pm.memoryOffset = pm₀.memoryOffset := h.memoryOffset
  have hused : ∀ b, pm.isSet b = true ↔ pm₀.isSet b = true ∨ ∃ x ∈ held, Covers pm₀ x b := h.used
  obtain ⟨pm', hrun, hspec, -, hpages, hoffset⟩ := hheld.free hsound.counted.count
  obtain ⟨pm₁, hrun₁, hsound'⟩ := hsound.free_eq hx
  rw [hrun] at hrun₁
  cases hrun₁
  have hpair : (x :: held.erase x).Pairwise (Apart pm) :=
    ((List.perm_cons_erase hx).pairwise_iff fun {_ _} => Apart.symm).mp hsound.apart
  have hapart := (List.pairwise_cons.mp hpair).1
  refine ⟨pm', hrun, hsound', hpages.trans h.memoryPages, hoffset.trans h.memoryOffset,
    fun b => ?_, fun y hy => h.fresh y (List.mem_of_mem_erase hy)⟩
  have hbit : pm'.isSet b = (decide (¬ Covers pm x b) && pm.isSet b) := hspec b
  by_cases hb : Covers pm x b
  · rw [hbit, decide_eq_false (not_not.mpr hb), Bool.false_and]
    refine iff_of_false (by decide) ?_
    rintro (hset | ⟨y, hy, hyb⟩)
    · rw [h.fresh x hx b ((covers_congr hoffset₀ _ b).mp hb)] at hset
      cases hset
    · exact (hapart y hy).not_covers hb ((covers_congr hoffset₀ _ b).mpr hyb)
  · rw [hbit, decide_eq_true hb, Bool.true_and, hused]
    refine or_congr_right ⟨?_, fun ⟨y, hy, hyb⟩ => ⟨y, List.mem_of_mem_erase hy, hyb⟩⟩
    rintro ⟨y, hy, hyb⟩
    rcases List.mem_cons.mp ((List.perm_cons_erase hx).mem_iff.mp hy) with rfl | hy
    · exact absurd ((covers_congr hoffset₀ _ b).mpr hyb) hb
    · exact ⟨y, hy, hyb⟩

end Above

theorem above_preserved (s₀ : State) : (physmemSystem s₀).Preserves (Above pm₀) := by
  rintro ⟨pm, held⟩ c h hc
  cases c with
  | alloc n =>
    obtain ⟨pm', ptr, hrun, -⟩ := memoryAlloc_spec h.sound.counted hc.1
    refine ⟨_, ?_, h.alloc hc.1 hrun⟩
    change (memoryAlloc pm n >>= _) = _
    rw [hrun]
    rfl
  | free x =>
    obtain ⟨pm', hrun, habove⟩ := h.free hc
    refine ⟨_, ?_, habove⟩
    change (memoryFree pm x.2 x.1 >>= _) = _
    rw [hrun]
    rfl

end Racoon.PhysicalMemory
