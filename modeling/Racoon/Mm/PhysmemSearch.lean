import Racoon.Mm.Physmem

/-!
# What the scan for pages finds

The scan goes from the hint to the end of memory and then on from the start. A
used page is a good reason to go on behind it, but where the block would run
past the end, the scan jumps by the length of the block less one, which can be
past the end and into the first pages: these it then never looks at.
-/

namespace Racoon.PhysicalMemory
open Lib
variable {pm : Physmem} {n p s i i' fuel : ℕ}

/-- The `n` pages from `s` on are clear. -/
def Run (pm : Physmem) (n s : ℕ) : Prop :=
  s + n ≤ pm.memoryPages ∧ ∀ p, s ≤ p → p < s + n → pm.isSet p = false

/-- Where the scan starts. -/
def hint (pm : Physmem) : ℕ := pm.lastPage.toNat % pm.memoryPages

/-- Where the scan from `p` on leaves the places at which a block has room, if it finds none: at `p`
or behind the first used page at the last of these places or behind it. -/
def leaves (pm : Physmem) (n p : ℕ) : ℕ :=
  if pm.memoryPages - n < p then p
  else pm.memoryPages - n + search (fun k => pm.isSet (pm.memoryPages - n + k)) id 0 n + 1

/-- Where it goes on among the first pages. -/
def overshoot (pm : Physmem) (n p : ℕ) : ℕ :=
  if leaves pm n p = pm.memoryPages then 0 else leaves pm n p + n - 1 - pm.memoryPages

/-- The hint is where a block that was found ended. -/
structure Hinted (pm : Physmem) (n : ℕ) : Prop where
  nonneg : 0 ≤ pm.lastPage
  le : pm.lastPage ≤ pm.memoryPages
  pos : 1 ≤ n
  lt : n < pm.memoryPages

/-- The first used page of a block that is not clear. -/
theorem search_used (h : search (fun k => pm.isSet (p + k)) id 0 n < n) :
    pm.isSet (p + search (fun k => pm.isSet (p + k)) id 0 n) = true ∧
      ∀ k < search (fun k => pm.isSet (p + k)) id 0 n, pm.isSet (p + k) = false := by
  rw [search_eq_findIdx] at h ⊢
  have hlen : (taken id n).findIdx (fun k => pm.isSet (p + k)) < (taken id n).length := by
    simpa using h
  refine ⟨?_, fun k hk => ?_⟩
  · simpa [taken] using List.findIdx_getElem (w := hlen)
  · simpa [taken] using List.not_of_lt_findIdx hk

theorem run_iff (hp : p + n ≤ pm.memoryPages) :
    Run pm n p ↔ n ≤ search (fun k => pm.isSet (p + k)) id 0 n := by
  constructor
  · intro h
    by_contra hlt
    obtain ⟨hused, -⟩ := search_used (not_le.mp hlt)
    rw [h.2 _ (Nat.le_add_right _ _) (by omega)] at hused
    cases hused
  · intro h
    refine ⟨hp, fun q hq hlt => ?_⟩
    have hclear := of_search_ge h (i := q - p) (by omega)
    simpa [Nat.add_sub_cancel' hq] using hclear

namespace Hinted

theorem hint_lt (h : Hinted pm n) : hint pm < pm.memoryPages :=
  Nat.mod_lt _ (Nat.zero_lt_of_lt h.lt)

/-- The blocks in the order of the rounds. -/
theorem blockAt_eq (h : Hinted pm n) (hi : i < pm.memoryPages) :
    blockAt pm i = if hint pm + i < pm.memoryPages then hint pm + i
      else hint pm + i - pm.memoryPages := by
  have hle := pm.pages_le
  have hnonneg := h.nonneg
  have htop := h.le
  have hlast : ((i + pm.lastPage) % 2 ^ 32).toNat = i + pm.lastPage.toNat := by omega
  have hmod : pm.lastPage.toNat % pm.memoryPages + i < 2 * pm.memoryPages := by
    have := h.hint_lt
    unfold hint at this
    omega
  rw [blockAt, hlast, hint, ← Nat.add_mod_mod, Nat.add_comm]
  split_ifs with hlt
  · exact Nat.mod_eq_of_lt hlt
  · rw [Nat.mod_eq_sub_mod (not_lt.mp hlt), Nat.mod_eq_of_lt (by omega)]

/-- A round in which the block would run past the end. -/
theorem scan_past (h : Hinted pm n) (hi : i < pm.memoryPages)
    (hp : pm.memoryPages < blockAt pm i + n) :
    scan pm n (fuel + 1) i = scan pm n fuel (i + (n - 1)) := by
  have hle := pm.pages_le
  have hlt := blockAt_lt pm hi
  have hn := h.lt
  rw [scan, if_pos hi]
  dsimp only
  rw [add32_of_lt (by omega), if_pos hp, sub32_of_le (by omega) (by omega),
    add32_of_lt (a := i) (by omega), add32_of_lt (by omega)]
  congr 1
  omega

/-- A round in which the block is clear. -/
theorem scan_found (h : Hinted pm n) (hi : i < pm.memoryPages) (hrun : Run pm n (blockAt pm i)) :
    scan pm n (fuel + 1) i = .ok (some (blockAt pm i)) := by
  have hle := pm.pages_le
  have hn := h.lt
  have hroom := hrun.1
  rw [scan, if_pos hi]
  dsimp only
  rw [add32_of_lt (by omega), if_neg (by omega), if_neg (not_lt.mpr ((run_iff hroom).mp hrun))]

/-- A round that a used page ends. -/
theorem scan_used (h : Hinted pm n) (hi : i < pm.memoryPages)
    (hroom : blockAt pm i + n ≤ pm.memoryPages) (hno : ¬ Run pm n (blockAt pm i)) :
    ∃ j < n, pm.isSet (blockAt pm i + j) = true ∧
      (∀ k < j, pm.isSet (blockAt pm i + k) = false) ∧
      ∀ fuel, scan pm n (fuel + 1) i = scan pm n fuel (i + j + 1) := by
  have hle := pm.pages_le
  have hn := h.lt
  have hj := not_le.mp (mt (run_iff hroom).mpr hno)
  obtain ⟨hused, hclear⟩ := search_used hj
  refine ⟨_, hj, hused, hclear, fun fuel => ?_⟩
  rw [scan, if_pos hi]
  dsimp only
  rw [add32_of_lt (by omega), if_neg (by omega), if_pos hj, add32_of_lt (a := i) (by omega),
    add32_of_lt (by omega)]

/-- No clear block is jumped over on the way to the end of memory, or from its start. -/
theorem scan_finds (h : Hinted pm n) (hrun : Run pm n s) (i' : ℕ) (hi : i ≤ i')
    (hi' : i' < pm.memoryPages)
    (hs : blockAt pm i' = s) (hside : pm.memoryPages ≤ hint pm + i' → pm.memoryPages ≤ hint pm + i)
    (hfuel : pm.memoryPages - i < fuel) : ∃ b, scan pm n fuel i = .ok (some b) := by
  induction fuel generalizing i with
  | zero => omega
  | succ fuel ih =>
    have hlt : i < pm.memoryPages := by omega
    have hblock : blockAt pm i + (i' - i) = s := by
      rw [← hs, h.blockAt_eq hlt, h.blockAt_eq hi']
      split_ifs <;> omega
    have hroom : blockAt pm i + n ≤ pm.memoryPages := by
      have := hrun.1
      omega
    by_cases hfound : Run pm n (blockAt pm i)
    · exact ⟨_, h.scan_found hlt hfound⟩
    · obtain ⟨j, hj, hused, -, hscan⟩ := h.scan_used hlt hroom hfound
      -- the used page is in front of the clear block
      have hbefore : blockAt pm i + j < s := by
        by_contra hge
        rw [hrun.2 _ (by omega) (by omega)] at hused
        cases hused
      rw [hscan]
      refine ih (by omega) (fun hc => ?_) (by omega)
      have := hside hc
      omega

/-- Among the first pages nothing is found that is not there. -/
theorem scan_none (h : Hinted pm n) (hi : pm.memoryPages ≤ hint pm + i)
    (hnone : ∀ s, hint pm + i - pm.memoryPages ≤ s → s < hint pm → ¬ Run pm n s)
    (hfuel : pm.memoryPages - i < fuel) : scan pm n fuel i = .ok none := by
  induction fuel generalizing i with
  | zero => omega
  | succ fuel ih =>
    by_cases hlt : i < pm.memoryPages
    · have hn := h.pos
      have hb : blockAt pm i = hint pm + i - pm.memoryPages := by
        rw [h.blockAt_eq hlt, if_neg (by omega)]
      by_cases hroom : blockAt pm i + n ≤ pm.memoryPages
      · obtain ⟨j, -, -, -, hscan⟩ := h.scan_used hlt hroom
          (hb ▸ hnone _ le_rfl (by omega))
        rw [hscan]
        exact ih (by omega) (fun s hs hs' => hnone s (by omega) hs') (by omega)
      · have hlt' := blockAt_lt pm hlt
        rw [h.scan_past hlt (by omega)]
        exact ih (by omega) (fun s hs hs' => hnone s (by omega) hs') (by omega)
    · rw [scan, if_neg hlt]

/-- A used page near the end does not change where the scan leaves. -/
theorem leaves_next (h : Hinted pm n) {j : ℕ} (hroom : p + n ≤ pm.memoryPages) (hj : j < n)
    (hused : pm.isSet (p + j) = true) (hclear : ∀ k < j, pm.isSet (p + k) = false) :
    leaves pm n (p + j + 1) = leaves pm n p := by
  have hn := h.lt
  unfold leaves
  rw [if_neg (show ¬ pm.memoryPages - n < p by omega)]
  split_ifs with hlt
  · -- the used page is the first one at the last place
    have hfirst : search (fun k => pm.isSet (pm.memoryPages - n + k)) id 0 n =
        p + j - (pm.memoryPages - n) := by
      have hset : pm.isSet (pm.memoryPages - n + (p + j - (pm.memoryPages - n))) = true := by
        rw [Nat.add_sub_cancel' (by omega)]
        exact hused
      by_contra hne
      rcases Nat.lt_or_gt_of_ne hne with hlt' | hgt
      · obtain ⟨hset', -⟩ := search_used (show search (fun k =>
          pm.isSet (pm.memoryPages - n + k)) id 0 n < n by omega)
        have := hclear (pm.memoryPages - n + search (fun k =>
          pm.isSet (pm.memoryPages - n + k)) id 0 n - p) (by omega)
        rw [Nat.add_sub_cancel' (by omega), hset'] at this
        cases this
      · by_cases hsn : search (fun k => pm.isSet (pm.memoryPages - n + k)) id 0 n < n
        · have := (search_used hsn).2 _ hgt
          rw [hset] at this
          cases this
        · have := of_search_ge (not_lt.mp hsn) (i := p + j - (pm.memoryPages - n)) (by omega)
          simp only [id] at this
          rw [hset] at this
          cases this
    omega
  · rfl

/-- Without a clear block up to the end, the scan goes on among the first pages. -/
theorem scan_crosses (h : Hinted pm n) (hi : hint pm + i ≤ pm.memoryPages)
    (hnone : ∀ s, hint pm + i ≤ s → ¬ Run pm n s) (hfuel : pm.memoryPages - i < fuel) :
    ∃ fuel' i', scan pm n fuel i = scan pm n fuel' i' ∧
      hint pm + i' = pm.memoryPages + overshoot pm n (hint pm + i) ∧
      pm.memoryPages - i' < fuel' := by
  have hn := h.lt
  have hpos := h.pos
  have hlt' := h.hint_lt
  induction fuel generalizing i with
  | zero => omega
  | succ fuel ih =>
    by_cases hend : hint pm + i = pm.memoryPages
    · refine ⟨fuel + 1, i, rfl, ?_, hfuel⟩
      have hleaves : leaves pm n (hint pm + i) = pm.memoryPages := by
        rw [leaves, if_pos (by omega), hend]
      rw [overshoot, if_pos hleaves, hend]
      rfl
    · have hlt : i < pm.memoryPages := by omega
      have hb : blockAt pm i = hint pm + i := by
        rw [h.blockAt_eq hlt, if_pos (by omega)]
      by_cases hroom : blockAt pm i + n ≤ pm.memoryPages
      · obtain ⟨j, hj, hused, hclear, hscan⟩ := h.scan_used hlt hroom (hb ▸ hnone _ le_rfl)
        rw [hb] at hroom hused hclear
        obtain ⟨fuel', i', heq, hi', hf⟩ := ih (i := i + j + 1) (by omega)
          (fun s hs => hnone s (by omega)) (by omega)
        refine ⟨fuel', i', (hscan fuel).trans heq, ?_, hf⟩
        rw [hi', overshoot, overshoot, ← h.leaves_next hroom hj hused hclear]
        simp only [Nat.add_assoc]
      · rw [h.scan_past hlt (by omega)]
        refine ⟨fuel, i + (n - 1), rfl, ?_, by omega⟩
        have hleaves : leaves pm n (hint pm + i) = hint pm + i := if_pos (by omega)
        rw [overshoot, hleaves, if_neg hend]
        omega

theorem scan_some_iff (h : Hinted pm n) :
    (∃ b, scan pm n (pm.memoryPages + 1) 0 = .ok (some b)) ↔
      ∃ s, Run pm n s ∧ (hint pm ≤ s ∨ overshoot pm n (hint pm) ≤ s) := by
  have hn := h.pos
  have hlt := h.hint_lt
  have hcross : (∀ s, hint pm ≤ s → ¬ Run pm n s) → ∃ fuel' i',
      scan pm n (pm.memoryPages + 1) 0 = scan pm n fuel' i' ∧
      hint pm + i' = pm.memoryPages + overshoot pm n (hint pm) ∧ pm.memoryPages - i' < fuel' :=
    fun hnone => h.scan_crosses (i := 0) (by omega) hnone (by omega)
  constructor
  · rintro ⟨b, hb⟩
    by_contra hno
    push Not at hno
    have hnone : ∀ s, hint pm ≤ s → ¬ Run pm n s := fun s hs hrun => (hno s hrun).1.not_ge hs
    obtain ⟨fuel', i', heq, hi', hf⟩ := hcross hnone
    rw [heq, h.scan_none (by omega) (fun s hs _ hrun => ?_) hf] at hb
    · cases hb
    · have := (hno s hrun).2
      omega
  · rintro ⟨s, hrun, hs⟩
    have hroom := hrun.1
    by_cases hlater : ∃ s, hint pm ≤ s ∧ Run pm n s
    · obtain ⟨s, hs, hrun⟩ := hlater
      have hroom := hrun.1
      exact h.scan_finds hrun (s - hint pm) (by omega) (by omega)
        (by rw [h.blockAt_eq (by omega), if_pos (by omega)]; omega) (by omega) (by omega)
    · have hnone : ∀ s, hint pm ≤ s → ¬ Run pm n s := fun s hs hrun => hlater ⟨s, hs, hrun⟩
      have hbefore : s < hint pm := not_le.mp fun hc => hnone s hc hrun
      obtain ⟨fuel', i', heq, hi', hf⟩ := hcross hnone
      rw [heq]
      exact h.scan_finds hrun (s + pm.memoryPages - hint pm) (by omega) (by omega)
        (by rw [h.blockAt_eq (by omega), if_neg (by omega)]; omega) (by omega) hf

end Hinted

/-- `memory_alloc` returns pages. -/
def Found (pm : Physmem) (n : ℕ) : Prop := ∃ pm' ptr, memoryAlloc pm n = .ok (pm', ptr) ∧ ptr ≠ 0

/-- The pages that the scan looks at hold a clear block, if there is one at all. -/
def WithinReach (pm : Physmem) (n : ℕ) : Prop :=
  (∃ s, Run pm n s) → ∃ s, Run pm n s ∧ (hint pm ≤ s ∨ overshoot pm n (hint pm) ≤ s)

theorem found_iff (h : pm.Counted) (hh : Hinted pm n) (hfree : n < pm.free.card) :
    Found pm n ↔ ∃ b, scan pm n (pm.memoryPages + 1) 0 = .ok (some b) := by
  have hle := pm.pages_le
  have hcard : pm.free.card ≤ pm.memoryPages := Bitmap.card_free_le _ _
  have hcount : n < (pm.freePages % 2 ^ 32).toNat := by
    rw [h.count]
    omega
  have hpos : 0 < n := hh.pos
  have halloc : memoryAlloc pm n = memoryMultipleAlloc pm n := by
    rw [memoryAlloc, assert_of hpos, ok_bind, if_pos hcount]
  obtain ⟨res, hres, hspec⟩ := scan_spec hh.pos hh.lt.le (pm.memoryPages + 1) 0 (by omega)
  rw [Found, halloc, memoryMultipleAlloc, hres, ok_bind]
  cases res with
  | none =>
    refine iff_of_false ?_ (by simp)
    rintro ⟨pm', ptr, heq, hne⟩
    cases heq
    exact hne rfl
  | some b =>
    obtain ⟨hroom, hclear⟩ := hspec b rfl
    refine iff_of_true ⟨_, _, rfl, fun hz => ?_⟩ ⟨b, rfl⟩
    have hset := h.null b (by omega) hz
    simp [hclear b le_rfl (by omega)] at hset

/-- With more clear pages than are asked for, a block that is there is found exactly when one lies
within the reach of the scan. -/
theorem memoryAlloc_finds_iff (h : pm.Counted) (h₀ : 0 ≤ pm.lastPage)
    (hlast : pm.lastPage ≤ pm.memoryPages) (hn : 1 ≤ n) (hfree : n < pm.free.card) :
    ((∃ s, Run pm n s) → Found pm n) ↔ WithinReach pm n := by
  have hcard : pm.free.card ≤ pm.memoryPages := Bitmap.card_free_le _ _
  have hh : Hinted pm n := ⟨h₀, hlast, hn, by omega⟩
  rw [found_iff h hh hfree, hh.scan_some_iff]
  exact Iff.rfl

/-- Eight pages from address 0, of which the first and the sixth are in use. -/
def eightPages (lastPage : ℤ) : Physmem := ⟨fun _ => 0b100001, 8, 0, 6, lastPage, by norm_num⟩

theorem eightPages_counted (lastPage : ℤ) : (eightPages lastPage).Counted := by
  refine ⟨(by decide : (6 : ℤ) = (Bitmap.free (fun _ => (0b100001 : BitVec BLOCK_BITS)) 8).card),
    ?_⟩
  change ∀ b < 8, add32 (b * PAGE_SIZE) 0 = 0 →
    Bitmap.test (fun _ => (0b100001 : BitVec BLOCK_BITS)) b = true
  decide

theorem run_eightPages (lastPage : ℤ) : Run (eightPages lastPage) 4 1 := by
  refine ⟨(by decide : 1 + 4 ≤ 8), fun p hp hlt => ?_⟩
  change Bitmap.test (fun _ => (0b100001 : BitVec BLOCK_BITS)) p = false
  interval_cases p <;> decide

theorem memoryAlloc_finds_iff_eightPages : Found (eightPages 0) 4 := by
  have hfree : 4 < (eightPages 0).free.card :=
    (by decide : 4 < (Bitmap.free (fun _ => (0b100001 : BitVec BLOCK_BITS)) 8).card)
  exact (memoryAlloc_finds_iff (eightPages_counted 0) le_rfl (by decide) (by decide) hfree).mpr
    (fun _ => ⟨1, run_eightPages 0, .inl (by decide)⟩) ⟨1, run_eightPages 0⟩

/-- From the last page the scan jumps over the second one, where four clear pages start. -/
theorem clear_pages_missed :
    (eightPages 7).Counted ∧ 4 < (eightPages 7).free.card ∧ Run (eightPages 7) 4 1 ∧
      ¬ Found (eightPages 7) 4 := by
  have hfree : 4 < (eightPages 7).free.card :=
    (by decide : 4 < (Bitmap.free (fun _ => (0b100001 : BitVec BLOCK_BITS)) 8).card)
  refine ⟨eightPages_counted 7, hfree, run_eightPages 7, ?_⟩
  rintro ⟨pm', ptr, heq, hne⟩
  have hnull : (memoryAlloc (eightPages 7) 4).toOption.map Prod.snd = some 0 := by decide
  rw [heq] at hnull
  exact hne (Option.some.inj hnull)

end Racoon.PhysicalMemory
