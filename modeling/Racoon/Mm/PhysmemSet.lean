import Racoon.Mm.Physmem

/-!
# Marking a range of memory

`memory_set` rounds the ends of a range to whole pages, outwards to set their
bits and inwards to clear them, and marks as many pages as the difference of the
rounded ends says. A range inside one page has its rounded start behind its
rounded end, and the unsigned difference is then all pages but one.
-/

namespace Racoon.PhysicalMemory
open Lib
variable {pm : Physmem} {pstart pend start n p used : ℕ}

/-- The words that `bootstrap_memory` reserves for the bitmap. -/
def bitmapWords (pm : Physmem) : ℕ :=
  pm.memoryPages / BLOCK_BITS + if pm.memoryPages % BLOCK_BITS ≠ 0 then 1 else 0

/-- One page in the loop of `memory_set`. The macros answer the bit as it was. -/
def markPage (used : ℕ) (pm : Physmem) (page : ℕ) : Physmem :=
  if used = 1 then
    { pm with
      memoryBitmap := Bitmap.set pm.memoryBitmap page
      freePages := if pm.isSet page then pm.freePages else pm.freePages - 1 }
  else
    { pm with
      memoryBitmap := Bitmap.clear pm.memoryBitmap page
      freePages := if pm.isSet page then pm.freePages + 1 else pm.freePages }

/-- The loop of `memory_set`. -/
def markPages (used : ℕ) (pm : Physmem) (start : ℕ) : ℕ → Outcome Physmem
  | 0 => .ok pm
  | n + 1 => do
    let pm ← markPages used pm start n
    let page := add32 start n
    if page / BLOCK_BITS < bitmapWords pm then .ok (markPage used pm page)
    else .error .badAccess

/-- `(p / PAGE_SIZE) * PAGE_SIZE`, where that is not `p` already. -/
def roundDown (p : ℕ) : ℕ := if p % PAGE_SIZE ≠ 0 then p / PAGE_SIZE * PAGE_SIZE else p

/-- `((p / PAGE_SIZE)+1) * PAGE_SIZE`, where `p` is not whole. -/
def roundUp (p : ℕ) : ℕ :=
  if p % PAGE_SIZE ≠ 0 then (p / PAGE_SIZE + 1) * PAGE_SIZE % 2 ^ 32 else p

def memorySet (pm : Physmem) (pstart pend used : ℕ) : Outcome Physmem :=
  let first := if used = 1 then roundDown pstart else roundUp pstart
  let last := if used = 1 then roundUp pend else roundDown pend
  let start := sub32 first pm.memoryOffset / PAGE_SIZE
  let pages := sub32 last first / PAGE_SIZE
  markPages used pm start pages

/-- An address of the page lies in the range. -/
def Touches (pm : Physmem) (pstart pend p : ℕ) : Prop :=
  ∃ a, (pstart ≤ a ∧ a < pend) ∧ pm.memoryOffset + p * PAGE_SIZE ≤ a ∧
    a < pm.memoryOffset + (p + 1) * PAGE_SIZE

/-- All addresses of the page lie in the range. -/
def Within (pm : Physmem) (pstart pend p : ℕ) : Prop :=
  pstart ≤ pm.memoryOffset + p * PAGE_SIZE ∧ pm.memoryOffset + (p + 1) * PAGE_SIZE ≤ pend

/-- The page of an address. -/
def pageOf (pm : Physmem) (a : ℕ) : ℕ := (a - pm.memoryOffset) / PAGE_SIZE

/-- A range of managed memory. -/
structure Managed (pm : Physmem) (pstart pend : ℕ) : Prop where
  offset : PAGE_SIZE ∣ pm.memoryOffset
  start : pm.memoryOffset ≤ pstart
  le : pstart ≤ pend
  inside : pend ≤ pm.memoryOffset + pm.memoryPages * PAGE_SIZE
  top : pend < 2 ^ 32

/-- Exactly the pages that the range touches are marked as used. -/
def SetsTouched (pm : Physmem) (pstart pend : ℕ) : Prop :=
  ∃ pm', memorySet pm pstart pend 1 = .ok pm' ∧
    (∀ p, pm'.isSet p = true ↔ Touches pm pstart pend p ∨ pm.isSet p = true) ∧
    pm'.freePages = pm'.free.card

/-- Exactly the pages within the range are marked as free. -/
def ClearsWithin (pm : Physmem) (pstart pend : ℕ) : Prop :=
  ∃ pm', memorySet pm pstart pend 0 = .ok pm' ∧
    (∀ p, pm'.isSet p = true ↔ ¬ Within pm pstart pend p ∧ pm.isSet p = true) ∧
    pm'.freePages = pm'.free.card

theorem lt_bitmapWords : p / BLOCK_BITS < bitmapWords pm ↔ p < BLOCK_BITS * bitmapWords pm := by
  rw [Nat.div_lt_iff_lt_mul (by decide), Nat.mul_comm]

theorem le_bitmapWords (pm : Physmem) : pm.memoryPages ≤ BLOCK_BITS * bitmapWords pm ∧
    BLOCK_BITS * bitmapWords pm < pm.memoryPages + BLOCK_BITS := by
  unfold bitmapWords BLOCK_BITS
  split_ifs <;> omega

theorem bitmapWords_le (pm : Physmem) : BLOCK_BITS * bitmapWords pm ≤ 2 ^ 20 := by
  have := pm.pages_le
  unfold bitmapWords BLOCK_BITS
  split_ifs <;> omega

/-- What marking does to the bits of the pages, and to the counter. -/
structure Marked (used : ℕ) (pm : Physmem) (start n : ℕ) (pm' : Physmem) : Prop where
  pages : pm'.memoryPages = pm.memoryPages
  offset : pm'.memoryOffset = pm.memoryOffset
  bits : ∀ p, pm'.isSet p = if start ≤ p ∧ p < start + n then decide (used = 1) else pm.isSet p
  count : start + n ≤ pm.memoryPages → pm.freePages = pm.free.card → pm'.freePages = pm'.free.card
  same : (∀ p, start ≤ p → p < start + n → pm.isSet p = decide (used = 1)) →
    pm'.freePages = pm.freePages

theorem isSet_markPage (i : ℕ) :
    (markPage used pm i).isSet p = if p = i then decide (used = 1) else pm.isSet p := by
  by_cases hu : used = 1
  · rw [markPage, if_pos hu]
    change Bitmap.test (Bitmap.set _ _) p = _
    by_cases hp : p = i
    · simp [test_set, hp, hu]
    · simp [test_set, hp, Physmem.isSet]
  · rw [markPage, if_neg hu]
    change Bitmap.test (Bitmap.clear _ _) p = _
    by_cases hp : p = i
    · simp [test_clear, hp, hu]
    · simp [test_clear, hp, Physmem.isSet]

theorem count_markPage {i : ℕ} (hi : i < pm.memoryPages) (h : pm.freePages = pm.free.card) :
    (markPage used pm i).freePages = (markPage used pm i).free.card := by
  have hw : 0 < BLOCK_BITS := by decide
  by_cases hu : used = 1
  · rw [markPage, if_pos hu, Physmem.free]
    dsimp only
    split_ifs with hset
    · have hout : i ∉ Bitmap.free pm.memoryBitmap pm.memoryPages := fun hm => by
        rw [Physmem.isSet, (Bitmap.mem_free.mp hm).2] at hset
        cases hset
      rw [h, Physmem.free, Bitmap.free_set hw, Finset.erase_eq_of_notMem hout]
    · have hcard := Bitmap.card_free_set hw hi (Bool.eq_false_iff.mpr hset)
      rw [h, Physmem.free]
      omega
  · rw [markPage, if_neg hu, Physmem.free]
    dsimp only
    split_ifs with hset
    · have hcard := Bitmap.card_free_clear hw hi hset
      rw [h, Physmem.free]
      omega
    · have hin : i ∈ Bitmap.free pm.memoryBitmap pm.memoryPages :=
        Bitmap.mem_free.mpr ⟨hi, Bool.eq_false_iff.mpr hset⟩
      rw [h, Physmem.free, Bitmap.free_clear hw _ hi, Finset.insert_eq_of_mem hin]

theorem freePages_markPage {i : ℕ} (h : pm.isSet i = decide (used = 1)) :
    (markPage used pm i).freePages = pm.freePages := by
  unfold markPage
  split_ifs with hu hset hset
  · rfl
  · simp [h, hu] at hset
  · simp [h, hu] at hset
  · rfl

@[simp] theorem memoryPages_markPage (i : ℕ) :
    (markPage used pm i).memoryPages = pm.memoryPages := by
  unfold markPage
  split_ifs <;> rfl

@[simp] theorem memoryOffset_markPage (i : ℕ) :
    (markPage used pm i).memoryOffset = pm.memoryOffset := by
  unfold markPage
  split_ifs <;> rfl

theorem bitmapWords_congr {pm' : Physmem} (h : pm'.memoryPages = pm.memoryPages) :
    bitmapWords pm' = bitmapWords pm := by
  rw [bitmapWords, bitmapWords, h]

/-- Inside the bitmap, all pages are marked. -/
theorem markPages_eq (used : ℕ) (hroom : start + n ≤ BLOCK_BITS * bitmapWords pm) :
    ∃ pm', markPages used pm start n = .ok pm' ∧ Marked used pm start n pm' := by
  have htop := bitmapWords_le pm
  induction n with
  | zero => exact ⟨pm, rfl, rfl, rfl, fun p => by simp, fun _ h => h, fun _ => rfl⟩
  | succ n ih =>
    obtain ⟨pm₁, hrun, h⟩ := ih (by omega)
    have hpage : add32 start n = start + n := add32_of_lt (by omega)
    refine ⟨markPage used pm₁ (start + n), ?_, (memoryPages_markPage _).trans h.pages,
      (memoryOffset_markPage _).trans h.offset, fun p => ?_, fun hle hcount => ?_, fun hsame => ?_⟩
    · rw [markPages, hrun, ok_bind]
      dsimp only
      rw [hpage, if_pos]
      rw [lt_bitmapWords, bitmapWords_congr h.pages]
      omega
    · rw [isSet_markPage, h.bits]
      split_ifs <;> first | rfl | omega
    · exact count_markPage (by rw [h.pages]; omega) (h.count (by omega) hcount)
    · rw [freePages_markPage, h.same fun p hp hlt => hsame p hp (by omega)]
      rw [h.bits, if_neg (by omega)]
      exact hsame _ (by omega) (by omega)

/-- Behind the bitmap, the marking faults. -/
theorem markPages_error (used : ℕ) (hroom : BLOCK_BITS * bitmapWords pm < start + n)
    (hn : 0 < n) (htop : start + n ≤ 2 ^ 32) : ∃ e, markPages used pm start n = .error e := by
  induction n with
  | zero => omega
  | succ n ih =>
    rw [markPages]
    by_cases hfirst : BLOCK_BITS * bitmapWords pm < start + n ∧ 0 < n
    · obtain ⟨e, he⟩ := ih hfirst.1 hfirst.2 (by omega)
      exact ⟨e, by rw [he]; rfl⟩
    · -- this page is the first one behind
      cases hrun : markPages used pm start n with
      | error e => exact ⟨e, rfl⟩
      | ok pm' =>
        have hwords : bitmapWords pm' = bitmapWords pm := by
          by_cases hle : start + n ≤ BLOCK_BITS * bitmapWords pm
          · obtain ⟨pm₁, hrun₁, h⟩ := markPages_eq used hle
            cases hrun.symm.trans hrun₁
            exact bitmapWords_congr h.pages
          · obtain rfl : n = 0 := by omega
            cases hrun
            rfl
        refine ⟨.badAccess, ?_⟩
        rw [ok_bind]
        dsimp only
        rw [add32_of_lt (by omega), if_neg]
        rw [lt_bitmapWords, hwords]
        omega

/-- Outwards: the range is not empty inside a page that is clear, and does not go from the first
page of the address space into the last while a page is clear. -/
def SetFits (pm : Physmem) (pstart pend : ℕ) : Prop :=
  ¬ (pstart = pend ∧ pstart % PAGE_SIZE ≠ 0 ∧ pm.isSet (pageOf pm pstart) = false) ∧
  ¬ (pstart < PAGE_SIZE ∧ 2 ^ 32 - PAGE_SIZE < pend ∧ ∃ p < pm.memoryPages, pm.isSet p = false)

/-- Inwards: the range does not lie inside one page, or the whole address space is managed, the page
is its first or last and all others are clear already. -/
def ClearFits (pm : Physmem) (pstart pend : ℕ) : Prop :=
  pstart % PAGE_SIZE = 0 ∨ pstart / PAGE_SIZE < pend / PAGE_SIZE ∨
  (2 ^ 20 - BLOCK_BITS < pm.memoryPages ∧
    (pageOf pm pstart = 0 ∨ pageOf pm pstart = 2 ^ 20 - 1) ∧
    ∀ p < 2 ^ 20, p ≠ pageOf pm pstart → pm.isSet p = false)

namespace Managed

/-- In whole pages. -/
theorem exists_page (h : Managed pm pstart pend) : ∃ o, pm.memoryOffset = o * 4096 ∧
    o ≤ pstart / 4096 ∧ (pend + 4095) / 4096 ≤ o + pm.memoryPages ∧
    pageOf pm pstart = pstart / 4096 - o := by
  obtain ⟨⟨o, ho⟩, hs, hle, hin, htop⟩ := h
  unfold PAGE_SIZE at ho hin
  refine ⟨o, by omega, by omega, by omega, ?_⟩
  unfold pageOf PAGE_SIZE
  omega

theorem touches_iff (h : Managed pm pstart pend) {o : ℕ} (ho : pm.memoryOffset = o * 4096) :
    Touches pm pstart pend p ↔
      pstart < pend ∧ pstart / 4096 ≤ o + p ∧ o + p < (pend + 4095) / 4096 := by
  have hle := h.le
  unfold Touches PAGE_SIZE
  constructor
  · rintro ⟨a, ⟨h₁, h₂⟩, h₃, h₄⟩
    omega
  · rintro ⟨h₁, h₂, h₃⟩
    exact ⟨max pstart (pm.memoryOffset + p * 4096), by omega, by omega, by omega⟩

theorem within_iff {o : ℕ} (ho : pm.memoryOffset = o * 4096) :
    Within pm pstart pend p ↔ (pstart + 4095) / 4096 ≤ o + p ∧ o + p < pend / 4096 := by
  unfold Within PAGE_SIZE
  omega

/-- The pages marked as used. Where the rounded end wraps to 0, the difference is right again, but
for a range from the page at 0 on. -/
theorem memorySet_one (h : Managed pm pstart pend) {o : ℕ} (ho : pm.memoryOffset = o * 4096)
    (hb : o ≤ pstart / 4096) :
    memorySet pm pstart pend 1 = markPages 1 pm (pstart / 4096 - o)
      (if pstart / 4096 = 0 ∧ (pend + 4095) / 4096 = 2 ^ 20 then 0
        else (pend + 4095) / 4096 - pstart / 4096) := by
  have hle := h.le
  have htop := h.top
  have hfirst : roundDown pstart = pstart / 4096 * 4096 := by
    unfold roundDown PAGE_SIZE
    split_ifs <;> omega
  have hlast : roundUp pend = (pend + 4095) / 4096 * 4096 % 2 ^ 32 := by
    unfold roundUp PAGE_SIZE
    split_ifs <;> omega
  rw [memorySet, if_pos rfl, if_pos rfl, hfirst, hlast, ho]
  unfold sub32 PAGE_SIZE
  congr 1
  · omega
  · split_ifs <;> omega

/-- The pages marked as free. -/
theorem memorySet_zero (h : Managed pm pstart pend) {o : ℕ} (ho : pm.memoryOffset = o * 4096)
    (hb : o ≤ pstart / 4096) :
    memorySet pm pstart pend 0 =
      if (pstart + 4095) / 4096 ≤ pend / 4096 then
        markPages 0 pm ((pstart + 4095) / 4096 - o) (pend / 4096 - (pstart + 4095) / 4096)
      else markPages 0 pm (if (pstart + 4095) / 4096 = 2 ^ 20 ∧ o = 0 then 0
        else (pstart + 4095) / 4096 - o) (2 ^ 20 - 1) := by
  have hle := h.le
  have htop := h.top
  have hfirst : roundUp pstart = (pstart + 4095) / 4096 * 4096 % 2 ^ 32 := by
    unfold roundUp PAGE_SIZE
    split_ifs <;> omega
  have hlast : roundDown pend = pend / 4096 * 4096 := by
    unfold roundDown PAGE_SIZE
    split_ifs <;> omega
  rw [memorySet, if_neg (by decide), if_neg (by decide), hfirst, hlast, ho]
  unfold sub32 PAGE_SIZE
  split_ifs with hc hw
  · congr 1 <;> omega
  · congr 1 <;> omega
  · congr 1 <;> omega

/-- Marking pages as used rounds the safe way exactly when the range fits. -/
theorem setsTouched_iff (h : Managed pm pstart pend) (hcount : pm.freePages = pm.free.card) :
    SetsTouched pm pstart pend ↔ SetFits pm pstart pend := by
  obtain ⟨o, ho, hb, he, hpage⟩ := h.exists_page
  have hle := h.le
  have htop := h.top
  have hpages := pm.pages_le
  have hwords := (le_bitmapWords pm).1
  have hroom : pstart / 4096 - o + (if pstart / 4096 = 0 ∧ (pend + 4095) / 4096 = 2 ^ 20 then 0
      else (pend + 4095) / 4096 - pstart / 4096) ≤ pm.memoryPages := by
    split_ifs <;> omega
  obtain ⟨pm', hrun, hmarked⟩ := markPages_eq 1 (hroom.trans hwords)
  rw [← h.memorySet_one ho hb] at hrun
  have hbits := hmarked.bits
  rw [SetFits, hpage]
  unfold PAGE_SIZE
  constructor
  · rintro ⟨pm₁, hrun₁, hright, -⟩
    cases hrun.symm.trans hrun₁
    refine ⟨?_, ?_⟩
    · rintro ⟨rfl, hodd, hclear⟩
      -- the page is marked, though no address is in the range
      have hset : pm'.isSet (pstart / 4096 - o) = true := by
        rw [hbits, if_pos]
        · rfl
        · split_ifs <;> omega
      rcases (hright _).mp hset with htouch | hset
      · have := ((h.touches_iff ho).mp htouch).1
        omega
      · rw [hclear] at hset
        cases hset
    · rintro ⟨hlow, hhigh, p, hp, hclear⟩
      have htouch : Touches pm pstart pend p := (h.touches_iff ho).mpr (by omega)
      have hset := (hright p).mpr (.inl htouch)
      rw [hbits, if_neg (by rw [if_pos (by omega)]; omega), hclear] at hset
      cases hset
  · rintro ⟨hempty, hwhole⟩
    refine ⟨pm', hrun, fun p => ?_, hmarked.count hroom hcount⟩
    rw [hbits p, h.touches_iff ho]
    by_cases hwrap : pstart / 4096 = 0 ∧ (pend + 4095) / 4096 = 2 ^ 20
    · rw [if_pos hwrap, if_neg (by omega)]
      refine ⟨.inr, fun hc => ?_⟩
      by_contra hset
      have hin := hc.resolve_right hset
      exact hwhole ⟨by omega, by omega, p, by omega, Bool.eq_false_iff.mpr hset⟩
    · rw [if_neg hwrap]
      split_ifs with hin
      · refine iff_of_true rfl ?_
        by_cases hlt : pstart < pend
        · exact .inl ⟨hlt, by omega, by omega⟩
        · -- the range is empty, and its page is set already
          obtain rfl : pstart = pend := by omega
          obtain rfl : p = pstart / 4096 - o := by omega
          refine .inr ?_
          by_contra hset
          exact hempty ⟨rfl, by omega, Bool.eq_false_iff.mpr hset⟩
      · exact ⟨.inr, fun hc => hc.resolve_left (by omega)⟩

/-- Marking pages as free rounds the safe way exactly when the range fits. -/
theorem clearsWithin_iff (h : Managed pm pstart pend) (hcount : pm.freePages = pm.free.card) :
    ClearsWithin pm pstart pend ↔ ClearFits pm pstart pend := by
  obtain ⟨o, ho, hb, he, hpage⟩ := h.exists_page
  have hle := h.le
  have htop := h.top
  have hpages := pm.pages_le
  obtain ⟨hwords, hwords'⟩ := le_bitmapWords pm
  have hrun := h.memorySet_zero ho hb
  rw [ClearFits, hpage]
  unfold PAGE_SIZE
  by_cases hc : (pstart + 4095) / 4096 ≤ pend / 4096
  · rw [if_pos hc] at hrun
    have hroom : (pstart + 4095) / 4096 - o + (pend / 4096 - (pstart + 4095) / 4096) ≤
        pm.memoryPages := by omega
    obtain ⟨pm', hrun', hmarked⟩ := markPages_eq 0 (hroom.trans hwords)
    refine iff_of_true ⟨pm', hrun.trans hrun', fun p => ?_, hmarked.count hroom hcount⟩ (by omega)
    rw [hmarked.bits, within_iff ho]
    split_ifs with hin
    · exact iff_of_false (by decide) fun hc => hc.1 (by omega)
    · exact (and_iff_right (by omega)).symm
  · -- the rounded start is behind the rounded end, and all pages but one are marked
    rw [if_neg hc] at hrun
    have hnone : ∀ p, ¬ Within pm pstart pend p := fun p hw => by
      have := (within_iff ho).mp hw
      omega
    generalize hst : (if (pstart + 4095) / 4096 = 2 ^ 20 ∧ o = 0 then 0
      else (pstart + 4095) / 4096 - o) = st at hrun
    have hplace : (st = 0 ∧ pstart / 4096 - o = 2 ^ 20 - 1) ∨ (st = pstart / 4096 - o + 1 ∧
        ¬ pstart / 4096 - o = 2 ^ 20 - 1) := by
      split_ifs at hst <;> omega
    by_cases hroom : st + (2 ^ 20 - 1) ≤ BLOCK_BITS * bitmapWords pm
    · obtain ⟨pm', hrun', hmarked⟩ := markPages_eq 0 hroom
      have hbits := hmarked.bits
      have hsize : 2 ^ 20 - BLOCK_BITS < pm.memoryPages := by
        have : 2 ^ 20 ≤ BLOCK_BITS * bitmapWords pm := by
          unfold BLOCK_BITS at hroom ⊢
          omega
        omega
      have htop' := bitmapWords_le pm
      constructor
      · rintro ⟨pm₁, hrun₁, hright, -⟩
        cases (hrun.trans hrun').symm.trans hrun₁
        refine .inr (.inr ⟨hsize, by omega, fun p hp hne => ?_⟩)
        by_contra hset
        have hset' := (hright p).mpr ⟨hnone p, Bool.not_eq_false _ ▸ hset⟩
        rw [hbits, if_pos (by omega)] at hset'
        cases hset'
      · intro hfits
        obtain ⟨-, -, hclear⟩ := (hfits.resolve_left (by omega)).resolve_left (by omega)
        have hsame : ∀ p, pm'.isSet p = pm.isSet p := fun p => by
          rw [hbits]
          split_ifs with hin
          · exact (hclear p (by omega) (by omega)).symm
          · rfl
        refine ⟨pm', hrun.trans hrun', fun p => ?_, ?_⟩
        · rw [hsame, and_iff_right (hnone p)]
        · have hfree : pm'.free = pm.free := Finset.ext fun p => by
            rw [Physmem.free, Physmem.free, Bitmap.mem_free, Bitmap.mem_free, hmarked.pages]
            exact and_congr_right fun _ => by rw [← Physmem.isSet, ← Physmem.isSet, hsame]
          rw [hmarked.same fun p hp hlt => hclear p (by omega) (by omega), hfree, hcount]
    · refine iff_of_false ?_ ?_
      · rintro ⟨pm₁, hrun₁, -⟩
        obtain ⟨e, he⟩ := markPages_error 0 (not_le.mp hroom) (by decide) (by omega)
        cases (hrun.trans he).symm.trans hrun₁
      · intro hfits
        obtain ⟨hsize, hfirst, -⟩ := (hfits.resolve_left (by omega)).resolve_left (by omega)
        have hfull : 2 ^ 20 ≤ BLOCK_BITS * bitmapWords pm := by
          unfold BLOCK_BITS at hsize hwords ⊢
          omega
        omega

end Managed

/-- `memory_set` rounds the safe way exactly when the range fits, whether pages are marked as used
or as free. -/
theorem memorySet_rounds_iff (h : Managed pm pstart pend) (hcount : pm.freePages = pm.free.card) :
    (SetsTouched pm pstart pend ↔ SetFits pm pstart pend) ∧
      (ClearsWithin pm pstart pend ↔ ClearFits pm pstart pend) :=
  ⟨h.setsTouched_iff hcount, h.clearsWithin_iff hcount⟩

theorem four_pages_le : 4 ≤ 2 ^ 20 := by norm_num

/-- Four pages from address 0, of which the first is in use. -/
def firstUsed : Physmem := ⟨fun _ => 1, 4, 0, 3, 0, four_pages_le⟩

theorem firstUsed_count : firstUsed.freePages = firstUsed.free.card :=
  (by decide : (3 : ℤ) = (Bitmap.free (fun _ => (1 : BitVec BLOCK_BITS)) 4).card)

theorem managed_firstUsed (h : pstart ≤ pend) (hle : pend ≤ 16384) :
    Managed firstUsed pstart pend :=
  ⟨dvd_zero _, Nat.zero_le _, h, (by omega : pend ≤ 0 + 4 * 4096), by omega⟩

theorem memorySet_rounds_iff_firstUsed :
    SetsTouched firstUsed 4100 8200 ∧ ClearsWithin firstUsed 4100 12288 :=
  ⟨(memorySet_rounds_iff (managed_firstUsed (by decide) (by decide)) firstUsed_count).1.mpr
      ⟨fun hc => absurd hc.1 (by decide), fun hc => absurd hc.1 (by decide)⟩,
    (memorySet_rounds_iff (managed_firstUsed (by decide) (by decide)) firstUsed_count).2.mpr
      (.inr (.inl (by decide)))⟩

/-- A range inside the second page: to free it runs out of the bitmap. An empty one takes a page. -/
theorem part_of_page :
    Managed firstUsed 4100 4200 ∧ firstUsed.freePages = firstUsed.free.card ∧
      (∃ e, memorySet firstUsed 4100 4200 0 = .error e) ∧ ¬ ClearsWithin firstUsed 4100 4200 ∧
      Managed firstUsed 4100 4100 ∧ ¬ SetsTouched firstUsed 4100 4100 := by
  have hpart := managed_firstUsed (show 4100 ≤ 4200 by decide) (by decide)
  have hfault : ∃ e, memorySet firstUsed 4100 4200 0 = .error e := by
    rw [hpart.memorySet_zero (show firstUsed.memoryOffset = 0 * 4096 from rfl) (Nat.zero_le _)]
    exact markPages_error 0 (by decide) (by decide) (by decide)
  refine ⟨hpart, firstUsed_count, hfault, ?_, managed_firstUsed le_rfl (by decide), fun hset => ?_⟩
  · rintro ⟨pm', hrun, -⟩
    obtain ⟨e, he⟩ := hfault
    cases he.symm.trans hrun
  · obtain ⟨pm', hrun, hright, -⟩ := hset
    have htaken : (memorySet firstUsed 4100 4100 1).toOption.map (fun pm => pm.isSet 1) =
        some true := by decide
    rw [hrun] at htaken
    rcases (hright 1).mp (Option.some.inj htaken) with ⟨a, ha, -⟩ | hused
    · omega
    · exact absurd hused (by decide)

end Racoon.PhysicalMemory
