import Racoon.Mm.BootRecords
import Racoon.Mm.PhysmemLedger

/-!
# The pages that are free after the boot

Each pass over ranges of memory marks a set of pages that the ranges determine,
or faults. The passes together leave exactly those pages free that lie in usable
memory and have no address in common with a reserved range or with the bitmap.
-/

namespace Racoon.Bootstrap
open PhysicalMemory Lib
variable {b : Boot} {r : Range} {l : List Range} {pm pm' pm'' : Physmem} {used : ℕ}

/-- The page and the range have an address in common. -/
def Range.Touches (r : Range) (p : ℕ) : Prop :=
  r.start < (p + 1) * PAGE_SIZE ∧ p * PAGE_SIZE ≤ r.stop

/-- The page lies in the range. -/
def Range.Holds (r : Range) (p : ℕ) : Prop :=
  r.start ≤ p * PAGE_SIZE ∧ (p + 1) * PAGE_SIZE ≤ r.stop + 1

theorem Range.Holds.le {p : ℕ} (h : r.Holds p) : p * PAGE_SIZE ≤ r.stop := by
  obtain ⟨-, hstop⟩ := h
  rw [Nat.add_mul] at hstop
  have hpos : 0 < PAGE_SIZE := by decide
  omega

/-- An allocator of less than two gigabytes from address 0 on. -/
structure Low (pm : Physmem) : Prop where
  offset : pm.memoryOffset = 0
  pages : pm.memoryPages < 2 ^ 19

/-- What marking the pages of `C` does. -/
structure Swept (used : ℕ) (pm : Physmem) (C : ℕ → Prop) (pm' : Physmem) : Prop where
  pages : pm'.memoryPages = pm.memoryPages
  offset : pm'.memoryOffset = pm.memoryOffset
  marked : ∀ p, C p → pm'.isSet p = decide (used = 1)
  rest : ∀ p, ¬ C p → pm'.isSet p = pm.isSet p
  count : (∀ p, C p → p < pm.memoryPages) → pm.freePages = pm.free.card →
    pm'.freePages = pm'.free.card

theorem Swept.low {C : ℕ → Prop} (h : Swept used pm C pm') (hlow : Low pm) : Low pm' :=
  ⟨h.offset.trans hlow.offset, h.pages.symm ▸ hlow.pages⟩

theorem Swept.congr {C D : ℕ → Prop} (h : Swept used pm C pm') (hD : ∀ p, C p ↔ D p) :
    Swept used pm D pm' := by
  obtain rfl : C = D := funext fun p => propext (hD p)
  exact h

theorem Swept.trans {C D : ℕ → Prop} (h : Swept used pm C pm') (h' : Swept used pm' D pm'') :
    Swept used pm (fun p => C p ∨ D p) pm'' where
  pages := h'.pages.trans h.pages
  offset := h'.offset.trans h.offset
  marked p hp := by
    by_cases hD : D p
    · exact h'.marked p hD
    · rw [h'.rest p hD, h.marked p (hp.resolve_right hD)]
  rest p hp := by
    rw [h'.rest p fun hD => hp (.inr hD), h.rest p fun hC => hp (.inl hC)]
  count hin hcount :=
    h'.count (fun p hp => h.pages.symm ▸ hin p (.inr hp))
      (h.count (fun p hp => hin p (.inl hp)) hcount)

theorem Swept.of_marked {start n : ℕ} (h : Marked used pm start n pm')
    (hzero : n = 0 → pm' = pm) :
    Swept used pm (fun p => start ≤ p ∧ p < start + n) pm' where
  pages := h.pages
  offset := h.offset
  marked p hp := by rw [h.bits, if_pos hp]
  rest p hp := by rw [h.bits, if_neg hp]
  count hin hcount := by
    rcases Nat.eq_zero_or_pos n with h0 | hn
    · rw [hzero h0]
      exact hcount
    · have hlast := hin (start + n - 1) (by omega)
      exact h.count (by omega) hcount

/-- With rounded ends in the wrong order, the count of pages runs over the end of the bitmap. -/
theorem markPages_rounded (hlow : Low pm) {f l : ℕ} (hf : f < 2 ^ 20) (hl : l ≤ 2 ^ 19)
    (h : markPages used pm f (sub32 (l * PAGE_SIZE) (f * PAGE_SIZE) / PAGE_SIZE) = .ok pm') :
    f ≤ l ∧ Swept used pm (fun p => f ≤ p ∧ p < l) pm' := by
  have hbits := (le_bitmapWords pm).2
  have hpages := hlow.pages
  have hn : f ≤ l ∧ sub32 (l * PAGE_SIZE) (f * PAGE_SIZE) / PAGE_SIZE = l - f ∨
      l < f ∧ sub32 (l * PAGE_SIZE) (f * PAGE_SIZE) / PAGE_SIZE = 2 ^ 20 + l - f := by
    unfold sub32 PAGE_SIZE
    omega
  generalize sub32 (l * PAGE_SIZE) (f * PAGE_SIZE) / PAGE_SIZE = n at h hn
  unfold BLOCK_BITS at hbits
  rcases Nat.eq_zero_or_pos n with rfl | hpos
  · cases h
    have hzero : Marked used pm f 0 pm := ⟨rfl, rfl, fun p => by simp, fun _ h => h, fun _ => rfl⟩
    exact ⟨by omega, (Swept.of_marked hzero fun _ => rfl).congr fun p => by omega⟩
  · by_cases hroom : f + n ≤ BLOCK_BITS * bitmapWords pm
    · obtain ⟨pm₁, hrun, hmarked⟩ := markPages_eq used hroom
      cases h.symm.trans hrun
      unfold BLOCK_BITS at hroom
      exact ⟨by omega, (Swept.of_marked hmarked fun h0 => by omega).congr fun p => by omega⟩
    · obtain ⟨e, he⟩ := markPages_error used (not_le.mp hroom) hpos (by omega)
      rw [h] at he
      cases he

theorem markPages_runs (used : ℕ) {f l : ℕ} (hl : l ≤ pm.memoryPages) (hf : f ≤ l) :
    ∃ pm', markPages used pm f (sub32 (l * PAGE_SIZE) (f * PAGE_SIZE) / PAGE_SIZE) = .ok pm' := by
  have hmax := pm.pages_le
  have hwords := (le_bitmapWords pm).1
  have hn : sub32 (l * PAGE_SIZE) (f * PAGE_SIZE) / PAGE_SIZE = l - f ∨
      l = 2 ^ 20 ∧ sub32 (l * PAGE_SIZE) (f * PAGE_SIZE) / PAGE_SIZE ≤ l - f := by
    unfold sub32 PAGE_SIZE
    omega
  obtain ⟨pm', hrun, -⟩ := @markPages_eq pm f _ used (by omega :
    f + sub32 (l * PAGE_SIZE) (f * PAGE_SIZE) / PAGE_SIZE ≤ BLOCK_BITS * bitmapWords pm)
  exact ⟨pm', hrun⟩

/-- Outwards to whole pages. -/
theorem callbackPhysmemRem_eq (hlow : Low pm) (hstart : r.start < 2 ^ 32)
    (hstop : r.stop + PAGE_SIZE < 2 ^ 31) : callbackPhysmemRem pm r =
      markPages 1 pm (r.start / PAGE_SIZE) (sub32 ((r.stop / PAGE_SIZE + 1) * PAGE_SIZE)
        (r.start / PAGE_SIZE * PAGE_SIZE) / PAGE_SIZE) := by
  have hfirst : roundDown r.start = r.start / PAGE_SIZE * PAGE_SIZE := by
    unfold roundDown PAGE_SIZE
    split_ifs <;> omega
  have hlast : roundUp (add32 r.stop 1) = (r.stop / PAGE_SIZE + 1) * PAGE_SIZE := by
    unfold PAGE_SIZE at *
    unfold roundUp add32 PAGE_SIZE
    split_ifs <;> omega
  have hpage : sub32 (r.start / PAGE_SIZE * PAGE_SIZE) pm.memoryOffset / PAGE_SIZE =
      r.start / PAGE_SIZE := by
    rw [hlow.offset]
    unfold sub32 PAGE_SIZE
    omega
  rw [callbackPhysmemRem, memorySet, if_pos rfl, if_pos rfl, hfirst, hlast]
  rw [hpage]

theorem callbackPhysmemRem_ok (hlow : Low pm) (hstart : r.start < 2 ^ 32)
    (hstop : r.stop + PAGE_SIZE < 2 ^ 31) (h : callbackPhysmemRem pm r = .ok pm') :
    Swept 1 pm r.Touches pm' := by
  rw [callbackPhysmemRem_eq hlow hstart hstop] at h
  unfold PAGE_SIZE at hstop
  obtain ⟨hle, hswept⟩ := markPages_rounded hlow (by unfold PAGE_SIZE; omega)
    (by unfold PAGE_SIZE; omega) h
  refine hswept.congr fun p => ?_
  unfold Range.Touches PAGE_SIZE
  omega

/-- Inwards to whole pages. -/
theorem callbackPhysmemAdd_eq (hlow : Low pm) (hle : r.start ≤ r.stop)
    (hstop : r.stop + PAGE_SIZE < 2 ^ 31) : callbackPhysmemAdd pm r =
      markPages 0 pm ((r.start + (PAGE_SIZE - 1)) / PAGE_SIZE)
        (sub32 ((r.stop + 1) / PAGE_SIZE * PAGE_SIZE)
          ((r.start + (PAGE_SIZE - 1)) / PAGE_SIZE * PAGE_SIZE) / PAGE_SIZE) := by
  have hfirst : roundUp r.start = (r.start + (PAGE_SIZE - 1)) / PAGE_SIZE * PAGE_SIZE := by
    unfold PAGE_SIZE at *
    unfold roundUp PAGE_SIZE
    split_ifs <;> omega
  have hlast : roundDown (add32 r.stop 1) = (r.stop + 1) / PAGE_SIZE * PAGE_SIZE := by
    unfold PAGE_SIZE at *
    unfold roundDown add32 PAGE_SIZE
    split_ifs <;> omega
  have hpage : sub32 ((r.start + (PAGE_SIZE - 1)) / PAGE_SIZE * PAGE_SIZE) pm.memoryOffset /
      PAGE_SIZE = (r.start + (PAGE_SIZE - 1)) / PAGE_SIZE := by
    rw [hlow.offset]
    unfold PAGE_SIZE at *
    unfold sub32
    omega
  rw [callbackPhysmemAdd, memorySet, if_neg (by decide), if_neg (by decide), hfirst, hlast]
  rw [hpage]

theorem callbackPhysmemAdd_ok (hlow : Low pm) (hle : r.start ≤ r.stop)
    (hstop : r.stop + PAGE_SIZE < 2 ^ 31) (h : callbackPhysmemAdd pm r = .ok pm') :
    Swept 0 pm r.Holds pm' := by
  rw [callbackPhysmemAdd_eq hlow hle hstop] at h
  unfold PAGE_SIZE at hstop
  obtain ⟨-, hswept⟩ := markPages_rounded hlow (by unfold PAGE_SIZE; omega)
    (by unfold PAGE_SIZE; omega) h
  refine hswept.congr fun p => ?_
  unfold Range.Holds PAGE_SIZE
  omega

/-- A pass over the ranges marks the pages of all of them. -/
theorem Swept.foldlM {f : Physmem → Range → Outcome Physmem} {T : Range → ℕ → Prop}
    (hf : ∀ r ∈ l, ∀ pm pm', Low pm → f pm r = .ok pm' → Swept used pm (T r) pm')
    (hlow : Low pm) (h : l.foldlM f pm = .ok pm') :
    Swept used pm (fun p => ∃ r ∈ l, T r p) pm' := by
  induction l generalizing pm with
  | nil =>
    cases h
    exact ⟨rfl, rfl, by simp, fun _ _ => rfl, fun _ hcount => hcount⟩
  | cons r l ih =>
    rw [List.foldlM_cons] at h
    obtain ⟨pm₁, hrun, hrest⟩ := bind_eq_ok.mp h
    have hfirst := hf r List.mem_cons_self pm pm₁ hlow hrun
    have hothers := ih (fun r hr => hf r (List.mem_cons_of_mem _ hr)) (hfirst.low hlow) hrest
    exact (hfirst.trans hothers).congr fun p => by simp

/-- A pass runs to its end if each of its ranges can be marked. -/
theorem foldlM_runs {f : Physmem → Range → Outcome Physmem} {T : Range → ℕ → Prop}
    (hf : ∀ r ∈ l, ∀ pm pm', Low pm → f pm r = .ok pm' → Swept used pm (T r) pm')
    {n : ℕ} (hrun : ∀ r ∈ l, ∀ pm, Low pm → pm.memoryPages = n → ∃ pm', f pm r = .ok pm')
    (hlow : Low pm) (hn : pm.memoryPages = n) :
    ∃ pm', l.foldlM f pm = .ok pm' ∧ Low pm' ∧ pm'.memoryPages = n := by
  induction l generalizing pm with
  | nil => exact ⟨pm, rfl, hlow, hn⟩
  | cons r l ih =>
    obtain ⟨pm₁, h₁⟩ := hrun r List.mem_cons_self pm hlow hn
    have hfirst := hf r List.mem_cons_self pm pm₁ hlow h₁
    rw [List.foldlM_cons, h₁, ok_bind]
    exact ih (fun r hr => hf r (List.mem_cons_of_mem _ hr))
      (fun r hr => hrun r (List.mem_cons_of_mem _ hr)) (hfirst.low hlow) (hfirst.pages.trans hn)

/-- All pages are in use at first. -/
theorem isSet_initPhysmem (words : ℕ → BitVec BLOCK_BITS) (offset : ℕ) {pages p : ℕ}
    (hpages : pages ≤ 2 ^ 20) (hp : p < pages) :
    (initPhysmem words offset pages hpages).isSet p = true := by
  have hbits : ∀ (n : ℕ) (m : ℕ → BitVec BLOCK_BITS) (base : ℕ),
      Bitmap.test ((List.range n).foldl (fun m i => Bitmap.set m (base + i)) m) p =
        (decide (base ≤ p ∧ p < base + n) || Bitmap.test m p) := by
    intro n m base
    induction n with
    | zero => simp
    | succ n ih =>
      rw [List.range_succ, List.foldl_append, List.foldl_cons, List.foldl_nil, test_set, ih,
        ← Bool.or_assoc, ← Bool.decide_or]
      congr 2
      exact propext (by omega)
  rw [Physmem.isSet, initPhysmem, hbits]
  have hdiv := Nat.div_add_mod pages BLOCK_BITS
  by_cases hlast : pages / BLOCK_BITS * BLOCK_BITS ≤ p
  · rw [decide_eq_true ⟨hlast, by rw [Nat.mul_comm]; omega⟩, Bool.true_or]
  · have hword : p / BLOCK_BITS < pages / BLOCK_BITS :=
      (Nat.div_lt_iff_lt_mul (by decide)).mpr (not_le.mp hlast)
    have hbit : p % BLOCK_BITS < BLOCK_BITS := Nat.mod_lt _ (by decide)
    rw [Bitmap.test, if_pos hword, BitVec.getLsbD_allOnes, decide_eq_true hbit, Bool.or_true]


/-- The page lies in usable memory, and nothing on it is reserved. -/
def Available (b : Boot) (p : ℕ) : Prop :=
  (∃ r ∈ usable b, r.Holds p) ∧ ∀ r ∈ bitmapRange b :: reserved b, ¬ r.Touches p

/-- What the boot has gone through: the fresh bitmap, the usable ranges, the reserved ranges, and
the bitmap's own range. -/
structure Stages (b : Boot) (pm₀ pm₁ pm₂ pm : Physmem) : Prop where
  pages : pm₀.memoryPages = pageCount (findArea b)
  low : Low pm₀
  fresh : pm₀.freePages = 0
  full : ∀ p < pm₀.memoryPages, pm₀.isSet p = true
  add : Swept 0 pm₀ (fun p => ∃ r ∈ usable b, r.Holds p) pm₁
  rem : Swept 1 pm₁ (fun p => ∃ r ∈ reserved b, r.Touches p) pm₂
  map : Swept 1 pm₂ (bitmapRange b).Touches pm
  placed : Placed b

theorem field_lt (m : Bytes) (p o : ℕ) : field m p o < 2 ^ 32 := Bytes.read_lt 4 m _

theorem reserved_start (hr : r ∈ reserved b) : r.start < 2 ^ 32 := by
  simp only [reserved, moduleRanges, List.mem_append, List.mem_cons, List.mem_flatMap,
    List.mem_range, List.not_mem_nil, or_false] at hr
  rcases hr with (rfl | ⟨i, -, rfl | rfl⟩) | rfl | rfl | rfl | rfl
  · exact field_lt ..
  · exact field_lt ..
  · exact field_lt ..
  · exact b.mboot.isLt
  · decide
  · decide
  · exact b.kernelStart.isLt

section Passes
variable (hp : Plausible b)
include hp

/-- The allocator as `init_physmem` leaves it. -/
def Plausible.fresh : Physmem :=
  initPhysmem (fun w => BitVec.ofNat BLOCK_BITS (field b.memory (findArea b).largestStart (4 * w)))
    (findArea b).memStart (pageCount (findArea b)) hp.pages_le

theorem Plausible.memoryPages_fresh : hp.fresh.memoryPages = pageCount (findArea b) := by
  rw [fresh, initPhysmem]

theorem Plausible.low_fresh : Low hp.fresh := by
  refine ⟨?_, ?_⟩
  · rw [fresh, initPhysmem]
    exact memStart_findArea b
  · rw [hp.memoryPages_fresh]
    exact hp.pages.2.2

theorem swept_usable : ∀ r ∈ usable b, ∀ pm pm', Low pm → callbackPhysmemAdd pm r = .ok pm' →
    Swept 0 pm r.Holds pm' := by
  intro r hr pm pm' hlow
  obtain ⟨i, -, hu, hs, he⟩ := (mem_usable hp.whole).mp hr
  have hpos := Nat.pos_of_ne_zero hu.2
  exact callbackPhysmemAdd_ok hlow (by omega) (hp.low r (.inl hr))

theorem swept_reserved : ∀ r ∈ reserved b, ∀ pm pm', Low pm → callbackPhysmemRem pm r = .ok pm' →
    Swept 1 pm r.Touches pm' := fun r hr _ _ hlow =>
  callbackPhysmemRem_ok hlow (reserved_start hr) (hp.low r (.inr hr))

/-- The stages of the boot. The records are read a second time as they were. -/
theorem bootstrapMemory_eq (hsize : mapSize (pageCount (findArea b)) ≤
      add32 (sub32 (findArea b).largestEnd (findArea b).largestStart) 1)
    (hcount : mmapLength b.memory b.mboot % memory_map_size = 0 ∧ 0 < b.count) :
    bootstrapMemory b hp.pages_le =
      (usable b).foldlM callbackPhysmemAdd hp.fresh >>= fun pm =>
        (reserved b).foldlM callbackPhysmemRem pm >>= fun pm =>
          callbackPhysmemRem pm (bitmapRange b) := by
  have hplaced := hp.placed hsize
  have hmap : ∀ pm, parseMap (memoryAfter b) callbackPhysmemAdd (mmapAddr b.memory b.mboot) b.count
      pm = (usable b).foldlM callbackPhysmemAdd pm :=
    parseMap_eq fun i hi pm => hplaced.sameMap hp hi pm
  have hreserved : ∀ pm, parseReserved (memoryAfter b) callbackPhysmemRem b pm =
      (reserved b).foldlM callbackPhysmemRem pm :=
    parseReserved_eq (hplaced.sameModules hp)
  rw [bootstrapMemory, assert_of hcount.1, ok_bind, assert_of hcount.2, ok_bind]
  dsimp only
  rw [assert_of hsize, ok_bind]
  change parseMap (memoryAfter b) _ _ _ hp.fresh >>= (fun pm =>
    parseReserved (memoryAfter b) _ b pm >>= _) = _
  simp only [hmap, hreserved]
  rfl

theorem bootstrapMemory_stages (h : bootstrapMemory b hp.pages_le = .ok pm) :
    ∃ pm₀ pm₁ pm₂, Stages b pm₀ pm₁ pm₂ pm := by
  have hcount : (mmapLength b.memory b.mboot % memory_map_size = 0 ∧ 0 < b.count) ∧
      mapSize (pageCount (findArea b)) ≤
        add32 (sub32 (findArea b).largestEnd (findArea b).largestStart) 1 := by
    obtain ⟨_, h₁, h⟩ := bind_eq_ok.mp h
    obtain ⟨_, h₂, h⟩ := bind_eq_ok.mp h
    obtain ⟨_, h₃, -⟩ := bind_eq_ok.mp h
    exact ⟨⟨assert_eq_ok.mp h₁, assert_eq_ok.mp h₂⟩, assert_eq_ok.mp h₃⟩
  have hplaced := hp.placed hcount.2
  rw [bootstrapMemory_eq hp hcount.2 hcount.1] at h
  obtain ⟨pm₁, h₁, h⟩ := bind_eq_ok.mp h
  obtain ⟨pm₂, h₂, h⟩ := bind_eq_ok.mp h
  have hlow := hp.low_fresh
  have hadd := Swept.foldlM (swept_usable hp) hlow h₁
  have hrem := Swept.foldlM (swept_reserved hp) (hadd.low hlow) h₂
  obtain ⟨q, hq, hqs, hqe⟩ := hplaced.usable
  have hstop := hp.low q (.inl hq)
  have hsize := hplaced.size
  have hpos := (mapSize_bounds (pageCount (findArea b))).2 (by have := hp.pages; omega)
  have hmap := callbackPhysmemRem_ok (hrem.low (hadd.low hlow)) (by omega) (by omega) h
  refine ⟨hp.fresh, pm₁, pm₂, hp.memoryPages_fresh, hlow, ?_, fun p hlt => ?_, hadd, hrem, hmap,
    hplaced⟩
  · rw [Plausible.fresh, initPhysmem]
  · rw [hp.memoryPages_fresh] at hlt
    exact isSet_initPhysmem _ _ hp.pages_le hlt

/-- The assertions of `bootstrap_memory` hold and its sweeps stay in the bitmap: memory ends at the
end of a page, no usable range lies inside a page, and no reserved range ends before it begins. -/
structure Regular (b : Boot) : Prop where
  count : mmapLength b.memory b.mboot % memory_map_size = 0 ∧ 0 < b.count
  fits : mapSize (pageCount (findArea b)) ≤
    add32 (sub32 (findArea b).largestEnd (findArea b).largestStart) 1
  whole : ((findArea b).memEnd + 1) % PAGE_SIZE = 0
  usable : ∀ r ∈ usable b,
    (r.start + (PAGE_SIZE - 1)) / PAGE_SIZE ≤ (r.stop + 1) / PAGE_SIZE
  reserved : ∀ r ∈ reserved b, r.start / PAGE_SIZE ≤ r.stop / PAGE_SIZE + 1

/-- Every page with an address in memory is managed when memory ends at the end of a page, so that
no sweep counts a page that the bitmap does not have. -/
theorem Plausible.managed (hwhole : ((findArea b).memEnd + 1) % PAGE_SIZE = 0) {p : ℕ}
    (h : p * PAGE_SIZE ≤ (findArea b).memEnd) : p < pageCount (findArea b) := by
  rw [hp.pages.1]
  unfold PAGE_SIZE at *
  omega

theorem Plausible.stop_lt (hwhole : ((findArea b).memEnd + 1) % PAGE_SIZE = 0)
    (hin : r ∈ usable b ∨ r ∈ reserved b) : r.stop / PAGE_SIZE < pageCount (findArea b) :=
  hp.managed hwhole ((Nat.div_mul_le_self _ _).trans (Plausible.le_memEnd hin))

theorem callbackPhysmemAdd_runs (hr : Regular b) (hin : r ∈ usable b) {pm : Physmem}
    (hlow : Low pm) (hn : pm.memoryPages = pageCount (findArea b)) :
    ∃ pm', callbackPhysmemAdd pm r = .ok pm' := by
  obtain ⟨i, -, hu, hs, he⟩ := (mem_usable hp.whole).mp hin
  have hpos := Nat.pos_of_ne_zero hu.2
  have hlast := hp.stop_lt hr.whole (.inl hin)
  rw [callbackPhysmemAdd_eq hlow (by omega) (hp.low r (.inl hin))]
  refine markPages_runs 0 ?_ (hr.usable r hin)
  rw [hn]
  unfold PAGE_SIZE at *
  omega

/-- What is reserved, and the bitmap. -/
theorem callbackPhysmemRem_runs (hr : Regular b) (hin : r ∈ reserved b ∨ r = bitmapRange b)
    {pm : Physmem} (hlow : Low pm) (hn : pm.memoryPages = pageCount (findArea b)) :
    ∃ pm', callbackPhysmemRem pm r = .ok pm' := by
  have hsweep : r.start < 2 ^ 32 ∧ r.stop + PAGE_SIZE < 2 ^ 31 ∧
      r.stop / PAGE_SIZE < pageCount (findArea b) ∧
      r.start / PAGE_SIZE ≤ r.stop / PAGE_SIZE + 1 := by
    obtain hin | rfl := hin
    · exact ⟨reserved_start hin, hp.low r (.inr hin), hp.stop_lt hr.whole (.inr hin),
        hr.reserved r hin⟩
    · have hplaced := hp.placed hr.fits
      obtain ⟨q, hq, hqs, hqe⟩ := hplaced.usable
      have hqlow := hp.low q (.inl hq)
      have hqstop := hp.stop_lt hr.whole (.inl hq)
      have hsize := hplaced.size
      have hpos := (mapSize_bounds (pageCount (findArea b))).2 (by have := hp.pages; omega)
      have hle : (bitmapRange b).stop / PAGE_SIZE ≤ q.stop / PAGE_SIZE := Nat.div_le_div_right hqe
      have hle' : (bitmapRange b).start / PAGE_SIZE ≤ (bitmapRange b).stop / PAGE_SIZE :=
        Nat.div_le_div_right (by omega)
      exact ⟨by omega, by omega, by omega, by omega⟩
  obtain ⟨hstart, hend, hlast, hle⟩ := hsweep
  rw [callbackPhysmemRem_eq hlow hstart hend]
  exact markPages_runs 1 (by rw [hn]; omega) hle

theorem bootstrapMemory_runs (hr : Regular b) :
    ∃ pm, bootstrapMemory b hp.pages_le = .ok pm := by
  rw [bootstrapMemory_eq hp hr.fits hr.count]
  obtain ⟨pm₁, h₁, hlow₁, hn₁⟩ := foldlM_runs (swept_usable hp)
    (fun _ hin _ => callbackPhysmemAdd_runs hp hr hin) hp.low_fresh hp.memoryPages_fresh
  obtain ⟨pm₂, h₂, hlow₂, hn₂⟩ := foldlM_runs (swept_reserved hp)
    (fun _ hin _ => callbackPhysmemRem_runs hp hr (.inl hin)) hlow₁ hn₁
  rw [h₁, ok_bind, h₂, ok_bind]
  exact callbackPhysmemRem_runs hp hr (.inr rfl) hlow₂ hn₂

end Passes

namespace Stages
variable {pm₀ pm₁ pm₂ : Physmem} (hs : Stages b pm₀ pm₁ pm₂ pm)
include hs

theorem memoryPages : pm.memoryPages = pageCount (findArea b) :=
  hs.map.pages.trans (hs.rem.pages.trans (hs.add.pages.trans hs.pages))

theorem memoryOffset : pm.memoryOffset = 0 :=
  (hs.map.low (hs.rem.low (hs.add.low hs.low))).offset

theorem isSet_iff : ∀ p < pm.memoryPages, pm.isSet p = false ↔ Available b p := by
  intro p hlt
  unfold Available
  rw [List.forall_mem_cons]
  by_cases hb : (bitmapRange b).Touches p
  · exact iff_of_false (by rw [hs.map.marked p hb]; decide) fun hc => hc.2.1 hb
  rw [hs.map.rest p hb]
  by_cases hr : ∃ r ∈ reserved b, r.Touches p
  · obtain ⟨r, hr, htouch⟩ := hr
    exact iff_of_false (by rw [hs.rem.marked p ⟨r, hr, htouch⟩]; decide)
      fun hc => hc.2.2 r hr htouch
  rw [hs.rem.rest p hr]
  push Not at hr
  by_cases hu : ∃ r ∈ usable b, r.Holds p
  · exact iff_of_true (by rw [hs.add.marked p hu]; rfl) ⟨hu, hb, hr⟩
  · rw [hs.add.rest p hu, hs.full p (by rw [hs.pages, ← hs.memoryPages]; exact hlt)]
    exact iff_of_false (by decide) fun hc => hu hc.1

theorem sound (hp : Plausible b) (hwhole : ((findArea b).memEnd + 1) % PAGE_SIZE = 0) :
    Sound ⟨pm, []⟩ := by
  obtain ⟨hpages, hmin, hmax⟩ := hp.pages
  have hcount₀ : pm₀.freePages = pm₀.free.card := by
    have hnone : pm₀.free = ∅ := Finset.eq_empty_of_forall_notMem fun p hp' => by
      obtain ⟨hlt, hclear⟩ := Bitmap.mem_free.mp hp'
      have hset := hs.full p hlt
      rw [Physmem.isSet, hclear] at hset
      cases hset
    rw [hs.fresh, hnone, Finset.card_empty]
    rfl
  have hin₀ : ∀ p, (∃ r ∈ usable b, r.Holds p) → p < pm₀.memoryPages := by
    rintro p ⟨r, hr, hold⟩
    rw [hs.pages]
    exact hp.managed hwhole (hold.le.trans (Plausible.le_memEnd (.inl hr)))
  have hin₁ : ∀ p, (∃ r ∈ reserved b, r.Touches p) → p < pm₁.memoryPages := by
    rintro p ⟨r, hr, -, hle⟩
    rw [hs.add.pages, hs.pages]
    exact hp.managed hwhole (hle.trans (Plausible.le_memEnd (.inr hr)))
  have hin₂ : ∀ p, (bitmapRange b).Touches p → p < pm₂.memoryPages := by
    rintro p ⟨-, hle⟩
    obtain ⟨q, hq, -, hqe⟩ := hs.placed.usable
    rw [hs.rem.pages, hs.add.pages, hs.pages]
    exact hp.managed hwhole (hle.trans (hqe.trans (Plausible.le_memEnd (.inl hq))))
  refine ⟨⟨hs.map.count hin₂ (hs.rem.count hin₁ (hs.add.count hin₀ hcount₀)), fun p hlt hz => ?_⟩,
    by simp, List.Pairwise.nil⟩
  -- the page at 0 is reserved
  change p < pm.memoryPages at hlt
  have hn := hs.memoryPages
  obtain rfl : p = 0 := by
    rw [pageAddr, hs.memoryOffset] at hz
    unfold add32 PAGE_SIZE at hz
    omega
  rw [← Bool.not_eq_false, hs.isSet_iff 0 hlt]
  exact fun hc => hc.2 ⟨0, 0xFFF⟩ (by simp [reserved]) ⟨by decide, by decide⟩

end Stages

/-- The boot loader's record at 0x20 with one module, and the memory map behind it. -/
def smallMemory : Bytes :=
  [(0x34, 1), (0x38, 0x100), (0x4C, 24), (0x50, 0x600), (0x100, 0x5000), (0x104, 0x5FFF),
    (0x108, 0x200), (0x200, 0x6162), (0x604, 0x1000), (0x60C, 0xF000), (0x614, 1)].foldl
    (fun m w => Bytes.write 4 m w.1 w.2) fun _ => 0

/-- Fifteen pages of a megabyte are usable; the kernel fills two of them, and the module one. -/
def smallBoot : Boot := ⟨smallMemory, 0x20, 0x3000, 0x4FFF⟩

theorem usable_smallBoot : usable smallBoot = [⟨0x1000, 0xFFFF⟩] := by decide +kernel

theorem reserved_smallBoot : reserved smallBoot = [⟨0x100, 0x1F0⟩, ⟨0x200, 0x203⟩, ⟨0x5000, 0x5FFF⟩,
    ⟨0x20, 0x23C0⟩, ⟨0, 0xFFF⟩, ⟨0xB8000, 0xFFFFF⟩, ⟨0x3000, 0x4FFF⟩] := by decide +kernel

theorem plausible_smallBoot : Plausible smallBoot := by
  refine ⟨⟨by decide, by decide +kernel, by decide +kernel, by decide +kernel, by decide +kernel⟩,
    ?_, .inl ?_, ?_⟩
  · rw [usable_smallBoot, reserved_smallBoot]
    simp [PAGE_SIZE]
  · rw [reserved_smallBoot]
    decide +kernel
  · rw [usable_smallBoot, reserved_smallBoot]
    refine ⟨?_, ?_, ?_, ?_, ?_, ?_, ?_, trivial⟩ <;> decide

theorem regular_smallBoot : Regular smallBoot := by
  refine ⟨by decide +kernel, by decide +kernel, by decide +kernel, ?_, ?_⟩
  · rw [usable_smallBoot]
    decide
  · rw [reserved_smallBoot]
    decide

/-- The address belongs to an entry of the memory map for usable memory, and to nothing that is
reserved. -/
def Usable (b : Boot) (addr : ℕ) : Prop :=
  (∃ i < b.count,
    let e := memoryMapAt b.memory (mmapAddr b.memory b.mboot) i
    e.usable ∧ e.baseAddr ≤ addr ∧ addr < e.baseAddr + e.length) ∧
  ∀ r ∈ bitmapRange b :: reserved b, ¬ (r.start ≤ addr ∧ addr ≤ r.stop)

theorem Available.usable (hw : Whole b) {addr : ℕ} (h : Available b (addr / PAGE_SIZE)) :
    Usable b addr := by
  have hdiv := Nat.div_add_mod addr PAGE_SIZE
  have hmod : addr % PAGE_SIZE < PAGE_SIZE := Nat.mod_lt _ (by decide)
  rw [Nat.mul_comm] at hdiv
  obtain ⟨⟨r, hr, hlow, hhigh⟩, hclear⟩ := h
  rw [Nat.add_mul, Nat.one_mul] at hhigh
  obtain ⟨i, hi, hu, hs, he⟩ := (mem_usable hw).mp hr
  refine ⟨⟨i, hi, hu, by omega, by omega⟩, fun q hq hin => hclear q hq ⟨?_, by omega⟩⟩
  rw [Nat.add_mul, Nat.one_mul]
  omega

end Racoon.Bootstrap
