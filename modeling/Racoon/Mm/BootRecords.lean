import Racoon.Mm.Bootstrap

/-!
# The records of the boot loader

Both passes of `bootstrap_memory` go over the same ranges. In the first nothing is
written. Before the second the bitmap is written to a place that is clear of the
reserved ranges, which hold the records themselves: each step of the trimming cut a
range away and left something of the candidate.
-/

namespace Racoon.Bootstrap
open PhysicalMemory Lib
variable {b : Boot} {a : Area} {r : Range} {l : List Range}

/-! ### What the records say -/

def mapRanges (m : Bytes) (map count : ℕ) : List Range :=
  (List.range count).filterMap fun i =>
    let e := memoryMapAt m map i
    if e.usable then some e.range else none

def moduleRanges (m : Bytes) (modules count : ℕ) : List Range :=
  moduleTable modules count ::
    (List.range count).flatMap fun i =>
      let e := moduleAt m modules i
      [stringRange m e.string, e.range]

/-- The ranges of usable memory. -/
def usable (b : Boot) : List Range := mapRanges b.memory (mmapAddr b.memory b.mboot) b.count

/-- The reserved ranges in their order. -/
def reserved (b : Boot) : List Range :=
  moduleRanges b.memory (modsAddr b.memory b.mboot) (modsCount b.memory b.mboot) ++
    [infoRange b.mboot, ⟨0, 0xFFF⟩, ⟨0xB8000, 0xFFFFF⟩, ⟨b.kernelStart, b.kernelEnd⟩]

/-- Where the bitmap of the pages lies. -/
def bitmapRange (b : Boot) : Range :=
  ⟨(findArea b).largestStart,
    sub32 (add32 (findArea b).largestStart (mapSize (pageCount (findArea b)))) 1⟩

theorem bitmapRange_start (b : Boot) : (bitmapRange b).start = (findArea b).largestStart := by
  rw [bitmapRange]

/-- The memory says the same about modules as it did at first. -/
structure SameModules (b : Boot) (m : Bytes) : Prop where
  addr : modsAddr m b.mboot = modsAddr b.memory b.mboot
  count : modsCount m b.mboot = modsCount b.memory b.mboot
  entry : ∀ i < modsCount b.memory b.mboot,
    moduleAt m (modsAddr b.memory b.mboot) i = moduleAt b.memory (modsAddr b.memory b.mboot) i
  string : ∀ i < modsCount b.memory b.mboot,
    let string := (moduleAt b.memory (modsAddr b.memory b.mboot) i).string
    kstrlen m string = kstrlen b.memory string

section Parsing
variable {M : Type → Type} [Monad M] {σ ι : Type} {memory : σ → Bytes}
  {callback : σ → Range → M σ}

theorem foldlM_congr_mem {f g : σ → ι → M σ} {xs : List ι} (h : ∀ x ∈ xs, ∀ s, f s x = g s x)
    (s : σ) : xs.foldlM f s = xs.foldlM g s := by
  induction xs generalizing s with
  | nil => rfl
  | cons x xs ih =>
    rw [List.foldlM_cons, List.foldlM_cons, h x List.mem_cons_self s]
    exact bind_congr fun s => ih (fun y hy => h y (List.mem_cons_of_mem x hy)) s

variable [LawfulMonad M]

theorem foldlM_flatMap (f : σ → Range → M σ) (g : ι → List Range) (xs : List ι) (s : σ) :
    (xs.flatMap g).foldlM f s = xs.foldlM (fun s x => (g x).foldlM f s) s := by
  induction xs generalizing s with
  | nil => rfl
  | cons x xs ih =>
    rw [List.flatMap_cons, List.foldlM_append, List.foldlM_cons]
    exact bind_congr ih

theorem parseMap_eq {m : Bytes} {map count : ℕ}
    (h : ∀ i < count, ∀ s, memoryMapAt (memory s) map i = memoryMapAt m map i) (s : σ) :
    parseMap memory callback map count s = (mapRanges m map count).foldlM callback s := by
  rw [parseMap, mapRanges, List.foldlM_filterMap]
  refine foldlM_congr_mem (fun i hi s => ?_) s
  dsimp only
  rw [h i (List.mem_range.mp hi) s]
  split_ifs <;> rfl

theorem parseReserved_eq (h : ∀ s, SameModules b (memory s)) (s : σ) :
    parseReserved memory callback b s = (reserved b).foldlM callback s := by
  have hmodules : ∀ s, parseModules memory callback (modsAddr b.memory b.mboot)
      (modsCount b.memory b.mboot) s =
      (moduleRanges b.memory (modsAddr b.memory b.mboot) (modsCount b.memory b.mboot)).foldlM
        callback s := by
    intro s
    rw [parseModules, moduleRanges, List.foldlM_cons]
    refine bind_congr fun s => ?_
    rw [foldlM_flatMap]
    refine foldlM_congr_mem (fun i hi s => ?_) s
    have hi' := List.mem_range.mp hi
    rw [(h s).entry i hi', stringRange, (h s).string i hi', List.foldlM_cons]
    refine bind_congr fun s => ?_
    rw [(h s).entry i hi', List.foldlM_cons]
    simp
  rw [parseReserved, (h s).addr, (h s).count, hmodules, reserved, List.foldlM_append]
  refine bind_congr fun s => ?_
  simp

end Parsing

theorem findArea_eq (b : Boot) :
    findArea b = (reserved b).foldl callbackRem ((usable b).foldl callbackAdd ⟨0, 0, 0, 0⟩) := by
  have hsame : SameModules b b.memory := ⟨rfl, rfl, fun _ _ => rfl, fun _ _ => rfl⟩
  have hadd : parseMap (fun _ : Area => b.memory) (fun a r => (pure (callbackAdd a r) : Id Area))
      (mmapAddr b.memory b.mboot) b.count ⟨0, 0, 0, 0⟩ =
      pure ((usable b).foldl callbackAdd ⟨0, 0, 0, 0⟩) :=
    (parseMap_eq (fun _ _ _ => rfl) _).trans List.foldlM_pure
  have hrem : ∀ a, parseReserved (fun _ : Area => b.memory)
      (fun a r => (pure (callbackRem a r) : Id Area)) b a =
      pure ((reserved b).foldl callbackRem a) := fun a =>
    (parseReserved_eq (fun _ => hsame) a).trans List.foldlM_pure
  unfold findArea
  dsimp only
  rw [hadd, pure_bind, hrem]
  rfl

/-! ### The first pass -/

section Trimming

theorem extend_memEnd (a : Area) (r : Range) :
    (a.extend r).memEnd = max a.memEnd r.stop ∧ (a.extend r).largestStart = a.largestStart ∧
      (a.extend r).largestEnd = a.largestEnd ∧ (a.memStart = 0 → (a.extend r).memStart = 0) := by
  unfold Area.extend
  refine ⟨?_, rfl, rfl, fun h => ?_⟩
  · dsimp only
    split_ifs <;> omega
  · dsimp only
    rw [h, if_neg (Nat.not_lt_zero _)]

@[simp] theorem memEnd_callbackAdd (a : Area) (r : Range) :
    (callbackAdd a r).memEnd = max a.memEnd r.stop := by
  unfold callbackAdd
  rw [(extend_memEnd _ r).1]
  split_ifs <;> rfl

@[simp] theorem memEnd_callbackRem (a : Area) (r : Range) :
    (callbackRem a r).memEnd = max a.memEnd r.stop := by
  unfold callbackRem
  rw [(extend_memEnd _ r).1]
  dsimp only
  split_ifs <;> rfl

theorem memStart_callbackAdd (h : a.memStart = 0) (r : Range) :
    (callbackAdd a r).memStart = 0 := by
  unfold callbackAdd
  refine (extend_memEnd _ r).2.2.2 ?_
  split_ifs <;> exact h

theorem memStart_callbackRem (h : a.memStart = 0) (r : Range) :
    (callbackRem a r).memStart = 0 := by
  unfold callbackRem
  refine (extend_memEnd _ r).2.2.2 ?_
  dsimp only
  split_ifs <;> exact h

/-- Nothing would be left of the candidate. -/
def Range.Covers (r : Range) (a : Area) : Prop :=
  r.start ≤ a.largestStart ∧ a.largestEnd ≤ r.stop

instance (r : Range) (a : Area) : Decidable (r.Covers a) := inferInstanceAs (Decidable (_ ∧ _))

/-- No range covers what the ranges before it have left of the candidate. -/
def LeavesRoom : Area → List Range → Prop
  | _, [] => True
  | a, r :: rs => ¬ r.Covers a ∧ LeavesRoom (callbackRem a r) rs

/-- A range that does not cover the candidate is cut away, and something is left. -/
theorem callbackRem_trim (hle : a.largestStart ≤ a.largestEnd) (htop : a.largestEnd < 2 ^ 32)
    (hc : ¬ r.Covers a) :
    a.largestStart ≤ (callbackRem a r).largestStart ∧
      (callbackRem a r).largestStart ≤ (callbackRem a r).largestEnd ∧
      (callbackRem a r).largestEnd ≤ a.largestEnd ∧
      (r.start ≤ r.stop →
        (callbackRem a r).largestEnd < r.start ∨ r.stop < (callbackRem a r).largestStart) := by
  unfold Range.Covers at hc
  unfold callbackRem
  rw [(extend_memEnd _ r).2.1, (extend_memEnd _ r).2.2.1]
  dsimp only
  by_cases hmeet : r.stop ≥ a.largestStart ∧ r.start ≤ a.largestEnd
  · rw [if_pos hmeet]
    by_cases hside : (if r.start > a.largestStart then r.start - a.largestStart else 0) <
        (if r.stop < a.largestEnd then a.largestEnd - r.stop else 0)
    · -- the left part goes
      rw [if_pos hside]
      dsimp only
      split_ifs at hside
      all_goals first | omega | rw [add32_of_lt (by omega)]; omega
    · -- the right part goes
      rw [if_neg hside]
      dsimp only
      have hpos : a.largestStart < r.start := by
        split_ifs at hside <;> omega
      rw [sub32_of_le (by omega) (by omega)]
      omega
  · rw [if_neg hmeet]
    omega

/-- What is left at the end was cut clear of every range. -/
theorem foldl_trim (hle : a.largestStart ≤ a.largestEnd) (htop : a.largestEnd < 2 ^ 32)
    (hroom : LeavesRoom a l) :
    a.largestStart ≤ (l.foldl callbackRem a).largestStart ∧
      (l.foldl callbackRem a).largestStart ≤ (l.foldl callbackRem a).largestEnd ∧
      (l.foldl callbackRem a).largestEnd ≤ a.largestEnd ∧
      ∀ r ∈ l, r.start ≤ r.stop → (l.foldl callbackRem a).largestEnd < r.start ∨
        r.stop < (l.foldl callbackRem a).largestStart := by
  induction l generalizing a with
  | nil => exact ⟨le_rfl, hle, le_rfl, by simp⟩
  | cons r l ih =>
    obtain ⟨hc, hroom⟩ := hroom
    obtain ⟨hlow, hle', hhigh, hclear⟩ := callbackRem_trim hle htop hc
    obtain ⟨hlow', hgood, hhigh', hclear'⟩ := ih hle' (by omega) hroom
    rw [List.foldl_cons]
    refine ⟨hlow.trans hlow', hgood, hhigh'.trans hhigh, fun q hq hqle => ?_⟩
    rcases List.mem_cons.mp hq with rfl | hq
    · exact (hclear hqle).imp hhigh'.trans_lt fun hlt => hlt.trans_le hlow'
    · exact hclear' q hq hqle

theorem foldl_memEnd {f : Area → Range → Area} (hf : ∀ a r, (f a r).memEnd = max a.memEnd r.stop)
    {n : ℕ} : (l.foldl f a).memEnd < n ↔ a.memEnd < n ∧ ∀ r ∈ l, r.stop < n := by
  induction l generalizing a with
  | nil => simp
  | cons r l ih =>
    rw [List.foldl_cons, ih, hf, max_lt_iff, List.forall_mem_cons]
    tauto

theorem foldl_memStart {f : Area → Range → Area}
    (hf : ∀ a r, a.memStart = 0 → (f a r).memStart = 0) (h : a.memStart = 0) :
    (l.foldl f a).memStart = 0 := by
  induction l generalizing a with
  | nil => exact h
  | cons r l ih => exact ih (hf a r h)

/-- The candidate before the trimming is one of the ranges. -/
theorem foldl_callbackAdd :
    (l.foldl callbackAdd a).largestStart = a.largestStart ∧
      (l.foldl callbackAdd a).largestEnd = a.largestEnd ∨
    ∃ r ∈ l, (l.foldl callbackAdd a).largestStart = r.start ∧
      (l.foldl callbackAdd a).largestEnd = r.stop := by
  induction l generalizing a with
  | nil => exact .inl ⟨rfl, rfl⟩
  | cons r l ih =>
    rw [List.foldl_cons]
    rcases ih (a := callbackAdd a r) with ⟨hs, he⟩ | ⟨q, hq, hqs⟩
    · rw [hs, he, callbackAdd, (extend_memEnd _ r).2.1, (extend_memEnd _ r).2.2.1]
      split_ifs
      · exact .inr ⟨r, List.mem_cons_self, rfl, rfl⟩
      · exact .inl ⟨rfl, rfl⟩
    · exact .inr ⟨q, List.mem_cons_of_mem _ hq, hqs⟩

theorem memStart_findArea (b : Boot) : (findArea b).memStart = 0 := by
  rw [findArea_eq]
  have hadd := foldl_memStart (l := usable b) (a := ⟨0, 0, 0, 0⟩)
    (fun _ r h => memStart_callbackAdd h r) rfl
  exact foldl_memStart (l := reserved b) (fun _ r h => memStart_callbackRem h r) hadd

theorem memEnd_findArea (b : Boot) {n : ℕ} :
    (findArea b).memEnd < n ↔
      (0 < n ∧ ∀ r ∈ usable b, r.stop < n) ∧ ∀ r ∈ reserved b, r.stop < n := by
  rw [findArea_eq, foldl_memEnd memEnd_callbackRem, foldl_memEnd memEnd_callbackAdd]

end Trimming

/-! ### The place of the bitmap -/

/-- The records of the boot loader do not go beyond the end of memory. -/
structure Whole (b : Boot) : Prop where
  info : b.mboot + multiboot_info_size * multiboot_info_size ≤ 2 ^ 32
  modules : modsAddr b.memory b.mboot +
    modsCount b.memory b.mboot * module_size * module_size ≤ 2 ^ 32
  strings : ∀ i < modsCount b.memory b.mboot,
    let string := (moduleAt b.memory (modsAddr b.memory b.mboot) i).string
    string + kstrlen b.memory string + 1 < 2 ^ 32
  map : mmapAddr b.memory b.mboot + mmapLength b.memory b.mboot ≤ 2 ^ 32
  entries : ∀ i < b.count,
    let e := memoryMapAt b.memory (mmapAddr b.memory b.mboot) i
    e.usable → e.baseAddr + e.length ≤ 2 ^ 32

/-- Memory ends below two gigabytes, the memory map does not lie in usable memory unless it is
reserved, and no reserved range covers what those before it have left of the longest range of usable
memory. -/
structure Plausible (b : Boot) : Prop where
  whole : Whole b
  low : ∀ r, r ∈ usable b ∨ r ∈ reserved b → r.stop + PAGE_SIZE < 2 ^ 31
  map : (∃ r ∈ reserved b, r.start ≤ mmapAddr b.memory b.mboot ∧
      mmapAddr b.memory b.mboot + mmapLength b.memory b.mboot ≤ r.stop + 1) ∨
    ∀ r ∈ usable b, r.stop < mmapAddr b.memory b.mboot ∨
      mmapAddr b.memory b.mboot + mmapLength b.memory b.mboot ≤ r.start
  room : LeavesRoom ((usable b).foldl callbackAdd ⟨0, 0, 0, 0⟩) (reserved b)

/-- The bitmap is large enough, lies in usable memory, and clear of what is reserved. -/
structure Placed (b : Boot) : Prop where
  size : (bitmapRange b).stop + 1 = (bitmapRange b).start + mapSize (pageCount (findArea b))
  room : pageCount (findArea b) ≤ 8 * mapSize (pageCount (findArea b))
  usable : ∃ r ∈ usable b, r.start ≤ (bitmapRange b).start ∧ (bitmapRange b).stop ≤ r.stop
  clear : ∀ r ∈ reserved b, r.start ≤ r.stop →
    (bitmapRange b).stop < r.start ∨ r.stop < (bitmapRange b).start

theorem mem_usable (h : Whole b) : r ∈ usable b ↔ ∃ i < b.count,
    let e := memoryMapAt b.memory (mmapAddr b.memory b.mboot) i
    e.usable ∧ r.start = e.baseAddr ∧ r.stop + 1 = e.baseAddr + e.length := by
  unfold usable mapRanges
  simp only [List.mem_filterMap, List.mem_range, Option.ite_none_right_eq_some, Option.some.injEq]
  refine exists_congr fun i => and_congr_right fun hi => and_congr_right fun hu => ?_
  have hend := h.entries i hi hu
  have hpos := Nat.pos_of_ne_zero hu.2
  unfold MemoryMap.range
  constructor
  · rintro rfl
    dsimp only
    omega
  · rintro ⟨hs, he⟩
    obtain ⟨start, stop⟩ := r
    dsimp only at hs he
    rw [Range.mk.injEq]
    omega

/-- The last address of a range, from its first and its length. -/
theorem sub32_add32 {s n k : ℕ} (hk : 0 < k) (hn : k ≤ n) (h : s + n ≤ 2 ^ 32) :
    sub32 (add32 s n) k + k = s + n := by
  unfold sub32 add32
  omega

theorem sub32_lt_iff {x s n : ℕ} (hx : x < 2 ^ 32) (h : s + n ≤ 2 ^ 32) :
    sub32 x s < n ↔ s ≤ x ∧ x < s + n := by
  unfold sub32
  omega

theorem mapSize_bounds (pages : ℕ) :
    pages ≤ 8 * mapSize pages ∧ (0 < pages → 0 < mapSize pages) := by
  unfold mapSize BLOCK_BITS
  split_ifs <;> omega

namespace Plausible

theorem memEnd (hp : Plausible b) : (findArea b).memEnd + PAGE_SIZE < 2 ^ 31 := by
  have hend := (memEnd_findArea b (n := 2 ^ 31 - PAGE_SIZE)).mpr ⟨⟨by decide, fun r hr => ?_⟩,
    fun r hr => ?_⟩
  · unfold PAGE_SIZE at *
    omega
  · have hlow := hp.low r (.inl hr)
    omega
  · have hlow := hp.low r (.inr hr)
    omega

theorem le_memEnd (hr : r ∈ usable b ∨ r ∈ reserved b) : r.stop ≤ (findArea b).memEnd := by
  by_contra hlt
  have hall := (memEnd_findArea b).mp (not_le.mp hlt)
  exact lt_irrefl _ (hr.elim (hall.1.2 r) (hall.2 r))

/-- The range of the display is reserved, so that a megabyte is managed at least. -/
theorem pages (hp : Plausible b) :
    pageCount (findArea b) = ((findArea b).memEnd + 1) / PAGE_SIZE ∧
      256 ≤ pageCount (findArea b) ∧ pageCount (findArea b) < 2 ^ 19 := by
  have hvga := le_memEnd (b := b) (r := ⟨0xB8000, 0xFFFFF⟩) (.inr (by simp [reserved]))
  have hend := hp.memEnd
  dsimp only at hvga
  unfold PAGE_SIZE at hend
  have hcount : pageCount (findArea b) = ((findArea b).memEnd + 1) / PAGE_SIZE := by
    unfold pageCount
    rw [memStart_findArea, sub32_of_le (by omega) (Nat.zero_le _),
      int32_of_le (x := ((findArea b).memEnd - 0 : ℕ)) (by omega) (by omega),
      int32_of_le (by omega) (by omega)]
    unfold asSize PAGE_SIZE
    rw [Int.tdiv_eq_ediv_of_nonneg (by omega)]
    omega
  refine ⟨hcount, ?_, ?_⟩ <;> rw [hcount] <;> unfold PAGE_SIZE <;> omega

theorem pages_le (hp : Plausible b) : pageCount (findArea b) ≤ 2 ^ 20 := by
  have := hp.pages
  omega

/-- The trimmed candidate is part of a usable range. -/
theorem candidate (hp : Plausible b) :
    (findArea b).largestStart ≤ (findArea b).largestEnd ∧
      (∃ r ∈ usable b, r.start ≤ (findArea b).largestStart ∧ (findArea b).largestEnd ≤ r.stop) ∧
      ∀ r ∈ reserved b, r.start ≤ r.stop →
        (findArea b).largestEnd < r.start ∨ r.stop < (findArea b).largestStart := by
  have hroom := hp.room
  have hinit := foldl_callbackAdd (l := usable b) (a := ⟨0, 0, 0, 0⟩)
  rw [findArea_eq]
  generalize (usable b).foldl callbackAdd ⟨0, 0, 0, 0⟩ = a at *
  have hvalid : a.largestStart ≤ a.largestEnd ∧ a.largestEnd < 2 ^ 32 := by
    obtain ⟨hs, he⟩ | ⟨r, hr, hs, he⟩ := hinit
    · rw [hs, he]
      exact ⟨le_rfl, by decide⟩
    · obtain ⟨i, -, hu, hstart, hstop⟩ := (mem_usable hp.whole).mp hr
      have hpos := Nat.pos_of_ne_zero hu.2
      have hlow := hp.low r (.inl hr)
      omega
  obtain ⟨hlow, hle, hhigh, hclear⟩ := foldl_trim hvalid.1 hvalid.2 hroom
  refine ⟨hle, ?_, hclear⟩
  obtain ⟨hs, he⟩ | ⟨r, hr, hs, he⟩ := hinit
  · -- the page at 0 is reserved, so that not even the empty candidate is left
    have hnull := hclear ⟨0, 0xFFF⟩ (by simp [reserved]) (by decide)
    dsimp only at hs he hnull
    omega
  · exact ⟨r, hr, hs ▸ hlow, he ▸ hhigh⟩

theorem placed (hp : Plausible b) (hsize : mapSize (pageCount (findArea b)) ≤
    add32 (sub32 (findArea b).largestEnd (findArea b).largestStart) 1) : Placed b := by
  obtain ⟨-, hmin, -⟩ := hp.pages
  obtain ⟨hle, ⟨q, hq, hqs, hqe⟩, hclear⟩ := hp.candidate
  obtain ⟨hbits, hpos⟩ := mapSize_bounds (pageCount (findArea b))
  have hlow := hp.low q (.inl hq)
  have hpos' := hpos (by omega)
  unfold PAGE_SIZE at hlow
  rw [sub32_of_le (by omega) hle, add32_of_lt (by omega)] at hsize
  have hstop : (bitmapRange b).stop + 1 =
      (findArea b).largestStart + mapSize (pageCount (findArea b)) :=
    sub32_add32 Nat.one_pos hpos' (by omega)
  have hbegin := bitmapRange_start b
  refine ⟨hbegin ▸ hstop, hbits, ⟨q, hq, by omega, by omega⟩, fun r hr hrle => ?_⟩
  have hc := hclear r hr hrle
  omega

end Plausible

/-! ### The second pass -/

/-- Memory once the bitmap is in its place. -/
def memoryAfter (b : Boot) : Physmem → Bytes :=
  withBitmap b.memory (findArea b).largestStart (mapSize (pageCount (findArea b)))

/-- The bitmap does not hold the address. -/
def Apart (b : Boot) (x : ℕ) : Prop := x < (bitmapRange b).start ∨ (bitmapRange b).stop < x

/-- Four bytes that are the same in both memories. -/
theorem field_congr {m m' : Bytes} {p o : ℕ} (hlt : p + o < 2 ^ 32)
    (h : ∀ x, p + o ≤ x → x < p + o + 4 → m' x = m x) : field m' p o = field m p o := by
  rw [field, field, add32_of_lt hlt]
  exact Bytes.read_congr fun i hi => h _ (Nat.le_add_right _ _) (by omega)

namespace Placed

theorem memory_eq (h : Placed b) (hp : Plausible b) {x : ℕ} (hx : x < 2 ^ 32) (ha : Apart b x)
    (pm : Physmem) : memoryAfter b pm x = b.memory x := by
  obtain ⟨r, hr, -, hstop⟩ := h.usable
  have hlow := hp.low r (.inl hr)
  have hsize := h.size
  have hbegin := bitmapRange_start b
  unfold Apart at ha
  rw [hbegin] at ha hsize
  rw [memoryAfter, withBitmap, if_neg]
  intro hin
  obtain ⟨hle, hlt⟩ := (sub32_lt_iff hx (by omega)).mp hin
  omega

theorem apart_reserved (h : Placed b) (hr : r ∈ reserved b) {x : ℕ} (hlow : r.start ≤ x)
    (hhigh : x ≤ r.stop) : Apart b x := by
  have hclear := h.clear r hr (hlow.trans hhigh)
  unfold Apart
  omega

/-- A field in a reserved range. -/
theorem field_eq (h : Placed b) (hp : Plausible b) (hr : r ∈ reserved b) {p o : ℕ}
    (hlow : r.start ≤ p) (hhigh : p + o + 3 ≤ r.stop) (pm : Physmem) :
    field (memoryAfter b pm) p o = field b.memory p o := by
  have hlt := hp.low r (.inr hr)
  refine field_congr (by omega) fun x hx hx' => h.memory_eq hp (by omega) ?_ pm
  exact h.apart_reserved hr (by omega) (by omega)

/-- A field of the information structure. -/
theorem infoField_eq (h : Placed b) (hp : Plausible b) {o : ℕ}
    (ho : o + 4 ≤ multiboot_info_size) (pm : Physmem) :
    field (memoryAfter b pm) b.mboot o = field b.memory b.mboot o := by
  have hinfo := hp.whole.1
  have hstop : (infoRange b.mboot).stop + multiboot_info_size =
      b.mboot + multiboot_info_size * multiboot_info_size :=
    sub32_add32 (by decide) (by decide) hinfo
  have hstart : (infoRange b.mboot).start = b.mboot := rfl
  unfold multiboot_info_size at hstop ho
  exact h.field_eq hp (r := infoRange b.mboot) (by simp [reserved]) le_rfl (by omega) pm

/-- An entry of the module table. -/
theorem moduleAt_eq (h : Placed b) (hp : Plausible b) {i : ℕ}
    (hi : i < modsCount b.memory b.mboot) (pm : Physmem) :
    moduleAt (memoryAfter b pm) (modsAddr b.memory b.mboot) i =
      moduleAt b.memory (modsAddr b.memory b.mboot) i := by
  obtain ⟨-, hmodules, -, -, -⟩ := hp.whole
  have htable : moduleTable (modsAddr b.memory b.mboot) (modsCount b.memory b.mboot) ∈
      reserved b := by simp [reserved, moduleRanges]
  have hstop : (moduleTable (modsAddr b.memory b.mboot) (modsCount b.memory b.mboot)).stop +
      module_size = modsAddr b.memory b.mboot +
        modsCount b.memory b.mboot * module_size * module_size :=
    sub32_add32 (by decide) (by unfold module_size; omega) hmodules
  have hstart : (moduleTable (modsAddr b.memory b.mboot) (modsCount b.memory b.mboot)).start =
      modsAddr b.memory b.mboot := rfl
  unfold module_size at hstop hmodules
  have hplace : add32 (modsAddr b.memory b.mboot) (i * module_size) =
      modsAddr b.memory b.mboot + i * module_size :=
    add32_of_lt (by unfold module_size; omega)
  unfold moduleAt
  dsimp only
  rw [hplace, h.field_eq hp htable (by omega) (by unfold module_size; omega) pm,
    h.field_eq hp htable (by omega) (by unfold module_size; omega) pm,
    h.field_eq hp htable (by omega) (by unfold module_size; omega) pm]

/-- A string that is reserved, up to its end. -/
theorem kstrlen_eq (h : Placed b) (hp : Plausible b) {string : ℕ}
    (hmem : stringRange b.memory string ∈ reserved b)
    (hend : string + kstrlen b.memory string + 1 < 2 ^ 32) (pm : Physmem) :
    kstrlen (memoryAfter b pm) string = kstrlen b.memory string := by
  have hstop : (stringRange b.memory string).stop = string + kstrlen b.memory string + 1 := by
    change add32 (add32 string _) 1 = _
    rw [add32_of_lt (a := string) (by omega), add32_of_lt hend]
  have hsame : ∀ j ≤ kstrlen b.memory string,
      memoryAfter b pm (add32 string j) = b.memory (add32 string j) := by
    intro j hj
    rw [add32_of_lt (by omega)]
    exact h.memory_eq hp (by omega)
      (h.apart_reserved hmem (Nat.le_add_right string j) (by omega)) pm
  unfold kstrlen at hsame ⊢
  exact search_congr fun j _ hj => by rw [id, hsame j hj]

theorem sameModules (h : Placed b) (hp : Plausible b) (pm : Physmem) :
    SameModules b (memoryAfter b pm) where
  addr := h.infoField_eq hp (by decide) pm
  count := h.infoField_eq hp (by decide) pm
  entry _ hi := h.moduleAt_eq hp hi pm
  string i hi := by
    obtain ⟨-, -, hstrings, -, -⟩ := hp.whole
    refine h.kstrlen_eq hp ?_ (hstrings i hi) pm
    refine List.mem_append_left _ (List.mem_cons_of_mem _ (List.mem_flatMap.mpr ⟨i, ?_, ?_⟩))
    · exact List.mem_range.mpr hi
    · exact List.mem_cons_self

/-- The memory map is read again as it was. -/
theorem sameMap (h : Placed b) (hp : Plausible b) {i : ℕ} (hi : i < b.count) (pm : Physmem) :
    memoryMapAt (memoryAfter b pm) (mmapAddr b.memory b.mboot) i =
      memoryMapAt b.memory (mmapAddr b.memory b.mboot) i := by
  have hwhole := hp.whole.map
  have hcount : (i + 1) * memory_map_size ≤ mmapLength b.memory b.mboot := by
    refine (Nat.mul_le_mul_right _ (Nat.succ_le_of_lt hi)).trans ?_
    exact Nat.div_mul_le_self _ _
  have hapart : ∀ x, mmapAddr b.memory b.mboot ≤ x →
      x < mmapAddr b.memory b.mboot + mmapLength b.memory b.mboot → Apart b x := by
    intro x hlow hhigh
    obtain ⟨r, hr, hs, he⟩ | huse := hp.map
    · exact h.apart_reserved hr (by omega) (by omega)
    · obtain ⟨r, hr, hs, he⟩ := h.usable
      have hclear := huse r hr
      unfold Apart
      omega
  unfold memory_map_size at hcount
  have hp' : add32 (mmapAddr b.memory b.mboot) (i * memory_map_size) =
      mmapAddr b.memory b.mboot + i * memory_map_size :=
    add32_of_lt (by unfold memory_map_size; omega)
  have hfield : ∀ o ≤ 20, field (memoryAfter b pm)
      (mmapAddr b.memory b.mboot + i * memory_map_size) o =
      field b.memory (mmapAddr b.memory b.mboot + i * memory_map_size) o := by
    intro o ho
    unfold memory_map_size
    exact field_congr (by omega) fun x hx hx' =>
      h.memory_eq hp (by omega) (hapart x (by omega) (by omega)) pm
  unfold memoryMapAt
  dsimp only
  rw [hp', hfield 8 (by decide), hfield 4 (by decide), hfield 16 (by decide), hfield 12 (by decide),
    hfield 20 (by decide)]

end Placed

end Racoon.Bootstrap
