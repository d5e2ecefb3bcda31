import Racoon.Lib.DoublyLinked
import Racoon.Lib.Packing
import Racoon.Mm.Liballoc

/-!
# What a major holds

A major is described by its minors in the order of their addresses. `Stored`
says that the headers in memory spell this description out. The headers are
written one after the other while a minor is linked in or out; in between,
`Views` tells what each of them holds, and which bytes have not been touched.
-/

namespace Racoon.Liballoc
open Lib

/-- A pointer into the managed memory, where 0 is `NULL`. -/
def pointer (a : ℕ) : Option ℕ := if a = 0 then none else some a

theorem pointer_of_pos {a : ℕ} (h : 0 < a) : pointer a = some a := if_neg (by omega)

theorem pointer_getD {o : Option ℕ} (h : ∀ a, o = some a → 0 < a) : pointer (o.getD 0) = o := by
  cases o with
  | none => rfl
  | some a => exact pointer_of_pos (h a rfl)

theorem eq_getD_of_pointer {a : ℕ} {o : Option ℕ} (h : pointer a = o) : a = o.getD 0 := by
  subst h
  unfold pointer
  split_ifs with ha
  · exact ha
  · rfl

/-- A minor: where its header stands, the bytes behind the header and those asked for. -/
structure Cell where
  addr : ℕ
  size : ℕ
  reqSize : ℕ

namespace Cell

def len (c : Cell) : ℕ := sizeofMinor + c.size

/-- The first multiple of 4 that leaves room for the alignment information. -/
def ptr (c : Cell) : ℕ := (c.addr + sizeofMinor + ALIGN_INFO + 3) / ALIGNMENT * ALIGNMENT

theorem ptr_bounds (c : Cell) : c.addr + 26 ≤ c.ptr ∧ c.ptr ≤ c.addr + 29 ∧ c.ptr % 4 = 0 := by
  simp only [ptr, sizeofMinor, ALIGN_INFO, ALIGNMENT]
  omega

end Cell

structure MajorBlock where
  addr : ℕ
  size : ℕ
  minors : List Cell

namespace MajorBlock

def extent (B : MajorBlock) : Block := (B.addr, B.size)

def usage (B : MajorBlock) : ℕ := sizeofMajor + (B.minors.map Cell.len).sum

def inuse (B : MajorBlock) : ℕ := (B.minors.map Cell.size).sum

/-- The minors lie in order between the header of the major and its end. -/
def InOrder (B : MajorBlock) : Prop :=
  Packed Cell.addr Cell.len (B.addr + sizeofMajor) B.minors (B.addr + B.size)

end MajorBlock

def nextMinor (m : Bytes) (a : ℕ) : Option ℕ := pointer (minorLayout.get m a).next

def prevMinor (m : Bytes) (a : ℕ) : Option ℕ := pointer (minorLayout.get m a).prev

/-- The header of a minor in the major at `a`. -/
structure Holds (m : Bytes) (a : ℕ) (c : Cell) : Prop where
  block : (minorLayout.get m c.addr).block = a
  magic : (minorLayout.get m c.addr).magic = LIBALLOC_MAGIC
  size : (minorLayout.get m c.addr).size = c.size
  reqSize : (minorLayout.get m c.addr).reqSize = c.reqSize
  fits : c.reqSize + (ALIGNMENT + ALIGN_INFO) ≤ c.size
  tag : m.read 2 (c.ptr - ALIGN_INFO) = c.ptr - (c.addr + sizeofMinor)

structure Stored (m : Bytes) (B : MajorBlock) : Prop where
  size : (majorLayout.get m B.addr).size = B.size
  pages : (majorLayout.get m B.addr).pages * pageSize = B.size
  usage : (majorLayout.get m B.addr).usage = B.usage
  first : pointer (majorLayout.get m B.addr).first = (B.minors.map Cell.addr).head?
  chain : Linked (nextMinor m) (prevMinor m) none (B.minors.map Cell.addr) none
  inOrder : B.InOrder
  holds : ∀ c ∈ B.minors, Holds m B.addr c

theorem size_majorLayout : majorLayout.size = 24 := rfl

theorem size_minorLayout : minorLayout.size = 24 := rfl

theorem fits_major {M : Major} : majorLayout.Fits M ↔ M.prev < 2 ^ 32 ∧ M.next < 2 ^ 32 ∧
    M.pages < 2 ^ 32 ∧ M.size < 2 ^ 32 ∧ M.usage < 2 ^ 32 ∧ M.first < 2 ^ 32 := by
  simp [Layout.Fits, majorLayout]

theorem fits_minor {x : Minor} : minorLayout.Fits x ↔ x.prev < 2 ^ 32 ∧ x.next < 2 ^ 32 ∧
    x.block < 2 ^ 32 ∧ x.magic < 2 ^ 32 ∧ x.size < 2 ^ 32 ∧ x.reqSize < 2 ^ 32 := by
  simp [Layout.Fits, minorLayout]

namespace MajorBlock
variable {B : MajorBlock}

theorem InOrder.bounds (h : B.InOrder) {c : Cell} (hc : c ∈ B.minors) :
    B.addr + 24 ≤ c.addr ∧ c.addr + 24 + c.size ≤ B.addr + B.size := by
  have := h.mem hc
  simp only [Cell.len, sizeofMajor, sizeofMinor] at this
  omega

theorem InOrder.eq_or_clear (h : B.InOrder) {c d : Cell} (hc : c ∈ B.minors) (hd : d ∈ B.minors) :
    c = d ∨ Clear c.addr (24 + c.size) d.addr (24 + d.size) := by
  have := Packed.eq_or_clear h hc hd
  simp only [Cell.len, sizeofMinor] at this
  exact this

theorem InOrder.nodup (h : B.InOrder) : (B.minors.map Cell.addr).Nodup :=
  List.pairwise_map.mpr <| (Packed.sorted h).imp fun hcd => by
    simp only [Cell.len, sizeofMinor] at hcd
    omega

theorem InOrder.le_size (h : B.InOrder) : 24 ≤ B.size := by
  have := Packed.le h
  unfold sizeofMajor at this
  omega

theorem InOrder.usage_le (h : B.InOrder) : B.usage ≤ B.size := by
  have := Packed.sum_le h
  unfold usage
  omega

end MajorBlock

/-- The memory while the headers of the major `B` are written: what the header at its start, those
at the minors and the alignment information hold. Outside of `B` it is still `m₀`. -/
structure Views (m₀ m : Bytes) (B : MajorBlock) (M : Major) (f : ℕ → Minor) (g : Cell → ℕ) :
    Prop where
  major : majorLayout.get m B.addr = M
  minor : ∀ c ∈ B.minors, minorLayout.get m c.addr = f c.addr
  tag : ∀ c ∈ B.minors, m.read 2 (c.ptr - ALIGN_INFO) = g c
  outside : ∀ b, b < B.addr ∨ B.addr + B.size ≤ b → m b = m₀ b

namespace Views
variable {m₀ m : Bytes} {B : MajorBlock} {M M' : Major} {f : ℕ → Minor} {g : Cell → ℕ} {c : Cell}

theorem start (m : Bytes) (B : MajorBlock) : Views m m B (majorLayout.get m B.addr)
    (minorLayout.get m) fun c => m.read 2 (c.ptr - ALIGN_INFO) where
  major := rfl
  minor _ _ := rfl
  tag _ _ := rfl
  outside _ _ := rfl

theorem fits_minor (h : Views m₀ m B M f g) (hc : c ∈ B.minors) : minorLayout.Fits (f c.addr) :=
  h.minor c hc ▸ minorLayout.fits_get m c.addr

theorem fits_major (h : Views m₀ m B M f g) : majorLayout.Fits M :=
  h.major ▸ majorLayout.fits_get m B.addr

theorem putMajor (h : Views m₀ m B M f g) (ho : B.InOrder)
    (hM : majorLayout.Fits M') : Views m₀ (majorLayout.put m B.addr M') B M' f g where
  major := majorLayout.get_put m B.addr hM
  minor d hd := by
    have := (ho.bounds hd).1
    rw [majorLayout.get_put_clear minorLayout (.inl this), h.minor d hd]
  tag d hd := by
    have := (ho.bounds hd).1
    have := d.ptr_bounds
    rw [majorLayout.read_put_clear, h.tag d hd]
    left
    rw [size_majorLayout, ALIGN_INFO]
    omega
  outside b hb := by
    have := ho.le_size
    rw [majorLayout.put_apart m M' (by rw [size_majorLayout]; omega), h.outside b hb]

theorem putMinor (h : Views m₀ m B M f g) (ho : B.InOrder) (hsize : ∀ d ∈ B.minors, 6 ≤ d.size)
    (hc : c ∈ B.minors) {x : Minor} (hx : minorLayout.Fits x) :
    Views m₀ (minorLayout.put m c.addr x) B M (Function.update f c.addr x) g where
  major := by
    rw [minorLayout.get_put_clear majorLayout (.inr (ho.bounds hc).1), h.major]
  minor d hd := by
    rcases ho.eq_or_clear hc hd with rfl | hcd
    · rw [Function.update_self, minorLayout.get_put m c.addr hx]
    · have hclear : Clear c.addr minorLayout.size d.addr minorLayout.size := by
        unfold Clear at hcd ⊢
        rw [size_minorLayout]
        omega
      rw [Function.update_of_ne, minorLayout.get_put_clear minorLayout hclear, h.minor d hd]
      rintro hdc
      rw [hdc] at hcd
      unfold Clear at hcd
      omega
  tag d hd := by
    have hptr := d.ptr_bounds
    have hds := hsize d hd
    rw [minorLayout.read_put_clear, h.tag d hd]
    unfold Clear
    rw [size_minorLayout, ALIGN_INFO]
    rcases ho.eq_or_clear hc hd with rfl | hcd
    · omega
    · unfold Clear at hcd
      omega
  outside b hb := by
    have := ho.bounds hc
    rw [minorLayout.put_apart m x (by rw [size_minorLayout]; omega), h.outside b hb]

theorem putTag (h : Views m₀ m B M f g) (ho : B.InOrder) (hsize : ∀ d ∈ B.minors, 6 ≤ d.size)
    (hc : c ∈ B.minors) {v : ℕ} (hv : v < 256 ^ 2) :
    ∃ g', Views m₀ (m.write 2 (c.ptr - ALIGN_INFO) v) B M f g' ∧ g' c = v ∧
      ∀ d ∈ B.minors, d.addr ≠ c.addr → g' d = g d := by
  have hptr := c.ptr_bounds
  have hcb := ho.bounds hc
  have hcs := hsize c hc
  have htag : ∀ d ∈ B.minors, d.addr ≠ c.addr →
      (m.write 2 (c.ptr - ALIGN_INFO) v).read 2 (d.ptr - ALIGN_INFO) = g d := by
    intro d hd hne
    have := d.ptr_bounds
    have := hsize d hd
    rw [Bytes.read_write_clear, h.tag d hd]
    unfold Clear
    rw [ALIGN_INFO]
    rcases ho.eq_or_clear hc hd with rfl | hcd
    · exact (hne rfl).elim
    · unfold Clear at hcd
      omega
  refine ⟨_, ⟨?_, fun d hd => ?_, fun _ _ => rfl, fun b hb => ?_⟩, Bytes.read_write m _ v hv, htag⟩
  · rw [majorLayout.get_write_clear, h.major]
    unfold Clear
    rw [size_majorLayout, ALIGN_INFO]
    omega
  · rw [minorLayout.get_write_clear, h.minor d hd]
    unfold Clear
    rw [size_minorLayout, ALIGN_INFO]
    rcases ho.eq_or_clear hc hd with rfl | hcd
    · omega
    · unfold Clear at hcd
      omega
  · rw [Bytes.write_apart v (by rw [ALIGN_INFO]; omega), h.outside b hb]

/-- A pointer that may be `NULL` is followed to a minor, which is changed. -/
theorem modifyMinor {h : Heap} (hv : Views m₀ h.memory B M f g) (ho : B.InOrder)
    (hsize : ∀ d ∈ B.minors, 6 ≤ d.size) {o : Option ℕ}
    (hmem : ∀ a, o = some a → 0 < a ∧ ∃ d ∈ B.minors, d.addr = a) {φ : Minor → Minor}
    (hφ : ∀ x, minorLayout.Fits x → minorLayout.Fits (φ x)) :
    ∃ m', (if o.getD 0 ≠ 0 then h.modifyMinor (o.getD 0) φ else h) = { h with memory := m' } ∧
      Views m₀ m' B M (fun a => if o = some a then φ (f a) else f a) g := by
  cases o with
  | none => exact ⟨h.memory, rfl, by simpa using hv⟩
  | some a =>
    obtain ⟨hpos, d, hd, rfl⟩ := hmem a rfl
    refine ⟨minorLayout.put h.memory d.addr (φ (f d.addr)), ?_, ?_⟩
    · rw [if_pos (by simpa using hpos.ne')]
      exact congrArg (fun x => h.setMinor d.addr (φ x)) (hv.minor d hd)
    · have hf : (fun a => if some d.addr = some a then φ (f a) else f a) =
          Function.update f d.addr (φ (f d.addr)) := by
        funext a
        rw [Function.update_apply]
        by_cases ha : a = d.addr
        · simp [ha]
        · simp [ha, Ne.symm ha]
      rw [hf]
      exact hv.putMinor ho hsize hd (hφ _ (hv.fits_minor hd))

theorem modifyMajor {h : Heap} (hv : Views m₀ h.memory B M f g) (ho : B.InOrder)
    {φ : Major → Major} (hφ : majorLayout.Fits (φ M)) :
    ∃ m', h.modifyMajor B.addr φ = { h with memory := m' } ∧ Views m₀ m' B (φ M) f g := by
  refine ⟨majorLayout.put h.memory B.addr (φ M), ?_, hv.putMajor ho hφ⟩
  exact congrArg (fun x => h.setMajor B.addr (φ x)) hv.major

/-- The minor before a place gets a new `next`, or the major a new `first`. -/
theorem modifyBefore {h : Heap} (hv : Views m₀ h.memory B M f g) (ho : B.InOrder)
    (hsize : ∀ d ∈ B.minors, 6 ≤ d.size) {o : Option ℕ}
    (hmem : ∀ a, o = some a → 0 < a ∧ ∃ d ∈ B.minors, d.addr = a) {v : ℕ} (hlt : v < 2 ^ 32) :
    ∃ m', (if o.getD 0 ≠ 0 then h.modifyMinor (o.getD 0) fun x => { x with next := v }
        else h.modifyMajor B.addr fun M => { M with first := v }) = { h with memory := m' } ∧
      Views m₀ m' B { M with first := if o = none then v else M.first }
        (fun a => if o = some a then { f a with next := v } else f a) g := by
  cases o with
  | none =>
    obtain ⟨m', he, hv'⟩ := hv.modifyMajor (φ := fun M => { M with first := v }) ho (by
      have := hv.fits_major
      rw [Liballoc.fits_major] at this ⊢
      exact ⟨this.1, this.2.1, this.2.2.1, this.2.2.2.1, this.2.2.2.2.1, hlt⟩)
    exact ⟨m', by simpa using he, by simpa using hv'⟩
  | some a =>
    have hpos := (hmem a rfl).1
    obtain ⟨m', he, hv'⟩ := hv.modifyMinor (φ := fun x => { x with next := v }) ho hsize hmem
      fun x hx => by
        rw [Liballoc.fits_minor] at hx ⊢
        exact ⟨hx.1, hlt, hx.2.2⟩
    rw [if_pos (by simpa using hpos.ne')] at he ⊢
    exact ⟨m', he, by simpa using hv'⟩

end Views

namespace Stored
variable {m m₀ m' : Bytes} {B : MajorBlock}

/-- Only the headers and the alignment information count. -/
theorem congr (h : Stored m B) (hB : SameAt B.addr 24 m m')
    (hc : ∀ c ∈ B.minors, ∀ b, c.addr ≤ b → b < c.ptr → m' b = m b) : Stored m' B := by
  have hmajor : majorLayout.get m' B.addr = majorLayout.get m B.addr := majorLayout.get_congr hB
  have hminor : ∀ c ∈ B.minors, minorLayout.get m' c.addr = minorLayout.get m c.addr :=
    fun c hm => minorLayout.get_congr fun i hi => hc c hm _ (by omega) (by
      have := c.ptr_bounds
      rw [size_minorLayout] at hi
      omega)
  refine ⟨hmajor ▸ h.size, hmajor ▸ h.pages, hmajor ▸ h.usage, hmajor ▸ h.first,
    h.chain.congr (fun a ha => ?_) fun a ha => ?_, h.inOrder, fun c hm => ?_⟩
  · obtain ⟨c, hm, rfl⟩ := List.mem_map.mp ha
    rw [nextMinor, nextMinor, hminor c hm]
  · obtain ⟨c, hm, rfl⟩ := List.mem_map.mp ha
    rw [prevMinor, prevMinor, hminor c hm]
  · have hh := h.holds c hm
    have heq := hminor c hm
    refine ⟨heq ▸ hh.block, heq ▸ hh.magic, heq ▸ hh.size, heq ▸ hh.reqSize, hh.fits, ?_⟩
    rw [← hh.tag]
    refine Bytes.read_congr fun i hi => hc c hm _ ?_ ?_
    · have := c.ptr_bounds
      rw [ALIGN_INFO]
      omega
    · have := c.ptr_bounds
      rw [ALIGN_INFO]
      omega

theorem addr_pos (ho : B.InOrder) (hpos : 0 < B.addr) {x : ℕ}
    (hx : x ∈ B.minors.map Cell.addr) : 0 < x := by
  obtain ⟨c, hc, rfl⟩ := List.mem_map.mp hx
  have := (ho.bounds hc).1
  omega

end Stored

/-- The two neighbours of a place in the list of minors, `NULL` at its ends. -/
def prevOf (l : List Cell) : Option ℕ := (l.map Cell.addr).getLast?

def nextOf (r : List Cell) : Option ℕ := (r.map Cell.addr).head?

section Edit
variable {m m' : Bytes} {a n : ℕ} {l r : List Cell} {c : Cell} {M : Major} {f : ℕ → Minor}
  {g : Cell → ℕ}

theorem prevOf_mem {x : ℕ} (h : prevOf l = some x) : x ∈ l.map Cell.addr := List.mem_of_getLast? h

theorem nextOf_mem {x : ℕ} (h : nextOf r = some x) : x ∈ r.map Cell.addr := List.mem_of_mem_head? h

theorem neighbour_mem {l' : List Cell} (ho : MajorBlock.InOrder ⟨a, n, l'⟩) (ha : 0 < a)
    {o : Option ℕ} (h : ∀ x, o = some x → x ∈ l'.map Cell.addr) :
    ∀ x, o = some x → 0 < x ∧ ∃ d ∈ l', d.addr = x := fun x hx =>
  ⟨Stored.addr_pos ho ha (h x hx), List.mem_map.mp (h x hx)⟩

/-- The headers after a minor has been linked in. -/
theorem Stored.insert (hs : Stored m ⟨a, n, l ++ r⟩) (hv : Views m m' ⟨a, n, l ++ c :: r⟩ M f g)
    (ho : MajorBlock.InOrder ⟨a, n, l ++ c :: r⟩) (ha : 0 < a)
    (hM : M = { majorLayout.get m a with
      usage := (majorLayout.get m a).usage + c.len,
      first := if l = [] then c.addr else (majorLayout.get m a).first })
    (hc : f c.addr = ⟨(prevOf l).getD 0, (nextOf r).getD 0, a, LIBALLOC_MAGIC, c.size, c.reqSize⟩)
    (hfits : c.reqSize + (ALIGNMENT + ALIGN_INFO) ≤ c.size)
    (hf : ∀ d ∈ l ++ r, f d.addr = { minorLayout.get m d.addr with
      next := if prevOf l = some d.addr then c.addr else (minorLayout.get m d.addr).next,
      prev := if nextOf r = some d.addr then c.addr else (minorLayout.get m d.addr).prev })
    (hg : g c = c.ptr - (c.addr + sizeofMinor))
    (hgs : ∀ d ∈ l ++ r, g d = m.read 2 (d.ptr - ALIGN_INFO)) :
    Stored m' ⟨a, n, l ++ c :: r⟩ := by
  have hcpos : 0 < c.addr := Stored.addr_pos ho ha (List.mem_map_of_mem (by simp))
  have hmem : ∀ d ∈ l ++ r, d ∈ l ++ c :: r := fun d hd => by
    rcases List.mem_append.mp hd with hd | hd <;> simp [hd]
  have hminor : ∀ d ∈ l ++ r, minorLayout.get m' d.addr = f d.addr := fun d hd =>
    hv.minor d (hmem d hd)
  have hcell : minorLayout.get m' c.addr = f c.addr := hv.minor c (by simp)
  have hmajor : majorLayout.get m' a = M := hv.major
  have hprev := neighbour_mem ho ha (o := prevOf l) fun x hx => by simp [prevOf_mem hx]
  have hnext := neighbour_mem ho ha (o := nextOf r) fun x hx => by simp [nextOf_mem hx]
  refine ⟨by rw [hmajor, hM]; exact hs.size, by rw [hmajor, hM]; exact hs.pages, ?_, ?_, ?_, ho,
    fun d hd => ?_⟩
  · rw [hmajor, hM]
    have := hs.usage
    simp only [MajorBlock.usage, List.map_append, List.sum_append, List.map_cons,
      List.sum_cons] at this ⊢
    omega
  · rw [hmajor, hM]
    cases l with
    | nil => exact pointer_of_pos hcpos
    | cons d l => exact hs.first
  · rw [List.map_append, List.map_cons]
    have hchain := hs.chain
    have hnodup := hs.inOrder.nodup
    rw [List.map_append] at hchain hnodup
    refine hchain.link hnodup ?_ ?_ (fun x hx => ?_) fun x hx => ?_
    · rw [nextMinor, hcell, hc, Option.or_none]
      exact pointer_getD fun x hx => (hnext x hx).1
    · rw [prevMinor, hcell, hc, Option.or_none]
      exact pointer_getD fun x hx => (hprev x hx).1
    · rw [← List.map_append] at hx
      obtain ⟨d, hd, rfl⟩ := List.mem_map.mp hx
      rw [nextMinor, hminor d hd, hf d hd]
      change pointer (if prevOf l = some d.addr then _ else _) =
        if prevOf l = some d.addr then _ else _
      split_ifs
      · exact pointer_of_pos hcpos
      · rfl
    · rw [← List.map_append] at hx
      obtain ⟨d, hd, rfl⟩ := List.mem_map.mp hx
      rw [prevMinor, hminor d hd, hf d hd]
      change pointer (if nextOf r = some d.addr then _ else _) =
        if nextOf r = some d.addr then _ else _
      split_ifs
      · exact pointer_of_pos hcpos
      · rfl
  · have hd' : d = c ∨ d ∈ l ++ r := by
      simp only [List.mem_append, List.mem_cons] at hd ⊢
      tauto
    rcases hd' with rfl | hd'
    · refine ⟨?_, ?_, ?_, ?_, hfits, (hv.tag d hd).trans hg⟩ <;> rw [hcell, hc]
    · have hh := hs.holds d hd'
      refine ⟨?_, ?_, ?_, ?_, hh.fits, ((hv.tag d hd).trans (hgs d hd')).trans hh.tag⟩ <;>
        rw [hminor d hd', hf d hd']
      exacts [hh.block, hh.magic, hh.size, hh.reqSize]

/-- The headers after a minor has been taken out. -/
theorem Stored.remove (hs : Stored m ⟨a, n, l ++ c :: r⟩)
    (hv : Views m m' ⟨a, n, l ++ c :: r⟩ M f g) (ha : 0 < a)
    (hM : M = { majorLayout.get m a with
      usage := (majorLayout.get m a).usage - c.len,
      first := if l = [] then (nextOf r).getD 0 else (majorLayout.get m a).first })
    (hf : ∀ d ∈ l ++ r, f d.addr = { minorLayout.get m d.addr with
      next := if prevOf l = some d.addr then (nextOf r).getD 0
        else (minorLayout.get m d.addr).next,
      prev := if nextOf r = some d.addr then (prevOf l).getD 0
        else (minorLayout.get m d.addr).prev })
    (hgs : ∀ d ∈ l ++ r, g d = m.read 2 (d.ptr - ALIGN_INFO)) :
    Stored m' ⟨a, n, l ++ r⟩ := by
  have ho : MajorBlock.InOrder ⟨a, n, l ++ r⟩ := Packed.remove hs.inOrder
  have hmem : ∀ d ∈ l ++ r, d ∈ l ++ c :: r := fun d hd => by
    rcases List.mem_append.mp hd with hd | hd <;> simp [hd]
  have hminor : ∀ d ∈ l ++ r, minorLayout.get m' d.addr = f d.addr := fun d hd =>
    hv.minor d (hmem d hd)
  have hmajor : majorLayout.get m' a = M := hv.major
  have hprev := neighbour_mem ho ha (o := prevOf l) fun x hx => by simp [prevOf_mem hx]
  have hnext := neighbour_mem ho ha (o := nextOf r) fun x hx => by simp [nextOf_mem hx]
  refine ⟨by rw [hmajor, hM]; exact hs.size, by rw [hmajor, hM]; exact hs.pages, ?_, ?_, ?_, ho,
    fun d hd => ?_⟩
  · rw [hmajor, hM]
    have := hs.usage
    simp only [MajorBlock.usage, List.map_append, List.sum_append, List.map_cons,
      List.sum_cons] at this ⊢
    omega
  · rw [hmajor, hM]
    cases l with
    | nil => exact pointer_getD fun x hx => (hnext x hx).1
    | cons d l => exact hs.first
  · rw [List.map_append]
    have hchain := hs.chain
    have hnodup := hs.inOrder.nodup
    rw [List.map_append, List.map_cons] at hchain hnodup
    refine hchain.unlink hnodup (fun x hx => ?_) fun x hx => ?_
    · rw [← List.map_append] at hx
      obtain ⟨d, hd, rfl⟩ := List.mem_map.mp hx
      rw [nextMinor, hminor d hd, hf d hd, Option.or_none]
      change pointer (if prevOf l = some d.addr then _ else _) =
        if prevOf l = some d.addr then nextOf r else _
      split_ifs
      · exact pointer_getD fun x hx => (hnext x hx).1
      · rfl
    · rw [← List.map_append] at hx
      obtain ⟨d, hd, rfl⟩ := List.mem_map.mp hx
      rw [prevMinor, hminor d hd, hf d hd, Option.or_none]
      change pointer (if nextOf r = some d.addr then _ else _) =
        if nextOf r = some d.addr then prevOf l else _
      split_ifs
      · exact pointer_getD fun x hx => (hprev x hx).1
      · rfl
  · have hh := hs.holds d (hmem d hd)
    refine ⟨?_, ?_, ?_, ?_, hh.fits, ((hv.tag d (hmem d hd)).trans (hgs d hd)).trans hh.tag⟩ <;>
      rw [hminor d hd, hf d hd]
    exacts [hh.block, hh.magic, hh.size, hh.reqSize]

end Edit
end Racoon.Liballoc
