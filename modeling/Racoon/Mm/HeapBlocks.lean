import Racoon.Mm.HeapFree

/-!
# The live blocks

The memory determines what it represents. The extents of the minors are apart
from one another and from the headers, so that whoever writes into the bytes of
his own block leaves the heap and the other blocks alone.
-/

namespace Racoon.Liballoc
open Lib

/-- The bytes behind the pointer to a minor. -/
def Cell.usable (c : Cell) : ℕ := c.addr + c.len - c.ptr

section Unique
variable {m : Bytes} {B B' : MajorBlock}

theorem Stored.minors_eq (hs : Stored m B) : B.minors = (B.minors.map Cell.addr).map fun a =>
    ⟨a, (minorLayout.get m a).size, (minorLayout.get m a).reqSize⟩ := by
  rw [List.map_map]
  nth_rewrite 1 [← List.map_id B.minors]
  refine List.map_congr_left fun c hc => ?_
  have hh := hs.holds c hc
  change c = ⟨c.addr, _, _⟩
  rw [hh.size, hh.reqSize]

theorem Stored.unique (hs : Stored m B) (hs' : Stored m B') (ha : B.addr = B'.addr) : B = B' := by
  have hsize : B.size = B'.size := hs.size.symm.trans (ha ▸ hs'.size)
  have haddr := hs.chain.unique hs'.chain (hs.first.symm.trans (ha ▸ hs'.first))
  have hminors : B.minors = B'.minors := by rw [hs.minors_eq, hs'.minors_eq, haddr]
  cases B
  cases B'
  dsimp only at ha hsize hminors
  rw [ha, hsize, hminors]

end Unique

namespace Represents
variable {h : Heap} {G G' : List MajorBlock} {A B : MajorBlock} {c d : Cell}

theorem unique (hr : Represents h G) (hr' : Represents h G') : G = G' := by
  have haddr := hr.chain.unique hr'.chain (hr.root.symm.trans hr'.root)
  have hstored := hr.stored
  have hstored' := hr'.stored
  clear hr hr'
  induction G generalizing G' with
  | nil => exact (List.map_eq_nil_iff.mp haddr.symm).symm
  | cons B G ih =>
    cases G' with
    | nil => cases haddr
    | cons B' G' =>
      obtain ⟨hB, haddr⟩ := List.cons.inj haddr
      rw [(hstored B (by simp)).unique (hstored' B' (by simp)) hB,
        ih haddr (fun A hA => hstored A (by simp [hA])) fun A hA => hstored' A (by simp [hA])]

theorem size_ge (hr : Represents h G) (hc : c ∈ cells G) :
    c.reqSize + (ALIGNMENT + ALIGN_INFO) ≤ c.size := by
  obtain ⟨B, hB, hcB⟩ := mem_cells.mp hc
  exact ((hr.stored B hB).holds c hcB).fits

/-- A request fits behind the pointer. -/
theorem data_le (hr : Represents h G) (hc : c ∈ cells G) : c.ptr + c.reqSize ≤ c.addr + c.len := by
  have hfits := hr.size_ge hc
  have hptr := c.ptr_bounds
  unfold Cell.len
  simp only [ALIGNMENT, ALIGN_INFO, sizeofMinor] at *
  omega

theorem reqSize_le (hr : Represents h G) (hc : c ∈ cells G) : c.reqSize ≤ c.usable :=
  Nat.le_sub_of_add_le' (hr.data_le hc)

/-- The extents of two minors are apart. -/
theorem cells_apart (hr : Represents h G) :
    (cells G).Pairwise fun c d => Clear c.addr c.len d.addr d.len := by
  refine List.pairwise_flatMap.mpr ⟨fun B hB => ?_, ?_⟩
  · exact (Packed.sorted (hr.stored B hB).inOrder).imp fun h => .inl h
  · have hpair : G.Pairwise fun B B' => B.extent.Apart B'.extent :=
      List.pairwise_map.mp hr.live.apart
    refine hpair.imp_of_mem fun {B B'} hB hB' hap c hc d hd => ?_
    have hcb := (hr.stored B hB).inOrder.bounds hc
    have hdb := (hr.stored B' hB').inOrder.bounds hd
    have hclen : c.len = 24 + c.size := rfl
    have hdlen : d.len = 24 + d.size := rfl
    unfold Block.Apart MajorBlock.extent at hap
    unfold Clear
    dsimp only at hap
    omega

theorem ptr_inj (hr : Represents h G) (hc : c ∈ cells G) (hd : d ∈ cells G) (he : c.ptr = d.ptr) :
    c = d := by
  by_contra hne
  have : Std.Symm fun c d : Cell => Clear c.addr c.len d.addr d.len := ⟨fun _ _ => Clear.symm⟩
  have hclear := hr.cells_apart.forall hc hd hne
  have hcs := hr.size_ge hc
  have hds := hr.size_ge hd
  have hcp := c.ptr_bounds
  have hdp := d.ptr_bounds
  unfold Clear Cell.len at hclear
  simp only [ALIGNMENT, ALIGN_INFO, sizeofMinor] at *
  omega

theorem cells_nodup (hr : Represents h G) : (cells G).Nodup :=
  hr.cells_apart.imp_of_mem fun {c d} _ _ hclear he => by
    subst he
    unfold Clear Cell.len sizeofMinor at hclear
    omega

/-- The bytes of a block are no header. -/
theorem not_header (hr : Represents h G) (hc : c ∈ cells G) {b : ℕ} (hb : c.ptr ≤ b)
    (hlt : b < c.addr + c.len) : ¬ ∃ B ∈ G, B.Header b := by
  rintro ⟨B, hB, hhead⟩
  obtain ⟨A, hA, hcA⟩ := mem_cells.mp hc
  have hsix : ∀ d ∈ B.minors, 6 ≤ d.size := fun d hd => by
    have := hr.size_ge (mem_cells.mpr ⟨B, hB, hd⟩)
    simp only [ALIGNMENT, ALIGN_INFO] at this
    omega
  by_cases hAB : A.addr = B.addr
  · obtain rfl := hr.addr_inj hA hB hAB
    exact (hr.stored A hA).inOrder.not_header hsix hcA hb hlt hhead
  · obtain ⟨hb₀, hb₁, -⟩ := hr.data_clear hA hB hcA hb hlt
    have hap := hr.apart hA hB hAB
    have ho := (hr.stored B hB).inOrder
    have hmin := ho.le_size
    unfold Clear at hap
    rcases hhead with hhead | ⟨d, hd, hhead⟩
    · omega
    · have hdb := ho.bounds hd
      have hdp := d.ptr_bounds
      have hd6 := hsix d hd
      omega

/-- Only the headers count. -/
theorem rewrite (hr : Represents h G) {m' : Bytes}
    (hm : ∀ b, (∃ B ∈ G, B.Header b) → m' b = h.memory b) :
    Represents { h with memory := m' } G := by
  have hsame : ∀ B ∈ G, SameAt B.addr 24 h.memory m' := fun B hB i hi =>
    hm _ ⟨B, hB, .inl ⟨by omega, by omega⟩⟩
  have hmajor : ∀ B ∈ G, majorLayout.get m' B.addr = majorLayout.get h.memory B.addr :=
    fun B hB => majorLayout.get_congr (hsame B hB)
  refine ⟨⟨fun B hB => (hr.stored B hB).congr (hsame B hB) fun c hc b hb hlt =>
      hm b ⟨B, hB, .inr ⟨c, hc, hb, hlt⟩⟩, hr.live⟩, hr.root,
    hr.chain.congr (fun x hx => ?_) fun x hx => ?_, hr.pages, hr.allocated, hr.inuse, hr.best⟩
  · obtain ⟨B, hB, rfl⟩ := List.mem_map.mp hx
    exact congrArg (fun M : Major => pointer M.next) (hmajor B hB)
  · obtain ⟨B, hB, rfl⟩ := List.mem_map.mp hx
    exact congrArg (fun M : Major => pointer M.prev) (hmajor B hB)

end Represents
end Racoon.Liballoc
