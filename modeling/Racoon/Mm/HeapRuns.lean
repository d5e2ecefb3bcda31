import Racoon.Lib.Run
import Racoon.Mm.HeapRealloc

/-!
# Runs of the kernel heap

Its users ask for blocks, give them back, change their sizes and write into
them, and the rest of the kernel writes into memory that the heap does not have.
What `liballoc_alloc` answers is part of a request. A request for a larger block
is made only where it succeeds: a failing one loses the old block.
-/

namespace Racoon.Liballoc
open Lib

/-- The heap and the blocks that were handed out, with the sizes that were asked for. -/
structure Run where
  heap : Heap
  live : List Block

inductive Request
  | malloc (liballocAlloc : List Block → ℕ → Option ℕ) (size : ℕ)
  | free (p : ℕ)
  | realloc (liballocAlloc : List Block → ℕ → Option ℕ) (p size : ℕ)
  | write (a : ℕ) (v : UInt8)

def Run.without (s : Run) (p : ℕ) : List Block := s.live.eraseP (·.1 = p)

def Request.exec (s : Run) : Request → Outcome Run
  | .malloc liballocAlloc size => do
    let r ← laMalloc liballocAlloc s.heap size
    .ok ⟨r.1, if r.2 = 0 then s.live else (r.2, size) :: s.live⟩
  | .free p => do
    let h ← laFree s.heap p
    .ok ⟨h, s.without p⟩
  | .realloc liballocAlloc p size => do
    let r ← laRealloc liballocAlloc s.heap p size
    .ok ⟨r.1, if r.2 = 0 then s.without p else (r.2, size) :: s.without p⟩
  | .write a v => .ok ⟨{ s.heap with memory := Function.update s.heap.memory a v }, s.live⟩

/-- The sizes are not near `2^32`, what is given back or changed is live, and writes go into live
blocks or into memory that the heap does not have. -/
def Request.Permitted (s : Run) : Request → Prop
  | .malloc liballocAlloc size => PageGrants liballocAlloc ∧ size + 8192 ≤ 2 ^ 32
  | .free p => p ∈ s.live.map Prod.fst
  | .realloc liballocAlloc p size => PageGrants liballocAlloc ∧ size + 8192 ≤ 2 ^ 32 ∧
    p ∈ s.live.map Prod.fst ∧
    ∀ r, (p, r) ∈ s.live → r < size → ∀ h', laMalloc liballocAlloc s.heap size ≠ .ok (h', 0)
  | .write a _ => (∃ b ∈ s.live, b.1 ≤ a ∧ a < b.1 + b.2) ∨
    ∀ b ∈ s.heap.pages, a < b.1 ∨ b.1 + b.2 ≤ a

def heapSystem : System Run Request Fault where
  Init s := s.heap.memRoot = 0 ∧ s.heap.bestBet = 0 ∧ s.heap.allocated = 0 ∧ s.heap.inuse = 0 ∧
    s.heap.pages = [] ∧ s.live = []
  Guard s q := q.Permitted s
  step s q := q.exec s

/-- A live block as its user knows it. -/
def Cell.block (c : Cell) : Block := (c.ptr, c.reqSize)

/-- The heap `h` with the majors `G`, as the headers in its memory tell it. -/
structure WellFormed (h : Heap) (G : List MajorBlock) : Prop where
  majors : pointer h.memRoot = (G.map MajorBlock.addr).head? ∧
    Linked (nextMajor h.memory) (prevMajor h.memory) none (G.map MajorBlock.addr) none
  minors : ∀ B ∈ G, pointer (h.major B.addr).first = (B.minors.map Cell.addr).head? ∧
    Linked (nextMinor h.memory) (prevMinor h.memory) none (B.minors.map Cell.addr) none
  ordered : ∀ B ∈ G, B.minors.Pairwise fun c d =>
    c.addr + sizeofMinor + (h.minor c.addr).size ≤ d.addr
  inside : ∀ B ∈ G, ∀ c ∈ B.minors, B.addr + sizeofMajor ≤ c.addr ∧
    c.addr + sizeofMinor + (h.minor c.addr).size ≤ B.addr + (h.major B.addr).size
  usage : ∀ B ∈ G, (h.major B.addr).usage =
    sizeofMajor + (B.minors.map fun c => sizeofMinor + (h.minor c.addr).size).sum
  apart : (G.map fun B => (B.addr, (h.major B.addr).size)).Pairwise Block.Apart
  inuse : h.inuse =
    (G.map fun B => (B.minors.map fun c => (h.minor c.addr).size).sum).sum
  allocated : h.allocated = (G.map fun B => (h.major B.addr).size).sum
  bestBet : h.bestBet = 0 ∨ h.bestBet ∈ G.map MajorBlock.addr

/-- The pointers that were handed out, with the sizes asked for. -/
structure HandedOut (s : Run) (G : List MajorBlock) : Prop where
  aligned : ∀ b ∈ s.live, b.1 % ALIGNMENT = 0
  own : ∀ b ∈ s.live, ∃ B ∈ G, ∃ c ∈ B.minors,
    sub32 (unalign s.heap.memory b.1) sizeofMinor = c.addr ∧
    (s.heap.minor c.addr).reqSize = b.2 ∧ c.addr + sizeofMinor ≤ b.1 ∧
    b.1 + b.2 ≤ c.addr + sizeofMinor + (s.heap.minor c.addr).size
  apart : s.live.Pairwise Block.Apart
  noHeader : ∀ b ∈ s.live, ∀ x, b.1 ≤ x → x < b.1 + b.2 → ¬ ∃ B ∈ G, B.Header x

/-- The blocks that were handed out are the minors of the majors `G`. -/
structure Describes (s : Run) (G : List MajorBlock) : Prop extends Represents s.heap G where
  handed : s.live.Perm ((cells G).map Cell.block)

namespace Represents
variable {h : Heap} {G : List MajorBlock}

theorem wellFormed (hr : Represents h G) : WellFormed h G := by
  have hmajor : ∀ B ∈ G, (h.major B.addr).size = B.size := fun B hB => (hr.stored B hB).size
  have hminor : ∀ B ∈ G, ∀ c ∈ B.minors, (h.minor c.addr).size = c.size := fun B hB c hc =>
    ((hr.stored B hB).holds c hc).size
  refine ⟨⟨hr.root, hr.chain⟩, fun B hB => ⟨(hr.stored B hB).first, (hr.stored B hB).chain⟩,
    fun B hB => ?_, fun B hB c hc => ?_, fun B hB => ?_, ?_, ?_, ?_, hr.best⟩
  · refine (Packed.sorted (hr.stored B hB).inOrder).imp_of_mem fun {c d} hc _ hcd => ?_
    rw [hminor B hB c hc, Nat.add_assoc]
    exact hcd
  · have hb := (hr.stored B hB).inOrder.mem hc
    rw [hminor B hB c hc, hmajor B hB, Nat.add_assoc]
    exact hb
  · refine (hr.stored B hB).usage.trans (congrArg (sizeofMajor + List.sum ·) ?_)
    refine List.map_congr_left fun c hc => ?_
    rw [hminor B hB c hc]
    rfl
  · have hext : G.map (fun B => (B.addr, (h.major B.addr).size)) = G.map MajorBlock.extent :=
      List.map_congr_left fun B hB => congrArg (Prod.mk B.addr) (hmajor B hB)
    rw [hext]
    exact hr.live.apart
  · refine hr.inuse.trans (congrArg (fun l : List ℕ => (l.sum : ℤ)) ?_)
    refine List.map_congr_left fun B hB => congrArg List.sum ?_
    exact List.map_congr_left fun c hc => (hminor B hB c hc).symm
  · refine hr.allocated.trans (congrArg (fun l : List ℕ => (l.sum : ℤ)) ?_)
    exact List.map_congr_left fun B hB => (hmajor B hB).symm

end Represents

namespace Describes
variable {s : Run} {G : List MajorBlock}

theorem cell (hd : Describes s G) {b : Block} (hb : b ∈ s.live) :
    ∃ c ∈ cells G, c.ptr = b.1 ∧ c.reqSize = b.2 := by
  obtain ⟨c, hc, rfl⟩ := List.mem_map.mp (hd.handed.mem_iff.mp hb)
  exact ⟨c, hc, rfl, rfl⟩

theorem handedOut (hd : Describes s G) : HandedOut s G := by
  refine ⟨fun b hb => ?_, fun b hb => ?_, ?_, fun b hb x hx hlt => ?_⟩
  · obtain ⟨c, -, hptr, -⟩ := hd.cell hb
    exact hptr ▸ c.ptr_bounds.2.2
  · obtain ⟨c, hc, hptr, hreq⟩ := hd.cell hb
    obtain ⟨hmin, -, hreq'⟩ := hd.min_eq hc
    have hdata := hd.data_le hc
    have hbounds := c.ptr_bounds
    obtain ⟨B, hB, hcB⟩ := mem_cells.mp hc
    have hsize : (s.heap.minor c.addr).size = c.size := ((hd.stored B hB).holds c hcB).size
    unfold Cell.len at hdata
    refine ⟨B, hB, c, hcB, hptr ▸ hmin, hreq'.trans hreq, ?_, ?_⟩
    · rw [sizeofMinor]
      omega
    · rw [hsize]
      omega
  · refine (hd.handed.pairwise_iff fun h => Or.symm h).mpr (List.pairwise_map.mpr ?_)
    refine hd.cells_apart.imp_of_mem fun {c d} hc hd' hap => ?_
    have hcd := hd.data_le hc
    have hdd := hd.data_le hd'
    have hcp := c.ptr_bounds
    have hdp := d.ptr_bounds
    unfold Clear at hap
    change c.ptr + c.reqSize ≤ d.ptr ∨ d.ptr + d.reqSize ≤ c.ptr
    omega
  · obtain ⟨c, hc, hptr, hreq⟩ := hd.cell hb
    have hdata := hd.data_le hc
    exact hd.not_header hc (by omega) (by omega)

theorem ptrs_nodup (hd : Describes s G) : (s.live.map Prod.fst).Nodup := by
  have hperm : (s.live.map Prod.fst).Perm ((cells G).map Cell.ptr) := by
    have := hd.handed.map Prod.fst
    rwa [List.map_map] at this
  exact hperm.nodup_iff.mpr (List.Nodup.map_on (fun c hc d hd' => hd.ptr_inj hc hd') hd.cells_nodup)

/-- What is left when a block goes. -/
theorem without_perm (hd : Describes s G) {c : Cell} {cs : List Cell}
    (hp : (cells G).Perm (c :: cs)) : (s.without c.ptr).Perm (cs.map Cell.block) := by
  have hpair : s.live.Pairwise fun b b' => (decide (b.1 = c.ptr) = true) →
      (decide (b'.1 = c.ptr) = true) → False :=
    (List.pairwise_map.mp hd.ptrs_nodup).imp fun hne hb hb' =>
      hne ((of_decide_eq_true hb).trans (of_decide_eq_true hb').symm)
  have hlive : s.live.Perm (c.block :: cs.map Cell.block) := hd.handed.trans (hp.map Cell.block)
  have herase := List.Perm.eraseP (fun b => decide (b.1 = c.ptr)) hpair hlive
  rwa [List.eraseP_cons_of_pos (by simp [Cell.block])] at herase

theorem served (hd : Describes s G) {G' : List MajorBlock} {h' : Heap} {q size n : ℕ}
    (hserved : Served h' G' n size q) (hcells : cells G' = cells G) :
    ∃ G'', Describes ⟨h', (q, size) :: s.live⟩ G'' := by
  obtain ⟨G₁, c, hr₁, hp, -, rfl, rfl⟩ := hserved
  refine ⟨G₁, hr₁, ?_⟩
  exact (hd.handed.cons c.block).trans ((hcells ▸ hp).map Cell.block).symm

end Describes

/-- A permitted request returns, and the heap stays as it has to be. -/
theorem heap_preserved : heapSystem.Preserves fun s => ∃ G, Describes s G := by
  rintro s q ⟨G, hd⟩ hq
  cases q with
  | malloc liballocAlloc size =>
    obtain ⟨hg, hsize⟩ := hq
    obtain ⟨h', p, hfound, -, ⟨-, G', hserved, hcells⟩ | ⟨-, rfl, -, hr'⟩⟩ :=
      hd.laMalloc_serves hg (show size + 54 < 2 ^ 32 by omega)
    · refine ⟨_, bind_eq_ok.mpr ⟨_, hfound, rfl⟩, ?_⟩
      dsimp only
      rw [if_neg hserved.ne_zero]
      exact hd.served hserved hcells
    · exact ⟨_, bind_eq_ok.mpr ⟨_, hfound, rfl⟩, G, hr', hd.handed⟩
  | free p =>
    obtain ⟨b, hb, rfl⟩ := List.mem_map.mp hq
    obtain ⟨c, hc, hptr, -⟩ := hd.cell hb
    obtain ⟨h', G', hfree, hr', hp, -⟩ := hd.laFree_eq hc
    refine ⟨_, bind_eq_ok.mpr ⟨h', hptr ▸ hfree, rfl⟩, G', hr', ?_⟩
    exact hptr ▸ hd.without_perm hp
  | realloc liballocAlloc p size =>
    obtain ⟨hg, hsize, hp, hinner⟩ := hq
    obtain ⟨⟨p, r⟩, hb, rfl⟩ := List.mem_map.mp hp
    obtain ⟨c, hc, rfl, rfl⟩ := hd.cell hb
    rcases Nat.eq_zero_or_pos size with rfl | hpos
    · obtain ⟨h', G', hfree, hr', hp', -⟩ := hd.laFree_eq hc
      refine ⟨⟨h', s.without c.ptr⟩, bind_eq_ok.mpr ⟨(h', 0), ?_, rfl⟩, G', hr',
        hd.without_perm hp'⟩
      unfold laRealloc
      rw [if_pos rfl, hfree]
      rfl
    · by_cases hle : size ≤ c.reqSize
      · obtain ⟨h', G', cs, he, hr', hp', hp'', -⟩ :=
          hd.laRealloc_shrinks liballocAlloc hc hpos hle
        refine ⟨_, bind_eq_ok.mpr ⟨_, he, rfl⟩, G', hr', ?_⟩
        dsimp only
        rw [if_neg c.ptr_pos.ne']
        exact ((hd.without_perm hp').cons (c.ptr, size)).trans (hp''.map Cell.block).symm
      · obtain ⟨h₁, q, hfound, hdata, ⟨-, G', hserved, hcells⟩ | ⟨-, rfl, -⟩⟩ :=
          hd.laMalloc_serves hg (show size + 54 < 2 ^ 32 by omega)
        · obtain ⟨h', G'', d, cs, he, hr', hp', hp'', rfl, rfl, -⟩ :=
            hd.laRealloc_moves hc (by omega) hfound hserved hcells hdata
          refine ⟨_, bind_eq_ok.mpr ⟨_, he, rfl⟩, G'', hr', ?_⟩
          dsimp only
          rw [if_neg d.ptr_pos.ne']
          exact ((hd.without_perm hp').cons d.block).trans (hp''.map Cell.block).symm
        · exact (hinner _ hb (by omega) h₁ hfound).elim
  | write a v =>
    refine ⟨_, rfl, G, hd.rewrite fun x hhead => Function.update_of_ne ?_ _ _, hd.handed⟩
    rintro rfl
    rcases hq with ⟨b, hb, hle, hlt⟩ | hout
    · exact hd.handedOut.noHeader b hb x hle hlt hhead
    · obtain ⟨B, hB, hhead⟩ := hhead
      have hmine := hout B.extent (hd.pages.mem_iff.mpr (List.mem_map_of_mem hB))
      have hle := hd.le_size hB
      unfold MajorBlock.extent at hmine
      dsimp only at hmine
      rcases hhead with hhead | ⟨c, hc, hhead⟩
      · omega
      · have hcb := (hd.stored B hB).inOrder.bounds hc
        have hc6 := hd.size_ge (mem_cells.mpr ⟨B, hB, hc⟩)
        have hptr := c.ptr_bounds
        simp only [ALIGNMENT, ALIGN_INFO] at hc6
        omega

theorem heap_init (s : Run) (hs : heapSystem.Init s) : ∃ G, Describes s G := by
  obtain ⟨hroot, hbet, halloc, hinuse, hpages, hlive⟩ := hs
  refine ⟨[], ⟨⟨nofun, nofun, .nil⟩, ?_, trivial, ?_, halloc, hinuse, .inl hbet⟩, ?_⟩
  · rw [hroot]
    rfl
  · rw [hpages]
    exact .refl _
  · rw [hlive]
    exact .refl _

/-- In every run the majors and minors are linked in order and keep count, and the blocks that are
live are apart from one another and from all headers. -/
theorem heap_invariant {s : Run} (hs : heapSystem.Reach s) :
    ∃ G, WellFormed s.heap G ∧ HandedOut s G := by
  obtain ⟨G, hd⟩ := hs.invariant heap_init heap_preserved
  exact ⟨G, hd.wellFormed, hd.handedOut⟩

/-- Sixteen pages that are given out once. -/
def onePage : List Block → ℕ → Option ℕ := fun blocks pages =>
  if blocks = [] ∧ pages = 16 then some 4096 else none

theorem onePage_grants : PageGrants onePage := fun blocks pages a ha => by
  unfold onePage at ha
  split_ifs at ha with h
  cases ha
  rw [h.1, h.2]
  exact ⟨⟨by norm_num, by norm_num [pageSize]⟩, nofun⟩

theorem heap_invariant_onePage :
    ∃ s, s.live ≠ [] ∧ ∃ G, WellFormed s.heap G ∧ HandedOut s G := by
  have hinit : heapSystem.Init ⟨⟨fun _ => 0, 0, 0, 0, 0, 0, 0, 0, []⟩, []⟩ :=
    ⟨rfl, rfl, rfl, rfl, rfl, rfl⟩
  obtain ⟨G, hd⟩ := heap_init _ hinit
  obtain ⟨h', p, hfound, -, ⟨-, G', hserved, -⟩ | ⟨⟨-, hask⟩, -⟩⟩ :=
    hd.laMalloc_serves onePage_grants (show 100 + 54 < 2 ^ 32 by norm_num)
  · have hstep : heapSystem.step ⟨⟨fun _ => 0, 0, 0, 0, 0, 0, 0, 0, []⟩, []⟩ (.malloc onePage 100) =
        .ok ⟨h', if p = 0 then [] else [(p, 100)]⟩ := bind_eq_ok.mpr ⟨_, hfound, rfl⟩
    refine ⟨_, ?_, heap_invariant ((System.Reach.of_init hinit).step
      (i := .malloc onePage 100) ⟨onePage_grants, by norm_num⟩ hstep)⟩
    dsimp only
    rw [if_neg hserved.ne_zero]
    exact List.cons_ne_nil _ _
  · exact absurd hask (by decide)

end Racoon.Liballoc
