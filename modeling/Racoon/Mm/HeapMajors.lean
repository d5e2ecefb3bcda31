import Racoon.Mm.HeapPlace

/-!
# The list of majors

`Represents h G` says that the majors of the heap `h` are those of the list `G`,
linked from the root, and that the counters agree with them. A minor is put into
one of them, or a new major goes behind the last one.
-/

namespace Racoon.Liballoc
open Lib

def nextMajor (m : Bytes) (a : ℕ) : Option ℕ := pointer (majorLayout.get m a).next

def prevMajor (m : Bytes) (a : ℕ) : Option ℕ := pointer (majorLayout.get m a).prev

/-- Majors that stand side by side in memory. -/
structure Majors (m : Bytes) (G : List MajorBlock) : Prop where
  stored : ∀ B ∈ G, Stored m B
  live : Allocated (2 ^ 32) (G.map MajorBlock.extent)

structure Represents (h : Heap) (G : List MajorBlock) : Prop extends Majors h.memory G where
  root : pointer h.memRoot = (G.map MajorBlock.addr).head?
  chain : Linked (nextMajor h.memory) (prevMajor h.memory) none (G.map MajorBlock.addr) none
  pages : h.pages.Perm (G.map MajorBlock.extent)
  allocated : h.allocated = (G.map MajorBlock.size).sum
  inuse : h.inuse = (G.map MajorBlock.inuse).sum
  best : h.bestBet = 0 ∨ h.bestBet ∈ G.map MajorBlock.addr

/-- All minors. -/
def cells (G : List MajorBlock) : List Cell := G.flatMap MajorBlock.minors

theorem mem_cells {G : List MajorBlock} {c : Cell} : c ∈ cells G ↔ ∃ B ∈ G, c ∈ B.minors :=
  List.mem_flatMap

section Links
variable {B : MajorBlock} {m m' : Bytes} {M : Major}

theorem Stored.frame (hs : Stored m B)
    (h : ∀ b, B.addr ≤ b → b < B.addr + B.size → m' b = m b) : Stored m' B := by
  have hmin := hs.inOrder.le_size
  refine hs.congr (fun i hi => h _ (by omega) (by omega)) fun c hc b hb hlt => h b ?_ ?_
  · have := hs.inOrder.bounds hc
    omega
  · have hcb := hs.inOrder.bounds hc
    have hptr := c.ptr_bounds
    have hfits := (hs.holds c hc).fits
    simp only [ALIGNMENT, ALIGN_INFO] at hfits
    omega

theorem Stored.major_frame (hs : Stored m B)
    (h : ∀ b, B.addr ≤ b → b < B.addr + B.size → m' b = m b) :
    majorLayout.get m' B.addr = majorLayout.get m B.addr := by
  have hmin := hs.inOrder.le_size
  exact majorLayout.get_congr fun i hi => h _ (by omega) (by rw [size_majorLayout] at hi; omega)

/-- A major that has just been set up. -/
theorem Stored.fresh {a n st : ℕ} (h : majorLayout.get m a = ⟨0, 0, st, n, sizeofMajor, 0⟩)
    (hst : st * pageSize = n) (hn : 24 ≤ n) : Stored m ⟨a, n, []⟩ where
  size := by rw [h]
  pages := by rw [h, hst]
  usage := by
    rw [h]
    rfl
  first := by
    rw [h]
    rfl
  chain := trivial
  inOrder := by
    change a + sizeofMajor ≤ a + n
    rw [sizeofMajor]
    omega
  holds c hc := by cases hc

/-- The links of a major are not part of what it holds. -/
theorem Stored.relink (hs : Stored m B) (hM : majorLayout.Fits M)
    (hsize : M.size = (majorLayout.get m B.addr).size)
    (hpages : M.pages = (majorLayout.get m B.addr).pages)
    (husage : M.usage = (majorLayout.get m B.addr).usage)
    (hfirst : M.first = (majorLayout.get m B.addr).first) :
    Stored (majorLayout.put m B.addr M) B := by
  have hminor : ∀ c ∈ B.minors,
      minorLayout.get (majorLayout.put m B.addr M) c.addr = minorLayout.get m c.addr := fun c hc =>
    majorLayout.get_put_clear minorLayout (.inl (hs.inOrder.bounds hc).1)
  refine ⟨?_, ?_, ?_, ?_, hs.chain.congr (fun x hx => ?_) fun x hx => ?_, hs.inOrder,
    fun c hc => ?_⟩
  · rw [majorLayout.get_put m B.addr hM, hsize]
    exact hs.size
  · rw [majorLayout.get_put m B.addr hM, hpages]
    exact hs.pages
  · rw [majorLayout.get_put m B.addr hM, husage]
    exact hs.usage
  · rw [majorLayout.get_put m B.addr hM, hfirst]
    exact hs.first
  · obtain ⟨c, hc, rfl⟩ := List.mem_map.mp hx
    rw [nextMinor, nextMinor, hminor c hc]
  · obtain ⟨c, hc, rfl⟩ := List.mem_map.mp hx
    rw [prevMinor, prevMinor, hminor c hc]
  · have hh := hs.holds c hc
    have heq := hminor c hc
    refine ⟨heq ▸ hh.block, heq ▸ hh.magic, heq ▸ hh.size, heq ▸ hh.reqSize, hh.fits, ?_⟩
    rw [majorLayout.read_put_clear, hh.tag]
    have := (hs.inOrder.bounds hc).1
    have := c.ptr_bounds
    left
    rw [size_majorLayout, ALIGN_INFO]
    omega

end Links

namespace Majors
variable {m m' : Bytes} {G G₁ G₂ : List MajorBlock} {B B' : MajorBlock}

theorem inside (hr : Majors m G) (hB : B ∈ G) : 0 < B.addr ∧ B.addr + B.size ≤ 2 ^ 32 :=
  hr.live.inside _ (List.mem_map_of_mem hB)

theorem apart (hr : Majors m G) (hB : B ∈ G) (hB' : B' ∈ G) (hne : B.addr ≠ B'.addr) :
    Clear B.addr B.size B'.addr B'.size :=
  hr.live.apart_of_ne (List.mem_map_of_mem hB) (List.mem_map_of_mem hB') fun he =>
    hne (congrArg Prod.fst he)

theorem le_size (hr : Majors m G) (hB : B ∈ G) : 24 ≤ B.size := (hr.stored B hB).inOrder.le_size

theorem nodup (hr : Majors m G) : (G.map MajorBlock.addr).Nodup := by
  have hpair : G.Pairwise fun B B' => B.extent.Apart B'.extent := List.pairwise_map.mp hr.live.apart
  refine List.pairwise_map.mpr (hpair.imp_of_mem fun {B B'} hB hB' hap heq => ?_)
  have h₁ := hr.le_size hB
  have h₂ := hr.le_size hB'
  unfold Block.Apart MajorBlock.extent at hap
  dsimp only at hap
  omega

theorem addr_inj (hr : Majors m G) (hB : B ∈ G) (hB' : B' ∈ G) (he : B.addr = B'.addr) :
    B = B' := List.inj_on_of_nodup_map hr.nodup hB hB' he

/-- A major other than the one that is edited. -/
theorem stored_other (hr : Majors m G) (hB : B ∈ G) (hB' : B' ∈ G) (hne : B.addr ≠ B'.addr)
    (hout : ∀ b, b < B.addr ∨ B.addr + B.size ≤ b → m' b = m b) : Stored m' B' := by
  have hap := hr.apart hB hB' hne
  unfold Clear at hap
  exact (hr.stored B' hB').frame fun b _ _ => hout b (by omega)

theorem major_other (hr : Majors m G) (hB : B ∈ G) (hB' : B' ∈ G) (hne : B.addr ≠ B'.addr)
    (hout : ∀ b, b < B.addr ∨ B.addr + B.size ≤ b → m' b = m b) :
    majorLayout.get m' B'.addr = majorLayout.get m B'.addr := by
  have hap := hr.apart hB hB' hne
  unfold Clear at hap
  exact (hr.stored B' hB').major_frame fun b _ _ => hout b (by omega)

theorem addr_ne (hr : Majors m (G₁ ++ B :: G₂)) {A : MajorBlock} (hA : A ∈ G₁ ++ G₂) :
    B.addr ≠ A.addr := by
  have hnodup := hr.nodup
  rw [List.map_append, List.map_cons, List.nodup_middle, List.nodup_cons,
    ← List.map_append] at hnodup
  exact fun he => hnodup.1 (he ▸ List.mem_map_of_mem hA)

/-- The data of a minor is apart from the headers of the majors. -/
theorem data_clear (hr : Majors m G) (hB : B ∈ G) (hB' : B' ∈ G) {c : Cell} (hc : c ∈ B.minors)
    {b : ℕ} (hb : c.ptr ≤ b) (hlt : b < c.addr + c.len) :
    B.addr ≤ b ∧ b < B.addr + B.size ∧ (b < B'.addr ∨ B'.addr + 24 ≤ b) := by
  have hcb := (hr.stored B hB).inOrder.bounds hc
  have hptr := c.ptr_bounds
  have hlen : c.len = 24 + c.size := rfl
  refine ⟨by omega, by omega, ?_⟩
  by_cases he : B.addr = B'.addr
  · omega
  · have hap := hr.apart hB hB' he
    have hmin := hr.le_size hB'
    unfold Clear at hap
    omega

/-- The links of one major are changed. -/
theorem modify {h : Heap} (hr : Majors h.memory G) (hB : B ∈ G) {φ : Major → Major}
    (hφ : ∀ M, (φ M).size = M.size ∧ (φ M).pages = M.pages ∧ (φ M).usage = M.usage ∧
      (φ M).first = M.first)
    (hfits : majorLayout.Fits (φ (majorLayout.get h.memory B.addr))) :
    ∃ m', h.modifyMajor B.addr φ = { h with memory := m' } ∧ Majors m' G ∧
      (∀ A ∈ G, majorLayout.get m' A.addr = if A.addr = B.addr
        then φ (majorLayout.get h.memory A.addr) else majorLayout.get h.memory A.addr) ∧
      ∀ b, b < B.addr ∨ B.addr + 24 ≤ b → m' b = h.memory b := by
  have hmin := hr.le_size hB
  have hout : ∀ b, b < B.addr ∨ B.addr + B.size ≤ b →
      majorLayout.put h.memory B.addr (φ (majorLayout.get h.memory B.addr)) b = h.memory b :=
    fun b hb => majorLayout.put_apart h.memory _ (by rw [size_majorLayout]; omega)
  obtain ⟨h₁, h₂, h₃, h₄⟩ := hφ (majorLayout.get h.memory B.addr)
  refine ⟨_, rfl, ⟨fun A hA => ?_, hr.live⟩, fun A hA => ?_,
    fun b hb => majorLayout.put_apart h.memory _ hb⟩
  · by_cases he : B.addr = A.addr
    · cases hr.addr_inj hB hA he
      exact (hr.stored B hB).relink hfits h₁ h₂ h₃ h₄
    · exact hr.stored_other hB hA he hout
  · split_ifs with he
    · rw [he]
      exact majorLayout.get_put h.memory B.addr hfits
    · exact hr.major_other hB hA (Ne.symm he) hout

end Majors

namespace Represents
variable {h h' : Heap} {G G₁ G₂ : List MajorBlock} {B B' : MajorBlock} {m' : Bytes}

/-- One major is edited in place. -/
theorem edit (hr : Represents h (G₁ ++ B :: G₂)) {minors : List Cell} {δ : ℤ}
    (hs : Stored m' { B with minors := minors }) (he : Edits h.memory m' B.addr B.size)
    (hδ : (MajorBlock.inuse { B with minors := minors } : ℤ) = B.inuse + δ) :
    Represents { h with memory := m', inuse := h.inuse + δ }
      (G₁ ++ { B with minors := minors } :: G₂) := by
  have hB : B ∈ G₁ ++ B :: G₂ := by simp
  have hadr : ∀ f : MajorBlock → ℕ, f { B with minors := minors } = f B →
      (G₁ ++ { B with minors := minors } :: G₂).map f = (G₁ ++ B :: G₂).map f := fun f hf => by
    simp [hf]
  have hext : (G₁ ++ { B with minors := minors } :: G₂).map MajorBlock.extent =
      (G₁ ++ B :: G₂).map MajorBlock.extent := by simp [MajorBlock.extent]
  have hlink : ∀ x ∈ (G₁ ++ B :: G₂).map MajorBlock.addr,
      nextMajor m' x = nextMajor h.memory x ∧ prevMajor m' x = prevMajor h.memory x := by
    intro x hx
    obtain ⟨A, hA, rfl⟩ := List.mem_map.mp hx
    by_cases hAB : B.addr = A.addr
    · rw [nextMajor, prevMajor, ← hAB, he.next, he.prev]
      exact ⟨rfl, rfl⟩
    · rw [nextMajor, prevMajor, hr.major_other hB hA hAB he.outside]
      exact ⟨rfl, rfl⟩
  refine ⟨⟨fun A hA => ?_, ?_⟩, ?_, ?_, ?_, ?_, ?_, ?_⟩
  · have hA' : A = { B with minors := minors } ∨ A ∈ G₁ ++ G₂ := by
      simp only [List.mem_append, List.mem_cons] at hA ⊢
      tauto
    rcases hA' with rfl | hA'
    · exact hs
    · refine hr.stored_other hB ?_ (hr.addr_ne hA') he.outside
      simp only [List.mem_append, List.mem_cons] at hA' ⊢
      tauto
  · rw [hext]
    exact hr.live
  · rw [hadr _ rfl]
    exact hr.root
  · rw [hadr _ rfl]
    exact hr.chain.congr (fun x hx => (hlink x hx).1) fun x hx => (hlink x hx).2
  · rw [hext]
    exact hr.pages
  · rw [hadr _ rfl]
    exact hr.allocated
  · have := hr.inuse
    simp only [List.map_append, List.map_cons, List.sum_append, List.sum_cons] at this ⊢
    push_cast at this ⊢
    rw [hδ]
    omega
  · rw [hadr _ rfl]
    exact hr.best

/-- The best bet may be any major. -/
theorem bet (hr : Represents h G) (hB : B ∈ G) : Represents { h with bestBet := B.addr } G :=
  ⟨hr.toMajors, hr.root, hr.chain, hr.pages, hr.allocated, hr.inuse,
    .inr (List.mem_map_of_mem hB)⟩

theorem room_eq (hr : Represents h G) (hB : B ∈ G) :
    sub32 (h.major B.addr).size (h.major B.addr).usage = B.size - B.usage := by
  have hin := hr.inside hB
  have hs := hr.stored B hB
  rw [show (h.major B.addr).size = B.size from hs.size,
    show (h.major B.addr).usage = B.usage from hs.usage]
  exact sub32_of_le (by omega) hs.inOrder.usage_le

theorem next_eq (hr : Represents h (G₁ ++ B :: G₂)) :
    (h.major B.addr).next = ((G₂.map MajorBlock.addr).head?).getD 0 := by
  have hchain := hr.chain
  rw [List.map_append, List.map_cons] at hchain
  rw [← Option.or_none (o := (G₂.map MajorBlock.addr).head?)]
  exact eq_getD_of_pointer hchain.at_mid.2

theorem prev_eq (hr : Represents h (G₁ ++ B :: G₂)) :
    (h.major B.addr).prev = ((G₁.map MajorBlock.addr).getLast?).getD 0 := by
  have hchain := hr.chain
  rw [List.map_append, List.map_cons] at hchain
  rw [← Option.or_none (o := (G₁.map MajorBlock.addr).getLast?)]
  exact eq_getD_of_pointer hchain.at_mid.1

end Represents

/-- `liballoc_alloc` answers with `NULL` or with pages that nobody uses. -/
def PageGrants (liballocAlloc : List Block → ℕ → Option ℕ) : Prop :=
  ∀ blocks pages a, liballocAlloc blocks pages = some a →
    Block.Inside (2 ^ 32) (a, pages * pageSize) ∧
      ∀ b ∈ blocks, Block.Apart (a, pages * pageSize) b

/-- The pages that `allocate_new_page` asks for. -/
def pagesFor (size : ℕ) : ℕ :=
  let st := add32 (add32 size sizeofMajor) sizeofMinor
  let st := if st % pageSize = 0 then st / pageSize else st / pageSize + 1
  if st < pageCount then pageCount else st

theorem pagesFor_ge (size : ℕ) : pageCount ≤ pagesFor size := by
  unfold pagesFor
  dsimp only
  split_ifs <;> omega

theorem pages_enough {size : ℕ} (hsize : size + 48 < 2 ^ 32) :
    24 + (24 + size) ≤ pagesFor size * pageSize := by
  have hadd : add32 (add32 size sizeofMajor) sizeofMinor = size + 48 := by
    rw [add32_of_lt (a := size) (by rw [sizeofMajor]; omega),
      add32_of_lt (by rw [sizeofMajor, sizeofMinor]; omega)]
    rfl
  unfold pagesFor
  dsimp only
  rw [hadd]
  split_ifs with h₀ h₁ h₁ <;> simp only [pageSize, pageCount] at * <;> omega

/-- `liballoc_alloc` was asked and had nothing. -/
structure Refused (liballocAlloc : List Block → ℕ → Option ℕ) (h h' : Heap) (size : ℕ) : Prop where
  answer : liballocAlloc h.pages (pagesFor size) = none
  memory : h'.memory = h.memory
  pages : h'.pages = h.pages
  warnings : h'.warningCount = h.warningCount + 1

/-- `liballoc_alloc` was asked and gave the pages of the new major `N`. -/
structure Granted (liballocAlloc : List Block → ℕ → Option ℕ) (h h' : Heap) (size : ℕ)
    (N : MajorBlock) : Prop where
  answer : liballocAlloc h.pages (pagesFor size) = some N.addr
  size_eq : N.size = pagesFor size * pageSize
  minors : N.minors = []
  pages : h'.pages = N.extent :: h.pages
  warnings : h'.warningCount = h.warningCount

section NewPage
variable {liballocAlloc : List Block → ℕ → Option ℕ} {h : Heap} {G : List MajorBlock}

theorem Granted.room {h' : Heap} {N : MajorBlock} {size : ℕ}
    (hn : Granted liballocAlloc h h' size N)
    (hsize : size + 48 < 2 ^ 32) : 24 + (24 + size) ≤ N.size :=
  hn.size_eq ▸ pages_enough hsize

theorem allocateNewPage_cases (hg : PageGrants liballocAlloc) (hr : Majors h.memory G)
    (hp : h.pages.Perm (G.map MajorBlock.extent)) (size : ℕ) :
    liballocAlloc h.pages (pagesFor size) = none ∧
      allocateNewPage liballocAlloc h size = ({ h with warningCount := h.warningCount + 1 }, 0) ∨
    ∃ (a n : ℕ) (m' : Bytes), liballocAlloc h.pages (pagesFor size) = some a ∧
      allocateNewPage liballocAlloc h size = ({ h with
          memory := m', allocated := h.allocated + n, pages := (a, n) :: h.pages }, a) ∧
      n = pagesFor size * pageSize ∧ Majors m' (G ++ [⟨a, n, []⟩]) ∧
      (majorLayout.get m' a).prev = 0 ∧ (majorLayout.get m' a).next = 0 ∧
      (∀ A ∈ G, majorLayout.get m' A.addr = majorLayout.get h.memory A.addr) ∧
      ∀ A ∈ G, ∀ b, A.addr ≤ b → b < A.addr + A.size → m' b = h.memory b := by
  have hmin := pagesFor_ge size
  generalize hst : pagesFor size = st at hmin ⊢
  unfold pagesFor at hst
  unfold allocateNewPage
  dsimp only at hst ⊢
  rw [hst]
  cases hx : liballocAlloc h.pages st with
  | none => exact .inl ⟨rfl, rfl⟩
  | some a =>
    right
    obtain ⟨hin, hap⟩ := hg _ _ _ hx
    have hlt : st * pageSize < 2 ^ 32 := by
      have := hin.1
      have := hin.2
      dsimp only at *
      omega
    have hlarge : 24 ≤ st * pageSize := by
      rw [pageCount] at hmin
      rw [pageSize]
      omega
    rw [Nat.mod_eq_of_lt hlt]
    have hfits : majorLayout.Fits ⟨0, 0, st, st * pageSize, sizeofMajor, 0⟩ := by
      rw [fits_major]
      dsimp only
      rw [sizeofMajor]
      rw [pageSize] at hlt ⊢
      omega
    have hget : majorLayout.get (h.setMajor a ⟨0, 0, st, st * pageSize, sizeofMajor, 0⟩).memory a =
        ⟨0, 0, st, st * pageSize, sizeofMajor, 0⟩ := majorLayout.get_put h.memory a hfits
    have hclear : ∀ A ∈ G, ∀ b, A.addr ≤ b → b < A.addr + A.size →
        majorLayout.put h.memory a ⟨0, 0, st, st * pageSize, sizeofMajor, 0⟩ b = h.memory b := by
      intro A hA b hb hlt
      have := hap _ (hp.mem_iff.mpr (List.mem_map_of_mem hA))
      unfold Block.Apart MajorBlock.extent at this
      dsimp only at this
      exact majorLayout.put_apart _ _ (by rw [size_majorLayout]; omega)
    refine ⟨a, st * pageSize, _, rfl, rfl, rfl, ⟨fun A hA => ?_, ?_⟩, by rw [hget], by rw [hget],
      fun A hA => (hr.stored A hA).major_frame (hclear A hA), hclear⟩
    · rcases List.mem_append.mp hA with hA | hA
      · exact (hr.stored A hA).frame (hclear A hA)
      · obtain rfl := List.mem_singleton.mp hA
        exact Stored.fresh hget rfl hlarge
    · rw [List.map_append]
      refine ⟨fun b hb => ?_, List.pairwise_append.mpr
        ⟨hr.live.apart, by simp, fun b hb c hc => ?_⟩⟩
      · rcases List.mem_append.mp hb with hb | hb
        · exact hr.live.inside b hb
        · obtain rfl := List.mem_singleton.mp hb
          exact hin
      · obtain rfl := List.mem_singleton.mp hc
        exact (hap b (hp.mem_iff.mpr hb)).symm

theorem fits_next (m : Bytes) (a : ℕ) {v : ℕ} (hv : v < 2 ^ 32) :
    majorLayout.Fits { majorLayout.get m a with next := v } := by
  have := majorLayout.fits_get m a
  rw [fits_major] at this ⊢
  exact ⟨this.1, hv, this.2.2⟩

theorem fits_prev (m : Bytes) (a : ℕ) {v : ℕ} (hv : v < 2 ^ 32) :
    majorLayout.Fits { majorLayout.get m a with prev := v } := by
  have := majorLayout.fits_get m a
  rw [fits_major] at this ⊢
  exact ⟨hv, this.2⟩

/-- A major that `liballoc_alloc` answers is linked in behind the last one. -/
theorem Represents.append (hg : PageGrants liballocAlloc) {B : MajorBlock}
    (hr : Represents h (G ++ [B])) (size : ℕ) :
    ∃ h', SameData h.memory h'.memory (cells (G ++ [B])) ∧
      (appendMajor liballocAlloc h B.addr size = (h', 0) ∧ Refused liballocAlloc h h' size ∧
          Represents h' (G ++ [B]) ∨
        ∃ N, appendMajor liballocAlloc h B.addr size = (h', N.addr) ∧
          Granted liballocAlloc h h' size N ∧ Represents h' (G ++ [B] ++ [N])) := by
  have hB : B ∈ G ++ [B] := by simp
  have hnext : (majorLayout.get h.memory B.addr).next = 0 := @Represents.next_eq _ _ [] _ hr
  unfold appendMajor
  rcases allocateNewPage_cases hg hr.toMajors hr.pages size with
    ⟨hask, he⟩ | ⟨a, n, m', hask, he, hn, hm, h₀, h₁, hsame, hkept⟩
  · have hsame : ({ h with warningCount := h.warningCount + 1 } : Heap).modifyMajor B.addr
        (fun M => { M with next := 0 }) = { h with warningCount := h.warningCount + 1 } := by
      have hM : ({ majorLayout.get h.memory B.addr with next := 0 } : Major) =
          majorLayout.get h.memory B.addr := by
        rw [← hnext]
      unfold Heap.modifyMajor Heap.setMajor Heap.major
      dsimp only
      rw [hM, majorLayout.put_get]
    rw [he]
    dsimp only
    rw [hsame, if_pos rfl]
    exact ⟨{ h with warningCount := h.warningCount + 1 }, .refl _ _, .inl ⟨rfl,
      ⟨hask, rfl, rfl, rfl⟩, hr.toMajors, hr.root, hr.chain, hr.pages, hr.allocated, hr.inuse,
      hr.best⟩⟩
  · have hBN : B ∈ G ++ [B] ++ [(⟨a, n, []⟩ : MajorBlock)] := by simp
    have hNN : (⟨a, n, []⟩ : MajorBlock) ∈ G ++ [B] ++ [(⟨a, n, []⟩ : MajorBlock)] := by simp
    have hapos : 0 < a := (hm.inside hNN).1
    have hne : ∀ A ∈ G ++ [B], a ≠ A.addr := fun A hA =>
      @Majors.addr_ne _ _ [] ⟨a, n, []⟩ hm A (by simpa using hA)
    have hB32 : B.addr < 2 ^ 32 := by
      have := hr.inside hB
      have := hr.le_size hB
      omega
    have ha32 : a < 2 ^ 32 := by
      have hmin := hm.le_size hNN
      have hin := (hm.inside hNN).2
      dsimp only at hmin hin
      omega
    obtain ⟨m₁, he₁, hm₁, hget₁, hfar₁⟩ := Majors.modify (h := { h with
        memory := m', allocated := h.allocated + n, pages := (a, n) :: h.pages }) hm hBN
      (φ := fun M => { M with next := a }) (fun _ => ⟨rfl, rfl, rfl, rfl⟩) (fits_next _ _ ha32)
    obtain ⟨m₂, he₂, hm₂, hget₂, hfar₂⟩ := Majors.modify (h := { h with
        memory := m₁, allocated := h.allocated + n, pages := (a, n) :: h.pages }) hm₁ hNN
      (φ := fun M => { M with prev := B.addr }) (fun _ => ⟨rfl, rfl, rfl, rfl⟩)
      (fits_prev _ _ hB32)
    have hold : ∀ A ∈ G ++ [B], majorLayout.get m₂ A.addr =
        if A.addr = B.addr then { majorLayout.get h.memory A.addr with next := a }
        else majorLayout.get h.memory A.addr := fun A hA => by
      have hA' : A ∈ G ++ [B] ++ [(⟨a, n, []⟩ : MajorBlock)] := List.mem_append_left _ hA
      rw [hget₂ A hA', if_neg (hne A hA).symm, hget₁ A hA', hsame A hA]
    rw [he]
    dsimp only at he₂ ⊢
    have hdata : SameData h.memory m₂ (cells (G ++ [B])) := by
      intro c hc b hb hlt
      obtain ⟨A, hA, hcA⟩ := mem_cells.mp hc
      have hA' : A ∈ G ++ [B] ++ [(⟨a, n, []⟩ : MajorBlock)] := List.mem_append_left _ hA
      obtain ⟨hb₀, hb₁, hb₂⟩ := hm.data_clear hA' hBN hcA hb hlt
      have hb₃ := (hm.data_clear hA' hNN hcA hb hlt).2.2
      exact (hfar₂ b hb₃).trans ((hfar₁ b hb₂).trans (hkept A hA b hb₀ hb₁))
    rw [he₁, if_neg hapos.ne', he₂]
    refine ⟨_, hdata, .inr ⟨⟨a, n, []⟩, rfl, ⟨hask, hn, rfl, rfl, rfl⟩, hm₂, ?_, ?_, ?_,
      ?_, ?_, ?_⟩⟩
    · rw [List.map_append, List.head?_append, ← hr.root]
      cases hroot : pointer h.memRoot with
      | none =>
        have := hr.root
        rw [hroot] at this
        simp at this
      | some x => rfl
    · rw [List.map_append, List.map_singleton]
      have hchain := hr.chain
      have hnodup := hr.nodup
      rw [← List.append_nil (List.map _ _)] at hchain hnodup
      refine hchain.link hnodup ?_ ?_ (fun x hx => ?_) fun x hx => ?_
      · rw [nextMajor, hget₂ _ hNN, if_pos rfl, hget₁ _ hNN, if_neg (hne B hB), h₁]
        rfl
      · rw [prevMajor, hget₂ _ hNN, if_pos rfl]
        refine (pointer_of_pos (hr.inside hB).1).trans ?_
        simp
      · rw [List.append_nil] at hx
        obtain ⟨A, hA, rfl⟩ := List.mem_map.mp hx
        have hlast : ((G ++ [B]).map MajorBlock.addr).getLast? = some B.addr := by simp
        rw [nextMajor, hold A hA, hlast]
        by_cases hAB : A.addr = B.addr
        · rw [if_pos hAB, if_pos (by rw [hAB])]
          exact pointer_of_pos hapos
        · rw [if_neg hAB, if_neg fun hAB' => hAB (Option.some.inj hAB').symm]
          rfl
      · rw [List.append_nil] at hx
        obtain ⟨A, hA, rfl⟩ := List.mem_map.mp hx
        have hnone : ¬ ([] : List ℕ).head? = some A.addr := nofun
        rw [prevMajor, hold A hA, if_neg hnone]
        split_ifs <;> rfl
    · refine (hr.pages.cons (a, n)).trans ?_
      have happ : (G ++ [B] ++ [(⟨a, n, []⟩ : MajorBlock)]).map MajorBlock.extent =
          (G ++ [B]).map MajorBlock.extent ++ [(a, n)] := List.map_append
      rw [happ]
      exact (List.perm_append_singleton _ _).symm
    · rw [List.map_append, List.sum_append, Nat.cast_add, ← hr.allocated]
      simp
    · rw [List.map_append, List.sum_append, Nat.cast_add, ← hr.inuse]
      simp [MajorBlock.inuse]
    · exact hr.best.imp_right fun hbest => by
        rw [List.map_append]
        exact List.mem_append_left _ hbest

end NewPage
end Racoon.Liballoc
