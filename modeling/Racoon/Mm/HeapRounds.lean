import Racoon.Mm.HeapMajors

/-!
# A round of the search

A round over a major fills its first gap that is large enough, or goes on. The
size may be one that wraps with its header: `w` is what the code compares with
the gaps, and only `Represents.fill` needs room for the header as well.
-/

namespace Racoon.Liballoc
open Lib

/-- There are `n` bytes in a row that no minor reaches into. -/
def MajorBlock.HasGap (B : MajorBlock) (n : ℕ) : Prop :=
  ∃ a, B.addr + sizeofMajor ≤ a ∧ a + n ≤ B.addr + B.size ∧ ∀ c ∈ B.minors, Clear a n c.addr c.len

/-- `liballoc_alloc` was not asked. -/
structure Unasked (h h' : Heap) : Prop where
  pages : h'.pages = h.pages
  warnings : h'.warningCount = h.warningCount

/-- A new minor among those of the majors is handed out. -/
def Served (h' : Heap) (G : List MajorBlock) (size reqSize p : ℕ) : Prop :=
  ∃ G' c, Represents h' G' ∧ (cells G').Perm (c :: cells G) ∧ c.size = size ∧
    c.reqSize = reqSize ∧ c.ptr = p

theorem Served.ne_zero {h' : Heap} {G : List MajorBlock} {size reqSize p : ℕ}
    (hs : Served h' G size reqSize p) : p ≠ 0 := by
  obtain ⟨-, c, -, -, -, -, rfl⟩ := hs
  have := c.ptr_bounds
  omega

/-- How the loop remembers the major with the most room. -/
def Heap.consider (h : Heap) (maj bestSize diff : ℕ) : Heap :=
  if bestSize < diff then { h with bestBet := maj } else h

/-- What follows a round. -/
def Turn.resume (search : Heap → ℕ → Bool → Outcome (Heap × ℕ)) : Turn → Outcome (Heap × ℕ)
  | .answer h p => .ok (h, p)
  | .hop h maj startedBet => search h maj startedBet

/-- The majors that follow a round. -/
def walkOn (walk : Heap → ℕ → Bool → List ℕ) : Outcome Turn → List ℕ
  | .ok (.hop h maj startedBet) => walk h maj startedBet
  | _ => []

section Loop
variable (liballocAlloc : List Block → ℕ → Option ℕ) (size reqSize : ℕ)

theorem searchMajors_succ {h : Heap} {maj diff : ℕ} (hmaj : maj ≠ 0)
    (hdiff : sub32 (h.major maj).size (h.major maj).usage = diff) (rounds : ℕ) (startedBet : Bool)
    (bestSize : ℕ) :
    searchMajors liballocAlloc size reqSize (rounds + 1) h maj startedBet bestSize =
      examine liballocAlloc size reqSize (h.consider maj bestSize diff) maj startedBet diff >>=
        Turn.resume fun h maj startedBet => searchMajors liballocAlloc size reqSize rounds h maj
          startedBet (if bestSize < diff then diff else bestSize) := by
  rw [searchMajors, if_neg hmaj]
  dsimp only
  rw [hdiff]
  refine congrArg (_ >>= ·) (funext fun turn => ?_)
  cases turn with
  | hop h maj startedBet => rfl
  | answer h p => rfl

/-- The majors that the rounds of the loop start from. -/
def examined : ℕ → Heap → ℕ → Bool → ℕ → List ℕ
  | 0, _, _, _, _ => []
  | rounds + 1, h, maj, startedBet, bestSize =>
    if maj = 0 then []
    else
      let diff := sub32 (h.major maj).size (h.major maj).usage
      let h := h.consider maj bestSize diff
      let bestSize := if bestSize < diff then diff else bestSize
      maj :: walkOn (fun h maj startedBet => examined rounds h maj startedBet bestSize)
        (examine liballocAlloc size reqSize h maj startedBet diff)

/-- The major, `startedBet` and `bestSize` that the search begins with. -/
def searchStart (h : Heap) : ℕ × Bool × ℕ :=
  let best := h.major h.bestBet
  let bestSize := if h.bestBet ≠ 0 then sub32 best.size best.usage else 0
  let startedBet := h.bestBet ≠ 0 ∧ add32 size sizeofMinor < bestSize
  (if startedBet then h.bestBet else h.memRoot, startedBet, bestSize)

theorem search_eq (h : Heap) : search liballocAlloc size reqSize h =
    searchMajors liballocAlloc size reqSize (2 * h.pages.length + 2) h (searchStart size h).1
      (searchStart size h).2.1 (searchStart size h).2.2 := rfl

def examinedFrom (h : Heap) : List ℕ :=
  examined liballocAlloc size reqSize (2 * h.pages.length + 2) h (searchStart size h).1
    (searchStart size h).2.1 (searchStart size h).2.2

variable {liballocAlloc size reqSize} in
/-- The loop makes a round for each major examined: with fewer it would still be going, and with one
more, in which it ends, it comes to the same as with all. -/
theorem searchMajors_rounds {rounds n : ℕ} {h : Heap} {maj : ℕ} {startedBet : Bool}
    {bestSize : ℕ} :
    (n < (examined liballocAlloc size reqSize rounds h maj startedBet bestSize).length →
      searchMajors liballocAlloc size reqSize n h maj startedBet bestSize = .error .diverges) ∧
    ((examined liballocAlloc size reqSize rounds h maj startedBet bestSize).length < n →
      n ≤ rounds → searchMajors liballocAlloc size reqSize n h maj startedBet bestSize =
        searchMajors liballocAlloc size reqSize rounds h maj startedBet bestSize) := by
  induction rounds generalizing n h maj startedBet bestSize with
  | zero => exact ⟨fun hn => by simp [examined] at hn, fun hn hle => by omega⟩
  | succ rounds ih =>
    cases n with
    | zero => exact ⟨fun _ => rfl, fun hn => by omega⟩
    | succ n =>
      by_cases hmaj : maj = 0
      · rw [examined, if_pos hmaj]
        exact ⟨fun hn => by simp at hn, fun _ _ => by
          rw [searchMajors, searchMajors, if_pos hmaj, if_pos hmaj]⟩
      · rw [examined, if_neg hmaj]
        dsimp only
        rw [searchMajors_succ liballocAlloc size reqSize hmaj rfl,
          searchMajors_succ liballocAlloc size reqSize hmaj rfl, List.length_cons,
          Nat.add_lt_add_iff_right, Nat.add_lt_add_iff_right, Nat.add_le_add_iff_right]
        -- only a hop goes on with the loop
        cases examine liballocAlloc size reqSize _ maj startedBet _ with
        | error e => exact ⟨fun hn => by simp [walkOn] at hn, fun _ _ => rfl⟩
        | ok turn =>
          cases turn with
          | answer h p => exact ⟨fun hn => by simp [walkOn] at hn, fun _ _ => rfl⟩
          | hop h maj startedBet => exact ih

theorem search_rounds (h : Heap) :
    (∀ n < (examinedFrom liballocAlloc size reqSize h).length,
      searchMajors liballocAlloc size reqSize n h (searchStart size h).1 (searchStart size h).2.1
        (searchStart size h).2.2 = .error .diverges) ∧
    ∀ n, (examinedFrom liballocAlloc size reqSize h).length < n → n ≤ 2 * h.pages.length + 2 →
      searchMajors liballocAlloc size reqSize n h (searchStart size h).1 (searchStart size h).2.1
        (searchStart size h).2.2 = search liballocAlloc size reqSize h :=
  ⟨fun _ => searchMajors_rounds.1, fun _ => searchMajors_rounds.2⟩

/-- The majors that `la_malloc` looks at, in their order. -/
def majorsExamined (h : Heap) : List ℕ :=
  if h.memRoot = 0 then
    let (h, root) := allocateNewPage liballocAlloc h size
    if root = 0 then [] else examinedFrom liballocAlloc size reqSize { h with memRoot := root }
  else examinedFrom liballocAlloc size reqSize h

end Loop

/-- The heap `h'` has the pages of `h` and others that `liballoc_alloc` has granted. -/
structure Grown (h h' : Heap) : Prop where
  suffix : h.pages <:+ h'.pages
  granted : ∀ b ∈ h'.pages, b ∈ h.pages ∨ Block.Inside (2 ^ 32) b ∧ b.2 % pageSize = 0

namespace Grown
variable {h h' h'' : Heap}

theorem of_pages (he : h'.pages = h.pages) : Grown h h' :=
  ⟨he ▸ List.suffix_rfl, fun _ hb => .inl (he ▸ hb)⟩

theorem refl (h : Heap) : Grown h h := .of_pages rfl

theorem trans (hh : Grown h h') (hh' : Grown h' h'') : Grown h h'' :=
  ⟨hh.suffix.trans hh'.suffix, fun b hb => (hh'.granted b hb).elim (hh.granted b) .inr⟩

end Grown

theorem placeMinor_pages (h : Heap) (maj prev next min size reqSize : ℕ) :
    (placeMinor h maj prev next min size reqSize).1.pages = h.pages := by
  have hmajor : ∀ (h : Heap) (a : ℕ) (f : Major → Major), (h.modifyMajor a f).pages = h.pages :=
    fun _ _ _ => rfl
  have hminor : ∀ (h : Heap) (a : ℕ) (f : Minor → Minor), (h.modifyMinor a f).pages = h.pages :=
    fun _ _ _ => rfl
  have hset : ∀ (h : Heap) (a : ℕ) (m : Minor), (h.setMinor a m).pages = h.pages :=
    fun _ _ _ => rfl
  unfold placeMinor
  dsimp only
  rw [hmajor]
  split_ifs <;> simp only [hmajor, hminor, hset]

theorem place_pages {h h' : Heap} {maj size reqSize p : ℕ}
    (he : place h maj size reqSize = .ok (some (h', p))) : h'.pages = h.pages := by
  have hput : ∀ prev next min, .ok (some (placeMinor h maj prev next min size reqSize)) =
      (.ok (some (h', p)) : Outcome _) → h'.pages = h.pages := fun prev next min heq => by
    rw [← placeMinor_pages h maj prev next min size reqSize,
      Option.some.inj (Except.ok.inj heq)]
  unfold place at he
  dsimp only at he
  split_ifs at he
  · exact hput _ _ _ he
  · exact hput _ _ _ he
  · obtain ⟨found, -, he⟩ := bind_eq_ok.mp he
    cases found with
    | none => cases he
    | some min => exact hput _ _ _ he

/-- The heap after a round. -/
def Turn.heap : Turn → Heap
  | .hop h _ _ => h
  | .answer h _ => h

namespace PageGrants
variable {liballocAlloc : List Block → ℕ → Option ℕ} {size reqSize : ℕ}

theorem allocateNewPage (hg : PageGrants liballocAlloc) (h : Heap) (size : ℕ) :
    Grown h (allocateNewPage liballocAlloc h size).1 := by
  unfold Liballoc.allocateNewPage
  dsimp only
  split
  · exact .of_pages rfl
  · next maj hmaj =>
    refine ⟨List.suffix_cons _ _, fun b hb => ?_⟩
    rcases List.mem_cons.mp hb with rfl | hb
    · exact .inr ⟨(hg _ _ _ hmaj).1, Nat.mul_mod_left _ _⟩
    · exact .inl hb

theorem appendMajor (hg : PageGrants liballocAlloc) (h : Heap) (maj size : ℕ) :
    Grown h (appendMajor liballocAlloc h maj size).1 := by
  have hnew := hg.allocateNewPage h size
  unfold Liballoc.appendMajor
  dsimp only
  split_ifs <;> exact hnew.trans (.of_pages rfl)

theorem caseFive (hg : PageGrants liballocAlloc) (h : Heap) (maj : ℕ) (startedBet : Bool) :
    Grown h (caseFive liballocAlloc size h maj startedBet).heap := by
  have hnew := hg.appendMajor h maj size
  unfold Liballoc.caseFive
  dsimp only
  split_ifs
  · exact .refl h
  · exact hnew
  · exact hnew
  · exact .refl h

theorem placed (hg : PageGrants liballocAlloc) {h : Heap} {maj : ℕ} {startedBet : Bool}
    {turn : Turn} (he : (place h maj size reqSize >>= fun placed => match placed with
      | some (h, p) => .ok (.answer h p)
      | none => .ok (Liballoc.caseFive liballocAlloc size h maj startedBet)) = .ok turn) :
    Grown h turn.heap := by
  obtain ⟨placed, hplace, he⟩ := bind_eq_ok.mp he
  cases placed with
  | none =>
    cases he
    exact hg.caseFive h maj startedBet
  | some out =>
    cases he
    exact .of_pages (place_pages hplace)

theorem examine (hg : PageGrants liballocAlloc) {h : Heap} {maj diff : ℕ} {startedBet : Bool}
    {turn : Turn} (he : examine liballocAlloc size reqSize h maj startedBet diff = .ok turn) :
    Grown h turn.heap := by
  have hnew := hg.appendMajor h maj size
  unfold Liballoc.examine caseOne at he
  dsimp only at he
  split_ifs at he
  · cases he
    exact .refl h
  · cases he
    exact .refl h
  · cases he
    exact hnew
  · exact hnew.trans (hg.placed he)
  · exact hg.placed he

/-- What `liballoc_alloc` has handed out stays. -/
theorem searchMajors (hg : PageGrants liballocAlloc) {rounds : ℕ} :
    ∀ {h h' : Heap} {maj bestSize p : ℕ} {startedBet : Bool},
    searchMajors liballocAlloc size reqSize rounds h maj startedBet bestSize = .ok (h', p) →
    Grown h h' := by
  induction rounds with
  | zero => nofun
  | succ rounds ih =>
    intro h h' maj bestSize p startedBet he
    by_cases hmaj : maj = 0
    · rw [Liballoc.searchMajors, if_pos hmaj] at he
      cases he
      exact .refl _
    · rw [searchMajors_succ _ _ _ hmaj rfl] at he
      obtain ⟨turn, hturn, he⟩ := bind_eq_ok.mp he
      have hbet : ∀ bestSize diff, Grown h (h.consider maj bestSize diff) := fun _ _ => by
        unfold Heap.consider
        split_ifs <;> exact .of_pages rfl
      have hround := (hbet _ _).trans (hg.examine hturn)
      cases turn with
      | hop h₁ maj startedBet => exact hround.trans (ih he)
      | answer h₁ p =>
        cases he
        exact hround

theorem resume (hg : PageGrants liballocAlloc) {rounds bestSize p : ℕ} {turn : Turn} {h' : Heap}
    (he : turn.resume (fun h maj startedBet =>
      Liballoc.searchMajors liballocAlloc size reqSize rounds h maj startedBet bestSize) =
        .ok (h', p)) : Grown turn.heap h' := by
  cases turn with
  | hop h maj startedBet => exact hg.searchMajors he
  | answer h p =>
    cases he
    exact .refl _

/-- The heap after a request has the pages that it had before. -/
theorem mallocSize (hg : PageGrants liballocAlloc) {h h' : Heap} {p : ℕ}
    (he : mallocSize liballocAlloc size reqSize h = .ok (h', p)) : Grown h h' := by
  unfold Liballoc.mallocSize at he
  dsimp only at he
  have hnew := hg.allocateNewPage h size
  split_ifs at he
  · cases he
    exact hnew.trans (.of_pages rfl)
  · rw [search_eq] at he
    have hfound := hg.searchMajors he
    refine Grown.trans ?_ hfound
    exact ⟨hnew.suffix, hnew.granted⟩
  · rw [search_eq] at he
    exact hg.searchMajors he

end PageGrants

section Gaps
variable {B : MajorBlock} {w : ℕ}

theorem Gap.hasGap {l r : List Cell} {a : ℕ} (h : Gap B w l r a) : B.HasGap w := by
  refine ⟨a, h.before.le, h.behind.le, fun c hc => ?_⟩
  rw [h.minors] at hc
  rcases List.mem_append.mp hc with hc | hc
  · exact .inr (h.before.mem hc).2
  · exact .inl (h.behind.mem hc).1

theorem MajorBlock.InOrder.room (ho : B.InOrder) (hgap : B.HasGap w) : B.usage + w ≤ B.size := by
  obtain ⟨a, ha, hn, hclear⟩ := hgap
  have := Packed.sum_add_le ho ha hn hclear
  unfold MajorBlock.usage
  omega

theorem not_hasGap (h : Tight Cell.addr Cell.len w (B.addr + sizeofMajor) B.minors
    (B.addr + B.size)) : ¬ B.HasGap w := fun ⟨_, ha, hn, hclear⟩ => h.not_clear ha hn hclear

theorem hasGap_of_empty (h : B.minors = []) (hn : 24 + w ≤ B.size) : B.HasGap w := by
  refine ⟨B.addr + sizeofMajor, le_rfl, ?_, ?_⟩
  · rw [sizeofMajor]
    omega
  · rw [h]
    exact List.forall_mem_nil _

end Gaps

/-- Nothing has changed but for the best bet. -/
def Rebet (h h' : Heap) : Prop := ∃ bet, h' = { h with bestBet := bet }

namespace Rebet
variable {h h' h'' : Heap}

theorem refl (h : Heap) : Rebet h h := ⟨h.bestBet, rfl⟩

theorem trans (hb : Rebet h h') (hb' : Rebet h' h'') : Rebet h h'' := by
  obtain ⟨bet, rfl⟩ := hb
  obtain ⟨bet', rfl⟩ := hb'
  exact ⟨bet', rfl⟩

theorem unasked (hb : Rebet h h') : Unasked h h' := by
  obtain ⟨bet, rfl⟩ := hb
  exact ⟨rfl, rfl⟩

theorem memory (hb : Rebet h h') : h'.memory = h.memory := by
  obtain ⟨bet, rfl⟩ := hb
  rfl

theorem inuse (hb : Rebet h h') : h'.inuse = h.inuse := by
  obtain ⟨bet, rfl⟩ := hb
  rfl

theorem sameData (hb : Rebet h h') (cs : List Cell) : SameData h.memory h'.memory cs := by
  rw [hb.memory]
  exact .refl _ _

theorem refused {liballocAlloc : List Block → ℕ → Option ℕ} {size : ℕ} (hb : Rebet h h')
    (hr : Refused liballocAlloc h' h'' size) : Refused liballocAlloc h h'' size :=
  ⟨hb.unasked.pages ▸ hr.answer, hr.memory.trans hb.memory, hr.pages.trans hb.unasked.pages,
    hb.unasked.warnings ▸ hr.warnings⟩

end Rebet

namespace Unasked
variable {h h' h'' : Heap} {liballocAlloc : List Block → ℕ → Option ℕ} {size : ℕ}

theorem trans (hu : Unasked h h') (hu' : Unasked h' h'') : Unasked h h'' :=
  ⟨hu'.pages.trans hu.pages, hu'.warnings.trans hu.warnings⟩

theorem granted {N : MajorBlock} (hu : Unasked h h') (hn : Granted liballocAlloc h' h'' size N) :
    Granted liballocAlloc h h'' size N :=
  ⟨hu.pages ▸ hn.answer, hn.size_eq, hn.minors, hu.pages ▸ hn.pages, hn.warnings.trans hu.warnings⟩

end Unasked

/-- What `place` does with a gap. -/
def filled (h : Heap) (B : MajorBlock) (l r : List Cell) (a size reqSize : ℕ) : Heap × ℕ :=
  placeMinor h B.addr ((prevOf l).getD 0) ((nextOf r).getD 0) (a % 2 ^ 32) size reqSize

/-- A gap of one of the majors, with the heap as it is when the loop comes to it. -/
structure Spot (h : Heap) (G : List MajorBlock) (w : ℕ) (h₁ : Heap) (A : MajorBlock)
    (l r : List Cell) (a : ℕ) : Prop where
  represents : Represents h₁ G
  rebet : Rebet h h₁
  mem : A ∈ G
  gap : Gap A w l r a

/-- A search that had to ask for the major `N`. A gap of it is filled. -/
structure Extended (liballocAlloc : List Block → ℕ → Option ℕ) (h h' : Heap) (G : List MajorBlock)
    (N : MajorBlock) (size reqSize w : ℕ) (found : Outcome (Heap × ℕ)) : Prop where
  granted : Granted liballocAlloc h h' size N
  represents : Represents h' (G ++ [N])
  fills : N.HasGap w → ∃ h₁ l r a, Spot h' (G ++ [N]) w h₁ N l r a ∧
    found = .ok (filled h₁ N l r a size reqSize)
  keeps : ∀ h'' p, found = .ok (h'', p) → Grown h' h''

theorem Spot.after {h h' h₁ : Heap} {G : List MajorBlock} {A : MajorBlock} {l r : List Cell}
    {a w : ℕ} (hs : Spot h' G w h₁ A l r a) (hb : Rebet h h') : Spot h G w h₁ A l r a :=
  ⟨hs.represents, hb.trans hs.rebet, hs.mem, hs.gap⟩

namespace Represents
variable {h : Heap} {G L R : List MajorBlock} {A B : MajorBlock} {size reqSize w : ℕ}

theorem consider (hr : Represents h G) (hB : B ∈ G) (bestSize diff : ℕ) :
    Represents (h.consider B.addr bestSize diff) G ∧ Rebet h (h.consider B.addr bestSize diff) := by
  unfold Heap.consider
  split_ifs
  · exact ⟨hr.bet hB, B.addr, rfl⟩
  · exact ⟨hr, .refl h⟩

/-- A minor goes into one of the majors. -/
theorem served (hr : Represents h (L ++ B :: R)) {l r : List Cell} {c : Cell} {m' : Bytes}
    (ha : Answers h B size reqSize l r c m') :
    Served { h with memory := m', inuse := h.inuse + size } (L ++ B :: R) size reqSize c.ptr := by
  have hinuse : (MajorBlock.inuse { B with minors := l ++ c :: r } : ℤ) = B.inuse + size := by
    unfold MajorBlock.inuse
    rw [ha.minors, ← ha.size]
    simp only [List.map_append, List.map_cons, List.sum_append, List.sum_cons]
    push_cast
    omega
  refine ⟨_, c, hr.edit ha.stored ha.edits hinuse, ?_, ha.size, ha.reqSize,
    rfl⟩
  have hcells : cells (L ++ B :: R) = cells L ++ (l ++ (r ++ cells R)) := by
    simp [cells, ha.minors]
  have hcells' : cells (L ++ { B with minors := l ++ c :: r } :: R) =
      cells L ++ (l ++ c :: (r ++ cells R)) := by
    simp [cells]
  rw [hcells, hcells', ← List.append_assoc, ← List.append_assoc]
  exact List.perm_middle

/-- A gap with room for the header and the request is filled with a new minor. -/
theorem fill (hr : Represents h G) (hB : B ∈ G) (hfits : reqSize + (ALIGNMENT + ALIGN_INFO) ≤ size)
    {l r : List Cell} {a : ℕ} (hgap : Gap B (size + 24) l r a) :
    Served (filled h B l r a size reqSize).1 G size reqSize (filled h B l r a size reqSize).2 ∧
      Unasked h (filled h B l r a size reqSize).1 ∧
      SameData h.memory (filled h B l r a size reqSize).1.memory (cells G) := by
  obtain ⟨L, R, rfl⟩ := List.append_of_mem hB
  have hin := hr.inside hB
  obtain ⟨m', ha, hdata, he⟩ := (hr.stored B hB).fill hin.1 hin.2 hfits hgap
  unfold filled
  rw [he]
  refine ⟨hr.served ha, ⟨rfl, rfl⟩, fun c hc b hb hlt => ?_⟩
  obtain ⟨A, hA, hcA⟩ := mem_cells.mp hc
  by_cases hAB : A.addr = B.addr
  · obtain rfl := hr.addr_inj hA hB hAB
    exact hdata c hcA b hb hlt
  · obtain ⟨hb₀, hb₁, -⟩ := hr.data_clear hA hB hcA hb hlt
    have hap := hr.apart hA hB hAB
    unfold Clear at hap
    exact ha.edits.outside b (by omega)

theorem inuse_filled (h : Heap) (B : MajorBlock) (l r : List Cell) (a size reqSize : ℕ) :
    (filled h B l r a size reqSize).1.inuse = h.inuse + size := by
  unfold filled placeMinor Heap.modifyMajor Heap.setMajor
  dsimp only
  split_ifs <;> rfl

theorem place_cases (hr : Represents h G) (hB : B ∈ G) (hw : add32 size sizeofMinor = w)
    (reqSize : ℕ) (hroom : B.usage + w ≤ B.size) :
    place h B.addr size reqSize = .ok none ∧ ¬ B.HasGap w ∨
      ∃ l r a, Gap B w l r a ∧
        place h B.addr size reqSize = .ok (some (filled h B l r a size reqSize)) := by
  have hin := hr.inside hB
  have hempty : B.minors = [] → 24 + w ≤ B.size := fun _ => by
    unfold MajorBlock.usage at hroom
    rw [sizeofMajor] at hroom
    omega
  rcases (hr.stored B hB).place hin.1 hin.2 hw reqSize hempty with ⟨hnone, -, htight⟩ | hfound
  · exact .inl ⟨hnone, not_hasGap htight⟩
  · exact .inr hfound

section Round
variable {liballocAlloc : List Block → ℕ → Option ℕ} {startedBet : Bool}

/-- A round over a major with room ends the search. -/
theorem examine_gap (hr : Represents h G) (hB : B ∈ G) (hw : add32 size sizeofMinor = w)
    (reqSize : ℕ) (hgap : B.HasGap w) :
    ∃ l r a, Gap B w l r a ∧ ∀ liballocAlloc startedBet,
      examine liballocAlloc size reqSize h B.addr startedBet (B.size - B.usage) =
        .ok (.answer (filled h B l r a size reqSize).1 (filled h B l r a size reqSize).2) := by
  have hroom := (hr.stored B hB).inOrder.room hgap
  rcases hr.place_cases hB hw reqSize hroom with ⟨-, hno⟩ | ⟨l, r, a, hfree, hplace⟩
  · exact (hno hgap).elim
  · refine ⟨l, r, a, hfree, fun liballocAlloc startedBet => ?_⟩
    unfold examine caseOne
    rw [hw, if_neg (by omega)]
    dsimp only
    rw [hplace]
    rfl

/-- Without a gap the round goes on to the next major, back to the root or to a new major. -/
theorem examine_full (hr : Represents h G) (hB : B ∈ G) (hw : add32 size sizeofMinor = w)
    (reqSize : ℕ) (hno : ¬ B.HasGap w) :
    examine liballocAlloc size reqSize h B.addr startedBet (B.size - B.usage) =
      if (h.major B.addr).next ≠ 0 then .ok (.hop h (h.major B.addr).next startedBet)
      else if startedBet then .ok (.hop h h.memRoot false)
      else
        let (h, new) := appendMajor liballocAlloc h B.addr size
        if new = 0 then .ok (.answer h 0)
        else if B.size - B.usage < w then
          place h new size reqSize >>= fun placed => match placed with
            | some (h, p) => .ok (.answer h p)
            | none => .ok (caseFive liballocAlloc size h new startedBet)
        else .ok (.hop h new startedBet) := by
  have hle := (hr.stored B hB).inOrder.usage_le
  unfold examine caseOne
  rw [hw]
  by_cases hdiff : B.size - B.usage < w
  · rw [if_pos hdiff]
    by_cases hnext : (h.major B.addr).next ≠ 0
    · rw [if_pos hnext, if_pos hnext]
    · rw [if_neg hnext, if_neg hnext]
      cases startedBet with
      | true => rfl
      | false =>
        dsimp only
        rcases appendMajor liballocAlloc h B.addr size with ⟨h', new⟩
        by_cases hnew : new = 0
        · simp [hnew]
        · rw [if_neg hnew, if_neg hnew, if_pos hdiff]
          rfl
  · rw [if_neg hdiff]
    have hplace : place h B.addr size reqSize = .ok none :=
      (hr.place_cases hB hw reqSize (by omega)).elim And.left fun ⟨_, _, _, hgap, _⟩ =>
        (hno hgap.hasGap).elim
    dsimp only
    rw [hplace, ok_bind]
    unfold caseFive
    by_cases hnext : (h.major B.addr).next ≠ 0
    · rw [if_pos hnext]
      dsimp only
      rw [if_neg hnext]
    · rw [if_neg hnext]
      dsimp only
      rw [if_pos (not_not.mp hnext)]
      cases startedBet with
      | true => rfl
      | false =>
        rcases appendMajor liballocAlloc h B.addr size with ⟨h', new⟩
        by_cases hnew : new = 0
        · simp [hnew]
        · simp [hnew, hdiff]

theorem examine_next (hr : Represents h (L ++ B :: A :: R)) (hw : add32 size sizeofMinor = w)
    (reqSize : ℕ) (hno : ¬ B.HasGap w) :
    examine liballocAlloc size reqSize h B.addr startedBet (B.size - B.usage) =
      .ok (.hop h A.addr startedBet) := by
  have hpos : 0 < A.addr := (hr.inside (B := A) (by simp)).1
  have hnext : (h.major B.addr).next = A.addr := hr.next_eq
  rw [hr.examine_full (by simp) hw reqSize hno, hnext, if_pos (by omega)]

theorem examine_restart (hr : Represents h (L ++ [B])) (hw : add32 size sizeofMinor = w)
    (reqSize : ℕ) (hno : ¬ B.HasGap w) :
    examine liballocAlloc size reqSize h B.addr true (B.size - B.usage) =
      .ok (.hop h h.memRoot false) := by
  have hnext : (h.major B.addr).next = 0 := hr.next_eq
  rw [hr.examine_full (by simp) hw reqSize hno, hnext, if_neg (by simp), if_pos rfl]

/-- The last major of the last walk: the one time that `liballoc_alloc` is asked. -/
theorem examine_last (hg : PageGrants liballocAlloc) (hr : Represents h (L ++ [B]))
    (hw : add32 size sizeofMinor = w) (reqSize : ℕ) (hno : ¬ B.HasGap w) :
    ∃ h', SameData h.memory h'.memory (cells (L ++ [B])) ∧
      (examine liballocAlloc size reqSize h B.addr false (B.size - B.usage) =
          .ok (.answer h' 0) ∧ Refused liballocAlloc h h' size ∧ Represents h' (L ++ [B]) ∨
        ∃ N, Granted liballocAlloc h h' size N ∧ Represents h' (L ++ [B] ++ [N]) ∧
          examine liballocAlloc size reqSize h B.addr false (B.size - B.usage) =
            if B.size - B.usage < w then
              place h' N.addr size reqSize >>= fun placed => match placed with
                | some (h, p) => .ok (.answer h p)
                | none => .ok (caseFive liballocAlloc size h' N.addr false)
            else .ok (.hop h' N.addr false)) := by
  have hnext : (h.major B.addr).next = 0 := hr.next_eq
  have hround := @examine_full _ _ _ _ _ liballocAlloc false hr (by simp) hw reqSize hno
  rw [hnext, if_neg (by simp), if_neg (by simp)] at hround
  obtain ⟨h', hdata, ⟨happ, href, hr'⟩ | ⟨N, happ, hnew, hr'⟩⟩ := hr.append hg size
  · rw [happ] at hround
    exact ⟨h', hdata, .inl ⟨hround, href, hr'⟩⟩
  · have hN := (hr'.inside (B := N) (by simp)).1
    rw [happ] at hround
    dsimp only at hround
    rw [if_neg hN.ne'] at hround
    exact ⟨h', hdata, .inr ⟨N, hnew, hr', hround⟩⟩

end Round

/-- One round of the loop and what is left of it. -/
theorem round_eq (hr : Represents h G) (hB : B ∈ G) (size reqSize bestSize : ℕ) :
    ∃ h₁ bestSize', Represents h₁ G ∧ Rebet h h₁ ∧
      (∀ liballocAlloc rounds startedBet,
        searchMajors liballocAlloc size reqSize (rounds + 1) h B.addr startedBet bestSize =
          examine liballocAlloc size reqSize h₁ B.addr startedBet (B.size - B.usage) >>=
            Turn.resume fun h maj startedBet =>
              searchMajors liballocAlloc size reqSize rounds h maj startedBet bestSize') ∧
      ∀ liballocAlloc rounds startedBet,
        examined liballocAlloc size reqSize (rounds + 1) h B.addr startedBet bestSize =
          B.addr :: walkOn (fun h maj startedBet =>
              examined liballocAlloc size reqSize rounds h maj startedBet bestSize')
            (examine liballocAlloc size reqSize h₁ B.addr startedBet (B.size - B.usage)) := by
  have hpos := (hr.inside hB).1
  refine ⟨h.consider B.addr bestSize (B.size - B.usage),
    if bestSize < B.size - B.usage then B.size - B.usage else bestSize,
    (hr.consider hB _ _).1, (hr.consider hB _ _).2,
    fun liballocAlloc rounds startedBet => searchMajors_succ liballocAlloc size reqSize hpos.ne'
      (hr.room_eq hB) rounds startedBet bestSize, fun liballocAlloc rounds startedBet => ?_⟩
  rw [examined, if_neg hpos.ne']
  dsimp only
  rw [hr.room_eq hB]

end Represents
end Racoon.Liballoc
