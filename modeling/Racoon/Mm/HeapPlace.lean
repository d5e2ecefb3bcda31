import Racoon.Mm.HeapLayout

/-!
# A place for a minor

The cases 2 to 4 of `malloc`: they find the room behind a minor or at the start
of the major, and where a major has the room in one piece they do not miss it.
-/

namespace Racoon.Liballoc
open Lib

/-- One major is edited: its links and everything outside of it stay. -/
structure Edits (m m' : Bytes) (a n : ℕ) : Prop where
  prev : (majorLayout.get m' a).prev = (majorLayout.get m a).prev
  next : (majorLayout.get m' a).next = (majorLayout.get m a).next
  outside : ∀ b, b < a ∨ a + n ≤ b → m' b = m b

theorem align_eq (m : Bytes) (c : Cell) (h : c.addr + 30 ≤ 2 ^ 32) :
    align m (c.addr + sizeofMinor) =
      (m.write 2 (c.ptr - ALIGN_INFO) (c.ptr - (c.addr + sizeofMinor)), c.ptr) := by
  have hptr : c.ptr = (c.addr + 29) / 4 * 4 := rfl
  have hstart : add32 (c.addr + sizeofMinor) ALIGN_INFO = c.addr + 26 :=
    add32_of_lt (by simp only [sizeofMinor, ALIGN_INFO]; omega)
  have hdiff : (if (c.addr + 26) % ALIGNMENT ≠ 0 then ALIGNMENT - (c.addr + 26) % ALIGNMENT
      else (c.addr + 26) % ALIGNMENT) = c.ptr - (c.addr + 26) := by
    rw [hptr]
    by_cases h0 : (c.addr + 26) % ALIGNMENT = 0
    · rw [if_neg (not_not.mpr h0)]
      rw [ALIGNMENT] at h0 ⊢
      omega
    · rw [if_pos h0]
      rw [ALIGNMENT] at h0 ⊢
      omega
  have hend : add32 (c.addr + 26) (c.ptr - (c.addr + 26)) = c.ptr := by
    rw [add32_of_lt (by omega)]
    omega
  have hback : sub32 c.ptr ALIGN_INFO = c.ptr - ALIGN_INFO :=
    sub32_of_le (by omega) (by rw [ALIGN_INFO]; omega)
  have hinfo : c.ptr - (c.addr + 26) + ALIGN_INFO = c.ptr - (c.addr + sizeofMinor) := by
    simp only [sizeofMinor, ALIGN_INFO]
    omega
  unfold align
  dsimp only
  rw [hstart, hdiff, hend, hback, hinfo]

/-- `UNALIGN` finds the end of the header. -/
theorem unalign_eq {m : Bytes} {a : ℕ} {c : Cell} (h : Holds m a c) (hc : c.addr + 30 ≤ 2 ^ 32) :
    unalign m c.ptr = c.addr + sizeofMinor := by
  have hptr := c.ptr_bounds
  have hback : sub32 c.ptr ALIGN_INFO = c.ptr - ALIGN_INFO :=
    sub32_of_le (by omega) (by rw [ALIGN_INFO]; omega)
  have hsub : sub32 c.ptr (c.ptr - (c.addr + sizeofMinor)) = c.addr + sizeofMinor := by
    rw [sub32_of_le (by omega) (by omega), sizeofMinor]
    omega
  unfold unalign
  rw [hback, h.tag, if_pos (by simp only [ALIGNMENT, ALIGN_INFO, sizeofMinor]; omega), hsub]

/-- The bytes behind the headers of minors are the same in both memories. -/
def SameData (m m' : Bytes) (cs : List Cell) : Prop :=
  ∀ c ∈ cs, ∀ b, c.ptr ≤ b → b < c.addr + c.len → m' b = m b

theorem SameData.refl (m : Bytes) (cs : List Cell) : SameData m m cs := fun _ _ _ _ _ => rfl

theorem SameData.trans {m m' m'' : Bytes} {cs : List Cell} (h : SameData m m' cs)
    (h' : SameData m' m'' cs) : SameData m m'' cs :=
  fun c hc b hb hlt => (h' c hc b hb hlt).trans (h c hc b hb hlt)

/-- The header of a major, or of one of its minors with the alignment information. -/
def MajorBlock.Header (B : MajorBlock) (b : ℕ) : Prop :=
  (B.addr ≤ b ∧ b < B.addr + 24) ∨ ∃ c ∈ B.minors, c.addr ≤ b ∧ b < c.ptr

/-- The data of a minor is no header. -/
theorem MajorBlock.InOrder.not_header {B : MajorBlock} (ho : B.InOrder)
    (hsize : ∀ d ∈ B.minors, 6 ≤ d.size) {c : Cell} (hc : c ∈ B.minors) {b : ℕ} (hb : c.ptr ≤ b)
    (hlt : b < c.addr + c.len) : ¬ B.Header b := by
  have hcb := ho.bounds hc
  have hptr := c.ptr_bounds
  have hlen : c.len = 24 + c.size := rfl
  rintro (h | ⟨d, hd, h⟩)
  · omega
  · have hd6 := hsize d hd
    have hdptr := d.ptr_bounds
    rcases ho.eq_or_clear hc hd with rfl | hclear
    · omega
    · unfold Clear at hclear
      omega

section Place
variable {h : Heap} {a n : ℕ} {l r : List Cell} {c : Cell}

theorem Heap.modifyMinor_apart (h : Heap) {x b : ℕ} (f : Minor → Minor)
    (hb : b < x ∨ x + 24 ≤ b) : (h.modifyMinor x f).memory b = h.memory b :=
  minorLayout.put_apart _ _ hb

theorem Heap.modifyMajor_apart (h : Heap) {x b : ℕ} (f : Major → Major)
    (hb : b < x ∨ x + 24 ≤ b) : (h.modifyMajor x f).memory b = h.memory b :=
  majorLayout.put_apart _ _ hb

/-- `placeMinor` writes headers only. -/
theorem placeMinor_apart (h : Heap) (maj prev next min size reqSize : ℕ) {b : ℕ}
    (hmaj : b < maj ∨ maj + 24 ≤ b) (hprev : prev ≠ 0 → b < prev ∨ prev + 24 ≤ b)
    (hnext : next ≠ 0 → b < next ∨ next + 24 ≤ b) (hmin : b < min ∨ min + 24 ≤ b)
    (htag : ∀ m, (align m (add32 min sizeofMinor)).1 b = m b) :
    (placeMinor h maj prev next min size reqSize).1.memory b = h.memory b := by
  unfold Liballoc.placeMinor
  dsimp only
  rw [htag, Heap.modifyMajor_apart _ _ hmaj]
  have hnew : (h.setMinor min ⟨prev, next, maj, LIBALLOC_MAGIC, size, reqSize⟩).memory b =
      h.memory b := minorLayout.put_apart _ _ hmin
  by_cases hp : prev ≠ 0
  · rw [if_pos hp, Heap.modifyMinor_apart _ _ (hprev hp)]
    by_cases hn : next ≠ 0
    · rw [if_pos hn, Heap.modifyMinor_apart _ _ (hnext hn), hnew]
    · rw [if_neg hn, hnew]
  · rw [if_neg hp, Heap.modifyMajor_apart _ _ hmaj]
    by_cases hn : next ≠ 0
    · rw [if_pos hn, Heap.modifyMinor_apart _ _ (hnext hn), hnew]
    · rw [if_neg hn, hnew]

/-- The places 2, 3, 4.1 and 4.2: a minor is linked in where there is room for it. -/
theorem Stored.placeMinor (hs : Stored h.memory ⟨a, n, l ++ r⟩) (ha : 0 < a) (hn : a + n ≤ 2 ^ 32)
    (ho : MajorBlock.InOrder ⟨a, n, l ++ c :: r⟩)
    (hfits : c.reqSize + (ALIGNMENT + ALIGN_INFO) ≤ c.size) :
    ∃ m', placeMinor h a ((prevOf l).getD 0) ((nextOf r).getD 0) c.addr c.size c.reqSize =
        ({ h with memory := m', inuse := h.inuse + c.size }, c.ptr) ∧
      Stored m' ⟨a, n, l ++ c :: r⟩ ∧ Edits h.memory m' a n ∧ SameData h.memory m' (l ++ r) := by
  have hmem : c ∈ (⟨a, n, l ++ c :: r⟩ : MajorBlock).minors := by simp
  have hcb : a + 24 ≤ c.addr ∧ c.addr + 24 + c.size ≤ a + n := ho.bounds hmem
  have hc6 : c.reqSize + 6 ≤ c.size := hfits
  have hsize : ∀ d ∈ (⟨a, n, l ++ c :: r⟩ : MajorBlock).minors, 6 ≤ d.size := fun d hd => by
    have hd' : d = c ∨ d ∈ l ++ r := by
      simp only [List.mem_append, List.mem_cons] at hd ⊢
      tauto
    rcases hd' with rfl | hd'
    · omega
    · have := (hs.holds d hd').fits
      simp only [ALIGNMENT, ALIGN_INFO] at this
      omega
  have hprev : ∀ x, prevOf l = some x → 0 < x ∧ ∃ d ∈ l ++ c :: r, d.addr = x :=
    neighbour_mem ho ha fun x hx => by simp [prevOf_mem hx]
  have hnext : ∀ x, nextOf r = some x → 0 < x ∧ ∃ d ∈ l ++ c :: r, d.addr = x :=
    neighbour_mem ho ha fun x hx => by simp [nextOf_mem hx]
  have hlt : ∀ d ∈ l ++ c :: r, d.addr < 2 ^ 32 := fun d hd => by
    have := ho.bounds (c := d) hd
    dsimp only at this
    omega
  have hfit : minorLayout.Fits ⟨(prevOf l).getD 0, (nextOf r).getD 0, a, LIBALLOC_MAGIC, c.size,
      c.reqSize⟩ := by
    rw [fits_minor]
    refine ⟨?_, ?_, by dsimp only; omega, by norm_num [LIBALLOC_MAGIC], by dsimp only; omega,
      by dsimp only; omega⟩
    · cases hp : prevOf l with
      | none => simp
      | some x =>
        obtain ⟨-, d, hd, rfl⟩ := hprev x hp
        exact hlt d hd
    · cases hp : nextOf r with
      | none => simp
      | some x =>
        obtain ⟨-, d, hd, rfl⟩ := hnext x hp
        exact hlt d hd
  -- the header of the new minor
  have v₁ := (Views.start h.memory ⟨a, n, l ++ c :: r⟩).putMinor ho hsize hmem hfit
  -- the neighbours
  obtain ⟨m₂, e₂, v₂⟩ := Views.modifyMinor (h := h.setMinor c.addr _) v₁ ho hsize hnext
    (φ := fun m => { m with prev := c.addr }) fun x hx => by
      rw [fits_minor] at hx ⊢
      exact ⟨hlt c hmem, hx.2⟩
  change _ = ({ h with memory := m₂ } : Heap) at e₂
  obtain ⟨m₃, e₃, v₃⟩ := Views.modifyBefore (h := { h with memory := m₂ }) v₂ ho hsize hprev
    (hlt c hmem)
  change _ = ({ h with memory := m₃ } : Heap) at e₃
  -- the count of the major
  have husage : add32 (majorLayout.get h.memory a).usage (add32 c.size sizeofMinor) =
      (majorLayout.get h.memory a).usage + c.len := by
    have hle := ho.usage_le
    have := hs.usage
    have hlen : c.len = c.size + sizeofMinor := Nat.add_comm _ _
    simp only [MajorBlock.usage, List.map_append, List.sum_append, List.map_cons,
      List.sum_cons] at this hle
    rw [add32_of_lt (a := c.size) (by rw [sizeofMinor]; omega), add32_of_lt (by omega), hlen]
  obtain ⟨m₄, e₄, v₄⟩ := Views.modifyMajor (h := { h with memory := m₃ }) v₃ ho
    (φ := fun M => { M with usage := add32 M.usage (add32 c.size sizeofMinor) }) (by
      have := v₃.fits_major
      rw [fits_major] at this ⊢
      exact ⟨this.1, this.2.1, this.2.2.1, this.2.2.2.1, add32_lt _ _, this.2.2.2.2.2⟩)
  change _ = ({ h with memory := m₄ } : Heap) at e₄
  have hptr := c.ptr_bounds
  obtain ⟨g', v₅, hgc, hgd⟩ := v₄.putTag ho hsize hmem (v := c.ptr - (c.addr + sizeofMinor)) (by
    rw [sizeofMinor]
    omega)
  have hne : prevOf l ≠ some c.addr ∧ nextOf r ≠ some c.addr ∧ ∀ d ∈ l ++ r, d.addr ≠ c.addr := by
    have hnodup := ho.nodup
    dsimp only at hnodup
    rw [List.map_append, List.map_cons, List.nodup_middle, List.nodup_cons,
      ← List.map_append] at hnodup
    refine ⟨fun hp => hnodup.1 ?_, fun hp => hnodup.1 ?_, fun d hd hdc => hnodup.1 ?_⟩
    · simp [prevOf_mem hp]
    · simp [nextOf_mem hp]
    · exact hdc ▸ List.mem_map_of_mem hd
  have hstart : add32 c.addr sizeofMinor = c.addr + sizeofMinor :=
    add32_of_lt (by rw [sizeofMinor]; omega)
  have hplaced : Liballoc.placeMinor h a ((prevOf l).getD 0) ((nextOf r).getD 0) c.addr c.size
      c.reqSize = ({ h with
        memory := m₄.write 2 (c.ptr - ALIGN_INFO) (c.ptr - (c.addr + sizeofMinor))
        inuse := h.inuse + c.size }, c.ptr) := by
    unfold Liballoc.placeMinor
    dsimp only
    rw [e₂, e₃, e₄, hstart, align_eq _ c (by omega)]
  refine ⟨_, hplaced, hs.insert v₅ ho ha ?_ ?_ hfits (fun d hd => ?_) hgc fun d hd => ?_,
    ⟨?_, ?_, v₅.outside⟩, fun d hd b hb hlt => ?_⟩
  · dsimp only
    rw [husage]
    cases l with
    | nil => rfl
    | cons d l => rw [if_neg (by simp [prevOf]), if_neg (List.cons_ne_nil d l)]
  · rw [if_neg hne.1, if_neg hne.2.1, Function.update_self]
  · rw [Function.update_of_ne (hne.2.2 d hd)]
    split_ifs <;> rfl
  · exact hgd d (by simpa using Or.elim (List.mem_append.mp hd) Or.inl fun h => .inr (.inr h))
      (hne.2.2 d hd)
  · rw [v₅.major]
  · rw [v₅.major]
  · have hd' : d ∈ l ++ c :: r := by
      simp only [List.mem_append, List.mem_cons] at hd ⊢
      tauto
    have hno := ho.not_header hsize hd' hb hlt
    have hhead : ∀ e ∈ l ++ c :: r, b < e.addr ∨ e.ptr ≤ b := fun e he => by
      by_contra hin
      exact hno (.inr ⟨e, he, by omega⟩)
    have hfar : ∀ x, 0 < x ∧ (∃ e ∈ l ++ c :: r, e.addr = x) → b < x ∨ x + 24 ≤ b := by
      rintro x ⟨-, e, he, rfl⟩
      have := hhead e he
      have := e.ptr_bounds
      omega
    have hmaj : b < a ∨ a + 24 ≤ b := by
      by_contra hin
      exact hno (.inl (by dsimp only; omega))
    have hmemory := placeMinor_apart h a ((prevOf l).getD 0) ((nextOf r).getD 0) c.addr c.size
      c.reqSize hmaj ?_ ?_ (hfar c.addr ⟨by omega, c, hmem, rfl⟩) ?_
    · rwa [hplaced] at hmemory
    · intro h0
      cases hx : prevOf l with
      | none => exact absurd (congrArg (·.getD 0) hx) h0
      | some x => exact hfar x (hprev x hx)
    · intro h0
      cases hx : nextOf r with
      | none => exact absurd (congrArg (·.getD 0) hx) h0
      | some x => exact hfar x (hnext x hx)
    · intro m
      rw [hstart, align_eq _ c (by omega)]
      have := hhead c hmem
      exact Bytes.write_apart _ (by rw [ALIGN_INFO]; omega)

/-- What a major answers to a search for `size` bytes: a minor with them, linked in between. -/
structure Answers (h : Heap) (B : MajorBlock) (size reqSize : ℕ) (l r : List Cell) (c : Cell)
    (m' : Bytes) : Prop where
  minors : B.minors = l ++ r
  size : c.size = size
  reqSize : c.reqSize = reqSize
  stored : Stored m' ⟨B.addr, B.size, l ++ c :: r⟩
  edits : Edits h.memory m' B.addr B.size

theorem Stored.next_eq {m : Bytes} {B : MajorBlock} (hs : Stored m B) {d : Cell}
    (hd : B.minors = l ++ d :: r) : (minorLayout.get m d.addr).next = (nextOf r).getD 0 := by
  have hchain := hs.chain
  rw [hd, List.map_append, List.map_cons] at hchain
  rw [eq_getD_of_pointer hchain.at_mid.2, Option.or_none]
  rfl

theorem Stored.prev_eq {m : Bytes} {B : MajorBlock} (hs : Stored m B) {d : Cell}
    (hd : B.minors = l ++ d :: r) : (minorLayout.get m d.addr).prev = (prevOf l).getD 0 := by
  have hchain := hs.chain
  rw [hd, List.map_append, List.map_cons] at hchain
  rw [eq_getD_of_pointer hchain.at_mid.1, Option.or_none]
  rfl

theorem sub32_end {b : ℕ} (hn : a + n ≤ 2 ^ 32) (h0 : 0 < b) (hb : b ≤ a + n) :
    sub32 (add32 a n) b = a + n - b := by
  unfold sub32 add32
  omega

/-- The space behind a minor as the search computes it. -/
theorem Stored.gap_eq {B : MajorBlock} (hs : Stored h.memory B) (ha : 0 < B.addr)
    (hn : B.addr + B.size ≤ 2 ^ 32) {d : Cell} (hd : B.minors = l ++ d :: r) :
    ∃ stop, stop = (nextOf r).getD (B.addr + B.size) ∧
      Packed Cell.addr Cell.len stop r (B.addr + B.size) ∧ d.addr + d.len ≤ stop ∧
      sub32 (sub32 (sub32 (if (h.minor d.addr).next = 0 then add32 B.addr (h.major B.addr).size
        else (h.minor d.addr).next) d.addr) sizeofMinor) (h.minor d.addr).size =
      stop - (d.addr + d.len) := by
  have hmem : d ∈ B.minors := by simp [hd]
  have hnext : (h.minor d.addr).next = (nextOf r).getD 0 := hs.next_eq hd
  have hsize : (h.major B.addr).size = B.size := hs.size
  have hdsize : (h.minor d.addr).size = d.size := (hs.holds d hmem).size
  have hb := hs.inOrder.bounds hmem
  have hlen : d.len = 24 + d.size := rfl
  have hpack := hs.inOrder
  unfold MajorBlock.InOrder at hpack
  rw [hd] at hpack
  have hr := (packed_mid.mp hpack).2
  have hsub : ∀ x, d.addr + d.len ≤ x → x - d.addr < 2 ^ 32 →
      sub32 (sub32 (x - d.addr) sizeofMinor) d.size = x - (d.addr + d.len) := by
    intro x hx hlt
    rw [sub32_of_le hlt (by rw [sizeofMinor]; omega),
      sub32_of_le (by omega) (by rw [sizeofMinor]; omega), sizeofMinor]
    omega
  rw [hnext, hsize, hdsize]
  cases r with
  | nil =>
    refine ⟨B.addr + B.size, rfl, le_rfl, hr, ?_⟩
    have hend : (nextOf []).getD 0 = 0 := rfl
    have hd0 : B.addr + B.size - d.addr < 2 ^ 32 := by omega
    rw [hend, if_pos rfl, sub32_end hn (by omega) (by omega), hsub _ hr hd0]
  | cons e r =>
    have he := hs.inOrder.bounds (c := e) (by simp [hd])
    refine ⟨e.addr, rfl, ⟨le_rfl, hr.2⟩, hr.1, ?_⟩
    have heq : (nextOf (e :: r)).getD 0 = e.addr := rfl
    have hde := hr.1
    have hsub' : sub32 e.addr d.addr = e.addr - d.addr := sub32_of_le (by omega) (by omega)
    rw [heq, if_neg (by omega), hsub', hsub _ hde (by omega)]

/-- A place between two minors, or at an end of the major, where `w` bytes are free. -/
structure Gap (B : MajorBlock) (w : ℕ) (l r : List Cell) (a : ℕ) : Prop where
  minors : B.minors = l ++ r
  before : Packed Cell.addr Cell.len (B.addr + sizeofMajor) l a
  behind : Packed Cell.addr Cell.len (a + w) r (B.addr + B.size)

theorem Gap.inOrder {B : MajorBlock} {a size : ℕ} (h : Gap B (size + 24) l r a) (reqSize : ℕ) :
    MajorBlock.InOrder ⟨B.addr, B.size, l ++ ⟨a, size, reqSize⟩ :: r⟩ := by
  have hlen : Cell.len ⟨a, size, reqSize⟩ = size + 24 := Nat.add_comm _ _
  exact packed_mid.mpr ⟨h.before, hlen ▸ h.behind⟩

/-- Case 4 finds a minor with the space behind it, or no minor has it and the loop ends. -/
theorem Stored.searchMinors {B : MajorBlock} (hs : Stored h.memory B) (ha : 0 < B.addr)
    (hn : B.addr + B.size ≤ 2 ^ 32) {size w : ℕ} (hw : add32 size sizeofMinor = w) :
    ∀ (r : List Cell) (l : List Cell) (rounds : ℕ), B.minors = l ++ r → r.length < rounds →
      searchMinors h B.addr size rounds ((nextOf r).getD 0) = .ok none ∧
        (∀ d r', r = d :: r' →
          Tight Cell.addr Cell.len w (d.addr + d.len) r' (B.addr + B.size)) ∨
      ∃ l' d r', B.minors = l' ++ d :: r' ∧
        searchMinors h B.addr size rounds ((nextOf r).getD 0) = .ok (some d.addr) ∧
        Gap B w (l' ++ [d]) r' (d.addr + d.len) := by
  intro r
  induction r with
  | nil =>
    intro l rounds _ hrounds
    obtain ⟨k, rfl⟩ := Nat.exists_eq_add_one_of_ne_zero (Nat.ne_zero_of_lt hrounds)
    exact .inl ⟨rfl, nofun⟩
  | cons d r ih =>
    intro l rounds hd hrounds
    obtain ⟨k, rfl⟩ := Nat.exists_eq_add_one_of_ne_zero (Nat.ne_zero_of_lt hrounds)
    obtain ⟨stop, hnext, hr, hstop, hgap⟩ := hs.gap_eq ha hn hd
    have hdpos : d.addr ≠ 0 := (Stored.addr_pos hs.inOrder ha (by simp [hd])).ne'
    have hstart : (nextOf (d :: r)).getD 0 = d.addr := rfl
    have hround : Liballoc.searchMinors h B.addr size (k + 1) d.addr =
        if w ≤ stop - (d.addr + d.len) then .ok (some d.addr)
        else Liballoc.searchMinors h B.addr size k ((nextOf r).getD 0) := by
      rw [Liballoc.searchMinors, if_neg hdpos]
      dsimp only
      rw [hgap, hw, show (h.minor d.addr).next = (nextOf r).getD 0 from hs.next_eq hd]
    rw [hstart, hround]
    split_ifs with hroom
    · refine .inr ⟨l, d, r, hd, rfl, by simpa using hd, ?_, hr.mono (by omega) le_rfl⟩
      have hpack := hs.inOrder
      unfold MajorBlock.InOrder at hpack
      rw [hd] at hpack
      exact packed_mid.mpr ⟨(packed_mid.mp hpack).1, le_rfl⟩
    · refine (ih (l ++ [d]) k (by simp [hd]) (by simpa using hrounds)).imp_left fun hnone => ?_
      refine ⟨hnone.1, fun d' r' heq => ?_⟩
      obtain ⟨rfl, rfl⟩ := List.cons.inj heq
      cases r with
      | nil =>
        have hend : stop = B.addr + B.size := hnext
        change B.addr + B.size < d.addr + d.len + w
        omega
      | cons e r =>
        have hhead : stop = e.addr := hnext
        exact ⟨by omega, hnone.2 e r rfl⟩

theorem Stored.first_eq {m : Bytes} {B : MajorBlock} (hs : Stored m B) :
    (majorLayout.get m B.addr).first = (nextOf B.minors).getD 0 := eq_getD_of_pointer hs.first

theorem length_lt_usage (B : MajorBlock) : B.minors.length < B.usage / sizeofMinor := by
  have hle : ∀ l : List Cell, 24 * l.length ≤ (l.map Cell.len).sum := fun l => by
    induction l with
    | nil => exact le_rfl
    | cons c l ih =>
      rw [List.length_cons, List.map_cons, List.sum_cons, Cell.len, sizeofMinor]
      omega
  have := hle B.minors
  rw [MajorBlock.usage, sizeofMajor, sizeofMinor]
  omega

/-- The cases 2 to 4: a place in the major, or none. The address of a place wraps at the end of the
memory. -/
theorem Stored.place {B : MajorBlock} (hs : Stored h.memory B) (ha : 0 < B.addr)
    (hn : B.addr + B.size ≤ 2 ^ 32) {size w : ℕ} (hw : add32 size sizeofMinor = w) (reqSize : ℕ)
    (hempty : B.minors = [] → 24 + w ≤ B.size) :
    place h B.addr size reqSize = .ok none ∧ B.minors ≠ [] ∧
        Tight Cell.addr Cell.len w (B.addr + sizeofMajor) B.minors (B.addr + B.size) ∨
    ∃ l r a, Gap B w l r a ∧ place h B.addr size reqSize =
      .ok (some (Liballoc.placeMinor h B.addr ((prevOf l).getD 0) ((nextOf r).getD 0) (a % 2 ^ 32)
        size reqSize)) := by
  obtain ⟨a, n, minors⟩ := B
  dsimp only at ha hn hempty ⊢
  have hpack := hs.inOrder
  unfold MajorBlock.InOrder at hpack
  dsimp only at hpack
  have hbottom : add32 a sizeofMajor = (a + sizeofMajor) % 2 ^ 32 := rfl
  have hfirst : (h.major a).first = (nextOf minors).getD 0 := hs.first_eq
  unfold Liballoc.place
  dsimp only
  rw [hfirst, hbottom, hw]
  cases minors with
  | nil =>
    have hroom := hempty rfl
    have hnone : (nextOf []).getD 0 = 0 := rfl
    refine .inr ⟨[], [], a + sizeofMajor, ⟨rfl, le_rfl, ?_⟩, ?_⟩
    · change a + sizeofMajor + w ≤ a + n
      rw [sizeofMajor]
      omega
    · rw [hnone, if_pos rfl]
      rfl
  | cons d r =>
    have hd : a + 24 ≤ d.addr ∧ d.addr + 24 + d.size ≤ a + n := hs.inOrder.bounds (c := d) (by simp)
    have hdiff : sub32 (sub32 d.addr a) sizeofMajor = d.addr - (a + 24) := by
      rw [sub32_of_le (a := d.addr) (by omega) (by omega),
        sub32_of_le (by omega) (by rw [sizeofMajor]; omega), sizeofMajor]
      omega
    have hhead : (nextOf (d :: r)).getD 0 = d.addr := rfl
    rw [hhead, if_neg (by omega), hdiff]
    split_ifs with hroom
    · refine .inr ⟨[], d :: r, a + sizeofMajor, ⟨rfl, le_rfl, ?_, hpack.2⟩, rfl⟩
      rw [sizeofMajor]
      omega
    · have hrounds : (d :: r).length < (h.major a).usage / sizeofMinor := by
        rw [show (h.major a).usage = _ from hs.usage]
        exact length_lt_usage ⟨a, n, d :: r⟩
      rcases hs.searchMinors ha hn hw (d :: r) [] _ rfl hrounds with
        hnone | ⟨l', e, r', hminors, hfound, hgap⟩
      · left
        rw [hhead] at hnone
        rw [hnone.1]
        exact ⟨rfl, List.cons_ne_nil d r, by rw [sizeofMajor]; omega, hnone.2 d r rfl⟩
      · have hmem : e ∈ d :: r := (show d :: r = l' ++ e :: r' from hminors) ▸ (by simp)
        have hprev : (prevOf (l' ++ [e])).getD 0 = e.addr := by simp [prevOf]
        have hnext : (h.minor e.addr).next = (nextOf r').getD 0 := hs.next_eq hminors
        have hesize : (h.minor e.addr).size = e.size := (hs.holds e hmem).size
        have hbehind : add32 (add32 e.addr sizeofMinor) e.size = (e.addr + e.len) % 2 ^ 32 := by
          unfold add32
          rw [Nat.mod_add_mod, Nat.add_assoc]
          rfl
        refine .inr ⟨l' ++ [e], r', e.addr + e.len, hgap, ?_⟩
        rw [hhead] at hfound
        rw [hfound, ok_bind]
        dsimp only
        rw [hnext, hesize, hbehind, hprev]

/-- A minor put into a gap that has the room for it. -/
theorem Stored.fill {B : MajorBlock} (hs : Stored h.memory B) (ha : 0 < B.addr)
    (hn : B.addr + B.size ≤ 2 ^ 32) {size reqSize a : ℕ}
    (hfits : reqSize + (ALIGNMENT + ALIGN_INFO) ≤ size) (hgap : Gap B (size + 24) l r a) :
    ∃ m', Answers h B size reqSize l r ⟨a, size, reqSize⟩ m' ∧
      SameData h.memory m' B.minors ∧
      Liballoc.placeMinor h B.addr ((prevOf l).getD 0) ((nextOf r).getD 0) (a % 2 ^ 32) size
        reqSize =
          ({ h with memory := m', inuse := h.inuse + size }, Cell.ptr ⟨a, size, reqSize⟩) := by
  obtain ⟨addr, n, minors⟩ := B
  obtain rfl : minors = l ++ r := hgap.minors
  have ho := hgap.inOrder reqSize
  have hlt : a < 2 ^ 32 := by
    have := ho.bounds (c := ⟨a, size, reqSize⟩) (by simp)
    dsimp only at this hn
    omega
  obtain ⟨m', he, hstored, hedits, hdata⟩ := hs.placeMinor ha hn ho hfits
  rw [Nat.mod_eq_of_lt hlt]
  exact ⟨m', ⟨rfl, rfl, rfl, hstored, hedits⟩, hdata, he⟩

end Place
end Racoon.Liballoc
