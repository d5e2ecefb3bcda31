import Racoon.Mm.HeapSearch

/-!
# A minor is given back

`la_free` takes a minor out of its major, and the major out of the list when it
was the last one. Only headers are written, so the other minors keep their data.
-/

namespace Racoon.Liballoc
open Lib

theorem Cell.ptr_pos (c : Cell) : 0 < c.ptr := by
  have := c.ptr_bounds
  omega

section Unlink
variable {h : Heap} {a n : ℕ} {l r : List Cell} {c : Cell}

/-- `unlinkMinor` writes headers only. -/
theorem unlinkMinor_apart (h : Heap) (min : ℕ) {b : ℕ}
    (hmaj : b < (h.minor min).block ∨ (h.minor min).block + 24 ≤ b)
    (hprev : (h.minor min).prev ≠ 0 → b < (h.minor min).prev ∨ (h.minor min).prev + 24 ≤ b)
    (hnext : (h.minor min).next ≠ 0 → b < (h.minor min).next ∨ (h.minor min).next + 24 ≤ b)
    (hmin : b < min ∨ min + 24 ≤ b) : (unlinkMinor h min).memory b = h.memory b := by
  unfold unlinkMinor
  dsimp only
  generalize hm : h.minor min = m at hmaj hprev hnext ⊢
  have hstart : ∀ f g, ((({ h with inuse := h.inuse - m.size } : Heap).modifyMajor m.block
      f).modifyMinor min g).memory b = h.memory b := fun f g => by
    rw [Heap.modifyMinor_apart _ _ hmin, Heap.modifyMajor_apart _ _ hmaj]
  by_cases hp : m.prev = 0
  · rw [if_pos hp, Heap.modifyMajor_apart _ _ hmaj, if_neg (not_not.mpr hp)]
    by_cases hn : m.next ≠ 0
    · rw [if_pos hn, Heap.modifyMinor_apart _ _ (hnext hn), hstart]
    · rw [if_neg hn, hstart]
  · rw [if_neg hp, if_pos hp, Heap.modifyMinor_apart _ _ (hprev hp)]
    by_cases hn : m.next ≠ 0
    · rw [if_pos hn, Heap.modifyMinor_apart _ _ (hnext hn), hstart]
    · rw [if_neg hn, hstart]

theorem Stored.minor_eq {B : MajorBlock} (hs : Stored h.memory B) (hB : B.minors = l ++ c :: r) :
    h.minor c.addr = ⟨(prevOf l).getD 0, (nextOf r).getD 0, B.addr, LIBALLOC_MAGIC, c.size,
      c.reqSize⟩ := by
  have hh := hs.holds c (by simp [hB])
  exact Minor.ext (hs.prev_eq hB) (hs.next_eq hB) hh.block hh.magic hh.size hh.reqSize

/-- A minor is taken out of its major. -/
theorem Stored.unlinkMinor (hs : Stored h.memory ⟨a, n, l ++ c :: r⟩) (ha : 0 < a)
    (hn : a + n ≤ 2 ^ 32) :
    ∃ m', unlinkMinor h c.addr = { h with memory := m', inuse := h.inuse - c.size } ∧
      Stored m' ⟨a, n, l ++ r⟩ ∧ Edits h.memory m' a n ∧
      SameData h.memory m' (l ++ c :: r) := by
  have ho : MajorBlock.InOrder ⟨a, n, l ++ c :: r⟩ := hs.inOrder
  have hmem : c ∈ (⟨a, n, l ++ c :: r⟩ : MajorBlock).minors := by simp
  have hcb : a + 24 ≤ c.addr ∧ c.addr + 24 + c.size ≤ a + n := ho.bounds hmem
  have hsize : ∀ d ∈ (⟨a, n, l ++ c :: r⟩ : MajorBlock).minors, 6 ≤ d.size := fun d hd => by
    have := (hs.holds d hd).fits
    simp only [ALIGNMENT, ALIGN_INFO] at this
    omega
  have hprev : ∀ x, prevOf l = some x → 0 < x ∧ ∃ d ∈ l ++ c :: r, d.addr = x :=
    neighbour_mem ho ha fun x hx => by simp [prevOf_mem hx]
  have hnext : ∀ x, nextOf r = some x → 0 < x ∧ ∃ d ∈ l ++ c :: r, d.addr = x :=
    neighbour_mem ho ha fun x hx => by simp [nextOf_mem hx]
  have hlt : ∀ o : Option ℕ, (∀ x, o = some x → 0 < x ∧ ∃ d ∈ l ++ c :: r, d.addr = x) →
      o.getD 0 < 2 ^ 32 := fun o hmem => by
    cases o with
    | none => simp
    | some x =>
      obtain ⟨-, d, hd, rfl⟩ := hmem x rfl
      have := ho.bounds (c := d) hd
      dsimp only at this
      exact show d.addr < 2 ^ 32 by omega
  have hminor : h.minor c.addr = _ := hs.minor_eq (l := l) (r := r) rfl
  -- the count of the major
  have husage : sub32 (majorLayout.get h.memory a).usage (add32 c.size sizeofMinor) =
      (majorLayout.get h.memory a).usage - c.len := by
    have hle := ho.usage_le
    have := hs.usage
    have hlen : c.len = c.size + sizeofMinor := Nat.add_comm _ _
    simp only [MajorBlock.usage, List.map_append, List.sum_append, List.map_cons,
      List.sum_cons] at this hle
    have hsmall := majorLayout.fits_get h.memory a
    rw [fits_major] at hsmall
    rw [add32_of_lt (a := c.size) (by rw [sizeofMinor]; omega), hlen,
      sub32_of_le hsmall.2.2.2.2.1 (by omega)]
  obtain ⟨m₁, e₁, v₁⟩ := Views.modifyMajor (h := { h with inuse := h.inuse - c.size })
    (Views.start h.memory ⟨a, n, l ++ c :: r⟩) ho
    (φ := fun M => { M with usage := sub32 M.usage (add32 c.size sizeofMinor) }) (by
      have hfits := majorLayout.fits_get h.memory a
      rw [fits_major] at hfits ⊢
      exact ⟨hfits.1, hfits.2.1, hfits.2.2.1, hfits.2.2.2.1, Nat.mod_lt _ (by norm_num),
        hfits.2.2.2.2.2⟩)
  change _ = ({ h with memory := m₁, inuse := h.inuse - c.size } : Heap) at e₁
  -- the minor itself
  obtain ⟨m₂, e₂, v₂⟩ : ∃ m₂,
      ({ h with memory := m₁, inuse := h.inuse - c.size } : Heap).modifyMinor c.addr
          (fun m => { m with magic := LIBALLOC_DEAD }) =
        { h with memory := m₂, inuse := h.inuse - c.size } ∧
      Views h.memory m₂ ⟨a, n, l ++ c :: r⟩ _ (Function.update (minorLayout.get h.memory) c.addr
        { minorLayout.get h.memory c.addr with magic := LIBALLOC_DEAD }) _ := by
    refine ⟨_, ?_, v₁.putMinor ho hsize hmem ?_⟩
    · unfold Heap.modifyMinor Heap.setMinor Heap.minor
      dsimp only
      rw [v₁.minor c hmem]
    · have hfits := minorLayout.fits_get h.memory c.addr
      rw [fits_minor] at hfits ⊢
      exact ⟨hfits.1, hfits.2.1, hfits.2.2.1, by norm_num [LIBALLOC_DEAD], hfits.2.2.2.2⟩
  -- its neighbours
  obtain ⟨m₃, e₃, v₃⟩ := Views.modifyMinor (h := { h with memory := m₂, inuse := h.inuse - c.size })
    v₂ ho hsize hnext (φ := fun m => { m with prev := (prevOf l).getD 0 }) fun x hx => by
      rw [fits_minor] at hx ⊢
      exact ⟨hlt _ hprev, hx.2⟩
  change _ = ({ h with memory := m₃, inuse := h.inuse - c.size } : Heap) at e₃
  obtain ⟨m₄, e₄, v₄⟩ := Views.modifyBefore
    (h := { h with memory := m₃, inuse := h.inuse - c.size }) v₃ ho hsize hprev (hlt _ hnext)
  change _ = ({ h with memory := m₄, inuse := h.inuse - c.size } : Heap) at e₄
  have hunlinked : Liballoc.unlinkMinor h c.addr =
      { h with memory := m₄, inuse := h.inuse - c.size } := by
    unfold Liballoc.unlinkMinor
    rw [hminor]
    dsimp only
    rw [e₁, e₂, e₃, ← e₄]
    by_cases hp : (prevOf l).getD 0 = 0
    · rw [if_neg (not_not.mpr hp), if_pos hp, if_neg (not_not.mpr hp)]
    · rw [if_pos hp, if_neg hp, if_pos hp]
  have hnodup := ho.nodup
  dsimp only at hnodup
  rw [List.map_append, List.map_cons, List.nodup_middle, List.nodup_cons,
    ← List.map_append] at hnodup
  have hne : ∀ d ∈ l ++ r, d.addr ≠ c.addr := fun d hd hdc =>
    hnodup.1 (hdc ▸ List.mem_map_of_mem hd)
  refine ⟨m₄, hunlinked, hs.remove v₄ ha ?_ (fun d hd => ?_) fun d hd => rfl,
    ⟨by rw [v₄.major], by rw [v₄.major], v₄.outside⟩, fun d hd b hb hdlt => ?_⟩
  · dsimp only
    rw [husage]
    cases l with
    | nil => rfl
    | cons d l => rw [if_neg (by simp [prevOf]), if_neg (List.cons_ne_nil d l)]
  · rw [Function.update_of_ne (hne d hd)]
    split_ifs <;> rfl
  · have hno := ho.not_header hsize hd hb hdlt
    have hfar : ∀ x, 0 < x ∧ (∃ e ∈ l ++ c :: r, e.addr = x) → b < x ∨ x + 24 ≤ b := by
      rintro x ⟨-, e, he, rfl⟩
      by_contra hin
      have := e.ptr_bounds
      exact hno (.inr ⟨e, he, by omega⟩)
    have hmemory := unlinkMinor_apart h c.addr (b := b) ?_ ?_ ?_
      (hfar c.addr ⟨by omega, c, hmem, rfl⟩)
    · rwa [hunlinked] at hmemory
    · rw [hminor]
      by_contra hin
      exact hno (.inl (by dsimp only at hin ⊢; omega))
    · rw [hminor]
      intro h0
      cases hx : prevOf l with
      | none => exact absurd (congrArg (·.getD 0) hx) h0
      | some x => exact hfar x (hprev x hx)
    · rw [hminor]
      intro h0
      cases hx : nextOf r with
      | none => exact absurd (congrArg (·.getD 0) hx) h0
      | some x => exact hfar x (hnext x hx)

end Unlink

namespace Majors
variable {h : Heap} {m : Bytes} {G G' : List MajorBlock}

theorem sublist (hr : Majors m G) (hs : G'.Sublist G) : Majors m G' :=
  ⟨fun B hB => hr.stored B (hs.subset hB), hr.live.sublist (hs.map _)⟩

/-- A pointer that may be `NULL` is followed to a major, whose links are changed. -/
theorem follow (hr : Majors h.memory G) {o : Option ℕ}
    (ho : ∀ x, o = some x → 0 < x ∧ ∃ A ∈ G, A.addr = x) {φ : Major → Major}
    (hφ : ∀ M, (φ M).size = M.size ∧ (φ M).pages = M.pages ∧ (φ M).usage = M.usage ∧
      (φ M).first = M.first)
    (hfits : ∀ M, majorLayout.Fits M → majorLayout.Fits (φ M)) :
    ∃ m', (if o.getD 0 ≠ 0 then h.modifyMajor (o.getD 0) φ else h) = { h with memory := m' } ∧
      Majors m' G ∧
      (∀ A ∈ G, majorLayout.get m' A.addr = if o = some A.addr
        then φ (majorLayout.get h.memory A.addr) else majorLayout.get h.memory A.addr) ∧
      SameData h.memory m' (cells G) := by
  cases o with
  | none => exact ⟨h.memory, rfl, hr, fun A hA => by rw [if_neg nofun], .refl _ _⟩
  | some x =>
    obtain ⟨hpos, B, hB, rfl⟩ := ho x rfl
    obtain ⟨m', he, hm', hget, hfar⟩ := hr.modify hB hφ (hfits _ (majorLayout.fits_get _ _))
    refine ⟨m', ?_, hm', fun A hA => ?_, fun c hc b hb hlt => ?_⟩
    · rw [if_pos (by simpa using hpos.ne')]
      exact he
    · rw [hget A hA]
      simp only [Option.some.injEq, eq_comm]
    · obtain ⟨A, hA, hcA⟩ := mem_cells.mp hc
      exact hfar b (hr.data_clear hA hB hcA hb hlt).2.2

end Majors

namespace Represents
variable {h : Heap} {G G₁ G₂ : List MajorBlock} {B : MajorBlock} {c : Cell}

/-- A major without minors leaves the list, and its pages go back. -/
theorem releaseMajor (hr : Represents h (G₁ ++ B :: G₂)) (hempty : B.minors = []) :
    ∃ h', releaseMajor h B.addr = .ok h' ∧ Represents h' (G₁ ++ G₂) ∧
      SameData h.memory h'.memory (cells (G₁ ++ G₂)) := by
  have hB : B ∈ G₁ ++ B :: G₂ := by simp
  have hsub : (G₁ ++ G₂).Sublist (G₁ ++ B :: G₂) := (List.sublist_cons_self B G₂).append_left G₁
  have hnodup := hr.nodup
  rw [List.map_append, List.map_cons] at hnodup
  set before := (G₁.map MajorBlock.addr).getLast? with hbefore
  set behind := (G₂.map MajorBlock.addr).head? with hbehind
  have hprev : (h.major B.addr).prev = before.getD 0 := hr.prev_eq
  have hnext : (h.major B.addr).next = behind.getD 0 := hr.next_eq
  have hmem : ∀ x ∈ (G₁ ++ G₂).map MajorBlock.addr, 0 < x ∧ x < 2 ^ 32 ∧
      ∃ A ∈ G₁ ++ B :: G₂, A.addr = x := fun x hx => by
    obtain ⟨A, hA, rfl⟩ := List.mem_map.mp hx
    have hA' := hsub.subset hA
    have := hr.inside hA'
    have := hr.le_size hA'
    exact ⟨by omega, by omega, A, hA', rfl⟩
  have hbefore' : ∀ x, before = some x → 0 < x ∧ x < 2 ^ 32 ∧ ∃ A ∈ G₁ ++ B :: G₂, A.addr = x :=
    fun x hx => hmem x (by simp [List.mem_of_getLast? hx])
  have hbehind' : ∀ x, behind = some x → 0 < x ∧ x < 2 ^ 32 ∧ ∃ A ∈ G₁ ++ B :: G₂, A.addr = x :=
    fun x hx => hmem x (by simp [List.mem_of_mem_head? hx])
  have hsmall : ∀ o : Option ℕ, (∀ x, o = some x → 0 < x ∧ x < 2 ^ 32 ∧
      ∃ A ∈ G₁ ++ B :: G₂, A.addr = x) → o.getD 0 < 2 ^ 32 := fun o ho => by
    cases o with
    | none => simp
    | some x => exact (ho x rfl).2.1
  set root := if h.memRoot = B.addr then behind.getD 0 else h.memRoot with hroot
  set bet := if h.bestBet = B.addr then 0 else h.bestBet with hbet
  -- the neighbours
  obtain ⟨m₁, e₁, hm₁, hget₁, hdata₁⟩ := Majors.follow
    (h := { h with memRoot := root, bestBet := bet }) hr.toMajors (o := before)
    (fun x hx => ⟨(hbefore' x hx).1, (hbefore' x hx).2.2⟩)
    (φ := fun M => { M with next := behind.getD 0 }) (fun _ => ⟨rfl, rfl, rfl, rfl⟩)
    fun M hM => by
      rw [fits_major] at hM ⊢
      exact ⟨hM.1, hsmall _ hbehind', hM.2.2⟩
  obtain ⟨m₂, e₂, hm₂, hget₂, hdata₂⟩ := Majors.follow
    (h := { h with memory := m₁, memRoot := root, bestBet := bet }) hm₁ (o := behind)
    (fun x hx => ⟨(hbehind' x hx).1, (hbehind' x hx).2.2⟩)
    (φ := fun M => { M with prev := before.getD 0 }) (fun _ => ⟨rfl, rfl, rfl, rfl⟩)
    fun M hM => by
      rw [fits_major] at hM ⊢
      exact ⟨hsmall _ hbefore', hM.2⟩
  change _ = ({ h with memory := m₁, memRoot := root, bestBet := bet } : Heap) at e₁
  change _ = ({ h with memory := m₂, memRoot := root, bestBet := bet } : Heap) at e₂
  have hpages : (h.major B.addr).pages * pageSize = B.size := (hr.stored B hB).pages
  have hsize : (h.major B.addr).size = B.size := (hr.stored B hB).size
  have hmine : (B.addr, B.size) ∈ h.pages := hr.pages.mem_iff.mpr (List.mem_map_of_mem hB)
  have hreleased : Liballoc.releaseMajor h B.addr = .ok { h with
      memory := m₂, memRoot := root, bestBet := bet, allocated := h.allocated - B.size,
      pages := h.pages.erase (B.addr, B.size) } := by
    have hroots : (if h.memRoot = B.addr then { h with memRoot := behind.getD 0 } else h) =
        { h with memRoot := root } := by
      rw [hroot]
      split_ifs <;> rfl
    have hbets : (if h.bestBet = B.addr then { h with memRoot := root, bestBet := 0 }
        else { h with memRoot := root }) = { h with memRoot := root, bestBet := bet } := by
      rw [hbet]
      split_ifs <;> rfl
    unfold Liballoc.releaseMajor liballocFree
    dsimp only
    rw [hprev, hnext, hsize, hpages, hroots]
    dsimp only
    rw [hbets, e₁, e₂]
    dsimp only
    rw [if_pos hmine]
  refine ⟨_, hreleased, ⟨hm₂.sublist hsub, ?_, ?_, ?_, ?_, ?_, ?_⟩, fun d hd => ?_⟩
  · cases G₁ with
    | nil =>
      have h0 : h.memRoot = B.addr := hr.root_eq
      dsimp only
      rw [hroot, if_pos h0]
      exact pointer_getD fun x hx => (hbehind' x hx).1
    | cons A G₁ =>
      have h0 : h.memRoot = A.addr := root_eq (R := G₁ ++ B :: G₂) hr
      have hne : A.addr ≠ B.addr := fun he => by
        have := (List.nodup_cons.mp hnodup).1
        simp [he] at this
      dsimp only
      rw [hroot, if_neg (h0 ▸ hne), h0]
      exact pointer_of_pos (hr.inside (B := A) (by simp)).1
  · have hchain := hr.chain
    rw [List.map_append, List.map_cons] at hchain
    rw [List.map_append]
    refine hchain.unlink hnodup (fun x hx => ?_) fun x hx => ?_
    · rw [← List.map_append] at hx
      obtain ⟨-, -, A, hA, rfl⟩ := hmem x hx
      rw [nextMajor, nextMajor, hget₂ A hA, hget₁ A hA, Option.or_none, ← hbefore, ← hbehind]
      split_ifs
      all_goals first | exact pointer_getD fun x hx => (hbehind' x hx).1 | rfl
    · rw [← List.map_append] at hx
      obtain ⟨-, -, A, hA, rfl⟩ := hmem x hx
      rw [prevMajor, prevMajor, hget₂ A hA, hget₁ A hA, Option.or_none, ← hbefore, ← hbehind]
      split_ifs
      all_goals first | exact pointer_getD fun x hx => (hbefore' x hx).1 | rfl
  · have hperm : ((G₁ ++ B :: G₂).map MajorBlock.extent).Perm
        (B.extent :: (G₁ ++ G₂).map MajorBlock.extent) :=
      List.Perm.map _ List.perm_middle
    have herase := (hr.pages.trans hperm).erase B.extent
    rwa [List.erase_cons_head] at herase
  · have := hr.allocated
    simp only [List.map_append, List.map_cons, List.sum_append, List.sum_cons] at this ⊢
    push_cast at this ⊢
    omega
  · have := hr.inuse
    have hnone : B.inuse = 0 := by
      unfold MajorBlock.inuse
      rw [hempty]
      rfl
    simp only [List.map_append, List.map_cons, List.sum_append, List.sum_cons, hnone] at this ⊢
    push_cast at this ⊢
    omega
  · dsimp only
    rw [hbet]
    split_ifs with hb
    · exact .inl rfl
    · refine hr.best.imp_right fun hbest => ?_
      rw [List.map_append, List.map_cons, List.mem_append, List.mem_cons] at hbest
      rw [List.map_append, List.mem_append]
      tauto
  · refine (hdata₁.trans hdata₂) d ?_
    obtain ⟨A, hA, hdA⟩ := mem_cells.mp hd
    exact mem_cells.mpr ⟨A, hsub.subset hA, hdA⟩

theorem improveBet (hr : Represents h G) (hB : B ∈ G) :
    Represents (improveBet h B.addr) G ∧ Rebet h (improveBet h B.addr) := by
  unfold Liballoc.improveBet
  split_ifs
  · exact ⟨hr.bet hB, B.addr, rfl⟩
  · exact ⟨hr, .refl h⟩

/-- The header of a live minor is found again from its pointer. -/
theorem min_eq (hr : Represents h G) (hc : c ∈ cells G) :
    sub32 (unalign h.memory c.ptr) sizeofMinor = c.addr ∧ (h.minor c.addr).magic = LIBALLOC_MAGIC ∧
      (h.minor c.addr).reqSize = c.reqSize := by
  obtain ⟨B, hB, hcB⟩ := mem_cells.mp hc
  have hh := (hr.stored B hB).holds c hcB
  have hb := (hr.stored B hB).inOrder.bounds hcB
  have hin := hr.inside hB
  have hfits := hh.fits
  simp only [ALIGNMENT, ALIGN_INFO] at hfits
  refine ⟨?_, hh.magic, hh.reqSize⟩
  rw [unalign_eq hh (by omega), sub32_of_le (by rw [sizeofMinor]; omega) (by omega)]
  exact Nat.add_sub_cancel _ _

/-- A live minor is given back. -/
theorem laFree_eq (hr : Represents h G) (hc : c ∈ cells G) :
    ∃ h' G', laFree h c.ptr = .ok h' ∧ Represents h' G' ∧ (cells G).Perm (c :: cells G') ∧
      SameData h.memory h'.memory (cells G') := by
  obtain ⟨hmin, hmagic, -⟩ := hr.min_eq hc
  obtain ⟨B, hB, hcB⟩ := mem_cells.mp hc
  obtain ⟨G₁, G₂, rfl⟩ := List.append_of_mem hB
  obtain ⟨a, n, minors⟩ := B
  obtain ⟨l, r, rfl⟩ : ∃ l r, minors = l ++ c :: r := List.append_of_mem hcB
  have hin := hr.inside hB
  obtain ⟨m', hunlink, hstored, hedits, hdata⟩ := (hr.stored _ hB).unlinkMinor hin.1 hin.2
  have hinuse : (MajorBlock.inuse ⟨a, n, l ++ r⟩ : ℤ) =
      MajorBlock.inuse ⟨a, n, l ++ c :: r⟩ + -(c.size : ℤ) := by
    simp only [MajorBlock.inuse, List.map_append, List.map_cons, List.sum_append, List.sum_cons]
    push_cast
    omega
  have hr₁ := hr.edit hstored hedits hinuse
  rw [← sub_eq_add_neg] at hr₁
  have hperm : (cells (G₁ ++ ⟨a, n, l ++ c :: r⟩ :: G₂)).Perm
      (c :: cells (G₁ ++ ⟨a, n, l ++ r⟩ :: G₂)) := by
    have hcells : ∀ minors, cells (G₁ ++ ⟨a, n, minors⟩ :: G₂) =
        cells G₁ ++ (minors ++ cells G₂) := fun minors => by simp [cells]
    rw [hcells, hcells, List.append_assoc, List.cons_append, List.append_assoc, ← List.append_assoc,
      ← List.append_assoc]
    exact List.perm_middle
  have hkept : SameData h.memory m' (cells (G₁ ++ ⟨a, n, l ++ r⟩ :: G₂)) := by
    intro d hd b hb hlt
    obtain ⟨A, hA, hdA⟩ := mem_cells.mp (hperm.mem_iff.mpr (List.mem_cons_of_mem c hd))
    by_cases hAB : A.addr = a
    · obtain rfl := hr.addr_inj hA hB hAB
      exact hdata d hdA b hb hlt
    · obtain ⟨hb₀, hb₁, -⟩ := hr.data_clear hA hB hdA hb hlt
      have hap := hr.apart hA hB hAB
      unfold Clear at hap
      exact hedits.outside b (by dsimp only at hap; omega)
  have hfree : laFree h c.ptr =
      if (({ h with memory := m', inuse := h.inuse - c.size } : Heap).major a).first = 0 then
        Liballoc.releaseMajor { h with memory := m', inuse := h.inuse - c.size } a
      else .ok (Liballoc.improveBet { h with memory := m', inuse := h.inuse - c.size } a) := by
    have hblock : (h.minor c.addr).block = a := ((hr.stored _ hB).holds c hcB).block
    unfold laFree
    dsimp only
    rw [if_neg c.ptr_pos.ne', hmin, if_neg (not_not.mpr hmagic), hunlink, hblock]
  have hfirst : (({ h with memory := m', inuse := h.inuse - c.size } : Heap).major a).first =
      (nextOf (l ++ r)).getD 0 := hstored.first_eq
  rw [hfree, hfirst]
  cases hlr : l ++ r with
  | nil =>
    have hnone : (nextOf []).getD 0 = 0 := rfl
    rw [if_pos hnone]
    rw [hlr] at hr₁ hperm hkept
    obtain ⟨h', hrel, hr', hdata'⟩ := hr₁.releaseMajor rfl
    have hcells : cells (G₁ ++ ⟨a, n, []⟩ :: G₂) = cells (G₁ ++ G₂) := by simp [cells]
    rw [hcells] at hperm hkept
    exact ⟨h', _, hrel, hr', hperm, hkept.trans hdata'⟩
  | cons d rest =>
    have hpos : (nextOf (d :: rest)).getD 0 ≠ 0 := by
      have := Stored.addr_pos hstored.inOrder hin.1 (x := d.addr) (by simp [hlr])
      exact this.ne'
    rw [if_neg hpos]
    obtain ⟨hr', hbet⟩ := hr₁.improveBet (B := ⟨a, n, l ++ r⟩) (by simp)
    exact ⟨_, _, rfl, hr', hperm, hkept.trans (hbet.sameData _)⟩

end Represents
end Racoon.Liballoc
