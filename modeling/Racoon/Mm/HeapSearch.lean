import Racoon.Mm.HeapRounds

/-!
# The search for room

A request is served from the first gap that is large enough, beginning at the
best bet. `liballoc_alloc` is asked only when no major has such a gap, and then
once. `ahead` are the majors that the loop has still to come by.
-/

namespace Racoon.Liballoc
open Lib

namespace Represents
variable {h : Heap} {G L R : List MajorBlock} {A B : MajorBlock} {size reqSize w : ℕ}

/-- The majors that the loop comes by: the rest of the list and, if the search has started at the
best bet, the whole list once more. -/
def ahead (G R : List MajorBlock) (startedBet : Bool) : List MajorBlock :=
  R ++ if startedBet then G else []

theorem root_eq (hr : Represents h (B :: R)) : h.memRoot = B.addr :=
  eq_getD_of_pointer hr.root

/-- A gap ahead of the loop is found, and `liballoc_alloc` not asked. -/
theorem search_finds (hw : add32 size sizeofMinor = w) (reqSize rounds : ℕ) :
    ∀ {h : Heap} {L R : List MajorBlock} {B : MajorBlock} (startedBet : Bool) (bestSize : ℕ),
      Represents h G → G = L ++ B :: R → (∃ A ∈ ahead G (B :: R) startedBet, A.HasGap w) →
      (ahead G (B :: R) startedBet).length ≤ rounds →
      ∃ h₁ A l r a, Spot h G w h₁ A l r a ∧ A ∈ ahead G (B :: R) startedBet ∧ ∀ liballocAlloc,
        searchMajors liballocAlloc size reqSize rounds h B.addr startedBet bestSize =
          .ok (filled h₁ A l r a size reqSize) := by
  induction rounds with
  | zero =>
    intro h L R B startedBet bestSize _ _ _ hlen
    simp [ahead] at hlen
  | succ rounds ih =>
    intro h L R B startedBet bestSize hr hG hgap hlen
    have hBG : B ∈ G := by simp [hG]
    obtain ⟨h₁, best', hr₁, hbet, hround, -⟩ := hr.round_eq hBG size reqSize bestSize
    by_cases hB : B.HasGap w
    · obtain ⟨l, r, a, hfree, hexamine⟩ := hr₁.examine_gap hBG hw reqSize hB
      refine ⟨h₁, B, l, r, a, ⟨hr₁, hbet, hBG, hfree⟩, List.mem_cons_self, fun liballocAlloc => ?_⟩
      rw [hround, hexamine]
      rfl
    · subst hG
      obtain ⟨A, hA, hgapA⟩ := hgap
      have hA : A ∈ ahead (L ++ B :: R) R startedBet := by
        rcases List.mem_cons.mp (show A ∈ B :: ahead _ R startedBet from hA) with rfl | hA
        · exact (hB hgapA).elim
        · exact hA
      have hlen : (ahead (L ++ B :: R) R startedBet).length ≤ rounds := by
        simpa [ahead] using hlen
      cases R with
      | cons C R =>
        obtain ⟨h₂, D, l, r, a, hspot, hD, hsearch⟩ :=
          ih (L := L ++ [B]) startedBet best' hr₁ (by simp) ⟨A, hA, hgapA⟩ hlen
        refine ⟨h₂, D, l, r, a, hspot.after hbet, List.mem_cons_of_mem B hD,
          fun liballocAlloc => ?_⟩
        rw [hround, hr₁.examine_next hw reqSize hB]
        exact hsearch liballocAlloc
      | nil =>
        cases startedBet with
        | false => simp [ahead] at hA
        | true =>
          obtain ⟨C, R, hC⟩ := List.exists_cons_of_ne_nil (List.append_ne_nil_of_right_ne_nil L
            (List.cons_ne_nil B []))
          have hagain : ahead (L ++ [B]) (C :: R) false = ahead (L ++ [B]) [] true := by
            simp [ahead, hC]
          obtain ⟨h₂, D, l, r, a, hspot, hD, hsearch⟩ := ih (L := []) false best' hr₁ hC
            ⟨A, hagain ▸ hA, hgapA⟩ (hagain ▸ hlen)
          rw [hagain] at hD
          have hroot : h₁.memRoot = C.addr := root_eq (R := R) (hC ▸ hr₁)
          refine ⟨h₂, D, l, r, a, hspot.after hbet, List.mem_cons_of_mem B hD,
            fun liballocAlloc => ?_⟩
          rw [hround, hr₁.examine_restart hw reqSize hB, hroot]
          exact hsearch liballocAlloc

/-- With no gap ahead the loop comes to the last major of the last walk. -/
theorem search_ends (liballocAlloc : List Block → ℕ → Option ℕ) (hw : add32 size sizeofMinor = w)
    (reqSize rounds : ℕ) :
    ∀ {h : Heap} {L R : List MajorBlock} {B : MajorBlock} (startedBet : Bool) (bestSize : ℕ),
      Represents h G → G = L ++ B :: R → (∀ A ∈ ahead G (B :: R) startedBet, ¬ A.HasGap w) →
      (ahead G (B :: R) startedBet).length < rounds →
      ∃ h₁ L' A rounds' best', G = L' ++ [A] ∧ ¬ A.HasGap w ∧ Represents h₁ G ∧ Rebet h h₁ ∧
        searchMajors liballocAlloc size reqSize rounds h B.addr startedBet bestSize =
          examine liballocAlloc size reqSize h₁ A.addr false (A.size - A.usage) >>=
            Turn.resume fun h maj startedBet =>
              searchMajors liballocAlloc size reqSize (rounds' + 1) h maj startedBet best' := by
  induction rounds with
  | zero =>
    intro h L R B startedBet bestSize _ _ _ hlen
    simp [ahead] at hlen
  | succ rounds ih =>
    intro h L R B startedBet bestSize hr hG hgap hlen
    obtain ⟨h₁, best', hr₁, hbet, hround, -⟩ :=
      hr.round_eq (B := B) (by simp [hG]) size reqSize bestSize
    subst hG
    have hB : ¬ B.HasGap w := hgap B (by simp [ahead])
    have hgap : ∀ A ∈ ahead (L ++ B :: R) R startedBet, ¬ A.HasGap w := fun A hA =>
      hgap A (List.mem_cons_of_mem B hA)
    have hlen : (ahead (L ++ B :: R) R startedBet).length < rounds := by
      simpa [ahead] using hlen
    cases R with
    | cons C R =>
      obtain ⟨h₂, L', A, rounds', best₂, hend, hA, hr₂, hbet₂, hsearch⟩ :=
        ih (L := L ++ [B]) startedBet best' hr₁ (by simp) hgap hlen
      refine ⟨h₂, L', A, rounds', best₂, hend, hA, hr₂, hbet.trans hbet₂, ?_⟩
      rw [hround, hr₁.examine_next hw reqSize hB]
      exact hsearch
    | nil =>
      cases startedBet with
      | false =>
        obtain ⟨k, rfl⟩ := Nat.exists_eq_add_one_of_ne_zero (Nat.ne_zero_of_lt hlen)
        exact ⟨h₁, L, B, k, best', rfl, hB, hr₁, hbet, hround _ _ _⟩
      | true =>
        obtain ⟨C, R, hC⟩ := List.exists_cons_of_ne_nil (List.append_ne_nil_of_right_ne_nil L
          (List.cons_ne_nil B []))
        have hagain : ahead (L ++ [B]) (C :: R) false = ahead (L ++ [B]) [] true := by
          simp [ahead, hC]
        have hroot : h₁.memRoot = C.addr := root_eq (R := R) (hC ▸ hr₁)
        obtain ⟨h₂, L', A, rounds', best₂, hend, hA, hr₂, hbet₂, hsearch⟩ :=
          ih (L := []) false best' hr₁ hC (hagain ▸ hgap) (hagain ▸ hlen)
        refine ⟨h₂, L', A, rounds', best₂, hend, hA, hr₂, hbet.trans hbet₂, ?_⟩
        rw [hround, hr₁.examine_restart hw reqSize hB, hroot]
        exact hsearch

theorem examined_gap (hr : Represents h G) (hB : B ∈ G) (hw : add32 size sizeofMinor = w)
    (reqSize : ℕ) (hgap : B.HasGap w) (liballocAlloc : List Block → ℕ → Option ℕ)
    (startedBet : Bool) (bestSize rounds : ℕ) :
    (examined liballocAlloc size reqSize rounds h B.addr startedBet bestSize).Sublist
      [B.addr] := by
  cases rounds with
  | zero => exact List.nil_sublist _
  | succ rounds =>
    obtain ⟨h₁, best', hr₁, -, -, hround⟩ := hr.round_eq hB size reqSize bestSize
    obtain ⟨l, r, a, -, hexamine⟩ := hr₁.examine_gap hB hw reqSize hgap
    rw [hround, hexamine]
    exact List.Sublist.refl _

/-- With no gap ahead the search asks for a new major, and fills a gap of it. -/
theorem search_extends {liballocAlloc : List Block → ℕ → Option ℕ} (hg : PageGrants liballocAlloc)
    (hr : Represents h G) (hG : G = L ++ B :: R) (hw : add32 size sizeofMinor = w) (reqSize : ℕ)
    {startedBet : Bool} (hno : ∀ A ∈ ahead G (B :: R) startedBet, ¬ A.HasGap w) {rounds : ℕ}
    (hlen : (ahead G (B :: R) startedBet).length < rounds) (bestSize : ℕ) :
    ∃ h', SameData h.memory h'.memory (cells G) ∧
      (searchMajors liballocAlloc size reqSize rounds h B.addr startedBet bestSize = .ok (h', 0) ∧
          Refused liballocAlloc h h' size ∧ Represents h' G ∨
        ∃ N, Extended liballocAlloc h h' G N size reqSize w
          (searchMajors liballocAlloc size reqSize rounds h B.addr startedBet bestSize)) := by
  obtain ⟨h₁, L', A, rounds', best', rfl, hA, hr₁, hbet, hsearch⟩ :=
    search_ends liballocAlloc hw reqSize rounds startedBet bestSize hr hG hno hlen
  rw [hsearch]
  obtain ⟨h', hdata, ⟨hexamine, href, hr'⟩ | ⟨N, hnew, hr', hexamine⟩⟩ :=
    hr₁.examine_last hg hw reqSize hA
  · refine ⟨h', hbet.memory ▸ hdata, .inl ⟨?_, hbet.refused href, hr'⟩⟩
    rw [hexamine]
    rfl
  · refine ⟨h', hbet.memory ▸ hdata, .inr ⟨N, hbet.unasked.granted hnew, hr', fun hgap => ?_,
      fun h'' p hfound => ?_⟩⟩
    · have hN : N ∈ L' ++ [A] ++ [N] := by simp
      rw [hexamine]
      by_cases hdiff : A.size - A.usage < w
      · rw [if_pos hdiff]
        rcases hr'.place_cases hN hw reqSize ((hr'.stored N hN).inOrder.room hgap) with
          ⟨-, hfull⟩ | ⟨l, r, a, hfree, hplace⟩
        · exact (hfull hgap).elim
        · refine ⟨h', l, r, a, ⟨hr', .refl h', hN, hfree⟩, ?_⟩
          rw [hplace]
          rfl
      · rw [if_neg hdiff]
        obtain ⟨h₂, D, l, r, a, hspot, hD, hfound⟩ := search_finds (R := []) hw reqSize
          (rounds' + 1) false best' hr' rfl ⟨N, by simp [ahead], hgap⟩ (by simp [ahead])
        obtain rfl : D = N := by simpa [ahead] using hD
        exact ⟨h₂, l, r, a, hspot, hfound liballocAlloc⟩
    · obtain ⟨turn, hturn, hfound⟩ := bind_eq_ok.mp hfound
      rw [hexamine] at hturn
      refine Grown.trans ?_ (hg.resume hfound)
      split_ifs at hturn
      · exact hg.placed hturn
      · cases hturn
        exact .refl h'

/-- The loop comes by each major as often as it is ahead, and by a new one once. -/
theorem count_examined {liballocAlloc : List Block → ℕ → Option ℕ} (hg : PageGrants liballocAlloc)
    (hsize : size + 48 < 2 ^ 32) (reqSize rounds a : ℕ) :
    ∀ {h : Heap} {L R : List MajorBlock} {B : MajorBlock} (startedBet : Bool) (bestSize : ℕ),
      Represents h G → G = L ++ B :: R →
      (examined liballocAlloc size reqSize rounds h B.addr startedBet bestSize).count a ≤
        ((ahead G (B :: R) startedBet).map MajorBlock.addr).count a +
          if a ∈ G.map MajorBlock.addr then 0 else 1 := by
  have hw : add32 size sizeofMinor = size + 24 := add32_of_lt (by rw [sizeofMinor]; omega)
  induction rounds with
  | zero =>
    intro h L R B startedBet bestSize _ _
    exact Nat.zero_le _
  | succ rounds ih =>
    intro h L R B startedBet bestSize hr hG
    have hBG : B ∈ G := by simp [hG]
    obtain ⟨h₁, best', hr₁, -, -, hround⟩ := hr.round_eq hBG size reqSize bestSize
    subst hG
    have hahead : ahead (L ++ B :: R) (B :: R) startedBet = B :: ahead (L ++ B :: R) R startedBet :=
      rfl
    rw [hround, hahead, List.map_cons, List.count_cons, List.count_cons]
    suffices hrest : (walkOn (fun h maj startedBet =>
          examined liballocAlloc size reqSize rounds h maj startedBet best')
        (examine liballocAlloc size reqSize h₁ B.addr startedBet (B.size - B.usage))).count a ≤
        ((ahead (L ++ B :: R) R startedBet).map MajorBlock.addr).count a +
          if a ∈ (L ++ B :: R).map MajorBlock.addr then 0 else 1 by omega
    by_cases hB : B.HasGap (size + 24)
    · obtain ⟨l, r, p, -, hexamine⟩ := hr₁.examine_gap hBG hw reqSize hB
      rw [hexamine]
      exact Nat.zero_le _
    · cases R with
      | cons C R =>
        rw [hr₁.examine_next hw reqSize hB]
        exact ih (L := L ++ [B]) startedBet best' hr₁ (by simp)
      | nil =>
        cases startedBet with
        | false =>
          obtain ⟨h', -, ⟨hexamine, -⟩ | ⟨N, hnew, hr', hexamine⟩⟩ :=
            hr₁.examine_last hg hw reqSize hB
          · rw [hexamine]
            exact Nat.zero_le _
          · have hN : N ∈ L ++ [B] ++ [N] := by simp
            have hgap : N.HasGap (size + 24) :=
              hasGap_of_empty hnew.minors (by have := hnew.room hsize; omega)
            rw [hexamine]
            by_cases hdiff : B.size - B.usage < size + 24
            · rw [if_pos hdiff]
              rcases hr'.place_cases hN hw reqSize ((hr'.stored N hN).inOrder.room hgap) with
                ⟨-, hfull⟩ | ⟨l, r, p, -, hplace⟩
              · exact (hfull hgap).elim
              · rw [hplace]
                exact Nat.zero_le _
            · have honce := (hr'.examined_gap hN hw reqSize hgap liballocAlloc false best'
                rounds).count_le a
              have hfresh : N.addr ∉ (L ++ [B]).map MajorBlock.addr := fun hmem => by
                obtain ⟨A, hA, he⟩ := List.mem_map.mp hmem
                exact @Majors.addr_ne _ _ [] N hr'.toMajors A (by simpa using hA) he.symm
              rw [if_neg hdiff]
              refine honce.trans (le_add_left ?_)
              split_ifs with ha
              · have hne : a ≠ N.addr := fun hea => hfresh (hea ▸ ha)
                exact (List.count_eq_zero.mpr (by rwa [List.mem_singleton])).le
              · exact List.count_le_length.trans_eq rfl
        | true =>
          obtain ⟨C, R, hC⟩ := List.exists_cons_of_ne_nil (List.append_ne_nil_of_right_ne_nil L
            (List.cons_ne_nil B []))
          have hagain : ahead (L ++ [B]) (C :: R) false = ahead (L ++ [B]) [] true := by
            simp [ahead, hC]
          have hroot : h₁.memRoot = C.addr := root_eq (R := R) (hC ▸ hr₁)
          rw [hr₁.examine_restart hw reqSize hB, hroot, ← hagain]
          exact ih (L := []) false best' hr₁ hC

/-- The search begins at the best bet or at the root, with every major ahead. -/
theorem searchStart_eq (hr : Represents h G) (hne : G ≠ []) (size : ℕ) :
    ∃ L B R, G = L ++ B :: R ∧ (searchStart size h).1 = B.addr ∧
      ∀ A ∈ G, A ∈ ahead G (B :: R) (searchStart size h).2.1 := by
  unfold searchStart
  dsimp only
  by_cases hbet : h.bestBet ≠ 0 ∧ add32 size sizeofMinor <
      if h.bestBet ≠ 0 then sub32 (h.major h.bestBet).size (h.major h.bestBet).usage else 0
  · obtain ⟨B, hB, he⟩ := List.mem_map.mp (hr.best.resolve_left hbet.1)
    obtain ⟨L, R, hG⟩ := List.append_of_mem hB
    refine ⟨L, B, R, hG, ?_, fun A hA => ?_⟩
    · rw [if_pos hbet, he]
    · rw [decide_eq_true hbet]
      exact List.mem_append_right _ hA
  · obtain ⟨B, R, rfl⟩ := List.exists_cons_of_ne_nil hne
    refine ⟨[], B, R, rfl, ?_, fun A hA => ?_⟩
    · rw [if_neg hbet, hr.root_eq]
    · exact List.mem_append_left _ hA

theorem mem_of_ahead {startedBet : Bool} (hG : G = L ++ B :: R)
    (hA : A ∈ ahead G (B :: R) startedBet) : A ∈ G := by
  rcases List.mem_append.mp hA with hA | hA
  · rw [hG]
    exact List.mem_append_right L hA
  · cases startedBet with
    | false => cases hA
    | true => exact hA

theorem ahead_length_le {startedBet : Bool} (hG : G = L ++ B :: R) :
    (ahead G (B :: R) startedBet).length ≤ 2 * G.length := by
  have hlen : (B :: R).length ≤ G.length := by simp [hG]
  unfold ahead
  rw [List.length_append]
  cases startedBet with
  | false => exact le_trans (by simp) (Nat.mul_le_mul_left 2 hlen)
  | true =>
    rw [if_pos rfl]
    omega

theorem count_ahead_le (hr : Represents h G) {startedBet : Bool} (hG : G = L ++ B :: R) (a : ℕ) :
    ((ahead G (B :: R) startedBet).map MajorBlock.addr).count a +
      (if a ∈ G.map MajorBlock.addr then 0 else 1) ≤ 2 := by
  have hsub : ((B :: R).map MajorBlock.addr).Sublist (G.map MajorBlock.addr) :=
    (hG ▸ List.sublist_append_right L (B :: R)).map _
  have hrest : ((B :: R).map MajorBlock.addr).count a ≤ (G.map MajorBlock.addr).count a :=
    hsub.count_le a
  have hone : (G.map MajorBlock.addr).count a ≤ 1 := List.nodup_iff_count_le_one.mp hr.nodup a
  have hagain : (((if startedBet then G else []) : List MajorBlock).map MajorBlock.addr).count a ≤
      (G.map MajorBlock.addr).count a := by
    cases startedBet with
    | false => exact Nat.zero_le _
    | true => exact le_rfl
  unfold ahead
  rw [List.map_append, List.count_append]
  by_cases ha : a ∈ G.map MajorBlock.addr
  · rw [if_pos ha]
    omega
  · have hnone := List.count_eq_zero.mpr ha
    rw [if_neg ha]
    omega

section Whole
variable {liballocAlloc : List Block → ℕ → Option ℕ}

/-- The search over the majors that are there: it fills a gap, or asks once for a new major. -/
theorem search_cases (hg : PageGrants liballocAlloc) (hr : Represents h G) (hne : G ≠ [])
    (hw : add32 size sizeofMinor = w) (reqSize : ℕ) :
    (∃ h₁ A l r a, Spot h G w h₁ A l r a ∧
        ∀ other, search other size reqSize h = .ok (filled h₁ A l r a size reqSize)) ∨
      (¬ ∃ B ∈ G, B.HasGap w) ∧ ∃ h', SameData h.memory h'.memory (cells G) ∧
        (search liballocAlloc size reqSize h = .ok (h', 0) ∧ Refused liballocAlloc h h' size ∧
            Represents h' G ∨
          ∃ N, Extended liballocAlloc h h' G N size reqSize w
            (search liballocAlloc size reqSize h)) := by
  obtain ⟨L, B, R, hG, hstart, hall⟩ := hr.searchStart_eq hne size
  have hlen : (ahead G (B :: R) (searchStart size h).2.1).length < 2 * h.pages.length + 2 := by
    have hpages := hr.pages.length_eq
    rw [List.length_map] at hpages
    have hle : (ahead G (B :: R) (searchStart size h).2.1).length ≤ 2 * G.length :=
      ahead_length_le hG
    omega
  have hsearch : ∀ other, search other size reqSize h =
      searchMajors other size reqSize (2 * h.pages.length + 2) h B.addr (searchStart size h).2.1
        (searchStart size h).2.2 := fun other => by
    rw [search_eq, hstart]
  simp only [hsearch]
  by_cases hgap : ∃ B ∈ G, B.HasGap w
  · obtain ⟨A, hA, hgapA⟩ := hgap
    obtain ⟨h₁, D, l, r, a, hspot, -, hfound⟩ := search_finds hw reqSize _ _
      (searchStart size h).2.2 hr hG ⟨A, hall A hA, hgapA⟩ hlen.le
    exact .inl ⟨h₁, D, l, r, a, hspot, hfound⟩
  · exact .inr ⟨hgap, search_extends hg hr hG hw reqSize
      (fun A hA hgapA => hgap ⟨A, mem_of_ahead hG hA, hgapA⟩) hlen _⟩

theorem count_examinedFrom (hg : PageGrants liballocAlloc) (hr : Represents h G) (hne : G ≠ [])
    (hsize : size + 48 < 2 ^ 32) (reqSize a : ℕ) :
    (examinedFrom liballocAlloc size reqSize h).count a ≤ 2 := by
  obtain ⟨L, B, R, hG, hstart, -⟩ := hr.searchStart_eq hne size
  unfold examinedFrom
  rw [hstart]
  exact (count_examined hg hsize reqSize _ a _ _ hr hG).trans (hr.count_ahead_le hG a)

/-- The very first major. -/
theorem first_page (hg : PageGrants liballocAlloc) (hr : Represents h []) (size : ℕ) :
    ∃ h', allocateNewPage liballocAlloc h size = (h', 0) ∧ Refused liballocAlloc h h' size ∧
        Represents { h' with memRoot := 0 } [] ∨
      ∃ N, allocateNewPage liballocAlloc h size = (h', N.addr) ∧
        Granted liballocAlloc h h' size N ∧ Represents { h' with memRoot := N.addr } [N] := by
  have hroot : h.memRoot = 0 := eq_getD_of_pointer hr.root
  rcases allocateNewPage_cases hg hr.toMajors hr.pages size with
    ⟨hask, he⟩ | ⟨a, n, m', hask, he, hn, hm, h₀, h₁, -⟩
  · refine ⟨_, .inl ⟨he, ⟨hask, rfl, rfl, rfl⟩, hr.toMajors, rfl, hr.chain, hr.pages, hr.allocated,
      hr.inuse, hr.best⟩⟩
  · have hpos : 0 < a := (hm.inside (B := ⟨a, n, []⟩) (by simp)).1
    refine ⟨_, .inr ⟨⟨a, n, []⟩, he, ⟨hask, hn, rfl, rfl, rfl⟩, hm, pointer_of_pos hpos, ?_, ?_, ?_,
      ?_, ?_⟩⟩
    · exact ⟨congrArg pointer h₀, congrArg pointer h₁, trivial⟩
    · exact hr.pages.cons (a, n)
    · have hnone : h.allocated = 0 := hr.allocated
      simp [hnone]
    · have hnone : h.inuse = 0 := hr.inuse
      simp [hnone, MajorBlock.inuse]
    · exact hr.best.imp_right fun hbest => by cases hbest

theorem mallocSize_cases (hg : PageGrants liballocAlloc) (hr : Represents h G)
    (hw : add32 size sizeofMinor = w) (reqSize : ℕ) :
    (∃ h₁ A l r a, Spot h G w h₁ A l r a ∧
        ∀ other, mallocSize other size reqSize h = .ok (filled h₁ A l r a size reqSize)) ∨
      (¬ ∃ B ∈ G, B.HasGap w) ∧ ∃ h', SameData h.memory h'.memory (cells G) ∧
        (mallocSize liballocAlloc size reqSize h = .ok (h', 0) ∧ Refused liballocAlloc h h' size ∧
            Represents h' G ∨
          ∃ N, Extended liballocAlloc h h' G N size reqSize w
            (mallocSize liballocAlloc size reqSize h)) := by
  by_cases hne : G = []
  · subst hne
    have hroot : h.memRoot = 0 := eq_getD_of_pointer hr.root
    have hmalloc : mallocSize liballocAlloc size reqSize h =
        let grown := allocateNewPage liballocAlloc h size
        let h := { grown.1 with memRoot := grown.2 }
        if grown.2 = 0 then .ok (h, 0) else search liballocAlloc size reqSize h := if_pos hroot
    obtain ⟨h', ⟨he, href, hr'⟩ | ⟨N, he, hnew, hr'⟩⟩ := hr.first_page hg size
    · rw [hmalloc, he]
      exact .inr ⟨by simp, _, List.forall_mem_nil _,
        .inl ⟨rfl, ⟨href.answer, href.memory, href.pages, href.warnings⟩, hr'⟩⟩
    · have hN := (hr'.inside (B := N) (by simp)).1
      rw [hmalloc, he]
      dsimp only
      rw [if_neg hN.ne']
      refine .inr ⟨by simp, { h' with memRoot := N.addr }, List.forall_mem_nil _,
        .inr ⟨N, ⟨hnew.answer, hnew.size_eq, hnew.minors, hnew.pages, hnew.warnings⟩, hr',
          fun hgap => ?_, fun h'' p hfound => ?_⟩⟩
      · rcases hr'.search_cases hg (by simp) hw reqSize with
          ⟨h₁, A, l, r, a, hspot, hfound⟩ | ⟨hno, -⟩
        · obtain rfl : A = N := by simpa using hspot.mem
          exact ⟨h₁, l, r, a, hspot, hfound liballocAlloc⟩
        · exact (hno ⟨N, by simp, hgap⟩).elim
      · rw [search_eq] at hfound
        exact hg.searchMajors hfound
  · obtain ⟨B, R, hG⟩ := List.exists_cons_of_ne_nil hne
    have hroot : h.memRoot ≠ 0 := by
      rw [root_eq (B := B) (R := R) (hG ▸ hr)]
      exact (hr.inside (B := B) (by simp [hG])).1.ne'
    have hmalloc : ∀ other, mallocSize other size reqSize h = search other size reqSize h :=
      fun other => if_neg hroot
    simp only [hmalloc]
    exact hr.search_cases hg hne hw reqSize

theorem count_majorsExamined (hg : PageGrants liballocAlloc) (hr : Represents h G)
    (hsize : size + 48 < 2 ^ 32) (reqSize a : ℕ) :
    (majorsExamined liballocAlloc size reqSize h).count a ≤ 2 := by
  unfold majorsExamined
  split_ifs with hroot
  · have hG : G = [] := by
      have hnone := hr.root
      rw [hroot] at hnone
      exact List.map_eq_nil_iff.mp (List.head?_eq_none_iff.mp hnone.symm)
    subst hG
    obtain ⟨h', ⟨he, -⟩ | ⟨N, he, -, hr'⟩⟩ := hr.first_page hg size
    · rw [he]
      exact Nat.zero_le _
    · have hN := (hr'.inside (B := N) (by simp)).1
      rw [he]
      dsimp only
      rw [if_neg hN.ne']
      exact hr'.count_examinedFrom hg (by simp) hsize reqSize a
  · refine hr.count_examinedFrom hg (fun hG => hroot ?_) hsize reqSize a
    subst hG
    exact eq_getD_of_pointer hr.root

/-- A spot with room for the header and the request is filled. -/
theorem fill_spot {h₁ : Heap} {l r : List Cell} {a : ℕ} (hspot : Spot h G (size + 24) h₁ A l r a)
    (hfits : reqSize + (ALIGNMENT + ALIGN_INFO) ≤ size) :
    Served (filled h₁ A l r a size reqSize).1 G size reqSize (filled h₁ A l r a size reqSize).2 ∧
      Unasked h (filled h₁ A l r a size reqSize).1 ∧
      SameData h.memory (filled h₁ A l r a size reqSize).1.memory (cells G) := by
  obtain ⟨hserved, hun, hdata⟩ := hspot.represents.fill hspot.mem hfits hspot.gap
  exact ⟨hserved, hspot.rebet.unasked.trans hun, (hspot.rebet.sameData _).trans hdata⟩

/-- What a request of a size that does not wrap comes to. -/
theorem mallocSize_serves (hg : PageGrants liballocAlloc) (hr : Represents h G)
    (hsize : size + 48 < 2 ^ 32) (hfits : reqSize + (ALIGNMENT + ALIGN_INFO) ≤ size) :
    ∃ h' p, mallocSize liballocAlloc size reqSize h = .ok (h', p) ∧
      SameData h.memory h'.memory (cells G) ∧
      ((∃ B ∈ G, B.HasGap (size + 24)) ∧ Served h' G size reqSize p ∧ Unasked h h' ∧
          (∀ other, mallocSize other size reqSize h = .ok (h', p)) ∨
        (¬ ∃ B ∈ G, B.HasGap (size + 24)) ∧
          (p = 0 ∧ Refused liballocAlloc h h' size ∧ Represents h' G ∨
            ∃ N h₁, Granted liballocAlloc h h₁ size N ∧ Served h' (G ++ [N]) size reqSize p ∧
              Unasked h₁ h')) := by
  have hw : add32 size sizeofMinor = size + 24 := add32_of_lt (by rw [sizeofMinor]; omega)
  rcases hr.mallocSize_cases hg hw reqSize with
    ⟨h₁, A, l, r, a, hspot, hfound⟩ |
    ⟨hno, h', hdata, ⟨hfound, href, hr'⟩ | ⟨N, hext⟩⟩
  · obtain ⟨hserved, hun, hdata⟩ := fill_spot hspot hfits
    exact ⟨_, _, hfound _, hdata, .inl ⟨⟨A, hspot.mem, hspot.gap.hasGap⟩, hserved, hun, hfound⟩⟩
  · exact ⟨h', 0, hfound, hdata, .inr ⟨hno, .inl ⟨rfl, href, hr'⟩⟩⟩
  · have hroom := hext.granted.room hsize
    obtain ⟨h₁, l, r, a, hspot, hfound⟩ :=
      hext.fills (hasGap_of_empty hext.granted.minors (by omega))
    obtain ⟨hserved, hun, hdata'⟩ := fill_spot hspot hfits
    refine ⟨_, _, hfound, hdata.trans fun c hc => hdata' c ?_,
      .inr ⟨hno, .inr ⟨N, h', hext.granted, hserved, hun⟩⟩⟩
    rw [cells, List.flatMap_append]
    exact List.mem_append_left _ hc

end Whole
end Represents

theorem adjust_eq {reqSize : ℕ} (hreq : reqSize + 6 < 2 ^ 32) : adjust reqSize = reqSize + 6 :=
  add32_of_lt (by rw [ALIGNMENT, ALIGN_INFO]; omega)

theorem laMalloc_eq {reqSize : ℕ} (hreq : reqSize + 6 < 2 ^ 32)
    (liballocAlloc : List Block → ℕ → Option ℕ) (h : Heap) :
    laMalloc liballocAlloc h reqSize = mallocSize liballocAlloc (reqSize + 6) reqSize h := by
  unfold laMalloc
  rw [adjust_eq hreq, if_neg (by omega)]

section Reuse
variable {liballocAlloc : List Block → ℕ → Option ℕ} {h : Heap} {G : List MajorBlock} {reqSize : ℕ}

/-- A request returns. It is served without a call of `liballoc_alloc` if some major has a gap for
it and its header, and refused only if `liballoc_alloc` has nothing. The loop comes by no major
more than twice. -/
theorem laMalloc_reuses (hg : PageGrants liballocAlloc) (hr : Represents h G)
    (hreq : reqSize + 8192 ≤ 2 ^ 32) :
    ∃ h' p, laMalloc liballocAlloc h reqSize = .ok (h', p) ∧
      ((∃ B ∈ G, B.HasGap (adjust reqSize + sizeofMinor)) → p ≠ 0 ∧ Unasked h h' ∧
        ∀ other, laMalloc other h reqSize = .ok (h', p)) ∧
      (p = 0 → liballocAlloc h.pages (pagesFor (adjust reqSize)) = none) ∧
      ∀ a, (majorsExamined liballocAlloc (adjust reqSize) reqSize h).count a ≤ 2 := by
  have hsize : reqSize + 6 + 48 < 2 ^ 32 := by omega
  have hadj : reqSize + 6 < 2 ^ 32 := by omega
  have hfits : reqSize + (ALIGNMENT + ALIGN_INFO) ≤ reqSize + 6 := le_rfl
  rw [adjust_eq hadj, sizeofMinor]
  simp only [laMalloc_eq hadj]
  have htwice := hr.count_majorsExamined hg hsize reqSize
  obtain ⟨h', p, hfound, -, ⟨-, hserved, hun, hother⟩ |
    ⟨hno, ⟨-, href, -⟩ | ⟨N, h₁, -, hserved, -⟩⟩⟩ := hr.mallocSize_serves hg hsize hfits
  · exact ⟨h', p, hfound, fun _ => ⟨hserved.ne_zero, hun, hother⟩,
      fun hp => (hserved.ne_zero hp).elim, htwice⟩
  · exact ⟨h', p, hfound, fun hgap => (hno hgap).elim, fun _ => href.answer, htwice⟩
  · exact ⟨h', p, hfound, fun hgap => (hno hgap).elim, fun hp => (hserved.ne_zero hp).elim, htwice⟩

end Reuse

/-- One major without minors. -/
def oneMajor : Heap :=
  ⟨majorLayout.put (fun _ => 0) 4096 ⟨0, 0, 16, 65536, sizeofMajor, 0⟩, 4096, 4096, 65536, 0, 0, 0,
    0, [(4096, 65536)]⟩

theorem oneMajor_represents : Represents oneMajor [⟨4096, 65536, []⟩] := by
  have hget : majorLayout.get oneMajor.memory 4096 = ⟨0, 0, 16, 65536, sizeofMajor, 0⟩ :=
    majorLayout.get_put _ _ (by rw [fits_major]; norm_num [sizeofMajor])
  refine ⟨⟨fun B hB => ?_, ?_⟩, rfl, ?_, .refl _, rfl, rfl, .inr (by decide)⟩
  · obtain rfl := List.mem_singleton.mp hB
    exact Stored.fresh hget rfl (by decide)
  · exact ⟨fun b hb => List.mem_singleton.mp hb ▸ ⟨by decide, by decide⟩,
      List.pairwise_singleton _ _⟩
  · refine ⟨?_, ?_, trivial⟩
    · rw [prevMajor, hget]
      rfl
    · rw [nextMajor, hget]
      rfl

theorem laMalloc_reuses_oneMajor :
    ∃ h' p, laMalloc (fun _ _ => none) oneMajor 100 = .ok (h', p) ∧ p ≠ 0 := by
  obtain ⟨h', p, hfound, hreuse, -⟩ := @laMalloc_reuses (fun _ _ => none) _ _ _ nofun
    oneMajor_represents (show 100 + 8192 ≤ 2 ^ 32 by norm_num)
  exact ⟨h', p, hfound, (hreuse ⟨_, List.mem_singleton_self _,
    hasGap_of_empty rfl (by decide)⟩).1⟩

end Racoon.Liballoc
