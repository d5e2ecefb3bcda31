import Racoon.Paging.Locality

/-!
# The search for a free range

`page_find_free` should return the lowest range of free pages inside its window. It
compares only the first page of a candidate with the end of the window, so that it may
return a range that goes beyond it, and may look at pages there, and behind the pages
of the user at those of the kernel, to find one. What it has looked at is `inspected`.
-/

namespace Racoon.Paging

/-- The addresses that the inner loop asks `page_entry_present` for. -/
def inspectedPages (memory : ℕ → ℕ) (d : PageDirectory) (current : ℕ) : ℕ → ℕ → List ℕ
  | 0, _ => []
  | left + 1, count =>
    add32 current (count * PAGE_SIZE) ::
      if pageEntryPresent memory d (add32 current (count * PAGE_SIZE)) then []
      else inspectedPages memory d current left (count + 1)

/-- The addresses that the loop of `page_find_free` asks for. -/
def inspectedFrom (memory : ℕ → ℕ) (d : PageDirectory) (finish pages : ℕ) : ℕ → ℕ → List ℕ
  | 0, _ => []
  | left + 1, current =>
    if current < finish then
      inspectedPages memory d current pages 0 ++
        match firstPresent memory d current pages 0 with
        | none => []
        | some count =>
          inspectedFrom memory d finish pages left
            (add32 (add32 current (count * PAGE_SIZE)) PAGE_SIZE)
    else []

def inspected (memory : ℕ → ℕ) (d : PageDirectory) (start finish pages : ℕ) : List ℕ :=
  inspectedFrom memory d finish pages (2 ^ 20) (start / PAGE_SIZE * PAGE_SIZE)

/-- A range of the window in which no page is present. -/
structure FitsAt (d : PageDirectory) (start finish pages a : ℕ) : Prop where
  aligned : a % PAGE_SIZE = 0
  floor : start / PAGE_SIZE * PAGE_SIZE ≤ a
  ceiling : a + pages * PAGE_SIZE ≤ finish
  free : ∀ i < pages, d.lookup (a + i * PAGE_SIZE) = none

/-- The directory entry of an address is one of those of the window. -/
def InWindow (start finish a : ℕ) : Prop :=
  start / 2 ^ 22 ≤ a / 2 ^ 22 ∧ a / 2 ^ 22 ≤ (finish - 1) / 2 ^ 22

/-- The search ends with the lowest fit, or 0 when there is none, and has looked at the directory
entries of the window only. -/
structure FindsFirst (memory : ℕ → ℕ) (d : PageDirectory) (start finish pages location : ℕ) :
    Prop where
  returns : pageFindFree memory d start finish pages = .ok location
  fits : location ≠ 0 → FitsAt d start finish pages location
  lowest : ∀ a, FitsAt d start finish pages a → location ≠ 0 ∧ location ≤ a
  confined : ∀ a ∈ inspected memory d start finish pages, InWindow start finish a

/-- Every candidate meets a page that is present before it leaves the window's directory entries. -/
def Obstructed (d : PageDirectory) (start finish pages : ℕ) : Prop :=
  ∀ a, a % PAGE_SIZE = 0 → start / PAGE_SIZE * PAGE_SIZE ≤ a → a < finish → ∃ i < pages,
    (a + i * PAGE_SIZE) / 2 ^ 22 ≤ (finish - 1) / 2 ^ 22 ∧ d.lookup (a + i * PAGE_SIZE) ≠ none

section Scan
variable {memory : ℕ → ℕ} {d : PageDirectory} {start finish pages : ℕ}

theorem firstPresent_some {current left count j : ℕ}
    (h : firstPresent memory d current left count = some j) : count ≤ j ∧ j < count + left ∧
      pageEntryPresent memory d (add32 current (j * PAGE_SIZE)) = true ∧
      ∀ i, count ≤ i → i < j →
        pageEntryPresent memory d (add32 current (i * PAGE_SIZE)) = false := by
  induction left generalizing count with
  | zero => cases h
  | succ left ih =>
    rw [firstPresent] at h
    by_cases hp : pageEntryPresent memory d (add32 current (count * PAGE_SIZE)) = true
    · rw [if_pos hp] at h
      cases h
      exact ⟨le_rfl, by omega, hp, fun i hi hlt => absurd hi (by omega)⟩
    · rw [if_neg hp] at h
      obtain ⟨hle, hlt, hj, hbefore⟩ := ih h
      refine ⟨by omega, by omega, hj, fun i hi hij => ?_⟩
      rcases hi.eq_or_lt with rfl | hi
      · simpa using hp
      · exact hbefore i hi hij

/-- The inner loop has looked at the pages up to the one it has found, or at all. -/
theorem mem_inspectedPages {current left count a : ℕ} :
    a ∈ inspectedPages memory d current left count ↔ ∃ i, count ≤ i ∧ i < count + left ∧
      (∀ j, firstPresent memory d current left count = some j → i ≤ j) ∧
      a = add32 current (i * PAGE_SIZE) := by
  induction left generalizing count with
  | zero =>
    simp only [inspectedPages, List.not_mem_nil, false_iff]
    rintro ⟨i, hi, hlt, -⟩
    omega
  | succ left ih =>
    rw [inspectedPages, firstPresent, List.mem_cons]
    by_cases hp : pageEntryPresent memory d (add32 current (count * PAGE_SIZE)) = true
    · rw [if_pos hp, if_pos hp]
      constructor
      · rintro (ha | ha)
        · exact ⟨count, le_rfl, by omega, fun j hj => (Option.some.inj hj).le, ha⟩
        · cases ha
      · rintro ⟨i, hi, -, hj, ha⟩
        obtain rfl : i = count := le_antisymm (hj count rfl) hi
        exact .inl ha
    · rw [if_neg hp, if_neg hp, ih]
      constructor
      · rintro (ha | ⟨i, hi, hlt, hj, ha⟩)
        · refine ⟨count, le_rfl, by omega, fun j hj => ?_, ha⟩
          have := (firstPresent_some hj).1
          omega
        · exact ⟨i, by omega, by omega, hj, ha⟩
      · rintro ⟨i, hi, hlt, hj, ha⟩
        rcases hi.eq_or_lt with rfl | hi
        · exact .inl ha
        · exact .inr ⟨i, hi, by omega, hj, ha⟩

section Reads
variable {memory' : ℕ → ℕ} {d' : PageDirectory}

theorem firstPresent_congr {current left count : ℕ}
    (h : ∀ a ∈ inspectedPages memory d current left count,
      pageEntryPresent memory' d' a = pageEntryPresent memory d a) :
    firstPresent memory' d' current left count = firstPresent memory d current left count := by
  induction left generalizing count with
  | zero => rfl
  | succ left ih =>
    rw [inspectedPages] at h
    obtain ⟨hfirst, hrest⟩ := List.forall_mem_cons.mp h
    rw [firstPresent, firstPresent, hfirst]
    split_ifs with hp
    · rfl
    · rw [if_neg hp] at hrest
      exact ih hrest

theorem findFreeFrom_congr {left current : ℕ}
    (h : ∀ a ∈ inspectedFrom memory d finish pages left current,
      pageEntryPresent memory' d' a = pageEntryPresent memory d a) :
    findFreeFrom memory' d' finish pages left current =
      findFreeFrom memory d finish pages left current := by
  induction left generalizing current with
  | zero => rfl
  | succ left ih =>
    rw [inspectedFrom] at h
    rw [findFreeFrom, findFreeFrom]
    split_ifs with hlt
    · rw [if_pos hlt, List.forall_mem_append] at h
      obtain ⟨hround, hrest⟩ := h
      rw [firstPresent_congr hround]
      cases hf : firstPresent memory d current pages 0 with
      | none => rfl
      | some count =>
        rw [hf] at hrest
        exact ih hrest
    · rfl

/-- The search reads nothing but the entries of the addresses inspected. -/
theorem pageFindFree_congr (h : ∀ a ∈ inspected memory d start finish pages,
      pageEntryPresent memory' d' a = pageEntryPresent memory d a) :
    pageFindFree memory' d' start finish pages = pageFindFree memory d start finish pages :=
  findFreeFrom_congr h

end Reads

/-- The pages of a candidate that lie below the end of the user. -/
theorem add32_pages {c i : ℕ} (h : c + i < 2 ^ 20) :
    add32 (c * PAGE_SIZE) (i * PAGE_SIZE) = (c + i) * PAGE_SIZE := by
  unfold add32 PAGE_SIZE
  omega

theorem lookup_page (memory : ℕ → ℕ) (hd : UserTables d) {p : ℕ} (hp : 0x80000 ≤ p ∧ p < 0xFE000) :
    d.lookup (p * PAGE_SIZE) = none ↔ pageEntryPresent memory d (p * PAGE_SIZE) = false := by
  have hl := lookup_user hd hp (by decide : 0 < PAGE_SIZE)
  rw [Nat.add_zero] at hl
  rw [hl, pageEntryPresent_eq (by omega) (hd.pde_ne hp)]
  by_cases h : present (d.word p) = true <;> simp [h]

theorem inWindow_page {p : ℕ} (hp : start / PAGE_SIZE ≤ p)
    (h : p * PAGE_SIZE / 2 ^ 22 ≤ (finish - 1) / 2 ^ 22) :
    InWindow start finish (p * PAGE_SIZE) := by
  refine ⟨?_, h⟩
  unfold PAGE_SIZE at *
  omega

/-- The page from which the loop goes on. -/
theorem next_candidate {c j : ℕ} (h : c + j + 1 < 2 ^ 20) :
    add32 (add32 (c * PAGE_SIZE) (j * PAGE_SIZE)) PAGE_SIZE = (c + j + 1) * PAGE_SIZE := by
  rw [add32_pages (by omega), add32_page h]

section Steps
variable {c : ℕ} (left : ℕ)

theorem findFreeFrom_none (hlt : c * PAGE_SIZE < finish)
    (h : firstPresent memory d (c * PAGE_SIZE) pages 0 = none) :
    findFreeFrom memory d finish pages (left + 1) (c * PAGE_SIZE) = .ok (c * PAGE_SIZE) ∧
      inspectedFrom memory d finish pages (left + 1) (c * PAGE_SIZE) =
        inspectedPages memory d (c * PAGE_SIZE) pages 0 := by
  rw [findFreeFrom, inspectedFrom, if_pos hlt, if_pos hlt, h, List.append_nil]
  exact ⟨rfl, rfl⟩

theorem findFreeFrom_some {j : ℕ} (hlt : c * PAGE_SIZE < finish) (hj : c + j + 1 < 2 ^ 20)
    (h : firstPresent memory d (c * PAGE_SIZE) pages 0 = some j) :
    findFreeFrom memory d finish pages (left + 1) (c * PAGE_SIZE) =
        findFreeFrom memory d finish pages left ((c + j + 1) * PAGE_SIZE) ∧
      inspectedFrom memory d finish pages (left + 1) (c * PAGE_SIZE) =
        inspectedPages memory d (c * PAGE_SIZE) pages 0 ++
          inspectedFrom memory d finish pages left ((c + j + 1) * PAGE_SIZE) := by
  rw [findFreeFrom, inspectedFrom, if_pos hlt, if_pos hlt, h]
  dsimp only
  rw [next_candidate hj]
  exact ⟨rfl, rfl⟩

variable (memory d pages) in
theorem findFreeFrom_end (hge : finish ≤ c * PAGE_SIZE) :
    findFreeFrom memory d finish pages left (c * PAGE_SIZE) = .ok 0 ∧
      inspectedFrom memory d finish pages left (c * PAGE_SIZE) = [] := by
  cases left with
  | zero => exact ⟨by rw [findFreeFrom, if_neg (not_lt.mpr hge)], rfl⟩
  | succ left =>
    rw [findFreeFrom, inspectedFrom, if_neg (not_lt.mpr hge), if_neg (not_lt.mpr hge)]
    exact ⟨rfl, rfl⟩

omit left in
/-- What is looked at in a round whose pages do not leave the directory entries of the window. -/
theorem inspectedPages_confined (hc : start / PAGE_SIZE ≤ c)
    (h : ∀ i < pages, (∀ j, firstPresent memory d (c * PAGE_SIZE) pages 0 = some j → i ≤ j) →
      c + i < 2 ^ 20 ∧ (c + i) * PAGE_SIZE / 2 ^ 22 ≤ (finish - 1) / 2 ^ 22) :
    ∀ a ∈ inspectedPages memory d (c * PAGE_SIZE) pages 0, InWindow start finish a := by
  intro a ha
  obtain ⟨i, -, hi, hj, rfl⟩ := mem_inspectedPages.mp ha
  obtain ⟨hlt, hle⟩ := h i (by omega) hj
  rw [add32_pages hlt]
  exact inWindow_page (by omega) hle

end Steps

/-- With a fit in the window the loop goes on to the lowest one. -/
theorem findFreeFrom_fit (memory : ℕ → ℕ) (hd : UserTables d) (hlo : 512 * 2 ^ 22 ≤ start)
    (hhi : finish ≤ 1016 * 2 ^ 22) {A : ℕ} (hA : FitsAt d start finish pages (A * PAGE_SIZE))
    (hlow : ∀ a, FitsAt d start finish pages a → A * PAGE_SIZE ≤ a) (hpages : 1 ≤ pages)
    {c : ℕ} (left : ℕ) (hc : start / PAGE_SIZE ≤ c) (hcA : c ≤ A) (hleft : A < c + left) :
    findFreeFrom memory d finish pages left (c * PAGE_SIZE) = .ok (A * PAGE_SIZE) ∧
      ∀ a ∈ inspectedFrom memory d finish pages left (c * PAGE_SIZE), InWindow start finish a := by
  have hfloor : 0x80000 ≤ start / PAGE_SIZE := by
    unfold PAGE_SIZE
    omega
  have hceil : (A + pages) * PAGE_SIZE ≤ finish := by
    rw [Nat.add_mul]
    exact hA.ceiling
  have hend : A + pages ≤ 0xFE000 := by
    unfold PAGE_SIZE at hceil
    omega
  have hentry : ∀ p < A + pages, p * PAGE_SIZE / 2 ^ 22 ≤ (finish - 1) / 2 ^ 22 := by
    intro p hp
    unfold PAGE_SIZE at *
    omega
  induction left generalizing c with
  | zero => omega
  | succ left ih =>
    have hlt : c * PAGE_SIZE < finish := by
      unfold PAGE_SIZE at *
      omega
    have hround : ∀ a ∈ inspectedPages memory d (c * PAGE_SIZE) pages 0,
        InWindow start finish a :=
      inspectedPages_confined hc fun i hi _ => ⟨by omega, hentry (c + i) (by omega)⟩
    cases hf : firstPresent memory d (c * PAGE_SIZE) pages 0 with
    | none =>
      have hfit : FitsAt d start finish pages (c * PAGE_SIZE) := by
        refine ⟨Nat.mul_mod_left _ _, Nat.mul_le_mul_right _ hc, ?_, fun i hi => ?_⟩
        · rw [← Nat.add_mul]
          exact (Nat.mul_le_mul_right _ (by omega)).trans hceil
        · have hfree := firstPresent_none hf (Nat.zero_le i) (by omega)
          rw [add32_pages (by omega)] at hfree
          rw [← Nat.add_mul]
          exact (lookup_page memory hd (by omega)).mpr hfree
      have hle : A ≤ c := Nat.le_of_mul_le_mul_right (hlow _ hfit) (by decide)
      obtain rfl := le_antisymm hcA hle
      obtain ⟨hrun, hins⟩ := findFreeFrom_none left hlt hf
      exact ⟨hrun, hins ▸ hround⟩
    | some j =>
      obtain ⟨-, hj, hpres, -⟩ := firstPresent_some hf
      have hbefore : c + j < A := by
        by_contra hge
        have hfree := hA.free (c + j - A) (by omega)
        rw [← Nat.add_mul, Nat.add_sub_cancel' (not_lt.mp hge)] at hfree
        rw [add32_pages (by omega)] at hpres
        rw [lookup_page memory hd (by omega), hpres] at hfree
        cases hfree
      obtain ⟨hrun, hins⟩ := findFreeFrom_some left hlt (by omega) hf
      obtain ⟨hrest, hconf⟩ := ih (by omega : start / PAGE_SIZE ≤ c + j + 1) (by omega) (by omega)
      refine ⟨hrun.trans hrest, fun a ha => ?_⟩
      rw [hins, List.mem_append] at ha
      exact ha.elim (hround a) (hconf a)

/-- Where each candidate is obstructed in time the loop ends without an answer. -/
theorem findFreeFrom_obstructed (memory : ℕ → ℕ) (hd : UserTables d) (hlo : 512 * 2 ^ 22 ≤ start)
    (hhi : finish ≤ 1016 * 2 ^ 22) (ho : Obstructed d start finish pages) {c : ℕ} (left : ℕ)
    (hc : start / PAGE_SIZE ≤ c) (hleft : 0xFE000 ≤ c + left) :
    findFreeFrom memory d finish pages left (c * PAGE_SIZE) = .ok 0 ∧
      ∀ a ∈ inspectedFrom memory d finish pages left (c * PAGE_SIZE), InWindow start finish a := by
  have hfloor : 0x80000 ≤ start / PAGE_SIZE := by
    unfold PAGE_SIZE
    omega
  induction left generalizing c with
  | zero =>
    have hge : finish ≤ c * PAGE_SIZE :=
      calc finish ≤ 1016 * 2 ^ 22 := hhi
        _ = 0xFE000 * PAGE_SIZE := by norm_num [PAGE_SIZE]
        _ ≤ c * PAGE_SIZE := Nat.mul_le_mul_right _ hleft
    obtain ⟨hrun, hins⟩ := findFreeFrom_end memory d pages 0 hge
    exact ⟨hrun, by simp [hins]⟩
  | succ left ih =>
    by_cases hlt : c * PAGE_SIZE < finish
    · obtain ⟨i, hi, hentry, hpres⟩ := ho (c * PAGE_SIZE) (Nat.mul_mod_left _ _)
        (Nat.mul_le_mul_right _ hc) hlt
      rw [← Nat.add_mul] at hentry hpres
      have huser : c + i < 0xFE000 := by
        unfold PAGE_SIZE at *
        omega
      cases hf : firstPresent memory d (c * PAGE_SIZE) pages 0 with
      | none =>
        have hfree := firstPresent_none hf (Nat.zero_le i) (by omega)
        rw [add32_pages (by omega)] at hfree
        exact absurd ((lookup_page memory hd (by omega)).mpr hfree) hpres
      | some j =>
        obtain ⟨-, hj, -, hbefore⟩ := firstPresent_some hf
        have hji : j ≤ i := by
          by_contra hij
          have hfree := hbefore i (Nat.zero_le i) (by omega)
          rw [add32_pages (by omega)] at hfree
          exact hpres ((lookup_page memory hd (by omega)).mpr hfree)
        obtain ⟨hrun, hins⟩ := findFreeFrom_some left hlt (by omega) hf
        obtain ⟨hrest, hconf⟩ := ih (by omega : start / PAGE_SIZE ≤ c + j + 1) (by omega)
        refine ⟨hrun.trans hrest, fun a ha => ?_⟩
        rw [hins, List.mem_append] at ha
        refine ha.elim (fun ha => ?_) (hconf a)
        refine inspectedPages_confined hc (fun l _ hl => ?_) a ha
        have hlj := hl j hf
        refine ⟨by omega, le_trans (Nat.div_le_div_right (Nat.mul_le_mul_right _ ?_)) hentry⟩
        omega
    · obtain ⟨hrun, hins⟩ := findFreeFrom_end memory d pages (left + 1) (not_lt.mp hlt)
      exact ⟨hrun, by simp [hins]⟩

/-- A loop that ends without an answer and stays in the window has met an obstruction each time. -/
theorem obstructed_of_run (hd : UserTables d) (hlo : 512 * 2 ^ 22 ≤ start)
    (hhi : finish ≤ 1016 * 2 ^ 22) {c left : ℕ} (hc : start / PAGE_SIZE ≤ c)
    (hrun : findFreeFrom memory d finish pages left (c * PAGE_SIZE) = .ok 0)
    (hconf : ∀ a ∈ inspectedFrom memory d finish pages left (c * PAGE_SIZE),
      InWindow start finish a) {p : ℕ} (hp : c ≤ p) (hlt : p * PAGE_SIZE < finish) :
    ∃ i < pages, (p + i) * PAGE_SIZE / 2 ^ 22 ≤ (finish - 1) / 2 ^ 22 ∧
      d.lookup ((p + i) * PAGE_SIZE) ≠ none := by
  have hfloor : 0x80000 ≤ start / PAGE_SIZE := by
    unfold PAGE_SIZE
    omega
  induction left generalizing c with
  | zero =>
    have hcp : c * PAGE_SIZE < finish := (Nat.mul_le_mul_right _ hp).trans_lt hlt
    rw [findFreeFrom, if_pos hcp] at hrun
    cases hrun
  | succ left ih =>
    have hcp : c * PAGE_SIZE < finish := (Nat.mul_le_mul_right _ hp).trans_lt hlt
    cases hf : firstPresent memory d (c * PAGE_SIZE) pages 0 with
    | none =>
      rw [(findFreeFrom_none left hcp hf).1, Except.ok.injEq] at hrun
      unfold PAGE_SIZE at hrun
      omega
    | some j =>
      obtain ⟨-, hj, hpres, -⟩ := firstPresent_some hf
      -- the first page behind the window's directory entries would have been looked at
      have hin : (c + j) * PAGE_SIZE / 2 ^ 22 ≤ (finish - 1) / 2 ^ 22 := by
        by_contra hout
        have hle : c ≤ ((finish - 1) / 2 ^ 22 + 1) * 1024 := by
          unfold PAGE_SIZE at *
          omega
        obtain ⟨i, hi⟩ := Nat.exists_eq_add_of_le hle
        have hij : i ≤ j := by
          unfold PAGE_SIZE at *
          omega
        have hmem : add32 (c * PAGE_SIZE) (i * PAGE_SIZE) ∈
            inspectedFrom memory d finish pages (left + 1) (c * PAGE_SIZE) := by
          rw [inspectedFrom, if_pos hcp, List.mem_append]
          refine .inl (mem_inspectedPages.mpr ⟨i, Nat.zero_le i, by omega, fun l hl => ?_, rfl⟩)
          rw [hf] at hl
          cases hl
          exact hij
        have hwin := (hconf _ hmem).2
        rw [add32_pages (by omega), ← hi] at hwin
        unfold PAGE_SIZE at hwin
        omega
      have huser : c + j < 0xFE000 := by
        unfold PAGE_SIZE at *
        omega
      rw [add32_pages (by omega)] at hpres
      by_cases hpj : p ≤ c + j
      · refine ⟨c + j - p, by omega, ?_⟩
        rw [Nat.add_sub_cancel' hpj]
        refine ⟨hin, fun hnone => ?_⟩
        rw [lookup_page memory hd (by omega), hpres] at hnone
        cases hnone
      · obtain ⟨hstep, hins⟩ := findFreeFrom_some left hcp (by omega) hf
        exact ih (by omega : start / PAGE_SIZE ≤ c + j + 1) (hstep ▸ hrun)
          (fun a ha => hconf a (by rw [hins]; exact List.mem_append_right _ ha)) (by omega)

theorem page_of_aligned {a : ℕ} (h : a % PAGE_SIZE = 0) : a = a / PAGE_SIZE * PAGE_SIZE :=
  (Nat.div_mul_cancel (Nat.dvd_of_mod_eq_zero h)).symm

theorem findsFirst_of_fit (memory : ℕ → ℕ) (hd : UserTables d) (hlo : 512 * 2 ^ 22 ≤ start)
    (hhi : finish ≤ 1016 * 2 ^ 22) (hpages : 1 ≤ pages)
    (hfit : ∃ a, FitsAt d start finish pages a) :
    ∃ location, FindsFirst memory d start finish pages location := by
  classical
  have hA := Nat.find_spec hfit
  have hlow : ∀ a, FitsAt d start finish pages a → Nat.find hfit ≤ a :=
    fun a ha => Nat.find_min' hfit ha
  generalize Nat.find hfit = a₀ at hA hlow
  have hpage := page_of_aligned hA.aligned
  have hfloor := hA.floor
  have hceil := hA.ceiling
  rw [hpage] at hA hlow
  obtain ⟨hrun, hconf⟩ := findFreeFrom_fit memory hd hlo hhi hA hlow hpages (2 ^ 20) le_rfl
    (by unfold PAGE_SIZE at *; omega) (by unfold PAGE_SIZE at *; omega)
  rw [← hpage] at hrun hA hlow
  have hne : a₀ ≠ 0 := by
    unfold PAGE_SIZE at hfloor
    omega
  exact ⟨a₀, hrun, fun _ => hA, fun a ha => ⟨hne, hlow a ha⟩, hconf⟩

theorem findsFirst_of_obstructed (memory : ℕ → ℕ) (hd : UserTables d) (hlo : 512 * 2 ^ 22 ≤ start)
    (hhi : finish ≤ 1016 * 2 ^ 22) (hpages : 1 ≤ pages) (ho : Obstructed d start finish pages) :
    FindsFirst memory d start finish pages 0 := by
  obtain ⟨hrun, hconf⟩ := findFreeFrom_obstructed memory hd hlo hhi ho (2 ^ 20) le_rfl
    ((by decide : 0xFE000 ≤ 2 ^ 20).trans (Nat.le_add_left _ _))
  refine ⟨hrun, fun h => absurd rfl h, fun a ha => ?_, hconf⟩
  have hceil := ha.ceiling
  have hlt : a < finish := by
    unfold PAGE_SIZE at hceil
    omega
  obtain ⟨i, hi, -, hpres⟩ := ho a ha.aligned ha.floor hlt
  exact absurd (ha.free i hi) hpres

end Scan

/-- The search is a first fit in its window when there is a fit, or when each candidate meets a page
that is present within the directory entries of the window. -/
theorem pageFindFree_first_iff (memory : ℕ → ℕ) {d : PageDirectory} (hd : UserTables d)
    {start finish : ℕ} (hlo : 512 * 2 ^ 22 ≤ start) (hhi : finish ≤ 1016 * 2 ^ 22) {pages : ℕ}
    (hpages : 1 ≤ pages) :
    (∃ location, FindsFirst memory d start finish pages location) ↔
      (∃ a, FitsAt d start finish pages a) ∨ Obstructed d start finish pages := by
  constructor
  · rintro ⟨location, h⟩
    refine or_iff_not_imp_left.mpr fun hno a ha hfloor hlt => ?_
    have h0 : location = 0 := not_not.mp fun hne => hno ⟨location, h.fits hne⟩
    have hrun := h.returns
    have hpage := page_of_aligned ha
    rw [h0] at hrun
    rw [hpage] at hfloor hlt
    obtain ⟨i, hi, hentry, hpres⟩ := obstructed_of_run hd hlo hhi le_rfl hrun h.confined
      (Nat.le_of_mul_le_mul_right hfloor (by decide)) hlt
    rw [Nat.add_mul, ← hpage] at hentry hpres
    exact ⟨i, hi, hentry, hpres⟩
  · rintro (hfit | ho)
    · exact findsFirst_of_fit memory hd hlo hhi hpages hfit
    · exact ⟨0, findsFirst_of_obstructed memory hd hlo hhi hpages ho⟩

/-- Two pages are found in a window of one. -/
theorem fit_beyond_window :
    pageFindFree (fun _ => 0) (newPageDirectory 0) 0x80000000 0x80001000 2 = .ok 0x80000000 ∧
      ¬ ∃ location,
        FindsFirst (fun _ => 0) (newPageDirectory 0) 0x80000000 0x80001000 2 location := by
  have hrun : pageFindFree (fun _ => 0) (newPageDirectory 0) 0x80000000 0x80001000 2 =
      .ok 0x80000000 := rfl
  refine ⟨hrun, ?_⟩
  rintro ⟨location, h⟩
  have hlocation := h.returns
  rw [hrun] at hlocation
  cases hlocation
  exact absurd (h.fits (by decide)).ceiling (by decide)

theorem pageFindFree_first_new : ∃ location,
    FindsFirst (fun _ => 0) (newPageDirectory 0) 0x80000000 0x80002000 2 location :=
  (pageFindFree_first_iff (fun _ => 0) (userTables_new 0) (by decide) (by decide) (by decide)).mpr
    (.inl ⟨0x80000000, by decide, by decide, by decide, by decide⟩)

end Racoon.Paging
