import Racoon.Ualloc.Growth
import Racoon.Ualloc.Records

/-!
# Filling the holes of a range

`user_ensure` gives each run of absent pages to `user_alloc_hard`. That one records
as the virtual address what `page_ensure` has counted, which is 0, and as the memory
of the region a block that it has not mapped there. So no hole is ever recorded as it
should be, and the call does what it is for only where there is nothing to do.
-/

namespace Racoon.Ualloc
open Lib Paging
open Env (SMK_OK SMK_NOMEM)

/-- The address of a page of the range from `ptr` on. -/
def pageAt (ptr i : ℕ) : ℕ := add32 ptr (i * PAGE_SIZE)

/-- The `n` pages of the range from the page `j` on are a maximal run of absent ones. -/
structure Hole (memory : ℕ → ℕ) (d : PageDirectory) (ptr pages j n : ℕ) : Prop where
  pos : 0 < n
  inside : j + n ≤ pages
  absent : ∀ i < n, pagePresent memory d (pageAt ptr (j + i)) = false
  left : j = 0 ∨ pagePresent memory d (pageAt ptr (j - 1)) = true
  right : j + n = pages ∨ pagePresent memory d (pageAt ptr (j + n)) = true

/-- A record tells where a hole was and which memory fills it. -/
structure Fills (d : PageDirectory) (ptr j n : ℕ) (r : Record) : Prop where
  virt : r.virt = pageAt ptr j
  pages : r.pages = n
  phys : ∀ i < n, Paging.translate d (pageAt ptr (j + i)) = some (r.phys + i * PAGE_SIZE)

/-- What `user_ensure` should leave: no holes, the pages there were, and a record for each hole
that `user_free` finds. -/
structure Filled (memory : ℕ → ℕ) (s s' : State) (l : List (ℕ × Record)) (ptr pages : ℕ) :
    Prop where
  present : ∀ i < pages, pagePresent memory s'.map (pageAt ptr i) = true
  kept : ∀ i < pages, pagePresent memory s.map (pageAt ptr i) = true →
    s'.map.lookup (pageAt ptr i) = s.map.lookup (pageAt ptr i)
  records : ∃ new : List (ℕ × Record), Listed s'.mems s'.alloc (new ++ l) ∧
    s'.kmalloced = new.map Prod.fst ++ s.kmalloced ∧ (new.map fun x => x.2.virt).Nodup ∧
    (∀ x ∈ new, ∃ j n, Hole memory s.map ptr pages j n ∧ Fills s'.map ptr j n x.2) ∧
    ∀ j n, Hole memory s.map ptr pages j n → ∃ x ∈ new, Fills s'.map ptr j n x.2 ∧
      s'.find (pageAt ptr j) = .ok (some x.1)

/-- `user_ensure` returns `SMK_OK` and has filled the holes. -/
def FillsHoles (memory : ℕ → ℕ) (kmalloc : ℕ → Option ℕ) (s : State) (l : List (ℕ × Record))
    (ptr pages : ℕ) : Prop :=
  ∃ s', userEnsure s kmalloc memory ptr pages = .ok (s', SMK_OK) ∧ Filled memory s s' l ptr pages

/-- The record at an address, if there is one, says that its region is at 0. -/
def AtZero (mems : ℕ → Option AllocatedMemory) (p : ℕ) : Prop := ∃ v, mems p = some v ∧ v.virt = 0

/-- A call whose new records are all for the address 0. -/
structure RecordsZero (s s' : State) : Prop where
  new : ∃ ps, s'.kmalloced = ps ++ s.kmalloced ∧ ∀ p ∈ ps, AtZero s'.mems p
  old : ∀ p, AtZero s.mems p → AtZero s'.mems p

section Records
variable {s t u : State} {memory : ℕ → ℕ}

theorem RecordsZero.of_eq (hm : t.mems = s.mems) (hk : t.kmalloced = s.kmalloced) :
    RecordsZero s t :=
  ⟨⟨[], hk, by simp⟩, fun p hp => by rwa [hm]⟩

theorem RecordsZero.trans (h : RecordsZero s t) (h' : RecordsZero t u) : RecordsZero s u := by
  obtain ⟨ps, hps, hzero⟩ := h.new
  obtain ⟨qs, hqs, hzero'⟩ := h'.new
  refine ⟨⟨qs ++ ps, by rw [hqs, hps, List.append_assoc], fun p hp => ?_⟩,
    fun p hp => h'.old p (h.old p hp)⟩
  rcases List.mem_append.mp hp with hp | hp
  · exact hzero' p hp
  · exact h'.old p (hzero p hp)

theorem memoryFree_eq {x : PhysicalMemory.Block} (h : s.memoryFree x = .ok t) :
    t.mems = s.mems ∧ t.kmalloced = s.kmalloced := by
  obtain ⟨pm, -, h⟩ := bind_eq_ok.mp h
  cases h
  exact ⟨rfl, rfl⟩

theorem setPrev_atZero {mems mems' : ℕ → Option AllocatedMemory} {x prev : Option ℕ}
    (h : setPrev mems x prev = .ok mems') {p : ℕ} (hp : AtZero mems p) : AtZero mems' p := by
  cases x with
  | none =>
    cases h
    exact hp
  | some a =>
    obtain ⟨b, hb, h⟩ := bind_eq_ok.mp h
    obtain ⟨v, hv, h⟩ := bind_eq_ok.mp h
    cases h
    obtain ⟨w, hw, hzero⟩ := hp
    by_cases hpb : p = b
    · subst hpb
      rw [deref_eq_ok.mp hv] at hw
      cases hw
      exact ⟨_, Function.update_self .., hzero⟩
    · exact ⟨w, (Function.update_of_ne hpb ..).trans hw, hzero⟩

theorem insert_zero {p : ℕ} {r : Record} (hr : r.virt = 0) (h : s.insert p r = .ok t) :
    AtZero t.mems p ∧ t.kmalloced = s.kmalloced ∧ ∀ q, AtZero s.mems q → AtZero t.mems q := by
  obtain ⟨mems, hset, h⟩ := bind_eq_ok.mp h
  cases h
  have hself : AtZero (Function.update s.mems p
      (some { r with prev := none, next := s.alloc })) p :=
    ⟨_, Function.update_self .., hr⟩
  refine ⟨setPrev_atZero hset hself, rfl, fun q hq => setPrev_atZero hset ?_⟩
  by_cases hqp : q = p
  · rw [hqp]
    exact hself
  · obtain ⟨w, hw, hzero⟩ := hq
    exact ⟨w, (Function.update_of_ne hqp ..).trans hw, hzero⟩

/-- `page_ensure` must have counted no page, and that count is what is recorded. -/
theorem userAllocHard_zero {kmalloc : Option ℕ} {virtual pages : ℕ} {rc : ℤ}
    (h : userAllocHard s kmalloc memory virtual pages = .ok (t, rc)) : RecordsZero s t := by
  obtain ⟨-, -, h⟩ := bind_eq_ok.mp h
  obtain ⟨⟨pm, location⟩, -, h⟩ := bind_eq_ok.mp h
  dsimp only at h
  by_cases hl : location = 0
  · rw [if_pos hl] at h
    cases h
    exact .of_eq rfl rfl
  · rw [if_neg hl] at h
    cases kmalloc with
    | none =>
      obtain ⟨s₁, hfree, h⟩ := bind_eq_ok.mp h
      cases h
      obtain ⟨hm, hk⟩ := memoryFree_eq hfree
      exact .of_eq hm hk
    | some mem =>
      obtain ⟨⟨pm', map, found⟩, -, h⟩ := bind_eq_ok.mp h
      obtain ⟨_, hfound, h⟩ := bind_eq_ok.mp h
      obtain ⟨s₁, hinsert, h⟩ := bind_eq_ok.mp h
      cases h
      obtain ⟨hself, hk, hold⟩ := insert_zero (assert_eq_ok.mp hfound) hinsert
      exact ⟨⟨[mem], hk, fun p hp => List.mem_singleton.mp hp ▸ hself⟩, hold⟩

theorem userEnsure_zero {kmalloc : ℕ → Option ℕ} {ptr pages : ℕ} {rc : ℤ}
    (h : userEnsure s kmalloc memory ptr pages = .ok (t, rc)) : RecordsZero s t :=
  ensureHoles_rel (fun _ => .of_eq rfl rfl) (fun _ _ _ => RecordsZero.trans)
    (fun _ _ _ _ _ _ => userAllocHard_zero) h

/-- Where every page is present nothing is done. -/
theorem ensureHoles_present {kmalloc : ℕ → Option ℕ} {finish left index : ℕ}
    (hindex : index % PAGE_SIZE = finish % PAGE_SIZE) (hlt : finish < 2 ^ 32)
    (hleft : finish ≤ index + left * PAGE_SIZE)
    (h : ∀ i, index + i * PAGE_SIZE < finish →
      pagePresent memory s.map (index + i * PAGE_SIZE) = true) :
    ensureHoles memory kmalloc finish (left + 1) index index s = .ok (s, SMK_OK) := by
  induction left generalizing index with
  | zero =>
    rw [Nat.zero_mul, Nat.add_zero] at hleft
    rw [ensureHoles, if_neg (not_lt.mpr hleft), if_neg (not_lt.mpr hleft)]
  | succ left ih =>
    rw [ensureHoles]
    by_cases hi : index < finish
    · have hpres := h 0 (by omega)
      rw [Nat.zero_mul, Nat.add_zero] at hpres
      have hnext : add32 index PAGE_SIZE = index + PAGE_SIZE := by
        refine add32_of_lt ?_
        unfold PAGE_SIZE at *
        omega
      rw [if_pos hi, if_neg (by simp [hpres]), fillHole, if_neg (by simp), ok_bind]
      dsimp only
      rw [if_neg (by simp), hnext]
      refine ih ?_ ?_ fun i hlt => ?_
      · unfold PAGE_SIZE at *
        omega
      · unfold PAGE_SIZE at *
        omega
      · have hsucc : index + PAGE_SIZE + i * PAGE_SIZE = index + (i + 1) * PAGE_SIZE := by
          unfold PAGE_SIZE
          omega
        rw [hsucc] at hlt ⊢
        exact h (i + 1) hlt
    · rw [if_neg hi, if_neg hi]

theorem userEnsure_present (kmalloc : ℕ → Option ℕ) {ptr pages : ℕ}
    (h : ∀ i < pages, ptr + i * PAGE_SIZE < add32 ptr (pages * PAGE_SIZE) →
      pagePresent memory s.map (pageAt ptr i) = true) :
    userEnsure s kmalloc memory ptr pages = .ok (s, SMK_OK) := by
  have hend := add32_lt ptr (pages * PAGE_SIZE)
  have hle : add32 ptr (pages * PAGE_SIZE) ≤ ptr + pages * PAGE_SIZE := Nat.mod_le _ _
  have hcong : ptr % PAGE_SIZE = add32 ptr (pages * PAGE_SIZE) % PAGE_SIZE := by
    rw [add32, Nat.mod_mod_of_dvd _ (by decide), Nat.add_mul_mod_self_right]
  refine ensureHoles_present hcong hend ?_ fun i hi => ?_
  · have hmax : 2 ^ 20 * PAGE_SIZE = 2 ^ 32 := by norm_num [PAGE_SIZE]
    rw [hmax]
    omega
  · have hpage : pageAt ptr i = ptr + i * PAGE_SIZE := add32_of_lt (by omega)
    rw [← hpage]
    refine h i ?_ hi
    by_contra hge
    have hmul := Nat.mul_le_mul_right PAGE_SIZE (not_lt.mp hge)
    omega

/-- The first page that is absent begins a hole. -/
theorem exists_hole {d : PageDirectory} {ptr pages i : ℕ} (hi : i < pages)
    (ha : pagePresent memory d (pageAt ptr i) = false) : ∃ j n, Hole memory d ptr pages j n ∧
      ∀ i < j, pagePresent memory d (pageAt ptr i) = true := by
  have hex : ∃ i, i < pages ∧ pagePresent memory d (pageAt ptr i) = false := ⟨i, hi, ha⟩
  obtain ⟨hj, habsent⟩ := Nat.find_spec hex
  have hbefore : ∀ i < Nat.find hex, pagePresent memory d (pageAt ptr i) = true := by
    intro i hlt
    have hnot := Nat.find_min hex hlt
    simpa [hlt.trans hj] using hnot
  generalize Nat.find hex = j at hj habsent hbefore
  -- the hole ends at the next page that is present, or with the range
  have hend : ∃ n, j + (n + 1) = pages ∨ pagePresent memory d (pageAt ptr (j + (n + 1))) = true :=
    ⟨pages - j - 1, .inl (by omega)⟩
  have hright := Nat.find_spec hend
  have hwithin : ∀ m < Nat.find hend, j + (m + 1) ≠ pages ∧
      pagePresent memory d (pageAt ptr (j + (m + 1))) = false := by
    intro m hm
    have hnot := Nat.find_min hend hm
    rw [not_or] at hnot
    exact ⟨hnot.1, by simpa using hnot.2⟩
  have hle : Nat.find hend ≤ pages - j - 1 := Nat.find_min' hend (.inl (by omega))
  generalize Nat.find hend = n at hright hwithin hle
  refine ⟨j, n + 1, ⟨Nat.succ_pos n, by omega, fun m hm => ?_, ?_, hright⟩, hbefore⟩
  · cases m with
    | zero => exact habsent
    | succ m => exact (hwithin m (by omega)).2
  · rcases Nat.eq_zero_or_pos j with h0 | hpos
    · exact .inl h0
    · exact .inr (hbefore (j - 1) (by omega))

end Records

/-- A record for a hole would have to be at the address of the hole. -/
theorem FillsHoles.present {s : State} {l : List (ℕ × Record)} {kmalloc : ℕ → Option ℕ}
    {memory : ℕ → ℕ} {ptr pages : ℕ} (hptr : 0 < ptr) (hptr' : ptr < 2 ^ 32)
    (h : FillsHoles memory kmalloc s l ptr pages) :
    ∀ i < pages, pagePresent memory s.map (pageAt ptr i) = true := by
  intro i hi
  by_contra habsent
  obtain ⟨s', hrun, hfilled⟩ := h
  obtain ⟨j, n, hhole, hbefore⟩ := exists_hole hi (by simpa using habsent)
  obtain ⟨new, hlist, hnew, -, -, hholes⟩ := hfilled.records
  obtain ⟨x, hx, hfills, -⟩ := hholes j n hhole
  obtain ⟨⟨ps, hps, hzero⟩, -⟩ := userEnsure_zero hrun
  have hmem : x.1 ∈ ps := by
    rw [hnew] at hps
    rw [← List.append_cancel_right hps]
    exact List.mem_map_of_mem hx
  have hpage : pageAt ptr j = 0 := by
    obtain ⟨v, hv, hr⟩ := hlist.alive x (List.mem_append_left l hx)
    obtain ⟨w, hw, hvirt⟩ := hzero x.1 hmem
    rw [hv] at hw
    cases hw
    rw [← hfills.virt, ← hr, hvirt]
  -- a page at 0 lies behind the end of the loop, which has then found all pages present
  have hfar : 2 ^ 32 ≤ ptr + j * PAGE_SIZE := by
    by_contra hlt
    rw [pageAt, add32_of_lt (not_le.mp hlt)] at hpage
    omega
  have hnothing : userEnsure s kmalloc memory ptr pages = .ok (s, SMK_OK) := by
    refine userEnsure_present kmalloc fun i _ hlt => hbefore i ?_
    have hend := add32_lt ptr (pages * PAGE_SIZE)
    by_contra hge
    have hmul := Nat.mul_le_mul_right PAGE_SIZE (not_lt.mp hge)
    omega
  rw [hrun, Except.ok.injEq, Prod.mk.injEq] at hnothing
  rw [hnothing.1] at hnew
  have hnil : new.map Prod.fst = [] := by simpa using hnew
  rw [List.map_eq_nil_iff.mp hnil] at hx
  cases hx

/-- The holes are filled as they should be exactly if there are none. -/
theorem userEnsure_fills_iff {s : State} {l : List (ℕ × Record)} (hl : Listed s.mems s.alloc l)
    (kmalloc : ℕ → Option ℕ) (memory : ℕ → ℕ) {ptr : ℕ} (hptr : 512 * 2 ^ 22 ≤ ptr)
    (hptr' : ptr < 1016 * 2 ^ 22) (pages : ℕ) :
    FillsHoles memory kmalloc s l ptr pages ↔
      ∀ i < pages, pagePresent memory s.map (pageAt ptr i) = true := by
  constructor
  · exact fun h => h.present (by omega) (by omega)
  · intro hpresent
    have hrun := userEnsure_present kmalloc fun i hi _ => hpresent i hi
    refine ⟨s, hrun, hpresent, fun _ _ _ => rfl, [], hl, rfl, List.nodup_nil, by simp, ?_⟩
    intro j n hhole
    have hj : j < pages := (Nat.lt_add_of_pos_right hhole.pos).trans_le hhole.inside
    have habsent := hhole.absent 0 hhole.pos
    rw [Nat.add_zero, hpresent j hj] at habsent
    cases habsent

/-- A process without memory of its own, and six free pages. -/
def newProcess : State :=
  ⟨PhysicalMemory.eightPages 0, newPageDirectory 0, fun _ => none, none, [], [], [], []⟩

/-- The one page of the range gets a frame, and its record is for the address 0 and another one. -/
theorem hole_recorded_at_zero :
    (userEnsure newProcess (fun _ => some 8) (fun _ => 0) 0x80000000 1).toOption.map (fun r =>
      (r.2, (r.1.mems 8).map fun x => (x.pages, x.phys, x.virt),
        Paging.translate r.1.map 0x80000000)) =
        some (SMK_OK, some (1, 0x1000, 0), some 0x3000) ∧
    ¬ FillsHoles (fun _ => 0) (fun _ => some 8) newProcess [] 0x80000000 1 := by
  refine ⟨by decide +kernel, fun h => ?_⟩
  exact absurd (h.present (by decide) (by decide) 0 (by decide)) (by decide)

/-- A process that has 4 MB at the start of its memory. -/
def loadedProcess : State :=
  { newProcess with map := (newPageDirectory 0).setPde 512 (.table ⟨0x1000, userType, fun _ => 1⟩) }

theorem userEnsure_fills_loaded :
    FillsHoles (fun _ => 0) (fun _ => none) loadedProcess [] 0x80000000 3 :=
  (userEnsure_fills_iff (listed_nil _) (fun _ => none) (fun _ => 0) (by decide) (by decide)
    3).mpr (by decide)

end Racoon.Ualloc
