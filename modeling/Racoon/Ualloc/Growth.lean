import Racoon.Mm.PhysmemPages
import Racoon.Paging.Access
import Racoon.Ualloc.UserMemory

/-!
# How a map grows

`user_ensure` only adds pages: one that is present keeps its frame, and a new one gets
a page that was free, as long as `memory_alloc` has one. `page_ensure` never looks at
that answer, so the free pages are counted against those still to be mapped, for each
of which `user_alloc_hard` takes one page and `page_ensure` another.
-/

namespace Racoon.Ualloc
open Lib Paging
open PhysicalMemory (Physmem memoryAlloc Ready SamePool Taken pageAddr pageAddr_injective)
open Env (SMK_OK SMK_NOMEM)

/-- Pages that are present keep their words. -/
def Keeps (d e : PageDirectory) : Prop := ∀ p, present (d.word p) = true → e.word p = d.word p

/-- A page that was not present and is. -/
def New (d e : PageDirectory) (p : ℕ) : Prop :=
  present (d.word p) = false ∧ present (e.word p) = true

/-- Pages have been added, each with a frame of its own that was free. -/
structure Grown (pm pm' : Physmem) (d e : PageDirectory) : Prop where
  pool : SamePool pm pm'
  used : ∀ b, pm.isSet b = true → pm'.isSet b = true
  tables : UserTables e
  keeps : Keeps d e
  word : ∀ p, e.word p = d.word p ∨ present (e.word p) = true
  fresh : ∀ p, New d e p → ∃ b < pm.memoryPages, frameOf (e.word p) = pageAddr pm b ∧
    pm.isSet b = false ∧ pm'.isSet b = true
  apart : ∀ p q, New d e p → New d e q → frameOf (e.word p) = frameOf (e.word q) → p = q

/-- The pages that have still to be mapped. -/
def missing (d : PageDirectory) (U : Finset ℕ) : Finset ℕ :=
  U.filter fun p => present (d.word p) = false

/-- The tables that have still to be made for them. -/
def missingTables (d : PageDirectory) (U : Finset ℕ) : Finset ℕ :=
  (U.image (· / 1024)).filter fun i => tableFlags d i = none

/-- Two pages are free for each page to be mapped, one for each table, and one more; `k` pages have
been taken already for pages to come. -/
def Enough (pm : Physmem) (d : PageDirectory) (U : Finset ℕ) (k : ℕ) : Prop :=
  2 * (missing d U).card + (missingTables d U).card < pm.free.card + k

section Relations
variable {pm pm' pm'' : Physmem} {d e f : PageDirectory} {p : ℕ}

theorem Keeps.refl (d : PageDirectory) : Keeps d d := fun _ _ => rfl

theorem Keeps.trans (h : Keeps d e) (h' : Keeps e f) : Keeps d f := by
  intro p hp
  have hword := h p hp
  rw [h' p (by rw [hword, hp]), hword]

/-- A page that is present still is. -/
theorem Keeps.present (h : Keeps d e) (hp : Paging.present (d.word p) = true) :
    Paging.present (e.word p) = true := by
  rw [h p hp, hp]

theorem Grown.of_words (hpool : SamePool pm pm')
    (hused : ∀ b, pm.isSet b = true → pm'.isSet b = true)
    (he : UserTables e) (h : ∀ p, e.word p = d.word p) : Grown pm pm' d e := by
  have hnone : ∀ p, ¬ New d e p := by
    rintro p ⟨h₁, h₂⟩
    rw [h, h₁] at h₂
    cases h₂
  exact ⟨hpool, hused, he, fun p _ => h p, fun p => .inl (h p), fun p hp => absurd hp (hnone p),
    fun p _ hp => absurd hp (hnone p)⟩

theorem Grown.refl (hd : UserTables d) (pm : Physmem) : Grown pm pm d d :=
  .of_words (.refl pm) (fun _ h => h) hd fun _ => rfl

/-- What is new in both steps has been free in different states. -/
theorem Grown.trans (h : Grown pm pm' d e) (h' : Grown pm' pm'' e f) : Grown pm pm'' d f := by
  have hfirst : ∀ p, New d f p → Paging.present (e.word p) = true →
      New d e p ∧ f.word p = e.word p := fun p hp he => ⟨⟨hp.1, he⟩, h'.keeps p he⟩
  have hsecond : ∀ p, New d f p → ¬ Paging.present (e.word p) = true → New e f p :=
    fun p hp he => ⟨by simpa using he, hp.2⟩
  have hmixed : ∀ p q, New d e p → New e f q → f.word p = e.word p →
      frameOf (f.word p) ≠ frameOf (f.word q) := by
    intro p q hp hq hword heq
    obtain ⟨b, hb, hframe, -, hset⟩ := h.fresh p hp
    obtain ⟨c, hc, hframe', hclear, -⟩ := h'.fresh q hq
    rw [h.pool.pages] at hc
    rw [h.pool.pageAddr] at hframe'
    rw [hword, hframe, hframe'] at heq
    rw [pageAddr_injective hb hc heq, hclear] at hset
    cases hset
  refine ⟨h.pool.trans h'.pool, fun b hb => h'.used b (h.used b hb), h'.tables,
    h.keeps.trans h'.keeps, fun p => ?_, fun p hp => ?_, fun p q hp hq heq => ?_⟩
  · rcases h'.word p with hw | hw
    · rw [hw]
      exact h.word p
    · exact .inr hw
  · by_cases he : Paging.present (e.word p) = true
    · obtain ⟨hnew, hword⟩ := hfirst p hp he
      obtain ⟨b, hb, hframe, hclear, hset⟩ := h.fresh p hnew
      exact ⟨b, hb, by rw [hword, hframe], hclear, h'.used b hset⟩
    · obtain ⟨b, hb, hframe, hclear, hset⟩ := h'.fresh p (hsecond p hp he)
      refine ⟨b, h.pool.pages ▸ hb, by rw [hframe, h.pool.pageAddr], ?_, hset⟩
      rw [Bool.eq_false_iff]
      intro hc
      rw [h.used b hc] at hclear
      cases hclear
  · by_cases hpe : Paging.present (e.word p) = true
    · obtain ⟨hp', hpw⟩ := hfirst p hp hpe
      by_cases hqe : Paging.present (e.word q) = true
      · obtain ⟨hq', hqw⟩ := hfirst q hq hqe
        rw [hpw, hqw] at heq
        exact h.apart p q hp' hq' heq
      · exact absurd heq (hmixed p q hp' (hsecond q hq hqe) hpw)
    · by_cases hqe : Paging.present (e.word q) = true
      · obtain ⟨hq', hqw⟩ := hfirst q hq hqe
        exact absurd heq.symm (hmixed q p hq' (hsecond p hp hpe) hqw)
      · exact h'.apart p q (hsecond p hp hpe) (hsecond q hq hqe) heq

end Relations

/-! ### A round of `page_ensure` -/

section Rounds
variable {pm pm' : Physmem} {d e : PageDirectory} {U : Finset ℕ} {memory : ℕ → ℕ}
  {flags found s k a : ℕ}

/-- There is a table, or one is taken from memory. -/
theorem ensureTable_cases (h : Sharing.Locked.ensureTable flags pm d a = .ok (pm', e)) :
    (pageTablePresent d a = true ∧ pm' = pm ∧ e = d) ∨ d.pde (pageTableOf a) = .absent ∧
      ∃ table ≠ 0, memoryAlloc pm 1 = .ok (pm', table) ∧
        e = d.setPde (pageTableOf a) (.table ⟨table, flags, fun _ => 0⟩) := by
  rw [Sharing.Locked.ensureTable] at h
  by_cases hp : pageTablePresent d a = true
  · rw [if_pos hp] at h
    cases h
    exact .inl ⟨hp, rfl, rfl⟩
  · rw [if_neg hp] at h
    obtain ⟨⟨pm₁, table⟩, halloc, h⟩ := bind_eq_ok.mp h
    dsimp only at h
    by_cases hz : table = 0
    · rw [if_pos hz] at h
      cases h
    · rw [if_neg hz] at h
      cases h
      refine .inr ⟨?_, table, hz, halloc, rfl⟩
      rw [pageTablePresent] at hp
      cases hpde : d.pde (pageTableOf a) with
      | absent => rfl
      | large => simp [hpde] at hp
      | table t => simp [hpde] at hp

/-- Where memory comes from does not matter to the map. -/
theorem ensureTable_map (h : Sharing.Locked.ensureTable flags pm d a = .ok (pm', e)) :
    ∃ tables, ensureTable tables flags d a = .ok e := by
  obtain ⟨hp, -, rfl⟩ | ⟨hpde, table, -, -, rfl⟩ := ensureTable_cases h
  · exact ⟨fun _ => none, if_pos hp⟩
  · have hp : pageTablePresent d a = false := by rw [pageTablePresent, hpde]
    exact ⟨fun _ => some table, by rw [ensureTable, hp]; rfl⟩

theorem ensureEntry_floor (memory : ℕ → ℕ) (flags : ℕ) (pm : Physmem) (d : PageDirectory) (a : ℕ) :
    ensureEntry memory flags pm d (a / PAGE_SIZE * PAGE_SIZE) =
    ensureEntry memory flags pm d a := by
  rw [ensureEntry, ensureEntry, Sharing.Locked.ensureTable, Sharing.Locked.ensureTable,
    pageTablePresent, pageTablePresent, pageTableOf_floor]
  simp only [pageEntryPresent_floor, setEntry_floor]

/-- Only an entry that is not present is written. -/
theorem ensureEntry_keeps (hs : s < 2 ^ 20)
    (h : ensureEntry memory flags pm d (s * PAGE_SIZE) = .ok (pm', e, found)) : Keeps d e := by
  obtain ⟨⟨pm₁, d₁⟩, htable, h⟩ := bind_eq_ok.mp h
  obtain ⟨tables, hmap⟩ := ensureTable_map htable
  obtain ⟨hword, -⟩ := ensureTable_eq hmap
  have hfirst : Keeps d d₁ := fun p _ => hword p
  dsimp only at h
  by_cases hp : pageEntryPresent memory d₁ (s * PAGE_SIZE) = true
  · rw [if_pos hp] at h
    cases h
    exact hfirst
  · rw [if_neg hp] at h
    obtain ⟨⟨pm₂, frame⟩, -, h⟩ := bind_eq_ok.mp h
    obtain ⟨d₂, hset, h⟩ := bind_eq_ok.mp h
    cases h
    rw [pageEntryPresent_eq hs (setEntry_not_large hs hset)] at hp
    refine hfirst.trans fun p hpres => ?_
    rw [(setEntry_eq hs hset).1, if_neg]
    rintro rfl
    exact hp hpres

/-- A table costs a page, and is missed no longer. -/
theorem ensureTable_grown (hr : Ready pm) (hd : UserTables d) (hs : s ∈ U) (hs' : s < 2 ^ 20)
    (hen : Enough pm d U k)
    (h : Sharing.Locked.ensureTable flags pm d (s * PAGE_SIZE) = .ok (pm', e)) :
    Ready pm' ∧ Grown pm pm' d e ∧ Enough pm' e U k ∧ ∀ p, e.word p = d.word p := by
  obtain ⟨tables, hmap⟩ := ensureTable_map h
  obtain ⟨hgrow, hword⟩ := ensureTable_grows hd hmap
  have hmissing : missing e U = missing d U := by simp only [missing, hword]
  obtain ⟨-, rfl, rfl⟩ | ⟨hpde, table, hz, halloc, he⟩ := ensureTable_cases h
  · exact ⟨hr, .refl hd _, hen, hword⟩
  · obtain ⟨hr', hpool, ⟨hzero, -⟩ | ⟨b, -, htaken⟩⟩ := hr.alloc le_rfl halloc
    · exact absurd hzero hz
    · refine ⟨hr', .of_words hpool (fun p hp => ?_) hgrow.tables hword, ?_, hword⟩
      · rw [htaken.set, hp, Bool.or_true]
      · rw [pageTableOf_page hs'] at hpde he
        have hmem : s / 1024 ∈ missingTables d U := by
          refine Finset.mem_filter.mpr ⟨Finset.mem_image_of_mem _ hs, ?_⟩
          rw [tableFlags, hpde]
        have hsub : missingTables e U ⊆ (missingTables d U).erase (s / 1024) := by
          intro i hi
          obtain ⟨hi, hnone⟩ := Finset.mem_filter.mp hi
          refine Finset.mem_erase.mpr ⟨?_, Finset.mem_filter.mpr ⟨hi, ?_⟩⟩
          · rintro rfl
            simp [he, tableFlags, PageDirectory.setPde] at hnone
          · cases hflags : tableFlags d i with
            | none => rfl
            | some g =>
              rw [hgrow.kept i g hflags] at hnone
              cases hnone
        have hcard := Finset.card_le_card hsub
        rw [Finset.card_erase_of_mem hmem] at hcard
        have hpos := Finset.card_pos.mpr ⟨_, hmem⟩
        have hcount := htaken.count
        unfold Enough at hen ⊢
        rw [hmissing]
        omega

/-- A page that is missing gets a frame: there is one, since for each of the `k + 1` pages still to
come two pages were free and one has been taken. -/
theorem mapFrame_grown (hr : Ready pm) (hd : UserTables d) (hs : s ∈ U) (hs' : s < 2 ^ 20)
    (hflags : flags < PAGE_SIZE) (habsent : present (d.word s) = false)
    (hen : Enough pm d U (k + 1)) (hk : k + 1 ≤ (missing d U).card) {frame : ℕ}
    (halloc : memoryAlloc pm 1 = .ok (pm', frame))
    (hset : d.setEntry (s * PAGE_SIZE) (entryWord frame flags) = .ok e) :
    Ready pm' ∧ Grown pm pm' d e ∧ Enough pm' e U k ∧
      ∀ p, present (e.word p) = (present (d.word p) || decide (p = s)) := by
  unfold Enough at hen
  obtain ⟨b, rfl, htaken⟩ := hr.alloc_one (by omega) halloc
  obtain ⟨hr', hpool, -⟩ := hr.alloc le_rfl halloc
  obtain ⟨hgrow, -, hword⟩ := setEntry_grows hd hs' flags hset
  have hframe : frameOf (entryWord (pageAddr pm b) flags) = pageAddr pm b := by
    rw [frameOf_entryWord _ hflags]
    exact Nat.div_mul_cancel (Nat.dvd_of_mod_eq_zero (PhysicalMemory.pageAddr_aligned hr.aligned b))
  have hself : e.word s = entryWord (pageAddr pm b) flags := by rw [hword, if_pos rfl]
  have hother : ∀ p, p ≠ s → e.word p = d.word p := fun p hp => by rw [hword, if_neg hp]
  have hpres : ∀ p, present (e.word p) = (present (d.word p) || decide (p = s)) := by
    intro p
    by_cases hp : p = s
    · rw [hp, hself, present_entryWord, decide_eq_true rfl, Bool.or_true]
    · rw [hother p hp, decide_eq_false hp, Bool.or_false]
  have hnew : ∀ p, New d e p → p = s := by
    rintro p ⟨h₁, h₂⟩
    by_contra hp
    rw [hother p hp, h₁] at h₂
    cases h₂
  refine ⟨hr', ⟨hpool, fun p hp => ?_, hgrow.tables, fun p hp => hother p ?_, fun p => ?_,
    fun p hp => ?_, fun p q hp hq _ => (hnew p hp).trans (hnew q hq).symm⟩, ?_, hpres⟩
  · rw [htaken.set, hp, Bool.or_true]
  · rintro rfl
    rw [habsent] at hp
    cases hp
  · by_cases hp : p = s
    · rw [hp, hself]
      exact .inr (present_entryWord _ _)
    · exact .inl (hother p hp)
  · rw [hnew p hp, hself, hframe]
    have hroom := htaken.room
    refine ⟨b, by omega, rfl, htaken.clear b le_rfl (by omega), ?_⟩
    rw [htaken.set, decide_eq_true ⟨le_rfl, by omega⟩, Bool.true_or]
  · have hmem : s ∈ missing d U := Finset.mem_filter.mpr ⟨hs, habsent⟩
    have hmissing : missing e U = (missing d U).erase s := by
      ext p
      simp only [missing, Finset.mem_filter, Finset.mem_erase, hpres, Bool.or_eq_false_iff,
        decide_eq_false_iff_not]
      tauto
    have htables : missingTables e U ⊆ missingTables d U := by
      intro i hi
      obtain ⟨hi, hnone⟩ := Finset.mem_filter.mp hi
      refine Finset.mem_filter.mpr ⟨hi, ?_⟩
      cases hf : tableFlags d i with
      | none => rfl
      | some g =>
        rw [hgrow.kept i g hf] at hnone
        cases hnone
    have hcard := Finset.card_le_card htables
    have hcount := htaken.count
    unfold Enough
    rw [hmissing, Finset.card_erase_of_mem hmem]
    omega

/-- The pages from `s` on have still to be mapped, and those before them are not touched. -/
structure Pending (d : PageDirectory) (U : Finset ℕ) (s n : ℕ) : Prop where
  user : UserPages s n
  mem : ∀ p, s ≤ p → p < s + n → p ∈ U
  absent : ∀ p, s ≤ p → p < s + n → present (d.word p) = false

theorem Pending.card_le {n : ℕ} (h : Pending d U s n) : n ≤ (missing d U).card := by
  have hsub : Finset.Ico s (s + n) ⊆ missing d U := by
    intro p hp
    obtain ⟨hp, hp'⟩ := Finset.mem_Ico.mp hp
    exact Finset.mem_filter.mpr ⟨h.mem p hp hp', h.absent p hp hp'⟩
  have hcard := Finset.card_le_card hsub
  rwa [Nat.card_Ico, Nat.add_sub_cancel_left] at hcard

theorem ensureEntry_grown {n : ℕ} (hr : Ready pm) (hd : UserTables d) (hp : Pending d U s (n + 1))
    (hflags : flags < PAGE_SIZE) (hen : Enough pm d U (n + 1))
    (h : ensureEntry memory flags pm d (s * PAGE_SIZE) = .ok (pm', e, found)) :
    Ready pm' ∧ Grown pm pm' d e ∧ Enough pm' e U n ∧
      ∀ p, present (e.word p) = (present (d.word p) || decide (p = s)) := by
  have hfloor := hp.user.floor
  have hceil := hp.user.ceiling
  have hmem := hp.mem s le_rfl (by omega)
  have habsent := hp.absent s le_rfl (by omega)
  have hcard := hp.card_le
  obtain ⟨⟨pm₁, d₁⟩, htable, h⟩ := bind_eq_ok.mp h
  obtain ⟨hr₁, hgrown, hen₁, hword⟩ := ensureTable_grown hr hd hmem (by omega) hen htable
  have hmissing : missing d₁ U = missing d U := by simp only [missing, hword]
  have hnone : pageEntryPresent memory d₁ (s * PAGE_SIZE) = false := by
    rw [pageEntryPresent_eq (by omega) (hgrown.tables.pde_ne ⟨hfloor, by omega⟩), hword, habsent]
  dsimp only at h
  rw [hnone, if_neg (by simp)] at h
  obtain ⟨⟨pm₂, frame⟩, halloc, h⟩ := bind_eq_ok.mp h
  obtain ⟨d₂, hset, h⟩ := bind_eq_ok.mp h
  cases h
  obtain ⟨hr₂, hgrown', hen₂, hpres⟩ := mapFrame_grown hr₁ hgrown.tables hmem (by omega) hflags
    (by rw [hword, habsent]) hen₁ (by rw [hmissing]; exact hcard) halloc hset
  exact ⟨hr₂, hgrown.trans hgrown', hen₂, fun p => by rw [hpres, hword]⟩

/-- The loop of `page_ensure` over pages that are all missing. -/
theorem ensureFrom_grown {n alreadies : ℕ} (hr : Ready pm) (hd : UserTables d)
    (hp : Pending d U s n) (hflags : flags < PAGE_SIZE) (hen : Enough pm d U n)
    (h : ensureFrom memory flags n (s * PAGE_SIZE) pm d alreadies = .ok (pm', e, found)) :
    Ready pm' ∧ Grown pm pm' d e ∧ Enough pm' e U 0 ∧
      ∀ p, present (e.word p) = (present (d.word p) || decide (s ≤ p ∧ p < s + n)) := by
  induction n generalizing s pm d alreadies with
  | zero =>
    cases h
    refine ⟨hr, .refl hd _, hen, fun p => ?_⟩
    rw [decide_eq_false (by omega), Bool.or_false]
  | succ n ih =>
    have hceil := hp.user.ceiling
    obtain ⟨⟨pm₁, d₁, count⟩, hentry, h⟩ := bind_eq_ok.mp h
    obtain ⟨hr₁, hgrown, hen₁, hpres⟩ := ensureEntry_grown hr hd hp hflags hen hentry
    dsimp only at h
    rw [add32_page (by omega)] at h
    have hrest : Pending d₁ U (s + 1) n := by
      refine ⟨hp.user.next, fun p h₁ h₂ => hp.mem p (by omega) (by omega), fun p h₁ h₂ => ?_⟩
      rw [hpres, hp.absent p (by omega) (by omega), decide_eq_false (by omega), Bool.or_false]
    obtain ⟨hr₂, hgrown', hen₂, hpres'⟩ := ih hr₁ hgrown.tables hrest hen₁ h
    refine ⟨hr₂, hgrown.trans hgrown', hen₂, fun p => ?_⟩
    rw [hpres', hpres, Bool.or_assoc, ← Bool.decide_or]
    congr 1
    exact decide_eq_decide.mpr (by omega)

theorem ensureFrom_floor (memory : ℕ → ℕ) (flags n a : ℕ) (pm : Physmem) (d : PageDirectory)
    (alreadies : ℕ) : ensureFrom memory flags n (a / PAGE_SIZE * PAGE_SIZE) pm d alreadies =
      ensureFrom memory flags n a pm d alreadies := by
  induction n generalizing a pm d alreadies with
  | zero => rfl
  | succ n ih => simp only [ensureFrom, ensureEntry_floor, ← add32_floor, ih]

theorem ensureFrom_keeps {n alreadies : ℕ} (ha : a < 2 ^ 32)
    (h : ensureFrom memory flags n a pm d alreadies = .ok (pm', e, found)) : Keeps d e := by
  induction n generalizing a pm d alreadies with
  | zero =>
    cases h
    exact .refl _
  | succ n ih =>
    obtain ⟨⟨pm₁, d₁, count⟩, hentry, h⟩ := bind_eq_ok.mp h
    rw [← ensureEntry_floor] at hentry
    have hpage : a / PAGE_SIZE < 2 ^ 20 := by
      unfold PAGE_SIZE
      omega
    exact (ensureEntry_keeps hpage hentry).trans (ih (add32_lt _ _) h)

end Rounds

/-! ### `user_ensure` -/

section Ensure
variable {s t : State} {U : Finset ℕ} {memory : ℕ → ℕ} {virtual pages : ℕ} {rc : ℤ}

/-- A process with free memory for the pages of `U`. -/
structure Supplied (s : State) (U : Finset ℕ) : Prop where
  ready : Ready s.pm
  tables : UserTables s.map
  enough : Enough s.pm s.map U 0

/-- The pages of a range have been added to the map. -/
structure Extends (s t : State) (U : Finset ℕ) (j n : ℕ) : Prop where
  supplied : Supplied t U
  grown : Grown s.pm t.pm s.map t.map
  present : ∀ p, Paging.present (t.map.word p) =
    (Paging.present (s.map.word p) || decide (j ≤ p ∧ p < j + n))

theorem Extends.refl (h : Supplied s U) (j : ℕ) : Extends s s U j 0 := by
  refine ⟨h, .refl h.tables _, fun p => ?_⟩
  rw [decide_eq_false (by omega), Bool.or_false]

/-- Two ranges with a page between them that is present already. -/
theorem Extends.across {u : State} {j j' m k n : ℕ} (h : Extends s t U j m)
    (h' : Extends t u U j' k) (hp : Paging.present (s.map.word (j + m)) = true)
    (hj : j' = j + m + 1) (hn : n = m + 1 + k) : Extends s u U j n := by
  refine ⟨h'.supplied, h.grown.trans h'.grown, fun p => ?_⟩
  rw [h'.present, h.present]
  by_cases hpm : p = j + m
  · rw [hpm, hp, Bool.true_or, Bool.true_or, Bool.true_or]
  · rw [Bool.or_assoc, ← Bool.decide_or]
    congr 1
    exact decide_eq_decide.mpr (by omega)

theorem insert_same {p : ℕ} {r : Record} (h : s.insert p r = .ok t) :
    t.pm = s.pm ∧ t.map = s.map := by
  obtain ⟨mems, -, h⟩ := bind_eq_ok.mp h
  cases h
  exact ⟨rfl, rfl⟩

theorem memoryFree_map {x : PhysicalMemory.Block} (h : s.memoryFree x = .ok t) :
    t.map = s.map := by
  obtain ⟨pm, -, h⟩ := bind_eq_ok.mp h
  cases h
  rfl

/-- Memory for the record and for the region was found, or nothing has been mapped. -/
theorem userAllocHard_cases {kmalloc : Option ℕ}
    (h : userAllocHard s kmalloc memory virtual pages = .ok (t, rc)) :
    rc ≠ SMK_OK ∧ t.map = s.map ∨ 1 ≤ pages ∧ ∃ pm₁ location found,
      memoryAlloc s.pm pages = .ok (pm₁, location) ∧ location ≠ 0 ∧
      pageEnsure memory pm₁ s.map virtual pages userType = .ok (t.pm, t.map, found) := by
  obtain ⟨_, hpages, h⟩ := bind_eq_ok.mp h
  obtain ⟨⟨pm₁, location⟩, halloc, h⟩ := bind_eq_ok.mp h
  dsimp only at h
  by_cases hl : location = 0
  · rw [if_pos hl] at h
    cases h
    exact .inl ⟨by decide, rfl⟩
  · rw [if_neg hl] at h
    cases kmalloc with
    | none =>
      obtain ⟨s₁, hfree, h⟩ := bind_eq_ok.mp h
      cases h
      have hmap := memoryFree_map hfree
      exact .inl ⟨by decide, hmap⟩
    | some mem =>
      obtain ⟨⟨pm₂, map, found⟩, hensure, h⟩ := bind_eq_ok.mp h
      obtain ⟨_, hfound, h⟩ := bind_eq_ok.mp h
      obtain ⟨s₁, hinsert, h⟩ := bind_eq_ok.mp h
      cases h
      obtain ⟨hpm, hmap⟩ := insert_same hinsert
      refine .inr ⟨Nat.pos_of_ne_zero (assert_eq_ok.mp hpages), pm₁, location, found,
        halloc, hl, ?_⟩
      rw [hpm, hmap]
      exact hensure

theorem userAllocHard_keeps {kmalloc : Option ℕ}
    (h : userAllocHard s kmalloc memory virtual pages = .ok (t, rc)) : Keeps s.map t.map := by
  obtain ⟨-, hmap⟩ | ⟨-, pm₁, location, found, -, -, hensure⟩ := userAllocHard_cases h
  · rw [hmap]
    exact .refl _
  · exact ensureFrom_keeps (add32_lt _ _) hensure

/-- A hole is filled. The region takes one page for each of its pages, before `page_ensure` takes
another. -/
theorem userAllocHard_extends {kmalloc : Option ℕ} (hs : Supplied s U)
    (hp : Pending s.map U (virtual / PAGE_SIZE) pages)
    (h : userAllocHard s kmalloc memory virtual pages = .ok (t, SMK_OK)) :
    Extends s t U (virtual / PAGE_SIZE) pages := by
  obtain ⟨hr, hd, hen⟩ := hs
  obtain ⟨hrc, -⟩ | ⟨hn, pm₁, location, found, halloc, hl, hensure⟩ := userAllocHard_cases h
  · exact absurd rfl hrc
  · obtain ⟨hr₁, hpool, ⟨hzero, -⟩ | ⟨b, -, htaken⟩⟩ := hr.alloc hn halloc
    · exact absurd hzero hl
    · have hcount := htaken.count
      have hen₁ : Enough pm₁ s.map U pages := by
        unfold Enough at hen ⊢
        omega
      have hgrown : Grown s.pm pm₁ s.map s.map :=
        .of_words hpool (fun p hp => by rw [htaken.set, hp, Bool.or_true]) hd fun _ => rfl
      rw [pageEnsure, ensure_start hp.user, ← ensureFrom_floor] at hensure
      obtain ⟨hr₂, hgrown', hen₂, hpres⟩ := ensureFrom_grown hr₁ hd hp (convertPagingTypes_lt _)
        hen₁ hensure
      exact ⟨⟨hr₂, hgrown'.tables, hen₂⟩, hgrown.trans hgrown', hpres⟩

theorem pagePresent_word {d : PageDirectory} (hd : UserTables d) {a : ℕ}
    (ha : 0x80000 ≤ a / PAGE_SIZE ∧ a / PAGE_SIZE < 0xFE000) :
    pagePresent memory d a = present (d.word (a / PAGE_SIZE)) := by
  rw [← pageEntryPresent_eq (by omega) (hd.pde_ne ha), pageEntryPresent_floor, pagePresent,
    pageTablePresent, pageEntryPresent]
  cases d.pde (pageTableOf a) <;> simp

/-- The range that `user_ensure` goes through: `n` pages, all of them in `U`. -/
structure Range (U : Finset ℕ) (ptr n : ℕ) : Prop where
  user : UserPages (ptr / PAGE_SIZE) n
  mem : ∀ p, ptr / PAGE_SIZE ≤ p → p < ptr / PAGE_SIZE + n → p ∈ U

theorem page_add (ptr i : ℕ) : (ptr + i * PAGE_SIZE) / PAGE_SIZE = ptr / PAGE_SIZE + i :=
  Nat.add_mul_div_right _ _ (by decide)

/-- The pages from number `j` up to number `i` are missing, and are filled. -/
theorem Range.fill {ptr n i j : ℕ} {kmalloc : Option ℕ} (hR : Range U ptr n) (hs : Supplied s U)
    (hji : j ≤ i) (hin : i ≤ n) (habsent : ∀ p, ptr / PAGE_SIZE + j ≤ p →
      p < ptr / PAGE_SIZE + i → present (s.map.word p) = false)
    (h : userAllocHard s kmalloc memory (ptr + j * PAGE_SIZE)
      (sub32 (ptr + i * PAGE_SIZE) (ptr + j * PAGE_SIZE) / PAGE_SIZE) = .ok (t, SMK_OK)) :
    Extends s t U (ptr / PAGE_SIZE + j) (i - j) := by
  have hfloor := hR.user.floor
  have hceil := hR.user.ceiling
  have hcount : sub32 (ptr + i * PAGE_SIZE) (ptr + j * PAGE_SIZE) / PAGE_SIZE = i - j := by
    unfold sub32
    unfold PAGE_SIZE at *
    omega
  rw [hcount] at h
  rw [← page_add]
  refine userAllocHard_extends hs ?_ h
  rw [page_add]
  exact ⟨⟨by omega, by omega⟩, fun p _ _ => hR.mem p (by omega) (by omega),
    fun p _ _ => habsent p (by omega) (by omega)⟩

/-- By induction on the rounds: the pages from `last_start` up to `index` have been found missing,
and what lies before them has been dealt with. -/
theorem ensureHoles_extends {kmalloc : ℕ → Option ℕ} {ptr n i j left : ℕ} (hR : Range U ptr n)
    (hs : Supplied s U) (hji : j ≤ i) (hin : i ≤ n) (habsent : ∀ p, ptr / PAGE_SIZE + j ≤ p →
      p < ptr / PAGE_SIZE + i → present (s.map.word p) = false)
    (h : ensureHoles memory kmalloc (ptr + n * PAGE_SIZE) left (ptr + i * PAGE_SIZE)
      (ptr + j * PAGE_SIZE) s = .ok (t, SMK_OK)) :
    Extends s t U (ptr / PAGE_SIZE + j) (n - j) := by
  have hfloor := hR.user.floor
  have hceil := hR.user.ceiling
  induction left generalizing s i j with
  | zero => cases h
  | succ left ih =>
    have hlt : ∀ m, ptr + m * PAGE_SIZE < ptr + n * PAGE_SIZE ↔ m < n := by
      intro m
      unfold PAGE_SIZE
      omega
    rw [ensureHoles] at h
    simp only [hlt] at h
    by_cases hi : i < n
    · have hnext : add32 (ptr + i * PAGE_SIZE) PAGE_SIZE = ptr + (i + 1) * PAGE_SIZE := by
        unfold add32
        unfold PAGE_SIZE at *
        omega
      have hpage : pagePresent memory s.map (ptr + i * PAGE_SIZE) =
          present (s.map.word (ptr / PAGE_SIZE + i)) := by
        rw [← page_add]
        refine pagePresent_word hs.tables ?_
        rw [page_add]
        omega
      rw [if_pos hi, hpage, hnext] at h
      by_cases hp : present (s.map.word (ptr / PAGE_SIZE + i)) = false
      · rw [if_pos hp] at h
        refine ih hs (by omega) (by omega) (fun p h₁ h₂ => ?_) h
        by_cases hpi : p = ptr / PAGE_SIZE + i
        · rw [hpi, hp]
        · exact habsent p h₁ (by omega)
      · rw [if_neg hp] at h
        obtain ⟨⟨s₁, rc₁⟩, hfill, h⟩ := bind_eq_ok.mp h
        dsimp only at h
        by_cases hrc : rc₁ = SMK_OK
        · rw [if_neg (not_not.mpr hrc)] at h
          rw [hrc, fillHole] at hfill
          have hfirst : Extends s s₁ U (ptr / PAGE_SIZE + j) (i - j) := by
            by_cases hij : i = j
            · rw [if_neg (by simp [hij])] at hfill
              cases hfill
              rw [hij, Nat.sub_self]
              exact .refl hs _
            · have hne : ptr + i * PAGE_SIZE ≠ ptr + j * PAGE_SIZE := by
                unfold PAGE_SIZE
                omega
              rw [if_pos hne] at hfill
              exact hR.fill hs hji hin habsent hfill
          have hrest := ih hfirst.supplied le_rfl hi (fun p _ _ => by omega) h
          refine hfirst.across hrest ?_ (by omega) (by omega)
          rw [show ptr / PAGE_SIZE + j + (i - j) = ptr / PAGE_SIZE + i by omega]
          simpa using hp
        · rw [if_pos hrc] at h
          cases h
          exact absurd rfl hrc
    · rw [if_neg hi] at h
      have hin' : i = n := by omega
      rw [hin'] at habsent
      by_cases hj : j < n
      · rw [if_pos hj] at h
        exact hR.fill hs (by omega) le_rfl habsent h
      · rw [if_neg hj] at h
        cases h
        rw [show n - j = 0 by omega]
        exact .refl hs _

theorem userEnsure_extends {kmalloc : ℕ → Option ℕ} {ptr n : ℕ} (hR : Range U ptr n)
    (hs : Supplied s U) (h : userEnsure s kmalloc memory ptr n = .ok (t, SMK_OK)) :
    Extends s t U (ptr / PAGE_SIZE) n := by
  have hceil := hR.user.ceiling
  have hend : add32 ptr (n * PAGE_SIZE) = ptr + n * PAGE_SIZE := by
    refine add32_of_lt ?_
    unfold PAGE_SIZE at *
    omega
  have hzero : ptr = ptr + 0 * PAGE_SIZE := by rw [Nat.zero_mul, Nat.add_zero]
  rw [userEnsure, hend] at h
  nth_rewrite 2 [hzero] at h
  nth_rewrite 3 [hzero] at h
  exact ensureHoles_extends (j := 0) hR hs le_rfl (Nat.zero_le n) (fun p _ _ => by omega) h

/-- What relates the states before and after each call of `user_alloc_hard` does so for the whole
loop, whatever the range is. -/
theorem ensureHoles_rel {R : State → State → Prop} (hrefl : ∀ s, R s s)
    (htrans : ∀ s t u, R s t → R t u → R s u)
    (hstep : ∀ s t kmalloc virtual pages rc,
      userAllocHard s kmalloc memory virtual pages = .ok (t, rc) → R s t)
    {kmalloc : ℕ → Option ℕ} {finish left index lastStart : ℕ}
    (h : ensureHoles memory kmalloc finish left index lastStart s = .ok (t, rc)) : R s t := by
  induction left generalizing index lastStart s with
  | zero => cases h
  | succ left ih =>
    rw [ensureHoles] at h
    by_cases hi : index < finish
    · rw [if_pos hi] at h
      by_cases hp : pagePresent memory s.map index = false
      · rw [if_pos hp] at h
        exact ih h
      · rw [if_neg hp] at h
        obtain ⟨⟨s₁, rc₁⟩, hfill, h⟩ := bind_eq_ok.mp h
        have hfirst : R s s₁ := by
          rw [fillHole] at hfill
          by_cases hl : index ≠ lastStart
          · rw [if_pos hl] at hfill
            exact hstep _ _ _ _ _ _ hfill
          · rw [if_neg hl] at hfill
            cases hfill
            exact hrefl _
        dsimp only at h
        by_cases hrc : rc₁ ≠ SMK_OK
        · rw [if_pos hrc] at h
          cases h
          exact hfirst
        · rw [if_neg hrc] at h
          exact htrans _ _ _ hfirst (ih h)
    · rw [if_neg hi] at h
      by_cases hl : lastStart < finish
      · rw [if_pos hl] at h
        exact hstep _ _ _ _ _ _ h
      · rw [if_neg hl] at h
        cases h
        exact hrefl _

/-- No page that is present is changed. -/
theorem userEnsure_keeps {kmalloc : ℕ → Option ℕ} {ptr n : ℕ}
    (h : userEnsure s kmalloc memory ptr n = .ok (t, rc)) : Keeps s.map t.map :=
  ensureHoles_rel (R := fun s t => Keeps s.map t.map) (fun _ => .refl _) (fun _ _ _ => .trans)
    (fun _ _ _ _ _ _ => userAllocHard_keeps) h

end Ensure

end Racoon.Ualloc
