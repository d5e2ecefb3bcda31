import Racoon.Paging.Spaces

/-!
# What a process can reach

In every run each frame that a directory uses is held for that use: the directory
itself, its tables and the pages that were made for it. The holder of a frame is one,
so a process that runs outside the kernel reaches no page that was made for another
process, no table and no directory.
-/

namespace Racoon.Paging
open Lib
variable {d e f : PageDirectory} {tables : ℕ → Option ℕ} {T T' : ℕ → Prop} {s n : ℕ}

/-! ### Tables -/

/-- New tables are in `T`, at the frames that `memory_alloc` has answered; the others stay. -/
structure Tabled (tables : ℕ → Option ℕ) (T : ℕ → Prop) (d e : PageDirectory) : Prop where
  frame : e.frame = d.frame
  table : ∀ i, tableFrame e i = tableFrame d i ∨
    tableFrame d i = none ∧ T i ∧ tableFrame e i = tables i

theorem Tabled.refl (tables : ℕ → Option ℕ) (T : ℕ → Prop) (d : PageDirectory) :
    Tabled tables T d d := ⟨rfl, fun _ => .inl rfl⟩

theorem Tabled.trans (h : Tabled tables T d e) (h' : Tabled tables T e f) :
    Tabled tables T d f := by
  refine ⟨h'.frame.trans h.frame, fun i => ?_⟩
  rcases h.table i with hi | ⟨hnone, hT, hi⟩
  · rcases h'.table i with hi' | ⟨hnone', hT, hi'⟩
    · exact .inl (hi'.trans hi)
    · exact .inr ⟨hi ▸ hnone', hT, hi'⟩
  · rcases h'.table i with hi' | ⟨-, -, hi'⟩
    · exact .inr ⟨hnone, hT, hi'.trans hi⟩
    · exact .inr ⟨hnone, hT, hi'⟩

theorem Tabled.mono (h : Tabled tables T d e) (hT : ∀ i, T i → T' i) : Tabled tables T' d e :=
  ⟨h.frame, fun i => (h.table i).imp_right fun hi => ⟨hi.1, hT i hi.2.1, hi.2.2⟩⟩

theorem setEntry_tabled {a w : ℕ} (h : d.setEntry a w = .ok e) : Tabled tables T d e := by
  rw [PageDirectory.setEntry] at h
  cases ht : d.pde (pageTableOf a) with
  | absent => rw [ht] at h; cases h
  | large => rw [ht] at h; cases h
  | table t =>
    rw [ht] at h
    cases h
    refine ⟨rfl, fun i => .inl ?_⟩
    simp only [tableFrame, PageDirectory.setPde]
    by_cases hi : i = pageTableOf a
    · rw [hi, Function.update_self, ht]
    · rw [Function.update_of_ne hi]

theorem ensureTable_tabled {flags a : ℕ} (h : ensureTable tables flags d a = .ok e) :
    Tabled tables (· = pageTableOf a) d e := by
  rw [ensureTable, pageTablePresent] at h
  cases ht : d.pde (pageTableOf a) with
  | large =>
    rw [ht] at h
    cases h
    exact .refl ..
  | table t =>
    rw [ht] at h
    cases h
    exact .refl ..
  | absent =>
    rw [ht, if_neg (by simp)] at h
    obtain ⟨frame, hframe, h⟩ := bind_eq_ok.mp h
    cases h
    refine ⟨rfl, fun i => ?_⟩
    by_cases hi : i = pageTableOf a
    · refine .inr ⟨?_, hi, ?_⟩
      · rw [tableFrame, hi, ht]
      · rw [tableFrame, hi, deref_eq_ok.mp hframe, PageDirectory.setPde]
        dsimp only
        rw [Function.update_self]
    · refine .inl ?_
      simp only [tableFrame, PageDirectory.setPde]
      rw [Function.update_of_ne hi]

/-- The page `s` is the first of those that a loop touches. -/
theorem touched_first (hs : s < 2 ^ 20) (n : ℕ) :
    ∀ i, i = pageTableOf (s * PAGE_SIZE) → Touched s (n + 1) i := by
  rintro i rfl
  exact ⟨s, le_rfl, by omega, pageTableOf_page hs⟩

theorem touched_rest (s n : ℕ) : ∀ i, Touched (s + 1) n i → Touched s (n + 1) i := by
  rintro i ⟨v, hv, hlt, rfl⟩
  exact ⟨v, by omega, by omega, rfl⟩

theorem directMapFrom_tabled (hu : UserPages s n) {flags phys : ℕ}
    (h : directMapFrom tables flags n phys (s * PAGE_SIZE) d = .ok e) :
    Tabled tables (Touched s n) d e := by
  induction n generalizing s phys d with
  | zero =>
    cases h
    exact .refl ..
  | succ n ih =>
    have hceil := hu.ceiling
    obtain ⟨d₁, h₁, h⟩ := bind_eq_ok.mp h
    obtain ⟨d₂, h₂, h⟩ := bind_eq_ok.mp h
    rw [add32_page (by omega)] at h
    have hfirst := (ensureTable_tabled h₁).mono (touched_first (by omega) n)
    exact (hfirst.trans (setEntry_tabled h₂)).trans ((ih hu.next h).mono (touched_rest s n))

theorem ensureFrom_tabled (hu : UserPages s n) {memory : ℕ → ℕ} {frames : ℕ → ℕ}
    {flags a a' : ℕ} (h : ensureFrom memory tables frames flags n (s * PAGE_SIZE) d a =
      .ok (e, a')) : Tabled tables (Touched s n) d e := by
  induction n generalizing s d a with
  | zero =>
    cases h
    exact .refl ..
  | succ n ih =>
    have hceil := hu.ceiling
    obtain ⟨⟨d₁, found⟩, h₁, h⟩ := bind_eq_ok.mp h
    obtain ⟨d₂, h₂, h₁⟩ := bind_eq_ok.mp h₁
    dsimp only at h
    rw [add32_page (by omega)] at h
    have hround : Tabled tables (Touched s (n + 1)) d d₁ := by
      have hfirst := (ensureTable_tabled h₂).mono (touched_first (by omega) n)
      split_ifs at h₁
      · cases h₁
        exact hfirst
      · obtain ⟨d₃, h₃, h₁⟩ := bind_eq_ok.mp h₁
        cases h₁
        exact hfirst.trans (setEntry_tabled h₃)
    exact hround.trans ((ih hu.next h).mono (touched_rest s n))

theorem releaseFrom_tabled {memory : ℕ → ℕ} {a : ℕ}
    (h : releaseFrom memory n a d = .ok e) : Tabled tables T d e := by
  induction n generalizing a d with
  | zero =>
    cases h
    exact .refl ..
  | succ n ih =>
    obtain ⟨d₁, h₁, h⟩ := bind_eq_ok.mp h
    rw [clearEntry] at h₁
    split_ifs at h₁
    · exact (setEntry_tabled h₁).trans (ih h)
    · cases h₁
      exact ih h

theorem mapOutFrom_tabled {memory : ℕ → ℕ} {a : ℕ} {freed freed' : List ℕ}
    (h : mapOutFrom memory n a d freed = .ok (e, freed')) : Tabled tables T d e := by
  induction n generalizing a d freed with
  | zero =>
    cases h
    exact .refl ..
  | succ n ih =>
    rw [mapOutFrom] at h
    split_ifs at h
    · obtain ⟨d₁, h₁, h⟩ := bind_eq_ok.mp h
      exact (setEntry_tabled h₁).trans (ih h)
    · exact ih h

/-! ### Words -/

/-- A round of `page_ensure` gives the page a frame if it has none. -/
theorem ensureEntry_eq (hd : Split d) (hs : 0x80000 ≤ s ∧ s < 0xFE000) {memory : ℕ → ℕ}
    {frames : ℕ → ℕ} {flags count : ℕ}
    (h : ensureEntry memory tables frames flags d (s * PAGE_SIZE) = .ok (e, count)) :
    Split e ∧ ∀ p, e.word p =
      if p = s ∧ present (d.word p) = false then entryWord (frames p) flags else d.word p := by
  obtain ⟨d₁, h₁, h⟩ := bind_eq_ok.mp h
  obtain ⟨hw₁, hl₁⟩ := ensureTable_eq h₁
  have hd₁ := hd.congr hl₁
  have hlt : s < 2 ^ 20 := by omega
  rw [pageEntryPresent_eq hlt (hd₁.not_large hs.1 hs.2), hw₁] at h
  split_ifs at h with hp
  · cases h
    refine ⟨hd₁, fun p => ?_⟩
    rw [if_neg, hw₁]
    rintro ⟨rfl, hn⟩
    rw [hp] at hn
    cases hn
  · obtain ⟨d₂, h₂, h⟩ := bind_eq_ok.mp h
    cases h
    rw [Nat.mul_div_cancel _ (by decide)] at h₂
    obtain ⟨hw₂, hl₂⟩ := setEntry_eq hlt h₂
    refine ⟨hd₁.congr hl₂, fun p => ?_⟩
    rw [hw₂, hw₁]
    by_cases hps : p = s
    · subst hps
      rw [if_pos rfl, if_pos ⟨rfl, by simpa using hp⟩]
    · rw [if_neg hps, if_neg fun hc => hps hc.1]

theorem ensureFrom_eq (hd : Split d) (hu : UserPages s n) {memory : ℕ → ℕ} {frames : ℕ → ℕ}
    {flags a a' : ℕ} (h : ensureFrom memory tables frames flags n (s * PAGE_SIZE) d a =
      .ok (e, a')) : Split e ∧ ∀ p, e.word p =
      if (s ≤ p ∧ p < s + n) ∧ present (d.word p) = false then entryWord (frames p) flags
      else d.word p := by
  induction n generalizing s d a with
  | zero =>
    cases h
    refine ⟨hd, fun p => ?_⟩
    rw [if_neg (by omega)]
  | succ n ih =>
    have hfloor := hu.floor
    have hceil := hu.ceiling
    obtain ⟨⟨d₁, found⟩, h₁, h⟩ := bind_eq_ok.mp h
    obtain ⟨hd₁, hw₁⟩ := ensureEntry_eq hd ⟨hfloor, by omega⟩ h₁
    dsimp only at h
    rw [add32_page (by omega)] at h
    obtain ⟨he, hw⟩ := ih hd₁ hu.next h
    refine ⟨he, fun p => ?_⟩
    rw [hw, hw₁]
    by_cases hps : p = s
    · subst hps
      rw [if_neg (by omega)]
      exact if_congr (by simp) rfl rfl
    · rw [if_neg fun hc : p = s ∧ _ => hps hc.1]
      exact if_congr (and_congr_left' (by omega)) rfl rfl

/-- The frames given back are those of the pages that were there. -/
theorem mapOutFrom_eq (hd : Split d) (hu : UserPages s n) {memory : ℕ → ℕ}
    {freed freed' : List ℕ} (h : mapOutFrom memory n (s * PAGE_SIZE) d freed = .ok (e, freed')) :
    Split e ∧ (∀ p, e.word p =
      if (s ≤ p ∧ p < s + n) ∧ present (d.word p) = true then 0 else d.word p) ∧
      ∀ x ∈ freed', x ∈ freed ∨
        ∃ v, (s ≤ v ∧ v < s + n) ∧ present (d.word v) = true ∧ frameOf (d.word v) = x := by
  induction n generalizing s d freed with
  | zero =>
    cases h
    refine ⟨hd, fun p => ?_, fun x hx => .inl hx⟩
    rw [if_neg (by omega)]
  | succ n ih =>
    have hfloor := hu.floor
    have hceil := hu.ceiling
    have hs : s < 2 ^ 20 := by omega
    have hnot := hd.not_large hfloor (by omega)
    rw [mapOutFrom, pageEntryPresent_eq hs hnot] at h
    split_ifs at h with hp
    · obtain ⟨d₁, h₁, h⟩ := bind_eq_ok.mp h
      obtain ⟨hw₁, hl₁⟩ := setEntry_eq hs h₁
      rw [add32_page (by omega)] at h
      obtain ⟨he, hw, hfreed⟩ := ih (hd.congr hl₁) hu.next h
      refine ⟨he, fun p => ?_, fun x hx => ?_⟩
      · rw [hw, hw₁]
        by_cases hps : p = s
        · subst hps
          rw [if_neg (by omega), if_pos rfl, if_pos ⟨by omega, hp⟩]
        · rw [if_neg hps]
          exact if_congr (and_congr_left' (by omega)) rfl rfl
      · rcases hfreed x hx with hold | ⟨v, hv, hpv, rfl⟩
        · rcases List.mem_append.mp hold with hold | hself
          · exact .inl hold
          · have hentry : entryAt memory d (s * PAGE_SIZE) = d.word s := by
              rw [entryAt, PageDirectory.word, pageTableOf_page hs, pageEntryOf_page]
              cases ht : d.pde (s / 1024) with
              | absent =>
                rw [PageDirectory.word, ht] at hp
                cases hp
              | large => exact absurd ht hnot
              | table t => rfl
            rw [List.mem_singleton.mp hself, hentry]
            exact .inr ⟨s, by omega, hp, rfl⟩
        · rw [hw₁, if_neg (by omega)] at hpv ⊢
          exact .inr ⟨v, by omega, hpv, rfl⟩
    · rw [add32_page (by omega)] at h
      obtain ⟨he, hw, hfreed⟩ := ih hd hu.next h
      refine ⟨he, fun p => ?_, fun x hx => (hfreed x hx).imp_right ?_⟩
      · rw [hw]
        by_cases hps : p = s
        · subst hps
          rw [if_neg (by omega), if_neg fun hc => hp hc.2]
        · exact if_congr (and_congr_left' (by omega)) rfl rfl
      · rintro ⟨v, hv, hpv, hx⟩
        exact ⟨v, by omega, hpv, hx⟩

/-! ### Holders -/

/-- A frame that the directory needs, or shows to its process. -/
def PageDirectory.Uses (d : PageDirectory) (x : ℕ) : Prop :=
  x = d.frame ∨ (∃ i, tableFrame d i = some x) ∨
    ∃ v < 2 ^ 20, present (d.word v) = true ∧ frameOf (d.word v) = x

/-- Each frame of the directory is held for its use there, or is outside. -/
structure Own (holder : ℕ → Holder) (p : ℕ) (d : PageDirectory) : Prop where
  split : Split d
  directory : holder d.frame = .directory p
  table : ∀ i x, tableFrame d i = some x → holder x = .table p i
  page : ∀ v < 2 ^ 20, present (d.word v) = true →
    holder (frameOf (d.word v)) = .page p v ∨ holder (frameOf (d.word v)) = .outside

theorem Own.congr {g g' : ℕ → Holder} {p : ℕ} (h : Own g p d)
    (hg : ∀ x, d.Uses x → g' x = g x) : Own g' p d where
  split := h.split
  directory := (hg _ (.inl rfl)).trans h.directory
  table i x hx := (hg x (.inr (.inl ⟨i, hx⟩))).trans (h.table i x hx)
  page v hv hp := by
    rw [hg _ (.inr (.inr ⟨v, hv, hp, rfl⟩))]
    exact h.page v hv hp

/-- What each frame in use is held for. -/
theorem Own.held {g : ℕ → Holder} {p x : ℕ} (h : Own g p d) (hx : d.Uses x) :
    g x = .directory p ∨ (∃ i, g x = .table p i) ∨
      ∃ v < 2 ^ 20, present (d.word v) = true ∧ frameOf (d.word v) = x ∧
        (g x = .page p v ∨ g x = .outside) := by
  rcases hx with rfl | ⟨i, hi⟩ | ⟨v, hv, hp, rfl⟩
  · exact .inl h.directory
  · exact .inr (.inl ⟨i, h.table i x hi⟩)
  · exact .inr (.inr ⟨v, hv, hp, rfl, h.page v hv hp⟩)

theorem Own.not_free {g : ℕ → Holder} {p x : ℕ} (h : Own g p d) (hx : d.Uses x) : g x ≠ .free := by
  intro hfree
  rcases h.held hx with he | ⟨i, he⟩ | ⟨v, -, -, -, he | he⟩
  · cases he.symm.trans hfree
  · cases he.symm.trans hfree
  · cases he.symm.trans hfree
  · cases he.symm.trans hfree

/-- No frame is used by two processes, but for what is outside. -/
def Sound (sp : Spaces) : Prop := ∀ p d, sp.map p = some d → Own sp.holder p d

variable {sp sp' : Spaces} {p : ℕ} {holder : ℕ → Holder}

theorem Sound.setMap (h : Sound sp) {d' : Option PageDirectory}
    (hothers : ∀ q e x, q ≠ p → sp.map q = some e → e.Uses x → holder x = sp.holder x)
    (hown : ∀ e, d' = some e → Own holder p e) : Sound (sp.setMap p d' holder) := by
  intro q e hq
  dsimp only [Spaces.setMap] at hq ⊢
  by_cases hqp : q = p
  · subst hqp
    rw [Function.update_self] at hq
    exact hown e hq
  · rw [Function.update_of_ne hqp] at hq
    exact (h q e hq).congr fun x hx => hothers q e x hqp hq hx

/-- What `memory_alloc` answers takes nothing away from anybody. -/
theorem Sound.kept (h : Sound sp) {q x : ℕ} (hq : sp.map q = some e) (hx : e.Uses x)
    {l : List (ℕ × Holder)} (hl : ∀ y ∈ l.map Prod.fst, sp.holder y = .free) :
    handOut sp.holder l x = sp.holder x :=
  handOut_of_notMem fun hmem => (h q e hq).not_free hx (hl x hmem)

/-! ### New tables and new pages -/

theorem mem_newTables {y : ℕ × Holder} : y ∈ newTables p d e ↔
    ∃ i < 1024, tableFrame d i = none ∧ ∃ x, tableFrame e i = some x ∧ (x, .table p i) = y := by
  rw [newTables, List.mem_filterMap]
  constructor
  · rintro ⟨i, hi, hy⟩
    by_cases hnone : tableFrame d i = none
    · rw [if_pos hnone, Option.map_eq_some_iff] at hy
      exact ⟨i, List.mem_range.mp hi, hnone, hy⟩
    · rw [if_neg hnone] at hy
      cases hy
  · rintro ⟨i, hi, hnone, hy⟩
    refine ⟨i, List.mem_range.mpr hi, ?_⟩
    rw [if_pos hnone, Option.map_eq_some_iff]
    exact hy

theorem mem_newPages {y : ℕ × Holder} : y ∈ newPages p s n d e ↔
    ∃ v, (s ≤ v ∧ v < s + n) ∧ (present (e.word v) = true ∧ present (d.word v) = false) ∧
      (frameOf (e.word v), .page p v) = y := by
  simp only [newPages, List.mem_map, List.mem_filter, List.mem_range'_1, Bool.and_eq_true,
    Bool.not_eq_true', and_assoc]

section Fresh
variable (ht : Tabled tables (Touched s n) d e) (hf : TablesFresh sp d tables s n)
include ht

theorem answered_of_new {i x : ℕ} (hnone : tableFrame d i = none) (hx : tableFrame e i = some x) :
    Touched s n i ∧ tables i = some x := by
  rcases ht.table i with hi | ⟨-, hT, hi⟩
  · rw [hi, hnone] at hx
    cases hx
  · exact ⟨hT, hi.symm.trans hx⟩

include hf

theorem newTables_fresh {x : ℕ} (hx : x ∈ (newTables p d e).map Prod.fst) :
    sp.Fresh x ∧ ∃ i, tables i = some x := by
  obtain ⟨y, hy, rfl⟩ := List.mem_map.mp hx
  obtain ⟨i, -, hnone, x, hi, rfl⟩ := mem_newTables.mp hy
  obtain ⟨hT, hanswer⟩ := answered_of_new ht hnone hi
  obtain ⟨x', hx', hfresh⟩ := hf.fresh i hT hnone
  cases hanswer.symm.trans hx'
  exact ⟨hfresh, i, hanswer⟩

theorem newTables_nodup : ((newTables p d e).map Prod.fst).Nodup := by
  rw [newTables, List.map_filterMap]
  refine List.nodup_range.filterMap fun i j x hi hj => ?_
  have hnew : ∀ i, x ∈ ((if tableFrame d i = none then (tableFrame e i).map fun f =>
      (f, Holder.table p i) else none).map Prod.fst) →
      tableFrame d i = none ∧ tableFrame e i = some x := by
    intro i hi
    by_cases hnone : tableFrame d i = none
    · rw [if_pos hnone, Option.map_map, Option.mem_def, Option.map_eq_some_iff] at hi
      obtain ⟨x', hx', rfl⟩ := hi
      exact ⟨hnone, hx'⟩
    · rw [if_neg hnone] at hi
      cases hi
  obtain ⟨hdi, hei⟩ := hnew i hi
  obtain ⟨hdj, hej⟩ := hnew j hj
  obtain ⟨hTi, hai⟩ := answered_of_new ht hdi hei
  obtain ⟨hTj, haj⟩ := answered_of_new ht hdj hej
  exact hf.apart i j hTi hTj hdi hdj (hai.trans haj.symm)

end Fresh

section Pages
variable {frames : ℕ → ℕ} {flags : ℕ} (hflags : flags < PAGE_SIZE)
  (hw : ∀ v, e.word v = if (s ≤ v ∧ v < s + n) ∧ present (d.word v) = false then
    entryWord (frames v) flags else d.word v) (hf : PagesFresh sp d tables frames s n)
include hflags hw hf

theorem frameOf_new {v : ℕ} (hv : s ≤ v ∧ v < s + n) (hd : present (d.word v) = false) :
    frameOf (e.word v) = frames v := by
  obtain ⟨-, haligned, -⟩ := hf.fresh v hv.1 hv.2 hd
  rw [hw, if_pos ⟨hv, hd⟩, frameOf_entryWord _ hflags, frameOf]
  exact Nat.div_mul_cancel (Nat.dvd_of_mod_eq_zero haligned)

theorem newPages_fresh {x : ℕ} (hx : x ∈ (newPages p s n d e).map Prod.fst) :
    sp.Fresh x ∧ ∀ i, tables i ≠ some x := by
  obtain ⟨y, hy, rfl⟩ := List.mem_map.mp hx
  obtain ⟨v, hv, ⟨-, hd⟩, rfl⟩ := mem_newPages.mp hy
  dsimp only
  rw [frameOf_new hflags hw hf hv hd]
  exact ⟨hf.fresh v hv.1 hv.2 hd, fun i => hf.tables i v hv.1 hv.2 hd⟩

theorem newPages_nodup : ((newPages p s n d e).map Prod.fst).Nodup := by
  rw [newPages, List.map_map]
  refine List.Nodup.map_on (fun v hv w hv' he => ?_) ((List.nodup_range').filter _)
  rw [List.mem_filter, List.mem_range'_1, Bool.and_eq_true, Bool.not_eq_true'] at hv hv'
  dsimp only [Function.comp] at he
  rw [frameOf_new hflags hw hf hv.1 hv.2.2, frameOf_new hflags hw hf hv'.1 hv'.2.2] at he
  exact hf.apart v w hv.1.1 hv.1.2 hv'.1.1 hv'.1.2 hv.2.2 hv'.2.2 he

end Pages

/-- A directory that has grown owns what it had and what it has been given. -/
theorem Own.grow (h : Own sp.holder p d) {l : List (ℕ × Holder)} (he : Split e)
    (hframe : e.frame = d.frame) (hl : (l.map Prod.fst).Nodup)
    (hfree : ∀ y ∈ l.map Prod.fst, sp.holder y = .free)
    (htable : ∀ i x, tableFrame e i = some x → tableFrame d i = some x ∨ (x, .table p i) ∈ l)
    (hpage : ∀ v < 2 ^ 20, present (e.word v) = true → e.word v = d.word v ∨
      (frameOf (e.word v), .page p v) ∈ l ∨ sp.holder (frameOf (e.word v)) = .outside) :
    Own (handOut sp.holder l) p e := by
  have hkept : ∀ x, sp.holder x ≠ .free → handOut sp.holder l x = sp.holder x := fun x hx =>
    handOut_of_notMem fun hmem => hx (hfree x hmem)
  refine ⟨he, ?_, fun i x hx => ?_, fun v hv hp => ?_⟩
  · rw [hframe, hkept _ (h.not_free (.inl rfl)), h.directory]
  · rcases htable i x hx with hold | hnew
    · rw [hkept _ (h.not_free (.inr (.inl ⟨i, hold⟩))), h.table i x hold]
    · exact handOut_of_mem hl hnew
  · rcases hpage v hv hp with hold | hnew | houtside
    · rw [hold] at hp ⊢
      rw [hkept _ (h.not_free (.inr (.inr ⟨v, hv, hp, rfl⟩)))]
      exact h.page v hv hp
    · exact .inl (handOut_of_mem hl hnew)
    · rw [hkept _ (by rw [houtside]; exact Holder.noConfusion)]
      exact .inr houtside

/-! ### Calls -/

theorem tableFrame_lt (hu : UserPages s n) {i : ℕ} (hi : Touched s n i) : i < 1024 := by
  obtain ⟨v, hv, hlt, rfl⟩ := hi
  have := hu.ceiling
  omega

theorem new_or_old (hu : UserPages s n) (ht : Tabled tables (Touched s n) d e) {i x : ℕ}
    (hx : tableFrame e i = some x) :
    tableFrame d i = some x ∨ (x, .table p i) ∈ newTables p d e := by
  rcases ht.table i with hi | ⟨hnone, hT, -⟩
  · exact .inl (hi ▸ hx)
  · exact .inr (mem_newTables.mpr ⟨i, tableFrame_lt hu hT, hnone, x, hx, rfl⟩)

theorem newDirectory_own {frame : ℕ} : Own (handOut sp.holder [(frame, .directory p)]) p
    (newPageDirectory frame) := by
  have hnone : ∀ i, tableFrame (newPageDirectory frame) i = none := fun i => by
    simp only [tableFrame, newPageDirectory]
    split_ifs <;> rfl
  have hword : ∀ v, (newPageDirectory frame).word v = 0 := fun v => by
    simp only [PageDirectory.word, newPageDirectory]
    split_ifs <;> rfl
  refine ⟨split_new frame, handOut_of_mem (List.nodup_singleton _) List.mem_cons_self,
    fun i x hx => ?_, fun v _ hp => ?_⟩
  · rw [hnone] at hx
    cases hx
  · rw [hword] at hp
    cases hp

/-- The frames that `memory_alloc` answers for pages that were free are the process's own. -/
theorem Own.provide (h : Own sp.holder p d) {frames : ℕ → ℕ} {flags : ℕ} (hu : UserPages s n)
    (hflags : flags < PAGE_SIZE) (hf : TablesFresh sp d tables s n)
    (hg : PagesFresh sp d tables frames s n) (ht : Tabled tables (Touched s n) d e)
    (hsplit : Split e) (hw : ∀ v, e.word v =
      if (s ≤ v ∧ v < s + n) ∧ present (d.word v) = false then entryWord (frames v) flags
      else d.word v) :
    (∀ y ∈ (newTables p d e ++ newPages p s n d e).map Prod.fst, sp.holder y = .free) ∧
    Own (handOut sp.holder (newTables p d e ++ newPages p s n d e)) p e := by
  have hfree : ∀ y ∈ (newTables p d e ++ newPages p s n d e).map Prod.fst,
      sp.holder y = .free := by
    intro y hy
    rw [List.map_append, List.mem_append] at hy
    rcases hy with hy | hy
    · exact (newTables_fresh ht hf hy).1.2.2
    · exact (newPages_fresh hflags hw hg hy).1.2.2
  refine ⟨hfree, h.grow hsplit ht.frame ?_ hfree (fun i x hx => ?_) fun v hv hp => ?_⟩
  · rw [List.map_append, List.nodup_append']
    refine ⟨newTables_nodup ht hf, newPages_nodup hflags hw hg, fun x hx hx' => ?_⟩
    obtain ⟨-, i, hi⟩ := newTables_fresh ht hf hx
    exact (newPages_fresh hflags hw hg hx').2 i hi
  · exact (new_or_old hu ht hx).imp_right (List.mem_append_left _)
  · by_cases hin : (s ≤ v ∧ v < s + n) ∧ present (d.word v) = false
    · exact .inr (.inl (List.mem_append_right _ (mem_newPages.mpr ⟨v, hin.1, ⟨hp, hin.2⟩, rfl⟩)))
    · exact .inl ((hw v).trans (if_neg hin))

theorem ensure_own (h : Own sp.holder p d) {memory : ℕ → ℕ} {frames : ℕ → ℕ} {start flags : ℕ}
    {already : ℤ} (hu : UserPages (start / PAGE_SIZE) n)
    (hf : TablesFresh sp d tables (start / PAGE_SIZE) n)
    (hg : PagesFresh sp d tables frames (start / PAGE_SIZE) n)
    (he : pageEnsure memory tables frames d start n flags = .ok (e, already)) :
    (∀ y ∈ (newTables p d e ++ newPages p (start / PAGE_SIZE) n d e).map Prod.fst,
      sp.holder y = .free) ∧
    Own (handOut sp.holder (newTables p d e ++ newPages p (start / PAGE_SIZE) n d e)) p e := by
  rw [pageEnsure, ensure_start hu, ← ensureFrom_floor] at he
  obtain ⟨⟨e', count⟩, he', he⟩ := bind_eq_ok.mp he
  cases he
  obtain ⟨hsplit, hw⟩ := ensureFrom_eq h.split hu he'
  exact h.provide hu (convertPagingTypes_lt flags) hf hg (ensureFrom_tabled hu he') hsplit hw

/-- The pages of the call lead to the frames from `physical` on. -/
theorem directMap_words (hd : Split d) {start physical type : ℕ}
    (hu : UserPages (start / PAGE_SIZE) n) (hphys : physical < 2 ^ 32)
    (he : pageDirectMap tables d physical start n type = .ok e) :
    Tabled tables (Touched (start / PAGE_SIZE) n) d e ∧ Split e ∧ ∀ v, e.word v =
      if start / PAGE_SIZE ≤ v ∧ v < start / PAGE_SIZE + n then
        entryWord (add32 physical ((v - start / PAGE_SIZE) * PAGE_SIZE)) (convertPagingTypes type)
      else d.word v := by
  have hfloor := hu.floor
  have hceil := hu.ceiling
  have hn : n ≤ 0xFE000 := (Nat.le_add_left n _).trans hceil
  have hcount : ((n : ℤ) % 2 ^ 32).toNat = n := by omega
  rw [pageDirectMap, hcount, ← directMapFrom_floor] at he
  obtain ⟨hsplit, -, hw⟩ := directMapFrom_eq hd (by omega) hphys he
  exact ⟨directMapFrom_tabled hu he, hsplit, hw⟩

theorem directMap_own (h : Own sp.holder p d) {start physical type : ℕ}
    (hu : UserPages (start / PAGE_SIZE) n) (hphys : physical < 2 ^ 32)
    (houtside : ∀ j < n, sp.holder (frameOf (add32 physical (j * PAGE_SIZE))) = .outside)
    (hf : TablesFresh sp d tables (start / PAGE_SIZE) n)
    (he : pageDirectMap tables d physical start n type = .ok e) :
    (∀ y ∈ (newTables p d e).map Prod.fst, sp.holder y = .free) ∧
    Own (handOut sp.holder (newTables p d e)) p e := by
  obtain ⟨ht, hsplit, hw⟩ := directMap_words h.split hu hphys he
  have hfree : ∀ y ∈ (newTables p d e).map Prod.fst, sp.holder y = .free :=
    fun y hy => (newTables_fresh ht hf hy).1.2.2
  refine ⟨hfree, h.grow hsplit ht.frame (newTables_nodup ht hf) hfree
    (fun i x hx => new_or_old hu ht hx) fun v hv hp => ?_⟩
  by_cases hin : start / PAGE_SIZE ≤ v ∧ v < start / PAGE_SIZE + n
  · refine .inr (.inr ?_)
    rw [hw, if_pos hin, frameOf_entryWord _ (convertPagingTypes_lt type)]
    exact houtside _ (by omega)
  · exact .inl ((hw v).trans (if_neg hin))

theorem userAlloc_own (h : Own sp.holder p d) {start location type : ℕ}
    (hu : UserPages (start / PAGE_SIZE) n) (hlocation : location < 2 ^ 32)
    (hf : TablesFresh sp d tables (start / PAGE_SIZE) n)
    (hg : PagesFresh sp d tables (fun v => add32 location ((v - start / PAGE_SIZE) * PAGE_SIZE))
      (start / PAGE_SIZE) n)
    (habsent : ∀ v, start / PAGE_SIZE ≤ v → v < start / PAGE_SIZE + n → present (d.word v) = false)
    (he : pageDirectMap tables d location start n type = .ok e) :
    (∀ y ∈ (newTables p d e ++ newPages p (start / PAGE_SIZE) n d e).map Prod.fst,
      sp.holder y = .free) ∧
    Own (handOut sp.holder (newTables p d e ++ newPages p (start / PAGE_SIZE) n d e)) p e := by
  obtain ⟨ht, hsplit, hw⟩ := directMap_words h.split hu hlocation he
  refine h.provide hu (convertPagingTypes_lt type) hf hg ht hsplit fun v => ?_
  rw [hw]
  exact if_congr (iff_self_and.mpr fun hin => habsent v hin.1 hin.2) rfl rfl

/-- Pages go, and frames that were made for them. -/
theorem Own.drop (h : Own sp.holder p d) (he : Split e)
    (ht : Tabled (fun _ => none) (fun _ => False) d e) (hw : ∀ v, e.word v =
      if (s ≤ v ∧ v < s + n) ∧ present (d.word v) = true then 0 else d.word v)
    {freed : List ℕ} (hfreed : ∀ x ∈ freed, ∃ v, (s ≤ v ∧ v < s + n) ∧ sp.holder x = .page p v) :
    Own (takeBack .free sp.holder freed) p e := by
  have hkept : ∀ x, (∀ v, s ≤ v ∧ v < s + n → sp.holder x ≠ .page p v) →
      takeBack .free sp.holder freed x = sp.holder x := by
    intro x hx
    refine takeBack_of_notMem fun hmem => ?_
    obtain ⟨v, hv, hholder⟩ := hfreed x hmem
    exact hx v hv hholder
  refine ⟨he, ?_, fun i x hx => ?_, fun v hv hp => ?_⟩
  · rw [ht.frame, hkept _ fun v _ => by rw [h.directory]; exact Holder.noConfusion, h.directory]
  · rcases ht.table i with hi | ⟨-, hfalse, -⟩
    · have hold := h.table i x (hi ▸ hx)
      rw [hkept _ fun v _ => by rw [hold]; exact Holder.noConfusion, hold]
    · exact hfalse.elim
  · rw [hw] at hp ⊢
    split_ifs at hp ⊢ with hin
    · cases hp
    · rcases h.page v hv hp with hholder | hholder
      · rw [hkept _ fun w hin' hne => ?_, hholder]
        · exact .inl rfl
        · rw [hholder] at hne
          cases hne
          exact hin ⟨hin', hp⟩
      · rw [hkept _ fun w _ => by rw [hholder]; exact Holder.noConfusion, hholder]
        exact .inr rfl

theorem release_words (hd : Split d) {memory : ℕ → ℕ} {start : ℕ}
    (hu : UserPages (start / PAGE_SIZE) n) (he : pageRelease memory d start n = .ok e) :
    Tabled (fun _ => none) (fun _ => False) d e ∧ Split e ∧ ∀ v, e.word v =
      if (start / PAGE_SIZE ≤ v ∧ v < start / PAGE_SIZE + n) ∧ present (d.word v) = true then 0
      else d.word v := by
  rw [pageRelease, Int.toNat_natCast, ← releaseFrom_floor] at he
  obtain ⟨hsplit, hw⟩ := releaseFrom_eq hd hu he
  exact ⟨releaseFrom_tabled he, hsplit, hw⟩

theorem release_own (h : Own sp.holder p d) {memory : ℕ → ℕ} {start : ℕ}
    (hu : UserPages (start / PAGE_SIZE) n) (he : pageRelease memory d start n = .ok e) :
    Own sp.holder p e := by
  obtain ⟨ht, hsplit, hw⟩ := release_words h.split hu he
  have hnone : Own (takeBack .free sp.holder []) p e := h.drop hsplit ht hw fun x hx => by cases hx
  exact hnone.congr fun x _ => (takeBack_of_notMem List.not_mem_nil).symm

theorem userFree_own (h : Own sp.holder p d) {memory : ℕ → ℕ} {location start : ℕ}
    (hu : UserPages (start / PAGE_SIZE) n) (hown : ∀ j < n,
      sp.holder (frameOf (add32 location (j * PAGE_SIZE))) = .page p (start / PAGE_SIZE + j))
    (he : pageRelease memory d start n = .ok e) :
    (∀ x ∈ framesFrom location n, ∃ v, sp.holder x = .page p v) ∧
    Own (takeBack .free sp.holder (framesFrom location n)) p e := by
  have hframes : ∀ x ∈ framesFrom location n, ∃ v,
      (start / PAGE_SIZE ≤ v ∧ v < start / PAGE_SIZE + n) ∧ sp.holder x = .page p v := by
    intro x hx
    obtain ⟨j, hj, rfl⟩ := List.mem_map.mp hx
    have hlt := List.mem_range.mp hj
    exact ⟨_, by omega, hown j hlt⟩
  obtain ⟨ht, hsplit, hw⟩ := release_words h.split hu he
  refine ⟨fun x hx => ?_, h.drop hsplit ht hw hframes⟩
  obtain ⟨v, -, hv⟩ := hframes x hx
  exact ⟨v, hv⟩

theorem mapOutFrom_floor (memory : ℕ → ℕ) (n a : ℕ) (d : PageDirectory) (freed : List ℕ) :
    mapOutFrom memory n (a / PAGE_SIZE * PAGE_SIZE) d freed = mapOutFrom memory n a d freed := by
  induction n generalizing a d freed with
  | zero => rfl
  | succ n ih =>
    simp only [mapOutFrom, entryAt, pageTable, pageEntryPresent_floor, setEntry_floor,
      pageTableOf_floor, pageEntryOf_floor, ← add32_floor, ih]

/-- What a process maps out was its own. -/
theorem mapOut_own (h : Own sp.holder p d) {memory : ℕ → ℕ} {start : ℕ} {freed : List ℕ}
    (hu : UserPages (start / PAGE_SIZE) n)
    (hown : ∀ v, start / PAGE_SIZE ≤ v → v < start / PAGE_SIZE + n → present (d.word v) = true →
      sp.holder (frameOf (d.word v)) = .page p v)
    (he : pageMapOut memory d start n = .ok (e, freed)) :
    (∀ x ∈ freed, ∃ v, sp.holder x = .page p v) ∧ Own (takeBack .free sp.holder freed) p e := by
  rw [pageMapOut, Int.toNat_natCast, ← mapOutFrom_floor] at he
  have ht : Tabled (fun _ => none) (fun _ => False) d e := mapOutFrom_tabled he
  obtain ⟨hsplit, hw, hfreed⟩ := mapOutFrom_eq h.split hu he
  have hpages : ∀ x ∈ freed, ∃ v, (start / PAGE_SIZE ≤ v ∧ v < start / PAGE_SIZE + n) ∧
      sp.holder x = .page p v := by
    intro x hx
    rcases hfreed x hx with hnil | ⟨v, hv, hp, rfl⟩
    · cases hnil
    · exact ⟨v, hv, hown v hv.1 hv.2 hp⟩
  refine ⟨fun x hx => ?_, h.drop hsplit ht hw hpages⟩
  obtain ⟨v, -, hv⟩ := hpages x hx
  exact ⟨v, hv⟩

/-! ### Runs -/

/-- Nobody uses a page that was made for another process. -/
theorem Own.not_page {g : ℕ → Holder} {q x v : ℕ} (h : Own g p d) (hx : d.Uses x) (hpq : p ≠ q) :
    g x ≠ .page q v := by
  intro hq
  rcases h.held hx with he | ⟨i, he⟩ | ⟨w, -, -, -, he | he⟩
  · cases he.symm.trans hq
  · cases he.symm.trans hq
  · cases he.symm.trans hq
    exact hpq rfl
  · cases he.symm.trans hq

theorem Own.not_directory {g : ℕ → Holder} {q x : ℕ} (h : Own g p d) (hx : d.Uses x)
    (hpq : p ≠ q) : g x ≠ .directory q := by
  intro hq
  rcases h.held hx with he | ⟨i, he⟩ | ⟨w, -, -, -, he | he⟩
  · cases he.symm.trans hq
    exact hpq rfl
  · cases he.symm.trans hq
  · cases he.symm.trans hq
  · cases he.symm.trans hq

theorem Sound.not_unused (h : Sound sp) {x : ℕ} (hp : sp.map p = some d) (hx : d.Uses x) :
    ¬ sp.Unused x := by
  rintro ⟨hheld, hmaps⟩
  rcases (h p d hp).held hx with he | ⟨i, he⟩ | ⟨v, hv, hpv, hf, -⟩
  · rw [he] at hheld
    rcases hheld with hc | hc <;> cases hc
  · rw [he] at hheld
    rcases hheld with hc | hc <;> cases hc
  · exact hmaps p d v hp hv hpv hf

/-- A process that has been given frames of nobody. -/
theorem Sound.grow (h : Sound sp) {l : List (ℕ × Holder)}
    (hfree : ∀ y ∈ l.map Prod.fst, sp.holder y = .free) (hown : Own (handOut sp.holder l) p e) :
    Sound (sp.setMap p (some e) (handOut sp.holder l)) := by
  refine h.setMap (fun q e x _ hq hx => h.kept hq hx hfree) fun e he => ?_
  cases he
  exact hown

/-- A process that has given back frames of its own. -/
theorem Sound.drop (h : Sound sp) {freed : List ℕ}
    (hfreed : ∀ x ∈ freed, ∃ v, sp.holder x = .page p v)
    (hown : Own (takeBack .free sp.holder freed) p e) :
    Sound (sp.setMap p (some e) (takeBack .free sp.holder freed)) := by
  refine h.setMap (fun q e x hqp hq hx => takeBack_of_notMem fun hmem => ?_) fun e he => ?_
  · obtain ⟨v, hv⟩ := hfreed x hmem
    exact (h q e hq).not_page hx hqp hv
  · cases he
    exact hown

theorem Sound.step (h : Sound sp) {c : SpaceCall} (hg : c.Guard sp) (hs : c.exec sp = .ok sp') :
    Sound sp' := by
  cases c with
  | newDirectory p frame =>
    obtain ⟨-, hfresh⟩ := hg
    cases hs
    refine h.grow (fun y hy => ?_) newDirectory_own
    rw [List.mem_singleton.mp hy]
    exact hfresh.2.2
  | ensure p memory tables frames start n flags =>
    obtain ⟨hu, hfresh⟩ := hg
    obtain ⟨d, hd, hs⟩ := bind_eq_ok.mp hs
    obtain ⟨⟨e, already⟩, he, hs⟩ := bind_eq_ok.mp hs
    have hd := deref_eq_ok.mp hd
    obtain ⟨ht, hf⟩ := hfresh d hd
    obtain ⟨hfree, hown⟩ := ensure_own (h p d hd) hu ht hf he
    cases hs
    exact h.grow hfree hown
  | directMap p tables physical start n type =>
    obtain ⟨hu, hphys, houtside, hfresh⟩ := hg
    obtain ⟨d, hd, hs⟩ := bind_eq_ok.mp hs
    obtain ⟨e, he, hs⟩ := bind_eq_ok.mp hs
    have hd := deref_eq_ok.mp hd
    obtain ⟨hfree, hown⟩ := directMap_own (h p d hd) hu hphys houtside (hfresh d hd) he
    cases hs
    exact h.grow hfree hown
  | userAlloc p tables location start n =>
    obtain ⟨hu, hlocation, hfresh⟩ := hg
    obtain ⟨d, hd, hs⟩ := bind_eq_ok.mp hs
    obtain ⟨e, he, hs⟩ := bind_eq_ok.mp hs
    have hd := deref_eq_ok.mp hd
    obtain ⟨ht, hf, habsent⟩ := hfresh d hd
    obtain ⟨hfree, hown⟩ := userAlloc_own (h p d hd) hu hlocation ht hf habsent he
    cases hs
    exact h.grow hfree hown
  | release p memory start n =>
    obtain ⟨d, hd, hs⟩ := bind_eq_ok.mp hs
    obtain ⟨e, he, hs⟩ := bind_eq_ok.mp hs
    have hown := release_own (h p d (deref_eq_ok.mp hd)) hg he
    cases hs
    refine h.setMap (fun q e x _ _ _ => rfl) fun e he => ?_
    cases he
    exact hown
  | userFree p memory location start n =>
    obtain ⟨hu, hframes⟩ := hg
    obtain ⟨d, hd, hs⟩ := bind_eq_ok.mp hs
    obtain ⟨e, he, hs⟩ := bind_eq_ok.mp hs
    obtain ⟨hfreed, hown⟩ := userFree_own (h p d (deref_eq_ok.mp hd)) hu hframes he
    cases hs
    exact h.drop hfreed hown
  | mapOut p memory start n =>
    obtain ⟨hu, hpages⟩ := hg
    obtain ⟨d, hd, hs⟩ := bind_eq_ok.mp hs
    obtain ⟨⟨e, freed⟩, he, hs⟩ := bind_eq_ok.mp hs
    have hd := deref_eq_ok.mp hd
    obtain ⟨hfreed, hown⟩ := mapOut_own (h p d hd) hu (hpages d hd) he
    cases hs
    exact h.drop hfreed hown
  | delete p cr3 memory =>
    obtain ⟨d, hd, hs⟩ := bind_eq_ok.mp hs
    obtain ⟨t, ht, hs⟩ := bind_eq_ok.mp hs
    have hown := h p d (deref_eq_ok.mp hd)
    have hlow : d.pde 0 = .large := (hown.split 0 (by decide)).mpr (.inl (by decide))
    obtain ⟨-, -, -, hfreed⟩ := deletePageDirectory_eq hlow ht
    cases hs
    refine h.setMap (fun q e x hqp hq hx => takeBack_of_notMem fun hmem => ?_) fun e he => ?_
    · rw [hfreed, List.mem_append, List.mem_cons, List.mem_singleton] at hmem
      rcases hmem with hmem | rfl | rfl
      · exact h.not_unused hq hx (hg x (List.mem_cons_of_mem 0 hmem))
      · exact h.not_unused hq hx (hg 0 List.mem_cons_self)
      · exact (h q e hq).not_directory hx hqp hown.directory
    · cases he

theorem sound_of_reach (h : spaceSystem.Reach sp) : Sound sp := by
  obtain ⟨s, is, hinit, hsteps⟩ := h
  refine hsteps.invariant (fun s c t hs hg ht => hs.step hg ht) fun p d hp => ?_
  rw [hinit.1 p] at hp
  cases hp

/-! ### Reaching -/

/-- What a process reaches is in a frame of a page that is present. -/
theorem userAddress_eq {a x : ℕ} (ha : a < 2 ^ 32) (h : userAddress d a = some x) :
    present (d.word (a / PAGE_SIZE)) = true ∧
      x = frameOf (d.word (a / PAGE_SIZE)) + a % PAGE_SIZE := by
  rw [userAddress] at h
  have hp : present (d.word (a / PAGE_SIZE)) = true := by
    rw [granted] at h
    rw [PageDirectory.word]
    cases ht : d.pde (a / PAGE_SIZE / 1024) with
    | absent => simp [ht] at h
    | large => simp [ht] at h
    | table t =>
      by_contra hn
      simp [ht, hn] at h
  refine ⟨hp, ?_⟩
  split at h
  · split_ifs at h
    exact Option.some.inj (h.symm.trans (translate_of_present ha hp))
  · cases h

theorem frameOf_frameOf_add (w : ℕ) {o : ℕ} (ho : o < PAGE_SIZE) :
    frameOf (frameOf w + o) = frameOf w := by
  rw [frameOf, frameOf, page_div ho]

/-- Processes reach the pages that were made for them, each at one address, and what is outside:
no free frame, no page of another process, no table and no directory. -/
theorem isolation (h : spaceSystem.Reach sp) (hp : sp.map p = some d) {a x : ℕ} (ha : a < 2 ^ 32)
    (hx : userAddress d a = some x) :
    sp.holder (frameOf x) ≠ .free ∧
    (∀ q e, sp.map q = some e → frameOf x ≠ e.frame ∧ ∀ i, tableFrame e i ≠ some (frameOf x)) ∧
    ∀ q e b, sp.map q = some e → b < 2 ^ 32 → userAddress e b = some x →
      (q = p ∧ b = a) ∨ sp.holder (frameOf x) = .outside := by
  have hs := sound_of_reach h
  have hlt : ∀ {c}, c < 2 ^ 32 → c / PAGE_SIZE < 2 ^ 20 := fun hc => by
    unfold PAGE_SIZE
    omega
  have hheld : ∀ {q e b}, sp.map q = some e → b < 2 ^ 32 → userAddress e b = some x →
      sp.holder (frameOf x) = .page q (b / PAGE_SIZE) ∨ sp.holder (frameOf x) = .outside := by
    intro q e b hq hb hy
    obtain ⟨hpresent, rfl⟩ := userAddress_eq hb hy
    rw [frameOf_frameOf_add _ (Nat.mod_lt _ (by decide))]
    exact (hs q e hq).page _ (hlt hb) hpresent
  have hoffset : ∀ {q e b}, sp.map q = some e → b < 2 ^ 32 → userAddress e b = some x →
      x % PAGE_SIZE = b % PAGE_SIZE := by
    intro q e b hq hb hy
    obtain ⟨-, rfl⟩ := userAddress_eq hb hy
    rw [frameOf, Nat.mul_add_mod_self_right, Nat.mod_mod]
  have hown := hheld hp ha hx
  refine ⟨?_, fun q e hq => ⟨fun hf => ?_, fun i hi => ?_⟩, fun q e b hq hb hy => ?_⟩
  · rcases hown with he | he
    · rw [he]
      exact Holder.noConfusion
    · rw [he]
      exact Holder.noConfusion
  · rw [hf, (hs q e hq).directory] at hown
    rcases hown with hc | hc <;> cases hc
  · rw [(hs q e hq).table i _ hi] at hown
    rcases hown with hc | hc <;> cases hc
  · rcases hown with he | he
    · rcases hheld hq hb hy with he' | he'
      · obtain ⟨hqp, hpage⟩ := Holder.page.inj (he'.symm.trans he)
        have hmod := (hoffset hq hb hy).symm.trans (hoffset hp ha hx)
        exact .inl ⟨hqp, Nat.ext_div_mod hpage hmod⟩
      · exact .inr he'
    · exact .inr he

/-- One page of the user, its table at `table` and the page itself at `frame`. -/
def makePage (p table frame : ℕ) : SpaceCall :=
  .ensure p (fun _ => 0) (fun _ => some table) (fun _ => frame) 0x80000000 1
    (USER_PAGE ||| READ_WRITE)

theorem makePage_guard {table frame : ℕ} (ht : sp.Fresh table) (hf : sp.Fresh frame)
    (hne : table ≠ frame) : (makePage p table frame).Guard sp := by
  rw [makePage, SpaceCall.Guard]
  refine ⟨⟨by decide, by decide⟩, fun d hd => ⟨⟨fun i _ _ => ⟨table, rfl, ht⟩, ?_⟩,
    ⟨fun _ _ _ _ => hf, ?_, fun _ _ _ _ _ he => hne (Option.some.inj he)⟩⟩⟩
  · rintro i j ⟨v, hv, hlt, rfl⟩ ⟨w, hw, hlt', rfl⟩ - - -
    have hvw : v = w := by omega
    rw [hvw]
  · rintro v w hv hlt hw hlt' - - -
    omega

theorem isolation_twoProcesses : ∃ sp d e, spaceSystem.Reach sp ∧ sp.map 1 = some d ∧
    sp.map 2 = some e ∧ userAddress d 0x80000000 = some 0x4000 ∧
    userAddress e 0x80000000 = some 0x6000 ∧ ∀ b < 2 ^ 32, userAddress e b ≠ some 0x4000 := by
  have hinit : spaceSystem.Init ⟨fun _ => none, fun _ => .free⟩ := ⟨fun _ => rfl, fun _ => .inl rfl⟩
  have h₁ := (System.Reach.of_init hinit).step (i := SpaceCall.newDirectory 1 0x1000)
    ⟨rfl, by decide, by decide, rfl⟩ rfl
  have h₂ := h₁.step (i := SpaceCall.newDirectory 2 0x2000) ⟨rfl, by decide, by decide, rfl⟩ rfl
  have h₃ := h₂.step (i := makePage 1 0x3000 0x4000)
    (makePage_guard ⟨by decide, by decide, rfl⟩ ⟨by decide, by decide, rfl⟩ (by decide)) rfl
  have h₄ := h₃.step (i := makePage 2 0x5000 0x6000)
    (makePage_guard ⟨by decide, by decide, by decide +kernel⟩
      ⟨by decide, by decide, by decide +kernel⟩ (by decide)) rfl
  refine ⟨_, _, _, h₄, rfl, rfl, rfl, rfl, fun b hb hy => ?_⟩
  obtain ⟨-, -, honly⟩ := isolation h₄ (p := 1) rfl (a := 0x80000000) (by decide)
    (x := 0x4000) rfl
  rcases honly 2 _ b rfl hb hy with ⟨hc, -⟩ | hc
  · cases hc
  · exact absurd hc (by decide +kernel)

end Racoon.Paging
