import Racoon.Paging.Directory
import Racoon.Lib.Prefix

/-!
# What the page functions do to a mapping

A page is numbered by its address over 4096, and `word d p` is the word by which
the tables of `d` map the page `p`. In a directory made by `new_page_directory`
the pages from 0x80000 up to 0xFE000 belong to the user. A page function that
leaves that range halts the kernel, so what it returns is known page by page.
-/

namespace Racoon.Paging

/-- The word of the page `p`, 0 where there is no table. -/
def PageDirectory.word (d : PageDirectory) (p : ℕ) : ℕ :=
  match d.pde (p / 1024) with
  | .table t => t.entry (p % 1024)
  | _ => 0

/-- The kernel maps its own 4 MB pages below and above the tables of the user. -/
def Split (d : PageDirectory) : Prop := ∀ i < 1024, d.pde i = .large ↔ i < 512 ∨ 1016 ≤ i

/-- The frames from `phys` are mapped at `location`, with `flags`. -/
def Holds (d : PageDirectory) (location pages phys flags : ℕ) : Prop :=
  ∀ i < pages, d.word (location / PAGE_SIZE + i) = entryWord (add32 phys (i * PAGE_SIZE)) flags

theorem split_new (frame : ℕ) : Split (newPageDirectory frame) := by
  intro i hi
  simp only [newPageDirectory]
  split_ifs with h₁ h₂
  · simp [h₁]
  · simp [h₁, not_le.mpr h₂]
  · simp [not_lt.mp h₂]

theorem pageTableOf_eq {a : ℕ} (ha : a < 2 ^ 32) : pageTableOf a = a / PAGE_SIZE / 1024 := by
  unfold pageTableOf PAGE_SIZE
  omega

theorem pageEntryOf_eq (a : ℕ) : pageEntryOf a = a / PAGE_SIZE % 1024 := by
  unfold pageEntryOf PAGE_SIZE
  omega

theorem pageTableOf_page {p : ℕ} (hp : p < 2 ^ 20) : pageTableOf (p * PAGE_SIZE) = p / 1024 := by
  unfold pageTableOf PAGE_SIZE
  omega

theorem pageEntryOf_page (p : ℕ) : pageEntryOf (p * PAGE_SIZE) = p % 1024 := by
  unfold pageEntryOf PAGE_SIZE
  omega

theorem present_entryWord (phys flags : ℕ) : present (entryWord phys flags) = true := by
  simp [present, entryWord, PAGE_PRESENT]

theorem frameOf_entryWord (phys : ℕ) {flags : ℕ} (h : flags < PAGE_SIZE) :
    frameOf (entryWord phys flags) = frameOf phys := by
  have hshift : ∀ x, x / PAGE_SIZE = x >>> 12 := fun x => (Nat.shiftRight_eq_div_pow x 12).symm
  have hsmall : (flags ||| PAGE_PRESENT) / PAGE_SIZE = 0 :=
    Nat.div_eq_of_lt (Nat.or_lt_two_pow (n := 12) h (by decide))
  simp only [frameOf, entryWord, Nat.or_assoc]
  rw [hshift, Nat.shiftRight_or_distrib, ← hshift, ← hshift, hsmall, Nat.or_zero]

theorem convertPagingTypes_lt (type : ℕ) : convertPagingTypes type < PAGE_SIZE := by
  unfold convertPagingTypes
  split_ifs <;> decide

theorem pageEntryPresent_eq {memory : ℕ → ℕ} {d : PageDirectory} {p : ℕ} (hp : p < 2 ^ 20)
    (hl : d.pde (p / 1024) ≠ .large) :
    pageEntryPresent memory d (p * PAGE_SIZE) = present (d.word p) := by
  rw [pageEntryPresent, PageDirectory.word, pageTableOf_page hp, pageEntryOf_page]
  cases h : d.pde (p / 1024) with
  | absent => rfl
  | large => exact absurd h hl
  | table t => rfl

theorem setEntry_eq {d e : PageDirectory} {s w : ℕ} (hs : s < 2 ^ 20)
    (h : d.setEntry (s * PAGE_SIZE) w = .ok e) :
    (∀ p, e.word p = if p = s then w else d.word p) ∧
      ∀ i, e.pde i = .large ↔ d.pde i = .large := by
  rw [PageDirectory.setEntry, pageTableOf_page hs, pageEntryOf_page] at h
  cases ht : d.pde (s / 1024) with
  | absent => rw [ht] at h; cases h
  | large => rw [ht] at h; cases h
  | table t =>
    rw [ht] at h
    cases h
    refine ⟨fun p => ?_, fun i => ?_⟩
    · simp only [PageDirectory.word, PageDirectory.setPde]
      by_cases hp : p / 1024 = s / 1024
      · rw [hp, Function.update_self, ht]
        dsimp only
        by_cases hps : p = s
        · rw [if_pos hps, hps, Function.update_self]
        · rw [if_neg hps, Function.update_of_ne (by omega)]
      · have hps : p ≠ s := fun he => hp (by rw [he])
        rw [Function.update_of_ne hp, if_neg hps]
    · simp only [PageDirectory.setPde]
      by_cases hi : i = s / 1024
      · subst hi
        simp [ht]
      · rw [Function.update_of_ne hi]

theorem ensureTable_eq {tables : ℕ → Option ℕ} {flags a : ℕ} {d e : PageDirectory}
    (h : ensureTable tables flags d a = .ok e) :
    (∀ p, e.word p = d.word p) ∧ ∀ i, e.pde i = .large ↔ d.pde i = .large := by
  rw [ensureTable, pageTablePresent] at h
  cases ht : d.pde (pageTableOf a) with
  | large => rw [ht] at h; cases h; simp
  | table t => rw [ht] at h; cases h; simp
  | absent =>
    rw [ht, if_neg (by simp)] at h
    obtain ⟨f, -, h⟩ := bind_eq_ok.mp h
    cases h
    refine ⟨fun p => ?_, fun i => ?_⟩
    · simp only [PageDirectory.word, PageDirectory.setPde]
      by_cases hp : p / 1024 = pageTableOf a
      · rw [hp, Function.update_self, ht]
      · rw [Function.update_of_ne hp]
    · simp only [PageDirectory.setPde]
      by_cases hi : i = pageTableOf a
      · subst hi
        simp [ht]
      · rw [Function.update_of_ne hi]

/-- Writing an entry halts the kernel unless the page has a table. -/
theorem setEntry_not_large {d e : PageDirectory} {s w : ℕ} (hs : s < 2 ^ 20)
    (h : d.setEntry (s * PAGE_SIZE) w = .ok e) : d.pde (s / 1024) ≠ .large := by
  intro hl
  rw [PageDirectory.setEntry, pageTableOf_page hs, hl] at h
  cases h

theorem add32_page {s : ℕ} (hs : s + 1 < 2 ^ 20) :
    add32 (s * PAGE_SIZE) PAGE_SIZE = (s + 1) * PAGE_SIZE := by
  unfold add32 PAGE_SIZE
  omega

theorem add32_add32 (a b c : ℕ) : add32 (add32 a b) c = add32 a (b + c) := by
  simp only [add32, Nat.mod_add_mod, Nat.add_assoc]

/-- In a split directory a page with a table or none is a page of the user. -/
theorem Split.user {d : PageDirectory} (hd : Split d) {s : ℕ} (hs : s < 2 ^ 20)
    (hl : d.pde (s / 1024) ≠ .large) : 0x80000 ≤ s ∧ s < 0xFE000 := by
  have := (hd (s / 1024) (by omega)).not.mp hl
  omega

theorem Split.not_large {d : PageDirectory} (hd : Split d) {s : ℕ} (h₀ : 0x80000 ≤ s)
    (h : s < 0xFE000) : d.pde (s / 1024) ≠ .large :=
  (hd (s / 1024) (by omega)).not.mpr (by omega)

theorem Split.congr {d e : PageDirectory} (hd : Split d)
    (h : ∀ i, e.pde i = .large ↔ d.pde i = .large) : Split e :=
  fun i hi => (h i).trans (hd i hi)

/-- The pages from `s` on, of which there are `n`, are those of the user. -/
structure UserPages (s n : ℕ) : Prop where
  floor : 0x80000 ≤ s
  ceiling : s + n ≤ 0xFE000

theorem UserPages.next {s n : ℕ} (h : UserPages s (n + 1)) : UserPages (s + 1) n :=
  ⟨by have := h.floor; omega, by have := h.ceiling; omega⟩

theorem directMapFrom_eq {tables : ℕ → Option ℕ} {flags n phys s : ℕ} {d e : PageDirectory}
    (hd : Split d) (hs : s < 2 ^ 20) (hphys : phys < 2 ^ 32)
    (h : directMapFrom tables flags n phys (s * PAGE_SIZE) d = .ok e) :
    Split e ∧ (0 < n → UserPages s n) ∧ ∀ p, e.word p =
      if s ≤ p ∧ p < s + n then entryWord (add32 phys ((p - s) * PAGE_SIZE)) flags
      else d.word p := by
  induction n generalizing phys s d with
  | zero =>
    cases h
    refine ⟨hd, fun h => absurd h (lt_irrefl 0), fun p => ?_⟩
    rw [if_neg (by omega)]
  | succ n ih =>
    obtain ⟨d₁, h₁, h⟩ := bind_eq_ok.mp h
    obtain ⟨d₂, h₂, h⟩ := bind_eq_ok.mp h
    obtain ⟨hw₁, hl₁⟩ := ensureTable_eq h₁
    obtain ⟨hw₂, hl₂⟩ := setEntry_eq hs h₂
    have hd₁ := hd.congr hl₁
    obtain ⟨hfloor, hceil⟩ := hd₁.user hs (setEntry_not_large hs h₂)
    rw [add32_page (by omega)] at h
    obtain ⟨he, huser, hword⟩ := ih (hd₁.congr hl₂) (by omega) (add32_lt _ _) h
    refine ⟨he, fun _ => ⟨hfloor, ?_⟩, fun p => ?_⟩
    · rcases n.eq_zero_or_pos with h0 | hpos
      · omega
      · have := (huser hpos).ceiling
        omega
    · rw [hword, hw₂, hw₁]
      by_cases hp : p = s
      · subst hp
        have hself : add32 phys ((p - p) * PAGE_SIZE) = phys := by
          rw [Nat.sub_self, Nat.zero_mul, add32_of_lt (by omega), Nat.add_zero]
        rw [if_neg (by omega), if_pos rfl, if_pos (by omega), hself]
      · rw [if_neg hp]
        by_cases hin : s + 1 ≤ p ∧ p < s + 1 + n
        · have hsucc : PAGE_SIZE + (p - (s + 1)) * PAGE_SIZE = (p - s) * PAGE_SIZE := by
            unfold PAGE_SIZE
            omega
          rw [if_pos hin, if_pos (by omega), add32_add32, hsucc]
        · rw [if_neg hin, if_neg (by omega)]

theorem pageDirectMap_eq {tables : ℕ → Option ℕ} {n phys s type : ℕ} {d e : PageDirectory}
    (hd : Split d) (hs : s < 2 ^ 20) (hn : n < 2 ^ 32) (hphys : phys < 2 ^ 32)
    (h : pageDirectMap tables d phys (s * PAGE_SIZE) n type = .ok e) :
    Split e ∧ (0 < n → UserPages s n) ∧ ∀ p, e.word p =
      if s ≤ p ∧ p < s + n then
        entryWord (add32 phys ((p - s) * PAGE_SIZE)) (convertPagingTypes type)
      else d.word p := by
  have hcount : ((n : ℤ) % 2 ^ 32).toNat = n := by omega
  rw [pageDirectMap, hcount] at h
  exact directMapFrom_eq hd hs hphys h

theorem firstPresent_none {memory : ℕ → ℕ} {d : PageDirectory} {current left count : ℕ}
    (h : firstPresent memory d current left count = none) {i : ℕ} (hi : count ≤ i)
    (hlt : i < count + left) :
    pageEntryPresent memory d (add32 current (i * PAGE_SIZE)) = false := by
  induction left generalizing count with
  | zero => omega
  | succ left ih =>
    rw [firstPresent] at h
    split_ifs at h with hp
    rcases hi.eq_or_lt with rfl | hi
    · simpa using hp
    · exact ih h hi (by omega)

theorem add32_aligned {a b : ℕ} (ha : a % PAGE_SIZE = 0) (hb : b % PAGE_SIZE = 0) :
    add32 a b % PAGE_SIZE = 0 := by
  unfold add32 PAGE_SIZE at *
  omega

theorem findFreeFrom_eq {memory : ℕ → ℕ} {d : PageDirectory} {finish pages left current loc : ℕ}
    (hc : current % PAGE_SIZE = 0) (h : findFreeFrom memory d finish pages left current = .ok loc)
    (h0 : loc ≠ 0) : loc < finish ∧ loc % PAGE_SIZE = 0 ∧
      ∀ i < pages, pageEntryPresent memory d (add32 loc (i * PAGE_SIZE)) = false := by
  induction left generalizing current with
  | zero =>
    rw [findFreeFrom] at h
    split_ifs at h
    cases h
    exact absurd rfl h0
  | succ left ih =>
    rw [findFreeFrom] at h
    split_ifs at h with hlt
    · cases hf : firstPresent memory d current pages 0 with
      | none =>
        rw [hf] at h
        cases h
        exact ⟨hlt, hc, fun i hi => firstPresent_none hf (Nat.zero_le i) (by omega)⟩
      | some count =>
        rw [hf] at h
        exact ih (add32_aligned (add32_aligned hc (Nat.mul_mod_left _ _)) (by decide)) h
    · cases h
      exact absurd rfl h0

/-- A mapping that `page_provide` makes takes up pages of the user that were free. -/
theorem pageProvide_eq {memory : ℕ → ℕ} {tables : ℕ → Option ℕ} {d e : PageDirectory}
    {phys start finish n type loc : ℕ} (hd : Split d) (hn : 0 < n) (hn' : n < 2 ^ 32)
    (hphys : phys < 2 ^ 32) (hf : finish ≤ 2 ^ 32)
    (h : pageProvide memory tables d phys start finish n type = .ok (e, loc)) :
    Split e ∧ (loc = 0 ∧ e = d ∨ ∃ s, loc = s * PAGE_SIZE ∧ loc < finish ∧ UserPages s n ∧
      (∀ p, s ≤ p → p < s + n → present (d.word p) = false) ∧ ∀ p, e.word p =
        if s ≤ p ∧ p < s + n then
          entryWord (add32 phys ((p - s) * PAGE_SIZE)) (convertPagingTypes type)
        else d.word p) := by
  obtain ⟨l, hl, h⟩ := bind_eq_ok.mp h
  by_cases h0 : l = 0
  · rw [if_pos h0] at h
    cases h
    exact ⟨hd, .inl ⟨rfl, rfl⟩⟩
  · rw [if_neg h0] at h
    obtain ⟨d₁, hm, h⟩ := bind_eq_ok.mp h
    cases h
    obtain ⟨hlt, halign, hfree⟩ := findFreeFrom_eq (Nat.mul_mod_left _ _) hl h0
    obtain ⟨s, rfl⟩ : ∃ s, loc = s * PAGE_SIZE :=
      ⟨loc / PAGE_SIZE, (Nat.div_mul_cancel (Nat.dvd_of_mod_eq_zero halign)).symm⟩
    have hs : s < 2 ^ 20 := by
      unfold PAGE_SIZE at hlt
      omega
    obtain ⟨he, huser, hword⟩ := pageDirectMap_eq hd hs hn' hphys hm
    have hu := huser hn
    have hceil := hu.ceiling
    refine ⟨he, .inr ⟨s, rfl, hlt, hu, fun p hp hp' => ?_, hword⟩⟩
    have hadd : add32 (s * PAGE_SIZE) ((p - s) * PAGE_SIZE) = p * PAGE_SIZE := by
      unfold add32 PAGE_SIZE
      omega
    have hfloor := hu.floor
    have hp := hfree (p - s) (by omega)
    rwa [hadd, pageEntryPresent_eq (by omega) (hd.not_large (by omega) (by omega))] at hp

/-- The pages released are no longer mapped and the others are as before. -/
theorem releaseFrom_eq {memory : ℕ → ℕ} {d e : PageDirectory} {n s : ℕ} (hd : Split d)
    (hu : UserPages s n) (h : releaseFrom memory n (s * PAGE_SIZE) d = .ok e) :
    Split e ∧ ∀ p, e.word p =
      if (s ≤ p ∧ p < s + n) ∧ present (d.word p) = true then 0 else d.word p := by
  induction n generalizing s d with
  | zero =>
    cases h
    refine ⟨hd, fun p => ?_⟩
    rw [if_neg (by omega)]
  | succ n ih =>
    obtain ⟨d₁, h₁, h⟩ := bind_eq_ok.mp h
    have hfloor := hu.floor
    have hceil := hu.ceiling
    have hs : s < 2 ^ 20 := by omega
    have hstep : Split d₁ ∧
        ∀ p, d₁.word p = if p = s ∧ present (d.word p) = true then 0 else d.word p := by
      rw [clearEntry, pageEntryPresent_eq hs (hd.not_large hfloor (by omega))] at h₁
      split_ifs at h₁ with hp
      · obtain ⟨hw, hl⟩ := setEntry_eq hs h₁
        refine ⟨hd.congr hl, fun p => ?_⟩
        rw [hw]
        by_cases hps : p = s
        · rw [if_pos hps, if_pos ⟨hps, hps ▸ hp⟩]
        · rw [if_neg hps, if_neg fun hc => hps hc.1]
      · cases h₁
        refine ⟨hd, fun p => ?_⟩
        rw [if_neg]
        rintro ⟨rfl, hp'⟩
        exact hp hp'
    rw [add32_page (by omega)] at h
    obtain ⟨he, hword⟩ := ih hstep.1 hu.next h
    refine ⟨he, fun p => ?_⟩
    rw [hword, hstep.2]
    by_cases hps : p = s
    · rw [if_neg (by omega)]
      by_cases hp : present (d.word p) = true
      · rw [if_pos ⟨hps, hp⟩, if_pos ⟨by omega, hp⟩]
      · rw [if_neg fun hc => hp hc.2, if_neg fun hc => hp hc.2]
    · rw [if_neg fun hc : p = s ∧ _ => hps hc.1]
      by_cases hp : present (d.word p) = true
      · simp only [hp, and_true]
        by_cases hin : s + 1 ≤ p ∧ p < s + 1 + n
        · rw [if_pos hin, if_pos (by omega)]
        · rw [if_neg hin, if_neg (by omega)]
      · rw [if_neg fun hc => hp hc.2, if_neg fun hc => hp hc.2]

/-- On the large pages below the user it finds nothing, or fails. -/
theorem releaseFrom_kernel {memory : ℕ → ℕ} {d e : PageDirectory} {n s : ℕ} (hd : Split d)
    (hs : s + n ≤ 0x80000) (h : releaseFrom memory n (s * PAGE_SIZE) d = .ok e) : e = d := by
  induction n generalizing s with
  | zero =>
    cases h
    rfl
  | succ n ih =>
    have hlarge : d.pde (s / 1024) = .large := (hd (s / 1024) (by omega)).mpr (by omega)
    obtain ⟨d₁, h₁, h⟩ := bind_eq_ok.mp h
    have hd₁ : d₁ = d := by
      rw [clearEntry, PageDirectory.setEntry, pageTableOf_page (by omega), hlarge] at h₁
      split_ifs at h₁
      cases h₁
      rfl
    rw [hd₁, add32_page (by omega)] at h
    exact ih (by omega) h

/-- The page of an address has a table. -/
def HasTable (d : PageDirectory) (address : ℕ) : Prop := ∃ t, d.pde (pageTableOf address) = .table t

theorem hasTable_of_present {d : PageDirectory} {p : ℕ} (hp : p < 2 ^ 20)
    (h : present (d.word p) = true) : HasTable d (p * PAGE_SIZE) := by
  rw [PageDirectory.word] at h
  split at h
  · next t ht => exact ⟨t, by rw [pageTableOf_page hp, ht]⟩
  · cases h

section Tables
variable {d e : PageDirectory} {tables : ℕ → Option ℕ} {flags left phys index a : ℕ}

theorem setEntry_table {word : ℕ} (h : d.setEntry index word = .ok e) (ha : HasTable d a) :
    HasTable e a := by
  obtain ⟨t, ht⟩ := ha
  unfold PageDirectory.setEntry at h
  cases hd : d.pde (pageTableOf index) with
  | absent =>
    rw [hd] at h
    cases h
  | large =>
    rw [hd] at h
    cases h
  | table t' =>
    rw [hd] at h
    cases h
    by_cases hi : pageTableOf a = pageTableOf index
    · exact ⟨_, by rw [hi]; exact Function.update_self ..⟩
    · exact ⟨t, (Function.update_of_ne hi _ _).trans ht⟩

theorem ensureTable_table (h : ensureTable tables flags d index = .ok e) (ha : HasTable d a) :
    HasTable e a := by
  unfold ensureTable at h
  split_ifs at h with hp
  · cases h
    exact ha
  · obtain ⟨frame, -, h⟩ := bind_eq_ok.mp h
    cases h
    obtain ⟨t, ht⟩ := ha
    refine ⟨t, (Function.update_of_ne (fun hi => hp ?_) _ _).trans ht⟩
    rw [pageTablePresent, ← hi, ht]

theorem directMapFrom_table (h : directMapFrom tables flags left phys index d = .ok e)
    (ha : HasTable d a) : HasTable e a := by
  induction left generalizing phys index d with
  | zero =>
    cases h
    exact ha
  | succ left ih =>
    obtain ⟨d₁, hensure, h⟩ := bind_eq_ok.mp h
    obtain ⟨d₂, hset, h⟩ := bind_eq_ok.mp h
    exact ih h (setEntry_table hset (ensureTable_table hensure ha))

/-- Where the tables are there, no page is asked for and nothing can fail. -/
theorem directMapFrom_total (tables : ℕ → Option ℕ) (flags phys : ℕ)
    (h : ∀ i < left, HasTable d (index + i * PAGE_SIZE)) :
    ∃ e, directMapFrom tables flags left phys index d = .ok e := by
  induction left generalizing phys index d with
  | zero => exact ⟨d, rfl⟩
  | succ left ih =>
    obtain ⟨t, ht⟩ := h 0 (Nat.succ_pos left)
    rw [Nat.zero_mul, Nat.add_zero] at ht
    have hensure : ensureTable tables flags d index = .ok d := if_pos (by rw [pageTablePresent, ht])
    have hset : ∃ e, d.setEntry index (entryWord phys flags) = .ok e := by
      rw [PageDirectory.setEntry, ht]
      exact ⟨_, rfl⟩
    obtain ⟨d', hset⟩ := hset
    rw [directMapFrom, hensure, ok_bind, hset, ok_bind]
    refine ih (add32 phys PAGE_SIZE) fun i hi => ?_
    have hpage : pageTableOf (add32 index PAGE_SIZE + i * PAGE_SIZE) =
        pageTableOf (index + (i + 1) * PAGE_SIZE) := by
      unfold pageTableOf add32 PAGE_SIZE
      omega
    rw [HasTable, hpage]
    exact setEntry_table hset (h (i + 1) (Nat.succ_lt_succ hi))

end Tables

end Racoon.Paging
