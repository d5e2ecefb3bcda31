import Racoon.Paging.Locality
import Racoon.Paging.Teardown

/-!
# The access that a mapping grants

The processor grants what both the directory entry and the table entry of a page grant.
A directory entry keeps the flags of the call that has made its table, so that a later
call for a page in the same 4 MB gets no more than that call has asked for. `asked`
records what the calls of a run have asked for, and `granted` what the directory gives.
-/

namespace Racoon.Paging
open Lib

/-- Whether a page may be written to, and used outside the kernel. -/
structure Access where
  write : Bool
  user : Bool
  deriving DecidableEq

/-- The bits of `PAGE_RDWR` and `PAGE_USER`. -/
def accessOf (flags : ℕ) : Access := ⟨flags.testBit 1, flags.testBit 2⟩

def tableFlags (d : PageDirectory) (i : ℕ) : Option ℕ :=
  match d.pde i with
  | .table t => some t.flags
  | _ => none

/-- The access of a page that is mapped. -/
def granted (d : PageDirectory) (p : ℕ) : Option Access :=
  match d.pde (p / 1024) with
  | .table t =>
    if present (t.entry (p % 1024)) then some (accessOf (t.flags &&& t.entry (p % 1024))) else none
  | _ => none

/-- The access that the type flags of a call ask for. -/
def requested (type : ℕ) : Access := ⟨type &&& READ_WRITE ≠ 0, type &&& USER_PAGE ≠ 0⟩

/-- A call for the `n` pages from that of `start` on. -/
inductive MapCall
  | directMap (physical start n type : ℕ)
  | ensure (start n flags : ℕ)
  | release (start n : ℕ)

/-- A call with the memory it reads and what `memory_alloc` answers. -/
structure MapInput where
  call : MapCall
  memory : ℕ → ℕ
  tables : ℕ → Option ℕ
  frames : ℕ → ℕ

def MapInput.step (d : PageDirectory) (i : MapInput) : Outcome PageDirectory :=
  match i.call with
  | .directMap physical start n type => pageDirectMap i.tables d physical start n type
  | .ensure start n flags => do
    let (d, _) ← pageEnsure i.memory i.tables i.frames d start n flags
    .ok d
  | .release start n => pageRelease i.memory d start n

def MapCall.OnUser : MapCall → Prop
  | .directMap physical start n _ => physical < 2 ^ 32 ∧ UserPages (start / PAGE_SIZE) n
  | .ensure start n _ => UserPages (start / PAGE_SIZE) n
  | .release start n => UserPages (start / PAGE_SIZE) n

/-- Calls on user ranges of a new directory. -/
def mapping : System PageDirectory MapInput Fault where
  Init d := ∃ frame, d = newPageDirectory frame
  Guard _ i := i.call.OnUser
  step := MapInput.step

/-- The pages of a call. -/
def Covers (start n p : ℕ) : Prop := start / PAGE_SIZE ≤ p ∧ p < start / PAGE_SIZE + n

instance (start n p : ℕ) : Decidable (Covers start n p) := inferInstanceAs (Decidable (_ ∧ _))

/-- The type flags of the last call that has mapped a page, after one call more. -/
def MapCall.after (f : ℕ → Option ℕ) : MapCall → ℕ → Option ℕ
  | .directMap _ start n type, p => if Covers start n p then some type else f p
  | .ensure start n flags, p => if Covers start n p ∧ f p = none then some flags else f p
  | .release start n, p => if Covers start n p then none else f p

def asked (is : List MapInput) : ℕ → Option ℕ :=
  is.foldl (fun f i => i.call.after f) fun _ => none

/-- Every page of the user is mapped with the access that the last call for it has asked for. -/
def Accords (d : PageDirectory) (f : ℕ → Option ℕ) : Prop :=
  ∀ p, 0x80000 ≤ p → p < 0xFE000 → granted d p = (f p).map requested

/-- A table that is there for the page already lets through what `flags` ask for the frame. -/
def Suits (d : PageDirectory) (flags frame p : ℕ) : Prop :=
  ∀ g, tableFlags d (p / 1024) = some g → accessOf (g &&& entryWord frame flags) = accessOf flags

/-- The condition on a call: the tables that are there suit every page that it maps. -/
def MapInput.Suited (d : PageDirectory) (i : MapInput) : Prop :=
  match i.call with
  | .directMap physical start n type => ∀ p, Covers start n p →
      Suits d (convertPagingTypes type) (add32 physical ((p - start / PAGE_SIZE) * PAGE_SIZE)) p
  | .ensure start n flags => ∀ p, Covers start n p → granted d p = none →
      Suits d (convertPagingTypes flags) (i.frames p) p
  | .release _ _ => True

/-! ### Flags -/

theorem accessOf_convert (type : ℕ) : accessOf (convertPagingTypes type) = requested type := by
  unfold accessOf requested convertPagingTypes
  split_ifs <;> simp_all <;> decide

theorem accessOf_eq {a b : ℕ} :
    accessOf a = accessOf b ↔ a.testBit 1 = b.testBit 1 ∧ a.testBit 2 = b.testBit 2 := by
  rw [accessOf, accessOf, Access.mk.injEq]

theorem testBit_entryWord (frame flags : ℕ) {b : ℕ} (hb : b ≠ 0) :
    (entryWord frame flags).testBit b = (frame.testBit b || flags.testBit b) := by
  have hone : Nat.testBit PAGE_PRESENT b = false := by
    rw [← Bool.not_eq_true, PAGE_PRESENT, Nat.testBit_one_eq_true_iff_self_eq_zero]
    exact hb
  rw [entryWord, Nat.testBit_or, Nat.testBit_or, hone, Bool.or_false]

theorem accessOf_self (frame flags : ℕ) :
    accessOf (flags &&& entryWord frame flags) = accessOf flags := by
  rw [accessOf_eq, Nat.testBit_and, Nat.testBit_and, testBit_entryWord _ _ (by decide),
    testBit_entryWord _ _ (by decide)]
  cases flags.testBit 1 <;> cases flags.testBit 2 <;> simp

theorem suits_iff_getD {d : PageDirectory} {flags frame p : ℕ} : Suits d flags frame p ↔
    accessOf ((tableFlags d (p / 1024)).getD flags &&& entryWord frame flags) = accessOf flags := by
  rw [Suits]
  cases tableFlags d (p / 1024) with
  | none => simp [accessOf_self]
  | some g => simp

/-! ### Rounds -/

section Rounds
variable {d e f : PageDirectory} {s n : ℕ}

/-- The access is that of the word of a page under the flags of its table. -/
theorem granted_eq (d : PageDirectory) (p : ℕ) : granted d p = if present (d.word p) then
    (tableFlags d (p / 1024)).map fun g => accessOf (g &&& d.word p) else none := by
  rw [granted, PageDirectory.word, tableFlags]
  cases d.pde (p / 1024) with
  | absent => rfl
  | large => rfl
  | table t => rfl

theorem tableFlags_of_present {p : ℕ} (h : present (d.word p) = true) :
    ∃ g, tableFlags d (p / 1024) = some g := by
  rw [PageDirectory.word] at h
  rw [tableFlags]
  cases ht : d.pde (p / 1024) with
  | absent =>
    rw [ht] at h
    cases h
  | large =>
    rw [ht] at h
    cases h
  | table t => exact ⟨t.flags, rfl⟩

/-- The tables of `d` are still there, and new ones have `flags`. -/
structure Grows (d e : PageDirectory) (flags : ℕ) : Prop where
  tables : UserTables e
  kept : ∀ i g, tableFlags d i = some g → tableFlags e i = some g
  new : ∀ i, (tableFlags e i).getD flags = (tableFlags d i).getD flags

theorem Grows.refl (hd : UserTables d) (flags : ℕ) : Grows d d flags :=
  ⟨hd, fun _ _ h => h, fun _ => rfl⟩

theorem Grows.trans {flags : ℕ} (h : Grows d e flags) (h' : Grows e f flags) : Grows d f flags :=
  ⟨h'.tables, fun i g hg => h'.kept i g (h.kept i g hg), fun i => (h'.new i).trans (h.new i)⟩

/-- A page whose word is as before has the access it had. -/
theorem Grows.granted {flags : ℕ} (h : Grows d e flags) {p : ℕ} (hw : e.word p = d.word p) :
    granted e p = granted d p := by
  rw [granted_eq, granted_eq, hw]
  by_cases hp : present (d.word p) = true
  · obtain ⟨g, hg⟩ := tableFlags_of_present hp
    rw [if_pos hp, if_pos hp, hg, h.kept _ g hg]
  · rw [if_neg hp, if_neg hp]

theorem setEntry_grows (hd : UserTables d) {w : ℕ} (hs : s < 2 ^ 20) (flags : ℕ)
    (h : d.setEntry (s * PAGE_SIZE) w = .ok e) :
    Grows d e flags ∧ (∃ g, tableFlags d (s / 1024) = some g) ∧
      ∀ p, e.word p = if p = s then w else d.word p := by
  obtain ⟨hword, hlarge⟩ := setEntry_eq hs h
  have hflags : (∃ g, tableFlags d (s / 1024) = some g) ∧ ∀ i, tableFlags e i = tableFlags d i := by
    rw [PageDirectory.setEntry, pageTableOf_page hs] at h
    simp only [tableFlags]
    cases ht : d.pde (s / 1024) with
    | absent => rw [ht] at h; cases h
    | large => rw [ht] at h; cases h
    | table t =>
      rw [ht] at h
      cases h
      refine ⟨⟨t.flags, rfl⟩, fun i => ?_⟩
      simp only [PageDirectory.setPde]
      by_cases hi : i = s / 1024
      · rw [hi, Function.update_self, ht]
      · rw [Function.update_of_ne hi]
  exact ⟨⟨fun i hi hi' => (hlarge i).not.mpr (hd i hi hi'), fun i g hg => (hflags.2 i).trans hg,
    fun i => by rw [hflags.2]⟩, hflags.1, hword⟩

theorem ensureTable_grows (hd : UserTables d) {tables : ℕ → Option ℕ} {flags a : ℕ}
    (h : ensureTable tables flags d a = .ok e) :
    Grows d e flags ∧ ∀ p, e.word p = d.word p := by
  obtain ⟨hword, hlarge⟩ := ensureTable_eq h
  have hflags : ∀ i, tableFlags e i = tableFlags d i ∨
      tableFlags d i = none ∧ tableFlags e i = some flags := by
    intro i
    rw [ensureTable, pageTablePresent] at h
    cases ht : d.pde (pageTableOf a) with
    | large =>
      rw [ht] at h
      cases h
      exact .inl rfl
    | table t =>
      rw [ht] at h
      cases h
      exact .inl rfl
    | absent =>
      rw [ht, if_neg (by simp)] at h
      obtain ⟨frame, -, h⟩ := bind_eq_ok.mp h
      cases h
      simp only [tableFlags, PageDirectory.setPde]
      by_cases hi : i = pageTableOf a
      · rw [hi, Function.update_self, ht]
        exact .inr ⟨rfl, rfl⟩
      · rw [Function.update_of_ne hi]
        exact .inl rfl
  refine ⟨⟨fun i hi hi' => (hlarge i).not.mpr (hd i hi hi'), fun i g hg => ?_, fun i => ?_⟩, hword⟩
  · rcases hflags i with h | ⟨h, -⟩
    · rw [h, hg]
    · rw [h] at hg
      cases hg
  · rcases hflags i with h | ⟨h, h'⟩
    · rw [h]
    · rw [h, h']
      rfl

/-- A table, if there was none, and a word for the page: the round of both mapping loops. -/
theorem mapRound_granted (hd : UserTables d) (hs : s < 2 ^ 20) {tables : ℕ → Option ℕ}
    {flags frame : ℕ} (h₁ : ensureTable tables flags d (s * PAGE_SIZE) = .ok e)
    (h₂ : e.setEntry (s * PAGE_SIZE) (entryWord frame flags) = .ok f) :
    Grows d f flags ∧ ∀ p, granted f p = if p = s then
      some (accessOf ((tableFlags d (s / 1024)).getD flags &&& entryWord frame flags))
      else granted d p := by
  obtain ⟨hgrow₁, hword₁⟩ := ensureTable_grows hd h₁
  obtain ⟨hgrow₂, ⟨g, hg⟩, hword₂⟩ := setEntry_grows hgrow₁.tables hs flags h₂
  have hgrow := hgrow₁.trans hgrow₂
  refine ⟨hgrow, fun p => ?_⟩
  by_cases hp : p = s
  · have hnew := hgrow₁.new (s / 1024)
    rw [hg] at hnew
    rw [if_pos hp, hp, granted_eq, hword₂, if_pos rfl, if_pos (present_entryWord _ _),
      hgrow₂.kept _ g hg, ← hnew]
    rfl
  · rw [if_neg hp]
    exact hgrow.granted (by rw [hword₂, if_neg hp, hword₁])

/-- What the calls of `page_direct_map` leave of the access of each page. -/
theorem directMapFrom_granted (hd : UserTables d) (hu : UserPages s n) {tables : ℕ → Option ℕ}
    {flags phys : ℕ} (hphys : phys < 2 ^ 32)
    (h : directMapFrom tables flags n phys (s * PAGE_SIZE) d = .ok e) :
    Grows d e flags ∧ ∀ p, granted e p = if s ≤ p ∧ p < s + n then
      some (accessOf ((tableFlags d (p / 1024)).getD flags &&&
        entryWord (add32 phys ((p - s) * PAGE_SIZE)) flags))
      else granted d p := by
  induction n generalizing phys s d with
  | zero =>
    cases h
    refine ⟨.refl hd flags, fun p => ?_⟩
    rw [if_neg (by omega)]
  | succ n ih =>
    have hceil := hu.ceiling
    obtain ⟨d₁, h₁, h⟩ := bind_eq_ok.mp h
    obtain ⟨d₂, h₂, h⟩ := bind_eq_ok.mp h
    obtain ⟨hround, hself⟩ := mapRound_granted hd (by omega) h₁ h₂
    rw [add32_page (by omega)] at h
    obtain ⟨hrest, hword⟩ := ih hround.tables hu.next (add32_lt phys PAGE_SIZE) h
    refine ⟨hround.trans hrest, fun p => ?_⟩
    rw [hword, hround.new, hself]
    by_cases hp : p = s
    · have hzero : add32 phys ((s - s) * PAGE_SIZE) = phys := by
        rw [Nat.sub_self, Nat.zero_mul, add32_of_lt (by omega), Nat.add_zero]
      rw [if_neg (by omega), if_pos hp, if_pos (by omega), hp, hzero]
    · rw [if_neg hp]
      by_cases hin : s + 1 ≤ p ∧ p < s + 1 + n
      · have hsucc : PAGE_SIZE + (p - (s + 1)) * PAGE_SIZE = (p - s) * PAGE_SIZE := by
          unfold PAGE_SIZE
          omega
        rw [if_pos hin, if_pos (by omega), add32_add32, hsucc]
      · rw [if_neg hin, if_neg (by omega)]

theorem granted_none (hd : UserTables d) (memory : ℕ → ℕ) (hs : 0x80000 ≤ s ∧ s < 0xFE000) :
    granted d s = none ↔ pageEntryPresent memory d (s * PAGE_SIZE) = false := by
  rw [pageEntryPresent_eq (by omega) (hd.pde_ne hs), granted_eq]
  by_cases h : present (d.word s) = true
  · obtain ⟨g, hg⟩ := tableFlags_of_present h
    rw [if_pos h, hg, h]
    simp
  · simp [h]

/-- A round of `page_ensure` maps the page if it is not present. -/
theorem ensureEntry_granted (hd : UserTables d) (hs : 0x80000 ≤ s ∧ s < 0xFE000)
    {memory : ℕ → ℕ} {tables : ℕ → Option ℕ} {frames : ℕ → ℕ} {flags count : ℕ}
    (h : ensureEntry memory tables frames flags d (s * PAGE_SIZE) = .ok (e, count)) :
    Grows d e flags ∧ ∀ p, granted e p = if p = s ∧ granted d p = none then
      some (accessOf ((tableFlags d (s / 1024)).getD flags &&& entryWord (frames s) flags))
      else granted d p := by
  obtain ⟨d₁, h₁, h⟩ := bind_eq_ok.mp h
  obtain ⟨hgrow, hword⟩ := ensureTable_grows hd h₁
  have hsame : ∀ p, granted d₁ p = granted d p := fun p => hgrow.granted (hword p)
  have hnone := granted_none hgrow.tables memory hs
  rw [hsame] at hnone
  by_cases hp : pageEntryPresent memory d₁ (s * PAGE_SIZE) = true
  · rw [if_pos hp] at h
    cases h
    refine ⟨hgrow, fun p => ?_⟩
    rw [hsame, if_neg]
    rintro ⟨rfl, hn⟩
    rw [hnone, hp] at hn
    cases hn
  · rw [if_neg hp] at h
    obtain ⟨d₂, h₂, h⟩ := bind_eq_ok.mp h
    cases h
    have hpage : s * PAGE_SIZE / PAGE_SIZE = s := Nat.mul_div_cancel _ (by decide)
    rw [hpage] at h₂
    obtain ⟨hround, hself⟩ := mapRound_granted hd (by omega) h₁ h₂
    have hfree : granted d s = none := hnone.mpr (by simpa using hp)
    refine ⟨hround, fun p => ?_⟩
    rw [hself]
    by_cases hps : p = s
    · rw [if_pos hps, if_pos ⟨hps, hps ▸ hfree⟩]
    · rw [if_neg hps, if_neg fun hc => hps hc.1]

theorem ensureFrom_granted (hd : UserTables d) (hu : UserPages s n) {memory : ℕ → ℕ}
    {tables : ℕ → Option ℕ} {frames : ℕ → ℕ} {flags a a' : ℕ}
    (h : ensureFrom memory tables frames flags n (s * PAGE_SIZE) d a = .ok (e, a')) :
    Grows d e flags ∧ ∀ p, granted e p = if (s ≤ p ∧ p < s + n) ∧ granted d p = none then
      some (accessOf ((tableFlags d (p / 1024)).getD flags &&& entryWord (frames p) flags))
      else granted d p := by
  induction n generalizing s d a with
  | zero =>
    cases h
    refine ⟨.refl hd flags, fun p => ?_⟩
    rw [if_neg (by omega)]
  | succ n ih =>
    have hfloor := hu.floor
    have hceil := hu.ceiling
    obtain ⟨⟨d₁, found⟩, h₁, h⟩ := bind_eq_ok.mp h
    obtain ⟨hround, hself⟩ := ensureEntry_granted hd ⟨hfloor, by omega⟩ h₁
    dsimp only at h
    rw [add32_page (by omega)] at h
    obtain ⟨hrest, hword⟩ := ih hround.tables hu.next h
    refine ⟨hround.trans hrest, fun p => ?_⟩
    rw [hword, hround.new, hself]
    by_cases hp : p = s
    · by_cases hn : granted d p = none
      · rw [if_neg (by omega), if_pos ⟨hp, hn⟩, if_pos ⟨by omega, hn⟩, hp]
      · rw [if_neg (by omega), if_neg fun hc => hn hc.2, if_neg fun hc => hn hc.2]
    · rw [if_neg fun hc : p = s ∧ _ => hp hc.1]
      by_cases hin : s + 1 ≤ p ∧ p < s + 1 + n
      · simp only [hin, show s ≤ p ∧ p < s + (n + 1) by omega, true_and, and_self]
      · rw [if_neg fun hc => hin hc.1, if_neg fun hc => hin (by omega)]

/-- A release takes the access away. -/
theorem releaseFrom_granted (hd : UserTables d) (hu : UserPages s n) {memory : ℕ → ℕ}
    (h : releaseFrom memory n (s * PAGE_SIZE) d = .ok e) :
    UserTables e ∧ ∀ p, granted e p = if s ≤ p ∧ p < s + n then none else granted d p := by
  induction n generalizing s d with
  | zero =>
    cases h
    refine ⟨hd, fun p => ?_⟩
    rw [if_neg (by omega)]
  | succ n ih =>
    have hfloor := hu.floor
    have hceil := hu.ceiling
    obtain ⟨d₁, h₁, h⟩ := bind_eq_ok.mp h
    have hround : UserTables d₁ ∧ ∀ p, granted d₁ p = if p = s then none else granted d p := by
      have hnone := granted_none hd memory ⟨hfloor, (by omega : s < 0xFE000)⟩
      rw [clearEntry] at h₁
      by_cases hp : pageEntryPresent memory d (s * PAGE_SIZE) = true
      · rw [if_pos hp] at h₁
        obtain ⟨hgrow, -, hw⟩ := setEntry_grows hd (by omega) 0 h₁
        refine ⟨hgrow.tables, fun p => ?_⟩
        by_cases hps : p = s
        · rw [if_pos hps, granted_eq, hw, if_pos hps]
          rfl
        · rw [if_neg hps]
          exact hgrow.granted (by rw [hw, if_neg hps])
      · rw [if_neg hp] at h₁
        cases h₁
        refine ⟨hd, fun p => ?_⟩
        by_cases hps : p = s
        · rw [if_pos hps, hps, hnone]
          simpa using hp
        · rw [if_neg hps]
    rw [add32_page (by omega)] at h
    obtain ⟨he, hrest⟩ := ih hround.1 hu.next h
    refine ⟨he, fun p => ?_⟩
    rw [hrest, hround.2]
    by_cases hp : p = s
    · rw [if_neg (by omega), if_pos hp, if_pos (by omega)]
    · rw [if_neg hp]
      by_cases hin : s + 1 ≤ p ∧ p < s + 1 + n
      · rw [if_pos hin, if_pos (by omega)]
      · rw [if_neg hin, if_neg (by omega)]

end Rounds

/-! ### Addresses inside a page -/

section Floor
variable {memory : ℕ → ℕ} {tables : ℕ → Option ℕ} {frames : ℕ → ℕ} {flags : ℕ}

theorem pageTableOf_floor (a : ℕ) : pageTableOf (a / PAGE_SIZE * PAGE_SIZE) = pageTableOf a := by
  unfold pageTableOf PAGE_SIZE
  omega

theorem pageEntryOf_floor (a : ℕ) : pageEntryOf (a / PAGE_SIZE * PAGE_SIZE) = pageEntryOf a := by
  unfold pageEntryOf PAGE_SIZE
  omega

theorem add32_floor (a : ℕ) :
    add32 a PAGE_SIZE / PAGE_SIZE * PAGE_SIZE = add32 (a / PAGE_SIZE * PAGE_SIZE) PAGE_SIZE := by
  unfold add32 PAGE_SIZE
  omega

theorem setEntry_floor (d : PageDirectory) (a w : ℕ) :
    d.setEntry (a / PAGE_SIZE * PAGE_SIZE) w = d.setEntry a w := by
  rw [PageDirectory.setEntry, PageDirectory.setEntry, pageTableOf_floor, pageEntryOf_floor]

theorem ensureTable_floor (d : PageDirectory) (a : ℕ) :
    ensureTable tables flags d (a / PAGE_SIZE * PAGE_SIZE) = ensureTable tables flags d a := by
  rw [ensureTable, ensureTable, pageTablePresent, pageTablePresent, pageTableOf_floor]

theorem pageEntryPresent_floor (d : PageDirectory) (a : ℕ) :
    pageEntryPresent memory d (a / PAGE_SIZE * PAGE_SIZE) = pageEntryPresent memory d a := by
  rw [pageEntryPresent, pageEntryPresent, pageTableOf_floor, pageEntryOf_floor]

/-- The loops see only which page an address lies in. -/
theorem directMapFrom_floor (n phys a : ℕ) (d : PageDirectory) :
    directMapFrom tables flags n phys (a / PAGE_SIZE * PAGE_SIZE) d =
      directMapFrom tables flags n phys a d := by
  induction n generalizing phys a d with
  | zero => rfl
  | succ n ih =>
    simp only [directMapFrom, ensureTable_floor, setEntry_floor, ← add32_floor, ih]

theorem releaseFrom_floor (n a : ℕ) (d : PageDirectory) :
    releaseFrom memory n (a / PAGE_SIZE * PAGE_SIZE) d = releaseFrom memory n a d := by
  induction n generalizing a d with
  | zero => rfl
  | succ n ih =>
    simp only [releaseFrom, clearEntry, pageEntryPresent_floor, setEntry_floor, ← add32_floor, ih]

theorem ensureFrom_floor (n a : ℕ) (d : PageDirectory) (alreadies : ℕ) :
    ensureFrom memory tables frames flags n (a / PAGE_SIZE * PAGE_SIZE) d alreadies =
      ensureFrom memory tables frames flags n a d alreadies := by
  have hpage : ∀ a, a / PAGE_SIZE * PAGE_SIZE / PAGE_SIZE = a / PAGE_SIZE :=
    fun a => Nat.mul_div_cancel _ (by decide)
  induction n generalizing a d alreadies with
  | zero => rfl
  | succ n ih =>
    simp only [ensureFrom, ensureEntry, ensureTable_floor, pageEntryPresent_floor, setEntry_floor,
      hpage, ← add32_floor, ih]

/-- The index that `page_ensure` starts with is that of its first page. -/
theorem ensure_start {start n : ℕ} (hu : UserPages (start / PAGE_SIZE) n) :
    add32 (sub32 start PAGE_SIZE) PAGE_SIZE = start := by
  have hfloor := hu.floor
  have hceil := hu.ceiling
  unfold add32 sub32
  unfold PAGE_SIZE at *
  omega

end Floor

/-! ### Calls and runs -/

/-- Pages `Q` are mapped with flags for which `type` was asked. -/
theorem accords_mapped {d e : PageDirectory} {f f' : ℕ → Option ℕ} {Q : ℕ → Prop} {A : ℕ → Access}
    {type : ℕ} (hQ : ∀ p, Q p → 0x80000 ≤ p ∧ p < 0xFE000) (hd : Accords d f)
    (hin : ∀ p, Q p → granted e p = some (A p) ∧ f' p = some type)
    (hout : ∀ p, ¬ Q p → granted e p = granted d p ∧ f' p = f p) :
    Accords e f' ↔ ∀ p, Q p → A p = requested type := by
  constructor
  · intro he p hp
    have hpage := he p (hQ p hp).1 (hQ p hp).2
    rw [(hin p hp).1, (hin p hp).2] at hpage
    exact Option.some.inj hpage
  · intro hA p h₁ h₂
    by_cases hp : Q p
    · rw [(hin p hp).1, (hin p hp).2, hA p hp]
      rfl
    · rw [(hout p hp).1, (hout p hp).2]
      exact hd p h₁ h₂

theorem covers_user {start n p : ℕ} (hu : UserPages (start / PAGE_SIZE) n) (hp : Covers start n p) :
    0x80000 ≤ p ∧ p < 0xFE000 :=
  ⟨hu.floor.trans hp.1, hp.2.trans_le hu.ceiling⟩

section Calls
variable {d e : PageDirectory} {memory : ℕ → ℕ} {tables : ℕ → Option ℕ} {frames : ℕ → ℕ}
  {start n : ℕ}

theorem directMap_accords (hd : UserTables d) (hu : UserPages (start / PAGE_SIZE) n)
    {physical type : ℕ} (hphys : physical < 2 ^ 32)
    (h : pageDirectMap tables d physical start n type = .ok e) :
    UserTables e ∧ ∀ f, Accords d f →
      (Accords e (MapCall.after f (.directMap physical start n type)) ↔
        ∀ p, Covers start n p → Suits d (convertPagingTypes type)
          (add32 physical ((p - start / PAGE_SIZE) * PAGE_SIZE)) p) := by
  have hcount : ((n : ℤ) % 2 ^ 32).toNat = n := by
    have hn : n ≤ 0xFE000 := (Nat.le_add_left n _).trans hu.ceiling
    omega
  rw [pageDirectMap, hcount, ← directMapFrom_floor] at h
  obtain ⟨hgrow, hgranted⟩ := directMapFrom_granted hd hu hphys h
  refine ⟨hgrow.tables, fun f hf => ?_⟩
  refine (accords_mapped (fun p => covers_user hu) hf
    (fun p hp => ⟨(hgranted p).trans (if_pos hp), if_pos hp⟩)
    fun p hp => ⟨(hgranted p).trans (if_neg hp), if_neg hp⟩).trans ?_
  refine forall_congr' fun p => imp_congr_right fun _ => ?_
  rw [suits_iff_getD, accessOf_convert]

theorem ensure_accords (hd : UserTables d) (hu : UserPages (start / PAGE_SIZE) n) {flags : ℕ}
    {already : ℤ} (h : pageEnsure memory tables frames d start n flags = .ok (e, already)) :
    UserTables e ∧ ∀ f, Accords d f → (Accords e (MapCall.after f (.ensure start n flags)) ↔
      ∀ p, Covers start n p → granted d p = none →
        Suits d (convertPagingTypes flags) (frames p) p) := by
  rw [pageEnsure, ensure_start hu, ← ensureFrom_floor] at h
  obtain ⟨⟨e', count⟩, h', h⟩ := bind_eq_ok.mp h
  cases h
  obtain ⟨hgrow, hgranted⟩ := ensureFrom_granted hd hu h'
  refine ⟨hgrow.tables, fun f hf => ?_⟩
  have hfree : ∀ p, Covers start n p → (f p = none ↔ granted d p = none) := by
    intro p hp
    rw [hf p (covers_user hu hp).1 (covers_user hu hp).2, Option.map_eq_none_iff]
  refine (accords_mapped (Q := fun p => Covers start n p ∧ granted d p = none)
    (fun p hp => covers_user hu hp.1) hf
    (fun p hp => ⟨(hgranted p).trans (if_pos hp), if_pos ⟨hp.1, (hfree p hp.1).mpr hp.2⟩⟩)
    fun p hp => ⟨(hgranted p).trans (if_neg hp), if_neg fun hc => hp ⟨hc.1, (hfree p hc.1).mp hc.2⟩⟩
    ).trans ?_
  refine forall_congr' fun p => and_imp.trans (imp_congr_right fun _ => imp_congr_right fun _ => ?_)
  rw [suits_iff_getD, accessOf_convert]

theorem release_accords (hd : UserTables d) (hu : UserPages (start / PAGE_SIZE) n)
    (h : pageRelease memory d start n = .ok e) :
    UserTables e ∧ ∀ f, Accords d f → Accords e (MapCall.after f (.release start n)) := by
  rw [pageRelease, Int.toNat_natCast, ← releaseFrom_floor] at h
  obtain ⟨he, hgranted⟩ := releaseFrom_granted hd hu h
  refine ⟨he, fun f hf p h₁ h₂ => ?_⟩
  rw [hgranted, MapCall.after]
  by_cases hp : Covers start n p
  · rw [if_pos hp]
    exact if_pos hp
  · rw [if_neg hp, ← hf p h₁ h₂]
    exact if_neg hp

end Calls

/-- A call leaves a directory that accords with what has been asked exactly if it is suited. -/
theorem MapInput.accords_iff {d e : PageDirectory} (hd : UserTables d) {i : MapInput}
    (hu : i.call.OnUser) (h : i.step d = .ok e) :
    UserTables e ∧ ∀ f, Accords d f → (Accords e (i.call.after f) ↔ i.Suited d) := by
  obtain ⟨call, memory, tables, frames⟩ := i
  cases call with
  | directMap physical start n type => exact directMap_accords hd hu.2 hu.1 h
  | ensure start n flags =>
    obtain ⟨⟨e', already⟩, h', h⟩ := bind_eq_ok.mp h
    cases h
    exact ensure_accords hd hu h'
  | release start n =>
    obtain ⟨he, hf⟩ := release_accords hd hu h
    exact ⟨he, fun f hd => iff_of_true (hf f hd) trivial⟩

theorem asked_snoc (is : List MapInput) (i : MapInput) :
    asked (is ++ [i]) = i.call.after (asked is) :=
  List.foldl_concat ..

theorem accords_new (frame : ℕ) : Accords (newPageDirectory frame) (asked []) := by
  intro p h₁ h₂
  have habsent : (newPageDirectory frame).pde (p / 1024) = .absent := by
    rw [newPageDirectory]
    dsimp only
    rw [if_neg (by omega), if_pos (by omega)]
  rw [granted, habsent]
  rfl

/-- A call when memory is zero and every page is free. -/
def input (call : MapCall) : MapInput := ⟨call, fun _ => 0, fun i => some i, fun p => p * PAGE_SIZE⟩

/-- A page for reading. -/
def readPage : MapCall := .directMap 0x100000 0x80000000 1 (USER_PAGE ||| READ_ONLY)

/-- A page beside it for writing. -/
def writePage : MapCall := .directMap 0x200000 0x80001000 1 (USER_PAGE ||| READ_WRITE)

theorem readPage_onUser : readPage.OnUser := ⟨by decide, ⟨by decide, by decide⟩⟩

theorem writePage_onUser : writePage.OnUser := ⟨by decide, ⟨by decide, by decide⟩⟩

end Racoon.Paging
