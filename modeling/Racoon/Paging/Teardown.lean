import Racoon.Paging.Mappings
import Racoon.Lib.Run

/-!
# The end of a page directory

`delete_page_directory` goes over the directory entries of the user twice, first
for the pages that are mapped and then for the tables. It computes the address
of the entry `i` as `i * PAGE_SIZE` where an entry covers 4 MB, so that the
addresses of all its rounds lie in the first 4 MB, which the kernel maps by one
large page. The words of physical memory outside the tables are `memory`, which
the two loops also change.
-/

namespace Racoon.Paging

/-- `page_table( directory, address )` -/
def pageTable (d : PageDirectory) (address : ℕ) : ℕ :=
  match d.pde (pageTableOf address) with
  | .absent => 0
  | .large => pageTableOf address * 2 ^ 22
  | .table t => t.frame

/-- The word `page_table( directory, address )[ page_entry_of( address ) ]`. -/
def entryAt (memory : ℕ → ℕ) (d : PageDirectory) (address : ℕ) : ℕ :=
  match d.pde (pageTableOf address) with
  | .table t => t.entry (pageEntryOf address)
  | _ => memory (pageTable d address + 4 * pageEntryOf address)

/-- A round of `page_ensure`. `frames` says what `memory_alloc` answers for each page, 0 for
`NULL`; the code does not look. The second part of the answer counts pages found. -/
def ensureEntry (memory : ℕ → ℕ) (tables : ℕ → Option ℕ) (frames : ℕ → ℕ) (flags : ℕ)
    (d : PageDirectory) (index : ℕ) : Outcome (PageDirectory × ℕ) := do
  let d ← ensureTable tables flags d index
  if pageEntryPresent memory d index then .ok (d, 1)
  else do
    let d ← d.setEntry index (entryWord (frames (index / PAGE_SIZE)) flags)
    .ok (d, 0)

/-- The loop of `page_ensure`, which adds up `alreadies`. -/
def ensureFrom (memory : ℕ → ℕ) (tables : ℕ → Option ℕ) (frames : ℕ → ℕ) (flags : ℕ) :
    ℕ → ℕ → PageDirectory → ℕ → Outcome (PageDirectory × ℕ)
  | 0, _, d, alreadies => .ok (d, alreadies)
  | left + 1, index, d, alreadies => do
    let (d, found) ← ensureEntry memory tables frames flags d index
    ensureFrom memory tables frames flags left (add32 index PAGE_SIZE) d (alreadies + found)

/-- The loop adds `PAGE_SIZE` to its index before it uses it. -/
def pageEnsure (memory : ℕ → ℕ) (tables : ℕ → Option ℕ) (frames : ℕ → ℕ) (d : PageDirectory)
    (start pages flags : ℕ) : Outcome (PageDirectory × ℤ) := do
  let (d, alreadies) ← ensureFrom memory tables frames (convertPagingTypes flags) pages
    (add32 (sub32 start PAGE_SIZE) PAGE_SIZE) d 0
  .ok (d, int32 alreadies)

/-- The loop of `page_map_out`, with the pages it frees, the latest last. -/
def mapOutFrom (memory : ℕ → ℕ) :
    ℕ → ℕ → PageDirectory → List ℕ → Outcome (PageDirectory × List ℕ)
  | 0, _, d, freed => .ok (d, freed)
  | left + 1, index, d, freed =>
    if pageEntryPresent memory d index then do
      let e ← d.setEntry index 0
      mapOutFrom memory left (add32 index PAGE_SIZE) e (freed ++ [frameOf (entryAt memory d index)])
    else mapOutFrom memory left (add32 index PAGE_SIZE) d freed

def pageMapOut (memory : ℕ → ℕ) (d : PageDirectory) (start : ℕ) (pages : ℤ) :
    Outcome (PageDirectory × List ℕ) :=
  mapOutFrom memory pages.toNat start d []

/-- The state of `delete_page_directory`, with the addresses it has used as a page table and
what it has passed to `memory_free`. -/
structure Teardown where
  map : PageDirectory
  memory : ℕ → ℕ
  used : List ℕ
  freed : List ℕ

/-- `table[ page_entry_of(position) ] = 0` -/
def Teardown.clear (s : Teardown) (position : ℕ) : Teardown :=
  match s.map.pde (pageTableOf position) with
  | .table t => { s with
      map := s.map.setPde (pageTableOf position)
        (.table { t with entry := Function.update t.entry (pageEntryOf position) 0 }) }
  | _ => { s with
      memory := Function.update s.memory (pageTable s.map position + 4 * pageEntryOf position) 0 }

def Teardown.free (s : Teardown) (frame : ℕ) : Teardown := { s with freed := s.freed ++ [frame] }

/-- A round of the loop over page entries. -/
def Teardown.dropPage (s : Teardown) (position : ℕ) : Teardown :=
  if pageTablePresent s.map position then
    let s := { s with used := s.used ++ [pageTable s.map position] }
    if pageEntryPresent s.memory s.map position then
      (s.clear position).free (frameOf (entryAt s.memory s.map position))
    else s
  else s

/-- A round of the loop over page tables. -/
def Teardown.dropTable (s : Teardown) (position : ℕ) : Teardown :=
  if pageTablePresent s.map position then
    { s with map := s.map.setPde (pageTableOf position) .absent }.free (pageTable s.map position)
  else s

/-- The indices of both loops. -/
def userEntries : List ℕ := List.range' 512 504

def dropPages : List ℕ → Teardown → Teardown
  | [], s => s
  | i :: l, s => dropPages l (s.dropPage (i * PAGE_SIZE))

def dropTables : List ℕ → Teardown → Teardown
  | [], s => s
  | i :: l, s => dropTables l (s.dropTable (i * PAGE_SIZE))

def deletePageDirectory (cr3 : ℕ) (memory : ℕ → ℕ) (map : PageDirectory) : Outcome Teardown := do
  assert (cr3 ≠ map.frame)
  let s := dropPages userEntries ⟨map, memory, [], []⟩
  let s := dropTables userEntries s
  .ok (s.free map.frame)

theorem mem_userEntries {i : ℕ} : i ∈ userEntries ↔ 512 ≤ i ∧ i < 1016 := List.mem_range'_1

theorem userEntries_cons : userEntries = 512 :: List.range' 513 503 :=
  List.range'_succ

/-- Every position lies under the directory entry 0, in which the kernel keeps its large page. -/
theorem pageTableOf_position {i : ℕ} (hi : i ∈ userEntries) : pageTableOf (i * PAGE_SIZE) = 0 := by
  obtain ⟨h₀, h⟩ := mem_userEntries.mp hi
  rw [pageTableOf_page (by omega)]
  omega

theorem pageEntryOf_position {i : ℕ} (hi : i ∈ userEntries) : pageEntryOf (i * PAGE_SIZE) = i := by
  obtain ⟨h₀, h⟩ := mem_userEntries.mp hi
  rw [pageEntryOf_page]
  omega

/-- The frames that words of low memory give when they are taken for page entries. -/
def lowFrames (memory : ℕ → ℕ) (l : List ℕ) : List ℕ :=
  (l.filter fun i => present (memory (4 * i))).map fun i => frameOf (memory (4 * i))

theorem lowFrames_congr {m m' : ℕ → ℕ} {l : List ℕ} (h : ∀ i ∈ l, m' (4 * i) = m (4 * i)) :
    lowFrames m' l = lowFrames m l := by
  induction l with
  | nil => simp only [lowFrames, List.filter_nil, List.map_nil]
  | cons i l ih =>
    have hi := h i List.mem_cons_self
    have hl := ih fun j hj => h j (List.mem_cons_of_mem i hj)
    simp only [lowFrames, List.filter_cons, hi] at hl ⊢
    split_ifs <;> simp [hi, hl]

theorem dropPage_eq {s : Teardown} {i : ℕ} (hl : s.map.pde 0 = .large) (hi : i ∈ userEntries) :
    (s.dropPage (i * PAGE_SIZE)).map = s.map ∧
      (s.dropPage (i * PAGE_SIZE)).used = s.used ++ [0] ∧
      (s.dropPage (i * PAGE_SIZE)).freed = s.freed ++ lowFrames s.memory [i] ∧
      ∀ j, j ≠ i → (s.dropPage (i * PAGE_SIZE)).memory (4 * j) = s.memory (4 * j) := by
  have hentry : pageEntryPresent s.memory s.map (i * PAGE_SIZE) = present (s.memory (4 * i)) := by
    simp [pageEntryPresent, pageTableOf_position hi, pageEntryOf_position hi, hl]
  by_cases hp : present (s.memory (4 * i)) = true
  · simp [Teardown.dropPage, Teardown.clear, Teardown.free, pageTablePresent, pageTable, entryAt,
      lowFrames, pageTableOf_position hi, pageEntryOf_position hi, hl, hentry, hp]
    intro j hj
    rw [Function.update_of_ne (by omega)]
  · simp [Teardown.dropPage, pageTablePresent, pageTable, lowFrames, pageTableOf_position hi, hl,
      hentry, hp]

theorem dropPages_eq {l : List ℕ} (hl : l ⊆ userEntries) (hn : l.Nodup) {s : Teardown}
    (hs : s.map.pde 0 = .large) :
    (dropPages l s).map = s.map ∧ (dropPages l s).used = s.used ++ List.replicate l.length 0 ∧
      (dropPages l s).freed = s.freed ++ lowFrames s.memory l := by
  induction l generalizing s with
  | nil => simp [dropPages, lowFrames]
  | cons i l ih =>
    obtain ⟨hi, hl⟩ := List.cons_subset.mp hl
    obtain ⟨hni, hn⟩ := List.nodup_cons.mp hn
    obtain ⟨hmap, hused, hfreed, hmem⟩ := dropPage_eq hs hi
    obtain ⟨hmap', hused', hfreed'⟩ := ih hl hn (s := s.dropPage (i * PAGE_SIZE)) (by rw [hmap, hs])
    have hlow : lowFrames (s.dropPage (i * PAGE_SIZE)).memory l = lowFrames s.memory l :=
      lowFrames_congr fun j hj => hmem j fun he => hni (he ▸ hj)
    have hcons : lowFrames s.memory (i :: l) = lowFrames s.memory [i] ++ lowFrames s.memory l := by
      simp only [lowFrames, ← List.map_append, ← List.filter_append, List.singleton_append]
    refine ⟨hmap'.trans hmap, ?_, ?_⟩
    · rw [dropPages, hused', hused, List.append_assoc, List.length_cons, List.replicate_succ,
        List.singleton_append]
    · rw [dropPages, hfreed', hfreed, hlow, hcons, List.append_assoc]

/-- Once the entry 0 is gone the other rounds find nothing. -/
theorem dropTables_absent {l : List ℕ} (hl : l ⊆ userEntries) {s : Teardown}
    (hs : s.map.pde 0 = .absent) : dropTables l s = s := by
  induction l with
  | nil => rfl
  | cons i l ih =>
    obtain ⟨hi, hl⟩ := List.cons_subset.mp hl
    have hround : s.dropTable (i * PAGE_SIZE) = s := by
      simp [Teardown.dropTable, pageTablePresent, pageTableOf_position hi, hs]
    rw [dropTables, hround, ih hl]

theorem dropTables_large {i : ℕ} {l : List ℕ} (hl : i :: l ⊆ userEntries) {s : Teardown}
    (hs : s.map.pde 0 = .large) :
    dropTables (i :: l) s = { s with map := s.map.setPde 0 .absent, freed := s.freed ++ [0] } := by
  obtain ⟨hi, hl⟩ := List.cons_subset.mp hl
  have hround : s.dropTable (i * PAGE_SIZE) =
      { s with map := s.map.setPde 0 .absent, freed := s.freed ++ [0] } := by
    simp [Teardown.dropTable, Teardown.free, pageTablePresent, pageTable, pageTableOf_position hi,
      hs]
  rw [dropTables, hround, dropTables_absent hl (by simp [PageDirectory.setPde])]

/-- What the teardown does in fact: it takes physical page 0 for a table, frees what the words
there point to, that page and the directory, and takes the kernel's first large page out. -/
theorem deletePageDirectory_eq {cr3 : ℕ} {memory : ℕ → ℕ} {d : PageDirectory} {s : Teardown}
    (hd : d.pde 0 = .large) (h : deletePageDirectory cr3 memory d = .ok s) :
    cr3 ≠ d.frame ∧ s.map = d.setPde 0 .absent ∧ s.used = List.replicate 504 0 ∧
      s.freed = lowFrames memory userEntries ++ [0, d.frame] := by
  obtain ⟨u, hcr3, h⟩ := bind_eq_ok.mp h
  obtain rfl := Except.ok.inj h
  obtain ⟨hmap, hused, hfreed⟩ := dropPages_eq (l := userEntries) (List.Subset.refl _)
    List.nodup_range' (s := ⟨d, memory, [], []⟩) hd
  have htables := dropTables_large (userEntries_cons ▸ List.Subset.refl userEntries)
    (s := dropPages userEntries ⟨d, memory, [], []⟩) (by rw [hmap, hd])
  rw [← userEntries_cons] at htables
  rw [htables]
  refine ⟨assert_eq_ok.mp hcr3, ?_, ?_, ?_⟩
  · simp [Teardown.free, hmap]
  · have hlength : userEntries.length = 504 := List.length_range'
    simp only [Teardown.free, hused, List.nil_append, hlength]
  · simp [Teardown.free, hfreed]

/-- The kernel's first large page is in place, and no table is at `NULL`. -/
structure Rooted (d : PageDirectory) : Prop where
  low : d.pde 0 = .large
  table : ∀ i t, d.pde i = .table t → t.frame ≠ 0

theorem Rooted.new (frame : ℕ) : Rooted (newPageDirectory frame) := by
  refine ⟨rfl, fun i t ht => ?_⟩
  simp only [newPageDirectory] at ht
  split_ifs at ht

theorem Rooted.setPde {d : PageDirectory} (hd : Rooted d) {i : ℕ} {t : PageTable}
    (hi : d.pde i ≠ .large) (ht : t.frame ≠ 0) : Rooted (d.setPde i (.table t)) := by
  refine ⟨?_, fun j u hu => ?_⟩
  · have hne : 0 ≠ i := fun h => hi (by rw [← h, hd.low])
    simp only [PageDirectory.setPde]
    rw [Function.update_of_ne hne, hd.low]
  · simp only [PageDirectory.setPde] at hu
    by_cases hj : j = i
    · subst hj
      rw [Function.update_self] at hu
      cases hu
      exact ht
    · rw [Function.update_of_ne hj] at hu
      exact hd.table j u hu

theorem Rooted.setEntry {d e : PageDirectory} (hd : Rooted d) {address word : ℕ}
    (h : d.setEntry address word = .ok e) : Rooted e := by
  rw [PageDirectory.setEntry] at h
  cases ht : d.pde (pageTableOf address) with
  | absent => rw [ht] at h; cases h
  | large => rw [ht] at h; cases h
  | table t =>
    rw [ht] at h
    cases h
    exact hd.setPde (by rw [ht]; exact Pde.noConfusion) (hd.table _ t ht)

/-- `memory_alloc` answers no address that is `NULL`. -/
def Answered (tables : ℕ → Option ℕ) : Prop := ∀ i frame, tables i = some frame → frame ≠ 0

theorem Rooted.ensureTable {d e : PageDirectory} (hd : Rooted d) {tables : ℕ → Option ℕ}
    (ha : Answered tables) {flags address : ℕ} (h : ensureTable tables flags d address = .ok e) :
    Rooted e := by
  rw [Paging.ensureTable, pageTablePresent] at h
  cases ht : d.pde (pageTableOf address) with
  | large => rw [ht] at h; cases h; exact hd
  | table t => rw [ht] at h; cases h; exact hd
  | absent =>
    rw [ht, if_neg (by simp)] at h
    obtain ⟨frame, hframe, h⟩ := bind_eq_ok.mp h
    cases h
    exact hd.setPde (by rw [ht]; exact Pde.noConfusion) (ha _ _ (deref_eq_ok.mp hframe))

theorem Rooted.directMapFrom {tables : ℕ → Option ℕ} (ha : Answered tables) {flags n : ℕ}
    {phys index : ℕ} {d e : PageDirectory} (hd : Rooted d)
    (h : directMapFrom tables flags n phys index d = .ok e) : Rooted e := by
  induction n generalizing phys index d with
  | zero => cases h; exact hd
  | succ n ih =>
    obtain ⟨d₁, h₁, h⟩ := bind_eq_ok.mp h
    obtain ⟨d₂, h₂, h⟩ := bind_eq_ok.mp h
    exact ih ((hd.ensureTable ha h₁).setEntry h₂) h

theorem Rooted.releaseFrom {memory : ℕ → ℕ} {n index : ℕ} {d e : PageDirectory} (hd : Rooted d)
    (h : releaseFrom memory n index d = .ok e) : Rooted e := by
  induction n generalizing index d with
  | zero => cases h; exact hd
  | succ n ih =>
    obtain ⟨d₁, h₁, h⟩ := bind_eq_ok.mp h
    rw [clearEntry] at h₁
    split_ifs at h₁
    · exact ih (hd.setEntry h₁) h
    · cases h₁
      exact ih hd h

theorem Rooted.ensureFrom {memory : ℕ → ℕ} {tables : ℕ → Option ℕ} (ha : Answered tables)
    {frames : ℕ → ℕ} {flags n index : ℕ} {d e : PageDirectory} {count found : ℕ} (hd : Rooted d)
    (h : ensureFrom memory tables frames flags n index d count = .ok (e, found)) : Rooted e := by
  induction n generalizing index d count with
  | zero => cases h; exact hd
  | succ n ih =>
    obtain ⟨⟨d₁, one⟩, h₁, h⟩ := bind_eq_ok.mp h
    obtain ⟨d₂, h₂, h₁⟩ := bind_eq_ok.mp h₁
    have hd₂ := hd.ensureTable ha h₂
    split_ifs at h₁
    · cases h₁
      exact ih hd₂ h
    · obtain ⟨d₃, h₃, h₁⟩ := bind_eq_ok.mp h₁
      cases h₁
      exact ih (hd₂.setEntry h₃) h

theorem Rooted.mapOutFrom {memory : ℕ → ℕ} {n index : ℕ} {d e : PageDirectory}
    {freed freed' : List ℕ} (hd : Rooted d)
    (h : mapOutFrom memory n index d freed = .ok (e, freed')) : Rooted e := by
  induction n generalizing index d freed with
  | zero => cases h; exact hd
  | succ n ih =>
    rw [Paging.mapOutFrom] at h
    split_ifs at h
    · obtain ⟨d₁, h₁, h⟩ := bind_eq_ok.mp h
      exact ih (hd.setEntry h₁) h
    · exact ih hd h

/-- A call that changes a directory, with what `memory_alloc` answers and the words of physical
memory outside the tables. -/
inductive DirectoryCall
  | ensure (memory : ℕ → ℕ) (tables : ℕ → Option ℕ) (frames : ℕ → ℕ) (start pages flags : ℕ)
  | directMap (tables : ℕ → Option ℕ) (physical start : ℕ) (pages : ℤ) (type : ℕ)
  | provide (memory : ℕ → ℕ) (tables : ℕ → Option ℕ) (physical start finish pages type : ℕ)
  | release (memory : ℕ → ℕ) (start : ℕ) (pages : ℤ)
  | mapOut (memory : ℕ → ℕ) (start : ℕ) (pages : ℤ)

def DirectoryCall.Guard : DirectoryCall → Prop
  | .ensure _ tables _ _ _ _ => Answered tables
  | .directMap tables _ _ _ _ => Answered tables
  | .provide _ tables _ _ _ _ _ => Answered tables
  | .release _ _ _ => True
  | .mapOut _ _ _ => True

def DirectoryCall.step (d : PageDirectory) : DirectoryCall → Outcome PageDirectory
  | .ensure memory tables frames start pages flags => do
    let (d, _) ← pageEnsure memory tables frames d start pages flags
    .ok d
  | .directMap tables physical start pages type => pageDirectMap tables d physical start pages type
  | .provide memory tables physical start finish pages type => do
    let (d, _) ← pageProvide memory tables d physical start finish pages type
    .ok d
  | .release memory start pages => pageRelease memory d start pages
  | .mapOut memory start pages => do
    let (d, _) ← pageMapOut memory d start pages
    .ok d

/-- The life of a page directory, from `new_page_directory` on. -/
def directorySystem : Lib.System PageDirectory DirectoryCall Fault where
  Init d := ∃ frame, d = newPageDirectory frame
  Guard _ c := c.Guard
  step := DirectoryCall.step

theorem Rooted.step {d e : PageDirectory} (hd : Rooted d) {c : DirectoryCall} (hc : c.Guard)
    (h : c.step d = .ok e) : Rooted e := by
  cases c with
  | ensure memory tables frames start pages flags =>
    obtain ⟨⟨d₁, n⟩, h₁, h⟩ := bind_eq_ok.mp h
    obtain ⟨⟨d₂, m⟩, h₂, h₁⟩ := bind_eq_ok.mp h₁
    cases h₁
    cases h
    exact hd.ensureFrom hc h₂
  | directMap tables physical start pages type => exact hd.directMapFrom hc h
  | provide memory tables physical start finish pages type =>
    obtain ⟨⟨d₁, n⟩, h₁, h⟩ := bind_eq_ok.mp h
    cases h
    obtain ⟨location, -, h₁⟩ := bind_eq_ok.mp h₁
    split_ifs at h₁
    · cases h₁
      exact hd
    · obtain ⟨d₂, h₂, h₁⟩ := bind_eq_ok.mp h₁
      cases h₁
      exact hd.directMapFrom hc h₂
  | release memory start pages => exact hd.releaseFrom h
  | mapOut memory start pages =>
    obtain ⟨⟨d₁, n⟩, h₁, h⟩ := bind_eq_ok.mp h
    cases h
    exact hd.mapOutFrom h₁

theorem rooted_of_reach {d : PageDirectory} (h : directorySystem.Reach d) : Rooted d := by
  obtain ⟨d₀, cs, ⟨frame, rfl⟩, hr⟩ := h
  exact hr.invariant (fun d c e hd hc he => hd.step hc he) (.new frame)

/-- The table `t` hangs from an entry of the user. -/
def UserTable (d : PageDirectory) (t : PageTable) : Prop :=
  ∃ i, 512 ≤ i ∧ i < 1016 ∧ d.pde i = .table t

/-- What an exact teardown of `d` does, however its pages are mapped. -/
structure TornDown (d : PageDirectory) (s : Teardown) : Prop where
  tables : ∀ t, UserTable d t → s.freed.count t.frame = 1
  directory : s.freed.count d.frame = 1
  only : ∀ frame ∈ s.freed, frame = d.frame ∨ ∃ t, UserTable d t ∧
    (frame = t.frame ∨ ∃ j < 1024, present (t.entry j) = true ∧ frame = frameOf (t.entry j))
  used : ∀ base ∈ s.used, ∃ t, UserTable d t ∧ base = t.frame

/-- The directory with one page of the user mapped in. -/
def onePage : PageDirectory :=
  ((newPageDirectory 0x100000).setPde 512 (.table ⟨0x101000, 6, fun _ => 0⟩)).setPde 512
    (.table ⟨0x101000, 6, Function.update (fun _ => 0) 0 (entryWord 0x102000 6)⟩)

theorem onePage_step :
    directorySystem.step (newPageDirectory 0x100000)
      (.ensure (fun _ => 0) (fun _ => some 0x101000) (fun _ => 0x102000) 0x80000000 1 6) =
        .ok onePage := rfl

theorem onePage_reach : directorySystem.Reach onePage := by
  have hnew : directorySystem.Reach (newPageDirectory 0x100000) := .of_init ⟨0x100000, rfl⟩
  refine hnew.step ?_ onePage_step
  intro i frame h
  cases h
  decide

/-- The teardown is exact in no run: it always reads physical page 0 as a page table. -/
theorem teardown_never_exact {d : PageDirectory} (h : directorySystem.Reach d) (cr3 : ℕ)
    (memory : ℕ → ℕ) : ¬∃ s, deletePageDirectory cr3 memory d = .ok s ∧ TornDown d s := by
  rintro ⟨s, hs, hexact⟩
  have hd := rooted_of_reach h
  obtain ⟨-, -, hused, -⟩ := deletePageDirectory_eq hd.low hs
  have hmem : 0 ∈ s.used := by
    rw [hused]
    exact List.mem_replicate.mpr ⟨by decide, rfl⟩
  obtain ⟨t, ⟨i, -, -, ht⟩, hzero⟩ := hexact.used 0 hmem
  exact hd.table i t ht hzero.symm

theorem teardown_never_exact_onePage :
    ¬∃ s, deletePageDirectory 0 (fun _ => 0) onePage = .ok s ∧ TornDown onePage s :=
  teardown_never_exact onePage_reach 0 fun _ => 0

/-- One page is mapped in and the directory destroyed: the table is lost, the page is lost, and
physical page 0 is freed. -/
theorem onePage_not_torn_down : ∃ s, directorySystem.Reach onePage ∧
    deletePageDirectory 0 (fun _ => 0) onePage = .ok s ∧ s.freed = [0, 0x100000] ∧
      UserTable onePage ⟨0x101000, 6, Function.update (fun _ => 0) 0 (entryWord 0x102000 6)⟩ ∧
      ¬TornDown onePage s := by
  obtain ⟨s, hs⟩ : ∃ s, deletePageDirectory 0 (fun _ => 0) onePage = .ok s := by
    rw [deletePageDirectory, assert_of (by decide)]
    exact ⟨_, rfl⟩
  obtain ⟨-, -, -, hfreed⟩ := deletePageDirectory_eq rfl hs
  have hlow : lowFrames (fun _ => 0) userEntries = [] := by simp [lowFrames, present]
  rw [hlow, List.nil_append] at hfreed
  refine ⟨s, onePage_reach, hs, hfreed, ⟨512, by decide, by decide, rfl⟩, fun h => ?_⟩
  have hcount := h.tables _ ⟨512, by decide, by decide, rfl⟩
  rw [hfreed] at hcount
  exact absurd hcount (by decide)

end Racoon.Paging
