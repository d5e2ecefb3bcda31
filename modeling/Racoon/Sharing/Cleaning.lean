import Racoon.Ds.ProbeFaults
import Racoon.Sharing.LockedCalls
import Racoon.Sharing.Usage

/-!
# Cleaning up after a process

`shmem_clean` enumerates `shmem_table` by ordinal numbers and deletes from it on
the way. A deletion may make the table smaller, which moves its pointers, so the
enumeration starts again after each one. The regions that are to go get fewer
with every start, and a region that stays is passed, so that the loop ends, with
none left that should be gone.

A pointer to a region is given as the id of the region, which no two regions
share. The key of the table is 100 times the id in an `int`; a probe that leaves
its range stops the kernel, and that is all that can go wrong.
-/

namespace Racoon.Sharing.Cleaning
open Lib Paging
open HashTables (HashTable Stores Unfit shmemKey IsInt initHtable htableGet htableRemove
  htableRetrieve removeAll)
open Locked (Lock getAccess release)

def SHMEM_ORPHAN : ℕ := 32

def shmemCmp (a b : ℤ) : ℤ := if a = b then 0 else if a < b then -1 else 1

/-- `shmem_table` as `shmem_init` makes it. -/
def shmemInit : HashTable ℤ := initHtable 64 80 shmemKey shmemCmp

structure State where
  kernel : Kernel
  shmemTable : HashTables.Counted ℤ
  /-- The locks that the thread holds. -/
  held : List Lock

/-- The answers of `kmalloc` to the requests of the table, and of `memory_alloc`, for each region
that is deleted, for the scratch pads and for the page tables of each process. -/
structure Memory where
  kmalloc : ℕ → ℕ → Bool
  scratch : ℤ → ℤ → Option ℕ
  tables : ℤ → ℤ → ℕ → Option ℕ

/-- What `shmem_delete` does once the region is out of the table. -/
def destroyRegion (k : Kernel) (sh : Shmem) (scratch : ℤ → Option ℕ) (tables : ℤ → ℕ → Option ℕ) :
    Outcome Kernel := do
  let (k, usage) ← checkoutFrom scratch walkBound sh.list k 0
  let k ← detachUsers tables sh k usage
  let k ← discardFrom walkBound sh.list k
  if sh.internal ≠ 0 then
    .ok { k with freed := (sh.physicalPages, sh.physicalLocation) :: k.freed }
  else .ok k

def shmemDelete (m : Memory) (s : State) (owner id : ℤ) : Outcome (State × ℤ) := do
  let held ← getAccess s.held .shmemLock
  match ← htableRetrieve s.shmemTable.table id with
  | none => do
    let held ← release held .shmemLock
    .ok ({ s with held := held }, -1)
  | some p => do
    let sh ← deref (s.kernel.table p)
    if owner ≠ sh.pid then do
      let held ← release held .shmemLock
      .ok ({ s with held := held }, -1)
    else do
      let (table, rc) ← htableRemove m.kmalloc s.shmemTable p
      assert (rc = 0)
      let held ← release held .shmemLock
      let kernel ← destroyRegion (s.kernel.setRegion p none) sh (m.scratch p) (m.tables p)
      .ok (⟨kernel, table, held⟩, 0)

/-- The loop of `shmem_clean`, with its index. -/
def cleanFrom (m : Memory) (pid : ℤ) : ℕ → ℤ → State → Outcome (State × ℤ)
  | 0, _, _ => .error .diverges
  | left + 1, i, s =>
    match htableGet s.shmemTable.table i with
    | none => do
      let held ← release s.held .shmemLock
      .ok ({ s with held := held }, 0)
    | some p => do
      let sh ← deref (s.kernel.table p)
      if sh.pid ≠ pid then cleanFrom m pid left (i + 1) s
      else if sh.flags &&& SHMEM_IMMORTAL = SHMEM_IMMORTAL then do
        let held ← getAccess s.held (.region p)
        let sh := { sh with flags := sh.flags ||| SHMEM_ORPHAN }
        let held ← release held (.region p)
        cleanFrom m pid left (i + 1) ⟨s.kernel.setRegion p (some sh), s.shmemTable, held⟩
      else do
        let held ← release s.held .shmemLock
        let (s, rc) ← shmemDelete m { s with held := held } pid sh.id
        if rc ≠ 0 then .ok (s, -1)
        else do
          let held ← getAccess s.held .shmemLock
          cleanFrom m pid left 0 { s with held := held }

/-- Each pass over the table ends with a region less, or it is the last one. -/
def shmemClean (m : Memory) (s : State) (pid : ℤ) : Outcome (State × ℤ) := do
  let held ← getAccess s.held .shmemLock
  let rounds := (s.shmemTable.table.total + 1) * (s.shmemTable.table.total + 1)
  cleanFrom m pid rounds 0 { s with held := held }

/-- The pointers in the table, in the order of the slots. -/
def ids (c : HashTables.Counted ℤ) : List ℤ := Slots.items c.table.table c.table.size

/-- The table has a pointer to each region, and none to anything else. -/
structure Indexed (M : ℕ) (k : Kernel) (c : HashTables.Counted ℤ) : Prop where
  stores : Stores M shmemInit c.table (ids c)
  nodup : (ids c).Nodup
  mem : ∀ id, id ∈ ids c ↔ k.table id ≠ none
  named : ∀ id sh, k.table id = some sh → sh.id = id

/-- What is left of a region when the process is cleaned up after. -/
def cleaned (pid : ℤ) (sh : Shmem) : Option Shmem :=
  if sh.pid ≠ pid then some sh
  else if sh.flags &&& SHMEM_IMMORTAL = SHMEM_IMMORTAL then
    some { sh with flags := sh.flags ||| SHMEM_ORPHAN }
  else none

/-- Where the region of an entry in use is mapped, the process has its tables. -/
def Backed (r : Registry) : Prop :=
  ∀ id pid sh e d, r.region id = some sh → r.entry id pid = some e → 0 < e.usage →
    r.maps pid = some d → ∀ i < asSize sh.physicalPages, HasTable d (e.location + i * PAGE_SIZE)

/-- Each region of `k₀` is what should be left of it, with its entries, the table has a pointer to
those that are left, and no lock is held. -/
structure CleanedUp (k₀ : Kernel) (chain₀ : ℤ → List ℕ) (pid : ℤ) (s : State)
    (chain : ℤ → List ℕ) : Prop where
  held : s.held = []
  listed : Listed s.kernel chain
  regions : ∀ id, s.kernel.table id = (k₀.table id).bind (cleaned pid)
  pointers : ∀ id, id ∈ ids s.shmemTable ↔ s.kernel.table id ≠ none
  entries : ∀ id, s.kernel.table id ≠ none →
    (registry s.kernel chain).entry id = (registry k₀ chain₀).entry id

def Ends (k₀ : Kernel) (chain₀ : ℤ → List ℕ) (pid : ℤ) (x : Outcome (State × ℤ)) : Prop :=
  ∃ s chain, x = .ok (s, 0) ∧ CleanedUp k₀ chain₀ pid s chain

/-- `shmem_clean` ends, answers 0 and leaves what it should. -/
def Cleans (m : Memory) (s : State) (chain : ℤ → List ℕ) (pid : ℤ) : Prop :=
  Ends s.kernel chain pid (shmemClean m s pid)

/-- The regions of the process that are to be deleted. -/
def doomed (k : Kernel) (pid id : ℤ) : Bool := (k.table id).any fun sh => (cleaned pid sh).isNone

section Deletion
variable {k k' : Kernel} {chain : ℤ → List ℕ} {id : ℤ} {sh : Shmem} {scratch : ℤ → Option ℕ}
  {tables : ℤ → ℕ → Option ℕ} {l : List ℕ}

/-- It is what the kernel's `shmem_delete` does with the region. -/
theorem shmemDelete_of_destroyRegion (ht : k.table id = some sh)
    (he : destroyRegion (k.setRegion id none) sh scratch tables = .ok k') :
    Sharing.shmemDelete k scratch tables sh.pid id = .ok (k', 0) := by
  obtain ⟨⟨k₁, usage⟩, h₁, he⟩ := bind_eq_ok.mp he
  obtain ⟨k₂, h₂, he⟩ := bind_eq_ok.mp he
  obtain ⟨k₃, h₃, he⟩ := bind_eq_ok.mp he
  unfold Sharing.shmemDelete
  rw [ht]
  dsimp only
  rw [if_neg (not_not.mpr rfl), h₁, ok_bind]
  dsimp only
  rw [h₂, ok_bind, h₃, ok_bind]
  split_ifs at he ⊢ with hint
  · cases he
    rfl
  · cases he
    rfl

/-- An entry that is checked out has a directory with the tables. -/
def Paddable (maps : ℤ → Option PageDirectory) (sh : Shmem) (v : ShmemInfo) : Prop :=
  ∀ pid data, v.tmp = some pid → v.tmp2 = some data → ∃ d, maps pid = some d ∧
    ∀ i < asSize sh.physicalPages, HasTable d (v.virtualLocation + i * PAGE_SIZE)

theorem Paddable.detach {v w : ShmemInfo} (hw : Paddable k.maps sh w)
    (he : detachInfo tables sh k v = .ok k') : Paddable k'.maps sh w := by
  unfold detachInfo at he
  split at he
  · obtain ⟨d, hd, he⟩ := bind_eq_ok.mp he
    obtain ⟨d', hmap, he⟩ := bind_eq_ok.mp he
    cases he
    intro pid data htmp htmp₂
    obtain ⟨d₀, hd₀, htables⟩ := hw pid data htmp htmp₂
    simp only [Kernel.setMap, Function.update_apply]
    split_ifs with hpid
    · subst hpid
      rw [deref_eq_ok.mp hd] at hd₀
      cases hd₀
      exact ⟨d', rfl, fun i hi => directMapFrom_table hmap (htables i hi)⟩
    · exact ⟨d₀, hd₀, htables⟩
  · cases he
    exact hw

theorem detachInfo_total {v : ShmemInfo} (hv : Paddable k.maps sh v) :
    ∃ k', detachInfo tables sh k v = .ok k' := by
  unfold detachInfo
  cases htmp : v.tmp with
  | none => exact ⟨k, rfl⟩
  | some pid =>
    cases htmp₂ : v.tmp2 with
    | none => exact ⟨k, rfl⟩
    | some data =>
      obtain ⟨d, hd, htables⟩ := hv pid data htmp htmp₂
      obtain ⟨d', hmap⟩ := directMapFrom_total (tables pid) (convertPagingTypes (mapType v.flags))
        data htables
      have hmap : pageDirectMap (tables pid) d data v.virtualLocation sh.physicalPages
        (mapType v.flags) = .ok d' := hmap
      dsimp only
      rw [hd, deref_some, ok_bind, hmap]
      exact ⟨_, rfl⟩

theorem detachInfo_infos {v : ShmemInfo} (he : detachInfo tables sh k v = .ok k') :
    k'.infos = k.infos := by
  unfold detachInfo at he
  split at he
  · obtain ⟨d, -, he⟩ := bind_eq_ok.mp he
    obtain ⟨d', -, he⟩ := bind_eq_ok.mp he
    cases he
    rfl
  · cases he
    rfl

theorem detachFrom_total {left : ℕ} (hlen : l.length ≤ left) (hp : Path k.infos l)
    (hpad : ∀ p ∈ l, ∀ v, k.infos p = some v → Paddable k.maps sh v) :
    ∃ k', detachFrom tables sh left l.head? k = .ok k' ∧ k'.infos = k.infos := by
  induction l generalizing left k with
  | nil => cases left <;> exact ⟨k, rfl, rfl⟩
  | cons p rest ih =>
    obtain ⟨left, rfl⟩ : ∃ n, left = n + 1 := ⟨left - 1, by simp at hlen; omega⟩
    obtain ⟨⟨v, hv, hnext⟩, hrest⟩ := hp
    obtain ⟨k₁, h₁⟩ : ∃ k₁, detachInfo tables sh k v = .ok k₁ :=
      detachInfo_total (hpad p List.mem_cons_self v hv)
    have hinfos := detachInfo_infos h₁
    obtain ⟨k', h', hinfos'⟩ := ih (k := k₁) (by simpa using hlen) (hinfos ▸ hrest) fun q hq w hw =>
      (hpad q (List.mem_cons_of_mem p hq) w (hinfos ▸ hw)).detach h₁
    refine ⟨k', ?_, hinfos'.trans hinfos⟩
    rw [List.head?_cons, detachFrom, load_some hv, ok_bind, h₁, ok_bind, hnext, h']

theorem Paddable.checked {v : ShmemInfo} (scratch : ℤ → Option ℕ) (hidle : v.tmp = none)
    (hv : 0 < v.usage → ∀ d, k.maps v.pid = some d →
      ∀ i < asSize sh.physicalPages, HasTable d (v.virtualLocation + i * PAGE_SIZE)) :
    Paddable k.maps sh (checked k.maps scratch v) := by
  unfold Sharing.checked
  split_ifs with husage
  · cases hmap : k.maps v.pid with
    | none =>
      intro pid data htmp
      cases htmp
    | some d =>
      intro pid data htmp _
      cases htmp
      exact ⟨d, hmap, hv husage d hmap⟩
  · intro pid data htmp
    rw [hidle] at htmp
    cases htmp

theorem detachUsers_total {usage : ℤ} (hc : l.length ≤ walkBound) (hl : sh.list = l.head?)
    (hp : Path k.infos l)
    (hpad : ∀ p ∈ l, ∀ v, k.infos p = some v → Paddable k.maps sh v) :
    ∃ k', detachUsers tables sh k usage = .ok k' ∧ k'.infos = k.infos := by
  unfold detachUsers
  split_ifs
  · rw [hl]
    exact detachFrom_total hc hp hpad
  · exact ⟨k, rfl, rfl⟩

theorem destroyRegion_total (h : Listed k chain) (hb : Backed (registry k chain))
    (ht : k.table id = some sh) :
    ∃ k', destroyRegion (k.setRegion id none) sh scratch tables = .ok k' := by
  have hc := h.ordered id
  have hl := h.head id sh ht
  obtain ⟨infos, n, -, hcheckout, -, hinfos⟩ := checkoutFrom_eq (k := k.setRegion id none) scratch
    hc.length_le hc.nodup hc.path 0
  have hpath : Path infos (chain id) := by
    apply hc.path.congr
    intro q hq
    rw [hinfos, if_pos hq, Option.map_map]
    exact congrArg (fun f => (k.infos q).map f) (funext fun v => checked_next _ _ v)
  have hpad : ∀ p ∈ chain id, ∀ w, infos p = some w → Paddable k.maps sh w := by
    intro p hp w hw
    rw [hinfos, if_pos hp, Option.map_eq_some_iff] at hw
    obtain ⟨v, hv, rfl⟩ := hw
    refine Paddable.checked scratch (hc.idle p hp v hv) fun husage d hd => ?_
    exact hb id v.pid sh.bare v.entry d (by rw [region_registry, ht, Option.map_some])
      (hc.entries_eq hp hv) husage hd
  obtain ⟨k₂, hdetach, hinfos₂⟩ : ∃ k₂, detachUsers tables sh
      { k.setRegion id none with infos := infos } (0 + n) = .ok k₂ ∧ k₂.infos = infos :=
    detachUsers_total hc.length_le hl hpath hpad
  obtain ⟨infos', hdiscard, -⟩ := discardFrom_eq (k := k₂) hc.length_le hc.nodup (hinfos₂ ▸ hpath)
  unfold destroyRegion
  rw [hl, hcheckout, ok_bind]
  dsimp only
  rw [hdetach, ok_bind, hdiscard, ok_bind]
  split_ifs
  · exact ⟨_, rfl⟩
  · exact ⟨_, rfl⟩

theorem step_delete {r r' : Registry} {owner : ℤ}
    (h : Step r (.delete scratch tables owner id) r' ⟨0, none⟩) :
    ∃ (sh : Shmem) (maps : ℤ → Option PageDirectory),
      r' = { r.setRegion id none with maps := maps } ∧
      ∀ pid, Detached (scratch pid) (tables pid) sh.physicalPages (r.entry id pid) (r.maps pid)
        (maps pid) := by
  generalize ha : (⟨0, none⟩ : Answer) = a at h
  cases h with
  | refuse =>
    have hrc := congrArg Answer.rc ha
    exact absurd hrc (by decide)
  | delete _ hdet => exact ⟨_, _, rfl, hdet⟩

/-- A scratch pad takes the place of mapped pages, whose tables stay. -/
theorem Backed.detach {r : Registry} {maps : ℤ → Option PageDirectory} {pages : ℤ} (hb : Backed r)
    (hdet : ∀ pid, Detached (scratch pid) (tables pid) pages (r.entry id pid) (r.maps pid)
      (maps pid)) : Backed { r.setRegion id none with maps := maps } := by
  intro i pid s e d hregion hentry husage hmap n hn
  have hi : i ≠ id := by
    rintro rfl
    rw [Registry.region_setRegion, if_pos rfl] at hregion
    cases hregion
  rw [Registry.region_setRegion, if_neg hi] at hregion
  rw [Registry.entry_setRegion, if_neg hi] at hentry
  have hmap : maps pid = some d := hmap
  rcases hdet pid with ⟨hsame, -⟩ | ⟨en, d₀, d', data, -, -, hd₀, hd', -, hdirect⟩
  · exact hb i pid s e d hregion hentry husage (hsame ▸ hmap) n hn
  · rw [hd'] at hmap
    cases hmap
    exact directMapFrom_table hdirect (hb i pid s e d₀ hregion hentry husage hd₀ n hn)

/-- With the region out of the table the deletion ends, and touches nothing of another region. -/
theorem destroyRegion_spec (h : Listed k chain) (hb : Backed (registry k chain))
    (ht : k.table id = some sh) (scratch : ℤ → Option ℕ) (tables : ℤ → ℕ → Option ℕ) :
    ∃ k' chain', destroyRegion (k.setRegion id none) sh scratch tables = .ok k' ∧
      Listed k' chain' ∧ Backed (registry k' chain') ∧
      k'.table = Function.update k.table id none ∧
      ∀ i ≠ id, (registry k' chain').entry i = (registry k chain).entry i := by
  obtain ⟨k', hrun⟩ : ∃ k', destroyRegion (k.setRegion id none) sh scratch tables = .ok k' :=
    destroyRegion_total h hb ht
  have hdelete := shmemDelete_of_destroyRegion ht hrun
  obtain ⟨infos, maps', -, htable, -, -⟩ := h.delete_eq ht hdelete
  obtain ⟨chain', hl, hstep⟩ := h.delete hdelete
  obtain ⟨s, maps, hr, hdet⟩ := step_delete hstep
  refine ⟨k', chain', hrun, hl, hr ▸ hb.detach hdet, by rw [htable]; rfl, fun i hi => ?_⟩
  rw [hr]
  exact Function.update_of_ne hi ..

theorem table_setRegion (k : Kernel) (id : ℤ) (o : Option Shmem) (i : ℤ) :
    (k.setRegion id o).table i = if i = id then o else k.table i :=
  Function.update_apply ..

/-- Only the flags of the region change. -/
theorem listed_setFlags (h : Listed k chain) (ht : k.table id = some sh) (flags : ℕ) :
    Listed (k.setRegion id (some { sh with flags := flags })) chain := by
  refine ⟨fun i s hi => ?_, fun i hi => ?_, h.ordered, h.apart, h.nextId⟩
  · rw [table_setRegion] at hi
    split_ifs at hi with hid
    · cases hi
      exact hid ▸ h.head id sh ht
    · exact h.head i s hi
  · rw [table_setRegion] at hi
    split_ifs at hi
    exact h.gone i hi

theorem Backed.setFlags (hb : Backed (registry k chain)) (ht : k.table id = some sh) (flags : ℕ) :
    Backed (registry (k.setRegion id (some { sh with flags := flags })) chain) := by
  intro i pid s e d hregion
  rw [region_registry, table_setRegion] at hregion
  split_ifs at hregion with hid
  · cases hregion
    exact hid ▸ hb id pid sh.bare e d (by rw [region_registry, ht, Option.map_some])
  · exact hb i pid s e d hregion

end Deletion

end Racoon.Sharing.Cleaning
