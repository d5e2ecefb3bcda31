import Racoon.Sharing.Grantees

/-!
# Regions and who may use them

The purpose of shared memory, without its lists: a registry says for each region
and process what the region grants to the process, and which directory each
process has. `Step` is what a call may do to it. The calls of the kernel do
nothing else, from any state whose lists are in order, and leave the lists in
order.
-/

namespace Racoon.Sharing
open Lib Paging Strings

structure Registry where
  region : ℤ → Option Shmem
  entry : ℤ → ℤ → Option Entry
  maps : ℤ → Option PageDirectory

namespace Registry

def setEntry (r : Registry) (id pid : ℤ) (e : Option Entry) : Registry :=
  { r with entry := Function.update r.entry id (Function.update (r.entry id) pid e) }

def setMap (r : Registry) (pid : ℤ) (m : Option PageDirectory) : Registry :=
  { r with maps := Function.update r.maps pid m }

/-- Region `id` as it is from now on, with no entries. -/
def setRegion (r : Registry) (id : ℤ) (sh : Option Shmem) : Registry :=
  { r with
    region := Function.update r.region id sh
    entry := Function.update r.entry id fun _ => none }

theorem entry_setEntry (r : Registry) (id pid : ℤ) (e : Option Entry) (i x : ℤ) :
    (r.setEntry id pid e).entry i x = if i = id ∧ x = pid then e else r.entry i x := by
  simp only [setEntry, Function.update_apply]
  by_cases hi : i = id
  · subst hi
    simp [Function.update_apply]
  · simp [hi]

theorem region_setRegion (r : Registry) (id : ℤ) (sh : Option Shmem) (i : ℤ) :
    (r.setRegion id sh).region i = if i = id then sh else r.region i :=
  Function.update_apply ..

theorem entry_setRegion (r : Registry) (id : ℤ) (sh : Option Shmem) (i : ℤ) :
    (r.setRegion id sh).entry i = if i = id then fun _ => none else r.entry i :=
  Function.update_apply ..

theorem maps_setMap (r : Registry) (pid : ℤ) (m : Option PageDirectory) (x : ℤ) :
    (r.setMap pid m).maps x = if x = pid then m else r.maps x :=
  Function.update_apply ..

@[simp] theorem setEntry_setEntry (r : Registry) (id pid : ℤ) (e e' : Option Entry) :
    (r.setEntry id pid e).setEntry id pid e' = r.setEntry id pid e' := by
  simp [setEntry]

@[simp] theorem setMap_setEntry (r : Registry) (id pid x : ℤ) (e : Option Entry)
    (m : Option PageDirectory) : (r.setEntry id pid e).setMap x m =
    (r.setMap x m).setEntry id pid e :=
  rfl

end Registry

def freshEntry (flags : ℕ) : Entry := ⟨0, -1, flags, 0⟩

def Promiscuous (sh : Shmem) : Prop := sh.flags &&& SHMEM_PROMISCUOUS = SHMEM_PROMISCUOUS

/-- The entry on which a request of the process acts. -/
def Entitled (r : Registry) (id pid : ℤ) (sh : Shmem) (e : Entry) : Prop :=
  r.entry id pid = some e ∨
    r.entry id pid = none ∧ Promiscuous sh ∧ e = freshEntry (sh.flags &&& SHMEM_MASK)

/-- What becomes of the directory of a process when a region of `pages` pages goes. -/
def Detached (scratch : Option ℕ) (tables : ℕ → Option ℕ) (pages : ℤ) (e : Option Entry)
    (m m' : Option PageDirectory) : Prop :=
  m' = m ∧ (∀ en data, e = some en → 0 < en.usage → m ≠ none → scratch ≠ some data) ∨
  ∃ en d d' data, e = some en ∧ 0 < en.usage ∧ m = some d ∧ m' = some d' ∧
    scratch = some data ∧
    pageDirectMap tables d data en.location pages (mapType en.flags) = .ok d'

/-- What a request does to an entry and to the directory of its process, for a region of `pages`
pages at `phys`. -/
inductive Served (memory : ℕ → ℕ) (tables : ℕ → Option ℕ) (phys : ℕ) (pages : ℤ) (e : Entry)
    (m : Option PageDirectory) : Entry → Option PageDirectory → Option Access → Prop
  | count : 0 ≤ e.pages → Served memory tables phys pages e m
      { e with usage := int32 (e.usage + 1) } m (some ⟨e.location, e.pages, e.flags⟩)
  | map {d d' : PageDirectory} {location : ℕ} : e.pages < 0 → m = some d →
      pageProvide memory tables d phys sK_BASE sK_CEILING (pages % 2 ^ 32).toNat
        (mapType e.flags) = .ok (d', location) → location ≠ 0 →
      Served memory tables phys pages e m ⟨location, pages, e.flags, int32 (e.usage + 1)⟩ (some d')
        (some ⟨location, pages, e.flags⟩)
  | noRoom {d d' : PageDirectory} : e.pages < 0 → m = some d →
      pageProvide memory tables d phys sK_BASE sK_CEILING (pages % 2 ^ 32).toNat
        (mapType e.flags) = .ok (d', 0) →
      Served memory tables phys pages e m { e with location := 0 } (some d') none

/-- What a call may do. -/
inductive Step (r : Registry) : ShmemCall → Registry → Answer → Prop
  | refuse (c : ShmemCall) : Step r c r ⟨-1, none⟩
  | create {location : ℕ} {kmalloc insert : Bool} {litter name : CString} {pid pages : ℤ}
      {flags : ℕ} {id : ℤ} : 0 < pages → 0 ≤ id → r.region id = none →
      Step r (.create (some location) kmalloc insert litter name pid pages flags)
        (if insert then r.setRegion id (some (newRegion litter name pid pages flags location 1 id))
          else r) ⟨id, none⟩
  | createDirect {kmalloc insert : Bool} {litter name : CString} {pid pages : ℤ}
      {flags location internal : ℕ} {id : ℤ} : 0 < pages → 0 ≤ id → r.region id = none →
      Step r (.createDirect kmalloc insert litter name pid pages flags location internal)
        (if insert then
          r.setRegion id (some (newRegion litter name pid pages flags location internal id))
          else r) ⟨id, none⟩
  | grant {kmalloc : Option ℕ} {id pid : ℤ} {flags : ℕ} {sh : Shmem} : r.region id = some sh →
      r.entry id pid = none →
      Step r (.grant kmalloc sh.pid id pid flags)
        (r.setEntry id pid (some (freshEntry (flags &&& SHMEM_MASK)))) ⟨0, none⟩
  | revokeIdle {data : Option ℕ} {tables : ℕ → Option ℕ} {id pid : ℤ} {sh : Shmem} {e : Entry} :
      r.region id = some sh → r.entry id pid = some e → e.usage ≤ 0 →
      Step r (.revoke data tables sh.pid pid id) (r.setEntry id pid none) ⟨0, none⟩
  | revoke {data : ℕ} {tables : ℕ → Option ℕ} {id pid : ℤ} {sh : Shmem} {e : Entry}
      {d d' : PageDirectory} : r.region id = some sh → r.entry id pid = some e → 0 < e.usage →
      r.maps pid = some d →
      pageDirectMap tables d data e.location e.pages (mapType e.flags) = .ok d' →
      Step r (.revoke (some data) tables sh.pid pid id)
        ((r.setMap pid (some d')).setEntry id pid none) ⟨0, none⟩
  | request {kmalloc : Option ℕ} {memory : ℕ → ℕ} {tables : ℕ → Option ℕ} {id pid : ℤ}
      {sh : Shmem} {e e' : Entry} {m : Option PageDirectory} {access : Option Access} :
      r.region id = some sh → Entitled r id pid sh e →
      Served memory tables sh.physicalLocation sh.physicalPages e (r.maps pid) e' m access →
      Step r (.request kmalloc memory tables pid id) ((r.setMap pid m).setEntry id pid (some e'))
        ⟨if access.isSome then 0 else -1, access⟩
  | release {memory : ℕ → ℕ} {id pid : ℤ} {sh : Shmem} {e : Entry} : r.region id = some sh →
      r.entry id pid = some e → int32 (e.usage - 1) ≠ 0 →
      Step r (.release memory pid id)
        (r.setEntry id pid (some { e with usage := int32 (e.usage - 1) })) ⟨0, none⟩
  | unmap {memory : ℕ → ℕ} {id pid : ℤ} {sh : Shmem} {e : Entry} {d d' : PageDirectory} :
      r.region id = some sh → r.entry id pid = some e → int32 (e.usage - 1) = 0 →
      r.maps pid = some d →
      pageRelease memory d e.location e.pages = .ok d' →
      Step r (.release memory pid id)
        ((r.setMap pid (some d')).setEntry id pid (some ⟨0, -1, e.flags, 0⟩)) ⟨0, none⟩
  | delete {scratch : ℤ → Option ℕ} {tables : ℤ → ℕ → Option ℕ} {id : ℤ} {sh : Shmem}
      {maps : ℤ → Option PageDirectory} : r.region id = some sh →
      (∀ pid, Detached (scratch pid) (tables pid) sh.physicalPages (r.entry id pid) (r.maps pid)
        (maps pid)) →
      Step r (.delete scratch tables sh.pid id) { r.setRegion id none with maps := maps } ⟨0, none⟩
  | exit {pid : ℤ} : Step r (.exit pid) (r.setMap pid none) ⟨0, none⟩

end Racoon.Sharing
