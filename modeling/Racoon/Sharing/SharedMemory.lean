import Racoon.Libsmk.Strings
import Racoon.Paging.Directory

/-!
# Shared memory

`kernel/shmem.c` with the list operations of `ds/list.h`. A region lists the
processes that may use it, each with the place where the region is mapped for it
and a count of its requests. `shmem_table` is given as the regions by id, and
`maps` holds the page directories of the processes in the process table, which
`checkout_process` searches. Each call runs under `shmem_lock` and the lock of
the region; `shmem_delete` releases the first once nobody can find the region
any more. What `kmalloc` and `memory_alloc` answer is an input of the call, and
the contents of the pages that are copied are left out.
-/

namespace Racoon.Sharing
open Strings Paging

def SHMEM_RDWR : ℕ := 1
def SHMEM_IMMORTAL : ℕ := 2
def SHMEM_PROMISCUOUS : ℕ := 4
def SHMEM_MASK : ℕ := 1 ||| 2 ||| 4
def SMK_NAME_LENGTH : ℕ := 64
def sK_BASE : ℕ := 0x80000000
def sK_CEILING : ℕ := 0xFA000000

structure ShmemInfo where
  pid : ℤ
  virtualLocation : ℕ
  virtualPages : ℤ
  flags : ℕ
  usage : ℤ
  tmp : Option ℤ
  tmp2 : Option ℕ
  prev : Option ℕ
  next : Option ℕ

structure Shmem where
  id : ℤ
  name : CString
  pid : ℤ
  flags : ℕ
  internal : ℕ
  physicalLocation : ℕ
  physicalPages : ℤ
  list : Option ℕ

structure Kernel where
  table : ℤ → Option Shmem
  shmemId : ℤ
  infos : ℕ → Option ShmemInfo
  maps : ℤ → Option PageDirectory
  interrupts : Bool
  /-- The calls of `memory_free` made, the latest first. -/
  freed : List (ℤ × ℕ)

def Kernel.setRegion (k : Kernel) (id : ℤ) (sh : Option Shmem) : Kernel :=
  { k with table := Function.update k.table id sh }

def Kernel.setInfo (k : Kernel) (p : ℕ) (info : Option ShmemInfo) : Kernel :=
  { k with infos := Function.update k.infos p info }

def Kernel.setMap (k : Kernel) (pid : ℤ) (map : PageDirectory) : Kernel :=
  { k with maps := Function.update k.maps pid (some map) }

/-- `shmem_id++`, with the roll over. -/
def nextId (id : ℤ) : ℤ := if int32 (id + 1) < 0 then 0 else int32 (id + 1)

/-- The loop that looks for an id, which comes with the next value of `shmem_id`. Once it has
tried all ids it never ends. -/
def freeId (table : ℤ → Option Shmem) : ℕ → ℤ → Outcome (ℤ × ℤ)
  | 0, _ => .error .diverges
  | left + 1, id =>
    match table id with
    | none => .ok (id, nextId id)
    | some _ => freeId table left (nextId id)

/-- The structure that `shmem_create_direct` fills in; `litter` is what its memory contains. -/
def newRegion (litter name : CString) (pid pages : ℤ) (flags location internal : ℕ) (id : ℤ) :
    Shmem where
  id := id
  name := kstrncpy litter name SMK_NAME_LENGTH
  pid := pid
  flags := flags &&& SHMEM_MASK
  internal := internal
  physicalLocation := location
  physicalPages := pages
  list := none

/-- `kmalloc` and `insert` say whether the structure is allocated and whether `htable_insert`
finds room. -/
def shmemCreateDirect (k : Kernel) (kmalloc insert : Bool) (litter name : CString) (pid pages : ℤ)
    (flags location internal : ℕ) : Outcome (Kernel × ℤ) :=
  if pages ≤ 0 then .ok (k, -1)
  else if name 0 = 0 then .ok (k, -1)
  else if kmalloc = false then .ok (k, -1)
  else do
    let (id, next) ← freeId k.table (2 ^ 31) k.shmemId
    let sh := newRegion litter name pid pages flags location internal id
    let k := if insert then k.setRegion id (some sh) else k
    .ok ({ k with shmemId := next }, id)

/-- `memory` is what `memory_alloc( pages )` returns. -/
def shmemCreate (k : Kernel) (memory : Option ℕ) (kmalloc insert : Bool) (litter name : CString)
    (pid pages : ℤ) (flags : ℕ) : Outcome (Kernel × ℤ) :=
  match memory with
  | none => .ok (k, -1)
  | some location => do
    let (k, id) ← shmemCreateDirect k kmalloc insert litter name pid pages flags location 1
    let k := if id < 0 then { k with freed := (pages, location) :: k.freed } else k
    .ok (k, id)

/-- More rounds than there are addresses. -/
def walkBound : ℕ := 2 ^ 32

/-- The search for the entry of a process, as each call makes it. -/
def findInfo (infos : ℕ → Option ShmemInfo) (pid : ℤ) : ℕ → Option ℕ → Outcome (Option ℕ)
  | _, none => .ok none
  | 0, some _ => .error .diverges
  | left + 1, some p => do
    let info ← load infos (some p)
    if info.pid = pid then .ok (some p) else findInfo infos pid left info.next

/-- An assignment `p->next = next` guarded by `p != NULL`. -/
def setNext (infos : ℕ → Option ShmemInfo) (p next : Option ℕ) :
    Outcome (ℕ → Option ShmemInfo) :=
  match p with
  | none => .ok infos
  | some p => modify infos (some p) fun v => { v with next := next }

def setPrev (infos : ℕ → Option ShmemInfo) (p prev : Option ℕ) :
    Outcome (ℕ → Option ShmemInfo) :=
  match p with
  | none => .ok infos
  | some p => modify infos (some p) fun v => { v with prev := prev }

def listInsertBefore (infos : ℕ → Option ShmemInfo) (position l : ℕ) :
    Outcome (ℕ → Option ShmemInfo) := do
  let v ← load infos (some position)
  let infos ← modify infos (some l) fun w => { w with prev := v.prev, next := some position }
  let infos ← setPrev infos (some position) (some l)
  setNext infos v.prev (some l)

def listRemove (infos : ℕ → Option ShmemInfo) (l : ℕ) : Outcome (ℕ → Option ShmemInfo) := do
  let v ← load infos (some l)
  let infos ← setNext infos v.prev v.next
  let infos ← setPrev infos v.next v.prev
  modify infos (some l) fun w => { w with prev := none, next := none }

/-- A new entry, before it is in a list. -/
def newInfo (pid : ℤ) (flags : ℕ) : ShmemInfo where
  pid := pid
  virtualLocation := 0
  virtualPages := -1
  flags := flags
  usage := 0
  tmp := none
  tmp2 := none
  prev := none
  next := none

/-- A new entry at `p` is put before the head of a list. -/
def pushInfo (infos : ℕ → Option ShmemInfo) (list : Option ℕ) (p : ℕ) :
    Outcome (ℕ → Option ShmemInfo) :=
  match list with
  | none => .ok infos
  | some position => listInsertBefore infos position p

def insertInfo (k : Kernel) (id : ℤ) (sh : Shmem) (p : ℕ) (info : ShmemInfo) :
    Outcome Kernel := do
  let infos ← pushInfo (Function.update k.infos p (some info)) sh.list p
  .ok ({ k with infos := infos }.setRegion id (some { sh with list := some p }))

/-- `kmalloc` is the address it returns. -/
def shmemGrant (k : Kernel) (kmalloc : Option ℕ) (owner id pid : ℤ) (flags : ℕ) :
    Outcome (Kernel × ℤ) :=
  match k.table id with
  | none => .ok (k, -1)
  | some sh =>
    if owner ≠ sh.pid then .ok (k, -1)
    else do
      let found ← findInfo k.infos pid walkBound sh.list
      match found, kmalloc with
      | some _, _ => .ok (k, -1)
      | none, none => .ok (k, -1)
      | none, some p => do
        let k ← insertInfo k id sh p (newInfo pid (flags &&& SHMEM_MASK))
        .ok (k, 0)

/-- The type of the pages of an entry. -/
def mapType (flags : ℕ) : ℕ :=
  if flags &&& SHMEM_RDWR = SHMEM_RDWR then USER_PAGE ||| READ_WRITE else USER_PAGE ||| READ_ONLY

/-- The end of `shmem_revoke`: the entry leaves the list and is freed. -/
def unlinkInfo (k : Kernel) (id : ℤ) (sh : Shmem) (p : ℕ) : Outcome (Kernel × ℤ) := do
  let info ← load k.infos (some p)
  let infos ← listRemove k.infos p
  let list := if sh.list = some p then info.next else sh.list
  .ok (({ k with infos := infos }.setInfo p none).setRegion id (some { sh with list := list }), 0)

/-- `data` is what `memory_alloc` returns for a scratch pad, which takes the place of the region.
The early return leaves the interrupts disabled. -/
def shmemRevoke (k : Kernel) (data : Option ℕ) (tables : ℕ → Option ℕ) (owner pid id : ℤ) :
    Outcome (Kernel × ℤ) :=
  match k.table id with
  | none => .ok (k, -1)
  | some sh =>
    if owner ≠ sh.pid then .ok (k, -1)
    else do
      let found ← findInfo k.infos pid walkBound sh.list
      match found with
      | none => .ok (k, -1)
      | some p => do
        let info ← load k.infos (some p)
        if 0 < info.usage then
          match data with
          | none => .ok ({ k with interrupts := false }, -1)
          | some data => do
            let map ← deref (k.maps pid)
            let map ← pageDirectMap tables map data info.virtualLocation info.virtualPages
              (mapType info.flags)
            unlinkInfo (k.setMap pid map) id sh p
        else unlinkInfo k id sh p

/-- What `shmem_request` returns through its pointers. -/
structure Access where
  location : ℕ
  pages : ℤ
  flags : ℕ

/-- The end of `shmem_request`, which counts the request. -/
def countRequest (k : Kernel) (p : ℕ) : Outcome (Kernel × Option Access) := do
  let info ← load k.infos (some p)
  let info := { info with usage := int32 (info.usage + 1) }
  .ok (k.setInfo p (some info), some ⟨info.virtualLocation, info.virtualPages, info.flags⟩)

/-- `shmem_request` once there is an entry at `p`: the region is mapped if it is not yet. -/
def mapRequest (k : Kernel) (memory : ℕ → ℕ) (tables : ℕ → Option ℕ) (pid : ℤ) (sh : Shmem)
    (p : ℕ) : Outcome (Kernel × Option Access) := do
  let info ← load k.infos (some p)
  if info.virtualPages < 0 then do
    let map ← deref (k.maps pid)
    let (map, location) ← pageProvide memory tables map sh.physicalLocation sK_BASE sK_CEILING
      (sh.physicalPages % 2 ^ 32).toNat (mapType info.flags)
    let info := { info with virtualLocation := location }
    if location = 0 then .ok ((k.setMap pid map).setInfo p (some info), none)
    else countRequest ((k.setMap pid map).setInfo p
      (some { info with virtualPages := sh.physicalPages })) p
  else countRequest k p

/-- The answer -1 is `none`. -/
def shmemRequest (k : Kernel) (kmalloc : Option ℕ) (memory : ℕ → ℕ) (tables : ℕ → Option ℕ)
    (pid id : ℤ) : Outcome (Kernel × Option Access) :=
  match k.table id with
  | none => .ok (k, none)
  | some sh => do
    let found ← findInfo k.infos pid walkBound sh.list
    match found with
    | some p => mapRequest k memory tables pid sh p
    | none =>
      if sh.flags &&& SHMEM_PROMISCUOUS = SHMEM_PROMISCUOUS then
        match kmalloc with
        | none => .ok (k, none)
        | some p => do
          let k ← insertInfo k id sh p (newInfo pid (sh.flags &&& SHMEM_MASK))
          mapRequest k memory tables pid sh p
      else .ok (k, none)

def shmemRelease (k : Kernel) (memory : ℕ → ℕ) (pid id : ℤ) : Outcome (Kernel × ℤ) :=
  match k.table id with
  | none => .ok (k, -1)
  | some sh => do
    let found ← findInfo k.infos pid walkBound sh.list
    match found with
    | none => .ok (k, -1)
    | some p => do
      let info ← load k.infos (some p)
      let info := { info with usage := int32 (info.usage - 1) }
      if info.usage = 0 then do
        let map ← deref (k.maps pid)
        let map ← pageRelease memory map info.virtualLocation info.virtualPages
        .ok ((k.setMap pid map).setInfo p
          (some { info with virtualLocation := 0, virtualPages := -1 }), 0)
      else .ok (k.setInfo p (some info), 0)

/-- The first loop of `shmem_delete` for one entry. -/
def checkoutInfo (k : Kernel) (scratch : Option ℕ) (p : ℕ) (info : ShmemInfo) (usage : ℤ) :
    Kernel × ℤ :=
  if 0 < info.usage then
    match k.maps info.pid with
    | none => (k.setInfo p (some { info with tmp := none }), usage)
    | some _ => (k.setInfo p (some { info with tmp := some info.pid, tmp2 := scratch }), usage + 1)
  else (k, usage)

def checkoutFrom (scratch : ℤ → Option ℕ) : ℕ → Option ℕ → Kernel → ℤ → Outcome (Kernel × ℤ)
  | _, none, k, usage => .ok (k, usage)
  | 0, some _, _, _ => .error .diverges
  | left + 1, some p, k, usage => do
    let info ← load k.infos (some p)
    let (k, usage) := checkoutInfo k (scratch info.pid) p info usage
    checkoutFrom scratch left info.next k usage

/-- The second loop for one entry. -/
def detachInfo (tables : ℤ → ℕ → Option ℕ) (sh : Shmem) (k : Kernel) (info : ShmemInfo) :
    Outcome Kernel :=
  match info.tmp, info.tmp2 with
  | some pid, some data => do
    let map ← deref (k.maps pid)
    let map ← pageDirectMap (tables pid) map data info.virtualLocation sh.physicalPages
      (mapType info.flags)
    .ok (k.setMap pid map)
  | _, _ => .ok k

def detachFrom (tables : ℤ → ℕ → Option ℕ) (sh : Shmem) :
    ℕ → Option ℕ → Kernel → Outcome Kernel
  | _, none, k => .ok k
  | 0, some _, _ => .error .diverges
  | left + 1, some p, k => do
    let info ← load k.infos (some p)
    let k ← detachInfo tables sh k info
    detachFrom tables sh left info.next k

/-- The third loop. It reads `next` from an entry that it has freed; `kfree` has left the contents
as they were. -/
def discardFrom : ℕ → Option ℕ → Kernel → Outcome Kernel
  | _, none, k => .ok k
  | 0, some _, _ => .error .diverges
  | left + 1, some p, k => do
    let info ← load k.infos (some p)
    discardFrom left info.next (k.setInfo p none)

/-- `usage` counts the processes checked out. -/
def detachUsers (tables : ℤ → ℕ → Option ℕ) (sh : Shmem) (k : Kernel) (usage : ℤ) :
    Outcome Kernel :=
  if 0 < usage then detachFrom tables sh walkBound sh.list k else .ok k

/-- `scratch` is what `memory_alloc` returns for the entry of a process. -/
def shmemDelete (k : Kernel) (scratch : ℤ → Option ℕ) (tables : ℤ → ℕ → Option ℕ)
    (owner id : ℤ) : Outcome (Kernel × ℤ) :=
  match k.table id with
  | none => .ok (k, -1)
  | some sh =>
    if owner ≠ sh.pid then .ok (k, -1)
    else do
      let (k, usage) ← checkoutFrom scratch walkBound sh.list (k.setRegion id none) 0
      let k ← detachUsers tables sh k usage
      let k ← discardFrom walkBound sh.list k
      if sh.internal ≠ 0 then
        .ok ({ k with freed := (sh.physicalPages, sh.physicalLocation) :: k.freed }, 0)
      else .ok (k, 0)

/-- What a call answers; only a request gives access. -/
structure Answer where
  rc : ℤ
  access : Option Access

inductive ShmemCall
  | create (memory : Option ℕ) (kmalloc insert : Bool) (litter name : CString) (pid pages : ℤ)
      (flags : ℕ)
  | createDirect (kmalloc insert : Bool) (litter name : CString) (pid pages : ℤ)
      (flags location internal : ℕ)
  | grant (kmalloc : Option ℕ) (owner id pid : ℤ) (flags : ℕ)
  | revoke (data : Option ℕ) (tables : ℕ → Option ℕ) (owner pid id : ℤ)
  | request (kmalloc : Option ℕ) (memory : ℕ → ℕ) (tables : ℕ → Option ℕ) (pid id : ℤ)
  | release (memory : ℕ → ℕ) (pid id : ℤ)
  | delete (scratch : ℤ → Option ℕ) (tables : ℤ → ℕ → Option ℕ) (owner id : ℤ)
  /-- A process leaves the process table. -/
  | exit (pid : ℤ)

def answer (x : Outcome (Kernel × ℤ)) : Outcome (Kernel × Answer) := do
  let (k, rc) ← x
  .ok (k, ⟨rc, none⟩)

def ShmemCall.exec (k : Kernel) : ShmemCall → Outcome (Kernel × Answer)
  | create memory kmalloc insert litter name pid pages flags =>
    answer (shmemCreate k memory kmalloc insert litter name pid pages flags)
  | createDirect kmalloc insert litter name pid pages flags location internal =>
    answer (shmemCreateDirect k kmalloc insert litter name pid pages flags location internal)
  | grant kmalloc owner id pid flags => answer (shmemGrant k kmalloc owner id pid flags)
  | revoke data tables owner pid id => answer (shmemRevoke k data tables owner pid id)
  | request kmalloc memory tables pid id => do
    let (k, access) ← shmemRequest k kmalloc memory tables pid id
    .ok (k, ⟨if access.isSome then 0 else -1, access⟩)
  | release memory pid id => answer (shmemRelease k memory pid id)
  | delete scratch tables owner id => answer (shmemDelete k scratch tables owner id)
  | exit pid => .ok ({ k with maps := Function.update k.maps pid none }, ⟨0, none⟩)

end Racoon.Sharing
