import Racoon.Env.Environment
import Racoon.Lib.DoublyLinked
import Racoon.Sharing.LockedCalls

/-!
# The memory of a process

`kernel/ualloc.c`. A process has, beside its page directory, a list with a record
for each region that it was given. `user_alloc` gives it new pages, `user_map`
pages that it names, and `user_ensure` fills the holes of a range; `user_free`
looks a region up by the virtual address in its record.

What `kmalloc` answers is an input of a call, and the pages of its heap are left
out, as is the field `parent`, which nothing reads. The calls of `memory_alloc`
and `memory_free` for regions are kept in two logs, and so are those of `kmalloc`
and `kfree`.
-/

namespace Racoon.Ualloc
open Lib Paging
open PhysicalMemory (Physmem memoryAlloc memoryFree)
open Sharing (sK_BASE sK_CEILING walkBound)
open Env (SMK_OK SMK_NOMEM SMK_NOT_FOUND SMK_REQUESTED_NOTHING)

def SMK_NOT_ALIGNED : ℤ := -16

def UALLOC_NORELEASE : ℕ := 1

structure Record where
  pages : ℕ
  flags : ℕ
  shared : ℤ
  phys : ℕ
  virt : ℕ

structure AllocatedMemory extends Record where
  prev : Option ℕ
  next : Option ℕ

structure State where
  pm : Physmem
  map : PageDirectory
  mems : ℕ → Option AllocatedMemory
  alloc : Option ℕ
  taken : List PhysicalMemory.Block
  freed : List PhysicalMemory.Block
  kmalloced : List ℕ
  kfreed : List ℕ

/-- The types of the pages of a region. -/
def userType : ℕ := USER_PAGE ||| READ_WRITE

def State.takes (s : State) (pm : Physmem) (x : PhysicalMemory.Block) : State :=
  { s with pm := pm, taken := x :: s.taken }

def State.memoryFree (s : State) (x : PhysicalMemory.Block) : Outcome State := do
  let pm ← PhysicalMemory.memoryFree s.pm x.2 x.1
  .ok { s with pm := pm, freed := x :: s.freed }

def State.kfree (s : State) (p : ℕ) : State :=
  { s with mems := Function.update s.mems p none, kfreed := p :: s.kfreed }

/-- An assignment `x->prev = prev` guarded by `x != NULL`. -/
def setPrev (mems : ℕ → Option AllocatedMemory) (x prev : Option ℕ) :
    Outcome (ℕ → Option AllocatedMemory) :=
  match x with
  | none => .ok mems
  | some x => modify mems (some x) fun v => { v with prev := prev }

def setNext (mems : ℕ → Option AllocatedMemory) (x next : Option ℕ) :
    Outcome (ℕ → Option AllocatedMemory) :=
  match x with
  | none => .ok mems
  | some x => modify mems (some x) fun v => { v with next := next }

/-- A record is filled in and becomes the head of the list. -/
def State.insert (s : State) (p : ℕ) (r : Record) : Outcome State := do
  let mems := Function.update s.mems p (some { r with prev := none, next := s.alloc })
  let mems ← setPrev mems s.alloc (some p)
  .ok { s with mems := mems, alloc := some p }

/-- The same with `NULL` for the record: it is written to the address 0, which is mapped and where
no object lies, and the list is lost from its head on. -/
def State.insertNull (s : State) : Outcome State := do
  let mems ← setPrev s.mems s.alloc none
  .ok { s with mems := mems, alloc := none }

/-- `kmalloc` has answered, and its answer is used without a look at it. -/
def State.record (s : State) (kmalloc : Option ℕ) (r : Record) : Outcome State :=
  match kmalloc with
  | none => s.insertNull
  | some mem => State.insert { s with kmalloced := mem :: s.kmalloced } mem r

/-- What is handed out is `location`, where the region is mapped at `found`. -/
def userAlloc (s : State) (kmalloc : Option ℕ) (memory : ℕ → ℕ) (pages : ℕ) :
    Outcome (State × ℤ × Option ℕ) :=
  if pages = 0 then .ok (s, SMK_REQUESTED_NOTHING, none)
  else do
    let (pm, location) ← memoryAlloc s.pm pages
    if location = 0 then .ok ({ s with pm := pm }, SMK_NOMEM, none)
    else
      let s := s.takes pm (location, pages)
      match kmalloc with
      | none => do
        let s ← s.memoryFree (location, pages)
        .ok (s, SMK_NOMEM, none)
      | some mem => do
        let s := { s with kmalloced := mem :: s.kmalloced }
        let (pm, map, found) ← Sharing.Locked.pageProvide memory s.pm s.map location sK_BASE
          sK_CEILING pages userType
        let s := { s with pm := pm, map := map }
        if found = 0 then do
          let s ← s.memoryFree (location, pages)
          .ok (s.kfree mem, SMK_NOMEM, none)
        else do
          let s ← s.insert mem ⟨pages, 0, 0, location, found⟩
          .ok (s, SMK_OK, some location)

def userMap (s : State) (kmalloc : Option ℕ) (memory : ℕ → ℕ) (ptr pages : ℕ) :
    Outcome (State × ℤ × Option ℕ) :=
  if pages = 0 then .ok (s, SMK_REQUESTED_NOTHING, none)
  else if ptr % PAGE_SIZE ≠ 0 then .ok (s, SMK_NOT_ALIGNED, none)
  else do
    let (pm, map, found) ← Sharing.Locked.pageProvide memory s.pm s.map ptr sK_BASE sK_CEILING pages
      userType
    let s := { s with pm := pm, map := map }
    if found ≠ 0 then do
      let s ← s.record kmalloc ⟨pages, UALLOC_NORELEASE, 0, ptr, found⟩
      .ok (s, SMK_OK, some found)
    else .ok (s, SMK_OK, some found)

/-- The search that the look-ups begin with. -/
def findFrom (mems : ℕ → Option AllocatedMemory) (ptr : ℕ) : ℕ → Option ℕ → Outcome (Option ℕ)
  | _, none => .ok none
  | 0, some _ => .error .diverges
  | left + 1, some p => do
    let mem ← load mems (some p)
    if mem.virt = ptr then .ok (some p) else findFrom mems ptr left mem.next

def State.find (s : State) (ptr : ℕ) : Outcome (Option ℕ) := findFrom s.mems ptr walkBound s.alloc

/-- The record leaves the list. -/
def State.unlink (s : State) (p : ℕ) : Outcome State := do
  let mem ← load s.mems (some p)
  let alloc := if s.alloc = some p then mem.next else s.alloc
  let mems ← setPrev s.mems mem.next mem.prev
  let mems ← setNext mems mem.prev mem.next
  .ok { s with mems := mems, alloc := alloc }

/-- The pages of the region are those of `memory_alloc`. -/
def Record.released (r : Record) : Bool := ¬ 0 < r.shared ∧ r.flags &&& UALLOC_NORELEASE = 0

def userFree (s : State) (memory : ℕ → ℕ) (ptr : ℕ) : Outcome (State × ℤ) := do
  match ← s.find ptr with
  | none => .ok (s, SMK_NOT_FOUND)
  | some p => do
    let s ← s.unlink p
    let mem ← load s.mems (some p)
    let s ← if mem.released then s.memoryFree (mem.phys, mem.pages) else .ok s
    let map ← pageRelease memory s.map mem.virt (int32 mem.pages)
    let s := { s with map := map }
    .ok (if mem.released then s.kfree p else s, SMK_OK)

def userSize (s : State) (ptr : ℕ) : Outcome (ℤ × Option ℕ) := do
  match ← s.find ptr with
  | none => .ok (SMK_NOT_FOUND, none)
  | some p => do
    let mem ← load s.mems (some p)
    .ok (SMK_OK, some (mem.pages * PAGE_SIZE % 2 ^ 32))

def userLocation (s : State) (ptr : ℕ) : Outcome (ℤ × Option ℕ) := do
  match ← s.find ptr with
  | none => .ok (SMK_NOT_FOUND, none)
  | some p => do
    let mem ← load s.mems (some p)
    .ok (SMK_OK, some mem.phys)

/-- The loop of `user_release_all`. -/
def releaseAllFrom (memory : ℕ → ℕ → ℕ) : ℕ → State → Outcome State
  | left, s =>
    match s.alloc, left with
    | none, _ => .ok s
    | some _, 0 => .error .diverges
    | some p, left + 1 => do
      let mem ← load s.mems (some p)
      let (s, _) ← userFree s (memory left) mem.virt
      releaseAllFrom memory left s

def userReleaseAll (s : State) (memory : ℕ → ℕ → ℕ) : Outcome (State × ℤ) := do
  let s ← releaseAllFrom memory walkBound s
  assert (s.alloc = none)
  .ok (s, 0)

/-- A round of `page_ensure`. The second part of the answer counts pages found. -/
def ensureEntry (memory : ℕ → ℕ) (flags : ℕ) (pm : Physmem) (d : PageDirectory) (index : ℕ) :
    Outcome (Physmem × PageDirectory × ℕ) := do
  let (pm, d) ← Sharing.Locked.ensureTable flags pm d index
  if pageEntryPresent memory d index then .ok (pm, d, 1)
  else do
    let (pm, frame) ← memoryAlloc pm 1
    let d ← d.setEntry index (entryWord frame flags)
    .ok (pm, d, 0)

def ensureFrom (memory : ℕ → ℕ) (flags : ℕ) :
    ℕ → ℕ → Physmem → PageDirectory → ℕ → Outcome (Physmem × PageDirectory × ℕ)
  | 0, _, pm, d, alreadies => .ok (pm, d, alreadies)
  | left + 1, index, pm, d, alreadies => do
    let (pm, d, found) ← ensureEntry memory flags pm d index
    ensureFrom memory flags left (add32 index PAGE_SIZE) pm d (alreadies + found)

def pageEnsure (memory : ℕ → ℕ) (pm : Physmem) (d : PageDirectory) (start pages flags : ℕ) :
    Outcome (Physmem × PageDirectory × ℕ) :=
  ensureFrom memory (convertPagingTypes flags) pages
    (add32 (sub32 start PAGE_SIZE) PAGE_SIZE) pm d 0

/-- `found` is unsigned, so that no error is seen in it. It is also what is recorded as the virtual
address. -/
def userAllocHard (s : State) (kmalloc : Option ℕ) (memory : ℕ → ℕ) (virtual pages : ℕ) :
    Outcome (State × ℤ) := do
  assert (pages ≠ 0)
  let (pm, location) ← memoryAlloc s.pm pages
  if location = 0 then .ok ({ s with pm := pm }, SMK_NOMEM)
  else
    let s := s.takes pm (location, pages)
    match kmalloc with
    | none => do
      let s ← s.memoryFree (location, pages)
      .ok (s, SMK_NOMEM)
    | some mem => do
      let (pm, map, found) ← pageEnsure memory s.pm s.map virtual pages userType
      assert (found % 2 ^ 32 = 0)
      let s ← State.insert { s with pm := pm, map := map, kmalloced := mem :: s.kmalloced } mem
        ⟨pages, 0, 0, location, found % 2 ^ 32⟩
      .ok (s, SMK_OK)

/-- `page_present( .. ) == 0` -/
def pagePresent (memory : ℕ → ℕ) (d : PageDirectory) (address : ℕ) : Bool :=
  pageTablePresent d address && pageEntryPresent memory d address

/-- The pages from `last_start` up to a page that is present. -/
def fillHole (s : State) (kmalloc : ℕ → Option ℕ) (memory : ℕ → ℕ) (index lastStart : ℕ) :
    Outcome (State × ℤ) :=
  if index ≠ lastStart then
    userAllocHard s (kmalloc lastStart) memory lastStart (sub32 index lastStart / PAGE_SIZE)
  else .ok (s, SMK_OK)

/-- The loop of `user_ensure`, with `index` and `last_start`, and what comes after it. `kmalloc` is
told the address for which a record is to be made. More rounds than there are pages never end. -/
def ensureHoles (memory : ℕ → ℕ) (kmalloc : ℕ → Option ℕ) (finish : ℕ) :
    ℕ → ℕ → ℕ → State → Outcome (State × ℤ)
  | 0, _, _, _ => .error .diverges
  | left + 1, index, lastStart, s =>
    if index < finish then
      if pagePresent memory s.map index = false then
        ensureHoles memory kmalloc finish left (add32 index PAGE_SIZE) lastStart s
      else do
        let (s, rc) ← fillHole s kmalloc memory index lastStart
        if rc ≠ SMK_OK then .ok (s, rc)
        else
          ensureHoles memory kmalloc finish left (add32 index PAGE_SIZE) (add32 index PAGE_SIZE) s
    else if lastStart < finish then
      userAllocHard s (kmalloc lastStart) memory lastStart (sub32 finish lastStart / PAGE_SIZE)
    else .ok (s, SMK_OK)

def userEnsure (s : State) (kmalloc : ℕ → Option ℕ) (memory : ℕ → ℕ) (ptr pages : ℕ) :
    Outcome (State × ℤ) :=
  ensureHoles memory kmalloc (add32 ptr (pages * PAGE_SIZE)) (2 ^ 20 + 1) ptr ptr s

end Racoon.Ualloc
