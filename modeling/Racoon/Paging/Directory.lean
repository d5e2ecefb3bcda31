import Racoon.Machine

/-!
# Page directories

`kernel/paging.c`. A directory has 1024 entries for 4 MB each: those of the
kernel map 4 MB pages, the others are absent or point to a page table of 1024
words. A word holds the address of a page frame and, in its low 12 bits, flags
with `PAGE_PRESENT` among them.

The functions look at a directory entry without regard to `PAGE_4MB`. For a
kernel address `page_entry_present` therefore reads physical memory in place of
a table, so that memory is given to it as `memory`. To write there destroys
whatever the kernel keeps at that address, which counts as a bad access. The
invalidation of the TLB is left out.
-/

namespace Racoon.Paging

def PAGE_SIZE : ℕ := 4096

def READ_ONLY : ℕ := 1
def READ_WRITE : ℕ := 2
def USER_PAGE : ℕ := 4
def SYSTEM_PAGE : ℕ := 8

def PAGE_PRESENT : ℕ := 1
def PAGE_READ_ONLY : ℕ := 0
def PAGE_RDWR : ℕ := 2
def PAGE_USER : ℕ := 4
def PAGE_SUPERVISOR : ℕ := 0

structure PageTable where
  frame : ℕ
  flags : ℕ
  entry : ℕ → ℕ

/-- An entry of a page directory. -/
inductive Pde
  | absent
  | large
  | table (t : PageTable)

structure PageDirectory where
  frame : ℕ
  pde : ℕ → Pde

def newPageDirectory (frame : ℕ) : PageDirectory where
  frame := frame
  pde i := if i < 512 then .large else if i < 1016 then .absent else .large

def pageTableOf (address : ℕ) : ℕ := address / 2 ^ 22 % 1024

def pageEntryOf (address : ℕ) : ℕ := address / 2 ^ 12 % 1024

def present (word : ℕ) : Bool := word % 2 = 1

/-- The frame that a word points to, `word & ~0xFFF`. -/
def frameOf (word : ℕ) : ℕ := word / PAGE_SIZE * PAGE_SIZE

/-- `page_table_present( .. ) == 0` -/
def pageTablePresent (d : PageDirectory) (address : ℕ) : Bool :=
  match d.pde (pageTableOf address) with
  | .absent => false
  | _ => true

/-- `page_entry_present( .. ) == 0` -/
def pageEntryPresent (memory : ℕ → ℕ) (d : PageDirectory) (address : ℕ) : Bool :=
  match d.pde (pageTableOf address) with
  | .absent => false
  | .large => present (memory (pageTableOf address * 2 ^ 22 + 4 * pageEntryOf address))
  | .table t => present (t.entry (pageEntryOf address))

def convertPagingTypes (flags : ℕ) : ℕ :=
  (if flags &&& READ_ONLY ≠ 0 then PAGE_READ_ONLY else 0) |||
  (if flags &&& READ_WRITE ≠ 0 then PAGE_RDWR else 0) |||
  (if flags &&& USER_PAGE ≠ 0 then PAGE_USER else 0) |||
  (if flags &&& SYSTEM_PAGE ≠ 0 then PAGE_SUPERVISOR else 0)

def entryWord (phys flags : ℕ) : ℕ := phys ||| flags ||| PAGE_PRESENT

def PageDirectory.setPde (d : PageDirectory) (i : ℕ) (e : Pde) : PageDirectory :=
  { d with pde := Function.update d.pde i e }

/-- `page_table( directory, address )[ page_entry_of( address ) ] = word` -/
def PageDirectory.setEntry (d : PageDirectory) (address word : ℕ) : Outcome PageDirectory :=
  match d.pde (pageTableOf address) with
  | .table t => .ok (d.setPde (pageTableOf address)
      (.table { t with entry := Function.update t.entry (pageEntryOf address) word }))
  | _ => .error .badAccess

/-- An empty table where there is none. `tables` says what `memory_alloc` answers for each
directory entry. -/
def ensureTable (tables : ℕ → Option ℕ) (flags : ℕ) (d : PageDirectory) (address : ℕ) :
    Outcome PageDirectory :=
  if pageTablePresent d address then .ok d
  else do
    let frame ← deref (tables (pageTableOf address))
    .ok (d.setPde (pageTableOf address) (.table ⟨frame, flags, fun _ => 0⟩))

/-- The loop of `page_direct_map`. -/
def directMapFrom (tables : ℕ → Option ℕ) (flags : ℕ) :
    ℕ → ℕ → ℕ → PageDirectory → Outcome PageDirectory
  | 0, _, _, d => .ok d
  | left + 1, phys, index, d => do
    let d ← ensureTable tables flags d index
    let d ← d.setEntry index (entryWord phys flags)
    directMapFrom tables flags left (add32 phys PAGE_SIZE) (add32 index PAGE_SIZE) d

/-- The counter of the loop is unsigned, and `pages` is converted to its type. -/
def pageDirectMap (tables : ℕ → Option ℕ) (d : PageDirectory) (physical start : ℕ) (pages : ℤ)
    (type : ℕ) : Outcome PageDirectory :=
  directMapFrom tables (convertPagingTypes type) (pages % 2 ^ 32).toNat physical start d

/-- The first of the pages from `current` that is present, counted from there. -/
def firstPresent (memory : ℕ → ℕ) (d : PageDirectory) (current : ℕ) : ℕ → ℕ → Option ℕ
  | 0, _ => none
  | left + 1, count =>
    if pageEntryPresent memory d (add32 current (count * PAGE_SIZE)) then some count
    else firstPresent memory d current left (count + 1)

/-- The loop of `page_find_free`. It has a page-aligned address for its state, and so runs for
ever if it runs for as many rounds as there are pages. -/
def findFreeFrom (memory : ℕ → ℕ) (d : PageDirectory) (finish pages : ℕ) : ℕ → ℕ → Outcome ℕ
  | 0, current => if current < finish then .error .diverges else .ok 0
  | left + 1, current =>
    if current < finish then
      match firstPresent memory d current pages 0 with
      | none => .ok current
      | some count =>
        findFreeFrom memory d finish pages left
          (add32 (add32 current (count * PAGE_SIZE)) PAGE_SIZE)
    else .ok 0

def pageFindFree (memory : ℕ → ℕ) (d : PageDirectory) (start finish pages : ℕ) : Outcome ℕ :=
  findFreeFrom memory d finish pages (2 ^ 20) (start / PAGE_SIZE * PAGE_SIZE)

/-- The answer is the address mapped, 0 if there is no room. -/
def pageProvide (memory : ℕ → ℕ) (tables : ℕ → Option ℕ) (d : PageDirectory)
    (physical start finish pages type : ℕ) : Outcome (PageDirectory × ℕ) := do
  let location ← pageFindFree memory d start finish pages
  if location = 0 then .ok (d, 0)
  else do
    let d ← pageDirectMap tables d physical location pages type
    .ok (d, location)

/-- A step of `page_release`. -/
def clearEntry (memory : ℕ → ℕ) (d : PageDirectory) (address : ℕ) : Outcome PageDirectory :=
  if pageEntryPresent memory d address then d.setEntry address 0 else .ok d

/-- The loop of `page_release`. -/
def releaseFrom (memory : ℕ → ℕ) : ℕ → ℕ → PageDirectory → Outcome PageDirectory
  | 0, _, d => .ok d
  | left + 1, index, d => do
    let d ← clearEntry memory d index
    releaseFrom memory left (add32 index PAGE_SIZE) d

def pageRelease (memory : ℕ → ℕ) (d : PageDirectory) (start : ℕ) (pages : ℤ) :
    Outcome PageDirectory :=
  releaseFrom memory pages.toNat start d

/-- The physical address that the processor uses for a virtual one. -/
def translate (d : PageDirectory) (address : ℕ) : Option ℕ :=
  match d.pde (pageTableOf address) with
  | .absent => none
  | .large => some address
  | .table t =>
    if present (t.entry (pageEntryOf address)) then
      some (frameOf (t.entry (pageEntryOf address)) + address % PAGE_SIZE)
    else none

end Racoon.Paging
