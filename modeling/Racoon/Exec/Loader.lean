import Racoon.Lib.Bytes
import Racoon.Ualloc.UserMemory

/-!
# Loading a program

`exec_memory_region` of `kernel/exec.c` makes a process of an ELF image in memory:
each loadable segment gets its pages by `user_ensure` and its bytes by `page_copy_in`,
and then the first thread gets a stack. The kernel has the memory below 2 GB at its
physical addresses, so that `page_copy_in` writes to the frame of a page through its
address. It does not look whether the page is present; the frame is then the one at 0,
where the kernel keeps nothing. Where even the table is missing what it follows is
`NULL`.

The process table, the locks and the environment are in the heap of the kernel, which
is left out together with what a call of it answers, except for what `kmalloc` does.
-/

namespace Racoon.Exec
open Lib Paging
open PhysicalMemory (memoryAlloc)
open Sharing (sK_BASE sK_CEILING)
open Ualloc (State userEnsure)

def sK_PAGES_THREAD : ℕ := 10
def sK_PAGES_KERNEL : ℕ := 2

/-- What is read of a program header. -/
structure Phdr where
  pType : ℕ
  pOffset : ℕ
  pVaddr : ℕ
  pFilesz : ℕ
  pMemsz : ℕ

def ePhoff (m : Bytes) (start : ℕ) : ℕ := Bytes.read 4 m (start + 28)

def ePhentsize (m : Bytes) (start : ℕ) : ℕ := Bytes.read 2 m (start + 42)

def ePhnum (m : Bytes) (start : ℕ) : ℕ := Bytes.read 2 m (start + 44)

/-- `0x7f`, and then `"ELF"` -/
def validElf (m : Bytes) (start : ℕ) : Bool :=
  m start = 0x7f ∧ m (start + 1) = 69 ∧ m (start + 2) = 76 ∧ m (start + 3) = 70

def phdrAt (m : Bytes) (a : ℕ) : Phdr where
  pType := Bytes.read 4 m a
  pOffset := Bytes.read 4 m (a + 4)
  pVaddr := Bytes.read 4 m (a + 8)
  pFilesz := Bytes.read 4 m (a + 16)
  pMemsz := Bytes.read 4 m (a + 20)

/-- The program header `i` of the image at `start`. -/
def phdr (m : Bytes) (start i : ℕ) : Phdr :=
  phdrAt m (add32 (add32 start (ePhoff m start)) (ePhentsize m start * i))

/-- The macro `page_entry`. -/
def pageEntry (d : PageDirectory) (address : ℕ) : Outcome ℕ :=
  match d.pde (pageTableOf address) with
  | .table t => .ok (frameOf (t.entry (pageEntryOf address)))
  | _ => .error .badAccess

/-- `d[0] = b` for an address `d` that is physical. -/
def storeByte (m : Bytes) (a : ℕ) (b : UInt8) : Outcome Bytes :=
  if a < 512 * 2 ^ 22 then .ok (Function.update m a b) else .error .badAccess

/-- The loop of `page_copy_in`. -/
def copyFrom (d : PageDirectory) (dest src : ℕ) : ℕ → ℕ → Bytes → Outcome Bytes
  | 0, _, m => .ok m
  | left + 1, i, m => do
    let found ← pageEntry d (add32 dest i)
    let m ← storeByte m (found + add32 dest i % PAGE_SIZE) (m (add32 src i))
    copyFrom d dest src left (i + 1) m

def pageCopyIn (d : PageDirectory) (m : Bytes) (dest src : ℕ) (bytes : ℤ) :
    Outcome (Bytes × ℤ) := do
  let m ← copyFrom d dest src bytes.toNat 0 m
  .ok (m, bytes)

/-- The pages that `exec_map_in` asks for. -/
def pageCount (size : ℕ) : ℕ := size / PAGE_SIZE + if size % PAGE_SIZE = 0 then 0 else 1

/-- There is no answer where the C function returns an error. -/
def execMapIn (s : State) (m : Bytes) (kmalloc : ℕ → Option ℕ) (memory : ℕ → ℕ)
    (source destination size copy : ℕ) : Outcome (Option (State × Bytes)) := do
  assert (pageCount size ≠ 0 ∧ copy ≠ 0)
  let (s, rc) ← userEnsure s kmalloc memory destination (pageCount size)
  if rc ≠ 0 then .ok none
  else do
    let (m, copied) ← pageCopyIn s.map m destination source (int32 copy)
    if asSize copied ≠ copy then .ok none else .ok (some (s, m))

def PT_LOAD : ℕ := 1

def Phdr.Loadable (ph : Phdr) : Prop := ph.pType = PT_LOAD ∧ ph.pMemsz ≠ 0

instance (ph : Phdr) : Decidable ph.Loadable := inferInstanceAs (Decidable (_ ∧ _))

/-- The loop over the program headers, of which there are fewer than 65536. `kmalloc` is told the
number of the header too. -/
def loadSegments (kmalloc : ℕ → ℕ → Option ℕ) (memory : ℕ → ℕ) (start : ℕ) :
    ℕ → ℕ → State → Bytes → Outcome (Option (State × Bytes))
  | 0, _, s, m => .ok (some (s, m))
  | left + 1, i, s, m =>
    if i < ePhnum m start then
      let ph := phdr m start i
      if ph.Loadable then do
        match ← execMapIn s m (kmalloc i) memory (add32 start ph.pOffset) ph.pVaddr ph.pMemsz
          ph.pFilesz with
        | none => .ok none
        | some (s, m) => loadSegments kmalloc memory start left (i + 1) s m
      else loadSegments kmalloc memory start left (i + 1) s m
    else .ok (some (s, m))

/-- What the heap of the kernel answers in a call, and whether the process is found again after it
has been inserted. -/
structure Answers where
  process : Bool
  records : ℕ → ℕ → Option ℕ
  checkout : Bool
  thread : Bool
  stack : ℕ → Option ℕ

/-- What `new_process` does to memory. -/
def newProcess (s : State) : Outcome State := do
  let (pm, frame) ← memoryAlloc s.pm 1
  if frame = 0 then .error .badAccess
  else .ok { s with pm := pm, map := newPageDirectory frame, alloc := none }

/-- What `new_thread` does to the memory of the process. No answer of a call is looked at but that
of `kmalloc`. -/
def newThread (s : State) (k : Answers) (memory : ℕ → ℕ) : Outcome State :=
  if k.thread = false then .ok s
  else do
    let stackUser ← pageFindFree memory s.map sK_BASE sK_CEILING (sK_PAGES_THREAD + 1)
    let stackUser := add32 stackUser ((sK_PAGES_THREAD + 1) * PAGE_SIZE)
    let (s, _) ← userEnsure s k.stack memory (sub32 stackUser (sK_PAGES_THREAD * PAGE_SIZE))
      sK_PAGES_THREAD
    let (pm, _) ← memoryAlloc s.pm sK_PAGES_KERNEL
    let (pm, _) ← memoryAlloc pm 1
    let (pm, _) ← memoryAlloc pm 1
    .ok { s with pm := pm }

/-- `pid` is what `next_pid` gives. -/
def execMemoryRegion (s : State) (m : Bytes) (k : Answers) (memory : ℕ → ℕ) (pid start : ℕ) :
    Outcome (Option (ℕ × State × Bytes)) :=
  if validElf m start = false then .ok none
  else if k.process = false then .ok none
  else do
    let s ← newProcess s
    match ← loadSegments k.records memory start (2 ^ 16) 0 s m with
    | none => .ok none
    | some (s, m) =>
      if k.checkout = false then .ok none
      else do
        let s ← newThread s k memory
        .ok (some (pid, s, m))

end Racoon.Exec
