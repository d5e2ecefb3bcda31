import Racoon.Lib.Bytes
import Racoon.Lib.Prefix
import Racoon.Mm.PhysmemSet

/-!
# The memory map at boot

`bootstrap_memory` looks for a place for the bitmap of the physical pages: it takes
the longest range of usable memory and trims it against each reserved range in
turn, keeping the larger side. Then it marks all pages as used, frees those inside
usable ranges, and takes back those that a reserved range or the bitmap touches.
A reserved range that covers all that is left turns the candidate inside out, and
the difference of its ends then passes the assertion about its size.

The records of the boot loader are read in memory, and they are read twice. The second
time the bitmap is in memory as well, and changes while the records are gone through.
-/

namespace Racoon.Bootstrap
open PhysicalMemory Lib

abbrev Word := Fin (2 ^ 32)

def memory_map_size : ℕ := 24
def module_size : ℕ := 16
def multiboot_info_size : ℕ := 96

/-- A `memory_map_t`, with its two 64-bit values put together. -/
structure MemoryMap where
  baseAddr : ℕ
  length : ℕ
  type : ℕ

structure Module where
  modStart : ℕ
  modEnd : ℕ
  string : ℕ

/-- Memory as the boot loader leaves it, where its record is in it, and where the kernel is. -/
structure Boot where
  memory : Bytes
  mboot : Word
  kernelStart : Word
  kernelEnd : Word

/-- A field of a record. -/
def field (m : Bytes) (record offset : ℕ) : ℕ := Bytes.read 4 m (add32 record offset)

def memoryMapAt (m : Bytes) (map i : ℕ) : MemoryMap :=
  let p := add32 map (i * memory_map_size)
  ⟨field m p 8 * 2 ^ 32 + field m p 4, field m p 16 * 2 ^ 32 + field m p 12, field m p 20⟩

def moduleAt (m : Bytes) (modules i : ℕ) : Module :=
  let p := add32 modules (i * module_size)
  ⟨field m p 0, field m p 4, field m p 8⟩

def modsCount (m : Bytes) (mboot : ℕ) : ℕ := field m mboot 20
def modsAddr (m : Bytes) (mboot : ℕ) : ℕ := field m mboot 24
def mmapLength (m : Bytes) (mboot : ℕ) : ℕ := field m mboot 44
def mmapAddr (m : Bytes) (mboot : ℕ) : ℕ := field m mboot 48

/-- The kernel's own variables hold zeros, so that a string ends somewhere. -/
def kstrlen (m : Bytes) (cs : ℕ) : ℕ := search (fun i => m (add32 cs i) = 0) id 0 (2 ^ 32)

/-- A range of addresses, its end included. -/
structure Range where
  start : ℕ
  stop : ℕ
  deriving DecidableEq

/-- The static variables of `bootstrap.c`. -/
structure Area where
  largestStart : ℕ
  largestEnd : ℕ
  memStart : ℕ
  memEnd : ℕ

def Area.extend (a : Area) (r : Range) : Area :=
  { a with
    memStart := if r.start < a.memStart then r.start else a.memStart
    memEnd := if r.stop > a.memEnd then r.stop else a.memEnd }

/-- The difference of two pointers is an `int`. -/
def callbackAdd (a : Area) (r : Range) : Area :=
  (if int32 (sub32 r.stop r.start) > int32 (sub32 a.largestEnd a.largestStart) then
    { a with largestStart := r.start, largestEnd := r.stop }
  else a).extend r

def callbackRem (a : Area) (r : Range) : Area :=
  (if r.stop ≥ a.largestStart ∧ r.start ≤ a.largestEnd then
    let leftDiff := if r.start > a.largestStart then r.start - a.largestStart else 0
    let rightDiff := if r.stop < a.largestEnd then a.largestEnd - r.stop else 0
    if leftDiff < rightDiff then { a with largestStart := add32 r.stop 1 }
    else { a with largestEnd := sub32 r.start 1 }
  else a).extend r

def callbackPhysmemAdd (pm : Physmem) (r : Range) : Outcome Physmem :=
  memorySet pm r.start (add32 r.stop 1) 0

def callbackPhysmemRem (pm : Physmem) (r : Range) : Outcome Physmem :=
  memorySet pm r.start (add32 r.stop 1) 1

def MemoryMap.usable (m : MemoryMap) : Prop := m.type = 1 ∧ m.length ≠ 0

instance (m : MemoryMap) : Decidable m.usable := inferInstanceAs (Decidable (_ ∧ _))

/-- The 64-bit addresses are cast to pointers. -/
def MemoryMap.range (m : MemoryMap) : Range :=
  ⟨m.baseAddr % 2 ^ 32, (m.baseAddr + m.length - 1) % 2 ^ 32⟩

/-- The end of the table is computed with a pointer to modules. -/
def moduleTable (modules count : ℕ) : Range :=
  ⟨modules, sub32 (add32 modules (count * module_size * module_size)) module_size⟩

/-- `mboot + sizeof(multiboot_info_t) - 1` too counts in structures. -/
def infoRange (mboot : ℕ) : Range :=
  ⟨mboot, sub32 (add32 mboot (multiboot_info_size * multiboot_info_size)) multiboot_info_size⟩

def stringRange (m : Bytes) (string : ℕ) : Range :=
  ⟨string, add32 (add32 string (kstrlen m string)) 1⟩

def Module.range (m : Module) : Range := ⟨m.modStart, m.modEnd⟩

section Parsing
variable {M : Type → Type} [Monad M] {σ : Type}

/-- The callback works on the state `σ`, and memory is what it is in that state. -/
def parseMap (memory : σ → Bytes) (callback : σ → Range → M σ) (map count : ℕ) (s : σ) : M σ :=
  (List.range count).foldlM (fun s i =>
    let m := memoryMapAt (memory s) map i
    if m.usable then callback s m.range else pure s) s

def parseModules (memory : σ → Bytes) (callback : σ → Range → M σ) (modules count : ℕ) (s : σ) :
    M σ := do
  let s ← callback s (moduleTable modules count)
  (List.range count).foldlM (fun s i => do
    let s ← callback s (stringRange (memory s) (moduleAt (memory s) modules i).string)
    callback s (moduleAt (memory s) modules i).range) s

/-- The ranges that `bootstrap_memory` takes away, the same in both passes. -/
def parseReserved (memory : σ → Bytes) (callback : σ → Range → M σ) (b : Boot) (s : σ) : M σ := do
  let s ← parseModules memory callback (modsAddr (memory s) b.mboot)
    (modsCount (memory s) b.mboot) s
  let s ← callback s (infoRange b.mboot)
  let s ← callback s ⟨0, 0xFFF⟩
  let s ← callback s ⟨0xB8000, 0xFFFFF⟩
  callback s ⟨b.kernelStart, b.kernelEnd⟩

end Parsing

/-- The bitmap in the words that memory has at its place: only the bits of pages are set in the last
one. -/
def initPhysmem (words : ℕ → BitVec BLOCK_BITS) (offset pages : ℕ) (hpages : pages ≤ 2 ^ 20) :
    Physmem where
  memoryBitmap := (List.range (pages % BLOCK_BITS)).foldl
    (fun m i => Bitmap.set m (pages / BLOCK_BITS * BLOCK_BITS + i))
    fun w => if w < pages / BLOCK_BITS then BitVec.allOnes BLOCK_BITS else words w
  memoryPages := pages
  memoryOffset := offset
  freePages := 0
  lastPage := 0
  pages_le := hpages

/-- `(size_t)( (mem_end - mem_start + 1) / PAGE_SIZE )`, with the division of `int`. -/
def pageCount (a : Area) : ℕ :=
  asSize ((int32 (int32 (sub32 a.memEnd a.memStart) + 1)).tdiv PAGE_SIZE)

def mapSize (pages : ℕ) : ℕ :=
  pages / BLOCK_BITS * 4 + if pages % BLOCK_BITS ≠ 0 then 4 else 0

/-- The number of entries of the memory map. -/
def Boot.count (b : Boot) : ℕ := mmapLength b.memory b.mboot / memory_map_size

/-- The first pass. -/
def findArea (b : Boot) : Area := Id.run do
  let memory := fun _ => b.memory
  let a ← parseMap memory (fun a r => pure (callbackAdd a r)) (mmapAddr b.memory b.mboot) b.count
    ⟨0, 0, 0, 0⟩
  parseReserved memory (fun a r => pure (callbackRem a r)) b a

/-- Memory with the bitmap in it, `size` bytes from `start` on. -/
def withBitmap (m : Bytes) (start size : ℕ) (pm : Physmem) : Bytes := fun x =>
  if sub32 x start < size then
    UInt8.ofNat ((pm.memoryBitmap (sub32 x start / 4)).toNat / 256 ^ (sub32 x start % 4))
  else m x

/-- `hpages` is for the record of the allocator: where memory goes beyond 2 GB the count can come
out negative, and is then larger. -/
def bootstrapMemory (b : Boot) (hpages : pageCount (findArea b) ≤ 2 ^ 20) : Outcome Physmem := do
  assert (mmapLength b.memory b.mboot % memory_map_size = 0)
  assert (0 < b.count)
  let a := findArea b
  let size := mapSize (pageCount a)
  assert (size ≤ add32 (sub32 a.largestEnd a.largestStart) 1)
  let words := fun w => BitVec.ofNat BLOCK_BITS (field b.memory a.largestStart (4 * w))
  let memory := withBitmap b.memory a.largestStart size
  let pm := initPhysmem words a.memStart (pageCount a) hpages
  let pm ← parseMap memory callbackPhysmemAdd (mmapAddr b.memory b.mboot) b.count pm
  let pm ← parseReserved memory callbackPhysmemRem b pm
  callbackPhysmemRem pm ⟨a.largestStart, sub32 (add32 a.largestStart size) 1⟩

end Racoon.Bootstrap
