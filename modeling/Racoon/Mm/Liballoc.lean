import Racoon.Lib.Blocks
import Racoon.Lib.Bytes
import Racoon.Machine

/-!
# The kernel heap

`mm/liballoc.c` with its hooks. A major is a block of pages, a minor a piece of
one; the headers of both stand in the memory that is managed, a major's before
everything else and a minor's before the bytes that are handed out. Two bytes
before a pointer that is handed out tell how far it was moved to be aligned.

What `liballoc_alloc` answers is given with each call, `pages` are the blocks it
has handed out and not got back, and `liballoc_free` of anything else faults.
The lock is left out: a call runs from its beginning to its end. `l_allocated`
and `l_inuse` have 64 bits and stay within the 32-bit address space, so they are
integers. The loop over the majors comes by each of them twice at most, and the
one over the minors of a major by each once.
-/

namespace Racoon.Liballoc
open Lib

def ALIGNMENT : ℕ := 4
def ALIGN_INFO : ℕ := 2
def LIBALLOC_MAGIC : ℕ := 0xc001c0de
def LIBALLOC_DEAD : ℕ := 0xdeaddead
def pageSize : ℕ := 4096
def pageCount : ℕ := 16

@[ext] structure Major where
  prev : ℕ
  next : ℕ
  pages : ℕ
  size : ℕ
  usage : ℕ
  first : ℕ
  deriving DecidableEq

@[ext] structure Minor where
  prev : ℕ
  next : ℕ
  block : ℕ
  magic : ℕ
  size : ℕ
  reqSize : ℕ
  deriving DecidableEq

def majorLayout : Layout Major where
  words := 6
  encode M := [M.prev, M.next, M.pages, M.size, M.usage, M.first]
  decode vs := ⟨vs.getD 0 0, vs.getD 1 0, vs.getD 2 0, vs.getD 3 0, vs.getD 4 0, vs.getD 5 0⟩
  length_encode _ := rfl
  decode_encode _ := rfl
  encode_decode vs h := by
    match vs, h with
    | [_, _, _, _, _, _], _ => rfl

def minorLayout : Layout Minor where
  words := 6
  encode m := [m.prev, m.next, m.block, m.magic, m.size, m.reqSize]
  decode vs := ⟨vs.getD 0 0, vs.getD 1 0, vs.getD 2 0, vs.getD 3 0, vs.getD 4 0, vs.getD 5 0⟩
  length_encode _ := rfl
  decode_encode _ := rfl
  encode_decode vs h := by
    match vs, h with
    | [_, _, _, _, _, _], _ => rfl

def sizeofMajor : ℕ := 24
def sizeofMinor : ℕ := 24

structure Heap where
  memory : Bytes
  memRoot : ℕ
  bestBet : ℕ
  allocated : ℤ
  inuse : ℤ
  warningCount : ℕ
  errorCount : ℕ
  possibleOverruns : ℕ
  pages : List Block

namespace Heap

def major (h : Heap) (a : ℕ) : Major := majorLayout.get h.memory a

def minor (h : Heap) (a : ℕ) : Minor := minorLayout.get h.memory a

def setMajor (h : Heap) (a : ℕ) (M : Major) : Heap :=
  { h with memory := majorLayout.put h.memory a M }

def setMinor (h : Heap) (a : ℕ) (m : Minor) : Heap :=
  { h with memory := minorLayout.put h.memory a m }

def modifyMajor (h : Heap) (a : ℕ) (f : Major → Major) : Heap := h.setMajor a (f (h.major a))

def modifyMinor (h : Heap) (a : ℕ) (f : Minor → Minor) : Heap := h.setMinor a (f (h.minor a))

end Heap

/-- The macro `ALIGN`: the memory with the alignment information, and the aligned pointer. -/
def align (memory : Bytes) (ptr : ℕ) : Bytes × ℕ :=
  let ptr := add32 ptr ALIGN_INFO
  let diff := ptr % ALIGNMENT
  let diff := if diff ≠ 0 then ALIGNMENT - diff else diff
  let ptr := add32 ptr diff
  (memory.write 2 (sub32 ptr ALIGN_INFO) (diff + ALIGN_INFO), ptr)

/-- The macro `UNALIGN`. -/
def unalign (memory : Bytes) (ptr : ℕ) : ℕ :=
  let diff := memory.read 2 (sub32 ptr ALIGN_INFO)
  if diff < ALIGNMENT + ALIGN_INFO then sub32 ptr diff else ptr

def allocateNewPage (liballocAlloc : List Block → ℕ → Option ℕ) (h : Heap) (size : ℕ) : Heap × ℕ :=
  let st := add32 (add32 size sizeofMajor) sizeofMinor
  let st := if st % pageSize = 0 then st / pageSize else st / pageSize + 1
  let st := if st < pageCount then pageCount else st
  match liballocAlloc h.pages st with
  | none => ({ h with warningCount := h.warningCount + 1 }, 0)
  | some maj =>
    let size := st * pageSize % 2 ^ 32
    let h := h.setMajor maj ⟨0, 0, st, size, sizeofMajor, 0⟩
    ({ h with allocated := h.allocated + size, pages := (maj, st * pageSize) :: h.pages }, maj)

/-- What the cases 2, 3, 4.1 and 4.2 do with the place they have found: a minor is linked in
between `prev` and `next`, which are `NULL` at the ends, and its memory is handed out. -/
def placeMinor (h : Heap) (maj prev next min size reqSize : ℕ) : Heap × ℕ :=
  let h := h.setMinor min ⟨prev, next, maj, LIBALLOC_MAGIC, size, reqSize⟩
  let h := if next ≠ 0 then h.modifyMinor next fun m => { m with prev := min } else h
  let h :=
    if prev ≠ 0 then h.modifyMinor prev fun m => { m with next := min }
    else h.modifyMajor maj fun M => { M with first := min }
  let h := h.modifyMajor maj fun M => { M with usage := add32 M.usage (add32 size sizeofMinor) }
  let h := { h with inuse := h.inuse + size }
  let (memory, p) := align h.memory (add32 min sizeofMinor)
  ({ h with memory := memory }, p)

/-- Case 4: the first minor with enough space behind it. The space ends at the next minor or,
behind the last one, with the block. -/
def searchMinors (h : Heap) (maj size : ℕ) : ℕ → ℕ → Outcome (Option ℕ)
  | 0, _ => .error .diverges
  | rounds + 1, min =>
    if min = 0 then .ok none
    else
      let m := h.minor min
      let stop := if m.next = 0 then add32 maj (h.major maj).size else m.next
      let diff := sub32 (sub32 (sub32 stop min) sizeofMinor) m.size
      if add32 size sizeofMinor ≤ diff then .ok (some min)
      else searchMinors h maj size rounds m.next

/-- The cases 2, 3 and 4 for one major: the pointer handed out, if there is a place. -/
def place (h : Heap) (maj size reqSize : ℕ) : Outcome (Option (Heap × ℕ)) := do
  let M := h.major maj
  let bottom := add32 maj sizeofMajor
  if M.first = 0 then .ok (some (placeMinor h maj 0 0 bottom size reqSize))
  else if add32 size sizeofMinor ≤ sub32 (sub32 M.first maj) sizeofMajor then
    .ok (some (placeMinor h maj 0 M.first bottom size reqSize))
  else
    match ← searchMinors h maj size (M.usage / sizeofMinor) M.first with
    | none => .ok none
    | some min =>
      let m := h.minor min
      .ok (some (placeMinor h maj min m.next (add32 (add32 min sizeofMinor) m.size) size reqSize))

/-- A new major behind the last one. -/
def appendMajor (liballocAlloc : List Block → ℕ → Option ℕ) (h : Heap) (maj size : ℕ) : Heap × ℕ :=
  let (h, new) := allocateNewPage liballocAlloc h size
  let h := h.modifyMajor maj fun M => { M with next := new }
  if new = 0 then (h, 0) else (h.modifyMajor new fun M => { M with prev := maj }, new)

/-- How a round over a major ends: with another major to look at, or with an answer. -/
inductive Turn
  | hop (h : Heap) (maj : ℕ) (startedBet : Bool)
  | answer (h : Heap) (p : ℕ)

section Search
variable (liballocAlloc : List Block → ℕ → Option ℕ) (size reqSize : ℕ)

/-- Case 1: a major without enough room. A new major falls through to the other cases. -/
def caseOne (h : Heap) (maj : ℕ) (startedBet : Bool) (diff : ℕ) : Except Turn (Heap × ℕ) :=
  if diff < add32 size sizeofMinor then
    if (h.major maj).next ≠ 0 then .error (.hop h (h.major maj).next startedBet)
    else if startedBet then .error (.hop h h.memRoot false)
    else
      let (h, new) := appendMajor liballocAlloc h maj size
      if new = 0 then .error (.answer h 0) else .ok (h, new)
  else .ok (h, maj)

def caseFive (h : Heap) (maj : ℕ) (startedBet : Bool) : Turn :=
  if (h.major maj).next = 0 then
    if startedBet then .hop h h.memRoot false
    else
      let (h, new) := appendMajor liballocAlloc h maj size
      if new = 0 then .answer h 0 else .hop h new startedBet
  else .hop h (h.major maj).next startedBet

def examine (h : Heap) (maj : ℕ) (startedBet : Bool) (diff : ℕ) : Outcome Turn :=
  match caseOne liballocAlloc size h maj startedBet diff with
  | .error turn => .ok turn
  | .ok (h, maj) => do
    match ← place h maj size reqSize with
    | some (h, p) => .ok (.answer h p)
    | none => .ok (caseFive liballocAlloc size h maj startedBet)

/-- The loop over the majors. -/
def searchMajors : ℕ → Heap → ℕ → Bool → ℕ → Outcome (Heap × ℕ)
  | 0, _, _, _, _ => .error .diverges
  | rounds + 1, h, maj, startedBet, bestSize =>
    if maj = 0 then .ok (h, 0)
    else do
      let diff := sub32 (h.major maj).size (h.major maj).usage
      let h := if bestSize < diff then { h with bestBet := maj } else h
      let bestSize := if bestSize < diff then diff else bestSize
      match ← examine liballocAlloc size reqSize h maj startedBet diff with
      | .answer h p => .ok (h, p)
      | .hop h maj startedBet => searchMajors rounds h maj startedBet bestSize

/-- The search for `size` bytes, from the best bet if that has the room. -/
def search (h : Heap) : Outcome (Heap × ℕ) :=
  let best := h.major h.bestBet
  let bestSize := if h.bestBet ≠ 0 then sub32 best.size best.usage else 0
  let startedBet := h.bestBet ≠ 0 ∧ add32 size sizeofMinor < bestSize
  searchMajors liballocAlloc size reqSize (2 * h.pages.length + 2) h
    (if startedBet then h.bestBet else h.memRoot) startedBet bestSize

/-- `malloc` of a size that is not 0 after the adjustment. -/
def mallocSize (h : Heap) : Outcome (Heap × ℕ) :=
  if h.memRoot = 0 then
    let (h, root) := allocateNewPage liballocAlloc h size
    let h := { h with memRoot := root }
    if root = 0 then .ok (h, 0) else search liballocAlloc size reqSize h
  else search liballocAlloc size reqSize h

end Search

def adjust (reqSize : ℕ) : ℕ := add32 reqSize (ALIGNMENT + ALIGN_INFO)

def laMalloc (liballocAlloc : List Block → ℕ → Option ℕ) (h : Heap) (reqSize : ℕ) :
    Outcome (Heap × ℕ) :=
  if adjust reqSize = 0 then
    mallocSize liballocAlloc (adjust 1) 1 { h with warningCount := h.warningCount + 1 }
  else mallocSize liballocAlloc (adjust reqSize) reqSize h

/-- A header without its magic number. -/
def reportOverrun (h : Heap) (magic : ℕ) : Heap :=
  let h := { h with errorCount := h.errorCount + 1 }
  if magic % 2 ^ 24 = LIBALLOC_MAGIC % 2 ^ 24 ∨ magic % 2 ^ 16 = LIBALLOC_MAGIC % 2 ^ 16 ∨
      magic % 2 ^ 8 = LIBALLOC_MAGIC % 2 ^ 8 then
    { h with possibleOverruns := h.possibleOverruns + 1 }
  else h

def liballocFree (h : Heap) (maj pages : ℕ) : Outcome Heap :=
  if (maj, pages * pageSize) ∈ h.pages then
    .ok { h with pages := h.pages.erase (maj, pages * pageSize) }
  else .error .badAccess

/-- A minor is unlinked, and its major keeps count. -/
def unlinkMinor (h : Heap) (min : ℕ) : Heap :=
  let m := h.minor min
  let h := { h with inuse := h.inuse - m.size }
  let h := h.modifyMajor m.block fun M =>
    { M with usage := sub32 M.usage (add32 m.size sizeofMinor) }
  let h := h.modifyMinor min fun m => { m with magic := LIBALLOC_DEAD }
  let h := if m.next ≠ 0 then h.modifyMinor m.next fun m' => { m' with prev := m.prev } else h
  let h := if m.prev ≠ 0 then h.modifyMinor m.prev fun m' => { m' with next := m.next } else h
  if m.prev = 0 then h.modifyMajor m.block fun M => { M with first := m.next } else h

/-- A major without minors goes back to `liballoc_free`. -/
def releaseMajor (h : Heap) (maj : ℕ) : Outcome Heap :=
  let M := h.major maj
  let h := if h.memRoot = maj then { h with memRoot := M.next } else h
  let h := if h.bestBet = maj then { h with bestBet := 0 } else h
  let h := if M.prev ≠ 0 then h.modifyMajor M.prev fun M' => { M' with next := M.next } else h
  let h := if M.next ≠ 0 then h.modifyMajor M.next fun M' => { M' with prev := M.prev } else h
  let h := { h with allocated := h.allocated - M.size }
  liballocFree h maj M.pages

/-- What a major has left, as `int`. -/
def room (M : Major) : ℤ := int32 (sub32 M.size M.usage)

def improveBet (h : Heap) (maj : ℕ) : Heap :=
  if h.bestBet ≠ 0 ∧ room (h.major h.bestBet) < room (h.major maj) then { h with bestBet := maj }
  else h

def laFree (h : Heap) (ptr : ℕ) : Outcome Heap :=
  if ptr = 0 then .ok { h with warningCount := h.warningCount + 1 }
  else
    let min := sub32 (unalign h.memory ptr) sizeofMinor
    let m := h.minor min
    if m.magic ≠ LIBALLOC_MAGIC then .ok (reportOverrun h m.magic)
    else
      let h := unlinkMinor h min
      if (h.major m.block).first = 0 then releaseMajor h m.block else .ok (improveBet h m.block)

/-- A copying loop, `width` bytes a round. -/
def copyBy (width : ℕ) : ℕ → Bytes → ℕ → ℕ → Bytes
  | 0, memory, _, _ => memory
  | k + 1, memory, s₁, s₂ =>
    copyBy width k (memory.write width s₁ (memory.read width s₂)) (s₁ + width) (s₂ + width)

def liballocMemcpy (memory : Bytes) (s₁ s₂ n : ℕ) : Outcome Bytes :=
  if n ≠ 0 ∧ (s₁ = 0 ∨ s₂ = 0) then .error .badAccess
  else
    let memory := copyBy 4 (n / 4) memory s₁ s₂
    .ok (copyBy 1 (n % 4) memory (s₁ + 4 * (n / 4)) (s₂ + 4 * (n / 4)))

def laRealloc (liballocAlloc : List Block → ℕ → Option ℕ) (h : Heap) (p size : ℕ) :
    Outcome (Heap × ℕ) :=
  if size = 0 then do
    let h ← laFree h p
    .ok (h, 0)
  else if p = 0 then laMalloc liballocAlloc h size
  else
    let min := sub32 (unalign h.memory p) sizeofMinor
    let m := h.minor min
    if m.magic ≠ LIBALLOC_MAGIC then .ok (reportOverrun h m.magic, 0)
    else if size ≤ m.reqSize then
      .ok (h.modifyMinor min fun m => { m with reqSize := size }, p)
    else do
      let (h, ptr) ← laMalloc liballocAlloc h size
      let memory ← liballocMemcpy h.memory ptr p m.reqSize
      let h ← laFree { h with memory := memory } p
      .ok (h, ptr)

end Racoon.Liballoc
