import Racoon.Lib.Custody
import Racoon.Paging.Access

/-!
# Address spaces

The directories of all processes and the frames of physical memory. A frame is
handed out by `memory_alloc` for a directory, a table or a page and comes back
through `memory_free`; beside these there are frames that are mapped by their
address only, of devices and of shared memory. `page_provide` stands at the address
it has found: `user_alloc` provides pages of `memory_alloc`, while `user_map` and the
shared memory map what is there.

A process that runs outside the kernel reaches a byte where its directory grants it
the page.
-/

namespace Racoon.Paging
open Lib

inductive Holder
  | free
  | outside
  | directory (p : ℕ)
  | table (p i : ℕ)
  | page (p v : ℕ)
  deriving DecidableEq

/-- `proc->map` of the processes, and what the frames are for. -/
structure Spaces where
  map : ℕ → Option PageDirectory
  holder : ℕ → Holder

def tableFrame (d : PageDirectory) (i : ℕ) : Option ℕ :=
  match d.pde i with
  | .table t => some t.frame
  | _ => none

/-- The tables of `e` that `d` has not, with their frames. -/
def newTables (p : ℕ) (d e : PageDirectory) : List (ℕ × Holder) :=
  (List.range 1024).filterMap fun i =>
    if tableFrame d i = none then (tableFrame e i).map fun f => (f, .table p i) else none

/-- The pages from `s` on that `e` has and `d` has not. -/
def newPages (p s n : ℕ) (d e : PageDirectory) : List (ℕ × Holder) :=
  ((List.range' s n).filter fun v => present (e.word v) && !present (d.word v)).map fun v =>
    (frameOf (e.word v), .page p v)

/-- A call for a process, with the words of memory that it reads and what `memory_alloc` answers. -/
inductive SpaceCall
  | newDirectory (p frame : ℕ)
  | ensure (p : ℕ) (memory : ℕ → ℕ) (tables : ℕ → Option ℕ) (frames : ℕ → ℕ)
      (start n flags : ℕ)
  | directMap (p : ℕ) (tables : ℕ → Option ℕ) (physical start n type : ℕ)
  | userAlloc (p : ℕ) (tables : ℕ → Option ℕ) (location start n : ℕ)
  | release (p : ℕ) (memory : ℕ → ℕ) (start n : ℕ)
  | userFree (p : ℕ) (memory : ℕ → ℕ) (location start n : ℕ)
  | mapOut (p : ℕ) (memory : ℕ → ℕ) (start n : ℕ)
  | delete (p cr3 : ℕ) (memory : ℕ → ℕ)

/-- The frames of a region of `n` pages. -/
def framesFrom (location n : ℕ) : List ℕ :=
  (List.range n).map fun j => frameOf (add32 location (j * PAGE_SIZE))

def Spaces.setMap (s : Spaces) (p : ℕ) (d : Option PageDirectory) (holder : ℕ → Holder) : Spaces :=
  ⟨Function.update s.map p d, holder⟩

def SpaceCall.exec (s : Spaces) : SpaceCall → Outcome Spaces
  | .newDirectory p frame =>
    .ok (s.setMap p (some (newPageDirectory frame)) (handOut s.holder [(frame, .directory p)]))
  | .ensure p memory tables frames start n flags => do
    let d ← deref (s.map p)
    let (e, _) ← pageEnsure memory tables frames d start n flags
    .ok (s.setMap p (some e)
      (handOut s.holder (newTables p d e ++ newPages p (start / PAGE_SIZE) n d e)))
  | .directMap p tables physical start n type => do
    let d ← deref (s.map p)
    let e ← pageDirectMap tables d physical start n type
    .ok (s.setMap p (some e) (handOut s.holder (newTables p d e)))
  | .userAlloc p tables location start n => do
    let d ← deref (s.map p)
    let e ← pageDirectMap tables d location start n (USER_PAGE ||| READ_WRITE)
    .ok (s.setMap p (some e)
      (handOut s.holder (newTables p d e ++ newPages p (start / PAGE_SIZE) n d e)))
  | .release p memory start n => do
    let d ← deref (s.map p)
    let e ← pageRelease memory d start n
    .ok (s.setMap p (some e) s.holder)
  | .userFree p memory location start n => do
    let d ← deref (s.map p)
    let e ← pageRelease memory d start n
    .ok (s.setMap p (some e) (takeBack .free s.holder (framesFrom location n)))
  | .mapOut p memory start n => do
    let d ← deref (s.map p)
    let (e, freed) ← pageMapOut memory d start n
    .ok (s.setMap p (some e) (takeBack .free s.holder freed))
  | .delete p cr3 memory => do
    let d ← deref (s.map p)
    let t ← deletePageDirectory cr3 memory d
    .ok (s.setMap p none (takeBack .free s.holder t.freed))

/-- A page frame that `memory_alloc` may answer. -/
def Spaces.Fresh (s : Spaces) (f : ℕ) : Prop := f ≠ 0 ∧ f % PAGE_SIZE = 0 ∧ s.holder f = .free

/-- The directory entry of one of the `n` pages from `s` on. -/
def Touched (s n i : ℕ) : Prop := ∃ v, s ≤ v ∧ v < s + n ∧ i = v / 1024

/-- `memory_alloc` has a frame of its own for each table that is missing. -/
structure TablesFresh (s : Spaces) (d : PageDirectory) (tables : ℕ → Option ℕ) (v n : ℕ) :
    Prop where
  fresh : ∀ i, Touched v n i → tableFrame d i = none → ∃ f, tables i = some f ∧ s.Fresh f
  apart : ∀ i j, Touched v n i → Touched v n j → tableFrame d i = none → tableFrame d j = none →
    tables i = tables j → i = j

/-- And one for each page. -/
structure PagesFresh (s : Spaces) (d : PageDirectory) (tables : ℕ → Option ℕ) (frames : ℕ → ℕ)
    (v n : ℕ) : Prop where
  fresh : ∀ w, v ≤ w → w < v + n → present (d.word w) = false → s.Fresh (frames w)
  apart : ∀ w x, v ≤ w → w < v + n → v ≤ x → x < v + n → present (d.word w) = false →
    present (d.word x) = false → frames w = frames x → w = x
  tables : ∀ i w, v ≤ w → w < v + n → present (d.word w) = false → tables i ≠ some (frames w)

/-- Nobody has the frame, and nobody maps it. -/
def Spaces.Unused (s : Spaces) (f : ℕ) : Prop :=
  (s.holder f = .free ∨ s.holder f = .outside) ∧
    ∀ q e v, s.map q = some e → v < 2 ^ 20 → present (e.word v) = true → frameOf (e.word v) ≠ f

/-- Pages are those of the user. What is mapped by its address is outside; a region is at pages that
were free and comes back as the region it was; what is mapped out is the process's own. The
physical pages that `delete_page_directory` frees by mistake are nobody's. -/
def SpaceCall.Guard (s : Spaces) : SpaceCall → Prop
  | .newDirectory p frame => s.map p = none ∧ s.Fresh frame
  | .ensure p _ tables frames start n _ => UserPages (start / PAGE_SIZE) n ∧
      ∀ d, s.map p = some d → TablesFresh s d tables (start / PAGE_SIZE) n ∧
        PagesFresh s d tables frames (start / PAGE_SIZE) n
  | .directMap p tables physical start n _ => UserPages (start / PAGE_SIZE) n ∧ physical < 2 ^ 32 ∧
      (∀ j < n, s.holder (frameOf (add32 physical (j * PAGE_SIZE))) = .outside) ∧
      ∀ d, s.map p = some d → TablesFresh s d tables (start / PAGE_SIZE) n
  | .userAlloc p tables location start n => UserPages (start / PAGE_SIZE) n ∧ location < 2 ^ 32 ∧
      ∀ d, s.map p = some d → TablesFresh s d tables (start / PAGE_SIZE) n ∧
        PagesFresh s d tables (fun v => add32 location ((v - start / PAGE_SIZE) * PAGE_SIZE))
          (start / PAGE_SIZE) n ∧
        ∀ v, start / PAGE_SIZE ≤ v → v < start / PAGE_SIZE + n → present (d.word v) = false
  | .release _ _ start n => UserPages (start / PAGE_SIZE) n
  | .userFree p _ location start n => UserPages (start / PAGE_SIZE) n ∧
      ∀ j < n, s.holder (frameOf (add32 location (j * PAGE_SIZE))) = .page p (start / PAGE_SIZE + j)
  | .mapOut p _ start n => UserPages (start / PAGE_SIZE) n ∧
      ∀ d, s.map p = some d → ∀ v, start / PAGE_SIZE ≤ v → v < start / PAGE_SIZE + n →
        present (d.word v) = true → s.holder (frameOf (d.word v)) = .page p v
  | .delete _ _ memory => ∀ f ∈ 0 :: lowFrames memory userEntries, s.Unused f

/-- Any processes and calls, from a machine without processes. -/
def spaceSystem : System Spaces SpaceCall Fault where
  Init s := (∀ p, s.map p = none) ∧ ∀ f, s.holder f = .free ∨ s.holder f = .outside
  Guard s c := c.Guard s
  step s c := c.exec s

/-- Where the processor goes for an address outside the kernel, if it lets the process through. -/
def userAddress (d : PageDirectory) (a : ℕ) : Option ℕ :=
  match granted d (a / PAGE_SIZE) with
  | some g => if g.user then translate d a else none
  | none => none

end Racoon.Paging
