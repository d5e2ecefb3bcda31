import Racoon.Ds.Forests
import Racoon.Gc.Collector
import Racoon.Lib.Run

/-!
# The threads of a process

`new_thread` and `delete_thread`, as far as they tie threads together. A process
knows its first thread, from which the list of all of them is walked. A new thread
is put behind the first one in the list; when the first one goes, its place is taken
by the sibling behind it in the tree, which need not be the next in the list.

The id of a new thread, which `next_tid` chooses, and what `kmalloc` answers are
inputs of a call. Stacks and pages are left out.
-/

namespace Racoon.Threads
open Lib Families Gc HashTables
open Ipc (ThreadKey)
open Scheduler (THREAD_SUSPENDED)

/-- A thread that is not the first of its process goes into the tree. -/
def joinFamily (h : Kin) (head : ℕ) (parent : Option ℕ) (tr : ℕ) : Outcome Kin :=
  match parent with
  | none => familyAddSibling h head tr
  | some parent => familyAddChild h parent tr

/-- With the tree and the list the first thread of the process. -/
def tie (h : Kin) (head parent : Option ℕ) (tr : ℕ) : Outcome (Kin × Option ℕ) :=
  match head with
  | none => .ok (h, some tr)
  | some head => do
    let h ← joinFamily h head parent tr
    let h ← listInsertAfter h head tr
    .ok (h, some head)

/-- The thread gets the address that `kmalloc` returned, if it did. -/
def newThread (g : Setting) (k : Kernel) (a : ℕ) (parent : Option ℕ) (key : ThreadKey)
    (address : Option ℕ) : Outcome (Kernel × ℤ) :=
  match address with
  | none => .ok (k, -1)
  | some tr => do
    let t := { k.cpus.threads tr with
      state := THREAD_SUSPENDED, duration := 0, cpu := -1, tid := key.tid, cpuAffinity := -1 }
    let k := { k with
      threads := Function.update k.threads tr (some ⟨key, some a⟩)
      cpus := k.cpus.setThread tr t }
    let p ← deref (k.processes a)
    let (tree, threads) ← tie (Function.update k.threadTree tr (some untied)) p.threads parent tr
    let table := k.threadsHtable p.threadsHtable.table key
    let (table, _) ← htableInsert g.kmalloc ⟨table, p.threadsHtable.requests⟩ (some tr)
    let p := { p with
      threads := threads
      threadsHtable := table
      threadCount := p.threadCount + 1 }
    .ok ({ k.setProcess a p with threadTree := tree }, key.tid)

/-- The threads of the process `a`. -/
def Live (k : Kernel) (a x : ℕ) : Prop := ∃ t, k.threads x = some t ∧ t.process = some a

/-- The walk over `NEXT_LINEAR` from a thread on. -/
def Walk (h : Kin) : Option ℕ → List ℕ → Prop
  | p, [] => p = none
  | p, x :: xs => p = some x ∧ ∃ v, h x = some v ∧ Walk h v.next xs

/-- The walk over the threads of the process `a` is `l`. -/
structure Visits (k : Kernel) (a : ℕ) (p : Process) (l : List ℕ) : Prop where
  process : k.processes a = some p
  walk : Walk k.threadTree p.threads l
  once : l.Nodup
  live : ∀ x, x ∈ l ↔ Live k a x
  table : Slots.contents p.threadsHtable.table.table p.threadsHtable.table.size =
    (l.map some : List (Option ℕ))
  count : p.threadCount = l.length
  null : p.threads = none ↔ ∀ x, ¬ Live k a x

def AllVisited (k : Kernel) (a : ℕ) : Prop := ∃ p l, Visits k a p l

inductive Call
  | newThread (parent : Option ℕ) (key : ThreadKey) (address : Option ℕ)
  | deleteThread (tr : ℕ)

def Call.exec (g : Setting) (k : Kernel) (a : ℕ) : Call → Outcome (Kernel × ℤ)
  | .newThread parent key address => Threads.newThread g k a parent key address
  | .deleteThread tr => Gc.deleteThread g k tr

def Call.Permitted (k : Kernel) (a : ℕ) : Call → Prop
  | .newThread parent _ address =>
    (∀ x, parent = some x → Live k a x) ∧ ∀ x, address = some x → k.threads x = none
  | .deleteThread tr => Live k a tr

/-- The last of the siblings from a node on. -/
inductive LastSibling (h : Kin) : ℕ → ℕ → Prop
  | last {x : ℕ} : via Ties.siblingNext h x = none → LastSibling h x x
  | next {x y z : ℕ} : via Ties.siblingNext h x = some y → LastSibling h y z → LastSibling h x z

/-- The first thread of a process has this one behind it in the tree when its children have become
its siblings: the last of them, if there are any. -/
def Heir (h : Kin) (tr y : ℕ) : Prop :=
  match via Ties.child h tr with
  | none => via Ties.siblingNext h tr = some y
  | some child => LastSibling h child y

/-- The table has a free slot for a new thread, and behind the first thread in the list, when that
one goes, is its heir. -/
def Call.Orderly (k : Kernel) (a : ℕ) : Call → Prop
  | .newThread _ _ none => True
  | .newThread _ _ (some _) => ∀ p, k.processes a = some p →
    p.threadsHtable.table.total ≠ p.threadsHtable.table.size
  | .deleteThread tr => ∀ p, k.processes a = some p → p.threads = some tr →
    ∀ y, via Ties.next k.threadTree tr = some y → Heir k.threadTree tr y

/-- What `new_process` leaves of a process, with no thread in it. -/
structure Started (k : Kernel) (a : ℕ) (p : Process) : Prop where
  process : k.processes a = some p
  threads : p.threads = none
  table : ∃ key compare, p.threadsHtable.table = initHtable 128 75 key compare
  count : p.threadCount = 0
  none_live : ∀ x, ¬ Live k a x

/-- The kernel has less than `2 ^ 32` bytes for the slots of a table. -/
def Bounded (g : Setting) : Prop := ∀ n slots, g.kmalloc n slots = true → slots < 2 ^ 30

/-- Any run of the two functions for the process `a`. -/
def threadSystem (a : ℕ) : System Kernel (Setting × Call) Fault where
  Init k := ∃ p, Started k a p
  Guard k i := Bounded i.1 ∧ i.2.Permitted k a
  step k i := do
    let (k, _) ← i.2.exec i.1 k a
    .ok k

end Racoon.Threads
