import Racoon.Ds.ListLinks
import Racoon.Gc.FamilyTrees
import Racoon.Lib.Lineage
import Racoon.Processes.Listing

/-!
# The table of processes

`processes/process.c`: the hash table by pid, the linear list from `l_rootProcess`
on and the family tree. `new_process` makes a process that is in none of them,
`insert_process` puts it behind the first process of the list and below its parent
in the tree, and `gc_do_process` takes it out of all three.

Beside it stands what they are for: the processes in the order of the list, each
with the pid of its parent.
-/

namespace Racoon.ProcessTable
open Lib Families Gc HashTables RwLocks Strings
open Identifiers (ProcessKey)
open Listing (SMK_NAME_LENGTH foreachAccess)

def PROCESS_INIT : ℤ := 1

/-- The kernel with `l_rootProcess`. -/
structure Processes where
  kernel : Kernel
  root : Option ℕ

/-- `init_htable( 128, 75, .. )`; the key and compare functions come with each call. -/
def emptyHtable : Counted (Option ℕ) := ⟨initHtable 128 75 (fun _ => 0) fun _ _ => 0, 0⟩

def initProcesses (k : Kernel) : Processes :=
  ⟨{ k with processTable := emptyHtable, processLock := initRwlock }, none⟩

/-- `kmalloc` has returned `a`, with `old` in the place of the name, and `next_pid` has returned
`pid`. -/
def newProcess (k : Kernel) (a : ℕ) (pid : ℤ) (name old : CString) : Kernel :=
  { k.setProcess a
    { key := ⟨pid, kstrncpy old name SMK_NAME_LENGTH⟩
      lock := initRwlock
      state := PROCESS_INIT
      threads := none
      threadsHtable := emptyHtable
      threadCount := 0
      kernelThreads := 0 } with
    processTree := Function.update k.processTree a (some untied) }

def insertProcess (g : Setting) (s : Processes) (pid : ℤ) (proc : ℕ) :
    Outcome (Processes × ℤ) := do
  let k := s.kernel
  match s.root with
  | none => do
    let p ← deref (k.processes proc)
    let (table, _) ← htableInsert g.kmalloc
      ⟨k.processHtable p.key, k.processTable.requests⟩ (some proc)
    .ok (⟨{ k with processTable := table }, some proc⟩, p.key.pid)
  | some root => do
    assert (0 ≤ pid)
    let processLock ← rwlockGetWriteAccess k.processLock
    let parent ← k.findProcess pid
    assert (parent ≠ none)
    let parent ← deref parent
    let tree ← familyAddChild k.processTree parent proc
    let tree ← listInsertAfter tree root proc
    let p ← deref (k.processes proc)
    let (table, _) ← htableInsert g.kmalloc
      ⟨k.processHtable p.key, k.processTable.requests⟩ (some proc)
    .ok (⟨{ k with
      processLock := rwlockRelease processLock
      processTree := tree
      processTable := table }, some root⟩, p.key.pid)

/-- The loop of `find_process`, with a bound on the processes. -/
def findFrom (k : Kernel) (name : CString) : ℕ → Option ℕ → Outcome ℤ
  | _, none => .ok (-1)
  | 0, some _ => .error .diverges
  | left + 1, some a => do
    let p ← deref (k.processes a)
    if kstrncmp name p.key.name SMK_NAME_LENGTH = 0 then .ok p.key.pid
    else do
      let x ← load k.processTree (some a)
      findFrom k name left x.next

def findProcess (bound : ℕ) (s : Processes) (name : CString) : Outcome (Processes × ℤ) := do
  let processLock ← rwlockGetReadAccess s.kernel.processLock
  let pid ← findFrom s.kernel name bound s.root
  .ok (⟨{ s.kernel with processLock := rwlockRelease processLock }, s.root⟩, pid)

section Foreach
variable {σ : Type}

/-- The loop of `process_foreach`, with a bound on the processes. -/
def foreachFrom (callback : σ → Gc.Process → Outcome (ℤ × σ)) (k : Kernel) :
    ℕ → Option ℕ → ℤ → σ → Outcome (ℤ × σ)
  | _, none, ans, x => .ok (ans, x)
  | 0, some _, _, _ => .error .diverges
  | left + 1, some a, _, x => do
    let p ← deref (k.processes a)
    let (ans, x) ← callback x p
    if ans ≠ 0 then .ok (ans, x)
    else do
      let v ← load k.processTree (some a)
      foreachFrom callback k left v.next ans x

def processForeach (bound : ℕ) (callback : σ → Gc.Process → Outcome (ℤ × σ)) (flags : ℕ)
    (s : Processes) (x : σ) : Outcome (Processes × ℤ × σ) := do
  let processLock ← foreachAccess flags s.kernel.processLock
  let (ans, x) ← foreachFrom callback s.kernel bound s.root 0 x
  .ok (⟨{ s.kernel with processLock := rwlockRelease processLock }, s.root⟩, ans, x)

end Foreach

inductive Call
  | newProcess (a : ℕ) (pid : ℤ) (name old : CString)
  | insertProcess (parent : ℤ) (a : ℕ)
  | gcDoProcess (pid : ℤ)
  /-- The rest of the kernel comes to this. -/
  | work (k : Kernel)

def Call.exec (g : Setting) (s : Processes) : Call → Outcome Processes
  | .newProcess a pid name old =>
    .ok { s with kernel := ProcessTable.newProcess s.kernel a pid name old }
  | .insertProcess parent a => do
    let (s, _) ← ProcessTable.insertProcess g s parent a
    .ok s
  | .gcDoProcess pid => do
    let (k, _) ← Gc.gcDoProcess g (fun _ k => k) s.kernel pid
    .ok { s with kernel := k }
  | .work k => .ok { s with kernel := k }

/-- The hash table has the process at `a`. -/
def InTable (k : Kernel) (a : ℕ) : Prop :=
  some a ∈ Slots.contents k.processTable.table.table k.processTable.table.size

instance (k : Kernel) (a : ℕ) : Decidable (InTable k a) :=
  inferInstanceAs (Decidable (some a ∈ Slots.contents _ _))

/-- The products of pids and 100 that a table of `2 ^ 30` slots can be probed with. -/
def Fits (pid : ℤ) : Prop := 0 ≤ pid ∧ pid * 100 ≤ 2 ^ 30

/-- What is left of a kernel by code that is not about the table of processes. -/
structure SameTable (k k' : Kernel) : Prop where
  tree : k'.processTree = k.processTree
  table : k'.processTable = k.processTable
  lock : k'.processLock = k.processLock
  keys : ∀ a, (k'.processes a).map Gc.Process.key = (k.processes a).map Gc.Process.key

/-- A pid is not given twice; the parent of a process is in the table, which has room for one more;
a process goes when its threads have left the kernel and can be deleted, and the first one stays. -/
def Call.Guard (g : Setting) (s : Processes) : Call → Prop
  | .newProcess a pid _ _ => s.kernel.processes a = none ∧ Fits pid
  | .insertProcess parent a => ¬ InTable s.kernel a ∧ (∀ n m, g.kmalloc n m = true → m ≤ 2 ^ 30) ∧
    s.kernel.processTable.table.total ≠ s.kernel.processTable.table.size ∧
    (∃ p, s.kernel.processes a = some p ∧ ∀ b q, InTable s.kernel b →
      s.kernel.processes b = some q → q.key.pid ≠ p.key.pid) ∧
    (s.root ≠ none → Fits parent ∧ ∃ b q, InTable s.kernel b ∧ s.kernel.processes b = some q ∧
      q.key.pid = parent)
  | .gcDoProcess pid => Fits pid ∧ (∀ n m, g.kmalloc n m = true → m ≤ 2 ^ 30) ∧
    s.kernel.processTable.table.total < g.bound ∧
    ∀ a p, InTable s.kernel a → s.kernel.processes a = some p → p.key.pid = pid →
      s.root ≠ some a ∧ p.state = PROCESS_FINISHING ∧ p.kernelThreads = 0 ∧
      p.lock.numReaders = 0 ∧ p.lock.numWriters = 0 ∧
      ∀ k, checkoutProcess s.kernel pid .writer = .ok (k, some a) →
        ∃ k', deleteThreads g a g.bound k = .ok k'
  | .work k => SameTable s.kernel k

/-- Any run of the calls, from `init_processes` on. -/
def processSystem : System Processes (Setting × Call) Fault where
  Init s := ∃ k, s = initProcesses k ∧ (∀ a, k.processes a = none) ∧ ∀ a, k.processTree a = none
  Guard s i := i.2.Guard i.1 s
  step s i := i.2.exec i.1 s

/-! ### What the table is for -/

/-- The processes of the list, and the ones made that are not yet in it, by address. -/
structure Registry where
  listed : List (Member ℤ CString)
  made : ℕ → Option ProcessKey

def Call.Spec (r : Registry) (i : Setting × Call) (r' : Registry) : Prop :=
  match i.2 with
  | .newProcess a pid name old =>
    r' = { r with made :=
      Function.update r.made a (some ⟨pid, kstrncpy old name SMK_NAME_LENGTH⟩) }
  | .insertProcess parent a => ∃ key, r.made a = some key ∧
    r' = ⟨Lineage.enlist parent key.pid key.name r.listed, Function.update r.made a none⟩
  | .gcDoProcess pid => r' = { r with listed := Lineage.delist pid r.listed }
  | .work _ => r' = r

end Racoon.ProcessTable
