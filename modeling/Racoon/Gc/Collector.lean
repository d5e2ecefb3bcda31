import Racoon.Ds.Family
import Racoon.Ds.RwlockCalls
import Racoon.Processes.Identifiers
import Racoon.Scheduler.ThreadState

/-!
# The garbage collector

`gc.c` with `checkout_process`, `commit_process`, `release_processes`,
`remove_process` and `delete_thread`, as far as they read and write processes,
threads and locks. The hash tables hold the addresses of their objects; a look-up
compares what is at an address with a sample, which stands in the table as the
address `none`. Ports, stacks and pages that go with a thread, and what else is
freed with a process, are left out: the model goes on where giving them back
would halt the kernel.

The collector waits for the threads of a process in rounds. What the other
threads do between two rounds is a function of the round and the kernel.
-/

namespace Racoon.Gc
open Families HashTables RwLocks
open Identifiers (ProcessKey ptableCompare)
open Ipc (ThreadKey threadsCompare)
open Scheduler (Cpus setThreadState THREAD_RUNNING THREAD_DORMANT)

def THREAD_FINISHED : ℕ := 8
def THREAD_IRQ : ℕ := 10
def PROCESS_FINISHING : ℤ := 4

structure Thread where
  key : ThreadKey
  process : Option ℕ

structure Process where
  key : ProcessKey
  lock : Rwlock
  state : ℤ
  threads : Option ℕ
  threadsHtable : Counted (Option ℕ)
  threadCount : ℤ
  kernelThreads : ℕ

/-- The static variables of `process.c`, the objects by address, and the schedulers, which know
the states of the threads. -/
structure Kernel where
  processLock : Rwlock
  processTable : Counted (Option ℕ)
  processes : ℕ → Option Process
  processTree : Kin
  threads : ℕ → Option Thread
  threadTree : Kin
  cpus : Cpus ℕ

/-- The CPU and the thread of the collector, the answers of `kmalloc` to the hash tables, and a
bound on the rounds of its loops. -/
structure Setting where
  here : ℕ
  current : Option ℕ
  kmalloc : ℕ → ℕ → Bool
  bound : ℕ

def Kernel.setProcess (k : Kernel) (a : ℕ) (p : Process) : Kernel :=
  { k with processes := Function.update k.processes a (some p) }

def Kernel.processKey (k : Kernel) (temp : ProcessKey) : Option ℕ → ProcessKey
  | none => temp
  | some a => ((k.processes a).map Process.key).getD temp

def Kernel.threadKey (k : Kernel) (temp : ThreadKey) : Option ℕ → ThreadKey
  | none => temp
  | some a => ((k.threads a).map Thread.key).getD temp

/-- `l_processTable` with its key and compare functions, which read the objects. -/
def Kernel.processHtable (k : Kernel) (temp : ProcessKey) : HashTable (Option ℕ) :=
  { k.processTable.table with
    key := fun p => ptableKey (k.processKey temp p).pid
    compare := fun a b => ptableCompare (k.processKey temp a) (k.processKey temp b) }

def Kernel.threadsHtable (k : Kernel) (t : HashTable (Option ℕ)) (temp : ThreadKey) :
    HashTable (Option ℕ) :=
  { t with
    key := fun p => threadsKey (k.threadKey temp p).tid
    compare := fun a b => threadsCompare (k.threadKey temp a) (k.threadKey temp b) }

/-- `htable_retrieve( l_processTable, &temp )` -/
def Kernel.findProcess (k : Kernel) (pid : ℤ) : Outcome (Option ℕ) := do
  let r ← htableRetrieve (k.processHtable ⟨pid, fun _ => 0⟩) none
  .ok r.join

def getThread (k : Kernel) (proc : Process) (tid : ℤ) : Outcome (Option ℕ) := do
  let r ← htableRetrieve (k.threadsHtable proc.threadsHtable.table ⟨fun _ => 0, tid⟩) none
  .ok r.join

def checkoutProcess (k : Kernel) (pid : ℤ) (flags : Role) : Outcome (Kernel × Option ℕ) := do
  let processLock ← rwlockGetReadAccess k.processLock
  let k := { k with processLock := processLock }
  match ← k.findProcess pid with
  | none => .ok ({ k with processLock := rwlockRelease k.processLock }, none)
  | some a => do
    let p ← deref (k.processes a)
    let lock ← rwlockGet flags p.lock
    .ok (k.setProcess a { p with lock := lock }, some a)

def releaseProcesses (k : Kernel) : Kernel :=
  { k with processLock := rwlockRelease k.processLock }

def commitProcess (k : Kernel) (a : ℕ) : Outcome Kernel := do
  let p ← deref (k.processes a)
  .ok (releaseProcesses (k.setProcess a { p with lock := rwlockRelease p.lock }))

/-- The children of a thread without a parent become its siblings. -/
def orphanFrom (tr : ℕ) : ℕ → Kin → Outcome Kin
  | 0, _ => .error .diverges
  | left + 1, h => do
    let x ← load h (some tr)
    match x.child with
    | none => .ok h
    | some child => do
      let h ← familyRemove h child
      let h ← familyAddSibling h tr child
      orphanFrom tr left h

/-- The thread out of the trees and the list; with it the next sibling it had. -/
def untie (bound : ℕ) (h : Kin) (tr : ℕ) : Outcome (Kin × Option ℕ) := do
  let x ← load h (some tr)
  let h ← match x.parent with
    | some parent => familyAdopt bound h parent tr
    | none => orphanFrom tr bound h
  let x ← load h (some tr)
  let next := x.siblingNext
  let h ← familyRemove h tr
  let h ← listRemove h tr
  .ok (h, next)

def deleteThread (g : Setting) (k : Kernel) (tr : ℕ) : Outcome (Kernel × ℤ) := do
  let t ← deref (k.threads tr)
  assert (t.process ≠ none)
  let a ← deref t.process
  let p ← deref (k.processes a)
  let table := k.threadsHtable p.threadsHtable.table t.key
  let (table, rc) ← htableRemove g.kmalloc ⟨table, p.threadsHtable.requests⟩ (some tr)
  assert (rc = 0)
  let (tree, next) ← untie g.bound k.threadTree tr
  let x ← load tree (some tr)
  assert (p.threads = some tr → x.siblingPrev = none)
  let p := { p with
    threadCount := p.threadCount - 1
    threadsHtable := table
    threads := if p.threads = some tr then next else p.threads }
  .ok ({ k.setProcess a p with
    threads := Function.update k.threads tr none
    threadTree := Function.update tree tr none }, 0)

def gcDoThread (g : Setting) (k : Kernel) (pid tid : ℤ) : Outcome (Kernel × ℤ) := do
  let (k, proc) ← checkoutProcess k pid .writer
  match proc with
  | none => .ok (k, -1)
  | some a => do
    let p ← deref (k.processes a)
    match ← getThread k p tid with
    | none => .ok (k, -1)
    | some tr => do
      assert ((k.cpus.threads tr).state = THREAD_FINISHED)
      assert ((k.cpus.threads tr).state ≠ THREAD_IRQ)
      let (k, rc) ← deleteThread g k tr
      assert (rc = 0)
      let k ← commitProcess k a
      .ok (k, 0)

def setState (g : Setting) (k : Kernel) (tr state : ℕ) : Outcome Kernel := do
  let cpus ← setThreadState g.here g.current k.cpus tr state
  .ok { k with cpus := cpus }

/-- `if ( tr->state == THREAD_DORMANT ) set_thread_state( tr, THREAD_RUNNING );` -/
def rouse (g : Setting) (k : Kernel) (tr : ℕ) : Outcome Kernel :=
  if (k.cpus.threads tr).state = THREAD_DORMANT then setState g k tr THREAD_RUNNING else .ok k

/-- The loop of `gc_do_process` over the threads of a process that is not left yet. -/
def rouseFrom (g : Setting) : ℕ → Kernel → Option ℕ → Outcome Kernel
  | _, k, none => .ok k
  | 0, _, some _ => .error .diverges
  | left + 1, k, some tr => do
    assert ((k.cpus.threads tr).state ≠ THREAD_IRQ)
    let k ← rouse g k tr
    let x ← load k.threadTree (some tr)
    rouseFrom g left k x.next

/-- The first loop of `gc_do_process`, which ends with the process checked out or gone. -/
def awaitThreads (g : Setting) (others : ℕ → Kernel → Kernel) (pid : ℤ) :
    ℕ → ℕ → Kernel → Outcome (Kernel × Option ℕ)
  | 0, _, _ => .error .diverges
  | left + 1, round, k => do
    let (k, proc) ← checkoutProcess k pid .writer
    match proc with
    | none => .ok (k, none)
    | some a => do
      let p ← deref (k.processes a)
      assert (p.state = PROCESS_FINISHING)
      if p.kernelThreads = 0 then .ok (k, some a)
      else do
        let k ← rouseFrom g g.bound k p.threads
        let k ← commitProcess k a
        awaitThreads g others pid left (round + 1) (others round k)

/-- `while ( proc->threads != NULL )` -/
def deleteThreads (g : Setting) (a : ℕ) : ℕ → Kernel → Outcome Kernel
  | 0, _ => .error .diverges
  | left + 1, k => do
    let p ← deref (k.processes a)
    match p.threads with
    | none => .ok k
    | some tr => do
      let k ← setState g k tr THREAD_FINISHED
      let (k, rc) ← deleteThread g k tr
      assert (rc = 0)
      deleteThreads g a left k

def removeProcess (g : Setting) (k : Kernel) (a : ℕ) : Outcome Kernel := do
  let processLock ← rwlockGetWriteAccess k.processLock
  let x ← load k.processTree (some a)
  assert (x.parent ≠ none)
  let parent ← deref x.parent
  let tree ← familyAdopt g.bound k.processTree parent a
  let tree ← familyRemove tree a
  let tree ← listRemove tree a
  let p ← deref (k.processes a)
  let (table, _) ← htableRemove g.kmalloc
    ⟨k.processHtable p.key, k.processTable.requests⟩ (some a)
  .ok { k with
    processLock := rwlockRelease processLock
    processTree := tree
    processTable := table }

/-- `delete_process`: the process and its lock are freed. -/
def deleteProcess (k : Kernel) (a : ℕ) : Outcome Kernel := do
  let _ ← deref (k.processes a)
  .ok { k with
    processes := Function.update k.processes a none
    processTree := Function.update k.processTree a none }

def gcDoProcess (g : Setting) (others : ℕ → Kernel → Kernel) (k : Kernel) (pid : ℤ) :
    Outcome (Kernel × ℤ) := do
  let (k, proc) ← awaitThreads g others pid g.bound 0 k
  match proc with
  | none => .ok (k, -1)
  | some a => do
    let k ← deleteThreads g a g.bound k
    let k ← removeProcess g (releaseProcesses k) a
    let k ← deleteProcess k a
    .ok (k, 0)

/-- What `gc` does with an entry of its queue. -/
def gcDestroy (g : Setting) (others : ℕ → Kernel → Kernel) (k : Kernel) (pid tid : ℤ) :
    Outcome (Kernel × ℤ) :=
  if tid < 0 then gcDoProcess g others k pid else gcDoThread g k pid tid

end Racoon.Gc
