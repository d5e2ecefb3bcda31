import Racoon.Lib.Run
import Racoon.Lib.Stack
import Racoon.Machine

/-!
# Switching between threads

`__switch_thread` and `__soft_scheduler` of `kernel/jump.S`, one instruction at a
time, with the part of `exec_thread` around them and the stack that `new_thread`
prepares. The scheduler of a CPU calls `__switch_thread` and returns from it when
`__soft_scheduler` has been entered: each of the two leaves its own registers on
its own stack and takes the other's from theirs. An interrupt of a thread in ring 3
moves to the thread's kernel stack first.
-/

namespace Racoon.Switching
open Lib

def GDT_SYSTEMCODE : ℕ := 8
def GDT_SYSTEMDATA : ℕ := 16
def GDT_USERCODE : ℕ := 24
def GDT_USERDATA : ℕ := 32
def EFLAG_BASE : ℕ := 0x2
def EFLAG_INTERRUPT : ℕ := 0x200
def sK_PAGES_KERNEL : ℕ := 2
def PAGE_SIZE : ℕ := 4096

/-- A selector is the low half of a word. -/
structure Regs where
  eax : ℕ
  ecx : ℕ
  edx : ℕ
  ebx : ℕ
  esp : ℕ
  ebp : ℕ
  esi : ℕ
  edi : ℕ
  eip : ℕ
  eflags : ℕ
  cs : BitVec 16
  ss : BitVec 16
  ds : BitVec 16
  es : BitVec 16
  fs : BitVec 16
  gs : BitVec 16

def Regs.inUser (r : Regs) : Bool := r.cs.toNat % 4 = 3

def Regs.interrupts (r : Regs) : Bool := r.eflags.testBit 9

/-- A selector of one of the two data segments, which are all of the memory. -/
def flatSelector (v : BitVec 16) : Bool :=
  v = BitVec.ofNat 16 GDT_SYSTEMDATA ∨ v = BitVec.ofNat 16 (GDT_USERDATA ||| 3)

/-- C code finds its data with these selectors. -/
def Regs.Flat (r : Regs) : Prop := flatSelector r.ds = true ∧ flatSelector r.es = true

instance (r : Regs) : Decidable r.Flat := inferInstanceAs (Decidable (_ ∧ _))

/-- The interrupt flag set to `b`. -/
def withInterrupts (b : Bool) (eflags : ℕ) : ℕ :=
  if eflags.testBit 9 = b then eflags else eflags ^^^ EFLAG_INTERRUPT

/-- A CPU in the middle of the code below; `esp0` is the field of its TSS. -/
structure Machine where
  mem : ℕ → ℕ
  regs : Regs
  schedulerStack : ℕ
  esp0 : ℕ

/-- What the C functions called from the assembly leave in the registers they may use and in
`depth` bytes below the stack pointer. -/
structure Scratch where
  ecx : ℕ
  edx : ℕ
  eflags : ℕ
  frame : ℕ → ℕ
  depth : ℕ

namespace Machine

def pushes (s : Machine) (ws : List ℕ) : Machine :=
  { s with
    mem := pushWords s.mem s.regs.esp ws
    regs := { s.regs with esp := s.regs.esp - 4 * ws.length } }

/-- The word `n` words above the stack pointer. -/
def peek (s : Machine) (n : ℕ) : ℕ := s.mem (s.regs.esp + 4 * n)

def drop (s : Machine) (n : ℕ) : Machine :=
  { s with regs := { s.regs with esp := s.regs.esp + 4 * n } }

/-- A C function has been called and has returned `eax`. -/
def called (sc : Scratch) (s : Machine) (eax : ℕ) : Machine :=
  { s with
    mem := fun a => if s.regs.esp - sc.depth ≤ a ∧ a < s.regs.esp then sc.frame a else s.mem a
    regs := { s.regs with
      eax := eax
      ecx := sc.ecx
      edx := sc.edx
      eflags := withInterrupts s.regs.interrupts sc.eflags } }

end Machine

inductive Selector
  | es | ds | fs | gs

inductive Instr
  | pusha
  | popa
  | pushlSel (r : Selector)
  | poplSel (r : Selector)
  | pushlEsp
  | poplEsp
  | addlEsp (n : ℕ)
  /-- `movl %esp, n(%eax)` -/
  | storeEsp (n : ℕ)
  /-- `movl %eax, %esp` -/
  | loadEsp
  | callSetSwitchStack
  | callGetSwitchStack
  | iret
  | ret

def Selector.get (r : Regs) : Selector → BitVec 16
  | .es => r.es
  | .ds => r.ds
  | .fs => r.fs
  | .gs => r.gs

def Selector.set (r : Regs) (v : BitVec 16) : Selector → Regs
  | .es => { r with es := v }
  | .ds => { r with ds := v }
  | .fs => { r with fs := v }
  | .gs => { r with gs := v }

/-- `iret` of the kernel: the way back to ring 3 changes the stack, the way to ring 0 does not. -/
def Machine.iret (s : Machine) : Machine :=
  let cs := BitVec.ofNat 16 (s.peek 1)
  let r := { s.regs with eip := s.peek 0, cs := cs, eflags := s.peek 2 }
  { s with regs :=
      if cs.toNat % 4 = 3 then { r with esp := s.peek 3, ss := BitVec.ofNat 16 (s.peek 4) }
      else { r with esp := s.regs.esp + 12 } }

def Instr.exec (sc : Scratch) (s : Machine) : Instr → Machine
  | .pusha =>
    let r := s.regs
    s.pushes [r.eax, r.ecx, r.edx, r.ebx, r.esp, r.ebp, r.esi, r.edi]
  | .popa =>
    { s.drop 8 with regs := { (s.drop 8).regs with
        edi := s.peek 0
        esi := s.peek 1
        ebp := s.peek 2
        ebx := s.peek 4
        edx := s.peek 5
        ecx := s.peek 6
        eax := s.peek 7 } }
  | .pushlSel r => s.pushes [(r.get s.regs).toNat]
  | .poplSel r => { s.drop 1 with regs := r.set (s.drop 1).regs (BitVec.ofNat 16 (s.peek 0)) }
  | .pushlEsp => s.pushes [s.regs.esp]
  | .poplEsp => { s with regs := { s.regs with esp := s.peek 0 } }
  | .addlEsp n => { s with regs := { s.regs with esp := s.regs.esp + n } }
  | .storeEsp n => { s with mem := Function.update s.mem (s.regs.eax + n) s.regs.esp }
  | .loadEsp => { s with regs := { s.regs with esp := s.regs.eax } }
  | .callSetSwitchStack => { s.called sc s.regs.eax with schedulerStack := s.peek 0 }
  | .callGetSwitchStack => s.called sc s.schedulerStack
  | .iret => s.iret
  | .ret => { s.drop 1 with regs := { (s.drop 1).regs with eip := s.peek 0 } }

def switchThread : List Instr :=
  [.pusha, .pushlEsp, .callSetSwitchStack, .addlEsp 0x28, .poplEsp, .popa, .poplSel .es,
    .poplSel .ds, .poplSel .fs, .poplSel .gs, .iret]

def softScheduler : List Instr :=
  [.pushlSel .gs, .pushlSel .fs, .pushlSel .ds, .pushlSel .es, .pusha, .callGetSwitchStack,
    .storeEsp 0x1C, .loadEsp, .popa, .ret]

def Machine.exec (sc : Scratch) (is : List Instr) (s : Machine) : Machine :=
  is.foldl (Instr.exec sc) s

/-- The way of an interrupt through its gate into ring 0. -/
def Machine.interrupted (s : Machine) : Machine :=
  let r := s.regs
  let outer := if r.inUser then [r.ss.toNat, r.esp] else []
  let entry := if r.inUser then
      { s with regs := { r with esp := s.esp0, ss := BitVec.ofNat 16 GDT_SYSTEMDATA } }
    else s
  let s := entry.pushes (outer ++ [r.eflags, r.cs.toNat, r.eip])
  { s with regs := { s.regs with
      cs := BitVec.ofNat 16 GDT_SYSTEMCODE
      eflags := withInterrupts false r.eflags } }

/-- The fields of `struct thread` for its stack. -/
structure Thread where
  stack : ℕ
  stackKernel : ℕ

/-- The lowest address of the kernel stack. -/
def Thread.base (t : Thread) : ℕ := t.stackKernel - sK_PAGES_KERNEL * PAGE_SIZE

/-- A CPU; its scheduler has the stack between `low` and `high`. -/
structure Cpu (τ : Type) where
  regs : Regs
  schedulerStack : ℕ
  esp0 : ℕ
  current : Option τ
  low : ℕ
  high : ℕ

structure Kernel (τ : Type) where
  mem : ℕ → ℕ
  cpu : ℕ → Cpu τ
  thread : τ → Option Thread

/-- The arguments of `new_thread` and the addresses of the stacks that it gets. -/
structure NewThread where
  type : ℕ
  stackKernel : ℕ
  stackUser : ℕ
  entry : ℕ
  data1 : ℕ
  data2 : ℕ
  data3 : ℕ
  data4 : ℕ

/-- The words that `new_thread` pushes. -/
def NewThread.words (n : NewThread) : List ℕ :=
  (if n.type = 1 then
      [GDT_SYSTEMDATA, n.stackUser, EFLAG_BASE ||| EFLAG_INTERRUPT, GDT_SYSTEMCODE]
    else [GDT_USERDATA ||| 3, n.stackUser, EFLAG_BASE ||| EFLAG_INTERRUPT, GDT_USERCODE ||| 3]) ++
  [n.entry, GDT_USERDATA ||| 3, GDT_USERDATA ||| 3, GDT_USERDATA ||| 3, GDT_USERDATA ||| 3,
    n.data1, n.data3, n.data4, n.data2, 0, 0, 0, 0]

/-- The address behind the call of `__switch_thread`. -/
def afterSwitch : ℕ := 0x1000

inductive Event (τ : Type)
  | create (t : τ) (n : NewThread)
  | delete (t : τ)
  /-- The code on a CPU, of a thread or of the scheduler, comes to this. -/
  | run (cpu : ℕ) (regs : Regs) (mem : ℕ → ℕ)
  | switch (cpu : ℕ) (t : τ) (sc : Scratch)
  | interrupt (cpu : ℕ) (t : τ) (sc : Scratch)

variable {τ : Type} [DecidableEq τ]

def Kernel.setCpu (k : Kernel τ) (i : ℕ) (c : Cpu τ) : Kernel τ :=
  { k with cpu := Function.update k.cpu i c }

def Kernel.machine (k : Kernel τ) (i : ℕ) : Machine :=
  ⟨k.mem, (k.cpu i).regs, (k.cpu i).schedulerStack, (k.cpu i).esp0⟩

/-- A C function is called, whose data another selector does not reach: a fault of the CPU. -/
def enterC (r : Regs) : Outcome Unit := if r.Flat then .ok () else .error .badAccess

/-- The part of `exec_thread` before the thread runs; the scheduler returns behind the call. -/
def execThread (k : Kernel τ) (i : ℕ) (t : τ) (sc : Scratch) : Outcome (Kernel τ) := do
  let tr ← deref (k.thread t)
  enterC (k.cpu i).regs
  let s := ({ k.machine i with esp0 := tr.stackKernel }).pushes [tr.stack, afterSwitch]
  let s := s.exec sc switchThread
  .ok ({ k with mem := s.mem }.setCpu i
    { k.cpu i with
      regs := s.regs
      schedulerStack := s.schedulerStack
      esp0 := s.esp0
      current := some t })

/-- The interrupt, and the part of `exec_thread` behind the call. `get_switch_stack` is called with
the selectors of the thread. -/
def resumeScheduler (k : Kernel τ) (i : ℕ) (t : τ) (sc : Scratch) : Outcome (Kernel τ) := do
  let tr ← deref (k.thread t)
  enterC (k.cpu i).regs
  let s := ((k.machine i).interrupted.exec sc softScheduler).drop 1
  assert (s.regs.interrupts = false)
  .ok ({ k with
      mem := s.mem
      thread := Function.update k.thread t (some { tr with stack := s.regs.eax }) }.setCpu i
    { k.cpu i with regs := s.regs, current := none })

def Event.step (k : Kernel τ) : Event τ → Outcome (Kernel τ)
  | .create t n => .ok { k with
      mem := pushWords k.mem n.stackKernel n.words
      thread := Function.update k.thread t
        (some ⟨n.stackKernel - 4 * n.words.length, n.stackKernel⟩) }
  | .delete t => .ok { k with thread := Function.update k.thread t none }
  | .run i regs mem => .ok ({ k with mem := mem }.setCpu i { k.cpu i with regs := regs })
  | .switch i t sc => execThread k i t sc
  | .interrupt i t sc => resumeScheduler k i t sc

/-- Who runs on a stack: the scheduler of a CPU, or a thread. -/
inductive Owner (τ : Type)
  | scheduler (cpu : ℕ)
  | thread (t : τ)

/-- The addresses of a stack, from the lowest to the one behind the highest. -/
def Kernel.stack (k : Kernel τ) : Owner τ → Option (ℕ × ℕ)
  | .scheduler i => some ((k.cpu i).low, (k.cpu i).high)
  | .thread t => (k.thread t).map fun tr => (tr.base, tr.stackKernel)

def Cpu.owner (c : Cpu τ) (i : ℕ) : Owner τ :=
  match c.current with
  | none => .scheduler i
  | some t => .thread t

/-- The kernel's own selectors, with the stack pointer on the stack. -/
structure Regs.InKernel (r : Regs) (high : ℕ) : Prop where
  cs : r.cs = BitVec.ofNat 16 GDT_SYSTEMCODE
  ss : r.ss = BitVec.ofNat 16 GDT_SYSTEMDATA
  esp : r.esp ≤ high

/-- The stack pointer in ring 0 when an interrupt comes. -/
def Cpu.entry (c : Cpu τ) : ℕ := if c.regs.inUser then c.esp0 else c.regs.esp

/-- A thread is on one CPU at a time; code writes to no other stack than its own and keeps the flat
data selectors; the scheduler is not interrupted; and stacks have room. -/
def Event.Guard (k : Kernel τ) : Event τ → Prop
  | .create t n => k.thread t = none ∧ sK_PAGES_KERNEL * PAGE_SIZE ≤ n.stackKernel ∧
    ∀ x p, k.stack x = some p → n.stackKernel ≤ p.1 ∨
      p.2 ≤ n.stackKernel - sK_PAGES_KERNEL * PAGE_SIZE
  | .delete t => ∀ i, (k.cpu i).current ≠ some t
  | .run i regs mem => regs.Flat ∧
    (∀ x p, k.stack x = some p → x ≠ (k.cpu i).owner i → ∀ a, p.1 ≤ a → a < p.2 →
      mem a = k.mem a) ∧
    match (k.cpu i).current with
    | none => regs.InKernel (k.cpu i).high ∧ regs.interrupts = false
    | some _ => regs.inUser = false → regs.InKernel (k.cpu i).esp0
  | .switch i t sc => (k.cpu i).current = none ∧ k.thread t ≠ none ∧
    (∀ j, (k.cpu j).current ≠ some t) ∧ (k.cpu i).low + 44 + sc.depth ≤ (k.cpu i).regs.esp
  | .interrupt i t sc => (k.cpu i).current = some t ∧
    ∀ tr, k.thread t = some tr → tr.base + 68 + sc.depth ≤ (k.cpu i).entry

/-- No threads yet, and every CPU in its scheduler on a stack of its own. -/
def switching : System (Kernel τ) (Event τ) Fault where
  Init k := (∀ t, k.thread t = none) ∧ (∀ i, (k.cpu i).current = none ∧
    (k.cpu i).regs.InKernel (k.cpu i).high ∧ (k.cpu i).regs.interrupts = false) ∧
    (∀ i, (k.cpu i).regs.Flat) ∧
    ∀ i j, i ≠ j → (k.cpu i).high ≤ (k.cpu j).low ∨ (k.cpu j).high ≤ (k.cpu i).low
  Guard k e := e.Guard k
  step k e := e.step k

end Racoon.Switching
