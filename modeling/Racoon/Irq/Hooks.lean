import Racoon.Machine

/-!
# Interrupt handlers

`kernel/irq.c` with `fast_queue` and `fast_dequeue` of the scheduler. Each line
has a hook that holds the stubs of its handler threads in an array: `last` is the
position of the handler that accepted most recently and `index` counts the
handlers that have declined since the line last fired. A handler runs when it is
first in the ring of its CPU, and says with `irq_complete` whether the interrupt
was for it. The `%` of C is `cmod`, which faults on zero as the machine does.
-/

namespace Racoon.Irq

def IRQ_COUNT : ℤ := 24
def MAX_FAST : ℕ := 32
def THREAD_SUSPENDED : ℤ := 2
def THREAD_IRQ : ℤ := 10

structure IrqStub where
  tr : ℕ
  ack : ℕ
  nop : ℕ

structure IrqHook where
  raised : ℕ
  index : ℤ
  last : ℤ
  count : ℤ
  stubs : List IrqStub

structure Thread where
  tid : ℤ
  process : ℕ
  state : ℤ
  irq : ℤ
  cpuAffinity : ℤ
  cpu : ℤ
  fastQueued : ℤ

/-- The ring of a scheduler. -/
structure SchedulerInfo where
  fastQueue : ℕ → ℕ
  fastStart : ℕ
  fastStop : ℕ

structure Kernel where
  cpuCount : ℤ
  handlers : ℤ → IrqHook
  masked : ℤ → Bool
  thread : ℕ → Thread
  sched : ℤ → SchedulerInfo

def Kernel.setHook (k : Kernel) (irq : ℤ) (h : IrqHook) : Kernel :=
  { k with handlers := Function.update k.handlers irq h }

theorem Kernel.handlers_setHook (k : Kernel) (irq : ℤ) (h : IrqHook) (i : ℤ) :
    (k.setHook irq h).handlers i = if i = irq then h else k.handlers i :=
  Function.update_apply ..

def Kernel.setThread (k : Kernel) (t : ℕ) (tr : Thread) : Kernel :=
  { k with thread := Function.update k.thread t tr }

def Kernel.setSched (k : Kernel) (id : ℤ) (si : SchedulerInfo) : Kernel :=
  { k with sched := Function.update k.sched id si }

def InRange (irq : ℤ) : Prop := 0 ≤ irq ∧ irq < IRQ_COUNT

instance (irq : ℤ) : Decidable (InRange irq) := inferInstanceAs (Decidable (_ ∧ _))

def cmod (a b : ℤ) : Outcome ℤ := if b = 0 then .error .divideError else .ok (a.tmod b)

/-- `stubs[ pos ]` -/
def stubAt (stubs : List IrqStub) (pos : ℤ) : Outcome IrqStub :=
  if 0 ≤ pos then deref stubs[pos.toNat]? else .error .badAccess

def copyStubs (stubs : List IrqStub) (n : ℤ) : Outcome (List IrqStub) :=
  if n.toNat ≤ stubs.length then .ok (stubs.take n.toNat) else .error .badAccess

/-- `hookMem` and `stubsMem` tell whether `kmalloc` grants the hook and its stubs. -/
def requestIrq (k : Kernel) (hookMem stubsMem : Bool) (t : ℕ) (irq : ℤ) : Outcome (Kernel × ℤ) :=
  if ¬ InRange irq then .ok (k, -1)
  else if (k.thread t).state ≠ THREAD_SUSPENDED then .ok (k, -1)
  else if hookMem = false then .ok (k, -1)
  else if stubsMem = false then .ok (k, -1)
  else do
    let old := k.handlers irq
    let stubs ← copyStubs old.stubs old.count
    let hook : IrqHook :=
      { raised := old.raised
        index := if old.index < 0 then 0 else old.index
        last := if old.last < 0 then 0 else old.last
        count := old.count + 1
        stubs := stubs ++ [⟨t, 0, 0⟩] }
    let tr := k.thread t
    let affinity := if tr.cpuAffinity < 0 then (tr.tid - 1).tmod k.cpuCount else tr.cpuAffinity
    let masked := if hook.count = 1 then Function.update k.masked irq false else k.masked
    .ok ((({ k with masked := masked }).setHook irq hook).setThread t
      { tr with irq := irq, state := THREAD_IRQ, cpuAffinity := affinity }, 0)

/-- The copying loop of `release_irq` into an array of `room` stubs, which counts the stubs of `t`
that it leaves out. -/
def shiftStubs (t room : ℕ) : List IrqStub → ℕ → List IrqStub → Outcome (ℕ × List IrqStub)
  | [], found, copied => .ok (found, copied)
  | s :: rest, found, copied =>
    if s.tr = t then shiftStubs t room rest (found + 1) copied
    else if copied.length < room then shiftStubs t room rest found (copied ++ [s])
    else .error .badAccess

/-- What is left of the stubs, and how often `t` was found. -/
def withoutStub (k : Kernel) (t : ℕ) (irq : ℤ) : Outcome (ℕ × List IrqStub) :=
  let old := k.handlers irq
  if old.count - 1 = 0 then do
    let s ← stubAt old.stubs 0
    .ok (if (k.thread s.tr).process = (k.thread t).process then 1 else 0, [])
  else do
    let stubs ← copyStubs old.stubs old.count
    shiftStubs t (old.count - 1).toNat stubs 0 []

def releaseIrq (k : Kernel) (hookMem stubsMem : Bool) (t : ℕ) (irq : ℤ) : Outcome (Kernel × ℤ) :=
  if ¬ InRange irq then .ok (k, -1)
  else if hookMem = false then .ok (k, -1)
  else if (k.handlers irq).count - 1 ≠ 0 ∧ stubsMem = false then .ok (k, -1)
  else do
    let old := k.handlers irq
    let (found, stubs) ← withoutStub k t irq
    if found = 0 then .ok (k, -1)
    else do
      assert (found = 1)
      let count := old.count - 1
      let hook : IrqHook :=
        { raised := old.raised
          index := if old.index ≥ count ∧ old.index > 0 then old.index - 1 else old.index
          -- `hook->last -= -1`
          last := if old.last ≥ count ∧ old.last > 0 then old.last - -1 else old.last
          count := count
          stubs := stubs }
      let masked := if hook.count = 0 then Function.update k.masked irq true else k.masked
      .ok ((({ k with masked := masked }).setHook irq hook).setThread t
        { k.thread t with state := THREAD_SUSPENDED, irq := -1 }, 0)

def fastQueue (k : Kernel) (t : ℕ) : Outcome Kernel := do
  let tr := k.thread t
  let id := tr.cpuAffinity
  assert (0 ≤ id ∧ id < k.cpuCount)
  let si := k.sched id
  let stop := (si.fastStop + 1) % MAX_FAST
  assert (stop ≠ si.fastStart)
  .ok ((k.setThread t { tr with cpu := id, fastQueued := tr.fastQueued + 1 }).setSched id
    ⟨Function.update si.fastQueue si.fastStop t, si.fastStart, stop⟩)

def fastDequeue (k : Kernel) (cpuid : ℤ) (t : ℕ) : Outcome Kernel := do
  let tr := k.thread t
  let id := tr.cpu
  assert (0 ≤ id ∧ id < k.cpuCount)
  assert (id = cpuid)
  let si := k.sched id
  assert (t = si.fastQueue si.fastStart)
  let queued := tr.fastQueued - 1
  .ok ((k.setThread t { tr with
      fastQueued := queued, cpu := if queued = 0 then -1 else tr.cpu }).setSched id
    { si with fastStart := (si.fastStart + 1) % MAX_FAST })

/-- The position from which `t` may acknowledge or complete its interrupt; `none` is for lies. -/
def entitled (k : Kernel) (t : ℕ) (irq : ℤ) : Outcome (Option ℤ) := do
  let h := k.handlers irq
  let pos ← cmod (h.index + h.last) h.count
  let s ← stubAt h.stubs pos
  .ok (if s.tr = t then some pos else none)

def irqAck (k : Kernel) (t : ℕ) (irq : ℤ) : Outcome ℤ :=
  if ¬ InRange irq then .ok (-1) else do
    let pos ← entitled k t irq
    .ok (if pos = none then -1 else 0)

/-- A handler that accepts is asked first from now on. -/
def acceptIrq (k : Kernel) (irq pos : ℤ) : Kernel :=
  let h := k.handlers irq
  k.setHook irq { h with
    stubs := h.stubs.modify pos.toNat fun s => { s with ack := s.ack + 1 }
    last := pos }

def declineIrq (k : Kernel) (irq pos : ℤ) : Kernel :=
  let h := k.handlers irq
  k.setHook irq { h with
    stubs := h.stubs.modify pos.toNat fun s => { s with nop := s.nop + 1 }
    index := h.index + 1 }

/-- The next handler in the array is queued; the answer names it. -/
def askNext (k : Kernel) (irq pos : ℤ) : Outcome (Kernel × ℕ) := do
  let h := k.handlers irq
  let pos ← cmod (pos + 1) h.count
  let s ← stubAt h.stubs pos
  let k ← fastQueue k s.tr
  .ok (k, s.tr)

/-- The interrupt flag after `sched_unlock`: `sched_lock` has turned the interrupts off, and only on
the CPU of that scheduler do they come on again. -/
def afterUnlock (cpuid id : ℤ) (interrupts : Bool) : Bool :=
  if cpuid = id then interrupts else false

/-- After a refusal the next handler is asked, if one is left. -/
def offerNext (k : Kernel) (cpuid : ℤ) (interrupts : Bool) (irq pos : ℤ) :
    Outcome (Kernel × ℤ × Bool) :=
  let h := k.handlers irq
  if h.index < h.count then do
    let (k, next) ← askNext k irq pos
    .ok (k, 1, afterUnlock cpuid (k.thread next).cpuAffinity interrupts)
  else .ok (k, 2, interrupts)

def settle (k : Kernel) (cpuid : ℤ) (interrupts : Bool) (irq pos status : ℤ) :
    Outcome (Kernel × ℤ × Bool) :=
  if status = 0 then .ok (acceptIrq k irq pos, 0, interrupts)
  else offerNext (declineIrq k irq pos) cpuid interrupts irq pos

/-- `t` is the current thread of the CPU `cpuid`, and `interrupts` the flag it runs with. -/
def irqComplete (k : Kernel) (cpuid : ℤ) (t : ℕ) (interrupts : Bool) (status : ℤ) :
    Outcome (Kernel × ℤ) :=
  let irq := (k.thread t).irq
  if ¬ InRange irq then .ok (k, -1) else do
    match ← entitled k t irq with
    | none => .ok (k, -1)
    | some pos => do
      let (k, _, interrupts) ← settle k cpuid interrupts irq pos status
      assert (interrupts = true)
      let k ← fastDequeue k cpuid t
      .ok (k, 0)

def irqHandler (k : Kernel) (irq : ℤ) : Outcome Kernel :=
  if irq = 0 then .ok k else do
    let h := { k.handlers irq with raised := (k.handlers irq).raised + 1, index := 0 }
    let k := k.setHook irq h
    if h.count ≤ 0 then .ok k
    else do
      assert (h.count > 0)
      let s ← stubAt h.stubs h.last
      fastQueue k s.tr

end Racoon.Irq
