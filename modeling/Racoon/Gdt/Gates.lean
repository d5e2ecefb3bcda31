import Racoon.Gdt.Descriptors

/-!
# Interrupt gates

What `cpu_init` does for the interrupts of a CPU: `load_gdt`, `load_interrupts`,
`load_irqs` and `load_exceptions`, with `set_interrupt`, `new_cpu_tss` and the two
functions that make exception handlers. Other CPUs do the same meanwhile. The
addresses of the handlers come from the linker. What `memory_alloc` answers is part
of a call, 0 for `NULL`. The I/O bitmap of a task segment, all zeros, and the lines
of the log are left out.

The processor looks at the gate of a vector. An interrupt gate names a code segment
and an address in it; a task gate names a segment descriptor, whose base is the
address of a task state, which holds the address to go on at.
-/

namespace Racoon.Gates
open Lib Gdt

def IDT_PRESENT : BitVec 32 := 0x8000
def IDT_INT : BitVec 32 := 0x0600
def IDT_TASK : BitVec 32 := 0x0500
def IDT_32 : BitVec 32 := 0x0800
def IDT_DPL0 : BitVec 32 := 0x0000
def IDT_DPL3 : BitVec 32 := 0x6000

def GDT_SYSTEMCODE : BitVec 32 := 8
def GDT_SYSTEMDATA : BitVec 32 := 16
def EFLAG_BASE : BitVec 32 := 2
def APIC_INTERRUPT : ℕ := 0x50

def G_CODE : BitVec 8 := 0x08
def G_DATA : BitVec 8 := 0x00
def G_READABLE : BitVec 8 := 0x02
def G_WRITABLE : BitVec 8 := 0x02
def G_APPLICATION : BitVec 8 := 0x10
def G_SYSTEM : BitVec 8 := 0x00
def G_TSS32 : BitVec 8 := 0x09
def G_PRESENT : BitVec 8 := 0x80
def G_USE32 : BitVec 8 := 0x40
def G_GRANULAR : BitVec 8 := 0x80
def G_AVAIL : BitVec 8 := 0x10
def G_DPL0 : BitVec 32 := 0x00
def G_DPL3 : BitVec 32 := 0x60

structure IdtGate where
  offset15_0 : BitVec 16
  segment : BitVec 16
  flags : BitVec 16
  offset16_31 : BitVec 16

/-- The fields that are not left 0. -/
structure Tss where
  esp0 : BitVec 32
  ss0 : BitVec 16
  ss1 : BitVec 16
  ss2 : BitVec 16
  cr3 : BitVec 32
  eip : BitVec 32
  eflags : BitVec 32
  esp : BitVec 32
  es : BitVec 16
  cs : BitVec 16
  ss : BitVec 16
  ds : BitVec 16
  fs : BitVec 16
  gs : BitVec 16
  iomapbase : BitVec 16

/-- `sizeof( struct TSS )`: 104 bytes and the I/O bitmap. -/
def sizeofTss : BitVec 32 := 8297

/-- The addresses that the linker fills in. -/
structure Symbols where
  nullInt : BitVec 32
  softScheduler : BitVec 32
  apicLVTthermal : BitVec 32
  apicLVTperfCounter : BitVec 32
  apicLVTlint0 : BitVec 32
  apicLVTlint1 : BitVec 32
  apicLVTerror : BitVec 32
  irqHandler : ℕ → BitVec 32
  exceptionHandler : ℕ → BitVec 32
  tasking : BitVec 32
  pageDirectory : BitVec 32

/-- `cpu[ .. ]`, and the task states in memory. -/
structure Machine where
  gdt : Tables
  idt : ℤ → ℕ → IdtGate
  tss : BitVec 32 → Option Tss
  exceptionTss : ℤ → ℕ → BitVec 32
  systemTss : ℤ → BitVec 32
  gdtBoot : ℤ → ℕ
  gdtSystem : ℤ → ℕ

/-- What `set_interrupt` writes to a gate. -/
def gate (type segment offset level : BitVec 32) : IdtGate where
  offset15_0 := (offset &&& 0xFFFF#32).setWidth 16
  segment := segment.setWidth 16
  flags := (level ||| type).setWidth 16
  offset16_31 := (offset >>> 16 &&& 0xFFFF#32).setWidth 16

def Machine.setGate (m : Machine) (cpuId : ℤ) (num : ℕ) (g : IdtGate) : Machine :=
  { m with idt := Function.update m.idt cpuId (Function.update (m.idt cpuId) num g) }

def Machine.setExceptionTss (m : Machine) (cpuId : ℤ) (num : ℕ) (tss : BitVec 32) : Machine :=
  { m with exceptionTss :=
      Function.update m.exceptionTss cpuId (Function.update (m.exceptionTss cpuId) num tss) }

def Machine.setTss (m : Machine) (a : BitVec 32) (t : Tss) : Machine :=
  { m with tss := Function.update m.tss a (some t) }

def setInterrupt (m : Machine) (cpuId : ℤ) (num : ℕ) (type segment offset level : BitVec 32) :
    Outcome Machine := do
  assert (0 ≤ cpuId ∧ cpuId < MAX_CPU)
  .ok (m.setGate cpuId num (gate type segment offset level))

/-- The pages of the stack are not looked at, those of the task state are. -/
def newCpuTss (sy : Symbols) (m : Machine) (stackPages : ℕ) (stack tss : BitVec 32) : Machine :=
  let top := if stackPages ≠ 0 then stack + BitVec.ofNat 32 (stackPages * 4096) else 0
  if tss = 0 then m
  else m.setTss tss {
    esp0 := top
    ss0 := GDT_SYSTEMDATA.setWidth 16
    ss1 := (GDT_SYSTEMDATA ||| 1).setWidth 16
    ss2 := (GDT_SYSTEMDATA ||| 2).setWidth 16
    cr3 := sy.pageDirectory
    eip := sy.tasking
    eflags := EFLAG_BASE
    esp := top
    es := GDT_SYSTEMDATA.setWidth 16
    cs := GDT_SYSTEMCODE.setWidth 16
    ss := GDT_SYSTEMDATA.setWidth 16
    ds := GDT_SYSTEMDATA.setWidth 16
    fs := GDT_SYSTEMDATA.setWidth 16
    gs := GDT_SYSTEMDATA.setWidth 16
    iomapbase := 104 }

def Machine.newSegment (m : Machine) (cpuId : ℤ) (base length : BitVec 32) (flags type : BitVec 8)
    (access : BitVec 32) : Outcome (Machine × ℕ) := do
  let (gdt, selector) ← gdtNewSegment m.gdt cpuId base length flags type access
  .ok ({ m with gdt := gdt }, selector)

/-- The answers of `memory_alloc` to `load_gdt`, in their order. -/
structure GdtMemory where
  gdt : BitVec 32
  bootTss : BitVec 32
  systemStack : BitVec 32
  systemTss : BitVec 32

/-- `load_gdt`, without the instructions that load the registers. -/
def loadGdt (sy : Symbols) (m : Machine) (cpuId : ℤ) (a : GdtMemory) : Outcome Machine := do
  assert (0 ≤ cpuId ∧ cpuId < MAX_CPU)
  assert (a.gdt ≠ 0)
  let m := { m with gdt := Function.update m.gdt cpuId fun _ => ⟨0, 0, 0, 0, 0, 0⟩ }
  let (m, _) ← m.newSegment cpuId 0 0xFFFFFF (G_CODE ||| G_PRESENT ||| G_READABLE ||| G_APPLICATION)
    (G_USE32 ||| G_AVAIL ||| G_GRANULAR) G_DPL0
  let (m, _) ← m.newSegment cpuId 0 0xFFFFFF (G_DATA ||| G_PRESENT ||| G_WRITABLE ||| G_APPLICATION)
    (G_USE32 ||| G_AVAIL ||| G_GRANULAR) G_DPL0
  let (m, _) ← m.newSegment cpuId 0 0xFFFFFF (G_CODE ||| G_PRESENT ||| G_READABLE ||| G_APPLICATION)
    (G_USE32 ||| G_AVAIL ||| G_GRANULAR) G_DPL3
  let (m, _) ← m.newSegment cpuId 0 0xFFFFFF (G_DATA ||| G_PRESENT ||| G_WRITABLE ||| G_APPLICATION)
    (G_USE32 ||| G_AVAIL ||| G_GRANULAR) G_DPL3
  let m := newCpuTss sy m 0 0 a.bootTss
  let m := newCpuTss sy m 1 a.systemStack a.systemTss
  let (m, bootEntry) ← m.newSegment cpuId a.bootTss sizeofTss (G_TSS32 ||| G_SYSTEM ||| G_PRESENT)
    G_AVAIL G_DPL0
  let (m, systemEntry) ← m.newSegment cpuId a.systemTss sizeofTss
    (G_TSS32 ||| G_SYSTEM ||| G_PRESENT) G_AVAIL G_DPL3
  .ok { m with
    gdtBoot := Function.update m.gdtBoot cpuId bootEntry
    gdtSystem := Function.update m.gdtSystem cpuId systemEntry
    systemTss := Function.update m.systemTss cpuId a.systemTss }

/-- A call of `set_interrupt` for an interrupt gate to the code of the kernel. -/
def setHandler (m : Machine) (cpuId : ℤ) (num : ℕ) (offset level : BitVec 32) : Outcome Machine :=
  setInterrupt m cpuId num (IDT_PRESENT ||| IDT_32 ||| IDT_INT) GDT_SYSTEMCODE offset level

/-- The vectors from `num` on, `left` of them. -/
def nullFrom (sy : Symbols) (cpuId : ℤ) : ℕ → ℕ → Machine → Outcome Machine
  | 0, _, m => .ok m
  | left + 1, num, m => do
    let m ← setHandler m cpuId num sy.nullInt IDT_DPL3
    nullFrom sy cpuId left (num + 1) m

/-- `idt` is the answer of `memory_alloc`. -/
def loadInterrupts (sy : Symbols) (m : Machine) (cpuId : ℤ) (idt : BitVec 32) :
    Outcome Machine := do
  assert (0 ≤ cpuId ∧ cpuId < MAX_CPU)
  assert (idt ≠ 0)
  let m ← nullFrom sy cpuId 256 0 m
  let m ← setHandler m cpuId APIC_INTERRUPT sy.softScheduler IDT_DPL3
  let m ← setHandler m cpuId (APIC_INTERRUPT + 1) sy.apicLVTthermal IDT_DPL0
  let m ← setHandler m cpuId (APIC_INTERRUPT + 2) sy.apicLVTperfCounter IDT_DPL0
  let m ← setHandler m cpuId (APIC_INTERRUPT + 3) sy.apicLVTlint0 IDT_DPL0
  let m ← setHandler m cpuId (APIC_INTERRUPT + 4) sy.apicLVTlint1 IDT_DPL0
  setHandler m cpuId (APIC_INTERRUPT + 5) sy.apicLVTerror IDT_DPL0

/-- The lines of `load_irqs`, one for each interrupt request from `irq` on. -/
def irqsFrom (sy : Symbols) (cpuId : ℤ) : ℕ → ℕ → Machine → Outcome Machine
  | 0, _, m => .ok m
  | left + 1, irq, m => do
    let m ← setHandler m cpuId (0x20 + irq) (sy.irqHandler irq) IDT_DPL0
    irqsFrom sy cpuId left (irq + 1) m

def loadIrqs (sy : Symbols) (m : Machine) (cpuId : ℤ) : Outcome Machine :=
  irqsFrom sy cpuId 24 0 m

/-- `tss->eip = code` goes through the pointer as it is. -/
def createRealExceptionHandler (sy : Symbols) (m : Machine) (cpuId : ℤ) (num : ℕ)
    (code stack tss : BitVec 32) : Outcome Machine := do
  let m := newCpuTss sy m 1 stack tss
  let m := m.setExceptionTss cpuId num tss
  let (m, selector) ← m.newSegment cpuId tss sizeofTss (G_TSS32 ||| G_SYSTEM ||| G_PRESENT) G_AVAIL
    G_DPL0
  let t ← deref (m.tss tss)
  let m := m.setTss tss { t with eip := code }
  setInterrupt m cpuId num (IDT_PRESENT ||| IDT_TASK) (BitVec.ofNat 32 selector) 0 IDT_DPL0

def createExceptionHandler (m : Machine) (cpuId : ℤ) (num : ℕ) (code : BitVec 32) :
    Outcome Machine :=
  setHandler m cpuId num code IDT_DPL0

/-- The answers of `memory_alloc` for an exception: a stack and a task state. -/
structure TssMemory where
  stack : BitVec 32
  tss : BitVec 32

/-- A line of `load_exceptions`. -/
def loadException (sy : Symbols) (m : Machine) (cpuId : ℤ) (num : ℕ) (a : TssMemory) :
    Outcome Machine :=
  if num = 7 then createExceptionHandler m cpuId num (sy.exceptionHandler num)
  else createRealExceptionHandler sy m cpuId num (sy.exceptionHandler num) a.stack a.tss

/-- The lines of `load_exceptions`, one for each exception from `num` on. -/
def exceptionsFrom (sy : Symbols) (cpuId : ℤ) (a : ℕ → TssMemory) :
    ℕ → ℕ → Machine → Outcome Machine
  | 0, _, m => .ok m
  | left + 1, num, m => do
    let m ← loadException sy m cpuId num (a num)
    exceptionsFrom sy cpuId a left (num + 1) m

def loadExceptions (sy : Symbols) (m : Machine) (cpuId : ℤ) (a : ℕ → TssMemory) :
    Outcome Machine :=
  exceptionsFrom sy cpuId a 32 0 m

/-! ### The processor -/

/-- What the processor makes of a gate. -/
inductive Gate
  | interrupt (segment : BitVec 16) (offset : BitVec 32) (level : BitVec 16)
  | task (segment : BitVec 16)

def IdtGate.decode (g : IdtGate) : Option Gate :=
  if g.flags &&& 0x9F00#16 = 0x8E00#16 then
    some (.interrupt g.segment (g.offset15_0.setWidth 32 + g.offset16_31.setWidth 32 <<< 16)
      (g.flags >>> 13 &&& 3#16))
  else if g.flags &&& 0x9F00#16 = 0x8500#16 then some (.task g.segment)
  else none

/-- Where the processor goes on after an interrupt or an exception. -/
inductive Target
  | code (segment : BitVec 16) (offset : BitVec 32) (level : BitVec 16)
  | task (tss eip : BitVec 32)
  deriving DecidableEq

/-- The descriptor of a task that is not busy. -/
def IsTask (d : SegmentDescriptor) : Prop := d.flags &&& 0x9F#8 = 0x89#8

instance (d : SegmentDescriptor) : Decidable (IsTask d) :=
  inferInstanceAs (Decidable (d.flags &&& 0x9F#8 = 0x89#8))

def dispatch (m : Machine) (cpuId : ℤ) (num : ℕ) : Option Target :=
  match (m.idt cpuId num).decode with
  | none => none
  | some (.interrupt segment offset level) => some (.code segment offset level)
  | some (.task segment) =>
    let d := m.gdt cpuId (segment.toNat / 8)
    if IsTask d then (m.tss d.offset).map fun t => .task d.offset t.eip else none

end Racoon.Gates
