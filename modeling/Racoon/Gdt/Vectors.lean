import Racoon.Gdt.Gates

/-!
# The vectors of a CPU

Once a CPU is set up, whatever the other CPUs have done meanwhile, each of its 256
vectors leads to the handler that was meant: the exceptions but the one of the FPU
to tasks of their own, the interrupt requests and those of the local APIC to their
functions, the rest to `__null_int`. A descriptor keeps 28 bits of a base, so a
task state is found only below 256 MB.
-/

namespace Racoon.Gates
open Lib Gdt

/-- How far a CPU has come in `cpu_init`. -/
inductive Stage
  | off
  | segments
  | interrupts
  | irqs
  | ready
  deriving DecidableEq

structure Setup where
  machine : Machine
  stage : ℤ → Stage

inductive Event
  | gdt (cpuId : ℤ) (a : GdtMemory)
  | interrupts (cpuId : ℤ) (idt : BitVec 32)
  | irqs (cpuId : ℤ)
  | exceptions (cpuId : ℤ) (a : ℕ → TssMemory)

/-- The exceptions that are tasks. -/
def IsReal (num : ℕ) : Prop := num < 32 ∧ num ≠ 7

/-- A CPU makes its calls in their order, and `memory_alloc` answers `load_exceptions` each time
with memory that nobody has. -/
def Event.Guard (s : Setup) : Event → Prop
  | .gdt c a => (0 ≤ c ∧ c < MAX_CPU) ∧ s.stage c = .off ∧ a.gdt ≠ 0 ∧
      s.machine.tss a.bootTss = none ∧ s.machine.tss a.systemTss = none
  | .interrupts c idt => (0 ≤ c ∧ c < MAX_CPU) ∧ s.stage c = .segments ∧ idt ≠ 0
  | .irqs c => (0 ≤ c ∧ c < MAX_CPU) ∧ s.stage c = .interrupts
  | .exceptions c a => (0 ≤ c ∧ c < MAX_CPU) ∧ s.stage c = .irqs ∧
      (∀ num, IsReal num → (a num).tss ≠ 0 ∧ s.machine.tss (a num).tss = none) ∧
      ∀ i j, IsReal i → IsReal j → (a i).tss = (a j).tss → i = j

def Event.exec (sy : Symbols) (s : Setup) : Event → Outcome Setup
  | .gdt c a => do
    let m ← loadGdt sy s.machine c a
    .ok ⟨m, Function.update s.stage c .segments⟩
  | .interrupts c idt => do
    let m ← loadInterrupts sy s.machine c idt
    .ok ⟨m, Function.update s.stage c .interrupts⟩
  | .irqs c => do
    let m ← loadIrqs sy s.machine c
    .ok ⟨m, Function.update s.stage c .irqs⟩
  | .exceptions c a => do
    let m ← loadExceptions sy s.machine c a
    .ok ⟨m, Function.update s.stage c .ready⟩

/-- The CPUs in any order, from any tables, before any task state has been made. -/
def setupSystem (sy : Symbols) : System Setup Event Fault where
  Init s := (∀ c, s.stage c = .off) ∧ ∀ a, s.machine.tss a = none
  Guard s e := e.Guard s
  step s e := e.exec sy s

/-- A handler in the code segment of the kernel, with the level of its gate. -/
structure Handler where
  offset : BitVec 32
  level : BitVec 32

/-- The vectors after `load_interrupts`. -/
def nullOrApic (sy : Symbols) (num : ℕ) : Handler :=
  if num = APIC_INTERRUPT then ⟨sy.softScheduler, IDT_DPL3⟩
  else if num = APIC_INTERRUPT + 1 then ⟨sy.apicLVTthermal, IDT_DPL0⟩
  else if num = APIC_INTERRUPT + 2 then ⟨sy.apicLVTperfCounter, IDT_DPL0⟩
  else if num = APIC_INTERRUPT + 3 then ⟨sy.apicLVTlint0, IDT_DPL0⟩
  else if num = APIC_INTERRUPT + 4 then ⟨sy.apicLVTlint1, IDT_DPL0⟩
  else if num = APIC_INTERRUPT + 5 then ⟨sy.apicLVTerror, IDT_DPL0⟩
  else ⟨sy.nullInt, IDT_DPL3⟩

/-- After `irqs` lines of `load_irqs`. -/
def orIrq (sy : Symbols) (irqs num : ℕ) : Handler :=
  if 0x20 ≤ num ∧ num < 0x20 + irqs then ⟨sy.irqHandler (num - 0x20), IDT_DPL0⟩
  else nullOrApic sy num

/-- After `n` lines of `load_exceptions`, where these do not make a task. -/
def handler (sy : Symbols) (n num : ℕ) : Handler :=
  if num = 7 ∧ 7 < n then ⟨sy.exceptionHandler 7, IDT_DPL0⟩ else orIrq sy 24 num

def Handler.gate (h : Handler) : IdtGate :=
  Gates.gate (IDT_PRESENT ||| IDT_32 ||| IDT_INT) GDT_SYSTEMCODE h.offset h.level

def Handler.target (h : Handler) : Target :=
  .code (GDT_SYSTEMCODE.setWidth 16) h.offset ((h.level >>> 13).setWidth 16)

/-- All that a CPU does for a vector. -/
structure Wired (sy : Symbols) (m : Machine) (c : ℤ) : Prop where
  handlers : ∀ num < 256, ¬ IsReal num → dispatch m c num = some (handler sy 32 num).target
  tasks : ∀ num, IsReal num → (dispatch m c num =
    some (.task (m.exceptionTss c num) (sy.exceptionHandler num)) ↔ m.exceptionTss c num < 2 ^ 28)

/-! ### Gates and segments -/

theorem gate_offset (type segment offset level : BitVec 32) :
    (gate type segment offset level).offset15_0.setWidth 32 +
      (gate type segment offset level).offset16_31.setWidth 32 <<< 16 = offset := by
  have hoffset := offset.isLt
  rw [← BitVec.toNat_inj]
  simp only [gate, BitVec.toNat_add, BitVec.toNat_setWidth, BitVec.toNat_shiftLeft,
    BitVec.toNat_ushiftRight, mask_toNat, Nat.shiftLeft_eq, Nat.shiftRight_eq_div_pow]
  omega

theorem gate_flags (type segment offset level : BitVec 32) :
    (gate type segment offset level).flags = (level ||| type).setWidth 16 := rfl

theorem Handler.decode_gate (h : Handler) (hl : h.level = IDT_DPL0 ∨ h.level = IDT_DPL3) :
    h.gate.decode =
      some (.interrupt (GDT_SYSTEMCODE.setWidth 16) h.offset ((h.level >>> 13).setWidth 16)) := by
  have hkind : (h.level ||| (IDT_PRESENT ||| IDT_32 ||| IDT_INT)).setWidth 16 &&& 0x9F00#16 =
      0x8E00#16 := by
    rcases hl with hl | hl
    · rw [hl]
      decide
    · rw [hl]
      decide
  have hlevel : (h.level ||| (IDT_PRESENT ||| IDT_32 ||| IDT_INT)).setWidth 16 >>> 13 &&& 3#16 =
      (h.level >>> 13).setWidth 16 := by
    rcases hl with hl | hl
    · rw [hl]
      decide
    · rw [hl]
      decide
  rw [Handler.gate, IdtGate.decode, gate_flags, gate_offset, if_pos hkind, hlevel]
  rfl

theorem decode_task {selector : ℕ} (hs : selector < 2 ^ 16) :
    ∃ segment : BitVec 16, (gate (IDT_PRESENT ||| IDT_TASK) (BitVec.ofNat 32 selector) 0
      IDT_DPL0).decode = some (.task segment) ∧ segment.toNat = selector := by
  refine ⟨(BitVec.ofNat 32 selector).setWidth 16, ?_, ?_⟩
  · rw [IdtGate.decode, gate_flags, if_neg (by decide), if_pos (by decide)]
    rfl
  · rw [BitVec.toNat_setWidth, BitVec.toNat_ofNat]
    omega

/-- The slots of a CPU before `n` are in use, the others free. -/
structure Slots (m : Machine) (c : ℤ) (n : ℕ) : Prop where
  used : ∀ pos, 1 ≤ pos → pos < n → (m.gdt c pos).type ≠ 0
  free : ∀ pos, n ≤ pos → (m.gdt c pos).type = 0

theorem newSegmentFrom_first {gdt : Tables} {c : ℤ} {d : SegmentDescriptor} {left pos n : ℕ}
    (hpos : pos ≤ n) (hn : n < pos + left)
    (hused : ∀ q, pos ≤ q → q < n → (gdt c q).type ≠ 0) (hfree : (gdt c n).type = 0) :
    newSegmentFrom gdt c d left pos = .ok (gdt.set c n d, n * 8) := by
  induction left generalizing pos with
  | zero => omega
  | succ left ih =>
    rw [newSegmentFrom]
    by_cases he : pos = n
    · rw [he, if_pos hfree]
    · rw [if_neg (hused pos le_rfl (by omega))]
      exact ih (by omega) (by omega) fun q hq => hused q (by omega)

/-! ### What a call leaves alone -/

/-- The other CPUs are as before, and every task state that was there. -/
structure Frame (m m' : Machine) (c : ℤ) : Prop where
  gdt : ∀ c', c' ≠ c → m'.gdt c' = m.gdt c'
  idt : ∀ c', c' ≠ c → m'.idt c' = m.idt c'
  exceptionTss : ∀ c', c' ≠ c → m'.exceptionTss c' = m.exceptionTss c'
  tss : ∀ a t, m.tss a = some t → m'.tss a = some t

variable {sy : Symbols} {m m' m₁ : Machine} {c : ℤ} {n : ℕ}

theorem Frame.refl (m : Machine) (c : ℤ) : Frame m m c :=
  ⟨fun _ _ => rfl, fun _ _ => rfl, fun _ _ => rfl, fun _ _ h => h⟩

theorem Frame.trans (h : Frame m m₁ c) (h' : Frame m₁ m' c) : Frame m m' c where
  gdt x hx := (h'.gdt x hx).trans (h.gdt x hx)
  idt x hx := (h'.idt x hx).trans (h.idt x hx)
  exceptionTss x hx := (h'.exceptionTss x hx).trans (h.exceptionTss x hx)
  tss a t ha := h'.tss a t (h.tss a t ha)

/-- What a new segment changes. -/
structure Adds (m m' : Machine) (c : ℤ) (n : ℕ) (d : SegmentDescriptor) : Prop where
  frame : Frame m m' c
  slot : m'.gdt c n = d
  slots : ∀ pos, pos ≠ n → m'.gdt c pos = m.gdt c pos
  tss : m'.tss = m.tss
  idt : m'.idt = m.idt
  exceptionTss : m'.exceptionTss = m.exceptionTss

theorem Slots.adds {d : SegmentDescriptor} (h : Slots m c n) (ha : Adds m m' c n d)
    (hd : d.type ≠ 0) : Slots m' c (n + 1) := by
  constructor
  · intro pos hpos hle
    by_cases he : pos = n
    · rwa [he, ha.slot]
    · rw [ha.slots pos he]
      exact h.used pos hpos (by omega)
  · intro pos hle
    rw [ha.slots pos (by omega)]
    exact h.free pos (by omega)

/-- A segment gets the first slot that is free. -/
theorem Slots.newSegment (h : Slots m c n) (hc : 0 ≤ c ∧ c < MAX_CPU) (hn : 1 ≤ n)
    (hlt : n < MAX_GDT) (base length : BitVec 32) (flags type : BitVec 8) (access : BitVec 32) :
    ∃ m', m.newSegment c base length flags type access = .ok (m', n * 8) ∧
      Adds m m' c n (descriptor base length flags type access) := by
  refine ⟨{ m with gdt := m.gdt.set c n (descriptor base length flags type access) }, ?_,
    ⟨fun c' hc' => Function.update_of_ne hc' .., fun _ _ => rfl, fun _ _ => rfl, fun _ _ h => h⟩,
    set_self .., fun pos hpos => set_of_ne fun _ => hpos, rfl, rfl, rfl⟩
  have hlast : n < 1 + (MAX_GDT - 1) := by
    unfold MAX_GDT at *
    omega
  rw [Machine.newSegment, gdtNewSegment, assert_of hc, ok_bind,
    newSegmentFrom_first hn hlast (fun q => h.used q) (h.free n le_rfl), ok_bind]

theorem newCpuTss_eq (sy : Symbols) (m : Machine) (pages : ℕ) (stack tss : BitVec 32) :
    ∃ f, newCpuTss sy m pages stack tss = { m with tss := f } ∧ (tss ≠ 0 → f tss ≠ none) ∧
      ∀ a, a ≠ tss → f a = m.tss a := by
  rw [newCpuTss]
  by_cases hzero : tss = 0
  · rw [if_pos hzero]
    exact ⟨m.tss, rfl, fun h => absurd hzero h, fun _ _ => rfl⟩
  · rw [if_neg hzero]
    refine ⟨_, rfl, fun _ => ?_, fun a ha => Function.update_of_ne ha ..⟩
    rw [Function.update_self]
    exact Option.some_ne_none _

/-- The byte of the type has `G_AVAIL` in it. -/
theorem taskType_ne_zero (base access : BitVec 32) :
    (descriptor base sizeofTss (G_TSS32 ||| G_SYSTEM ||| G_PRESENT) G_AVAIL access).type ≠ 0 :=
  type_ne_zero _ _ _ _ _ (by decide : sizeofTss < 2 ^ 20) (by decide)

theorem loadGdt_ok (hc : 0 ≤ c ∧ c < MAX_CPU) {a : GdtMemory} (hgdt : a.gdt ≠ 0)
    (hboot : m.tss a.bootTss = none) (hsystem : m.tss a.systemTss = none) :
    ∃ m', loadGdt sy m c a = .ok m' ∧ Slots m' c 7 ∧ Frame m m' c ∧
      ∀ x, x ≠ a.bootTss → x ≠ a.systemTss → m'.tss x = m.tss x := by
  set m₀ : Machine := { m with gdt := Function.update m.gdt c fun _ => ⟨0, 0, 0, 0, 0, 0⟩ } with hm₀
  have hf₀ : Frame m m₀ c :=
    ⟨fun x hx => Function.update_of_ne hx .., fun _ _ => rfl, fun _ _ => rfl, fun _ _ h => h⟩
  have h₀ : Slots m₀ c 1 := by
    refine ⟨fun pos h1 h2 => absurd h2 (by omega), fun pos _ => ?_⟩
    rw [hm₀]
    dsimp only
    rw [Function.update_self]
  obtain ⟨m₁, e₁, a₁⟩ := h₀.newSegment hc (by decide) (by decide) 0 0xFFFFFF
    (G_CODE ||| G_PRESENT ||| G_READABLE ||| G_APPLICATION) (G_USE32 ||| G_AVAIL ||| G_GRANULAR)
    G_DPL0
  have h₁ := h₀.adds a₁ (by decide)
  obtain ⟨m₂, e₂, a₂⟩ := h₁.newSegment hc (by decide) (by decide) 0 0xFFFFFF
    (G_DATA ||| G_PRESENT ||| G_WRITABLE ||| G_APPLICATION) (G_USE32 ||| G_AVAIL ||| G_GRANULAR)
    G_DPL0
  have h₂ := h₁.adds a₂ (by decide)
  obtain ⟨m₃, e₃, a₃⟩ := h₂.newSegment hc (by decide) (by decide) 0 0xFFFFFF
    (G_CODE ||| G_PRESENT ||| G_READABLE ||| G_APPLICATION) (G_USE32 ||| G_AVAIL ||| G_GRANULAR)
    G_DPL3
  have h₃ := h₂.adds a₃ (by decide)
  obtain ⟨m₄, e₄, a₄⟩ := h₃.newSegment hc (by decide) (by decide) 0 0xFFFFFF
    (G_DATA ||| G_PRESENT ||| G_WRITABLE ||| G_APPLICATION) (G_USE32 ||| G_AVAIL ||| G_GRANULAR)
    G_DPL3
  have h₄ := h₃.adds a₄ (by decide)
  have hf₄ := (((hf₀.trans a₁.frame).trans a₂.frame).trans a₃.frame).trans a₄.frame
  have ht₄ : m₄.tss = m.tss := by rw [a₄.tss, a₃.tss, a₂.tss, a₁.tss]
  obtain ⟨f, hf, -, hfother⟩ := newCpuTss_eq sy m₄ 0 0 a.bootTss
  obtain ⟨g, hg, -, hgother⟩ := newCpuTss_eq sy { m₄ with tss := f } 1 a.systemStack a.systemTss
  have h₅ : Slots { m₄ with tss := g } c 5 := ⟨h₄.used, h₄.free⟩
  have htss : ∀ x, x ≠ a.bootTss → x ≠ a.systemTss → g x = m.tss x := fun x hb hs =>
    (hgother x hs).trans ((hfother x hb).trans (congrFun ht₄ x))
  have hf₅ : Frame m { m₄ with tss := g } c := by
    refine ⟨hf₄.gdt, hf₄.idt, hf₄.exceptionTss, fun x t hx => ?_⟩
    have hne : x ≠ a.bootTss ∧ x ≠ a.systemTss := by
      constructor
      · rintro rfl
        cases hboot.symm.trans hx
      · rintro rfl
        cases hsystem.symm.trans hx
    exact (htss x hne.1 hne.2).trans hx
  obtain ⟨m₅, e₅, a₅⟩ := h₅.newSegment hc (by decide) (by decide) a.bootTss sizeofTss
    (G_TSS32 ||| G_SYSTEM ||| G_PRESENT) G_AVAIL G_DPL0
  have h₆ := h₅.adds a₅ (taskType_ne_zero _ _)
  obtain ⟨m₆, e₆, a₆⟩ := h₆.newSegment hc (by decide) (by decide) a.systemTss sizeofTss
    (G_TSS32 ||| G_SYSTEM ||| G_PRESENT) G_AVAIL G_DPL3
  have h₇ := h₆.adds a₆ (taskType_ne_zero _ _)
  have hf₆ := (hf₅.trans a₅.frame).trans a₆.frame
  refine ⟨{ m₆ with
    gdtBoot := Function.update m₆.gdtBoot c (5 * 8)
    gdtSystem := Function.update m₆.gdtSystem c ((5 + 1) * 8)
    systemTss := Function.update m₆.systemTss c a.systemTss }, ?_, ⟨h₇.used, h₇.free⟩,
    ⟨hf₆.gdt, hf₆.idt, hf₆.exceptionTss, hf₆.tss⟩,
    fun x hb hs => (congrFun (a₆.tss.trans a₅.tss) x).trans (htss x hb hs)⟩
  rw [loadGdt, assert_of hc, ok_bind, assert_of hgdt, ok_bind, ← hm₀]
  dsimp only
  rw [e₁, ok_bind, e₂, ok_bind, e₃, ok_bind, e₄, ok_bind]
  dsimp only
  rw [hf, hg, e₅, ok_bind, e₆, ok_bind]

/-! ### Handlers -/

/-- What a call of `set_interrupt` changes is a gate of its CPU. -/
structure OnlyGates (m m' : Machine) (c : ℤ) : Prop where
  gdt : m'.gdt = m.gdt
  idt : ∀ c', c' ≠ c → m'.idt c' = m.idt c'
  tss : m'.tss = m.tss
  exceptionTss : m'.exceptionTss = m.exceptionTss

theorem OnlyGates.refl (m : Machine) (c : ℤ) : OnlyGates m m c := ⟨rfl, fun _ _ => rfl, rfl, rfl⟩

theorem OnlyGates.trans (h : OnlyGates m m₁ c) (h' : OnlyGates m₁ m' c) : OnlyGates m m' c where
  gdt := h'.gdt.trans h.gdt
  idt x hx := (h'.idt x hx).trans (h.idt x hx)
  tss := h'.tss.trans h.tss
  exceptionTss := h'.exceptionTss.trans h.exceptionTss

theorem OnlyGates.frame (h : OnlyGates m m' c) : Frame m m' c where
  gdt x _ := congrFun h.gdt x
  idt := h.idt
  exceptionTss x _ := congrFun h.exceptionTss x
  tss _ _ ha := h.tss ▸ ha

theorem OnlyGates.slots (h : OnlyGates m m' c) (hs : Slots m c n) : Slots m' c n :=
  ⟨h.gdt ▸ hs.used, h.gdt ▸ hs.free⟩

theorem setInterrupt_ok (m : Machine) (hc : 0 ≤ c ∧ c < MAX_CPU) (num : ℕ)
    (type segment offset level : BitVec 32) :
    ∃ m', setInterrupt m c num type segment offset level = .ok m' ∧ OnlyGates m m' c ∧
      m'.idt c = Function.update (m.idt c) num (gate type segment offset level) := by
  refine ⟨m.setGate c num (gate type segment offset level), ?_,
    ⟨rfl, fun x hx => ?_, rfl, rfl⟩, ?_⟩
  · rw [setInterrupt, assert_of hc, ok_bind]
  · exact Function.update_of_ne hx ..
  · exact Function.update_self ..

theorem setHandler_ok (m : Machine) (hc : 0 ≤ c ∧ c < MAX_CPU) (num : ℕ) (h : Handler) :
    ∃ m', setHandler m c num h.offset h.level = .ok m' ∧ OnlyGates m m' c ∧
      m'.idt c = Function.update (m.idt c) num h.gate :=
  setInterrupt_ok m hc num _ _ _ _

/-- A loop that sets one vector after the other. -/
theorem handlers_ok (run : ℕ → ℕ → Machine → Outcome Machine) (f : ℕ → Handler) (base : ℕ)
    (hzero : ∀ i m, run 0 i m = .ok m)
    (hsucc : ∀ left i m, run (left + 1) i m =
      setHandler m c (base + i) (f i).offset (f i).level >>= run left (i + 1))
    (hc : 0 ≤ c ∧ c < MAX_CPU) (left i : ℕ) (m : Machine) :
    ∃ m', run left i m = .ok m' ∧ OnlyGates m m' c ∧ ∀ num, m'.idt c num =
      if base + i ≤ num ∧ num < base + i + left then (f (num - base)).gate else m.idt c num := by
  induction left generalizing i m with
  | zero => exact ⟨m, hzero i m, .refl m c, fun num => by rw [if_neg (by omega)]⟩
  | succ left ih =>
    obtain ⟨m₁, e₁, g₁, i₁⟩ := setHandler_ok m hc (base + i) (f i)
    obtain ⟨m', e', g', i'⟩ := ih (i + 1) m₁
    refine ⟨m', by rw [hsucc, e₁, ok_bind, e'], g₁.trans g', fun num => ?_⟩
    rw [i', i₁]
    by_cases hnum : num = base + i
    · subst hnum
      rw [if_neg (by omega), if_pos (by omega), Function.update_self, Nat.add_sub_cancel_left]
    · rw [Function.update_of_ne hnum]
      exact if_congr (by omega) rfl rfl

theorem loadInterrupts_ok (hc : 0 ≤ c ∧ c < MAX_CPU) (m : Machine) {idt : BitVec 32}
    (hidt : idt ≠ 0) : ∃ m', loadInterrupts sy m c idt = .ok m' ∧ OnlyGates m m' c ∧
      ∀ num < 256, m'.idt c num = (nullOrApic sy num).gate := by
  obtain ⟨m₀, e₀, g₀, i₀⟩ := handlers_ok (nullFrom sy c) (fun _ => ⟨sy.nullInt, IDT_DPL3⟩) 0
    (fun _ _ => rfl)
    (fun left i m => by rw [nullFrom, Nat.zero_add]) hc 256 0 m
  obtain ⟨m₁, e₁, g₁, i₁⟩ := setHandler_ok m₀ hc APIC_INTERRUPT ⟨sy.softScheduler, IDT_DPL3⟩
  obtain ⟨m₂, e₂, g₂, i₂⟩ :=
    setHandler_ok m₁ hc (APIC_INTERRUPT + 1) ⟨sy.apicLVTthermal, IDT_DPL0⟩
  obtain ⟨m₃, e₃, g₃, i₃⟩ :=
    setHandler_ok m₂ hc (APIC_INTERRUPT + 2) ⟨sy.apicLVTperfCounter, IDT_DPL0⟩
  obtain ⟨m₄, e₄, g₄, i₄⟩ :=
    setHandler_ok m₃ hc (APIC_INTERRUPT + 3) ⟨sy.apicLVTlint0, IDT_DPL0⟩
  obtain ⟨m₅, e₅, g₅, i₅⟩ :=
    setHandler_ok m₄ hc (APIC_INTERRUPT + 4) ⟨sy.apicLVTlint1, IDT_DPL0⟩
  obtain ⟨m₆, e₆, g₆, i₆⟩ :=
    setHandler_ok m₅ hc (APIC_INTERRUPT + 5) ⟨sy.apicLVTerror, IDT_DPL0⟩
  refine ⟨m₆, ?_, (((((g₀.trans g₁).trans g₂).trans g₃).trans g₄).trans g₅).trans g₆,
    fun num hnum => ?_⟩
  · rw [loadInterrupts, assert_of hc, ok_bind, assert_of hidt, ok_bind, e₀, ok_bind, e₁, ok_bind,
      e₂, ok_bind, e₃, ok_bind, e₄, ok_bind, e₅, ok_bind, e₆]
  · rw [i₆, i₅, i₄, i₃, i₂, i₁]
    simp only [Function.update_apply, i₀, nullOrApic]
    split_ifs <;> first | rfl | omega

theorem loadIrqs_ok (hc : 0 ≤ c ∧ c < MAX_CPU) (m : Machine) :
    ∃ m', loadIrqs sy m c = .ok m' ∧ OnlyGates m m' c ∧ ∀ num, m'.idt c num =
      if 0x20 ≤ num ∧ num < 0x20 + 24 then Handler.gate ⟨sy.irqHandler (num - 0x20), IDT_DPL0⟩
      else m.idt c num :=
  handlers_ok (irqsFrom sy c) (fun irq => ⟨sy.irqHandler irq, IDT_DPL0⟩) 0x20 (fun _ _ => rfl)
    (fun _ _ _ => rfl) hc 24 0 m

/-! ### Exceptions -/

def taskGate (slot : ℕ) : IdtGate :=
  gate (IDT_PRESENT ||| IDT_TASK) (BitVec.ofNat 32 (slot * 8)) 0 IDT_DPL0

def taskDescriptor (base : BitVec 32) : SegmentDescriptor :=
  descriptor base sizeofTss (G_TSS32 ||| G_SYSTEM ||| G_PRESENT) G_AVAIL G_DPL0

/-- Exception `num` has its gate, its segment and its task state. -/
def HasTask (sy : Symbols) (m : Machine) (c : ℤ) (num : ℕ) : Prop :=
  ∃ slot t, 0 < slot ∧ slot < MAX_GDT ∧ m.idt c num = taskGate slot ∧
    m.gdt c slot = taskDescriptor (m.exceptionTss c num) ∧
    m.tss (m.exceptionTss c num) = some t ∧ t.eip = sy.exceptionHandler num

/-- The first slot that is free after `n` lines of `load_exceptions`. -/
def nextSlot (n : ℕ) : ℕ := if n ≤ 7 then 7 + n else 6 + n

/-- After `n` lines of `load_exceptions`, which started from `m₀`. -/
structure Excepted (sy : Symbols) (m₀ m : Machine) (c : ℤ) (a : ℕ → TssMemory) (n : ℕ) : Prop where
  frame : Frame m₀ m c
  slots : Slots m c (nextSlot n)
  handlers : ∀ num < 256, (IsReal num → n ≤ num) → m.idt c num = (handler sy n num).gate
  tasks : ∀ num < n, IsReal num → HasTask sy m c num ∧ m.exceptionTss c num = (a num).tss
  fresh : ∀ num, n ≤ num → IsReal num → m.tss (a num).tss = none

namespace Excepted
variable {m₀ : Machine} {a : ℕ → TssMemory}

/-- The exception of the FPU is not a task. -/
theorem seven (h : Excepted sy m₀ m c a 7) (hc : 0 ≤ c ∧ c < MAX_CPU) :
    ∃ m', loadException sy m c 7 (a 7) = .ok m' ∧ Excepted sy m₀ m' c a 8 := by
  obtain ⟨m', e, g, i⟩ := setHandler_ok m hc 7 ⟨sy.exceptionHandler 7, IDT_DPL0⟩
  refine ⟨m', e, h.frame.trans g.frame, g.slots h.slots, fun num hnum hreal => ?_,
    fun num hnum hreal => ?_, fun num hnum hreal => ?_⟩
  · rw [i]
    by_cases hseven : num = 7
    · rw [hseven, Function.update_self, handler, if_pos (by decide)]
    · rw [Function.update_of_ne hseven, h.handlers num hnum fun hr => (hreal hr).trans' (by decide),
        handler, handler, if_neg (by omega), if_neg (by omega)]
  · have hne := hreal.2
    obtain ⟨⟨slot, t, hslot, hlt, hidt, hgdt, ht, heip⟩, htss⟩ := h.tasks num (by omega) hreal
    rw [HasTask, g.exceptionTss, g.gdt, g.tss, i, Function.update_of_ne hne]
    exact ⟨⟨slot, t, hslot, hlt, hidt, hgdt, ht, heip⟩, htss⟩
  · rw [g.tss]
    exact h.fresh num (by omega) hreal

/-- An exception that is a task takes the next slot and the task state it was given. -/
theorem real (h : Excepted sy m₀ m c a n) (hc : 0 ≤ c ∧ c < MAX_CPU) (hn : IsReal n)
    (hzero : (a n).tss ≠ 0)
    (hinj : ∀ i j, IsReal i → IsReal j → (a i).tss = (a j).tss → i = j) :
    ∃ m', loadException sy m c n (a n) = .ok m' ∧ Excepted sy m₀ m' c a (n + 1) := by
  set b := (a n).tss with hb
  obtain ⟨f, hf, hfb, hfother⟩ := newCpuTss_eq sy m 1 (a n).stack b
  obtain ⟨t, ht⟩ := Option.ne_none_iff_exists'.mp (hfb hzero)
  set m₁ : Machine := Machine.setExceptionTss { m with tss := f } c n b with hm₁
  have hs₁ : Slots m₁ c (nextSlot n) := ⟨h.slots.used, h.slots.free⟩
  have hslot : 1 ≤ nextSlot n ∧ nextSlot n < MAX_GDT ∧ nextSlot (n + 1) = nextSlot n + 1 := by
    have hlt := hn.1
    have hne := hn.2
    unfold nextSlot MAX_GDT
    split_ifs <;> omega
  obtain ⟨m₂, e₂, a₂⟩ := hs₁.newSegment hc hslot.1 hslot.2.1 b sizeofTss
    (G_TSS32 ||| G_SYSTEM ||| G_PRESENT) G_AVAIL G_DPL0
  have ht₂ : m₂.tss b = some t := a₂.tss ▸ ht
  set m₃ := m₂.setTss b { t with eip := sy.exceptionHandler n } with hm₃
  obtain ⟨m', e', g', i'⟩ := setInterrupt_ok m₃ hc n (IDT_PRESENT ||| IDT_TASK)
    (BitVec.ofNat 32 (nextSlot n * 8)) 0 IDT_DPL0
  refine ⟨m', ?_, ?_⟩
  · rw [loadException, if_neg hn.2, createRealExceptionHandler, hf]
    dsimp only
    rw [← hm₁, e₂, ok_bind]
    dsimp only
    rw [ht₂, deref_some, ok_bind]
    exact e'
  · have htssb : m'.tss b = some { t with eip := sy.exceptionHandler n } := by
      rw [g'.tss, hm₃]
      exact Function.update_self ..
    have htss : ∀ x, x ≠ b → m'.tss x = m.tss x := fun x hx => by
      rw [g'.tss, hm₃]
      exact (Function.update_of_ne hx ..).trans ((congrFun a₂.tss x).trans (hfother x hx))
    have hexc : m'.exceptionTss c = Function.update (m.exceptionTss c) n b := by
      rw [g'.exceptionTss]
      exact (congrFun a₂.exceptionTss c).trans (Function.update_self ..)
    have hidt : m'.idt c = Function.update (m.idt c) n (taskGate (nextSlot n)) := by
      have hsame : m₃.idt = m.idt := a₂.idt
      rw [i', hsame]
      rfl
    have hgdt : m'.gdt = m₂.gdt := g'.gdt
    have hfresh := h.fresh n le_rfl hn
    refine ⟨h.frame.trans ⟨fun x hx => ?_, fun x hx => ?_, fun x hx => ?_, fun x u hx => ?_⟩, ?_,
      fun num hnum hreal => ?_, fun num hnum hreal => ?_, fun num hnum hreal => ?_⟩
    · rw [hgdt]
      exact a₂.frame.gdt x hx
    · rw [g'.idt x hx]
      exact congrFun a₂.idt x
    · rw [g'.exceptionTss]
      exact (congrFun a₂.exceptionTss x).trans (Function.update_of_ne hx ..)
    · rw [htss x fun he => ?_, hx]
      rw [he, hfresh] at hx
      cases hx
    · have hs₂ := hs₁.adds a₂ (taskType_ne_zero _ _)
      rw [hslot.2.2]
      exact ⟨hgdt ▸ hs₂.used, hgdt ▸ hs₂.free⟩
    · have hne : num ≠ n := fun he => absurd (hreal (he ▸ hn)) (by omega)
      have hseven := hn.2
      rw [hidt, Function.update_of_ne hne,
        h.handlers num hnum fun hr => (hreal hr).trans' (by omega), handler, handler]
      exact congrArg Handler.gate (if_congr (by omega) rfl rfl)
    · rw [HasTask, hidt, hexc]
      by_cases hne : num = n
      · subst hne
        rw [Function.update_self, Function.update_self]
        have hdescriptor : m'.gdt c (nextSlot num) = taskDescriptor b := by
          rw [hgdt, a₂.slot]
          rfl
        exact ⟨⟨nextSlot num, _, hslot.1, hslot.2.1, rfl, hdescriptor, htssb, rfl⟩, rfl⟩
      · rw [Function.update_of_ne hne, Function.update_of_ne hne]
        obtain ⟨⟨slot, u, hpos, hlt, hidt', hgdt', hu, heip⟩, hsame⟩ :=
          h.tasks num (by omega) hreal
        have hother : slot ≠ nextSlot n := by
          rintro rfl
          have hfree := h.slots.free _ le_rfl
          rw [hgdt'] at hfree
          exact taskType_ne_zero _ _ hfree
        have hb' : m.exceptionTss c num ≠ b := by
          rw [hsame]
          exact fun he => hne (hinj num n hreal hn he)
        refine ⟨⟨slot, u, hpos, hlt, hidt', ?_, ?_, heip⟩, hsame⟩
        · rw [hgdt, a₂.slots slot hother]
          exact hgdt'
        · rw [htss _ hb', hu]
    · have hb' : (a num).tss ≠ b := fun he => by
        have := hinj num n hreal hn he
        omega
      rw [htss _ hb']
      exact h.fresh num (by omega) hreal

end Excepted

theorem exceptionsFrom_ok {m₀ : Machine} {a : ℕ → TssMemory} (hc : 0 ≤ c ∧ c < MAX_CPU)
    (hzero : ∀ num, IsReal num → (a num).tss ≠ 0)
    (hinj : ∀ i j, IsReal i → IsReal j → (a i).tss = (a j).tss → i = j) {left : ℕ}
    (hn : n + left = 32) (h : Excepted sy m₀ m c a n) :
    ∃ m', exceptionsFrom sy c a left n m = .ok m' ∧ Excepted sy m₀ m' c a 32 := by
  induction left generalizing n m with
  | zero =>
    rw [Nat.add_zero] at hn
    exact ⟨m, rfl, hn ▸ h⟩
  | succ left ih =>
    obtain ⟨m₁, e₁, h₁⟩ : ∃ m₁, loadException sy m c n (a n) = .ok m₁ ∧
        Excepted sy m₀ m₁ c a (n + 1) := by
      by_cases hseven : n = 7
      · subst hseven
        exact h.seven hc
      · have hreal : IsReal n := ⟨by omega, hseven⟩
        exact h.real hc hreal (hzero n hreal) hinj
    obtain ⟨m', e', h'⟩ := ih (by omega) h₁
    exact ⟨m', by rw [exceptionsFrom, e₁, ok_bind, e'], h'⟩

/-! ### Runs -/

/-- What holds of a CPU at a stage. -/
def At (sy : Symbols) (m : Machine) (c : ℤ) : Stage → Prop
  | .off => True
  | .segments => Slots m c 7
  | .interrupts => Slots m c 7 ∧ ∀ num < 256, m.idt c num = (nullOrApic sy num).gate
  | .irqs => Slots m c 7 ∧ ∀ num < 256, m.idt c num = (orIrq sy 24 num).gate
  | .ready => (∀ num < 256, ¬ IsReal num → m.idt c num = (handler sy 32 num).gate) ∧
      ∀ num, IsReal num → HasTask sy m c num

theorem At.frame {stage : Stage} {c' : ℤ} (h : At sy m c' stage) (hf : Frame m m' c)
    (hc : c' ≠ c) : At sy m' c' stage := by
  have hslots : Slots m c' 7 → Slots m' c' 7 := fun hs =>
    ⟨hf.gdt c' hc ▸ hs.used, hf.gdt c' hc ▸ hs.free⟩
  cases stage with
  | off => trivial
  | segments => exact hslots h
  | interrupts => exact ⟨hslots h.1, hf.idt c' hc ▸ h.2⟩
  | irqs => exact ⟨hslots h.1, hf.idt c' hc ▸ h.2⟩
  | ready =>
    refine ⟨hf.idt c' hc ▸ h.1, fun num hreal => ?_⟩
    obtain ⟨slot, t, hpos, hlt, hidt, hgdt, ht, heip⟩ := h.2 num hreal
    rw [HasTask, hf.idt c' hc, hf.gdt c' hc, hf.exceptionTss c' hc]
    exact ⟨slot, t, hpos, hlt, hidt, hgdt, hf.tss _ t ht, heip⟩

/-- Every CPU is where its stage says, and no two exceptions share a task state. -/
structure Sound (sy : Symbols) (s : Setup) : Prop where
  at_stage : ∀ c, At sy s.machine c (s.stage c)
  apart : ∀ c c' i j, s.stage c = .ready → s.stage c' = .ready → IsReal i → IsReal j →
    s.machine.exceptionTss c i = s.machine.exceptionTss c' j → c = c' ∧ i = j

variable {s t : Setup} {stage : Stage}

/-- A CPU goes on to another stage. The task states it has made were nobody's. -/
theorem Sound.put (h : Sound sy s) (hf : Frame s.machine m' c) (hat : At sy m' c stage)
    (hnew : stage = .ready → (∀ i j, IsReal i → IsReal j →
      m'.exceptionTss c i = m'.exceptionTss c j → i = j) ∧
      ∀ i, IsReal i → s.machine.tss (m'.exceptionTss c i) = none) :
    Sound sy ⟨m', Function.update s.stage c stage⟩ := by
  have hlive : ∀ c' j, c' ≠ c → Function.update s.stage c stage c' = .ready → IsReal j →
      m'.exceptionTss c' j = s.machine.exceptionTss c' j ∧
        s.machine.tss (m'.exceptionTss c' j) ≠ none := by
    intro c' j hc' hready hj
    rw [Function.update_of_ne hc'] at hready
    have hat' := h.at_stage c'
    rw [hready] at hat'
    obtain ⟨-, u, -, -, -, -, hu, -⟩ := hat'.2 j hj
    have hsame := congrFun (hf.exceptionTss c' hc') j
    rw [hsame, hu]
    exact ⟨rfl, Option.some_ne_none u⟩
  constructor
  · intro c'
    by_cases hc' : c' = c
    · subst hc'
      dsimp only
      rwa [Function.update_self]
    · dsimp only
      rw [Function.update_of_ne hc']
      exact (h.at_stage c').frame hf hc'
  · intro c₁ c₂ i j h₁ h₂ hi hj heq
    dsimp only at h₁ h₂ heq
    by_cases hc₁ : c₁ = c
    · subst hc₁
      have hready := h₁
      rw [Function.update_self] at hready
      obtain ⟨hinj, hnone⟩ := hnew hready
      by_cases hc₂ : c₂ = c₁
      · subst hc₂
        exact ⟨rfl, hinj i j hi hj heq⟩
      · exact absurd (heq ▸ hnone i hi) (hlive c₂ j hc₂ h₂ hj).2
    · by_cases hc₂ : c₂ = c
      · subst hc₂
        have hready := h₂
        rw [Function.update_self] at hready
        exact absurd (heq ▸ (hnew hready).2 j hj) (hlive c₁ i hc₁ h₁ hi).2
      · obtain ⟨he₁, -⟩ := hlive c₁ i hc₁ h₁ hi
        obtain ⟨he₂, -⟩ := hlive c₂ j hc₂ h₂ hj
        rw [Function.update_of_ne hc₁] at h₁
        rw [Function.update_of_ne hc₂] at h₂
        exact h.apart c₁ c₂ i j h₁ h₂ hi hj (he₁ ▸ he₂ ▸ heq)

theorem Sound.step (h : Sound sy s) (e : Event) (hg : e.Guard s) :
    ∃ t, e.exec sy s = .ok t ∧ Sound sy t := by
  cases e with
  | gdt c a =>
    obtain ⟨hc, -, hgdt, hboot, hsystem⟩ := hg
    obtain ⟨m', e', hslots, hf, -⟩ : ∃ m', loadGdt sy s.machine c a = .ok m' ∧ _ :=
      loadGdt_ok hc hgdt hboot hsystem
    refine ⟨_, by rw [Event.exec, e', ok_bind], h.put hf ?_ fun hr => by cases hr⟩
    exact hslots
  | interrupts c idt =>
    obtain ⟨hc, hstage, hidt⟩ := hg
    obtain ⟨m', e', hg', hi⟩ : ∃ m', loadInterrupts sy s.machine c idt = .ok m' ∧ _ :=
      loadInterrupts_ok hc s.machine hidt
    have hat := h.at_stage c
    rw [hstage] at hat
    refine ⟨_, by rw [Event.exec, e', ok_bind], h.put hg'.frame ?_ fun hr => by cases hr⟩
    exact ⟨hg'.slots hat, hi⟩
  | irqs c =>
    obtain ⟨hc, hstage⟩ := hg
    obtain ⟨m', e', hg', hi⟩ : ∃ m', loadIrqs sy s.machine c = .ok m' ∧ _ :=
      loadIrqs_ok hc s.machine
    have hat := h.at_stage c
    rw [hstage] at hat
    refine ⟨_, by rw [Event.exec, e', ok_bind], h.put hg'.frame ?_ fun hr => by cases hr⟩
    refine ⟨hg'.slots hat.1, fun num hnum => ?_⟩
    rw [hi, hat.2 num hnum, orIrq]
    split_ifs <;> rfl
  | exceptions c a =>
    obtain ⟨hc, hstage, hfresh, hinj⟩ := hg
    have hat := h.at_stage c
    rw [hstage] at hat
    have hstart : Excepted sy s.machine s.machine c a 0 := by
      refine ⟨.refl _ _, hat.1, fun num hnum _ => ?_, fun num hnum => absurd hnum (by omega),
        fun num _ hr => (hfresh num hr).2⟩
      rw [hat.2 num hnum, handler, if_neg (by omega)]
    obtain ⟨m', e', hx⟩ := exceptionsFrom_ok hc (fun num hr => (hfresh num hr).1) hinj
      (rfl : 0 + 32 = 32) hstart
    have htss : ∀ i, IsReal i → m'.exceptionTss c i = (a i).tss := fun i hi =>
      (hx.tasks i hi.1 hi).2
    refine ⟨_, by rw [Event.exec, loadExceptions, e', ok_bind], h.put hx.frame ?_ fun _ => ⟨?_, ?_⟩⟩
    · refine ⟨fun num hnum hreal => hx.handlers num hnum fun hr => absurd hr hreal,
        fun num hr => (hx.tasks num hr.1 hr).1⟩
    · intro i j hi hj he
      rw [htss i hi, htss j hj] at he
      exact hinj i j hi hj he
    · intro i hi
      rw [htss i hi]
      exact (hfresh i hi).2

/-! ### The processor -/

theorem level_handler (sy : Symbols) (n num : ℕ) :
    (handler sy n num).level = IDT_DPL0 ∨ (handler sy n num).level = IDT_DPL3 := by
  unfold handler orIrq nullOrApic
  split_ifs <;> simp

theorem isTask_taskDescriptor (base : BitVec 32) : IsTask (taskDescriptor base) := by
  change ((G_TSS32 ||| G_SYSTEM ||| G_PRESENT).setWidth 32 ||| G_DPL0).setWidth 8 &&& 0x9F#8 =
    0x89#8
  decide

theorem dispatch_handler {num : ℕ} (h : m.idt c num = (handler sy n num).gate) :
    dispatch m c num = some (handler sy n num).target := by
  rw [dispatch, h, Handler.decode_gate _ (level_handler sy n num)]
  rfl

/-- The processor finds the task state exactly if its descriptor has kept its address. -/
theorem HasTask.dispatch_iff {num : ℕ} (h : HasTask sy m c num) :
    dispatch m c num = some (.task (m.exceptionTss c num) (sy.exceptionHandler num)) ↔
      m.exceptionTss c num < 2 ^ 28 := by
  obtain ⟨slot, t, -, hlt, hidt, hgdt, ht, heip⟩ := h
  have hselector : slot * 8 < 2 ^ 16 := by
    unfold MAX_GDT at hlt
    omega
  obtain ⟨segment, hdecode, hsegment⟩ := decode_task hselector
  have hdispatch : dispatch m c num = (m.tss (taskDescriptor (m.exceptionTss c num)).offset).map
      fun t => .task (taskDescriptor (m.exceptionTss c num)).offset t.eip := by
    rw [dispatch, hidt, taskGate, hdecode]
    dsimp only
    rw [hsegment, Nat.mul_div_cancel _ (by decide), hgdt, if_pos (isTask_taskDescriptor _)]
  have hoffset := offset_eq_iff (m.exceptionTss c num) sizeofTss
    (G_TSS32 ||| G_SYSTEM ||| G_PRESENT) G_AVAIL G_DPL0
  rw [hdispatch]
  constructor
  · intro heq
    obtain ⟨u, -, hu⟩ := Option.map_eq_some_iff.mp heq
    exact hoffset.mp (Target.task.inj hu).1
  · intro hbelow
    rw [taskDescriptor, hoffset.mpr hbelow, ht, Option.map_some, heip]

theorem sound_of_reach (h : (setupSystem sy).Reach s) : Sound sy s := by
  refine h.invariant (fun s hs => ⟨fun c => ?_, fun c _ _ _ hc => ?_⟩)
    fun s e hs hg => hs.step e hg
  · rw [hs.1 c]
    trivial
  · rw [hs.1 c] at hc
    cases hc

theorem reach_event (h : (setupSystem sy).Reach s) (e : Event) (hg : e.Guard s)
    (ht : e.exec sy s = .ok t) : (setupSystem sy).Reach t := h.step hg ht

/-- Handlers at some addresses. -/
def someSymbols : Symbols := ⟨0x100000, 0x100010, 0x100020, 0x100030, 0x100040, 0x100050, 0x100060,
  fun irq => BitVec.ofNat 32 (0x101000 + irq * 16),
  fun num => BitVec.ofNat 32 (0x102000 + num * 16), 0x100070, 0x103000⟩

def noCpu : Setup := ⟨⟨fun _ _ => ⟨0, 0, 0, 0, 0, 0⟩, fun _ _ => ⟨0, 0, 0, 0⟩, fun _ => none,
  fun _ _ => 0, fun _ => 0, fun _ => 0, fun _ => 0⟩, fun _ => .off⟩

def gdtMemory : GdtMemory := ⟨0x200000, 0x210000, 0x220000, 0x230000⟩

def tssMemory (num : ℕ) : TssMemory :=
  ⟨BitVec.ofNat 32 (0x300000 + num * 0x1000), BitVec.ofNat 32 (0x400000 + num * 0x4000)⟩

theorem tssMemory_toNat {num : ℕ} (h : IsReal num) :
    (tssMemory num).tss.toNat = 0x400000 + num * 0x4000 := by
  have hlt := h.1
  rw [tssMemory, BitVec.toNat_ofNat]
  omega

end Racoon.Gates
