import Racoon.Irq.HookInvariant

/-!
# The interrupt controllers

`mask_8259`, `unmask_8259`, `ack_8259`, `remap_irqs` and `init_irqs` of
`kernel/irq.c`, and `kernel/ioapic.c`, over chips that take their words in order:
a command word with bit 4 starts the initialization of an 8259, the next three
words at its data port are its vector, its cascade line and its mode, and every
word after them is its mask. A line of the second chip goes through line 2 of the
first.
-/

namespace Racoon.Irq

def PORT_8259M : ℕ := 0x20
def PORT_8259S : ℕ := 0xA0

def ICW1_ICW4 : BitVec 8 := 0x01
def ICW1_INIT : BitVec 8 := 0x10
def ICW4_8086 : BitVec 8 := 0x01

/-- An 8259: how many initialization words it waits for, and what its words have set. -/
structure Chip where
  awaits : ℕ
  base : BitVec 8
  cascade : BitVec 8
  imr : BitVec 8

def Chip.command (c : Chip) (v : BitVec 8) : Chip :=
  if v.getLsbD 4 then { c with awaits := 3, imr := 0 } else c

def Chip.data (c : Chip) (v : BitVec 8) : Chip :=
  match c.awaits with
  | 0 => { c with imr := v }
  | 1 => { c with awaits := 0 }
  | 2 => { c with awaits := 1, cascade := v }
  | _ => { c with awaits := 2, base := v }

/-- The chips with the `irq_mask` of the kernel. -/
structure Pics where
  irqMask : BitVec 32
  master : Chip
  slave : Chip

namespace Pics

def outb (p : Pics) (port : ℕ) (v : BitVec 8) : Pics :=
  if port = PORT_8259M then { p with master := p.master.command v }
  else if port = PORT_8259M + 1 then { p with master := p.master.data v }
  else if port = PORT_8259S then { p with slave := p.slave.command v }
  else if port = PORT_8259S + 1 then { p with slave := p.slave.data v }
  else p

/-- The half of `irq_mask` that the chip of the line holds. -/
def writeMask (p : Pics) (irq : ℕ) : Pics :=
  if irq < 8 then p.outb (PORT_8259M + 1) ((p.irqMask &&& 0xFF).setWidth 8)
  else p.outb (PORT_8259S + 1) (((p.irqMask >>> 8) &&& 0xFF).setWidth 8)

def unmask8259 (p : Pics) (irq : ℕ) : Pics :=
  ({ p with irqMask := p.irqMask &&& ~~~(1#32 <<< irq) }).writeMask irq

def mask8259 (p : Pics) (irq : ℕ) : Pics :=
  ({ p with irqMask := p.irqMask ||| (1#32 <<< irq) }).writeMask irq

def ack8259 (p : Pics) (irq : ℕ) : Pics :=
  (if irq > 7 then p.outb 0xA0 0x20 else p).outb 0x20 0x20

/-- `a` and `b` are what the command ports answer; they end up in the masks. -/
def remapIrqs (p : Pics) (pic1 pic2 a b : BitVec 8) : Pics :=
  [(PORT_8259M, ICW1_INIT + ICW1_ICW4), (PORT_8259S, ICW1_INIT + ICW1_ICW4),
    (PORT_8259M + 1, pic1), (PORT_8259S + 1, pic2),
    (PORT_8259M + 1, 0x04), (PORT_8259S + 1, 0x02),
    (PORT_8259M + 1, ICW4_8086), (PORT_8259S + 1, ICW4_8086),
    (PORT_8259M + 1, a), (PORT_8259S + 1, b)].foldl (fun p w => p.outb w.1 w.2) p

def initIrqs (p : Pics) (a b : BitVec 8) : Pics :=
  let p := p.remapIrqs 0x20 0x28 a b
  let p := p.outb (PORT_8259M + 1) ((p.irqMask &&& 0xFF).setWidth 8)
  p.outb (PORT_8259S + 1) (((p.irqMask >>> 8) &&& 0xFF).setWidth 8)

end Pics

def REG_VERSION : ℕ := 0x01
def REG_INT0 : ℕ := 0x10

/-- The select register and the registers behind the window. -/
structure Ioapic where
  select : ℕ
  regs : ℕ → BitVec 32

namespace Ioapic

def writeIoapic (i : Ioapic) (reg : ℕ) (value : BitVec 32) : Ioapic where
  select := reg
  regs := Function.update i.regs reg value

/-- Lines from 16 on are level triggered and active low. -/
def wiring (num : ℕ) : BitVec 32 := if num > 15 then 1 <<< 15 ||| 1 <<< 13 else 0

def maskIoapic (i : Ioapic) (num : ℕ) : Ioapic :=
  (i.writeIoapic (num * 2 + REG_INT0) (1 <<< 16 ||| wiring num ||| BitVec.ofNat 32 (0x20 + num)))
    |>.writeIoapic (num * 2 + REG_INT0 + 1) 0

def unmaskIoapic (i : Ioapic) (num : ℕ) : Ioapic :=
  (i.writeIoapic (num * 2 + REG_INT0) (wiring num ||| BitVec.ofNat 32 (0x20 + num)))
    |>.writeIoapic (num * 2 + REG_INT0 + 1) 0

end Ioapic

structure Hardware where
  usingIOAPIC : Bool
  pics : Pics
  ioapic : Ioapic

namespace Hardware

def disableLegacyPic (h : Hardware) : Hardware :=
  { h with pics := (h.pics.outb 0x21 0xFF).outb 0xA1 0xFF }

/-- The loop over the registers writes what `mask_ioapic` does. -/
def initIoapic (h : Hardware) : Hardware :=
  if h.ioapic.regs REG_VERSION ≠ 0x170011 then { h with usingIOAPIC := false }
  else
    let h := ({ h with usingIOAPIC := true }).disableLegacyPic
    { h with ioapic := (List.range 24).foldl Ioapic.maskIoapic h.ioapic }

/-- `init_ioapic` and then `init_irqs`. -/
def boot (h : Hardware) (a b : BitVec 8) : Hardware :=
  let h := h.initIoapic
  { h with pics := h.pics.initIrqs a b }

def mask (h : Hardware) (irq : ℕ) : Hardware :=
  if h.usingIOAPIC then { h with ioapic := h.ioapic.maskIoapic irq }
  else { h with pics := h.pics.mask8259 irq }

def unmask (h : Hardware) (irq : ℕ) : Hardware :=
  if h.usingIOAPIC then { h with ioapic := h.ioapic.unmaskIoapic irq }
  else { h with pics := h.pics.unmask8259 irq }

/-- Without an IO APIC; the local APIC has no masks. -/
def ack (h : Hardware) (irq : ℕ) : Hardware :=
  if h.usingIOAPIC then h else { h with pics := h.pics.ack8259 irq }

/-- The vector at which the raised line `n` arrives at the processor, if it does. -/
def vector (h : Hardware) (n : ℕ) : Option ℕ :=
  if h.usingIOAPIC then
    let entry := h.ioapic.regs (n * 2 + REG_INT0)
    if n < 24 ∧ entry.getLsbD 16 = false then some (entry.toNat % 256) else none
  else if n < 8 then
    if h.pics.master.imr.getLsbD n then none else some (h.pics.master.base.toNat / 8 * 8 + n)
  else if n < 16 then
    if h.pics.slave.imr.getLsbD (n - 8) ∨ h.pics.master.imr.getLsbD 2 ∨
        h.pics.master.cascade.getLsbD 2 = false ∨ h.pics.slave.cascade ≠ 2 then none
    else some (h.pics.slave.base.toNat / 8 * 8 + (n - 8))
  else none

end Hardware

/-- The chips take masks, are wired to each other, and hold the two halves of `irq_mask`. -/
structure Pics.Ready (p : Pics) : Prop where
  master : p.master = ⟨0, 0x20, 0x04, p.irqMask.setWidth 8⟩
  slave : p.slave = ⟨0, 0x28, 0x02, (p.irqMask >>> 8).setWidth 8⟩

/-- The registers say that exactly the lines of `m` are masked. -/
structure Hardware.Masks (h : Hardware) (m : ℕ → Bool) : Prop where
  pics : h.pics.Ready
  irqMask : h.usingIOAPIC = false → ∀ n < 24, h.pics.irqMask.getLsbD n = m n
  entry : h.usingIOAPIC = true → ∀ n < 24, h.ioapic.regs (n * 2 + REG_INT0) =
    (if m n then 1 <<< 16 else 0) ||| Ioapic.wiring n ||| BitVec.ofNat 32 (0x20 + n)

variable {p : Pics} {h : Hardware} {m : ℕ → Bool} {irq n : ℕ}

theorem and_byte (v : BitVec 8) : v &&& 0xFF#8 = v := BitVec.and_allOnes

/-- Whatever state the chips are in, `init_irqs` leaves them ready. -/
theorem Pics.ready_initIrqs (p : Pics) (a b : BitVec 8) : (p.initIrqs a b).Ready where
  master := by
    simp [initIrqs, remapIrqs, outb, PORT_8259M, PORT_8259S, Chip.command, Chip.data, ICW1_INIT,
      ICW1_ICW4, and_byte]
  slave := by
    simp [initIrqs, remapIrqs, outb, PORT_8259M, PORT_8259S, Chip.command, Chip.data, ICW1_INIT,
      ICW1_ICW4, and_byte]

theorem Pics.irqMask_initIrqs (p : Pics) (a b : BitVec 8) :
    (p.initIrqs a b).irqMask = p.irqMask := by
  simp [initIrqs, remapIrqs, outb, PORT_8259M, PORT_8259S]

theorem Pics.irqMask_writeMask (p : Pics) (irq : ℕ) : (p.writeMask irq).irqMask = p.irqMask := by
  rw [writeMask]
  split_ifs <;> simp [outb, PORT_8259M, PORT_8259S]

/-- The chip that is not written needs to agree with the new mask already. -/
theorem Pics.Ready.writeMask (hp : p.Ready) {w : BitVec 32}
    (hlow : 8 ≤ irq → w.setWidth 8 = p.irqMask.setWidth 8)
    (hhigh : irq < 8 → (w >>> 8).setWidth 8 = (p.irqMask >>> 8).setWidth 8) :
    (({ p with irqMask := w }).writeMask irq).Ready := by
  by_cases hirq : irq < 8
  · constructor
    · simp [Pics.writeMask, if_pos hirq, outb, PORT_8259M, Chip.data, hp.master, and_byte]
    · simp [Pics.writeMask, if_pos hirq, outb, PORT_8259M, hp.slave, hhigh hirq]
  · constructor
    · simp [Pics.writeMask, if_neg hirq, outb, PORT_8259M, PORT_8259S, hp.master,
        hlow (not_lt.mp hirq)]
    · simp [Pics.writeMask, if_neg hirq, outb, PORT_8259M, PORT_8259S, Chip.data, hp.slave,
        and_byte]

theorem getLsbD_unmask (w : BitVec 32) (hn : n < 24) :
    (w &&& ~~~(1#32 <<< irq)).getLsbD n = (w.getLsbD n && decide (n ≠ irq)) := by
  have h32 : n < 32 := by omega
  simp only [BitVec.getLsbD_and, BitVec.getLsbD_not, BitVec.getLsbD_shiftLeft, BitVec.getLsbD_one,
    h32, decide_true, Bool.true_and]
  congr 1
  by_cases he : n = irq
  · simp [he]
  · simp [he]
    omega

theorem getLsbD_mask (w : BitVec 32) (hn : n < 24) :
    (w ||| 1#32 <<< irq).getLsbD n = (w.getLsbD n || decide (n = irq)) := by
  have h32 : n < 32 := by omega
  simp only [BitVec.getLsbD_or, BitVec.getLsbD_shiftLeft, BitVec.getLsbD_one, h32, decide_true,
    Bool.true_and]
  congr 1
  by_cases he : n = irq
  · simp [he]
  · simp [he]
    omega

/-- A change of one bit leaves the byte of the other chip alone. -/
theorem setWidth_of_bits (w w' : BitVec 32) (irq : ℕ)
    (h : ∀ n < 24, n ≠ irq → w'.getLsbD n = w.getLsbD n) :
    (8 ≤ irq → w'.setWidth 8 = w.setWidth 8) ∧
      (irq < 8 → (w' >>> 8).setWidth 8 = (w >>> 8).setWidth 8) := by
  refine ⟨fun hirq => ?_, fun hirq => ?_⟩
  · ext i hi
    simp only [BitVec.getElem_setWidth]
    exact h i (by omega) (by omega)
  · ext i hi
    simp only [BitVec.getElem_setWidth, BitVec.getLsbD_ushiftRight]
    exact h (8 + i) (by omega) (by omega)

namespace Ioapic

theorem regs_writeBoth (i : Ioapic) (num n : ℕ) (v : BitVec 32) :
    ((i.writeIoapic (num * 2 + REG_INT0) v).writeIoapic (num * 2 + REG_INT0 + 1) 0).regs
      (n * 2 + REG_INT0) = if n = num then v else i.regs (n * 2 + REG_INT0) := by
  simp only [writeIoapic]
  rw [Function.update_of_ne (by omega), Function.update_apply]
  exact if_congr (by omega) rfl rfl

theorem regs_maskIoapic (i : Ioapic) (num n : ℕ) :
    (i.maskIoapic num).regs (n * 2 + REG_INT0) =
      if n = num then 1 <<< 16 ||| wiring num ||| BitVec.ofNat 32 (0x20 + num)
      else i.regs (n * 2 + REG_INT0) := regs_writeBoth ..

theorem regs_unmaskIoapic (i : Ioapic) (num n : ℕ) :
    (i.unmaskIoapic num).regs (n * 2 + REG_INT0) =
      if n = num then wiring num ||| BitVec.ofNat 32 (0x20 + num)
      else i.regs (n * 2 + REG_INT0) := regs_writeBoth ..

theorem regs_foldl_maskIoapic (i : Ioapic) {k : ℕ} (hn : n < k) :
    ((List.range k).foldl maskIoapic i).regs (n * 2 + REG_INT0) =
      1 <<< 16 ||| wiring n ||| BitVec.ofNat 32 (0x20 + n) := by
  induction k with
  | zero => omega
  | succ k ih =>
    rw [List.range_succ, List.foldl_append, List.foldl_cons, List.foldl_nil, regs_maskIoapic]
    split_ifs with he
    · rw [he]
    · exact ih (by omega)

/-- Bit 16 of an entry is its mask, and its low byte the vector. -/
theorem entry_fields (hn : n < 24) (masked : Bool) :
    let entry := (if masked then 1 <<< 16 else 0) ||| wiring n ||| BitVec.ofNat 32 (0x20 + n)
    entry.getLsbD 16 = masked ∧ entry.toNat % 256 = 0x20 + n := by
  cases masked <;> interval_cases n <;> decide

end Ioapic

theorem Hardware.ack_eq (h : Hardware) (irq : ℕ) : h.ack irq = h := by
  have hp : h.pics.ack8259 irq = h.pics := by
    rw [Pics.ack8259]
    split_ifs <;> rfl
  rw [ack, hp]
  split_ifs <;> rfl

theorem Hardware.usingIOAPIC_mask (h : Hardware) (irq : ℕ) :
    (h.mask irq).usingIOAPIC = h.usingIOAPIC ∧ (h.unmask irq).usingIOAPIC = h.usingIOAPIC := by
  rw [mask, unmask]
  split_ifs <;> exact ⟨rfl, rfl⟩

namespace Hardware.Masks

theorem boot (h : Hardware) (hm : h.pics.irqMask = 0xFFFF - 4) (a b : BitVec 8) :
    (h.boot a b).Masks fun n => (h.boot a b).usingIOAPIC || decide (n < 16 ∧ n ≠ 2) := by
  have hmask : ∀ n < 24, (0xFFFF - 4 : BitVec 32).getLsbD n = decide (n < 16 ∧ n ≠ 2) := by decide
  unfold Hardware.boot Hardware.initIoapic
  split_ifs with hreg
  · refine ⟨Pics.ready_initIrqs .., fun _ n hn => ?_, fun hio => (by cases hio)⟩
    dsimp only
    rw [Pics.irqMask_initIrqs, hm, hmask n hn, Bool.false_or]
  · refine ⟨Pics.ready_initIrqs .., fun hio => (by cases hio), fun _ n hn => ?_⟩
    exact Ioapic.regs_foldl_maskIoapic _ hn

theorem mask (hm : h.Masks m) : (h.mask irq).Masks (Function.update m irq true) := by
  unfold Hardware.mask
  split_ifs with hio
  · refine ⟨hm.pics, fun hno => absurd (hio.symm.trans hno) (by decide), fun _ n hn => ?_⟩
    dsimp only
    rw [Ioapic.regs_maskIoapic, hm.entry hio n hn]
    by_cases he : n = irq
    · subst he
      simp
    · simp [he]
  · have hbits : ∀ n < 24, (h.pics.irqMask ||| 1#32 <<< irq).getLsbD n =
        Function.update m irq true n := by
      intro n hn
      rw [getLsbD_mask _ hn, hm.irqMask (by simpa using hio) n hn, Function.update_apply]
      by_cases he : n = irq <;> simp [he]
    obtain ⟨hlow, hhigh⟩ := setWidth_of_bits h.pics.irqMask
      (h.pics.irqMask ||| 1#32 <<< irq) irq fun n hn he => by
        rw [getLsbD_mask _ hn]
        simp [he]
    refine ⟨hm.pics.writeMask hlow hhigh, fun _ n hn => ?_, fun hyes => absurd hyes hio⟩
    dsimp only
    rw [Pics.mask8259, Pics.irqMask_writeMask]
    exact hbits n hn

theorem unmask (hm : h.Masks m) : (h.unmask irq).Masks (Function.update m irq false) := by
  unfold Hardware.unmask
  split_ifs with hio
  · refine ⟨hm.pics, fun hno => absurd (hio.symm.trans hno) (by decide), fun _ n hn => ?_⟩
    dsimp only
    rw [Ioapic.regs_unmaskIoapic, hm.entry hio n hn]
    by_cases he : n = irq
    · subst he
      simp
    · simp [he]
  · have hbits : ∀ n < 24, (h.pics.irqMask &&& ~~~(1#32 <<< irq)).getLsbD n =
        Function.update m irq false n := by
      intro n hn
      rw [getLsbD_unmask _ hn, hm.irqMask (by simpa using hio) n hn, Function.update_apply]
      by_cases he : n = irq <;> simp [he]
    obtain ⟨hlow, hhigh⟩ := setWidth_of_bits h.pics.irqMask
      (h.pics.irqMask &&& ~~~(1#32 <<< irq)) irq fun n hn he => by
        rw [getLsbD_unmask _ hn]
        simp [he]
    refine ⟨hm.pics.writeMask hlow hhigh, fun _ n hn => ?_, fun hyes => absurd hyes hio⟩
    dsimp only
    rw [Pics.unmask8259, Pics.irqMask_writeMask]
    exact hbits n hn

/-- A line of the second 8259 arrives only while the cascade is open as well. -/
theorem vector (hm : h.Masks m) (hn : n < 24) : h.vector n =
    if m n = false ∧ (h.usingIOAPIC = true ∨ n < 8 ∨ n < 16 ∧ m 2 = false) then some (0x20 + n)
    else none := by
  unfold Hardware.vector
  by_cases hio : h.usingIOAPIC = true
  · obtain ⟨hmask, hvec⟩ := Ioapic.entry_fields hn (m n)
    rw [if_pos hio]
    dsimp only
    rw [hm.entry hio n hn, hmask, hvec]
    exact if_congr (by simp [hn, hio]) rfl rfl
  rw [if_neg hio]
  have hbit := hm.irqMask (by simpa using hio)
  by_cases h8 : n < 8
  · have hn' : h.pics.master.imr.getLsbD n = m n := by
      rw [hm.pics.master, ← hbit n hn, BitVec.getLsbD_setWidth, decide_eq_true h8, Bool.true_and]
    rw [if_pos h8, hn', hm.pics.master]
    cases m n <;> simp [h8]
  rw [if_neg h8]
  by_cases h16 : n < 16
  · have hn' : h.pics.slave.imr.getLsbD (n - 8) = m n := by
      rw [hm.pics.slave, ← hbit n hn, BitVec.getLsbD_setWidth, BitVec.getLsbD_ushiftRight,
        decide_eq_true (by omega : n - 8 < 8), Bool.true_and, Nat.add_sub_cancel' (by omega)]
    have h2 : h.pics.master.imr.getLsbD 2 = m 2 := by
      rw [hm.pics.master, ← hbit 2 (by omega), BitVec.getLsbD_setWidth]
      rfl
    rw [if_pos h16, hn', h2, hm.pics.master, hm.pics.slave]
    cases m n <;> cases m 2 <;> simp [h8, h16, hio]
    omega
  · rw [if_neg h16, if_neg (by simp [hio, h8, h16])]

end Hardware.Masks

end Racoon.Irq
