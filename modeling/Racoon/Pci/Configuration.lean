import Mathlib.Tactic

/-!
# PCI configuration space

The probing half of `kernel/pci.c`. A port write latches the address of a register and the
data port then reads or writes it; both are one access here. `pci_probe` fills the structure
it is given field by field, and leaves in it what it does not read.
-/

namespace Racoon.Pci

def PCI_HEADER_TYPE_NORMAL : BitVec 8 := 0
def PCI_HEADER_TYPE_BRIDGE : BitVec 8 := 1
def PCI_HEADER_TYPE_CARDBUS : BitVec 8 := 2
def PCI_INTERRUPT_LINE : ℕ := 0x3C
def PCI_INTERRUPT_PIN : ℕ := 0x3D
def PCI_SUBSYSTEM_VENDOR_ID : ℕ := 0x2C
def PCI_SUBSYSTEM_ID : ℕ := 0x2E
def PCI_CB_SUBSYSTEM_VENDOR_ID : ℕ := 0x40
def PCI_CB_SUBSYSTEM_ID : ℕ := 0x42
def PCI_ROM_ADDRESS : ℕ := 0x30
def PCI_ROM_ADDRESS_1 : ℕ := 0x38
def PCI_ROM_ADDRESS_ENABLE : BitVec 32 := 0x01
def PCI_BASE_ADDRESS_0 : ℕ := 0x10
def PCI_BASE_ADDRESS_SPACE : BitVec 32 := 0x01
def PCI_BASE_ADDRESS_SPACE_MEMORY : BitVec 32 := 0x00
def PCI_IO_RESOURCE_MEM : BitVec 8 := 0x00
def PCI_IO_RESOURCE_IO : BitVec 8 := 0x01
def PCI_ROM_ADDRESS_MASK : BitVec 32 := ~~~0x7FF
def PCI_BASE_ADDRESS_MEM_MASK : BitVec 32 := ~~~0x0F
def PCI_BASE_ADDRESS_IO_MASK : BitVec 32 := ~~~0x03

/-- `struct pci_cfg` -/
structure PciCfg where
  vendorId : BitVec 16
  deviceId : BitVec 16
  command : BitVec 16
  status : BitVec 16
  revisionId : BitVec 8
  interface : BitVec 8
  subClass : BitVec 8
  baseClass : BitVec 8
  cacheLineSize : BitVec 8
  latencyTimer : BitVec 8
  headerType : BitVec 8
  bist : BitVec 8
  bus : BitVec 8
  dev : BitVec 8
  func : BitVec 8
  irq : BitVec 8
  base : Vector (BitVec 32) 6
  size : Vector (BitVec 32) 6
  type : Vector (BitVec 8) 6
  romBase : BitVec 32
  romSize : BitVec 32
  subsysVendor : BitVec 16
  subsysDevice : BitVec 16
  currentState : BitVec 8
  deriving DecidableEq

/-- The address that `confadd_t` lays out. -/
def confadd (bus dev func reg : ℕ) : BitVec 32 :=
  1#1 ++ 0#7 ++ BitVec.ofNat 8 bus ++ BitVec.ofNat 5 dev ++ BitVec.ofNat 3 func ++
    BitVec.ofNat 8 (reg &&& 0xFC)

/-- The register that an address names. -/
def register (address : BitVec 32) : BitVec 8 := address.setWidth 8

/-- The functions behind the host bridge: the dword at an address, and what writing one does.
The first four dwords of a function, which say what it is, do not depend on what is written to
the registers behind them. -/
structure Bridge (σ : Type) where
  read : σ → BitVec 32 → BitVec 32
  write : σ → BitVec 32 → BitVec 32 → σ
  header : ∀ s a a' v, register a < 0x10 → 0x10 ≤ register a' → read (write s a' v) a = read s a

section Access
variable {σ : Type} (b : Bridge σ)

def pciRead (s : σ) (bus dev func reg bytes : ℕ) : BitVec 32 :=
  let v := b.read s (confadd bus dev func reg) >>> (8 * (reg &&& 0x03))
  match bytes with
  | 1 => (v.setWidth 8).setWidth 32
  | 2 => (v.setWidth 16).setWidth 32
  | 4 => v
  | _ => 0

def pciReadConfigByte (s : σ) (bus dev func reg : ℕ) : BitVec 8 :=
  (pciRead b s bus dev func reg 1).setWidth 8

def pciReadConfigWord (s : σ) (bus dev func reg : ℕ) : BitVec 16 :=
  (pciRead b s bus dev func reg 2).setWidth 16

def pciReadConfigDword (s : σ) (bus dev func reg : ℕ) : BitVec 32 :=
  pciRead b s bus dev func reg 4

/-- `pciWrite` of a whole dword, the only width that probing writes. -/
def pciWriteConfigDword (s : σ) (bus dev func reg : ℕ) (val : BitVec 32) : σ :=
  b.write s (confadd bus dev func reg) val

def pciReadIrq (cfg : PciCfg) (s : σ) : PciCfg :=
  let irq := pciReadConfigByte b s cfg.bus.toNat cfg.dev.toNat cfg.func.toNat PCI_INTERRUPT_PIN
  let irq :=
    if irq ≠ 0 then
      pciReadConfigByte b s cfg.bus.toNat cfg.dev.toNat cfg.func.toNat PCI_INTERRUPT_LINE
    else irq
  { cfg with irq := irq }

def pciSize (base mask : BitVec 32) : BitVec 32 :=
  let size := mask &&& base
  let size := size &&& ~~~(size - 1)
  size - 1

/-- All ones are written to a register and what it had is put back; what it had and what could be
read in between. -/
def sizeRegister (cfg : PciCfg) (reg : ℕ) (ones : BitVec 32) (s : σ) :
    BitVec 32 × BitVec 32 × σ :=
  let l := pciReadConfigDword b s cfg.bus.toNat cfg.dev.toNat cfg.func.toNat reg
  let s := pciWriteConfigDword b s cfg.bus.toNat cfg.dev.toNat cfg.func.toNat reg ones
  let sz := pciReadConfigDword b s cfg.bus.toNat cfg.dev.toNat cfg.func.toNat reg
  (l, sz, pciWriteConfigDword b s cfg.bus.toNat cfg.dev.toNat cfg.func.toNat reg l)

/-- `if ( l == 0xFFFFFFFF ) l = 0` -/
def unlessOnes (l : BitVec 32) : BitVec 32 := if l = 0xFFFFFFFF then 0 else l

/-- A round of the loop of `pci_read_bases`. -/
def readBase (r : PciCfg × σ) (i : ℕ) : PciCfg × σ :=
  let (cfg, s) := r
  let (l, sz, s) := sizeRegister b cfg (PCI_BASE_ADDRESS_0 + (i <<< 2)) (~~~0) s
  if sz = 0 ∨ sz = 0xFFFFFFFF then (cfg, s)
  else
    let l := unlessOnes l
    if l &&& PCI_BASE_ADDRESS_SPACE = PCI_BASE_ADDRESS_SPACE_MEMORY then
      ({ cfg with
          base := cfg.base.set! i (l &&& PCI_BASE_ADDRESS_MEM_MASK)
          size := cfg.size.set! i (pciSize sz PCI_BASE_ADDRESS_MEM_MASK)
          type := cfg.type.set! i PCI_IO_RESOURCE_MEM }, s)
    else
      ({ cfg with
          base := cfg.base.set! i (l &&& PCI_BASE_ADDRESS_IO_MASK)
          size := cfg.size.set! i (pciSize sz PCI_BASE_ADDRESS_IO_MASK)
          type := cfg.type.set! i PCI_IO_RESOURCE_IO }, s)

/-- The part of `pci_read_bases` behind its loop. -/
def readRom (r : PciCfg × σ) (rom : ℕ) : PciCfg × σ :=
  let (cfg, s) := r
  if rom = 0 then (cfg, s)
  else
    let cfg := { cfg with romBase := 0, romSize := 0 }
    let (l, sz, s) := sizeRegister b cfg rom (~~~PCI_ROM_ADDRESS_ENABLE) s
    let l := unlessOnes l
    if sz ≠ 0 ∧ sz ≠ 0xFFFFFFFF then
      ({ cfg with
          romBase := l &&& PCI_ROM_ADDRESS_MASK
          romSize := cfg.romSize + pciSize sz PCI_ROM_ADDRESS_MASK }, s)
    else (cfg, s)

def pciReadBases (cfg : PciCfg) (totBases rom : ℕ) (s : σ) : PciCfg × σ :=
  let cfg := { cfg with
    base := Vector.replicate 6 0, size := Vector.replicate 6 0, type := Vector.replicate 6 0 }
  readRom b ((List.range totBases).foldl (readBase b) (cfg, s)) rom

/-- `temp[ i ] = v`, over the first fields of the structure. -/
def PciCfg.setTemp (cfg : PciCfg) (i : ℕ) (v : BitVec 32) : PciCfg :=
  match i with
  | 0 => { cfg with vendorId := v.setWidth 16, deviceId := (v >>> 16).setWidth 16 }
  | 1 => { cfg with command := v.setWidth 16, status := (v >>> 16).setWidth 16 }
  | 2 => { cfg with
      revisionId := v.setWidth 8, interface := (v >>> 8).setWidth 8
      subClass := (v >>> 16).setWidth 8, baseClass := (v >>> 24).setWidth 8 }
  | 3 => { cfg with
      cacheLineSize := v.setWidth 8, latencyTimer := (v >>> 8).setWidth 8
      headerType := (v >>> 16).setWidth 8, bist := (v >>> 24).setWidth 8 }
  | _ => cfg

/-- The words of the subsystem, at the registers of the header's type. -/
def readSubsys (bus dev func vendor device : ℕ) (r : PciCfg × σ) : PciCfg × σ :=
  let (cfg, s) := r
  ({ cfg with
      subsysVendor := pciReadConfigWord b s bus dev func vendor
      subsysDevice := pciReadConfigWord b s bus dev func device }, s)

/-- The `switch` of `pci_probe`. -/
def readByType (bus dev func : ℕ) (cfg : PciCfg) (s : σ) : PciCfg × σ :=
  let type := cfg.headerType &&& 0x7F
  if type = PCI_HEADER_TYPE_NORMAL then
    readSubsys b bus dev func PCI_SUBSYSTEM_VENDOR_ID PCI_SUBSYSTEM_ID
      (pciReadBases b (pciReadIrq b cfg s) 6 PCI_ROM_ADDRESS s)
  else if type = PCI_HEADER_TYPE_BRIDGE then
    pciReadBases b cfg 2 PCI_ROM_ADDRESS_1 s
  else if type = PCI_HEADER_TYPE_CARDBUS then
    readSubsys b bus dev func PCI_CB_SUBSYSTEM_VENDOR_ID PCI_CB_SUBSYSTEM_ID
      (pciReadBases b (pciReadIrq b cfg s) 1 0 s)
  else (cfg, s)

/-- The four dwords that `pci_probe` begins with. -/
def readHeader (bus dev func : ℕ) (cfg : PciCfg) (s : σ) : PciCfg :=
  (List.range 4).foldl
    (fun cfg i => cfg.setTemp i (pciReadConfigDword b s bus dev func (i <<< 2))) cfg

def pciProbe (bus dev func : ℕ) (cfg : PciCfg) (s : σ) : ℤ × PciCfg × σ :=
  let cfg := readHeader b bus dev func cfg s
  if cfg.vendorId = 0xFFFF then (-1, cfg, s)
  else
    let cfg := { cfg with
      bus := BitVec.ofNat 8 bus, dev := BitVec.ofNat 8 dev, func := BitVec.ofNat 8 func
      currentState := 4 }
    (0, readByType b bus dev func cfg s)

end Access

/-- What reading the registers behind the header leaves alone: the ids and the place in the
structure, and the header of every function. -/
structure Kept {σ : Type} (b : Bridge σ) (cfg cfg' : PciCfg) (s s' : σ) : Prop where
  vendorId : cfg'.vendorId = cfg.vendorId
  deviceId : cfg'.deviceId = cfg.deviceId
  bus : cfg'.bus = cfg.bus
  dev : cfg'.dev = cfg.dev
  func : cfg'.func = cfg.func
  header : ∀ a, register a < 0x10 → b.read s' a = b.read s a

/-- The ids of a function as the bus answers. -/
def ids {σ : Type} (b : Bridge σ) (s : σ) (bus dev func : ℕ) : BitVec 32 :=
  b.read s (confadd bus dev func 0)

/-- The place of a function, in words of the structure. -/
structure PciCfg.At (cfg : PciCfg) (bus dev func : ℕ) : Prop where
  bus : cfg.bus = BitVec.ofNat 8 bus
  dev : cfg.dev = BitVec.ofNat 8 dev
  func : cfg.func = BitVec.ofNat 8 func

/-- What a probe of a function leaves, whatever the structure held before. -/
structure Probed {σ : Type} (b : Bridge σ) (bus dev func : ℕ) (s : σ) (r : ℤ × PciCfg × σ) :
    Prop where
  vendorId : r.2.1.vendorId = (ids b s bus dev func).setWidth 16
  deviceId : r.2.1.deviceId = (ids b s bus dev func >>> 16).setWidth 16
  header : ∀ a, register a < 0x10 → b.read r.2.2 a = b.read s a
  ok : r.1 = 0 ↔ r.2.1.vendorId ≠ 0xFFFF
  place : r.1 = 0 → r.2.1.At bus dev func

section Probing
variable {σ : Type} {b : Bridge σ} {cfg cfg' cfg'' : PciCfg} {s s' s'' : σ}

theorem Kept.refl (b : Bridge σ) (cfg : PciCfg) (s : σ) : Kept b cfg cfg s s :=
  ⟨rfl, rfl, rfl, rfl, rfl, fun _ _ => rfl⟩

theorem Kept.trans (h : Kept b cfg cfg' s s') (h' : Kept b cfg' cfg'' s' s'') :
    Kept b cfg cfg'' s s'' where
  vendorId := h'.vendorId.trans h.vendorId
  deviceId := h'.deviceId.trans h.deviceId
  bus := h'.bus.trans h.bus
  dev := h'.dev.trans h.dev
  func := h'.func.trans h.func
  header a ha := (h'.header a ha).trans (h.header a ha)

theorem register_confadd (bus dev func reg : ℕ) :
    register (confadd bus dev func reg) = BitVec.ofNat 8 (reg &&& 0xFC) :=
  BitVec.setWidth_append_eq_right

theorem pciReadIrq_kept (cfg : PciCfg) (s : σ) : Kept b cfg (pciReadIrq b cfg s) s s :=
  ⟨rfl, rfl, rfl, rfl, rfl, fun _ _ => rfl⟩

/-- Both writes of a register behind the header leave every header alone. -/
theorem sizeRegister_header {reg : ℕ} (hreg : 0x10#8 ≤ BitVec.ofNat 8 (reg &&& 0xFC))
    (ones : BitVec 32) {a : BitVec 32} (ha : register a < 0x10) :
    b.read (sizeRegister b cfg reg ones s).2.2 a = b.read s a := by
  have hbehind : ∀ bus dev func, 0x10 ≤ register (confadd bus dev func reg) := by
    intro bus dev func
    rw [register_confadd]
    exact hreg
  unfold sizeRegister pciWriteConfigDword
  rw [b.header _ _ _ _ ha (hbehind _ _ _), b.header _ _ _ _ ha (hbehind _ _ _)]

theorem readBase_kept {i : ℕ} (hi : i < 6) :
    Kept b cfg (readBase b (cfg, s) i).1 s (readBase b (cfg, s) i).2 := by
  have hreg : 0x10#8 ≤ BitVec.ofNat 8 (PCI_BASE_ADDRESS_0 + (i <<< 2) &&& 0xFC) := by
    interval_cases i <;> decide
  have hheader := fun a => @sizeRegister_header σ b cfg s _ hreg (~~~0) a
  unfold readBase
  dsimp only
  split
  · exact ⟨rfl, rfl, rfl, rfl, rfl, hheader⟩
  · split <;> exact ⟨rfl, rfl, rfl, rfl, rfl, hheader⟩

theorem readRom_kept {rom : ℕ} (hrom : 0x10#8 ≤ BitVec.ofNat 8 (rom &&& 0xFC) ∨ rom = 0) :
    Kept b cfg (readRom b (cfg, s) rom).1 s (readRom b (cfg, s) rom).2 := by
  unfold readRom
  dsimp only
  split
  · exact .refl b cfg s
  · rename_i hne
    have hheader := fun cfg a => @sizeRegister_header σ b cfg s _ (hrom.resolve_right hne)
      (~~~PCI_ROM_ADDRESS_ENABLE) a
    split <;> exact ⟨rfl, rfl, rfl, rfl, rfl, hheader _⟩

theorem readBases_kept {left : ℕ} (hleft : left ≤ 6) :
    Kept b cfg ((List.range left).foldl (readBase b) (cfg, s)).1 s
      ((List.range left).foldl (readBase b) (cfg, s)).2 := by
  induction left with
  | zero => exact .refl b cfg s
  | succ left ih =>
    rw [List.range_succ, List.foldl_append]
    exact (ih (by omega)).trans (readBase_kept (by omega))

theorem pciReadBases_kept {totBases rom : ℕ} (hbases : totBases ≤ 6)
    (hrom : 0x10#8 ≤ BitVec.ofNat 8 (rom &&& 0xFC) ∨ rom = 0) :
    Kept b cfg (pciReadBases b cfg totBases rom s).1 s (pciReadBases b cfg totBases rom s).2 := by
  have hcleared : Kept b cfg { cfg with
      base := Vector.replicate 6 0, size := Vector.replicate 6 0, type := Vector.replicate 6 0 }
      s s := ⟨rfl, rfl, rfl, rfl, rfl, fun _ _ => rfl⟩
  exact (hcleared.trans (readBases_kept hbases)).trans (readRom_kept hrom)

theorem readByType_kept (b : Bridge σ) (cfg : PciCfg) (s : σ) (bus dev func : ℕ) :
    Kept b cfg (readByType b bus dev func cfg s).1 s (readByType b bus dev func cfg s).2 := by
  have hsubsys : ∀ vendor device (r : PciCfg × σ), Kept b cfg r.1 s r.2 →
      Kept b cfg (readSubsys b bus dev func vendor device r).1 s
        (readSubsys b bus dev func vendor device r).2 := fun _ _ _ h =>
    ⟨h.vendorId, h.deviceId, h.bus, h.dev, h.func, h.header⟩
  unfold readByType
  dsimp only
  split
  · exact hsubsys _ _ _ ((pciReadIrq_kept cfg s).trans
      (pciReadBases_kept (by omega) (.inl (by decide))))
  split
  · exact pciReadBases_kept (by omega) (.inl (by decide))
  split
  · exact hsubsys _ _ _ ((pciReadIrq_kept cfg s).trans (pciReadBases_kept (by omega) (.inr rfl)))
  · exact .refl b cfg s

theorem readHeader_ids (bus dev func : ℕ) (cfg : PciCfg) (s : σ) :
    (readHeader b bus dev func cfg s).vendorId = (ids b s bus dev func).setWidth 16 ∧
      (readHeader b bus dev func cfg s).deviceId = (ids b s bus dev func >>> 16).setWidth 16 :=
  ⟨rfl, rfl⟩

theorem pciProbe_probed (bus dev func : ℕ) (cfg : PciCfg) (s : σ) :
    Probed b bus dev func s (pciProbe b bus dev func cfg s) := by
  obtain ⟨hvendor, hdevice⟩ := readHeader_ids (b := b) bus dev func cfg s
  unfold pciProbe
  dsimp only
  split
  · rename_i habsent
    exact ⟨hvendor, hdevice, fun _ _ => rfl, iff_of_false (show (-1 : ℤ) ≠ 0 by decide)
      (not_not_intro habsent), fun h => absurd h (show (-1 : ℤ) ≠ 0 by decide)⟩
  · rename_i hpresent
    have hkept := readByType_kept b { readHeader b bus dev func cfg s with
      bus := BitVec.ofNat 8 bus, dev := BitVec.ofNat 8 dev, func := BitVec.ofNat 8 func
      currentState := 4 } s bus dev func
    exact ⟨hkept.vendorId.trans hvendor, hkept.deviceId.trans hdevice, hkept.header,
      iff_of_true rfl (hkept.vendorId.symm ▸ hpresent), fun _ => ⟨hkept.bus, hkept.dev, hkept.func⟩⟩

end Probing
end Racoon.Pci
