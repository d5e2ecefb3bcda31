import Mathlib.Data.BitVec
import Racoon.Lib.Run
import Racoon.Machine

/-!
# Segment descriptors

`kernel/gdt.c`. A descriptor has the base and the length of its segment in several
fields, and the type of it shares a byte with the top bits of the length. That byte is
0 where a slot is free. Four bits only are stored of the last byte of a base.
-/

namespace Racoon.Gdt
open Lib

def MAX_CPU : ℤ := 8
def MAX_GDT : ℕ := 256

structure SegmentDescriptor where
  segLength0_15 : BitVec 16
  baseAddr0_15 : BitVec 16
  baseAddr16_23 : BitVec 8
  flags : BitVec 8
  type : BitVec 8
  baseAddr24_31 : BitVec 8

/-- `cpu[ .. ].gdt` -/
abbrev Tables := ℤ → ℕ → SegmentDescriptor

def Tables.set (gdt : Tables) (cpuId : ℤ) (pos : ℕ) (d : SegmentDescriptor) : Tables :=
  Function.update gdt cpuId (Function.update (gdt cpuId) pos d)

/-- What `gdt_new_segment` writes to a slot. -/
def descriptor (base length : BitVec 32) (flags type : BitVec 8) (access : BitVec 32) :
    SegmentDescriptor where
  segLength0_15 := (length &&& 0xFFFF#32).setWidth 16
  baseAddr0_15 := (base &&& 0xFFFF#32).setWidth 16
  baseAddr16_23 := (base >>> 16 &&& 0xFF#32).setWidth 8
  flags := (flags.setWidth 32 ||| access).setWidth 8
  type := (type.setWidth 32 ||| (length >>> 16 &&& 0xF#32)).setWidth 8
  baseAddr24_31 := (base >>> 24 &&& 0xF#32).setWidth 8

/-- The loop over the slots; behind the last one is `assert( 1 == 2 )`. -/
def newSegmentFrom (gdt : Tables) (cpuId : ℤ) (d : SegmentDescriptor) :
    ℕ → ℕ → Outcome (Tables × ℕ)
  | 0, _ => .error .assertion
  | left + 1, pos =>
    if (gdt cpuId pos).type = 0 then .ok (gdt.set cpuId pos d, pos * 8)
    else newSegmentFrom gdt cpuId d left (pos + 1)

def gdtNewSegment (gdt : Tables) (cpuId : ℤ) (base length : BitVec 32) (flags type : BitVec 8)
    (access : BitVec 32) : Outcome (Tables × ℕ) := do
  assert (0 ≤ cpuId ∧ cpuId < MAX_CPU)
  newSegmentFrom gdt cpuId (descriptor base length flags type access) (MAX_GDT - 1) 1

/-- The sum of the shifted fields. -/
def SegmentDescriptor.offset (d : SegmentDescriptor) : BitVec 32 :=
  d.baseAddr0_15.setWidth 32 + d.baseAddr16_23.setWidth 32 <<< 16 +
    d.baseAddr24_31.setWidth 32 <<< 24

def gdtGetOffset (gdt : Tables) (cpuId : ℤ) (entry : ℕ) : Outcome (BitVec 32) := do
  assert (0 ≤ cpuId ∧ cpuId < MAX_CPU)
  .ok (gdt cpuId (entry / 8)).offset

/-- The length that the processor finds in a descriptor. -/
def SegmentDescriptor.length (d : SegmentDescriptor) : BitVec 32 :=
  d.segLength0_15.setWidth 32 + (d.type &&& 0xF#8).setWidth 32 <<< 16

structure Call where
  cpuId : ℤ
  base : BitVec 32
  length : BitVec 32
  flags : BitVec 8
  type : BitVec 8
  access : BitVec 32

/-- A type that is not 0 and a length of 20 bits, for a processor with a free slot. -/
structure Call.Permitted (gdt : Tables) (c : Call) : Prop where
  cpu : 0 ≤ c.cpuId ∧ c.cpuId < MAX_CPU
  type : c.type ≠ 0
  length : c.length < 2 ^ 20
  free : ∃ pos, 1 ≤ pos ∧ pos < MAX_GDT ∧ (gdt c.cpuId pos).type = 0

/-- Any calls, from any tables, with the selectors that they returned. -/
def gdtSystem : System (Tables × List (Call × ℕ)) Call Fault where
  Init s := s.2 = []
  Guard s c := c.Permitted s.1
  step s c := do
    let (gdt, selector) ← gdtNewSegment s.1 c.cpuId c.base c.length c.flags c.type c.access
    .ok (gdt, (c, selector) :: s.2)

/-- The selector stands for the segment that the call described. -/
structure Decodes (gdt : Tables) (x : Call × ℕ) : Prop where
  offset : gdtGetOffset gdt x.1.cpuId x.2 = .ok x.1.base
  length : (gdt x.1.cpuId (x.2 / 8)).length = x.1.length

/-- Selectors of a processor are different, and each decodes to what was encoded. -/
structure AllDecode (gdt : Tables) (issued : List (Call × ℕ)) : Prop where
  selector : ∀ x ∈ issued, x.2 ≠ 0 ∧ x.2 % 8 = 0
  apart : issued.Pairwise fun x y => x.1.cpuId = y.1.cpuId → x.2 ≠ y.2
  decodes : ∀ x ∈ issued, Decodes gdt x

/-- The base has 28 bits, and the type has none that the length does not have there. -/
def Call.Fits (c : Call) : Prop :=
  c.base < 2 ^ 28 ∧ (c.type.setWidth 32 ||| c.length >>> 16) &&& 0xF#32 = c.length >>> 16

section Fields
variable (base length : BitVec 32) (flags type : BitVec 8) (access : BitVec 32)

theorem mask_toNat (x : BitVec 32) : (x &&& 0xF#32).toNat = x.toNat % 16 ∧
    (x &&& 0xFF#32).toNat = x.toNat % 256 ∧ (x &&& 0xFFFF#32).toNat = x.toNat % 65536 :=
  ⟨Nat.and_two_pow_sub_one_eq_mod x.toNat 4, Nat.and_two_pow_sub_one_eq_mod x.toNat 8,
    Nat.and_two_pow_sub_one_eq_mod x.toNat 16⟩

theorem offset_toNat : (descriptor base length flags type access).offset.toNat =
    base.toNat % 2 ^ 28 := by
  have hbase := base.isLt
  simp only [SegmentDescriptor.offset, descriptor, BitVec.toNat_add, BitVec.toNat_setWidth,
    BitVec.toNat_shiftLeft, BitVec.toNat_ushiftRight, mask_toNat, Nat.shiftLeft_eq,
    Nat.shiftRight_eq_div_pow]
  omega

/-- The base comes back without its first four bits. -/
theorem offset_eq_iff :
    (descriptor base length flags type access).offset = base ↔ base < 2 ^ 28 := by
  rw [← BitVec.toNat_inj, offset_toNat, BitVec.lt_def]
  exact Nat.mod_eq_iff_lt (by decide)

/-- The byte of the type, without its truncations. -/
theorem type_toNat (hlen : length < 2 ^ 20) :
    (descriptor base length flags type access).type.toNat =
    type.toNat ||| length.toNat / 2 ^ 16 := by
  have hlt : length.toNat < 2 ^ 20 := hlen
  have htype := type.isLt
  have hor : type.toNat ||| length.toNat / 2 ^ 16 < 2 ^ 8 := Nat.or_lt_two_pow htype (by omega)
  simp only [descriptor, BitVec.toNat_setWidth, BitVec.toNat_or, BitVec.toNat_ushiftRight,
    mask_toNat, Nat.shiftRight_eq_div_pow]
  rw [Nat.mod_eq_of_lt (show type.toNat < 2 ^ 32 by omega),
    Nat.mod_eq_of_lt (show length.toNat / 2 ^ 16 < 16 by omega), Nat.mod_eq_of_lt hor]

theorem type_ne_zero (hlen : length < 2 ^ 20) (h : type ≠ 0) :
    (descriptor base length flags type access).type ≠ 0 := by
  intro hzero
  have hor := type_toNat base length flags type access hlen
  have hle : type.toNat ≤ type.toNat ||| length.toNat / 2 ^ 16 := Nat.left_le_or
  rw [hzero] at hor
  exact h (BitVec.eq_of_toNat_eq (Nat.le_zero.mp (hle.trans hor.ge)))

/-- The length comes back if the type has left its top bits as they were. -/
theorem length_eq_iff (hlen : length < 2 ^ 20) :
    (descriptor base length flags type access).length = length ↔
      (type.setWidth 32 ||| length >>> 16) &&& 0xF#32 = length >>> 16 := by
  have hlt : length.toNat < 2 ^ 20 := hlen
  have htype := type.isLt
  have hnibble : ((descriptor base length flags type access).type &&& 0xF#8).toNat =
      (type.toNat ||| length.toNat / 2 ^ 16) % 16 := by
    rw [← type_toNat base length flags type access hlen]
    exact Nat.and_two_pow_sub_one_eq_mod _ 4
  have hlow : (descriptor base length flags type access).segLength0_15.toNat =
      length.toNat % 2 ^ 16 := by
    simp only [descriptor, BitVec.toNat_setWidth, mask_toNat]
    omega
  have hlength : (descriptor base length flags type access).length.toNat =
      length.toNat % 2 ^ 16 + (type.toNat ||| length.toNat / 2 ^ 16) % 16 * 2 ^ 16 := by
    simp only [SegmentDescriptor.length, BitVec.toNat_add, BitVec.toNat_setWidth,
      BitVec.toNat_shiftLeft, Nat.shiftLeft_eq, hnibble, hlow]
    omega
  have hcond : ((type.setWidth 32 ||| length >>> 16) &&& 0xF#32).toNat =
      (type.toNat ||| length.toNat / 2 ^ 16) % 16 := by
    rw [(mask_toNat _).1, BitVec.toNat_or, BitVec.toNat_setWidth, BitVec.toNat_ushiftRight,
      Nat.mod_eq_of_lt (show type.toNat < 2 ^ 32 by omega), Nat.shiftRight_eq_div_pow]
  rw [← BitVec.toNat_inj, ← BitVec.toNat_inj, hlength, hcond, BitVec.toNat_ushiftRight,
    Nat.shiftRight_eq_div_pow]
  omega

end Fields

section Slots
variable {gdt gdt' : Tables} {cpuId : ℤ} {d : SegmentDescriptor}

theorem newSegmentFrom_eq_ok {left pos selector : ℕ}
    (h : newSegmentFrom gdt cpuId d left pos = .ok (gdt', selector)) :
    ∃ p, pos ≤ p ∧ p < pos + left ∧ (gdt cpuId p).type = 0 ∧ gdt' = gdt.set cpuId p d ∧
      selector = p * 8 := by
  induction left generalizing pos with
  | zero => cases h
  | succ left ih =>
    rw [newSegmentFrom] at h
    by_cases hfree : (gdt cpuId pos).type = 0
    · rw [if_pos hfree] at h
      cases h
      exact ⟨pos, le_rfl, by omega, hfree, rfl, rfl⟩
    · rw [if_neg hfree] at h
      obtain ⟨p, hp, hlt, hp₀, hset⟩ := ih h
      exact ⟨p, by omega, by omega, hp₀, hset⟩

/-- The loop meets the free slot, if not another one before. -/
theorem newSegmentFrom_total {left pos p : ℕ} (hp : pos ≤ p) (hlt : p < pos + left)
    (hfree : (gdt cpuId p).type = 0) : ∃ r, newSegmentFrom gdt cpuId d left pos = .ok r := by
  induction left generalizing pos with
  | zero => omega
  | succ left ih =>
    rw [newSegmentFrom]
    by_cases hpos : (gdt cpuId pos).type = 0
    · exact ⟨_, if_pos hpos⟩
    · rw [if_neg hpos]
      have hne : pos ≠ p := fun he => hpos (he ▸ hfree)
      exact ih (by omega) (by omega)

@[simp] theorem set_self (gdt : Tables) (cpuId : ℤ) (pos : ℕ) (d : SegmentDescriptor) :
    gdt.set cpuId pos d cpuId pos = d := by
  rw [Tables.set, Function.update_self, Function.update_self]

theorem set_of_ne {cpuId' : ℤ} {pos pos' : ℕ} (h : cpuId' = cpuId → pos' ≠ pos) :
    gdt.set cpuId pos d cpuId' pos' = gdt cpuId' pos' := by
  unfold Tables.set
  by_cases hc : cpuId' = cpuId
  · rw [hc, Function.update_self, Function.update_of_ne (h hc)]
  · rw [Function.update_of_ne hc]

end Slots

def Call.descriptor (c : Call) : SegmentDescriptor :=
  Gdt.descriptor c.base c.length c.flags c.type c.access

/-- The slot of a selector is as its call has written it. -/
structure Stored (gdt : Tables) (x : Call × ℕ) : Prop where
  cpu : 0 ≤ x.1.cpuId ∧ x.1.cpuId < MAX_CPU
  type : x.1.type ≠ 0
  length : x.1.length < 2 ^ 20
  slot : ∃ pos, 0 < pos ∧ x.2 = pos * 8 ∧ gdt x.1.cpuId pos = x.1.descriptor

structure AllStored (gdt : Tables) (issued : List (Call × ℕ)) : Prop where
  stored : ∀ x ∈ issued, Stored gdt x
  apart : issued.Pairwise fun x y => x.1.cpuId = y.1.cpuId → x.2 ≠ y.2

section Runs
variable {gdt : Tables} {issued : List (Call × ℕ)} {c : Call}

theorem Stored.decodes_iff {x : Call × ℕ} (h : Stored gdt x) : Decodes gdt x ↔ x.1.Fits := by
  obtain ⟨pos, -, hsel, hslot⟩ := h.slot
  have hpos : x.2 / 8 = pos := by omega
  have hoffset : gdtGetOffset gdt x.1.cpuId x.2 = .ok x.1.descriptor.offset := by
    rw [gdtGetOffset, assert_of h.cpu, ok_bind, hpos, hslot]
  constructor
  · rintro ⟨hbase, hlength⟩
    rw [hoffset, Except.ok.injEq] at hbase
    rw [hpos, hslot] at hlength
    exact ⟨(offset_eq_iff ..).mp hbase, (length_eq_iff _ _ _ _ _ h.length).mp hlength⟩
  · rintro ⟨hbase, hlength⟩
    constructor
    · rw [hoffset]
      exact congrArg Except.ok ((offset_eq_iff ..).mpr hbase)
    · rw [hpos, hslot]
      exact (length_eq_iff _ _ _ _ _ h.length).mpr hlength

/-- A slot in use is not taken again, as its type is not 0. -/
theorem AllStored.step (h : AllStored gdt issued) (hc : c.Permitted gdt) :
    ∃ gdt' selector, gdtSystem.step (gdt, issued) c = .ok (gdt', (c, selector) :: issued) ∧
      AllStored gdt' ((c, selector) :: issued) := by
  obtain ⟨p, hp, hlt, hfree⟩ := hc.free
  obtain ⟨⟨gdt', selector⟩, hrun⟩ : ∃ r, newSegmentFrom gdt c.cpuId c.descriptor (MAX_GDT - 1) 1 =
      .ok r := newSegmentFrom_total hp (by omega) hfree
  obtain ⟨pos, hpos, -, hzero, rfl, hsel⟩ := newSegmentFrom_eq_ok hrun
  have hother : ∀ x ∈ issued, x.1.cpuId = c.cpuId → ∀ q, x.2 = q * 8 →
      gdt x.1.cpuId q = x.1.descriptor → q ≠ pos := by
    rintro x hx hcpu q - hslot rfl
    rw [hcpu] at hslot
    rw [hslot] at hzero
    exact type_ne_zero _ _ _ _ _ (h.stored x hx).length (h.stored x hx).type hzero
  refine ⟨gdt.set c.cpuId pos c.descriptor, selector, ?_, ⟨?_, ?_⟩⟩
  · change (gdtNewSegment gdt c.cpuId c.base c.length c.flags c.type c.access >>= _) = _
    rw [gdtNewSegment, assert_of hc.cpu, ok_bind, ← Call.descriptor, hrun, ok_bind]
  · intro x hx
    rcases List.mem_cons.mp hx with rfl | hx
    · exact ⟨hc.cpu, hc.type, hc.length, pos, hpos, hsel, set_self ..⟩
    · obtain ⟨hcpu, htype, hlength, q, hq, hxsel, hslot⟩ := h.stored x hx
      refine ⟨hcpu, htype, hlength, q, hq, hxsel, ?_⟩
      rw [set_of_ne fun he => hother x hx he q hxsel hslot, hslot]
  · refine List.pairwise_cons.mpr ⟨fun x hx hcpu heq => ?_, h.apart⟩
    obtain ⟨-, -, -, q, -, hxsel, hslot⟩ := h.stored x hx
    refine hother x hx hcpu.symm q hxsel hslot ?_
    change selector = x.2 at heq
    omega

theorem AllStored.decode_iff (h : AllStored gdt issued) :
    AllDecode gdt issued ↔ ∀ x ∈ issued, x.1.Fits := by
  constructor
  · exact fun hall x hx => (h.stored x hx).decodes_iff.mp (hall.decodes x hx)
  · intro hfits
    refine ⟨fun x hx => ?_, h.apart, fun x hx => (h.stored x hx).decodes_iff.mpr (hfits x hx)⟩
    obtain ⟨-, -, -, pos, hpos, hsel, -⟩ := h.stored x hx
    omega

theorem allStored_of_steps {s t : Tables × List (Call × ℕ)} {cs : List Call}
    (h : gdtSystem.Steps s cs t) (hs : s.2 = []) :
    AllStored t.1 t.2 ∧ t.2.map Prod.fst = cs.reverse := by
  induction h with
  | nil =>
    rw [hs]
    exact ⟨⟨by simp, List.Pairwise.nil⟩, rfl⟩
  | snoc _ hg hstep ih =>
    obtain ⟨gdt', selector, hrun, hstored⟩ := ih.1.step hg
    rw [hrun] at hstep
    cases hstep
    refine ⟨hstored, ?_⟩
    rw [List.map_cons, ih.2, List.reverse_append]
    rfl

/-- No call fails, and at the end of a run all selectors decode to what was encoded if each call was
for a base of 28 bits and a type that leaves the length alone. -/
theorem segments_decode_iff {s t : Tables × List (Call × ℕ)} {cs : List Call}
    (hs : gdtSystem.Init s) (h : gdtSystem.Steps s cs t) :
    (∀ c, c.Permitted t.1 → ∃ u, gdtSystem.step t c = .ok u) ∧
      (AllDecode t.1 t.2 ↔ ∀ c ∈ cs, c.Fits) := by
  obtain ⟨hstored, hcalls⟩ := allStored_of_steps h hs
  refine ⟨fun c hc => ?_, hstored.decode_iff.trans ?_⟩
  · obtain ⟨gdt', selector, hrun, -⟩ := hstored.step hc
    exact ⟨_, hrun⟩
  · constructor
    · intro hall c hc
      have hmem : c ∈ t.2.map Prod.fst := hcalls ▸ List.mem_reverse.mpr hc
      obtain ⟨x, hx, rfl⟩ := List.mem_map.mp hmem
      exact hall x hx
    · intro hall x hx
      have hmem : x.1 ∈ cs.reverse := hcalls ▸ List.mem_map_of_mem hx
      exact hall x.1 (List.mem_reverse.mp hmem)

end Runs

def emptyTables : Tables := fun _ _ => ⟨0, 0, 0, 0, 0, 0⟩

/-- The segment of a task, with its base. -/
def taskSegment (base : BitVec 32) : Call := ⟨0, base, 0x68, 0x89, 0x10, 0⟩

theorem taskSegment_permitted (base : BitVec 32) {gdt : Tables} (pos : ℕ)
    (hpos : 1 ≤ pos ∧ pos < MAX_GDT) (hfree : (gdt 0 pos).type = 0) :
    (taskSegment base).Permitted gdt where
  cpu := show (0 : ℤ) ≤ 0 ∧ (0 : ℤ) < MAX_CPU by decide
  type := show (0x10 : BitVec 8) ≠ 0 by decide
  length := show (0x68 : BitVec 32) < 2 ^ 20 by decide
  free := ⟨pos, hpos.1, hpos.2, hfree⟩

theorem taskSegment_steps (base : BitVec 32) :
    gdtSystem.Steps (emptyTables, []) [taskSegment base]
      (emptyTables.set 0 1 (taskSegment base).descriptor, [(taskSegment base, 8)]) :=
  .one (taskSegment_permitted base 1 (by decide) rfl) rfl

/-- Two tasks get two segments. -/
theorem tasks_decode : ∃ t,
    gdtSystem.Steps (emptyTables, []) [taskSegment 0x123000, taskSegment 0xFEDC000] t ∧
    t.2 = [(taskSegment 0xFEDC000, 16), (taskSegment 0x123000, 8)] ∧ AllDecode t.1 t.2 := by
  have hinit : gdtSystem.Init (emptyTables, []) := rfl
  have hrun := (taskSegment_steps 0x123000).snoc
    (taskSegment_permitted 0xFEDC000 2 (by decide) rfl) rfl
  refine ⟨_, hrun, rfl, (segments_decode_iff hinit hrun).2.mpr fun c hc => ?_⟩
  simp only [List.cons_append, List.nil_append, List.mem_cons, List.not_mem_nil, or_false] at hc
  rcases hc with rfl | rfl
  · exact ⟨show (0x123000 : BitVec 32) < 2 ^ 28 by decide, by decide⟩
  · exact ⟨show (0xFEDC000 : BitVec 32) < 2 ^ 28 by decide, by decide⟩

/-- The base of a segment above 256 MB comes back without its first digit. -/
theorem high_base_is_lost : ∃ t, gdtSystem.Steps (emptyTables, []) [taskSegment 0x12345678] t ∧
    gdtGetOffset t.1 0 8 = .ok 0x2345678 ∧ ¬ AllDecode t.1 t.2 := by
  refine ⟨_, taskSegment_steps 0x12345678, by decide, fun h => ?_⟩
  have hdecodes := (h.decodes _ List.mem_cons_self).offset
  exact absurd hdecodes (by decide)

end Racoon.Gdt
