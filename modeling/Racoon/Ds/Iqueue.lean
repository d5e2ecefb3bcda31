import Racoon.Machine
import Racoon.Lib.Run
import Racoon.Lib.Ring

/-!
# The integer queue of `ds/iqueue.c`

A ring of integers in an array from `kmalloc` that grows by `grow` when it is
full and shrinks by as much when the number of its elements comes to a multiple
of `grow`. The array is known by the number of integers for which its block has
room, and every access is checked against that number. Sizes in bytes are
products of 32 bits.
-/

namespace Racoon.Iqueues
open Lib

def IQUEUE_NOGROW : ℕ := 1
def IQUEUE_NOSHRINK : ℕ := 2

/-- A block of memory that is used as an array of integers. -/
structure IntArray where
  capacity : ℕ
  cell : ℕ → ℤ

/-- What `kmalloc( count * sizeof(int) )` returns. `litter` is what the memory contains, if there
is memory to be had. -/
def kmallocInts (count : ℕ) (litter : Option (ℕ → ℤ)) : Option IntArray :=
  litter.map fun cell => ⟨count * 4 % 2 ^ 32 / 4, cell⟩

def IntArray.get (a : IntArray) (i : ℕ) : Outcome ℤ :=
  if i < a.capacity then .ok (a.cell i) else .error .badAccess

def IntArray.set (a : IntArray) (i : ℕ) (x : ℤ) : Outcome IntArray :=
  if i < a.capacity then .ok { a with cell := Function.update a.cell i x } else .error .badAccess

structure Iqueue where
  initial : ℕ
  grow : ℕ
  size : ℕ
  start : ℕ
  count : ℕ
  queue : Option IntArray

/-- `kmalloc` is first called for the structure. -/
def iqueueCreate (initialSize growSize : ℕ) (kmalloc : Bool) (litter : Option (ℕ → ℤ)) :
    Option Iqueue :=
  if kmalloc then
    let iq : Iqueue := ⟨initialSize, growSize, initialSize, 0, 0, none⟩
    if 0 < initialSize then
      match kmallocInts initialSize litter with
      | none => none
      | some queue => some { iq with queue := some queue }
    else some iq
  else none

/-- `(a + b) % size` -/
def wrapIndex (a b size : ℕ) : Outcome ℕ :=
  if size = 0 then .error .divideError else .ok (add32 a b % size)

/-- The loop that copies the elements to the beginning of a new array. -/
def relocate (iq : Iqueue) : ℕ → ℕ → IntArray → Outcome IntArray
  | 0, _, newQueue => .ok newQueue
  | left + 1, i, newQueue => do
    let index ← wrapIndex iq.start i iq.size
    let queue ← deref iq.queue
    let x ← queue.get index
    let newQueue ← newQueue.set i x
    relocate iq left (i + 1) newQueue

/-- The elements go into the array `newQueue`, for which `size` is noted. -/
def Iqueue.moveTo (iq : Iqueue) (size : ℕ) (newQueue : IntArray) : Outcome Iqueue := do
  let queue ← relocate iq iq.count 0 newQueue
  .ok { iq with start := 0, size := size, queue := some queue }

/-- `iq->queue[ (iq->start + iq->count++) % iq->size ] = num;` -/
def Iqueue.append (iq : Iqueue) (num : ℤ) : Outcome Iqueue := do
  let index ← wrapIndex iq.start iq.count iq.size
  let queue ← deref iq.queue
  let queue ← queue.set index num
  .ok { iq with queue := some queue, count := add32 iq.count 1 }

def iqueueAdd (iq : Iqueue) (num : ℤ) (iqflags : ℕ) (litter : Option (ℕ → ℤ)) :
    Outcome (Iqueue × ℤ) :=
  if iq.size = iq.count then
    if iq.grow = 0 ∨ iqflags &&& IQUEUE_NOGROW = IQUEUE_NOGROW then .ok (iq, -1)
    else
      match kmallocInts (add32 iq.size iq.grow) litter with
      | none => .ok (iq, -1)
      | some newQueue => do
        let iq ← iq.moveTo (add32 iq.size iq.grow) newQueue
        let iq ← iq.append num
        .ok (iq, 0)
  else do
    let iq ← iq.append num
    .ok (iq, 0)

/-- Whether `iqueue_next` tries to shrink the queue, of which `count` elements are left. -/
def Iqueue.Shrinks (iq : Iqueue) (iqflags count : ℕ) : Prop :=
  (iq.grow ≠ 0 ∧ iqflags &&& IQUEUE_NOSHRINK ≠ IQUEUE_NOSHRINK) ∧
    iq.size > iq.initial ∧ count % iq.grow = 0

instance (iq : Iqueue) (iqflags count : ℕ) : Decidable (iq.Shrinks iqflags count) :=
  inferInstanceAs (Decidable (_ ∧ _))

def iqueueNext (iq : Iqueue) (iqflags : ℕ) (litter : Option (ℕ → ℤ)) : Outcome (Iqueue × ℤ) := do
  assert (0 < iq.count)
  let queue ← deref iq.queue
  let rc ← queue.get iq.start
  let start ← wrapIndex iq.start 1 iq.size
  let iq := { iq with start := start, count := iq.count - 1 }
  if iq.Shrinks iqflags iq.count then
    match kmallocInts (sub32 iq.size iq.grow) litter with
    | none => .ok (iq, rc)
    | some newQueue => do
      let iq ← iq.moveTo (sub32 iq.size iq.grow) newQueue
      .ok (iq, rc)
  else .ok (iq, rc)

/-- The elements, the oldest first. -/
def Iqueue.contents (iq : Iqueue) : List ℤ :=
  match iq.queue with
  | none => []
  | some queue => ring queue.cell iq.size iq.start iq.count

/-- A queue whose elements fit in it. Its size is some steps of growth above the initial one. -/
structure Iqueue.Fits (iq : Iqueue) : Prop where
  size_lt : iq.size < 2 ^ 30
  steps : ∃ k, iq.size = iq.initial + k * iq.grow
  count_le : iq.count ≤ iq.size
  start_le : iq.start = 0 ∨ iq.start < iq.size
  room : 0 < iq.size → ∃ queue, iq.queue = some queue ∧ queue.capacity = iq.size

variable {iq : Iqueue} {litter : Option (ℕ → ℤ)}

theorem capacity_of_lt {n : ℕ} (h : n < 2 ^ 30) : n * 4 % 2 ^ 32 / 4 = n := by omega

theorem wrapIndex_of_lt {a b size : ℕ} (ha : a < 2 ^ 31) (hb : b < 2 ^ 31) (hs : 0 < size) :
    wrapIndex a b size = .ok ((a + b) % size) := by
  rw [wrapIndex, if_neg hs.ne', add32_of_lt (by omega)]

namespace Iqueue.Fits

theorem start_lt (h : iq.Fits) (hpos : 0 < iq.size) : iq.start < iq.size := by
  rcases h.start_le with h0 | hlt
  · rw [h0]
    exact hpos
  · exact hlt

theorem contents_eq (h : iq.Fits) (hpos : 0 < iq.size) : ∃ queue, iq.queue = some queue ∧
    queue.capacity = iq.size ∧ iq.contents = ring queue.cell iq.size iq.start iq.count := by
  obtain ⟨queue, hq, hcap⟩ := h.room hpos
  exact ⟨queue, hq, hcap, by rw [Iqueue.contents, hq]⟩

theorem count_zero (h : iq.Fits) (hz : iq.size = 0) : iq.count = 0 := by
  have := h.count_le
  omega

theorem contents_nil (h : iq.Fits) (hz : iq.size = 0) : iq.contents = [] := by
  rw [Iqueue.contents, h.count_zero hz]
  cases iq.queue <;> rfl

theorem length_contents (h : iq.Fits) : iq.contents.length = iq.count := by
  rcases iq.size.eq_zero_or_pos with hz | hpos
  · rw [h.contents_nil hz, h.count_zero hz, List.length_nil]
  · obtain ⟨queue, -, -, hc⟩ := h.contents_eq hpos
    rw [hc, length_ring]

/-- One round after another the copy is made, up to the end of the elements. -/
theorem relocate_eq (h : iq.Fits) {n i : ℕ} {a : IntArray} (hi : i + n = iq.count)
    (hroom : iq.count ≤ a.capacity) :
    ∃ b, relocate iq n i a = .ok b ∧ b.capacity = a.capacity ∧
      (∀ j, j < i → b.cell j = a.cell j) ∧
      ∀ queue, iq.queue = some queue → ∀ j, i ≤ j → j < iq.count →
        b.cell j = queue.cell ((iq.start + j) % iq.size) := by
  induction n generalizing i a with
  | zero => exact ⟨a, rfl, rfl, fun _ _ => rfl, fun _ _ j h₀ h₁ => by omega⟩
  | succ n ih =>
    have hle := h.count_le
    have hlt := h.size_lt
    have hpos : 0 < iq.size := by omega
    have hstart := h.start_lt hpos
    obtain ⟨queue, hq, hcap⟩ := h.room hpos
    have hindex : (iq.start + i) % iq.size < queue.capacity :=
      (Nat.mod_lt _ hpos).trans_eq hcap.symm
    obtain ⟨b, hb, hbcap, hbelow, habove⟩ := ih (i := i + 1)
      (a := { a with cell := Function.update a.cell i (queue.cell ((iq.start + i) % iq.size)) })
      (by omega) hroom
    refine ⟨b, ?_, hbcap, fun j hj => ?_, fun q hqq j h₀ h₁ => ?_⟩
    · rw [relocate, wrapIndex_of_lt (by omega) (by omega) hpos, ok_bind, hq, deref_some, ok_bind,
        IntArray.get, if_pos hindex, ok_bind, IntArray.set, if_pos (by omega), ok_bind, hb]
    · exact (hbelow j (by omega)).trans (Function.update_of_ne (by omega) ..)
    · rcases h₀.eq_or_lt with rfl | hlt
      · obtain rfl : queue = q := Option.some.inj (hq.symm.trans hqq)
        exact (hbelow i (by omega)).trans (Function.update_self ..)
      · exact habove q hqq j hlt h₁

/-- Moved to an array that has room, the queue holds the same elements. -/
theorem moveTo_eq (h : iq.Fits) {size : ℕ} {a : IntArray} (hsize : size < 2 ^ 30)
    (hcap : a.capacity = size) (hcount : iq.count ≤ size)
    (hsteps : ∃ k, size = iq.initial + k * iq.grow) :
    ∃ iq', iq.moveTo size a = .ok iq' ∧ iq'.Fits ∧ iq'.contents = iq.contents ∧
      iq'.size = size ∧ iq'.count = iq.count ∧ iq'.initial = iq.initial ∧ iq'.grow = iq.grow := by
  obtain ⟨b, hb, hbcap, -, hcopy⟩ := h.relocate_eq (n := iq.count) (i := 0) (a := a)
    (Nat.zero_add _) (hcap ▸ hcount)
  refine ⟨{ iq with start := 0, size := size, queue := some b }, ?_,
    ⟨hsize, hsteps, hcount, .inl rfl, fun _ => ⟨b, rfl, hbcap.trans hcap⟩⟩, ?_, rfl, rfl, rfl, rfl⟩
  · rw [Iqueue.moveTo, hb]
    rfl
  · rcases iq.size.eq_zero_or_pos with hz | hpos
    · rw [h.contents_nil hz, Iqueue.contents]
      simp only [h.count_zero hz, ring_zero]
    · obtain ⟨queue, hq, -, hc⟩ := h.contents_eq hpos
      rw [hc]
      exact ring_move hcount fun i hi => hcopy queue hq i (Nat.zero_le i) hi

theorem append_eq (h : iq.Fits) (hroom : iq.count < iq.size) (num : ℤ) :
    ∃ iq', iq.append num = .ok iq' ∧ iq'.Fits ∧ iq'.contents = iq.contents ++ [num] ∧
      iq'.initial = iq.initial ∧ iq'.grow = iq.grow := by
  have hpos : 0 < iq.size := by omega
  have hlt := h.size_lt
  have hstart := h.start_lt hpos
  obtain ⟨queue, hq, hcap, hc⟩ := h.contents_eq hpos
  have hindex : (iq.start + iq.count) % iq.size < queue.capacity :=
      (Nat.mod_lt _ hpos).trans_eq hcap.symm
  refine ⟨{ iq with
    queue := some { queue with
      cell := Function.update queue.cell ((iq.start + iq.count) % iq.size) num }
    count := iq.count + 1 }, ?_,
    ⟨hlt, h.steps, hroom, h.start_le, fun _ => ⟨_, rfl, hcap⟩⟩, ?_, rfl, rfl⟩
  · rw [Iqueue.append, wrapIndex_of_lt (by omega) (by omega) hpos, ok_bind, hq, deref_some, ok_bind,
      IntArray.set, if_pos hindex, ok_bind, add32_of_lt (by omega)]
  · rw [hc]
    exact ring_push queue.cell iq.start hroom num

/-- An array too small for the elements is written beyond its end. -/
theorem relocate_overflow (h : iq.Fits) {n i : ℕ} {a : IntArray} (hi : i + n = iq.count)
    (hcap : a.capacity < iq.count) (hle : i ≤ a.capacity) :
    relocate iq n i a = .error .badAccess := by
  induction n generalizing i a with
  | zero => omega
  | succ n ih =>
    have hcount := h.count_le
    have hlt := h.size_lt
    have hpos : 0 < iq.size := by omega
    have hstart := h.start_lt hpos
    obtain ⟨queue, hq, hqcap⟩ := h.room hpos
    have hindex : (iq.start + i) % iq.size < queue.capacity :=
      (Nat.mod_lt _ hpos).trans_eq hqcap.symm
    rw [relocate, wrapIndex_of_lt (by omega) (by omega) hpos, ok_bind, hq, deref_some, ok_bind,
      IntArray.get, if_pos hindex, ok_bind, IntArray.set]
    by_cases hin : i < a.capacity
    · rw [if_pos hin, ok_bind]
      exact ih (by omega) hcap hin
    · rw [if_neg hin]
      rfl

/-- The array of the initial size is one step of growth away at least. -/
theorem grow_le (h : iq.Fits) (hgt : iq.size > iq.initial) :
    iq.grow ≤ iq.size ∧ ∃ k, iq.size - iq.grow = iq.initial + k * iq.grow := by
  obtain ⟨k, hk⟩ := h.steps
  cases k with
  | zero => omega
  | succ k =>
    rw [Nat.succ_mul] at hk
    exact ⟨by omega, k, by omega⟩

end Iqueue.Fits

/-- A growth comes to fewer than `2^30` elements. -/
def GrowthSized (iq : Iqueue) (iqflags : ℕ) (litter : Option (ℕ → ℤ)) : Prop :=
  iq.size = iq.count → iq.grow ≠ 0 → iqflags &&& IQUEUE_NOGROW ≠ IQUEUE_NOGROW → litter ≠ none →
    iq.size + iq.grow < 2 ^ 30

/-- A shrink leaves room for the elements left. -/
def ShrinkSized (iq : Iqueue) (iqflags : ℕ) (litter : Option (ℕ → ℤ)) : Prop :=
  iq.Shrinks iqflags (iq.count - 1) → litter ≠ none → iq.count - 1 ≤ iq.size - iq.grow

theorem iqueueAdd_eq (h : iq.Fits) (num : ℤ) {iqflags : ℕ} (hc : GrowthSized iq iqflags litter) :
    ∃ iq' rc, iqueueAdd iq num iqflags litter = .ok (iq', rc) ∧ iq'.Fits ∧
      (rc = -1 ∧ iq' = iq ∨ rc = 0 ∧ iq'.contents = iq.contents ++ [num]) ∧
      iq'.initial = iq.initial ∧ iq'.grow = iq.grow := by
  rw [iqueueAdd]
  by_cases hfull : iq.size = iq.count
  · rw [if_pos hfull]
    by_cases hno : iq.grow = 0 ∨ iqflags &&& IQUEUE_NOGROW = IQUEUE_NOGROW
    · rw [if_pos hno]
      exact ⟨iq, -1, rfl, h, .inl ⟨rfl, rfl⟩, rfl, rfl⟩
    · rw [if_neg hno]
      cases litter with
      | none => exact ⟨iq, -1, rfl, h, .inl ⟨rfl, rfl⟩, rfl, rfl⟩
      | some cell =>
        obtain ⟨hgrow, hflag⟩ := not_or.mp hno
        have hsize := hc hfull hgrow hflag (Option.some_ne_none cell)
        obtain ⟨k, hk⟩ := h.steps
        obtain ⟨iq₁, h₁, hfits₁, hcont₁, hsize₁, hcount₁, hinit₁, hgrow₁⟩ :=
          h.moveTo_eq (a := ⟨(iq.size + iq.grow) * 4 % 2 ^ 32 / 4, cell⟩) hsize
            (capacity_of_lt hsize) (by omega) ⟨k + 1, by rw [Nat.succ_mul]; omega⟩
        obtain ⟨iq₂, h₂, hfits₂, hcont₂, hinit₂, hgrow₂⟩ := hfits₁.append_eq (by omega) num
        refine ⟨iq₂, 0, ?_, hfits₂, .inr ⟨rfl, by rw [hcont₂, hcont₁]⟩, hinit₂.trans hinit₁,
          hgrow₂.trans hgrow₁⟩
        rw [add32_of_lt (by omega)]
        simp only [kmallocInts, Option.map_some]
        rw [h₁, ok_bind, h₂, ok_bind]
  · rw [if_neg hfull]
    have hle := h.count_le
    obtain ⟨iq₁, h₁, hfits₁, hcont₁, hinit₁, hgrow₁⟩ := h.append_eq (by omega) num
    exact ⟨iq₁, 0, by rw [h₁]; rfl, hfits₁, .inr ⟨rfl, hcont₁⟩, hinit₁, hgrow₁⟩

/-- The oldest element taken out, before the array is looked at. -/
def Iqueue.dropFirst (iq : Iqueue) : Iqueue :=
  { iq with start := (iq.start + 1) % iq.size, count := iq.count - 1 }

theorem Iqueue.Fits.dropFirst (h : iq.Fits) (hpos : 0 < iq.count) : iq.dropFirst.Fits := by
  have hle := h.count_le
  exact ⟨h.size_lt, h.steps, by dsimp [Iqueue.dropFirst]; omega,
    .inr (Nat.mod_lt _ (by omega)), h.room⟩

theorem iqueueNext_start (h : iq.Fits) (hpos : 0 < iq.count) : ∃ x,
    iq.contents = x :: iq.dropFirst.contents ∧ ∀ iqflags litter, iqueueNext iq iqflags litter =
      if iq.dropFirst.Shrinks iqflags (iq.count - 1) then
        match kmallocInts (sub32 iq.size iq.grow) litter with
        | none => .ok (iq.dropFirst, x)
        | some newQueue => do
          let iq ← iq.dropFirst.moveTo (sub32 iq.size iq.grow) newQueue
          .ok (iq, x)
      else .ok (iq.dropFirst, x) := by
  have hle := h.count_le
  have hlt := h.size_lt
  have hsize : 0 < iq.size := by omega
  have hstart := h.start_lt hsize
  obtain ⟨queue, hq, hcap, hc⟩ := h.contents_eq hsize
  refine ⟨queue.cell iq.start, ?_, fun iqflags litter => ?_⟩
  · rw [hc]
    conv_lhs => rw [← Nat.sub_add_cancel hpos, ring_pop _ hstart]
    rw [Iqueue.contents, Iqueue.dropFirst, hq]
  · have hdrop : iq.dropFirst = { iq with
        start := (iq.start + 1) % iq.size, count := iq.count - 1, queue := some queue } := by
      rw [Iqueue.dropFirst, hq]
    rw [hdrop, iqueueNext, assert_of hpos, ok_bind, hq, deref_some, ok_bind, IntArray.get,
      if_pos (by omega), ok_bind, wrapIndex_of_lt (by omega) (by omega) hsize, ok_bind]

theorem iqueueNext_eq (h : iq.Fits) (hpos : 0 < iq.count) {iqflags : ℕ}
    (hc : ShrinkSized iq iqflags litter) :
    ∃ iq' x, iqueueNext iq iqflags litter = .ok (iq', x) ∧ iq'.Fits ∧
      iq.contents = x :: iq'.contents ∧ iq'.initial = iq.initial ∧ iq'.grow = iq.grow := by
  obtain ⟨x, hx, heq⟩ := iqueueNext_start h hpos
  have hfits := h.dropFirst hpos
  rw [heq]
  by_cases hs : iq.dropFirst.Shrinks iqflags (iq.count - 1)
  · rw [if_pos hs]
    cases litter with
    | none => exact ⟨iq.dropFirst, x, rfl, hfits, hx, rfl, rfl⟩
    | some cell =>
      have hleft := hc hs (Option.some_ne_none cell)
      obtain ⟨hgrow, hsteps⟩ := h.grow_le hs.2.1
      have hlt := h.size_lt
      obtain ⟨iq₁, h₁, hfits₁, hcont₁, -, -, hinit₁, hgrow₁⟩ :=
        hfits.moveTo_eq (a := ⟨(iq.size - iq.grow) * 4 % 2 ^ 32 / 4, cell⟩)
          ((iq.size.sub_le iq.grow).trans_lt hlt) (capacity_of_lt (by omega)) hleft hsteps
      refine ⟨iq₁, x, ?_, hfits₁, by rw [hcont₁, hx], hinit₁, hgrow₁⟩
      rw [sub32_of_le (by omega) hgrow]
      simp only [kmallocInts, Option.map_some]
      rw [h₁, ok_bind]
  · rw [if_neg hs]
    exact ⟨iq.dropFirst, x, rfl, hfits, hx, rfl, rfl⟩

/-- A shrink that leaves too little room writes beyond the new array. -/
theorem iqueueNext_overflow (h : iq.Fits) (hpos : 0 < iq.count) {iqflags : ℕ}
    (hs : iq.Shrinks iqflags (iq.count - 1)) {cell : ℕ → ℤ}
    (hleft : iq.size - iq.grow < iq.count - 1) :
    iqueueNext iq iqflags (some cell) = .error .badAccess := by
  obtain ⟨x, -, heq⟩ := iqueueNext_start h hpos
  obtain ⟨hgrow, -⟩ := h.grow_le hs.2.1
  have hlt := h.size_lt
  have hcap : (iq.size - iq.grow) * 4 % 2 ^ 32 / 4 = iq.size - iq.grow := capacity_of_lt (by omega)
  rw [heq, if_pos (show iq.dropFirst.Shrinks _ _ from hs), sub32_of_le (by omega) hgrow]
  simp only [kmallocInts, Option.map_some, Iqueue.moveTo]
  rw [(h.dropFirst hpos).relocate_overflow (Nat.zero_add _) (hcap.trans_lt hleft) (Nat.zero_le _)]
  rfl

/-- Where the step divides the initial size, every shrink leaves room. -/
theorem shrinkSized_of_dvd (h : iq.Fits) (hdvd : iq.grow ∣ iq.initial) (iqflags : ℕ)
    (litter : Option (ℕ → ℤ)) : ShrinkSized iq iqflags litter := by
  rintro ⟨⟨hgrow, -⟩, hgt, hmod⟩ -
  obtain ⟨k, hk⟩ := h.steps
  obtain ⟨b, hb⟩ : iq.grow ∣ iq.size := hk ▸ Dvd.dvd.add hdvd (Nat.dvd_mul_left ..)
  obtain ⟨a, ha⟩ := Nat.dvd_of_mod_eq_zero hmod
  have hle := h.count_le
  have hlt : iq.grow * a < iq.grow * b := by omega
  have hstep : iq.grow * (a + 1) ≤ iq.grow * b :=
    Nat.mul_le_mul_left _ (Nat.lt_of_mul_lt_mul_left hlt)
  rw [Nat.mul_succ] at hstep
  omega

/-- A queue with the integers it has accepted and those it has returned. -/
structure History where
  iq : Iqueue
  accepted : List ℤ
  returned : List ℤ

inductive Call
  | add (num : ℤ) (iqflags : ℕ) (litter : Option (ℕ → ℤ))
  | next (iqflags : ℕ) (litter : Option (ℕ → ℤ))

def Call.step (s : History) : Call → Outcome History
  | .add num iqflags litter => do
    let (iq, rc) ← iqueueAdd s.iq num iqflags litter
    .ok { s with iq := iq, accepted := if rc = 0 then s.accepted ++ [num] else s.accepted }
  | .next iqflags litter => do
    let (iq, rc) ← iqueueNext s.iq iqflags litter
    .ok { s with iq := iq, returned := s.returned ++ [rc] }

/-- The next integer is asked for only while the count is positive. -/
def Call.Guard (s : History) : Call → Prop
  | .add _ _ _ => True
  | .next _ _ => 0 < s.iq.count

def Call.Sized (s : History) : Call → Prop
  | .add _ iqflags litter => GrowthSized s.iq iqflags litter
  | .next iqflags litter => ShrinkSized s.iq iqflags litter

def iqueueSystem : System History Call Fault where
  Init s := ∃ initialSize growSize litter,
    iqueueCreate initialSize growSize true litter = some s.iq ∧ s.accepted = [] ∧ s.returned = []
  Guard s c := c.Guard s
  step s c := c.step s

/-- What has been accepted and not returned is in the queue, in order. -/
structure InOrder (s : History) : Prop where
  fits : s.iq.Fits
  order : s.accepted = s.returned ++ s.iq.contents

theorem fits_create {initialSize growSize : ℕ} (hsize : initialSize < 2 ^ 30)
    (h : iqueueCreate initialSize growSize true litter = some iq) :
    iq.Fits ∧ iq.contents = [] := by
  rw [iqueueCreate, if_pos rfl] at h
  split_ifs at h with hpos
  · cases litter with
    | none => cases h
    | some cell =>
      cases h
      exact ⟨⟨hsize, ⟨0, by simp⟩, Nat.zero_le _, .inl rfl,
        fun _ => ⟨_, rfl, capacity_of_lt hsize⟩⟩, rfl⟩
  · cases h
    exact ⟨⟨hsize, ⟨0, by simp⟩, Nat.zero_le _, .inl rfl, fun h => absurd h hpos⟩, rfl⟩

theorem InOrder.step {s t : History} {c : Call} (h : InOrder s) (hg : c.Guard s) (hc : c.Sized s)
    (ht : c.step s = .ok t) : InOrder t := by
  cases c with
  | add num iqflags litter =>
    obtain ⟨iq', rc, hadd, hfits, hres, -⟩ := iqueueAdd_eq h.fits num hc
    rw [Call.step, hadd] at ht
    cases ht
    rcases hres with ⟨rfl, rfl⟩ | ⟨rfl, hcont⟩
    · exact ⟨hfits, h.order⟩
    · exact ⟨hfits, by simp only [hcont, h.order, if_true, List.append_assoc]⟩
  | next iqflags litter =>
    obtain ⟨iq', x, hnext, hfits, hcont, -⟩ := iqueueNext_eq h.fits hg hc
    rw [Call.step, hnext] at ht
    cases ht
    refine ⟨hfits, ?_⟩
    rw [h.order, hcont, List.append_assoc, List.singleton_append]

/-- In a run whose sizes stay below `2^30` and whose shrinks leave room, the queue is a FIFO, no
access is out of bounds, and a call that fails changes nothing. -/
theorem iqueue_fifo {initialSize growSize : ℕ} (hsize : initialSize < 2 ^ 30)
    (hcreate : iqueueCreate initialSize growSize true litter = some iq) {cs : List Call}
    {s : History} (h : (iqueueSystem.restrict fun s c => c.Sized s).Steps ⟨iq, [], []⟩ cs s) :
    s.accepted = s.returned ++ s.iq.contents ∧
      s.accepted.length = s.returned.length + s.iq.count ∧
      (∀ num iqflags litter, GrowthSized s.iq iqflags litter → ∃ iq' rc,
        iqueueAdd s.iq num iqflags litter = .ok (iq', rc) ∧ (rc = 0 ∨ rc = -1 ∧ iq' = s.iq)) ∧
      ∀ iqflags litter, 0 < s.iq.count → ShrinkSized s.iq iqflags litter → ∃ iq' x,
        iqueueNext s.iq iqflags litter = .ok (iq', x) ∧
          s.accepted = s.returned ++ x :: iq'.contents := by
  obtain ⟨hfits, hnil⟩ := fits_create hsize hcreate
  have hstep : ∀ s c t, InOrder s → (iqueueSystem.restrict fun s c => c.Sized s).Guard s c →
      iqueueSystem.step s c = .ok t → InOrder t := fun _ _ _ hi hg ht => hi.step hg.1 hg.2 ht
  have hs : InOrder s := h.invariant hstep ⟨hfits, by simp [hnil]⟩
  refine ⟨hs.order, ?_, fun num iqflags litter hc => ?_, fun iqflags litter hpos hc => ?_⟩
  · rw [hs.order, List.length_append, hs.fits.length_contents]
  · obtain ⟨iq', rc, hadd, -, hres, -⟩ := iqueueAdd_eq hs.fits num hc
    exact ⟨iq', rc, hadd, hres.symm.imp (fun hok => hok.1) id⟩
  · obtain ⟨iq', x, hnext, -, hcont, -⟩ := iqueueNext_eq hs.fits hpos hc
    exact ⟨iq', x, hnext, by rw [hs.order, hcont]⟩

/-- A queue for one integer that grows by two, and memory full of zeros. -/
def oddQueue : Iqueue := ⟨1, 2, 1, 0, 0, some ⟨1, fun _ => 0⟩⟩

def zeros : Option (ℕ → ℤ) := some fun _ => 0

/-- Two integers go in, for the second of which the queue grows, and one comes out. -/
theorem iqueue_fifo_two : ∃ s, (iqueueSystem.restrict fun s c => c.Sized s).Steps
      ⟨oddQueue, [], []⟩ [.add 7 0 zeros, .add 8 0 zeros, .next 0 zeros] s ∧
    s.returned = [7] ∧ s.accepted = s.returned ++ s.iq.contents ∧ s.iq.contents = [8] := by
  have hrun : (iqueueSystem.restrict fun s c => c.Sized s).Steps ⟨oddQueue, [], []⟩
      [.add 7 0 zeros, .add 8 0 zeros, .next 0 zeros] _ :=
    .cons ⟨trivial, fun h => absurd h (by decide)⟩ rfl
      (.cons ⟨trivial, fun _ _ _ _ => by decide⟩ rfl
        (.one ⟨Nat.zero_lt_two, fun h => absurd h.2.2 Nat.one_ne_zero⟩ rfl))
  have hcreate : iqueueCreate 1 2 true zeros = some oddQueue := rfl
  exact ⟨_, hrun, rfl, (iqueue_fifo (by decide) hcreate hrun).1, rfl⟩

/-- With a third integer there are two left after the first has been taken, and the array they are
moved to has room for one. -/
theorem shrink_overflows : ∃ s, iqueueSystem.Steps ⟨oddQueue, [], []⟩
      [.add 7 0 zeros, .add 8 0 zeros, .add 9 0 zeros] s ∧
    iqueueSystem.Init ⟨oddQueue, [], []⟩ ∧ 0 < s.iq.count ∧
    iqueueNext s.iq 0 zeros = .error .badAccess :=
  ⟨_, .cons trivial rfl (.cons trivial rfl (.one trivial rfl)),
    ⟨1, 2, zeros, rfl, rfl, rfl⟩, Nat.succ_pos 2, rfl⟩

end Racoon.Iqueues
