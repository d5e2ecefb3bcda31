import Mathlib.Tactic

/-!
# The 32-bit machine and its faults

Sizes, counters and addresses of the kernel are natural numbers below `2^32`;
where a sum or difference can leave that range it goes through `add32` and
`sub32`, which wrap as the unsigned C operators do. A C function that can stop
the kernel returns an `Outcome`: a failed `assert` halts it, and so do the use
of a pointer that is `NULL` or no longer allocated and a division by zero. Memory
is a heap of objects by address, or, where code writes through addresses that it
computes, a map of 32-bit words. A loop is given a bound on
its rounds where Lean cannot see that it ends; running into it is `diverges`,
and every such bound is proved to be enough.
-/

namespace Racoon

inductive Fault
  | assertion
  | badAccess
  | divideError
  | diverges
  deriving DecidableEq, Repr

abbrev Outcome (α : Type) := Except Fault α

/-- The macro `assert`: the kernel halts unless the condition holds. -/
def assert (c : Prop) [Decidable c] : Outcome Unit :=
  if c then .ok () else .error .assertion

/-- Following a pointer: `NULL` is no object. -/
def deref {α : Type} : Option α → Outcome α
  | some a => .ok a
  | none => .error .badAccess

theorem bind_eq_ok {α β : Type} {x : Outcome α} {f : α → Outcome β} {b : β} :
    x >>= f = .ok b ↔ ∃ a, x = .ok a ∧ f a = .ok b := by
  cases x <;> simp [bind, Except.bind]

@[simp] theorem ok_bind {α β : Type} (a : α) (f : α → Outcome β) :
    (Except.ok a : Outcome α) >>= f = f a := rfl

@[simp] theorem pure_eq_ok {α : Type} (a : α) : (pure a : Outcome α) = .ok a := rfl

theorem assert_of {c : Prop} [Decidable c] (h : c) : assert c = .ok () := if_pos h

theorem assert_eq_ok {c : Prop} [Decidable c] {u : Unit} : assert c = .ok u ↔ c := by
  unfold assert
  split <;> simp_all

@[simp] theorem deref_some {α : Type} (a : α) : deref (some a) = .ok a := rfl

theorem deref_eq_ok {α : Type} {p : Option α} {a : α} : deref p = .ok a ↔ p = some a := by
  cases p <;> simp [deref]

/-- How a call failed, if it did. -/
def faultOf {α : Type} : Outcome α → Option Fault
  | .ok _ => none
  | .error e => some e

theorem faultOf_eq_some {α : Type} {x : Outcome α} {e : Fault} :
    faultOf x = some e ↔ x = .error e := by
  cases x <;> simp [faultOf]

theorem exists_ok_of {α β : Type} {x : Outcome α} {f : α → β} {y : β}
    (h : x.toOption.map f = some y) : ∃ a, x = .ok a ∧ f a = y := by
  cases x with
  | error e => cases h
  | ok a => exact ⟨a, rfl, Option.some.inj h⟩

/-- The object behind a pointer into a heap. -/
def load {κ α : Type} (heap : κ → Option α) (p : Option κ) : Outcome α := deref (p.bind heap)

theorem load_some {κ α : Type} {heap : κ → Option α} {x : κ} {v : α} (h : heap x = some v) :
    load heap (some x) = .ok v := by
  simp [load, h]

/-- An assignment to fields of the object behind a pointer. -/
def modify {κ α : Type} [DecidableEq κ] (heap : κ → Option α) (p : Option κ) (f : α → α) :
    Outcome (κ → Option α) := do
  let x ← deref p
  let v ← deref (heap x)
  .ok (Function.update heap x (some (f v)))

theorem modify_some {κ α : Type} [DecidableEq κ] {heap : κ → Option α} {x : κ} {v : α}
    (h : heap x = some v) (f : α → α) :
    modify heap (some x) f = .ok (Function.update heap x (some (f v))) := by
  simp [modify, h]

/-- A word stored at an address. What overlapping words hold is then unknown. -/
def store32 (word : ℕ → Option ℕ) (a v : ℕ) : ℕ → Option ℕ :=
  fun b => if b = a then some v else if a < b + 4 ∧ b < a + 4 then none else word b

theorem store32_self (word : ℕ → Option ℕ) (a v : ℕ) : store32 word a v a = some v := if_pos rfl

theorem store32_apart (word : ℕ → Option ℕ) {a b : ℕ} (v : ℕ) (h : a + 4 ≤ b ∨ b + 4 ≤ a) :
    store32 word a v b = word b := by
  unfold store32
  rw [if_neg (by omega), if_neg (by omega)]

def add32 (a b : ℕ) : ℕ := (a + b) % 2 ^ 32

def sub32 (a b : ℕ) : ℕ := (a + 2 ^ 32 - b % 2 ^ 32) % 2 ^ 32

theorem add32_lt (a b : ℕ) : add32 a b < 2 ^ 32 := Nat.mod_lt _ (by norm_num)

theorem add32_of_lt {a b : ℕ} (h : a + b < 2 ^ 32) : add32 a b = a + b := Nat.mod_eq_of_lt h

theorem sub32_of_le {a b : ℕ} (ha : a < 2 ^ 32) (h : b ≤ a) : sub32 a b = a - b := by
  unfold sub32
  omega

/-- An `int` that is passed as a `size_t`. -/
def asSize (n : ℤ) : ℕ := (n % 2 ^ 32).toNat

/-- A value of type `int`, in two's complement. -/
def int32 (x : ℤ) : ℤ := x.bmod (2 ^ 32)

theorem int32_of_le {x : ℤ} (h₀ : 0 ≤ x) (h : x < 2 ^ 31) : int32 x = x := by
  unfold int32 Int.bmod
  norm_num
  omega

end Racoon
