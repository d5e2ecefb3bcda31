import Racoon.Machine

/-!
# The speed of a processor

`calculate_bogomips` scales by `2 ^ 32` and divides twice, with the instruction that
divides 64 bits by 32 and faults when the quotient has more than 32 bits. The guards
bound the first division, but for the last difference that they let through; the second
one faults as soon as the first has given no more than 1000000.
-/

namespace Racoon.Time

/-- The quotient and the remainder. -/
def udiv (dividend divisor : ℕ) : Outcome (ℕ × ℕ) :=
  if divisor = 0 ∨ 2 ^ 32 ≤ dividend / divisor then .error .divideError
  else .ok (dividend / divisor, dividend % divisor)

def HZ : ℕ := 100

def COUNT_TIME : ℕ := 5 * 1000000 / HZ

/-- `count` rounds were waited, in which the counter has moved on by `diff`. -/
def calculateBogomips (count diff : ℕ) : Outcome ℕ :=
  if count ≤ 1 then .ok 0
  else if 2 ^ 32 < diff ∨ diff ≤ COUNT_TIME then .ok 0
  else do
    let (temp, _) ← udiv (COUNT_TIME * 2 ^ 32) (diff % 2 ^ 32)
    let (speed, _) ← udiv (1000000 * 2 ^ 32) temp
    .ok (speed / 1000)

/-- The guards of `calculate_bogomips`. -/
def Passes (count diff : ℕ) : Prop := 1 < count ∧ COUNT_TIME < diff ∧ diff ≤ 2 ^ 32

theorem udiv_eq_ok {dividend divisor : ℕ} {r : ℕ × ℕ} : udiv dividend divisor = .ok r ↔
    0 < divisor ∧ dividend / divisor < 2 ^ 32 ∧ r = (dividend / divisor, dividend % divisor) := by
  unfold udiv
  split_ifs with h
  · refine ⟨nofun, fun hr => ?_⟩
    omega
  · rw [Except.ok.injEq, eq_comm]
    exact ⟨fun hr => ⟨by omega, by omega, hr⟩, fun hr => hr.2.2⟩

theorem udiv_of_lt {dividend divisor : ℕ} (h : dividend < divisor * 2 ^ 32) :
    udiv dividend divisor = .ok (dividend / divisor, dividend % divisor) := by
  have hpos : 0 < divisor := by
    rcases Nat.eq_zero_or_pos divisor with rfl | hpos
    · omega
    · exact hpos
  exact udiv_eq_ok.mpr ⟨hpos, Nat.div_lt_of_lt_mul h, rfl⟩

/-- The calibration returns what it is for, without a fault, on processors up to about 4.29 GHz. -/
theorem calculateBogomips_iff {count diff : ℕ} (h : Passes count diff) :
    calculateBogomips count diff =
        .ok (1000000 * 2 ^ 32 / (COUNT_TIME * 2 ^ 32 / diff) / 1000) ↔ diff ≤ 214748150 := by
  obtain ⟨hcount, hlow, hhigh⟩ := h
  have htime : COUNT_TIME = 50000 := by decide
  rw [htime] at hlow
  rw [calculateBogomips, if_neg (by omega), if_neg (by omega), htime]
  constructor
  · intro hrun
    obtain ⟨⟨temp, rem⟩, hfirst, hrun⟩ := bind_eq_ok.mp hrun
    obtain ⟨⟨speed, rem'⟩, hsecond, -⟩ := bind_eq_ok.mp hrun
    obtain ⟨hpos, -, hr⟩ := udiv_eq_ok.mp hfirst
    obtain ⟨htemp, hspeed, -⟩ := udiv_eq_ok.mp hsecond
    cases hr
    have hmod : diff % 2 ^ 32 = diff := by omega
    rw [hmod] at htemp hspeed
    -- the second quotient has 32 bits only if the first is above 1000000
    have hlarge := (Nat.div_lt_iff_lt_mul htemp).mp hspeed
    have htemp' : 1000001 ≤ 50000 * 2 ^ 32 / diff := by omega
    have hmul := (Nat.le_div_iff_mul_le (by omega)).mp htemp'
    omega
  · intro hle
    have htemp : 1000001 ≤ 50000 * 2 ^ 32 / diff :=
      (Nat.le_div_iff_mul_le (by omega)).mpr (by omega)
    rw [Nat.mod_eq_of_lt (by omega), udiv_of_lt (by omega), ok_bind]
    dsimp only
    rw [udiv_of_lt (by omega), ok_bind]

/-- A processor of 3 GHz. -/
theorem calculateBogomips_3GHz : Passes 1000 150000000 ∧ calculateBogomips 1000 150000000 =
    .ok (1000000 * 2 ^ 32 / (COUNT_TIME * 2 ^ 32 / 150000000) / 1000) :=
  ⟨by unfold Passes; decide, (calculateBogomips_iff (by unfold Passes; decide)).mpr (by decide)⟩

/-- One of 5 GHz, and the last difference that the guards let through. -/
theorem calculateBogomips_faults :
    (Passes 1000 250000000 ∧ calculateBogomips 1000 250000000 = .error .divideError) ∧
      Passes 1000 (2 ^ 32) ∧ calculateBogomips 1000 (2 ^ 32) = .error .divideError := by
  unfold Passes
  decide

end Racoon.Time
