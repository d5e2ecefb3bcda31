import Racoon.Lib.Bytes

/-!
# Copies along two maps

The bytes at `src 0`, `src 1` and so on are stored at `dst 0`, `dst 1` and so on, one after
the other. Nothing else changes, and if the places stored to are different and none of
them is read, each of them gets the byte that was at its source.
-/

namespace Racoon.Lib.Bytes

/-- The bytes number `i` up to `i + left` are copied. -/
def scatter (dst src : ℕ → ℕ) : ℕ → ℕ → Bytes → Bytes
  | 0, _, m => m
  | left + 1, i, m => scatter dst src left (i + 1) (Function.update m (dst i) (m (src i)))

variable {dst src : ℕ → ℕ} {left i : ℕ} {m : Bytes}

theorem scatter_frame {x : ℕ} (h : ∀ k, i ≤ k → k < i + left → dst k ≠ x) :
    scatter dst src left i m x = m x := by
  induction left generalizing i m with
  | zero => rfl
  | succ left ih =>
    rw [scatter, ih fun k h₁ h₂ => h k (by omega) (by omega)]
    exact Function.update_of_ne (h i le_rfl (by omega)).symm ..

theorem scatter_byte {k : ℕ} (hi : i ≤ k) (hk : k < i + left)
    (honce : ∀ j, i ≤ j → j < i + left → dst j = dst k → j = k)
    (hread : ∀ j, i ≤ j → j < i + left → dst j ≠ src k) :
    scatter dst src left i m (dst k) = m (src k) := by
  induction left generalizing i m with
  | zero => omega
  | succ left ih =>
    rw [scatter]
    by_cases hki : k = i
    · have hlater : ∀ j, i + 1 ≤ j → j < i + 1 + left → dst j ≠ dst k := by
        intro j h₁ h₂ heq
        have := honce j (by omega) (by omega) heq
        omega
      rw [scatter_frame hlater, hki, Function.update_self]
    · rw [ih (by omega) (by omega) (fun j h₁ h₂ => honce j (by omega) (by omega))
        fun j h₁ h₂ => hread j (by omega) (by omega)]
      exact Function.update_of_ne (hread i le_rfl (by omega)).symm ..

end Racoon.Lib.Bytes
