import Mathlib.Tactic
import Mathlib.Data.Fintype.Card

/-!
# Counting threads by their place

`tally p place` is the number of threads at a place of the kind `p`. When one
thread moves, the tally changes by what that thread counts before and after.
-/

namespace Racoon.Lib
variable {τ α : Type*} [Fintype τ]

def tally (p : α → Bool) (place : τ → α) : ℕ := (Finset.univ.filter fun i => p (place i)).card

variable {p : α → Bool} {place : τ → α} {i j : τ}

theorem mem_tally : i ∈ Finset.univ.filter (fun i => p (place i) = true) ↔ p (place i) = true := by
  simp

theorem tally_pos (h : p (place i) = true) : 0 < tally p place :=
  Finset.card_pos.mpr ⟨i, mem_tally.mpr h⟩

theorem exists_of_tally_pos (h : 0 < tally p place) : ∃ i, p (place i) = true := by
  obtain ⟨i, hi⟩ := Finset.card_pos.mp h
  exact ⟨i, mem_tally.mp hi⟩

theorem eq_of_tally_le_one (h : tally p place ≤ 1) (hi : p (place i) = true)
    (hj : p (place j) = true) : i = j :=
  Finset.card_le_one.mp h i (mem_tally.mpr hi) j (mem_tally.mpr hj)

theorem tally_congr {q : α → Bool} (h : ∀ i, p (place i) = q (place i)) :
    tally p place = tally q place := by
  unfold tally
  congr 1
  ext i
  simp [h i]

theorem tally_update [DecidableEq τ] (p : α → Bool) (place : τ → α) (i : τ) (x : α) :
    tally p (Function.update place i x) + (p (place i)).toNat =
      tally p place + (p x).toNat := by
  have hsplit : ∀ f : τ → α, tally p f = ((Finset.univ.erase i).filter fun j => p (f j)).card +
      (p (f i)).toNat := fun f => by
    rw [tally, ← Finset.insert_erase (Finset.mem_univ i), Finset.filter_insert]
    cases hp : p (f i) <;> simp [hp]
  have hsame : ((Finset.univ.erase i).filter fun j => p (Function.update place i x j) = true) =
      (Finset.univ.erase i).filter fun j => p (place j) = true := by
    refine Finset.filter_congr fun j hj => ?_
    rw [Function.update_of_ne (Finset.ne_of_mem_erase hj)]
  rw [hsplit, hsplit place, hsame, Function.update_self]
  omega

end Racoon.Lib
