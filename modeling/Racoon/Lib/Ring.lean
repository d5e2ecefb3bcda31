import Mathlib.Tactic

/-!
# Ring buffers

The contents of a ring are `count` cells of an array, from `start` on and round
the end of the array at `size`. The operations are those every ring has: a new
last element in the first free cell, the first element out, and the whole
contents moved to the beginning of another array.
-/

namespace Racoon.Lib
variable {α : Type*}

def ring (cell : ℕ → α) (size start count : ℕ) : List α :=
  (List.range count).map fun i => cell ((start + i) % size)

variable {cell cell' : ℕ → α} {size size' start count : ℕ}

@[simp] theorem length_ring (cell : ℕ → α) (size start count : ℕ) :
    (ring cell size start count).length = count := by
  simp [ring]

@[simp] theorem ring_zero (cell : ℕ → α) (size start : ℕ) : ring cell size start 0 = [] := rfl

theorem ring_congr (h : ∀ i < count, cell' ((start + i) % size) = cell ((start + i) % size)) :
    ring cell' size start count = ring cell size start count :=
  List.map_congr_left fun i hi => h i (List.mem_range.mp hi)

/-- Places of a ring that are less than a round apart are different cells. -/
theorem ring_place_ne {i j : ℕ} (hij : i < j) (hj : j < i + size) :
    (start + i) % size ≠ (start + j) % size := by
  intro he
  obtain ⟨k, rfl⟩ := Nat.exists_eq_add_of_lt hij
  have hdvd : size ∣ start + (i + k + 1) - (start + i) := (Nat.modEq_iff_dvd' (by omega)).mp he
  have hle := Nat.le_of_dvd (by omega) hdvd
  omega

theorem ring_push (cell : ℕ → α) (start : ℕ) (h : count < size) (x : α) :
    ring (Function.update cell ((start + count) % size) x) size start (count + 1) =
      ring cell size start count ++ [x] := by
  rw [ring, List.range_succ, List.map_append, List.map_singleton, Function.update_self]
  congr 1
  exact ring_congr fun i hi => Function.update_of_ne (ring_place_ne hi (by omega)) ..

theorem ring_pop (cell : ℕ → α) (hs : start < size) (count : ℕ) :
    ring cell size start (count + 1) =
      cell start :: ring cell size ((start + 1) % size) count := by
  rw [ring, List.range_succ_eq_map, List.map_cons, List.map_map, Nat.add_zero, Nat.mod_eq_of_lt hs]
  congr 2
  funext i
  simp only [Function.comp, Nat.mod_add_mod, Nat.add_assoc, Nat.add_comm 1 i, Nat.succ_eq_add_one]

/-- The contents copied to the beginning of an array that has room for them. -/
theorem ring_move (h : count ≤ size') (hcopy : ∀ i < count, cell' i = cell ((start + i) % size)) :
    ring cell' size' 0 count = ring cell size start count := by
  refine List.map_congr_left fun i hi => ?_
  have hlt := List.mem_range.mp hi
  rw [Nat.zero_add, Nat.mod_eq_of_lt (by omega), hcopy i hlt]

end Racoon.Lib
