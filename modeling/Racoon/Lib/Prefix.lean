import Mathlib.Tactic

/-!
# An array of which a prefix is in use

`taken a n` is the list held by the first `n` cells of the array `a`. The loops
that programs run over such a prefix are given as they run, cell by cell, with
the list operation each one performs: searching a cell, copying a block of cells
down by a distance, and from the two the removal of one entry.
-/

namespace Racoon.Lib
variable {α : Type*}

def taken (a : ℕ → α) (n : ℕ) : List α := (List.range n).map a

@[simp] theorem taken_zero (a : ℕ → α) : taken a 0 = [] := rfl

@[simp] theorem length_taken (a : ℕ → α) (n : ℕ) : (taken a n).length = n := by
  simp [taken]

theorem taken_succ (a : ℕ → α) (n : ℕ) : taken a (n + 1) = taken a n ++ [a n] := by
  simp [taken, List.range_succ]

theorem getElem?_taken (a : ℕ → α) (n i : ℕ) :
    (taken a n)[i]? = if i < n then some (a i) else none := by
  simp only [taken, List.getElem?_map]
  split_ifs with h
  · simp [List.getElem?_range h]
  · simp [not_lt.mp h]

theorem taken_congr {a b : ℕ → α} {n : ℕ} (h : ∀ i < n, a i = b i) : taken a n = taken b n :=
  List.map_congr_left fun i hi => h i (List.mem_range.mp hi)

theorem mem_taken {a : ℕ → α} {n : ℕ} {x : α} : x ∈ taken a n ↔ ∃ i < n, a i = x := by
  simp [taken]

/-- Writing the first free cell and counting it in appends. -/
theorem taken_push (a : ℕ → α) (n : ℕ) (x : α) :
    taken (Function.update a n x) (n + 1) = taken a n ++ [x] := by
  rw [taken_succ, Function.update_self]
  congr 1
  exact taken_congr fun i hi => Function.update_of_ne (Nat.ne_of_lt hi) _ _

theorem taken_set (a : ℕ → α) (n i : ℕ) (x : α) :
    taken (Function.update a i x) n = (taken a n).set i x := by
  apply List.ext_getElem?
  intro j
  rw [getElem?_taken, List.getElem?_set, getElem?_taken, length_taken]
  by_cases hji : j = i
  · subst hji
    simp
  · rw [Function.update_of_ne hji, if_neg (Ne.symm hji)]

/-- `for (; k cells left; i++) if (a[i] satisfies p) break;` returns the final `i`. -/
def search (p : α → Bool) (a : ℕ → α) : ℕ → ℕ → ℕ
  | i, 0 => i
  | i, k + 1 => if p (a i) then i else search p a (i + 1) k

theorem search_eq_findIdx (p : α → Bool) (a : ℕ → α) (n : ℕ) :
    search p a 0 n = (taken a n).findIdx p := by
  suffices h : ∀ k i, search p a i k = i + ((List.range' i k).map a).findIdx p by
    simpa [taken, List.range_eq_range'] using h n 0
  intro k
  induction k with
  | zero => intro i; simp [search]
  | succ k ih =>
    intro i
    simp only [search, List.range'_succ, List.map_cons, List.findIdx_cons]
    cases p (a i) with
    | true => simp
    | false => simp only [Bool.false_eq_true, if_false, ih, cond_false]; omega

/-- A search that runs to the end has seen no cell that satisfies `p`. -/
theorem of_search_ge {p : α → Bool} {a : ℕ → α} {n : ℕ} (h : n ≤ search p a 0 n) {i : ℕ}
    (hi : i < n) : p (a i) = false := by
  rw [search_eq_findIdx] at h
  have hlt : i < (taken a n).findIdx p := lt_of_lt_of_le hi h
  have hp := List.not_of_lt_findIdx hlt
  simpa [taken] using hp

theorem le_search (p : α → Bool) (a : ℕ → α) (i k : ℕ) : i ≤ search p a i k := by
  induction k generalizing i with
  | zero => exact le_rfl
  | succ k ih =>
    rw [search]
    split_ifs
    · exact le_rfl
    · exact (Nat.le_succ i).trans (ih (i + 1))

/-- Only the cells up to the one found matter. -/
theorem search_congr {p q : α → Bool} {a : ℕ → α} {i k : ℕ}
    (h : ∀ j, i ≤ j → j ≤ search p a i k → q (a j) = p (a j)) :
    search q a i k = search p a i k := by
  induction k generalizing i with
  | zero => rfl
  | succ k ih =>
    rw [search, search, h i le_rfl (le_search ..)]
    split_ifs with hp
    · rfl
    · refine ih fun j hj hle => h j (by omega) ?_
      rwa [search, if_neg hp]

/-- `for (; k cells left; i++) a[i] = a[i + d];` -/
def copyDown (d : ℕ) (a : ℕ → α) : ℕ → ℕ → ℕ → α
  | _, 0 => a
  | i, k + 1 => copyDown d (Function.update a i (a (i + d))) (i + 1) k

theorem copyDown_apply (d : ℕ) (a : ℕ → α) (i k j : ℕ) :
    copyDown d a i k j = if i ≤ j ∧ j < i + k then a (j + d) else a j := by
  induction k generalizing a i with
  | zero => simp only [copyDown]; split_ifs <;> first | omega | rfl
  | succ k ih =>
    rw [copyDown, ih]
    rcases Nat.lt_trichotomy j i with hj | hj | hj
    · rw [if_neg (by omega), if_neg (by omega), Function.update_of_ne hj.ne]
    · subst hj
      rw [if_neg (by omega), if_pos (by omega), Function.update_self]
    · rw [Function.update_of_ne hj.ne', Function.update_of_ne (by omega)]
      congr 1
      exact propext ⟨fun h => by omega, fun h => by omega⟩

/-- `for (i = lo + k; i > lo; i--) a[i] = a[i - 1];` -/
def copyUp (a : ℕ → α) (lo : ℕ) : ℕ → ℕ → α
  | 0 => a
  | k + 1 => copyUp (Function.update a (lo + k + 1) (a (lo + k))) lo k

theorem copyUp_apply (a : ℕ → α) (lo k j : ℕ) :
    copyUp a lo k j = if lo < j ∧ j ≤ lo + k then a (j - 1) else a j := by
  induction k generalizing a with
  | zero => rw [copyUp, if_neg (by omega)]
  | succ k ih =>
    rw [copyUp, ih]
    by_cases hin : lo < j ∧ j ≤ lo + k
    · rw [if_pos hin, if_pos (by omega), Function.update_of_ne (by omega)]
    · rw [if_neg hin]
      by_cases hj : j = lo + k + 1
      · rw [hj, Function.update_self, if_pos (by omega), Nat.add_sub_cancel]
      · rw [Function.update_of_ne hj, if_neg (by omega)]

/-- Making room at `pos` and writing there inserts into the prefix. -/
theorem taken_insert (a : ℕ → α) {pos n : ℕ} (h : pos ≤ n) (x : α) :
    taken (Function.update (copyUp a pos (n - pos)) pos x) (n + 1) =
      (taken a n).insertIdx pos x := by
  apply List.ext_getElem?
  intro i
  rw [getElem?_taken, List.getElem?_insertIdx, getElem?_taken, getElem?_taken, length_taken]
  rcases Nat.lt_trichotomy i pos with hi | rfl | hi
  · rw [Function.update_of_ne hi.ne, copyUp_apply]
    split_ifs <;> first | rfl | omega
  · rw [Function.update_self]
    split_ifs <;> first | rfl | omega
  · rw [Function.update_of_ne hi.ne', copyUp_apply]
    split_ifs <;> first | rfl | omega

/-- Moving the entry at `pos` to the front, changed to `x`. -/
theorem taken_moveFront (a : ℕ → α) {pos n : ℕ} (h : pos < n) (x : α) :
    taken (Function.update (copyUp a 0 pos) 0 x) n = x :: (taken a n).eraseIdx pos := by
  apply List.ext_getElem?
  intro i
  rw [getElem?_taken]
  cases i with
  | zero => rw [Function.update_self, if_pos (by omega), List.getElem?_cons_zero]
  | succ i =>
    rw [Function.update_of_ne i.succ_ne_zero, copyUp_apply, List.getElem?_cons_succ,
      List.getElem?_eraseIdx, getElem?_taken, getElem?_taken]
    split_ifs <;> first | rfl | omega

theorem taken_copyDown (a : ℕ → α) (d n : ℕ) :
    taken (copyDown d a 0 n) n = (taken a (d + n)).drop d := by
  apply List.ext_getElem?
  intro i
  rw [getElem?_taken, List.getElem?_drop, getElem?_taken, copyDown_apply, Nat.add_comm i d]
  split_ifs <;> first | rfl | omega

/-- Closing the gap at `pos` removes that entry from the prefix. -/
theorem taken_closeGap (a : ℕ → α) {pos n : ℕ} (h : pos < n) :
    taken (copyDown 1 a pos (n - 1 - pos)) (n - 1) = (taken a n).eraseIdx pos := by
  apply List.ext_getElem?
  intro i
  rw [getElem?_taken, List.getElem?_eraseIdx, getElem?_taken, getElem?_taken, copyDown_apply]
  split_ifs <;> first | rfl | omega

end Racoon.Lib
