import Mathlib.Tactic

/-!
# Bounded C strings

`kstrncmp` and `kstrncpy` of `libsmk/strings.c`. A string is the memory behind
its pointer; what the two functions see of it is `cut`, the characters before
the terminating zero and at most `n` of them.
-/

namespace Racoon.Strings

/-- The memory behind a `char*`. -/
abbrev CString := ℕ → ℤ

def cutFrom (s : CString) : ℕ → ℕ → List ℤ
  | _, 0 => []
  | i, left + 1 => if s i = 0 then [] else s i :: cutFrom s (i + 1) left

def cut (s : CString) (n : ℕ) : List ℤ := cutFrom s 0 n

/-- The loop of `kstrncmp` with `left` characters to go. -/
def compareFrom (s₁ s₂ : CString) : ℕ → ℕ → ℤ
  | _, 0 => 0
  | i, left + 1 =>
    if s₁ i < s₂ i then -1
    else if s₂ i < s₁ i then 1
    else if s₁ i = 0 then 0
    else compareFrom s₁ s₂ (i + 1) left

def kstrncmp (s₁ s₂ : CString) (n : ℕ) : ℤ := compareFrom s₁ s₂ 0 n

/-- The first loop of `kstrncpy`: the string written so far and the index reached. -/
def copyChars (ct : CString) : ℕ → ℕ → CString → CString × ℕ
  | i, 0, s => (s, i)
  | i, left + 1, s =>
    if ct i ≠ 0 then copyChars ct (i + 1) left (Function.update s i (ct i)) else (s, i)

/-- The second loop, which fills up with zeros. -/
def fillZeros : ℕ → ℕ → CString → CString
  | _, 0, s => s
  | i, left + 1, s => fillZeros (i + 1) left (Function.update s i 0)

def kstrncpy (s ct : CString) (n : ℕ) : CString :=
  let (s, i) := copyChars ct 0 n s
  fillZeros i (n - i) s

theorem length_cutFrom_le (s : CString) (i left : ℕ) : (cutFrom s i left).length ≤ left := by
  induction left generalizing i with
  | zero => exact le_rfl
  | succ left ih =>
    have := ih (i + 1)
    rw [cutFrom]
    split_ifs
    · exact Nat.zero_le _
    · simpa using this

theorem length_cut_le (s : CString) (n : ℕ) : (cut s n).length ≤ n := length_cutFrom_le s 0 n

/-- Two strings agree where the first is not cut off yet, and end together. -/
theorem cutFrom_congr {s t : CString} {i left : ℕ}
    (h : ∀ j, i ≤ j → j < i + (cutFrom s i left).length → t j = s j)
    (hz : (cutFrom s i left).length < left → t (i + (cutFrom s i left).length) = 0) :
    cutFrom t i left = cutFrom s i left := by
  induction left generalizing i with
  | zero => rfl
  | succ left ih =>
    rw [cutFrom] at h hz
    rw [cutFrom, cutFrom]
    by_cases hs : s i = 0
    · rw [if_pos hs] at hz ⊢
      rw [if_pos (by simpa using hz (by simp))]
    · rw [if_neg hs] at h hz ⊢
      simp only [List.length_cons] at h hz
      have hi : t i = s i := h i le_rfl (by omega)
      rw [hi, if_neg hs, ih (fun j hj hl => h j (by omega) (by omega)) fun hl => ?_]
      rw [Nat.add_right_comm]
      exact hz (by omega)

/-- The characters of a string run up to its terminating zero. -/
theorem cutFrom_length (s : CString) (i left : ℕ) :
    (∀ j < (cutFrom s i left).length, s (i + j) ≠ 0) ∧
    ((cutFrom s i left).length < left → s (i + (cutFrom s i left).length) = 0) := by
  induction left generalizing i with
  | zero => simp [cutFrom]
  | succ left ih =>
    obtain ⟨hne, hz⟩ := ih (i + 1)
    rw [cutFrom]
    by_cases hs : s i = 0
    · simp [hs]
    · rw [if_neg hs, List.length_cons]
      refine ⟨fun j hj => ?_, fun hl => ?_⟩
      · cases j with
        | zero => exact hs
        | succ j =>
          have := hne j (by omega)
          rwa [Nat.add_right_comm, Nat.add_assoc] at this
      · rw [← Nat.add_assoc, Nat.add_right_comm]
        exact hz (by omega)

theorem ne_zero_of_lt_cut {s : CString} {n j : ℕ} (h : j < (cut s n).length) : s j ≠ 0 := by
  simpa using (cutFrom_length s 0 n).1 j h

theorem cut_end {s : CString} {n : ℕ} (h : (cut s n).length < n) : s (cut s n).length = 0 := by
  simpa [cut] using (cutFrom_length s 0 n).2 h

theorem length_cut_le_of_zero {s : CString} {j : ℕ} (n : ℕ) (h : s j = 0) :
    (cut s n).length ≤ j := by
  by_contra hlt
  exact ne_zero_of_lt_cut (not_le.mp hlt) h

/-- Strings with the same terminating zero and the same characters before it. -/
theorem cut_congr_of_zero {s t : CString} {j n : ℕ} (hz : s j = 0)
    (h : ∀ i ≤ j, t i = s i) : cut t n = cut s n := by
  have hle := length_cut_le_of_zero n hz
  refine cutFrom_congr (fun i _ hi => h i ?_) fun hl => ?_
  · rw [Nat.zero_add, ← cut] at hi
    omega
  · rw [Nat.zero_add, ← cut] at *
    rw [h _ hle, cut_end hl]

theorem eq_of_cutFrom_eq {s t : CString} (left i : ℕ) (h : cutFrom s i left = cutFrom t i left)
    (j : ℕ) (hi : i ≤ j) (hj : j < i + left) (hs : ∀ l, i ≤ l → l < j → s l ≠ 0) : s j = t j := by
  induction left generalizing i with
  | zero => omega
  | succ left ih =>
    rw [cutFrom, cutFrom] at h
    by_cases hz : s i = 0
    · have hij : j = i := by
        by_contra hne
        exact hs i le_rfl (by omega) hz
      rw [if_pos hz] at h
      split_ifs at h with ht
      rw [hij, hz, ht]
    · rw [if_neg hz] at h
      split_ifs at h with ht
      rw [List.cons.injEq] at h
      rcases Nat.eq_or_lt_of_le hi with rfl | hlt
      · exact h.1
      · exact ih (i + 1) h.2 hlt (by omega) fun l hl hlj => hs l (by omega) hlj

/-- Strings that are cut alike agree as far as the first is not cut off. -/
theorem eq_of_cut_eq {s t : CString} {n j : ℕ} (h : cut s n = cut t n) (hj : j < n)
    (hs : ∀ i < j, s i ≠ 0) : s j = t j :=
  eq_of_cutFrom_eq n 0 h j (Nat.zero_le _) (by omega) fun l _ hl => hs l hl

theorem compareFrom_eq_zero {s₁ s₂ : CString} (i left : ℕ) :
    compareFrom s₁ s₂ i left = 0 ↔ cutFrom s₁ i left = cutFrom s₂ i left := by
  induction left generalizing i with
  | zero => simp [compareFrom, cutFrom]
  | succ left ih =>
    rw [cutFrom, cutFrom, compareFrom]
    rcases lt_trichotomy (s₁ i) (s₂ i) with h | h | h
    · rw [if_pos h]
      split_ifs <;> simp <;> omega
    · rw [if_neg h.not_lt, if_neg h.not_gt, ← h]
      split_ifs with hz
      · simp
      · simp [ih]
    · rw [if_neg h.not_gt, if_pos h]
      split_ifs <;> simp <;> omega

/-- Two strings compare equal when they are the same up to `n` characters. -/
theorem kstrncmp_eq_zero {s₁ s₂ : CString} {n : ℕ} :
    kstrncmp s₁ s₂ n = 0 ↔ cut s₁ n = cut s₂ n := by
  rw [kstrncmp, compareFrom_eq_zero, cut, cut]

theorem fillZeros_apply (s : CString) (i left j : ℕ) :
    fillZeros i left s j = if i ≤ j ∧ j < i + left then 0 else s j := by
  induction left generalizing s i with
  | zero => simp only [fillZeros]; rw [if_neg (by omega)]
  | succ left ih =>
    rw [fillZeros, ih]
    rcases Nat.lt_trichotomy j i with hj | hj | hj
    · rw [if_neg (by omega), if_neg (by omega), Function.update_of_ne hj.ne]
    · subst hj
      rw [if_neg (by omega), if_pos (by omega), Function.update_self]
    · rw [Function.update_of_ne hj.ne']
      congr 1
      exact propext ⟨fun h => by omega, fun h => by omega⟩

theorem copyChars_spec (ct : CString) : ∀ (left i : ℕ) (s : CString),
    (copyChars ct i left s).2 = i + (cutFrom ct i left).length ∧
    ∀ j, (copyChars ct i left s).1 j =
      if i ≤ j ∧ j < i + (cutFrom ct i left).length then ct j else s j := by
  intro left
  induction left with
  | zero =>
    intro i s
    refine ⟨rfl, fun j => ?_⟩
    rw [if_neg (by simp only [cutFrom, List.length_nil]; omega)]
    rfl
  | succ left ih =>
    intro i s
    rw [copyChars, cutFrom]
    by_cases hz : ct i = 0
    · rw [if_neg (not_not.mpr hz), if_pos hz]
      refine ⟨by simp, fun j => ?_⟩
      rw [if_neg (by simp only [List.length_nil]; omega)]
    · obtain ⟨hi, hs⟩ := ih (i + 1) (Function.update s i (ct i))
      rw [if_pos hz, if_neg hz, List.length_cons]
      refine ⟨by omega, fun j => ?_⟩
      rw [hs]
      rcases Nat.lt_trichotomy j i with hj | hj | hj
      · rw [if_neg (by omega), if_neg (by omega), Function.update_of_ne hj.ne]
      · subst hj
        rw [if_neg (by omega), if_pos (by omega), Function.update_self]
      · rw [Function.update_of_ne hj.ne']
        congr 1
        exact propext ⟨fun h => by omega, fun h => by omega⟩

/-- What `kstrncpy` leaves at each index: the string, then zeros up to `n`. -/
theorem kstrncpy_apply (s ct : CString) (n j : ℕ) :
    kstrncpy s ct n j =
      if j < (cut ct n).length then ct j else if j < n then 0 else s j := by
  obtain ⟨hi, hs⟩ := copyChars_spec ct n 0 s
  have hle := length_cut_le ct n
  rw [← cut, Nat.zero_add] at hi hs
  change fillZeros (copyChars ct 0 n s).2 (n - (copyChars ct 0 n s).2) (copyChars ct 0 n s).1 j = _
  rw [fillZeros_apply, hi]
  by_cases hj : j < (cut ct n).length
  · rw [if_neg (by omega), hs, if_pos ⟨Nat.zero_le _, hj⟩, if_pos hj]
  · rw [if_neg hj]
    by_cases hn : j < n
    · rw [if_pos (by omega), if_pos hn]
    · rw [if_neg (by omega), if_neg hn, hs, if_neg (by omega)]

/-- A copy is the string itself as far as these functions see it. -/
theorem cut_kstrncpy (s ct : CString) (n : ℕ) : cut (kstrncpy s ct n) n = cut ct n := by
  refine cutFrom_congr (fun j _ hj => ?_) fun hl => ?_
  · rw [kstrncpy_apply, if_pos (by rw [cut]; omega)]
  · rw [kstrncpy_apply, if_neg (by rw [cut]; omega), if_pos (by omega)]

theorem kstrncpy_congr {ct ct' : CString} {n : ℕ} (h : cut ct n = cut ct' n) (s : CString) :
    kstrncpy s ct n = kstrncpy s ct' n := by
  funext j
  rw [kstrncpy_apply, kstrncpy_apply, ← h]
  by_cases hj : j < (cut ct n).length
  · rw [if_pos hj, if_pos hj]
    exact eq_of_cut_eq h (hj.trans_le (length_cut_le ct n))
      fun i hi => ne_zero_of_lt_cut (hi.trans hj)
  · rw [if_neg hj, if_neg hj]

end Racoon.Strings
