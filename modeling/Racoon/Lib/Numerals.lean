import Mathlib.Data.Nat.Digits.Lemmas
import Mathlib.Tactic

/-!
# Positional numerals

The shortest numeral of a number in a base, most significant digit first, and
its value. Taking digits off at the low end, as a printing loop does, builds it
from behind.
-/

namespace Racoon.Numerals

/-- The numeral of `n` without leading zeros; zero has one digit. -/
def numeral (b n : ℕ) : List ℕ := if n = 0 then [0] else (Nat.digits b n).reverse

/-- The number that a list of digits stands for. -/
def valueOf (b : ℕ) (l : List ℕ) : ℕ := l.foldl (fun v d => v * b + d) 0

/-- A numeral of `n`, and none is shorter. -/
structure IsNumeral (b n : ℕ) (l : List ℕ) : Prop where
  nonempty : l ≠ []
  digits : ∀ d ∈ l, d < b
  value : valueOf b l = n
  shortest : ∀ l', l' ≠ [] → (∀ d ∈ l', d < b) → valueOf b l' = n → l.length ≤ l'.length

theorem valueOf_append_singleton (b : ℕ) (l : List ℕ) (d : ℕ) :
    valueOf b (l ++ [d]) = valueOf b l * b + d := by
  simp [valueOf]

theorem valueOf_eq (b : ℕ) (l : List ℕ) : valueOf b l = Nat.ofDigits b l.reverse := by
  induction l using List.reverseRecOn with
  | nil => rfl
  | append_singleton l d ih =>
    rw [valueOf_append_singleton, ih, List.reverse_append, List.reverse_singleton,
      List.singleton_append, Nat.ofDigits_cons]
    ring

theorem valueOf_numeral (b n : ℕ) : valueOf b (numeral b n) = n := by
  unfold numeral
  by_cases h : n = 0
  · simp [h, valueOf]
  · rw [if_neg h, valueOf_eq, List.reverse_reverse, Nat.ofDigits_digits]

theorem numeral_ne_nil (b n : ℕ) : numeral b n ≠ [] := by
  unfold numeral
  by_cases h : n = 0
  · simp [h]
  · simpa [h] using Nat.digits_ne_nil_iff_ne_zero.mpr h

section Base

variable {b : ℕ}

theorem numeral_of_lt {n : ℕ} (h : n < b) : numeral b n = [n] := by
  unfold numeral
  by_cases hn : n = 0
  · simp [hn]
  · rw [if_neg hn, Nat.digits_of_lt b n hn h, List.reverse_singleton]

variable (hb : 1 < b)
include hb

/-- The last digit is split off. -/
theorem numeral_of_le {n : ℕ} (h : b ≤ n) : numeral b n = numeral b (n / b) ++ [n % b] := by
  have hq : n / b ≠ 0 := (Nat.div_pos h (by omega)).ne'
  unfold numeral
  rw [if_neg (by omega), if_neg hq, Nat.digits_def' hb (by omega), List.reverse_cons]

theorem lt_of_mem_numeral {n d : ℕ} (h : d ∈ numeral b n) : d < b := by
  unfold numeral at h
  by_cases hn : n = 0
  · rw [if_pos hn, List.mem_singleton] at h
    omega
  · rw [if_neg hn, List.mem_reverse] at h
    exact Nat.digits_lt_base hb h

/-- Any other numeral with the same value is at least as long. -/
theorem length_numeral_le {n : ℕ} {l : List ℕ} (hne : l ≠ []) (hl : ∀ d ∈ l, d < b)
    (hv : valueOf b l = n) : (numeral b n).length ≤ l.length := by
  unfold numeral
  by_cases hn : n = 0
  · rw [if_pos hn]
    exact List.length_pos_iff.mpr hne
  · rw [if_neg hn, List.length_reverse]
    have hlt : n < b ^ l.length := by
      rw [← hv, valueOf_eq, ← List.length_reverse]
      exact Nat.ofDigits_lt_base_pow_length hb fun d hd => hl d (List.mem_reverse.mp hd)
    have hle := Nat.base_pow_length_digits_le b n hb hn
    by_contra hgt
    have : b ^ (l.length + 1) ≤ b ^ (Nat.digits b n).length :=
      Nat.pow_le_pow_right (by omega) (by omega)
    have : b * b ^ l.length ≤ b * n := by
      calc b * b ^ l.length = b ^ (l.length + 1) := by ring
        _ ≤ b * n := this.trans hle
    exact absurd (Nat.le_of_mul_le_mul_left this (by omega)) (by omega)

theorem isNumeral_numeral (n : ℕ) : IsNumeral b n (numeral b n) :=
  ⟨numeral_ne_nil b n, fun _ => lt_of_mem_numeral hb, valueOf_numeral b n,
    fun _ hne hl hv => length_numeral_le hb hne hl hv⟩

theorem IsNumeral.eq {n : ℕ} {l : List ℕ} (h : IsNumeral b n l) : l = numeral b n := by
  have h' := isNumeral_numeral hb n
  have hlen : l.length = (numeral b n).length :=
    le_antisymm (h.shortest _ h'.nonempty h'.digits h'.value)
      (h'.shortest _ h.nonempty h.digits h.value)
  apply List.reverse_injective
  apply Nat.ofDigits_inj_of_len_eq hb
  · rw [List.length_reverse, List.length_reverse, hlen]
  · exact fun d hd => h.digits d (List.mem_reverse.mp hd)
  · exact fun d hd => h'.digits d (List.mem_reverse.mp hd)
  · rw [← valueOf_eq, ← valueOf_eq, h.value, h'.value]

theorem length_numeral_le_of_lt {n k : ℕ} (hk : 0 < k) (h : n < b ^ k) :
    (numeral b n).length ≤ k := by
  unfold numeral
  by_cases hn : n = 0
  · rw [if_pos hn]
    exact hk
  · rw [if_neg hn, List.length_reverse]
    exact (Nat.digits_length_le_iff hb n).mpr h

/-- The leading digit of a number other than zero is not zero. -/
theorem numeral_eq_cons {n : ℕ} (hn : n ≠ 0) : ∃ d l, numeral b n = d :: l ∧ 0 < d ∧ d < b := by
  obtain ⟨d, l, hl⟩ := List.exists_cons_of_ne_nil (numeral_ne_nil b n)
  have hmem : d ∈ numeral b n := hl ▸ List.mem_cons_self
  refine ⟨d, l, hl, Nat.pos_of_ne_zero fun h => ?_, lt_of_mem_numeral hb hmem⟩
  have hlast := Nat.getLast_digit_ne_zero b hn
  unfold numeral at hl
  rw [if_neg hn] at hl
  apply hlast
  rw [List.getLast_eq_head_reverse]
  simp only [hl, List.head_cons, h]

end Base

end Racoon.Numerals
