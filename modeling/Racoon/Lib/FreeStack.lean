import Mathlib.Tactic
import Mathlib.Order.Interval.Finset.Nat

/-!
# Stacks of free indices

The indices below `n` that are not in use lie in `ctl[position..n)`, each once.
Taking one moves `position` up and leaves its entry behind as a stale one;
giving one back overwrites the last stale entry.
-/

namespace Racoon.Lib

structure FreeStack (ctl : ℕ → ℕ) (position n : ℕ) (busy : ℕ → Prop) : Prop where
  le : position ≤ n
  inj : ∀ j k, position ≤ j → j < n → position ≤ k → k < n → ctl j = ctl k → j = k
  free : ∀ i, (∃ j, position ≤ j ∧ j < n ∧ ctl j = i) ↔ i < n ∧ ¬ busy i

namespace FreeStack
variable {ctl : ℕ → ℕ} {position n : ℕ} {busy busy' : ℕ → Prop}

theorem all_free (hctl : ∀ i < n, ctl i = i) (hb : ∀ i < n, ¬ busy i) :
    FreeStack ctl 0 n busy where
  le := Nat.zero_le n
  inj j k _ hj _ hk h := by rwa [hctl j hj, hctl k hk] at h
  free i := by
    constructor
    · rintro ⟨j, -, hj, rfl⟩
      rw [hctl j hj]
      exact ⟨hj, hb j hj⟩
    · exact fun h => ⟨i, Nat.zero_le i, h.1, hctl i h.1⟩

theorem congr (h : FreeStack ctl position n busy) (hb : ∀ i < n, busy i ↔ busy' i) :
    FreeStack ctl position n busy' where
  le := h.le
  inj := h.inj
  free i := by
    rw [h.free]
    exact and_congr_right fun hi => not_congr (hb i hi)

theorem top (h : FreeStack ctl position n busy) (hp : position < n) :
    ctl position < n ∧ ¬ busy (ctl position) :=
  (h.free _).mp ⟨position, le_rfl, hp, rfl⟩

theorem pop (h : FreeStack ctl position n busy) (hp : position < n) :
    FreeStack ctl (position + 1) n fun i => busy i ∨ i = ctl position where
  le := hp
  inj j k hj hjn hk hkn := h.inj j k (by omega) hjn (by omega) hkn
  free i := by
    constructor
    · rintro ⟨j, hj, hjn, rfl⟩
      obtain ⟨hi, hb⟩ := (h.free _).mp ⟨j, by omega, hjn, rfl⟩
      refine ⟨hi, not_or.mpr ⟨hb, fun he => ?_⟩⟩
      have := h.inj j position (by omega) hjn le_rfl hp he
      omega
    · rintro ⟨hi, hb⟩
      obtain ⟨hb, hne⟩ := not_or.mp hb
      obtain ⟨j, hj, hjn, rfl⟩ := (h.free i).mpr ⟨hi, hb⟩
      refine ⟨j, ?_, hjn, rfl⟩
      have : j ≠ position := fun e => hne (by rw [e])
      omega

theorem push (h : FreeStack ctl position n busy) (hp : 0 < position) {i : ℕ} (hi : i < n)
    (hb : busy i) :
    FreeStack (Function.update ctl (position - 1) i) (position - 1) n
      fun k => busy k ∧ k ≠ i where
  le := by have := h.le; omega
  inj j k hj hjn hk hkn he := by
    by_cases hj' : j = position - 1 <;> by_cases hk' : k = position - 1
    · omega
    · rw [hj', Function.update_self, Function.update_of_ne hk'] at he
      exact absurd hb (((h.free i).mp ⟨k, by omega, hkn, he.symm⟩).2)
    · rw [hk', Function.update_self, Function.update_of_ne hj'] at he
      exact absurd hb (((h.free i).mp ⟨j, by omega, hjn, he⟩).2)
    · rw [Function.update_of_ne hj', Function.update_of_ne hk'] at he
      exact h.inj j k (by omega) hjn (by omega) hkn he
  free k := by
    have hle := h.le
    constructor
    · rintro ⟨j, hj, hjn, rfl⟩
      by_cases hj' : j = position - 1
      · rw [hj', Function.update_self]
        exact ⟨hi, fun hk => hk.2 rfl⟩
      · rw [Function.update_of_ne hj']
        obtain ⟨hk, hkb⟩ := (h.free _).mp ⟨j, by omega, hjn, rfl⟩
        exact ⟨hk, fun hk' => hkb hk'.1⟩
    · rintro ⟨hk, hkb⟩
      by_cases hki : k = i
      · exact ⟨position - 1, le_rfl, by omega, by rw [Function.update_self, hki]⟩
      · obtain ⟨j, hj, hjn, rfl⟩ := (h.free k).mpr ⟨hk, fun hb' => hkb ⟨hb', hki⟩⟩
        exact ⟨j, by omega, hjn, Function.update_of_ne (by omega) _ _⟩

/-- The stack is full exactly when no index is in use. -/
theorem position_eq_zero_iff (h : FreeStack ctl position n busy) :
    position = 0 ↔ ∀ i < n, ¬ busy i := by
  have hcard : ((Finset.Ico position n).image ctl).card = n - position := by
    rw [Finset.card_image_of_injOn, Nat.card_Ico]
    intro j hj k hk
    rw [Finset.mem_coe, Finset.mem_Ico] at hj hk
    exact h.inj j k hj.1 hj.2 hk.1 hk.2
  have hmem : ∀ i, i ∈ (Finset.Ico position n).image ctl ↔ i < n ∧ ¬ busy i := by
    simp only [Finset.mem_image, Finset.mem_Ico, and_assoc, h.free, implies_true]
  have hsub : (Finset.Ico position n).image ctl ⊆ Finset.range n :=
    fun i hi => Finset.mem_range.mpr ((hmem i).mp hi).1
  constructor
  · intro h0 i hi
    have heq := Finset.eq_of_subset_of_card_le hsub (by rw [hcard, Finset.card_range]; omega)
    exact ((hmem i).mp (heq ▸ Finset.mem_range.mpr hi)).2
  · intro hb
    have hle := Finset.card_le_card fun i (hi : i ∈ Finset.range n) =>
      (hmem i).mpr ⟨Finset.mem_range.mp hi, hb i (Finset.mem_range.mp hi)⟩
    rw [hcard, Finset.card_range] at hle
    have := h.le
    omega

theorem position_pos (h : FreeStack ctl position n busy) {i : ℕ} (hi : i < n) (hb : busy i) :
    0 < position :=
  Nat.pos_of_ne_zero fun h0 => h.position_eq_zero_iff.mp h0 i hi hb

end FreeStack
end Racoon.Lib
