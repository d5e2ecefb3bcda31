import Mathlib.Tactic

/-!
# Allocators that stand on one another

A `Backing` is an allocator seen through its two calls: which blocks are live,
what a call for a block may answer and what giving a block back leaves. A block
is known by its start, and the answer 0 is none. A call may fail, for want of
memory that the allocator needs itself; where that is granted it returns.

A client enters the blocks it gets in a `Ledger`, under keys of its own. The
ledger is balanced when it has every live block once and no other.
-/

namespace Racoon.Lib

structure Backing (ε σ : Type*) where
  alloc : σ → ℕ → ℕ → Except ε (σ × ℕ)
  free : σ → ℕ → ℕ → Except ε σ
  Ok : σ → Prop
  Live : σ → ℕ → ℕ → Prop
  /-- The sizes that can be asked for. -/
  Admits : σ → ℕ → Prop
  /-- The memory for the next call is there. -/
  Granted : σ → Prop
  Unchanged : σ → σ → Prop
  unchanged_refl : ∀ s, Unchanged s s
  alloc_returns : ∀ s n flag, Ok s → Admits s n → Granted s → ∃ r, alloc s n flag = .ok r
  alloc_cases : ∀ s n flag t a, Ok s → Admits s n → alloc s n flag = .ok (t, a) →
    Ok t ∧ (∀ k, Admits t k ↔ Admits s k) ∧
      (a = 0 ∧ Unchanged s t ∧ (∀ b k, Live t b k ↔ Live s b k) ∨
        a ≠ 0 ∧ (∀ k, ¬ Live s a k) ∧
          ∃ m, n ≤ m ∧ ∀ b k, Live t b k ↔ Live s b k ∨ b = a ∧ k = m)
  free_returns : ∀ s a k n, Ok s → Live s a k → ∃ t, free s a n = .ok t ∧ Ok t ∧
    (∀ k, Admits t k ↔ Admits s k) ∧ ∀ b k, Live t b k ↔ Live s b k ∧ b ≠ a

/-- An allocator that is never asked. -/
def Backing.none (ε σ : Type*) : Backing ε σ where
  alloc s _ _ := .ok (s, 0)
  free s _ _ := .ok s
  Ok _ := True
  Live _ _ _ := False
  Admits _ _ := False
  Granted _ := True
  Unchanged s t := s = t
  unchanged_refl _ := rfl
  alloc_returns _ _ _ _ h := h.elim
  alloc_cases _ _ _ _ _ _ h := h.elim
  free_returns _ _ _ _ _ h := h.elim

/-- The keys that hold a block of at least so many bytes, and the live blocks. -/
structure Ledger {κ : Type*} (held : κ → ℕ → ℕ → Prop) (live : ℕ → ℕ → Prop) : Prop where
  backed : ∀ k a n, held k a n → a ≠ 0 ∧ ∃ m, n ≤ m ∧ live a m
  only : ∀ a m, live a m → ∃ k n, held k a n
  single : ∀ k a b n j, held k a n → held k b j → a = b
  distinct : ∀ k k' a n n', held k a n → held k' a n' → k = k'

namespace Ledger
variable {κ : Type*} {held held' : κ → ℕ → ℕ → Prop} {live live' : ℕ → ℕ → Prop} {k : κ} {a n m : ℕ}

theorem nothing (hheld : ∀ k a n, ¬ held k a n) (hlive : ∀ a m, ¬ live a m) : Ledger held live :=
  ⟨fun k a n hk => (hheld k a n hk).elim, fun a m ha => (hlive a m ha).elim,
    fun k a _ n _ hk => (hheld k a n hk).elim, fun k _ a n _ hk => (hheld k a n hk).elim⟩

theorem congr (h : Ledger held live) (hheld : ∀ k a n, held' k a n ↔ held k a n)
    (hlive : ∀ a m, live' a m ↔ live a m) : Ledger held' live' := by
  have h₁ : held' = held := by
    funext k a n
    exact propext (hheld k a n)
  have h₂ : live' = live := by
    funext a m
    exact propext (hlive a m)
  rw [h₁, h₂]
  exact h

/-- A new block is entered under a new key. -/
theorem enter (h : Ledger held live) (hk : ∀ a n, ¬ held k a n) (ha : a ≠ 0)
    (hnew : ∀ j, ¬ live a j) (hnm : n ≤ m)
    (hheld : ∀ k' b j, held' k' b j ↔ held k' b j ∨ k' = k ∧ b = a ∧ j = n)
    (hlive : ∀ b j, live' b j ↔ live b j ∨ b = a ∧ j = m) : Ledger held' live' := by
  refine ⟨fun k' b j hb => ?_, fun b j hb => ?_, fun k' b c j j' h₁ h₂ => ?_,
    fun k₁ k₂ b j j' h₁ h₂ => ?_⟩
  · rcases (hheld k' b j).mp hb with hb | ⟨rfl, rfl, rfl⟩
    · obtain ⟨h0, m', hj, hm'⟩ := h.backed k' b j hb
      exact ⟨h0, m', hj, (hlive b m').mpr (.inl hm')⟩
    · exact ⟨ha, m, hnm, (hlive b m).mpr (.inr ⟨rfl, rfl⟩)⟩
  · rcases (hlive b j).mp hb with hb | ⟨rfl, rfl⟩
    · obtain ⟨k', n', hk'⟩ := h.only b j hb
      exact ⟨k', n', (hheld k' b n').mpr (.inl hk')⟩
    · exact ⟨k, n, (hheld k b n).mpr (.inr ⟨rfl, rfl, rfl⟩)⟩
  · rcases (hheld k' b j).mp h₁ with h₁ | ⟨rfl, rfl, rfl⟩
    · rcases (hheld k' c j').mp h₂ with h₂ | ⟨rfl, -, -⟩
      · exact h.single k' b c j j' h₁ h₂
      · exact (hk b j h₁).elim
    · rcases (hheld k' c j').mp h₂ with h₂ | ⟨-, rfl, -⟩
      · exact (hk c j' h₂).elim
      · rfl
  · have hlost : ∀ k' j, held k' a j → False := fun k' j hk' => by
      obtain ⟨-, m', -, hm'⟩ := h.backed k' a j hk'
      exact hnew m' hm'
    rcases (hheld k₁ b j).mp h₁ with h₁ | ⟨rfl, rfl, rfl⟩
    · rcases (hheld k₂ b j').mp h₂ with h₂ | ⟨rfl, rfl, rfl⟩
      · exact h.distinct k₁ k₂ b j j' h₁ h₂
      · exact (hlost k₁ j h₁).elim
    · rcases (hheld k₂ b j').mp h₂ with h₂ | ⟨rfl, -, -⟩
      · exact (hlost k₂ j' h₂).elim
      · rfl

/-- A block is given back and its key with it. -/
theorem leave (h : Ledger held live) (hk : held k a n)
    (hheld : ∀ k' b j, held' k' b j ↔ held k' b j ∧ k' ≠ k)
    (hlive : ∀ b j, live' b j ↔ live b j ∧ b ≠ a) : Ledger held' live' := by
  refine ⟨fun k' b j hb => ?_, fun b j hb => ?_, fun k' b c j j' h₁ h₂ => ?_,
    fun k₁ k₂ b j j' h₁ h₂ => ?_⟩
  · obtain ⟨hb, hne⟩ := (hheld k' b j).mp hb
    obtain ⟨h0, m, hj, hm⟩ := h.backed k' b j hb
    refine ⟨h0, m, hj, (hlive b m).mpr ⟨hm, fun e => hne ?_⟩⟩
    exact h.distinct k' k b j n hb (e ▸ hk)
  · obtain ⟨hb, hne⟩ := (hlive b j).mp hb
    obtain ⟨k', n', hk'⟩ := h.only b j hb
    refine ⟨k', n', (hheld k' b n').mpr ⟨hk', ?_⟩⟩
    rintro rfl
    exact hne (h.single k' b a n' n hk' hk)
  · exact h.single k' b c j j' ((hheld k' b j).mp h₁).1 ((hheld k' c j').mp h₂).1
  · exact h.distinct k₁ k₂ b j j' ((hheld k₁ b j).mp h₁).1 ((hheld k₂ b j').mp h₂).1

end Ledger
end Racoon.Lib
