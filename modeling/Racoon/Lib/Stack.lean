import Mathlib.Tactic

/-!
# Words on a stack

A memory of words, each known by the address of its first byte, and a stack in it
that grows down by four bytes a word. What a sequence of pushes leaves behind is a
list of words from the stack pointer on, and nothing else has changed.
-/

namespace Racoon.Lib

/-- The words of a list from an address on. -/
def WordsAt (m : ℕ → ℕ) : ℕ → List ℕ → Prop
  | _, [] => True
  | a, w :: ws => m a = w ∧ WordsAt m (a + 4) ws

/-- The memory and the stack pointer after the words of a list have been pushed, the first of the
list first. -/
def pushWords (m : ℕ → ℕ) : ℕ → List ℕ → ℕ → ℕ
  | _, [] => m
  | sp, w :: ws => pushWords (Function.update m (sp - 4) w) (sp - 4) ws

variable {m m' : ℕ → ℕ} {a sp : ℕ} {ws : List ℕ}

theorem WordsAt.congr (h : WordsAt m a ws)
    (hm : ∀ b, a ≤ b → b + 4 ≤ a + 4 * ws.length → m' b = m b) : WordsAt m' a ws := by
  induction ws generalizing a with
  | nil => trivial
  | cons w ws ih =>
    rw [List.length_cons] at hm
    refine ⟨(hm a le_rfl (by omega)).trans h.1, ih h.2 fun b hb hle => hm b (by omega) (by omega)⟩

theorem WordsAt.append {vs : List ℕ} (h : WordsAt m a ws)
    (h' : WordsAt m (a + 4 * ws.length) vs) : WordsAt m a (ws ++ vs) := by
  induction ws generalizing a with
  | nil => exact h'
  | cons w ws ih =>
    refine ⟨h.1, ih h.2 ?_⟩
    rw [List.length_cons] at h'
    rwa [show a + 4 + 4 * ws.length = a + 4 * (ws.length + 1) by omega]

theorem WordsAt.of_append {vs : List ℕ} (h : WordsAt m a (ws ++ vs)) : WordsAt m a ws := by
  induction ws generalizing a with
  | nil => trivial
  | cons w ws ih => exact ⟨h.1, ih h.2⟩

/-- Nothing from the old stack pointer on or below the new one changes. -/
theorem pushWords_frame (h : 4 * ws.length ≤ sp) (ha : sp ≤ a ∨ a < sp - 4 * ws.length) :
    pushWords m sp ws a = m a := by
  induction ws generalizing m sp with
  | nil => rfl
  | cons w ws ih =>
    rw [List.length_cons] at h ha
    rw [pushWords, ih (by omega) (by omega), Function.update_of_ne (by omega)]

theorem wordsAt_pushWords (m : ℕ → ℕ) {sp : ℕ} {ws : List ℕ} (h : 4 * ws.length ≤ sp) :
    WordsAt (pushWords m sp ws) (sp - 4 * ws.length) ws.reverse := by
  induction ws generalizing m sp with
  | nil => trivial
  | cons w ws ih =>
    rw [List.length_cons] at h
    rw [pushWords, List.reverse_cons]
    have hlow := @ih (Function.update m (sp - 4) w) (sp - 4) (by omega)
    rw [show sp - 4 - 4 * ws.length = sp - 4 * (w :: ws).length by rw [List.length_cons]; omega]
      at hlow
    refine hlow.append ⟨?_, trivial⟩
    rw [List.length_reverse, List.length_cons,
      show sp - 4 * (ws.length + 1) + 4 * ws.length = sp - 4 by omega,
      pushWords_frame (by omega) (.inl le_rfl), Function.update_self]

end Racoon.Lib
