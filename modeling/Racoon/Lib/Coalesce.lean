import Mathlib.Tactic

/-!
# Melting neighbours

`coalesce free join l` melts every two neighbours of `l` that are both free
into one by `join`. A list in which some elements become free may be coalesced
before that or not: the outcome is the same.
-/

namespace Racoon.Lib
variable {α : Type*} (free : α → Prop) [DecidablePred free] (join : α → α → α)

/-- One element in front of a list. -/
def melt (x : α) : List α → List α
  | [] => [x]
  | y :: l => if free x ∧ free y then join x y :: l else x :: y :: l

def coalesce (l : List α) : List α := l.foldr (melt free join) []

/-- Elements that are not both free. -/
def Unmelted (x y : α) : Prop := ¬ (free x ∧ free y)

variable {free join} {x y : α} {l m k : List α} {f : α → α}

theorem melt_of_head (h : ∀ y ∈ l.head?, Unmelted free x y) : melt free join x l = x :: l := by
  cases l with
  | nil => rfl
  | cons y l => exact if_neg (h y rfl)

theorem melt_cons (hx : free x) (hy : free y) : melt free join x (y :: l) = join x y :: l :=
  if_pos ⟨hx, hy⟩

theorem coalesce_append : coalesce free join (l ++ m) =
    l.foldr (melt free join) (coalesce free join m) := List.foldr_append

theorem coalesce_cons : coalesce free join (x :: l) = melt free join x (coalesce free join l) := rfl

/-- A list without free neighbours, in front of another. -/
theorem foldr_melt (hl : l.IsChain (Unmelted free))
    (h : ∀ x ∈ l.getLast?, ∀ y ∈ m.head?, Unmelted free x y) :
    l.foldr (melt free join) m = l ++ m := by
  induction l with
  | nil => rfl
  | cons x l ih =>
    rw [List.foldr_cons]
    cases l with
    | nil => exact melt_of_head fun y hy => h x rfl y hy
    | cons z l =>
      obtain ⟨hxz, hl⟩ := List.isChain_cons_cons.mp hl
      rw [ih hl h]
      exact if_neg hxz

theorem coalesce_eq_self (hl : l.IsChain (Unmelted free)) : coalesce free join l = l :=
  (foldr_melt hl (by simp)).trans (List.append_nil l)

section
variable (hfree : ∀ x y, free x → free y → free (join x y))

include hfree

/-- What is not free is neither added nor lost. -/
theorem mem_melt (hy : ¬ free y) : y ∈ melt free join x l ↔ y = x ∨ y ∈ l := by
  cases l with
  | nil => simp [melt]
  | cons z l =>
    by_cases h : free x ∧ free z
    · rw [melt_cons h.1 h.2]
      have hyx : y ≠ x := fun e => hy (e ▸ h.1)
      have hyz : y ≠ z := fun e => hy (e ▸ h.2)
      have hyj : y ≠ join x z := fun e => hy (e ▸ hfree x z h.1 h.2)
      simp [hyx, hyz, hyj]
    · rw [melt, if_neg h, List.mem_cons]

theorem mem_coalesce (hy : ¬ free y) : y ∈ coalesce free join l ↔ y ∈ l := by
  induction l with
  | nil => rfl
  | cons x l ih => rw [coalesce_cons, mem_melt hfree hy, ih, List.mem_cons]

variable (hassoc : ∀ x y z, free x → free y → free z → join x (join y z) = join (join x y) z)

include hassoc

theorem melt_melt (hx : free x) (hy : free y) :
    melt free join x (melt free join y l) = melt free join (join x y) l := by
  cases l with
  | nil => exact if_pos ⟨hx, hy⟩
  | cons z l =>
    by_cases hz : free z
    · rw [melt_cons hy hz, melt_cons hx (hfree y z hy hz), melt_cons (hfree x y hx hy) hz,
        hassoc x y z hx hy hz]
    · rw [melt, if_neg fun h => hz h.2, melt_cons hx hy, melt, if_neg fun h => hz h.2]

/-- What is free already is left alone by `f`. -/
theorem coalesce_map_melt (hf : ∀ x, free x → f x = x) :
    coalesce free join ((melt free join x l).map f) =
      melt free join (f x) (coalesce free join (l.map f)) := by
  cases l with
  | nil => rfl
  | cons y l =>
    by_cases h : free x ∧ free y
    · obtain ⟨hx, hy⟩ := h
      rw [melt_cons hx hy, List.map_cons, List.map_cons, coalesce_cons, coalesce_cons, hf x hx,
        hf y hy, hf _ (hfree x y hx hy), melt_melt hfree hassoc hx hy]
    · rw [melt, if_neg h]
      rfl

/-- Elements may become free before or after a melting. -/
theorem coalesce_map_coalesce (hf : ∀ x, free x → f x = x) :
    coalesce free join ((coalesce free join l).map f) = coalesce free join (l.map f) := by
  induction l with
  | nil => rfl
  | cons x l ih =>
    rw [coalesce_cons, coalesce_map_melt hfree hassoc hf, ih, List.map_cons, coalesce_cons]

end
end Racoon.Lib
