import Mathlib.Tactic

/-!
# Tilings of an interval

`Tiles start len lo l hi` says that the pieces `l`, none of them empty, cover
`[lo, hi)` one behind the other.
-/

namespace Racoon.Lib
variable {α : Type*} {start len : α → ℕ}

def Tiles (start len : α → ℕ) : ℕ → List α → ℕ → Prop
  | lo, [], hi => lo = hi
  | lo, x :: l, hi => start x = lo ∧ 0 < len x ∧ Tiles start len (lo + len x) l hi

theorem tiles_append {lo hi : ℕ} {l r : List α} : Tiles start len lo (l ++ r) hi ↔
    ∃ mid, Tiles start len lo l mid ∧ Tiles start len mid r hi := by
  induction l generalizing lo with
  | nil => simp [Tiles]
  | cons x l ih => simp only [List.cons_append, Tiles, ih, exists_and_left, and_assoc]

theorem tiles_mid {lo hi : ℕ} {l r : List α} {x : α} : Tiles start len lo (l ++ x :: r) hi ↔
    Tiles start len lo l (start x) ∧ 0 < len x ∧ Tiles start len (start x + len x) r hi := by
  rw [tiles_append]
  constructor
  · rintro ⟨mid, hl, rfl, hx, hr⟩
    exact ⟨hl, hx, hr⟩
  · rintro ⟨hl, hx, hr⟩
    exact ⟨start x, hl, rfl, hx, hr⟩

namespace Tiles

theorem le {lo hi : ℕ} {l : List α} (h : Tiles start len lo l hi) : lo ≤ hi := by
  induction l generalizing lo with
  | nil => exact Nat.le_of_eq h
  | cons x l ih =>
    have := ih h.2.2
    omega

theorem mem {lo hi : ℕ} {l : List α} (h : Tiles start len lo l hi) {x : α} (hx : x ∈ l) :
    lo ≤ start x ∧ 0 < len x ∧ start x + len x ≤ hi := by
  obtain ⟨l, r, rfl⟩ := List.append_of_mem hx
  obtain ⟨hl, hpos, hr⟩ := tiles_mid.mp h
  exact ⟨hl.le, hpos, hr.le⟩

theorem sorted {lo hi : ℕ} {l : List α} (h : Tiles start len lo l hi) :
    l.Pairwise fun x y => start x + len x ≤ start y := by
  induction l generalizing lo with
  | nil => exact .nil
  | cons x l ih =>
    obtain ⟨rfl, -, h⟩ := h
    exact List.pairwise_cons.mpr ⟨fun y hy => (h.mem hy).1, ih h⟩

end Tiles

/-- Pieces that start at different places below `n` are at most `n`. -/
theorem length_le_of_sorted {l : List α} {f : α → ℕ} {n : ℕ}
    (hs : l.Pairwise fun x y => f x < f y) (hn : ∀ x ∈ l, f x < n) : l.length ≤ n := by
  have hd : (l.map f).Nodup := List.pairwise_map.mpr (hs.imp fun h => h.ne)
  have hsub : (l.map f) ⊆ List.range n := fun y hy => by
    obtain ⟨x, hx, rfl⟩ := List.mem_map.mp hy
    exact List.mem_range.mpr (hn x hx)
  simpa using (hd.subperm hsub).length_le

end Racoon.Lib
