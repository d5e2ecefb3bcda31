import Mathlib.Tactic

/-!
# Pieces in order inside an interval

`Packed start len lo l hi` says that the pieces `l` lie in the interval from
`lo` to `hi` in the order of the list, each behind the end of the one before,
with gaps where they may be.
-/

namespace Racoon.Lib
variable {α : Type*} {start len : α → ℕ}

def Packed (start len : α → ℕ) : ℕ → List α → ℕ → Prop
  | lo, [], hi => lo ≤ hi
  | lo, x :: l, hi => lo ≤ start x ∧ Packed start len (start x + len x) l hi

theorem packed_mid {lo hi : ℕ} {l r : List α} {x : α} : Packed start len lo (l ++ x :: r) hi ↔
    Packed start len lo l (start x) ∧ Packed start len (start x + len x) r hi := by
  induction l generalizing lo with
  | nil => simp [Packed]
  | cons y l ih => simp [Packed, ih, and_assoc]

namespace Packed
variable {lo hi : ℕ} {l r : List α} {x : α}

theorem le (h : Packed start len lo l hi) : lo ≤ hi := by
  induction l generalizing lo with
  | nil => exact h
  | cons x l ih => exact h.1.trans (Nat.le_of_add_right_le (ih h.2))

theorem mono (h : Packed start len lo l hi) {lo' hi' : ℕ} (hlo : lo' ≤ lo) (hhi : hi ≤ hi') :
    Packed start len lo' l hi' := by
  induction l generalizing lo lo' with
  | nil => exact hlo.trans ((show lo ≤ hi from h).trans hhi)
  | cons x l ih => exact ⟨hlo.trans h.1, ih h.2 le_rfl⟩

theorem mem (h : Packed start len lo l hi) (hx : x ∈ l) : lo ≤ start x ∧ start x + len x ≤ hi := by
  obtain ⟨l, r, rfl⟩ := List.append_of_mem hx
  obtain ⟨hl, hr⟩ := packed_mid.mp h
  exact ⟨hl.le, hr.le⟩

theorem sorted (h : Packed start len lo l hi) :
    l.Pairwise fun x y => start x + len x ≤ start y := by
  induction l generalizing lo with
  | nil => exact .nil
  | cons x l ih => exact List.pairwise_cons.mpr ⟨fun y hy => (h.2.mem hy).1, ih h.2⟩

/-- A piece put into the gap between two others. -/
theorem insert (hl : Packed start len lo l (start x)) {hi' : ℕ} (hx : start x + len x ≤ hi')
    (hr : Packed start len hi' r hi) : Packed start len lo (l ++ x :: r) hi :=
  packed_mid.mpr ⟨hl, hr.mono hx le_rfl⟩

theorem remove (h : Packed start len lo (l ++ x :: r) hi) :
    Packed start len lo (l ++ r) hi := by
  obtain ⟨hl, hr⟩ := packed_mid.mp h
  cases r with
  | nil => simpa using hl.mono le_rfl (Nat.le_of_add_right_le hr.le)
  | cons y r => exact packed_mid.mpr ⟨hl.mono le_rfl (Nat.le_of_add_right_le hr.1), hr.2⟩

theorem sum_le (h : Packed start len lo l hi) : lo + (l.map len).sum ≤ hi := by
  induction l generalizing lo with
  | nil => exact h
  | cons x l ih =>
    have := ih h.2
    have := h.1
    rw [List.map_cons, List.sum_cons]
    omega

/-- An interval that none of the pieces reaches into takes its share too. -/
theorem sum_add_le (h : Packed start len lo l hi) {a n : ℕ} (ha : lo ≤ a) (hn : a + n ≤ hi)
    (hclear : ∀ x ∈ l, a + n ≤ start x ∨ start x + len x ≤ a) : lo + (l.map len).sum + n ≤ hi := by
  induction l generalizing lo with
  | nil =>
    rw [List.map_nil, List.sum_nil]
    omega
  | cons x l ih =>
    have hlo := h.1
    have hsum := h.2.sum_le
    rw [List.map_cons, List.sum_cons]
    rcases hclear x List.mem_cons_self with hx | hx
    · omega
    · have := ih h.2 hx fun y hy => hclear y (List.mem_cons_of_mem x hy)
      omega

/-- Two pieces are the same or one lies behind the other. -/
theorem eq_or_clear (h : Packed start len lo l hi) {y : α} (hx : x ∈ l) (hy : y ∈ l) :
    x = y ∨ start x + len x ≤ start y ∨ start y + len y ≤ start x := by
  obtain ⟨l, r, rfl⟩ := List.append_of_mem hx
  obtain ⟨hl, hr⟩ := packed_mid.mp h
  rcases List.mem_append.mp hy with hy | hy
  · exact .inr (.inr (hl.mem hy).2)
  · rcases List.mem_cons.mp hy with rfl | hy
    · exact .inl rfl
    · exact .inr (.inl (hr.mem hy).1)

end Packed

/-- None of the gaps has room for `n`. -/
def Tight (start len : α → ℕ) (n : ℕ) : ℕ → List α → ℕ → Prop
  | lo, [], hi => hi < lo + n
  | lo, x :: l, hi => start x < lo + n ∧ Tight start len n (start x + len x) l hi

theorem Tight.not_clear {lo hi n : ℕ} {l : List α} (h : Tight start len n lo l hi) {a : ℕ}
    (ha : lo ≤ a) (hn : a + n ≤ hi) :
    ¬ ∀ x ∈ l, a + n ≤ start x ∨ start x + len x ≤ a := by
  induction l generalizing lo with
  | nil =>
    have hlt : hi < lo + n := h
    omega
  | cons x l ih =>
    intro hclear
    have hx := hclear x List.mem_cons_self
    have hlt := h.1
    exact ih h.2 (by omega) fun y hy => hclear y (List.mem_cons_of_mem x hy)

end Racoon.Lib
