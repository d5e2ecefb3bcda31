import Mathlib.Tactic

/-!
# Doubly linked lists over a heap

A heap is a partial map from addresses to nodes, and a pointer is an address or
`NULL`. `Linked next prev a xs b` says that the nodes `xs` form one chain whose
neighbours outside are `a` and `b`; the fields are read through `next` and
`prev`, so that one node can be in several chains. The editing rules say which
two pointers change when a node is taken out of a chain or put into one, and
leave it to the caller how they were changed.
-/

namespace Racoon.Lib
variable {κ α : Type*}

/-- A pointer field of the nodes of a heap. -/
def via (field : α → Option κ) (heap : κ → Option α) (x : κ) : Option κ := (heap x).bind field

theorem via_of {field : α → Option κ} {heap : κ → Option α} {x : κ} {v : α} (h : heap x = some v) :
    via field heap x = field v := by
  simp [via, h]

theorem via_update [DecidableEq κ] (field : α → Option κ) (heap : κ → Option α) (x : κ) (v : α)
    (y : κ) :
    via field (Function.update heap x (some v)) y =
      if y = x then field v else via field heap y := by
  by_cases h : y = x
  · subst h
    simp [via]
  · simp [via, h]

/-- An update that keeps the pointer field. -/
theorem via_update_of_eq [DecidableEq κ] {field : α → Option κ} {heap : κ → Option α} {x : κ}
    {v w : α} (h : heap x = some v) (hf : field w = field v) :
    via field (Function.update heap x (some w)) = via field heap := by
  funext y
  rw [via_update]
  split_ifs with hy
  · rw [hf, hy, via_of h]
  · rfl

def Linked (next prev : κ → Option κ) : Option κ → List κ → Option κ → Prop
  | _, [], _ => True
  | a, x :: xs, b => prev x = a ∧ next x = xs.head?.or b ∧ Linked next prev (some x) xs b

namespace Linked
variable {next prev next' prev' : κ → Option κ} {a a' b b' : Option κ} {x : κ} {xs ys : List κ}

theorem append : Linked next prev a (xs ++ ys) b ↔
    Linked next prev a xs (ys.head?.or b) ∧ Linked next prev (xs.getLast?.or a) ys b := by
  induction xs generalizing a with
  | nil => simp [Linked]
  | cons x xs ih =>
    have hlast : (x :: xs).getLast?.or a = xs.getLast?.or (some x) := by
      cases h : xs.getLast? <;> simp [List.getLast?_cons, h]
    rw [hlast, List.cons_append]
    simp only [Linked, ih, List.head?_append, Option.or_assoc, and_assoc]

/-- The node in the middle of a chain. -/
theorem at_mid (h : Linked next prev a (xs ++ x :: ys) b) :
    prev x = xs.getLast?.or a ∧ next x = ys.head?.or b := by
  have := (append.mp h).2
  exact ⟨this.1, this.2.1⟩

theorem congr (h : Linked next prev a xs b) (hn : ∀ x ∈ xs, next' x = next x)
    (hp : ∀ x ∈ xs, prev' x = prev x) : Linked next' prev' a xs b := by
  induction xs generalizing a with
  | nil => trivial
  | cons x xs ih =>
    refine ⟨(hp x (by simp)).trans h.1, (hn x (by simp)).trans h.2.1, ih h.2.2 ?_ ?_⟩
    · exact fun y hy => hn y (by simp [hy])
    · exact fun y hy => hp y (by simp [hy])

/-- A chain is determined by where it starts. -/
theorem unique {p p' : κ → Option κ} (h : Linked next p a xs none) (h' : Linked next p' a' ys none)
    (he : xs.head? = ys.head?) : xs = ys := by
  induction xs generalizing ys a a' with
  | nil => exact (List.head?_eq_none_iff.mp he.symm).symm
  | cons x xs ih =>
    cases ys with
    | nil => cases he
    | cons y ys =>
      obtain rfl : x = y := Option.some.inj he
      have hnext := h.2.1.symm.trans h'.2.1
      rw [Option.or_none, Option.or_none] at hnext
      rw [ih h.2.2 h'.2.2 hnext]

variable [DecidableEq κ]

/-- Only the two ends of a chain look outside. -/
theorem of_ends (h : Linked next prev a xs b) (hd : xs.Nodup)
    (hn : ∀ x ∈ xs, next' x = if xs.getLast? = some x then b' else next x)
    (hp : ∀ x ∈ xs, prev' x = if xs.head? = some x then a' else prev x) :
    Linked next' prev' a' xs b' := by
  induction xs generalizing a a' with
  | nil => trivial
  | cons x xs ih =>
    obtain ⟨hx, hd⟩ := List.nodup_cons.mp hd
    obtain ⟨-, hnx, h⟩ := h
    refine ⟨by simpa using hp x (by simp), ?_, ih h hd (fun y hy => ?_) fun y hy => ?_⟩
    · have := hn x (by simp)
      cases xs with
      | nil => simpa using this
      | cons y ys =>
        rw [if_neg] at this
        · simpa [hnx] using this
        · rw [List.getLast?_cons_cons]
          exact fun hl => hx (List.mem_of_getLast? hl)
    · have := hn y (by simp [hy])
      cases xs with
      | nil => simp at hy
      | cons z zs => rwa [List.getLast?_cons_cons] at this
    · have hxy : ¬ x = y := fun e => hx (e ▸ hy)
      have := hp y (by simp [hy])
      rw [List.head?_cons, if_neg (by simpa using hxy)] at this
      split_ifs with hh
      · cases xs with
        | nil => simp at hy
        | cons z zs =>
          cases hh
          rw [this]
          exact h.1
      · exact this

theorem unlink (h : Linked next prev a (xs ++ x :: ys) b) (hd : (xs ++ x :: ys).Nodup)
    (hn : ∀ y ∈ xs ++ ys, next' y = if xs.getLast? = some y then ys.head?.or b else next y)
    (hp : ∀ y ∈ xs ++ ys, prev' y = if ys.head? = some y then xs.getLast?.or a else prev y) :
    Linked next' prev' a (xs ++ ys) b := by
  obtain ⟨hxs, -, -, hys⟩ := append.mp h
  obtain ⟨hdx, hdy, hne⟩ := List.nodup_append.mp hd
  have hdy := (List.nodup_cons.mp hdy).2
  have hne : ∀ y ∈ xs, y ∉ ys := fun y hy hy' => hne y hy y (by simp [hy']) rfl
  refine append.mpr ⟨?_, ?_⟩
  · refine hxs.of_ends hdx (fun y hy => hn y (by simp [hy])) fun y hy => ?_
    rw [hp y (by simp [hy]),
      if_neg fun hh : ys.head? = some y => hne y hy (List.mem_of_mem_head? hh)]
    split_ifs with hh
    · cases xs with
      | nil => simp at hy
      | cons z zs =>
        cases hh
        exact hxs.1
    · rfl
  · refine hys.of_ends hdy (fun y hy => ?_) fun y hy => hp y (by simp [hy])
    rw [hn y (by simp [hy]),
      if_neg fun hl : xs.getLast? = some y => hne y (List.mem_of_getLast? hl) hy]
    split_ifs with hl
    · obtain ⟨zs, rfl⟩ := List.getLast?_eq_some_iff.mp hl
      have := (append.mp hys).2
      simpa using this.2.1
    · rfl

theorem link (h : Linked next prev a (xs ++ ys) b) (hd : (xs ++ ys).Nodup)
    (hnx : next' x = ys.head?.or b) (hpx : prev' x = xs.getLast?.or a)
    (hn : ∀ y ∈ xs ++ ys, next' y = if xs.getLast? = some y then some x else next y)
    (hp : ∀ y ∈ xs ++ ys, prev' y = if ys.head? = some y then some x else prev y) :
    Linked next' prev' a (xs ++ x :: ys) b := by
  obtain ⟨hxs, hys⟩ := append.mp h
  obtain ⟨hdx, hdy, hne⟩ := List.nodup_append.mp hd
  have hne : ∀ y ∈ xs, y ∉ ys := fun y hy hy' => hne y hy y hy' rfl
  refine append.mpr ⟨?_, hpx, hnx, ?_⟩
  · refine hxs.of_ends hdx (fun y hy => by simpa using hn y (by simp [hy])) fun y hy => ?_
    rw [hp y (by simp [hy]),
      if_neg fun hh : ys.head? = some y => hne y hy (List.mem_of_mem_head? hh)]
    split_ifs with hh
    · cases xs with
      | nil => simp at hy
      | cons z zs =>
        cases hh
        exact hxs.1
    · rfl
  · refine hys.of_ends hdy (fun y hy => ?_) fun y hy => hp y (by simp [hy])
    rw [hn y (by simp [hy]),
      if_neg fun hl : xs.getLast? = some y => hne y (List.mem_of_getLast? hl) hy]
    split_ifs with hl
    · obtain ⟨zs, rfl⟩ := List.getLast?_eq_some_iff.mp hl
      have := (append.mp hys).2
      simpa using this.2.1
    · rfl

end Linked
end Racoon.Lib
