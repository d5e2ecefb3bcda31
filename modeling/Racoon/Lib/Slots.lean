import Mathlib.Tactic
import Mathlib.Data.Multiset.AddSub

/-!
# An array of slots that are empty or hold one item

`items t n` lists the items in the first `n` slots and `contents t n` is their
multiset. Filling an empty slot adds the item and emptying a full one takes it
away, wherever the slot lies; fewer items than slots leave an empty one.
-/

namespace Racoon.Lib.Slots
variable {α : Type*}

def items (t : ℕ → Option α) (n : ℕ) : List α := (List.range n).filterMap t

def contents (t : ℕ → Option α) (n : ℕ) : Multiset α := items t n

theorem mem_items {t : ℕ → Option α} {n : ℕ} {x : α} :
    x ∈ items t n ↔ ∃ i < n, t i = some x := by
  simp [items, List.mem_filterMap]

theorem mem_contents {t : ℕ → Option α} {n : ℕ} {x : α} :
    x ∈ contents t n ↔ ∃ i < n, t i = some x := mem_items

theorem items_succ (t : ℕ → Option α) (n : ℕ) : items t (n + 1) = items t n ++ (t n).toList := by
  rw [items, List.range_succ, List.filterMap_append]
  cases h : t n <;> simp [items, h]

theorem contents_empty (n : ℕ) : contents (fun _ => (none : Option α)) n = 0 := by
  refine Multiset.eq_zero_of_forall_notMem fun x hx => ?_
  obtain ⟨_, _, h⟩ := mem_contents.mp hx
  cases h

theorem length_items_le (t : ℕ → Option α) (n : ℕ) : (items t n).length ≤ n := by
  simpa [items] using List.length_filterMap_le t (List.range n)

theorem card_contents_le (t : ℕ → Option α) (n : ℕ) : (contents t n).card ≤ n :=
  length_items_le t n

/-- Slot `i` apart, only the other slots matter. -/
theorem contents_eq (t : ℕ → Option α) {i n : ℕ} (hi : i < n) :
    contents t n = ((t i).toList ++ ((List.range n).erase i).filterMap t : List α) := by
  have hp := (List.perm_cons_erase (List.mem_range.mpr hi)).filterMap t
  refine (Multiset.coe_eq_coe.mpr hp).trans ?_
  cases h : t i <;> simp [h]

theorem erase_filterMap_update (t : ℕ → Option α) (i n : ℕ) (o : Option α) :
    ((List.range n).erase i).filterMap (Function.update t i o) =
      ((List.range n).erase i).filterMap t := by
  refine List.filterMap_congr fun j hj => ?_
  have hne : j ≠ i := fun h => List.nodup_range.not_mem_erase (h ▸ hj)
  exact Function.update_of_ne hne _ _

theorem contents_put {t : ℕ → Option α} {i n : ℕ} (hi : i < n) (h : t i = none) (x : α) :
    contents (Function.update t i (some x)) n = x ::ₘ contents t n := by
  rw [contents_eq _ hi, contents_eq t hi, erase_filterMap_update, h]
  simp

theorem contents_take {t : ℕ → Option α} {i n : ℕ} (hi : i < n) {x : α} (h : t i = some x) :
    x ::ₘ contents (Function.update t i none) n = contents t n := by
  rw [contents_eq _ hi, contents_eq t hi, erase_filterMap_update, h]
  simp

theorem exists_empty {t : ℕ → Option α} {n : ℕ} (h : (contents t n).card < n) :
    ∃ i < n, t i = none := by
  by_contra hne
  have hall : ∀ m ≤ n, (items t m).length = m := by
    intro m
    induction m with
    | zero => simp [items]
    | succ m ih =>
      intro hm
      cases hx : t m with
      | none => exact absurd ⟨m, hm, hx⟩ hne
      | some x => simp [items_succ, hx, ih (by omega)]
  exact absurd (hall n le_rfl) h.ne

end Racoon.Lib.Slots
