import Mathlib.Tactic

/-!
# Who holds what

A holder for each thing. Handing out a list of things, each to a holder, leaves the
others with whom they were; so does taking some back. Two that hold different things
by this record cannot hold the same one.
-/

namespace Racoon.Lib
variable {κ η : Type*} [DecidableEq κ]

def handOut (holder : κ → η) (l : List (κ × η)) (k : κ) : η := (l.lookup k).getD (holder k)

def takeBack (free : η) (holder : κ → η) (l : List κ) (k : κ) : η :=
  if k ∈ l then free else holder k

variable {holder : κ → η} {l : List (κ × η)} {k : κ} {x : η}

theorem lookup_of_nodup (hl : (l.map Prod.fst).Nodup) (h : (k, x) ∈ l) : l.lookup k = some x := by
  induction l with
  | nil => cases h
  | cons y l ih =>
    obtain ⟨k', x'⟩ := y
    rw [List.map_cons, List.nodup_cons] at hl
    rcases List.mem_cons.mp h with he | hmem
    · cases he
      exact List.lookup_cons_self
    · have hne : k ≠ k' := by
        rintro rfl
        exact hl.1 (List.mem_map.mpr ⟨(k, x), hmem, rfl⟩)
      rw [List.lookup_cons, beq_false_of_ne hne]
      exact ih hl.2 hmem

theorem handOut_of_mem (hl : (l.map Prod.fst).Nodup) (h : (k, x) ∈ l) :
    handOut holder l k = x := by
  rw [handOut, lookup_of_nodup hl h, Option.getD_some]

theorem handOut_of_notMem (h : k ∉ l.map Prod.fst) : handOut holder l k = holder k := by
  have hnone : l.lookup k = none := by
    refine List.lookup_eq_none_iff.mpr fun y hy => bne_iff_ne.mpr ?_
    rintro rfl
    exact h (List.mem_map_of_mem hy)
  rw [handOut, hnone, Option.getD_none]

theorem takeBack_of_notMem {free : η} {l : List κ} (h : k ∉ l) :
    takeBack free holder l k = holder k := if_neg h

end Racoon.Lib
