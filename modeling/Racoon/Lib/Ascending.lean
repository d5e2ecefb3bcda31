import Mathlib.Tactic

/-!
# Lists in the order of a key

A list sorted by a key, with ties in any order. A new element goes before the
first one with a greater key, and what is at most a bound is a prefix of the list.
-/

namespace Racoon.Lib
variable {α κ : Type*} [LinearOrder κ] {key : α → κ} {l : List α}

def Ascending (key : α → κ) (l : List α) : Prop := l.Pairwise fun a b => key a ≤ key b

/-- The place for a new element: before the first one with a greater key. -/
def slotFor (key : α → κ) (k : κ) (l : List α) : ℕ := l.findIdx fun a => decide (k < key a)

namespace Ascending

theorem nil : Ascending key [] := List.Pairwise.nil

theorem insert (h : Ascending key l) (a : α) :
    Ascending key (l.insertIdx (slotFor key (key a) l) a) := by
  induction l with
  | nil => exact List.pairwise_singleton _ a
  | cons b l ih =>
    obtain ⟨hb, hl⟩ := List.pairwise_cons.mp h
    rw [slotFor, List.findIdx_cons]
    by_cases hlt : key a < key b
    · rw [decide_eq_true hlt, cond_true, List.insertIdx_zero]
      refine List.pairwise_cons.mpr ⟨fun c hc => ?_, h⟩
      rcases List.mem_cons.mp hc with rfl | hc
      · exact hlt.le
      · exact hlt.le.trans (hb c hc)
    · rw [decide_eq_false hlt, cond_false, List.insertIdx_succ_cons]
      refine List.pairwise_cons.mpr ⟨fun c hc => ?_, ih hl⟩
      rcases List.eq_or_mem_of_mem_insertIdx hc with rfl | hc
      · exact not_lt.mp hlt
      · exact hb c hc

theorem cons_of_le (h : Ascending key l) {a : α} (ha : ∀ b ∈ l, key a ≤ key b) :
    Ascending key (a :: l) :=
  List.pairwise_cons.mpr ⟨ha, h⟩

theorem sublist {l' : List α} (h : Ascending key l) (hs : l'.Sublist l) : Ascending key l' :=
  List.Pairwise.sublist hs h

theorem takeWhile_eq_filter (h : Ascending key l) (k : κ) :
    l.takeWhile (fun a => decide (key a ≤ k)) = l.filter fun a => decide (key a ≤ k) := by
  induction l with
  | nil => rfl
  | cons a l ih =>
    obtain ⟨ha, hl⟩ := List.pairwise_cons.mp h
    by_cases hk : key a ≤ k
    · rw [List.takeWhile_cons_of_pos (by simpa using hk),
        List.filter_cons_of_pos (by simpa using hk), ih hl]
    · rw [List.takeWhile_cons_of_neg (by simpa using hk),
        List.filter_cons_of_neg (by simpa using hk), eq_comm, List.filter_eq_nil_iff]
      exact fun b hb hle => hk ((ha b hb).trans (of_decide_eq_true hle))

theorem dropWhile_eq_filter (h : Ascending key l) (k : κ) :
    l.dropWhile (fun a => decide (key a ≤ k)) = l.filter fun a => decide (k < key a) := by
  induction l with
  | nil => rfl
  | cons a l ih =>
    obtain ⟨ha, hl⟩ := List.pairwise_cons.mp h
    by_cases hk : key a ≤ k
    · rw [List.dropWhile_cons_of_pos (by simpa using hk), ih hl,
        List.filter_cons_of_neg (by simpa using hk)]
    · rw [List.dropWhile_cons_of_neg (by simpa using hk), eq_comm, List.filter_eq_self]
      intro b hb
      rcases List.mem_cons.mp hb with rfl | hb
      · exact decide_eq_true (not_le.mp hk)
      · exact decide_eq_true ((not_le.mp hk).trans_le (ha b hb))

/-- What is greater than the bound is what the prefix leaves. -/
theorem drop_length_filter (h : Ascending key l) (k : κ) :
    l.drop (l.filter fun a => decide (key a ≤ k)).length =
    l.filter fun a => decide (k < key a) := by
  rw [← h.takeWhile_eq_filter, ← h.dropWhile_eq_filter]
  have happend := List.takeWhile_append_dropWhile (p := fun a => decide (key a ≤ k)) (l := l)
  calc l.drop (l.takeWhile fun a => decide (key a ≤ k)).length
      = ((l.takeWhile fun a => decide (key a ≤ k)) ++
          l.dropWhile fun a => decide (key a ≤ k)).drop
            (l.takeWhile fun a => decide (key a ≤ k)).length := by rw [happend]
    _ = l.dropWhile fun a => decide (key a ≤ k) := List.drop_left

theorem le_of_head (h : Ascending key l) {a b : α} (ha : l.head? = some a) (hb : b ∈ l) :
    key a ≤ key b := by
  obtain ⟨l, rfl⟩ := List.head?_eq_some_iff.mp ha
  rcases List.mem_cons.mp hb with rfl | hb
  · exact le_rfl
  · exact (List.pairwise_cons.mp h).1 b hb

end Ascending
end Racoon.Lib
