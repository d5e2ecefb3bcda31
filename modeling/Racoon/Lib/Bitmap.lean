import Mathlib.Tactic

/-!
# A bitmap stored in words

Bit `i` of the map is bit `i % w` of word `i / w`. Setting or clearing a bit
rewrites its word; the lemmas say that no other bit of the map changes and what
happens to the set of clear bits below a bound, whose size is the number of free
places.
-/

namespace Racoon.Lib.Bitmap
variable {w : ℕ}

def test (m : ℕ → BitVec w) (i : ℕ) : Bool := (m (i / w)).getLsbD (i % w)

def set (m : ℕ → BitVec w) (i : ℕ) : ℕ → BitVec w :=
  Function.update m (i / w) (m (i / w) ||| BitVec.twoPow w (i % w))

def clear (m : ℕ → BitVec w) (i : ℕ) : ℕ → BitVec w :=
  Function.update m (i / w) (m (i / w) &&& ~~~ BitVec.twoPow w (i % w))

/-- Two bits in one word are one bit when their offsets agree. -/
theorem eq_of_div_of_mod {i j : ℕ} (hd : j / w = i / w) (hm : j % w = i % w) : j = i := by
  rw [← Nat.div_add_mod j w, ← Nat.div_add_mod i w, hd, hm]

theorem test_set (hw : 0 < w) (m : ℕ → BitVec w) (i j : ℕ) :
    test (set m i) j = (decide (j = i) || test m j) := by
  have hl : j % w < w := Nat.mod_lt _ hw
  by_cases hd : j / w = i / w
  · by_cases hm : j % w = i % w
    · have he := eq_of_div_of_mod hd hm
      subst he
      simp [test, set, hl]
    · have hne : j ≠ i := fun he => hm (he ▸ rfl)
      simp [test, set, hd, BitVec.getLsbD_twoPow, hne, Ne.symm hm]
  · have hne : j ≠ i := fun he => hd (he ▸ rfl)
    simp [test, set, Function.update_of_ne hd, hne]

theorem test_clear (hw : 0 < w) (m : ℕ → BitVec w) (i j : ℕ) :
    test (clear m i) j = (decide (j ≠ i) && test m j) := by
  have hl : j % w < w := Nat.mod_lt _ hw
  by_cases hd : j / w = i / w
  · by_cases hm : j % w = i % w
    · have he := eq_of_div_of_mod hd hm
      subst he
      simp [test, clear, hl]
    · have hne : j ≠ i := fun he => hm (he ▸ rfl)
      simp [test, clear, hd, hne, hm, hl]
  · have hne : j ≠ i := fun he => hd (he ▸ rfl)
    simp [test, clear, Function.update_of_ne hd, hne]

/-- The clear bits below `n`. -/
def free (m : ℕ → BitVec w) (n : ℕ) : Finset ℕ := {i ∈ Finset.range n | test m i = false}

theorem mem_free {m : ℕ → BitVec w} {n i : ℕ} : i ∈ free m n ↔ i < n ∧ test m i = false := by
  simp [free]

theorem free_set (hw : 0 < w) (m : ℕ → BitVec w) (n i : ℕ) :
    free (set m i) n = (free m n).erase i := by
  ext j
  simp only [mem_free, Finset.mem_erase, test_set hw, Bool.or_eq_false_iff, decide_eq_false_iff_not]
  tauto

theorem free_clear (hw : 0 < w) (m : ℕ → BitVec w) {n i : ℕ} (h : i < n) :
    free (clear m i) n = insert i (free m n) := by
  ext j
  simp only [mem_free, Finset.mem_insert, test_clear hw, Bool.and_eq_false_iff,
    decide_eq_false_iff_not, not_not]
  constructor
  · tauto
  · rintro (rfl | ⟨hj, ht⟩)
    · exact ⟨h, .inl rfl⟩
    · exact ⟨hj, .inr ht⟩

theorem card_free_set (hw : 0 < w) {m : ℕ → BitVec w} {n i : ℕ} (h : i < n)
    (ht : test m i = false) : (free (set m i) n).card + 1 = (free m n).card := by
  rw [free_set hw]
  exact Finset.card_erase_add_one (mem_free.mpr ⟨h, ht⟩)

theorem card_free_clear (hw : 0 < w) {m : ℕ → BitVec w} {n i : ℕ} (h : i < n)
    (ht : test m i = true) : (free (clear m i) n).card = (free m n).card + 1 := by
  rw [free_clear hw m h]
  exact Finset.card_insert_of_notMem (by simp [mem_free, ht])

theorem card_free_le (m : ℕ → BitVec w) (n : ℕ) : (free m n).card ≤ n := by
  simpa [free] using Finset.card_filter_le (Finset.range n) fun i => test m i = false

end Racoon.Lib.Bitmap
