import Racoon.Ds.Htable

/-!
# Where the probes of a hash table go

A probe adds the key to its counter in an `int`. The sums reach the end of the
`int` range only for keys near it, and only in a loop that finds no hit before.
For each key and each size the probes of a whole loop are in range, distinct and
complete exactly when the sums do not wrap to a negative rest. The callers take
an id times 100 for the key.
-/

namespace Racoon.HashTables
variable {α : Type} {key : ℤ} {size : ℕ}

/-- `if ( key < 0 ) key = -key;` for an `int`. -/
def magnitude (key : ℤ) : ℤ := if key < 0 then int32 (-key) else key

theorem HashTable.keyOf_eq_magnitude (t : HashTable α) (x : α) :
    t.keyOf x = magnitude (t.key x) := rfl

def shmemKey (id : ℤ) : ℤ := int32 (id * 100)

def threadsKey (tid : ℤ) : ℤ := magnitude (int32 (tid * 100))

def ptableKey (pid : ℤ) : ℤ := magnitude (int32 (pid * 100))

def IsInt (x : ℤ) : Prop := -2 ^ 31 ≤ x ∧ x < 2 ^ 31

theorem isInt_int32 (x : ℤ) : IsInt (int32 x) := by
  unfold IsInt int32 Int.bmod
  norm_num
  omega

theorem isInt_magnitude {x : ℤ} (h : IsInt x) : IsInt (magnitude x) := by
  rw [magnitude]
  split_ifs
  · exact isInt_int32 _
  · exact h

/-- What a probing loop found, whatever the key. -/
theorem probe_eq_ok {fault : Fault} {key : ℤ} {size : ℕ} {table : ℕ → Option α}
    {hit : Option α → Bool} : ∀ {left i : ℕ} {r : Option ℕ},
    probe fault key size table hit i left = .ok r →
    (r = none ∧ ∀ j, i ≤ j → j < i + left → 0 ≤ position key size j ∧
      hit (table (position key size j).toNat) = false) ∨
    ∃ j, 0 ≤ position key size j ∧ r = some (position key size j).toNat ∧
      hit (table (position key size j).toNat) = true := by
  intro left
  induction left with
  | zero =>
    intro i r h
    cases h
    exact .inl ⟨rfl, fun j h₁ h₂ => absurd h₂ (by omega)⟩
  | succ left ih =>
    intro i r h
    rw [probe] at h
    split_ifs at h with hneg hhit
    · cases h
      exact .inr ⟨i, not_lt.mp hneg, rfl, hhit⟩
    · refine (ih h).imp_left fun hn => ⟨hn.1, fun j h₁ h₂ => ?_⟩
      rcases h₁.eq_or_lt with rfl | hlt
      · exact ⟨not_lt.mp hneg, by simpa using hhit⟩
      · exact hn.2 j hlt (by omega)

/-- A loop that comes to a hit before any position is negative finds one. -/
theorem probe_finds {fault : Fault} {key : ℤ} {size i : ℕ} {table : ℕ → Option α}
    {hit : Option α → Bool} (hi : i < size) (hpos : ∀ j ≤ i, 0 ≤ position key size j)
    (hhit : hit (table (position key size i).toNat) = true) :
    ∃ p, probe fault key size table hit 0 size = .ok (some p) ∧ hit (table p) = true := by
  suffices hs : ∀ left j, j ≤ i → i < j + left →
      ∃ p, probe fault key size table hit j left = .ok (some p) ∧ hit (table p) = true from
    hs size 0 (Nat.zero_le i) (by omega)
  intro left
  induction left with
  | zero => exact fun j hji hlt => absurd hji (by omega)
  | succ left ih =>
    intro j hji hlt
    rw [probe, if_neg (not_lt.mpr (hpos j hji))]
    by_cases hh : hit (table (position key size j).toNat) = true
    · exact ⟨_, if_pos hh, hh⟩
    · rw [if_neg hh]
      have hne : j ≠ i := fun he => hh (he ▸ hhit)
      exact ih (j + 1) (by omega) (by omega)

/-- What a lookup answers is in the table and compares equal to the sample. -/
theorem retrieve_eq_some {t : HashTable α} {x e : α} (h : htableRetrieve t x = .ok (some e)) :
    ∃ p < t.size, t.table p = some e ∧ t.compare e x = 0 := by
  rw [htableRetrieve] at h
  split_ifs at h
  · cases h
  · obtain ⟨pos, hprobe, h⟩ := bind_eq_ok.mp h
    have hsize : 0 < t.size := by
      refine Nat.pos_of_ne_zero fun hz => ?_
      rw [hz] at hprobe
      cases hprobe
      cases h
    rcases probe_eq_ok hprobe with ⟨rfl, -⟩ | ⟨j, hj, rfl, hhit⟩
    · cases h
    · have he : t.table (position (t.keyOf x) t.size j).toNat = some e := Except.ok.inj h
      have hlt : position (t.keyOf x) t.size j < t.size := Int.tmod_lt_of_pos _ (by omega)
      exact ⟨_, by omega, he, by simpa [he] using hhit⟩

/-- A lookup that comes to something equal before any position is negative answers something. -/
theorem retrieve_finds {t : HashTable α} {x e : α} {i : ℕ} (hz : t.total ≠ 0) (hi : i < t.size)
    (hpos : ∀ j ≤ i, 0 ≤ position (t.keyOf x) t.size j)
    (he : t.table (position (t.keyOf x) t.size i).toNat = some e) (hc : t.compare e x = 0) :
    ∃ e', htableRetrieve t x = .ok (some e') := by
  let hit := fun slot : Option α => slot.any fun e => t.compare e x = 0
  have hhit : hit (t.table (position (t.keyOf x) t.size i).toNat) = true := by
    rw [he]
    simp [hit, hc]
  obtain ⟨p, hp, hfound⟩ : ∃ p,
      probe .assertion (t.keyOf x) t.size t.table hit 0 t.size = .ok (some p) ∧
        hit (t.table p) = true := probe_finds hi hpos hhit
  cases hslot : t.table p with
  | none =>
    rw [hslot] at hfound
    cases hfound
  | some e' =>
    refine ⟨e', ?_⟩
    rw [htableRetrieve, if_neg hz]
    dsimp only
    rw [hp, ok_bind]
    dsimp only
    rw [hslot]

/-- What the three loops of the table rely on, for any contents of the slots and any test. -/
structure ProbesAll (α : Type) (key : ℤ) (size : ℕ) : Prop where
  range : ∀ i < size, 0 ≤ position (magnitude key) size i ∧ position (magnitude key) size i < size
  distinct : ∀ i < size, ∀ j < size,
    position (magnitude key) size i = position (magnitude key) size j → i = j
  covers : ∀ p < size, ∃ i < size, position (magnitude key) size i = p
  runs : ∀ (fault : Fault) (table : ℕ → Option α) (hit : Option α → Bool),
    faultOf (probe fault (magnitude key) size table hit 0 size) = none

/-- No sum of the probes is past the last `int`, or only the last one by one, and that leaves the
rest 0. -/
def KeyFits (key : ℤ) (size : ℕ) : Prop :=
  size = 1 ∨ 0 ≤ magnitude key ∧
    (magnitude key + size ≤ 2 ^ 31 ∨ magnitude key + size = 2 ^ 31 + 1 ∧ size ∣ 2 ^ 31)

theorem int32_of_wrap {x : ℤ} (h₀ : 2 ^ 31 ≤ x) (h : x < 2 ^ 32) : int32 x = x - 2 ^ 32 := by
  unfold int32 Int.bmod
  norm_num
  omega

theorem magnitude_eq (h : IsInt key) : magnitude key = -2 ^ 31 ∨
    0 ≤ magnitude key ∧ magnitude key < 2 ^ 31 := by
  obtain ⟨h₀, h⟩ := h
  rw [magnitude]
  split_ifs with hneg
  · by_cases hmin : key = -2 ^ 31
    · subst hmin
      exact .inl (by decide)
    · rw [int32_of_le (by omega) (by omega)]
      exact .inr ⟨by omega, by omega⟩
  · exact .inr ⟨by omega, h⟩

/-- A negative sum has a rest in range only if the size divides it. -/
theorem dvd_of_tmod_nonneg {x : ℕ} (h : 0 ≤ (-(x : ℤ)).tmod size) : size ∣ x := by
  rw [Int.neg_tmod, ← Int.ofNat_tmod] at h
  exact Nat.dvd_of_mod_eq_zero (by omega)

/-- Where the key fits the position is the rest of the sum. -/
theorem position_of_fits (hf : KeyFits key size) {i : ℕ} (hi : i < size) :
    position (magnitude key) size i = ((i + (magnitude key).toNat) % size : ℕ) := by
  rcases hf with rfl | ⟨h₀, hle | ⟨heq, hdvd⟩⟩
  · simp [position, Nat.mod_one]
  · exact position_eq h₀ (by omega) hi
  · by_cases hlast : i + magnitude key < 2 ^ 31
    · rw [position, int32_of_le (by omega) hlast, Int.tmod_eq_emod_of_nonneg (by omega)]
      push_cast
      rw [Int.toNat_of_nonneg h₀]
    · have hsum : i + magnitude key = 2 ^ 31 := by omega
      have hnat : i + (magnitude key).toNat = 2 ^ 31 := by omega
      rw [position, hsum, hnat, Nat.mod_eq_zero_of_dvd hdvd,
        int32_of_wrap (by norm_num) (by norm_num)]
      have hneg : ((2 : ℤ) ^ 31 - 2 ^ 32) = -((2 ^ 31 : ℕ) : ℤ) := by norm_num
      rw [hneg, Int.neg_tmod, ← Int.ofNat_tmod, Nat.mod_eq_zero_of_dvd hdvd]
      rfl

theorem probesAll_of_fits (hf : KeyFits key size) : ProbesAll α key size := by
  have hpos := fun i (hi : i < size) => position_of_fits hf hi
  refine ⟨fun i hi => ?_, fun i hi j hj he => ?_, fun p hp => ?_, fun fault table hit => ?_⟩
  · rw [hpos i hi]
    have := Nat.mod_lt (i + (magnitude key).toNat) (show 0 < size by omega)
    omega
  · rw [hpos i hi, hpos j hj] at he
    have he : i + (magnitude key).toNat ≡ j + (magnitude key).toNat [MOD size] := by
      exact_mod_cast he
    exact (Nat.ModEq.add_right_cancel' _ he).eq_of_lt_of_lt hi hj
  · obtain ⟨i, hi, he⟩ := exists_probe (magnitude key).toNat hp
    exact ⟨i, hi, by rw [hpos i hi, he]⟩
  · suffices h : ∀ left i, i + left ≤ size →
        faultOf (probe fault (magnitude key) size table hit i left) = none from
      h size 0 (Nat.zero_add _).le
    intro left
    induction left with
    | zero => exact fun _ _ => rfl
    | succ left ih =>
      intro i hi
      rw [probe, hpos i (by omega), if_neg (by omega)]
      split_ifs
      · rfl
      · exact ih (i + 1) (by omega)

theorem fits_of_range (hsize : 1 ≤ size) (hlt : size < 2 ^ 31) (hk : IsInt key)
    (hr : ∀ i < size, 0 ≤ position (magnitude key) size i) : KeyFits key size := by
  by_cases hone : size = 1
  · exact .inl hone
  -- two neighbouring sums that are negative cannot both have the rest 0
  have htwo : ¬ (size ∣ 2 ^ 31 ∧ size ∣ 2 ^ 31 - 1) := by
    rintro ⟨h, h'⟩
    have := Nat.dvd_sub h h'
    norm_num at this
    exact hone this
  have hwrap : ∀ i < size, ∀ x : ℕ, int32 (i + magnitude key) = -(x : ℤ) → size ∣ x := by
    intro i hi x hx
    have := hr i hi
    rw [position, hx] at this
    exact dvd_of_tmod_nonneg this
  rcases magnitude_eq hk with hmin | ⟨h₀, hmax⟩
  · refine absurd ⟨hwrap 0 (by omega) _ ?_, hwrap 1 (by omega) _ ?_⟩ htwo
    · rw [hmin]
      decide
    · rw [hmin]
      decide
  · refine .inr ⟨h₀, ?_⟩
    by_cases hle : magnitude key + size ≤ 2 ^ 31
    · exact .inl hle
    right
    have hfirst : size ∣ 2 ^ 31 := by
      refine hwrap (2 ^ 31 - magnitude key).toNat (by omega) _ ?_
      rw [int32_of_wrap (by omega) (by omega)]
      omega
    refine ⟨?_, hfirst⟩
    by_contra hne
    refine htwo ⟨hfirst, hwrap (2 ^ 31 - magnitude key + 1).toNat (by omega) _ ?_⟩
    rw [int32_of_wrap (by omega) (by omega)]
    omega

/-- The probes of a loop are all in range, distinct and complete, and fail no assertion, exactly
when the key fits the size. -/
theorem probes_in_range_iff (α : Type) (hsize : 1 ≤ size) (hlt : size < 2 ^ 31) (hk : IsInt key) :
    ProbesAll α key size ↔ KeyFits key size :=
  ⟨fun h => fits_of_range hsize hlt hk fun i hi => (h.range i hi).1, probesAll_of_fits⟩

theorem probes_in_range_iff_request : ProbesAll ℤ (shmemKey 7) 64 :=
  (probes_in_range_iff ℤ (by decide) (by decide) ⟨by decide, by decide⟩).mpr
    (.inr ⟨by decide, .inl (by decide)⟩)

/-- `shmem_table` with region 0 in it. -/
def oneRegion : HashTable ℤ :=
  { initHtable 64 80 shmemKey (fun a b => a - b) with
    total := 1
    table := Function.update (fun _ => none) 0 (some 0) }

/-- A request for the region 536870912, whose key is the first `int`, and one for the region
21474836, whose key is 48 below the last, fail the assertion. -/
theorem probes_out_of_range :
    ¬ ProbesAll ℤ (shmemKey 536870912) 64 ∧ ¬ ProbesAll ℤ (shmemKey 21474836) 64 ∧
      htableRetrieve oneRegion 536870912 = .error .assertion ∧
      htableRetrieve oneRegion 21474836 = .error .assertion := by
  refine ⟨fun h => ?_, fun h => ?_, ?_, ?_⟩
  · exact absurd (h.range 1 (by decide)).1 (by decide)
  · exact absurd (h.range 49 (by decide)).1 (by decide)
  · exact faultOf_eq_some.mp (by decide +kernel)
  · exact faultOf_eq_some.mp (by decide +kernel)

end Racoon.HashTables
