import Racoon.Machine
import Racoon.Lib.Run
import Racoon.Lib.Prefix
import Racoon.Lib.Slots
import Mathlib.Data.List.ReduceOption

/-!
# The hash table of `ds/htable.c`

Open addressing without tombstones: every operation probes all `size` slots
from the key on, so that holes left by a removal hide nothing. A table grows and
shrinks by inserting its items into a new one, and the inserting function may
grow that one again in the middle. Each such nested call works on a table with
fewer items, which bounds the nesting.

The table is meant as a finite multiset of the pointers stored; `α` is the type
of what they point to, and an empty slot is the `NULL` pointer. The key function
returns an `int`. Sizes and totals are natural numbers, exact while
`100 * (total + 1)` and doubled sizes fit an `int`; the probe sums wrap.
-/

namespace Racoon.HashTables
open Lib
variable {α : Type}

structure HashTable (α : Type) where
  compare : α → α → ℤ
  key : α → ℤ
  total : ℕ
  size : ℕ
  percent : ℕ
  table : ℕ → Option α

def initHtable (size : ℤ) (percent : ℕ) (key : α → ℤ) (compare : α → α → ℤ) : HashTable α :=
  ⟨compare, key, 0, if size ≤ 0 then 32 else size.toNat, percent, fun _ => none⟩

/-- `if ( key < 0 ) key = -key;` -/
def HashTable.keyOf (t : HashTable α) (x : α) : ℤ :=
  if t.key x < 0 then int32 (-t.key x) else t.key x

/-- `( i + key ) % table->size` -/
def position (key : ℤ) (size i : ℕ) : ℤ := (int32 (i + key)).tmod size

/-- The probing loop: the first slot in probe order that is a hit. A negative position fails the
assertion of the loop, or is an access outside the table where the loop has none. -/
def probe (fault : Fault) (key : ℤ) (size : ℕ) (table : ℕ → Option α) (hit : Option α → Bool) :
    ℕ → ℕ → Outcome (Option ℕ)
  | _, 0 => .ok none
  | i, left + 1 =>
    let pos := position key size i
    if pos < 0 then .error fault
    else if hit (table pos.toNat) then .ok (some pos.toNat)
    else probe fault key size table hit (i + 1) left

/-- A table with the number of rehashing requests made to `kmalloc` so far. -/
structure Counted (α : Type) where
  table : HashTable α
  requests : ℕ

/-- The last part of `htable_insert`: the first empty slot takes the data. -/
def place (t : HashTable α) (data : α) : Outcome (HashTable α) := do
  match ← probe .assertion (t.keyOf data) t.size t.table Option.isNone 0 t.size with
  | none => .ok t
  | some pos =>
    .ok { t with table := Function.update t.table pos (some data), total := t.total + 1 }

/-- The loop of `htable_rehash` over the old slots. -/
def reinsert (insert : Counted α → α → Outcome (Counted α × ℤ)) :
    List (Option α) → Counted α → Outcome (Counted α)
  | [], c => .ok c
  | none :: old, c => reinsert insert old c
  | some data :: old, c => do
    let (c, _) ← insert c data
    reinsert insert old c

/-- `kmalloc n slots` says whether request `n`, for so many slots, is granted. -/
def htableRehash (kmalloc : ℕ → ℕ → Bool) (insert : Counted α → α → Outcome (Counted α × ℤ))
    (c : Counted α) (newSize : ℕ) : Outcome (Counted α) :=
  let t := c.table
  if kmalloc c.requests newSize then
    reinsert insert (taken t.table t.size)
      ⟨{ t with size := newSize, total := 0, table := fun _ => none }, c.requests + 1⟩
  else .ok ⟨t, c.requests + 1⟩

/-- The rehash at the start of `htable_insert`, when the table would get too full. -/
def grow (kmalloc : ℕ → ℕ → Bool) (insert : Counted α → α → Outcome (Counted α × ℤ))
    (c : Counted α) : Outcome (Counted α) :=
  let currentPercent := (c.table.total + 1) * 100 / c.table.size
  if c.table.percent < currentPercent then htableRehash kmalloc insert c (c.table.size * 2)
  else .ok c

/-- The rehash at the start of `htable_remove`, when the table gets too empty. -/
def shrink (kmalloc : ℕ → ℕ → Bool) (insert : Counted α → α → Outcome (Counted α × ℤ))
    (c : Counted α) : Outcome (Counted α) :=
  let currentPercent := (c.table.total - 1) * 100 / c.table.size
  if currentPercent < c.table.percent / 4 ∧ 32 < c.table.size then
    htableRehash kmalloc insert c (c.table.size / 2)
  else .ok c

/-- `htable_insert` with at most `depth` calls nested through `htable_rehash`. -/
def insertWithin (kmalloc : ℕ → ℕ → Bool) : ℕ → Counted α → α → Outcome (Counted α × ℤ)
  | 0, _, _ => .error .diverges
  | depth + 1, c, data =>
    if c.table.total = c.table.size then .ok (c, -1)
    else do
      let c ← grow kmalloc (insertWithin kmalloc depth) c
      let t ← place c.table data
      .ok (⟨t, c.requests⟩, 0)

def htableInsert (kmalloc : ℕ → ℕ → Bool) (c : Counted α) (data : α) : Outcome (Counted α × ℤ) :=
  insertWithin kmalloc (c.table.total + 1) c data

def htableRemove [DecidableEq α] (kmalloc : ℕ → ℕ → Bool) (c : Counted α) (data : α) :
    Outcome (Counted α × ℤ) :=
  if c.table.total = 0 then .ok (c, -1)
  else do
    let c ← shrink kmalloc (insertWithin kmalloc c.table.total) c
    let t := c.table
    match ← probe .badAccess (t.keyOf data) t.size t.table (· = some data) 0 t.size with
    | none => .ok (c, 0)
    | some pos =>
      .ok (⟨{ t with table := Function.update t.table pos none, total := t.total - 1 },
        c.requests⟩, 0)

def htableRetrieve (t : HashTable α) (sample : α) : Outcome (Option α) :=
  if t.total = 0 then .ok none
  else do
    let hit := fun slot : Option α => slot.any fun e => t.compare e sample = 0
    match ← probe .assertion (t.keyOf sample) t.size t.table hit 0 t.size with
    | none => .ok none
    | some pos => .ok (t.table pos)

/-- The loop of `htable_get`, counting the full slots seen. -/
def getLoop (table : ℕ → Option α) (num : ℤ) : ℕ → ℕ → ℤ → Option α
  | _, 0, _ => none
  | i, left + 1, count =>
    match table i with
    | none => getLoop table num (i + 1) left count
    | some e => if count = num then some e else getLoop table num (i + 1) left (count + 1)

def htableGet (t : HashTable α) (num : ℤ) : Option α :=
  if t.total = 0 then none
  else if t.total ≤ num then none
  else getLoop t.table num 0 t.size 0

theorem position_eq {key : ℤ} {size i : ℕ} (h₀ : 0 ≤ key) (h : size + key ≤ 2 ^ 31)
    (hi : i < size) :
    position key size i = ((i + key.toNat) % size : ℕ) := by
  rw [position, int32_of_le (by omega) (by omega), Int.tmod_eq_emod_of_nonneg (by omega)]
  push_cast
  rw [Int.toNat_of_nonneg h₀]

/-- The probe order visits every slot. -/
theorem exists_probe {size p : ℕ} (k : ℕ) (hp : p < size) : ∃ i < size, (i + k) % size = p := by
  have hk := Nat.div_add_mod k size
  have hr := Nat.mod_lt k (Nat.zero_lt_of_lt hp)
  by_cases hle : k % size ≤ p
  · refine ⟨p - k % size, by omega, ?_⟩
    rw [show p - k % size + k = p + size * (k / size) by omega, Nat.add_mul_mod_self_left,
      Nat.mod_eq_of_lt hp]
  · refine ⟨p + size - k % size, by omega, ?_⟩
    rw [show p + size - k % size + k = p + size * (k / size + 1) by rw [Nat.mul_succ]; omega,
      Nat.add_mul_mod_self_left, Nat.mod_eq_of_lt hp]

/-- A probe over the whole table ends at a hit, or there is none. -/
theorem probe_spec {key : ℤ} {size : ℕ} (h₀ : 0 ≤ key) (h : size + key ≤ 2 ^ 31) (fault : Fault)
    (table : ℕ → Option α) (hit : Option α → Bool) :
    (∃ p < size, probe fault key size table hit 0 size = .ok (some p) ∧ hit (table p) = true) ∨
    (probe fault key size table hit 0 size = .ok none ∧ ∀ p < size, hit (table p) = false) := by
  suffices hs : ∀ left i, i + left = size →
      (∃ p < size, probe fault key size table hit i left = .ok (some p) ∧ hit (table p) = true) ∨
      (probe fault key size table hit i left = .ok none ∧
        ∀ j, i ≤ j → j < size → hit (table ((j + key.toNat) % size)) = false) by
    refine (hs size 0 (Nat.zero_add _)).imp_right fun hn => ⟨hn.1, fun p hp => ?_⟩
    obtain ⟨j, hj, hjp⟩ := exists_probe key.toNat hp
    exact hjp ▸ hn.2 j (Nat.zero_le _) hj
  intro left
  induction left with
  | zero => exact fun i hi => .inr ⟨rfl, fun j hij hj => absurd hj (by omega)⟩
  | succ left ih =>
    intro i hi
    have hpos := position_eq h₀ h (show i < size by omega)
    have hlt : (i + key.toNat) % size < size := Nat.mod_lt _ (by omega)
    simp only [probe, hpos, Int.toNat_natCast, if_neg (Int.not_lt.mpr (Int.natCast_nonneg _))]
    by_cases hh : hit (table ((i + key.toNat) % size)) = true
    · exact .inl ⟨_, hlt, by rw [if_pos hh], hh⟩
    · rw [if_neg hh]
      refine (ih (i + 1) (by omega)).imp_right fun hn => ⟨hn.1, fun j hij hj => ?_⟩
      rcases Nat.eq_or_lt_of_le hij with rfl | hlt
      · exact Bool.not_eq_true _ |>.mp hh
      · exact hn.2 j hlt hj

theorem HashTable.keyOf_eq (t : HashTable α) {x : α} (h : (t.key x).natAbs < 2 ^ 31) :
    t.keyOf x = (t.key x).natAbs := by
  unfold HashTable.keyOf
  split_ifs with hk
  · rw [int32_of_le (by omega) (by omega)]
    omega
  · omega

/-- The table stores the multiset `S`. It has the functions and the percentage of `t₀`, its size
is at most `M`, and up to that size the probe sums of every key stay in an `int`. -/
structure Holds (M : ℕ) (t₀ t : HashTable α) (S : Multiset α) : Prop where
  stored : Slots.contents t.table t.size = S
  total : t.total = S.card
  size_pos : 0 < t.size
  size_le : t.size ≤ M
  key : t.key = t₀.key
  compare : t.compare = t₀.compare
  percent : t.percent = t₀.percent
  fits : ∀ x, M + (t₀.key x).natAbs ≤ 2 ^ 31

namespace Holds
variable {M : ℕ} {t₀ t : HashTable α} {S : Multiset α}

theorem card_le (h : Holds M t₀ t S) : S.card ≤ t.size :=
  h.stored ▸ Slots.card_contents_le _ _

/-- The probe for a stored or sampled `x`, on the words of the table's own slots. -/
theorem probe (h : Holds M t₀ t S) (x : α) (fault : Fault) (hit : Option α → Bool) :
    (∃ p < t.size, probe fault (t.keyOf x) t.size t.table hit 0 t.size = .ok (some p) ∧
      hit (t.table p) = true) ∨
    (HashTables.probe fault (t.keyOf x) t.size t.table hit 0 t.size = .ok none ∧
      ∀ p < t.size, hit (t.table p) = false) := by
  have hf := h.fits x
  have hp := h.size_pos
  have hle := h.size_le
  have hk : t.keyOf x = (t₀.key x).natAbs := by
    rw [t.keyOf_eq (by rw [h.key]; omega), h.key]
  refine probe_spec ?_ ?_ fault t.table hit <;> rw [hk] <;> omega

theorem place (h : Holds M t₀ t S) (hc : S.card < t.size) (data : α) :
    ∃ t', place t data = .ok t' ∧ Holds M t₀ t' (data ::ₘ S) ∧ t'.size = t.size := by
  rcases h.probe data .assertion Option.isNone with ⟨p, hp, hr, hn⟩ | ⟨_, hn⟩
  · refine ⟨{ t with table := Function.update t.table p (some data), total := t.total + 1 },
      by simp only [HashTables.place, hr, ok_bind], ?_, rfl⟩
    have he := Slots.contents_put hp (Option.isNone_iff_eq_none.mp hn) data
    exact ⟨he.trans (by rw [h.stored]), by simp [h.total], h.size_pos, h.size_le, h.key, h.compare,
      h.percent, h.fits⟩
  · obtain ⟨i, hi, he⟩ := Slots.exists_empty (h.stored.symm ▸ hc)
    have := hn i hi
    simp [he] at this

theorem fresh (h : Holds M t₀ t S) {n : ℕ} (h₀ : 0 < n) (hn : n ≤ M) :
    Holds M t₀ { t with size := n, total := 0, table := fun _ => none } 0 :=
  ⟨Slots.contents_empty n, rfl, h₀, hn, h.key, h.compare, h.percent, h.fits⟩

end Holds

/-- What an inserting function does on tables with fewer than `depth` items: it refuses a full
table, and otherwise stores the pointer in a table that is no smaller. -/
def InsertsTo (M : ℕ) (t₀ : HashTable α) (insert : Counted α → α → Outcome (Counted α × ℤ))
    (depth : ℕ) : Prop :=
  ∀ c S data, Holds M t₀ c.table S → S.card < depth →
    (S.card = c.table.size ∧ insert c data = .ok (c, -1)) ∨
    (S.card < c.table.size ∧ ∃ c', insert c data = .ok (c', 0) ∧
      Holds M t₀ c'.table (data ::ₘ S) ∧ c.table.size ≤ c'.table.size)

section Rehash
variable {M : ℕ} {t₀ : HashTable α} {insert : Counted α → α → Outcome (Counted α × ℤ)} {depth : ℕ}

/-- By induction on the old slots: there is room for every item left. -/
theorem reinsert_spec (hins : InsertsTo M t₀ insert depth) :
    ∀ (old : List (Option α)) {c : Counted α} {S : Multiset α}, Holds M t₀ c.table S →
      S.card + old.reduceOption.length ≤ c.table.size →
      S.card + old.reduceOption.length ≤ depth →
      ∃ c', reinsert insert old c = .ok c' ∧ Holds M t₀ c'.table (old.reduceOption + S) ∧
        c.table.size ≤ c'.table.size := by
  intro old
  induction old with
  | nil => exact fun {c S} h _ _ => ⟨c, rfl, by simpa [List.reduceOption_nil] using h, le_rfl⟩
  | cons o old ih =>
    intro c S h hs hd
    cases o with
    | none => exact ih h hs hd
    | some data =>
      simp only [List.reduceOption_cons_of_some, List.length_cons] at hs hd
      rcases hins c S data h (by omega) with ⟨hfull, _⟩ | ⟨_, c₁, hr, h₁, hle₁⟩
      · omega
      · obtain ⟨c₂, hr₂, h₂, hle₂⟩ := ih h₁ (by simp; omega) (by simp; omega)
        refine ⟨c₂, by simp only [reinsert, hr, ok_bind, hr₂], ?_, hle₁.trans hle₂⟩
        simpa [← Multiset.cons_coe, Multiset.add_cons] using h₂

theorem reduceOption_taken (t : ℕ → Option α) (n : ℕ) :
    (taken t n).reduceOption = Slots.items t n := by
  simp [taken, Slots.items, List.reduceOption, List.filterMap_map]

theorem rehash_spec {kmalloc : ℕ → ℕ → Bool} (hk : ∀ n slots, kmalloc n slots = true → slots ≤ M)
    (hins : InsertsTo M t₀ insert depth) {c : Counted α} {S : Multiset α}
    (h : Holds M t₀ c.table S) (newSize : ℕ) (h₀ : 0 < newSize) (hn : S.card ≤ newSize)
    (hd : S.card ≤ depth) :
    ∃ c', htableRehash kmalloc insert c newSize = .ok c' ∧ Holds M t₀ c'.table S ∧
      (c'.table.size = c.table.size ∨ newSize ≤ c'.table.size) := by
  unfold htableRehash
  cases hg : kmalloc c.requests newSize with
  | false => exact ⟨⟨c.table, c.requests + 1⟩, rfl, h, .inl rfl⟩
  | true =>
    have hitems : ((taken c.table.table c.table.size).reduceOption : Multiset α) = S := by
      rw [reduceOption_taken]
      exact h.stored
    have hlen : (taken c.table.table c.table.size).reduceOption.length = S.card := by
      rw [← hitems]
      rfl
    obtain ⟨c', hr, h', hle⟩ := reinsert_spec hins (taken c.table.table c.table.size)
      (c := ⟨{ c.table with size := newSize, total := 0, table := fun _ => none },
        c.requests + 1⟩) (h.fresh h₀ (hk _ _ hg)) (by simpa [hlen] using hn)
      (by simpa [hlen] using hd)
    refine ⟨c', hr, ?_, .inr hle⟩
    rwa [hitems, add_zero] at h'

end Rehash

/-- By induction on the depth: an insertion into `k` items rehashes tables of at most `k` items,
which inserts into tables of fewer. -/
theorem insertWithin_spec {M : ℕ} {t₀ : HashTable α} {kmalloc : ℕ → ℕ → Bool}
    (hk : ∀ n slots, kmalloc n slots = true → slots ≤ M) :
    ∀ depth, InsertsTo M t₀ (insertWithin kmalloc depth) depth := by
  intro depth
  induction depth with
  | zero => exact fun c S data _ hd => absurd hd (Nat.not_lt_zero _)
  | succ depth ih =>
    intro c S data h hd
    by_cases hfull : c.table.total = c.table.size
    · exact .inl ⟨h.total ▸ hfull, by simp only [insertWithin, if_pos hfull]⟩
    · have hlt : S.card < c.table.size := lt_of_le_of_ne h.card_le (h.total ▸ hfull)
      have hgrow : ∃ c₁, grow kmalloc (insertWithin kmalloc depth) c = .ok c₁ ∧
          Holds M t₀ c₁.table S ∧ c.table.size ≤ c₁.table.size := by
        unfold grow
        dsimp only
        split_ifs
        · obtain ⟨c₁, hr, h₁, hle⟩ := rehash_spec hk ih h (c.table.size * 2)
            (by have := h.size_pos; omega) (by omega) (by omega)
          exact ⟨c₁, hr, h₁, by omega⟩
        · exact ⟨c, rfl, h, le_rfl⟩
      obtain ⟨c₁, hr₁, h₁, hle₁⟩ := hgrow
      obtain ⟨t₂, hr₂, h₂, hsize⟩ := h₁.place (by omega) data
      refine .inr ⟨hlt, ⟨t₂, c₁.requests⟩, ?_, h₂, hsize ▸ hle₁⟩
      simp only [insertWithin, if_neg hfull, hr₁, ok_bind, hr₂]

/-- A table that is less than a quarter full fits in half its slots. -/
theorem card_le_half {total size percent : ℕ} (hp : percent ≤ 100) (hs : 32 < size)
    (h : (total - 1) * 100 / size < percent / 4) : total ≤ size / 2 := by
  have hq : (total - 1) * 100 / size < 25 := lt_of_lt_of_le h (by omega)
  have hm := (Nat.div_lt_iff_lt_mul (by omega)).mp hq
  omega

namespace Holds
variable {M : ℕ} {t₀ : HashTable α} {c : Counted α} {S : Multiset α} {kmalloc : ℕ → ℕ → Bool}

theorem insert (hk : ∀ n slots, kmalloc n slots = true → slots ≤ M) (h : Holds M t₀ c.table S)
    (data : α) :
    htableInsert kmalloc c data = .ok (c, -1) ∨
    ∃ c', htableInsert kmalloc c data = .ok (c', 0) ∧ Holds M t₀ c'.table (data ::ₘ S) := by
  rcases insertWithin_spec hk (c.table.total + 1) c S data h (by rw [h.total]; omega) with
    ⟨_, hr⟩ | ⟨_, c', hr, h', _⟩
  · exact .inl hr
  · exact .inr ⟨c', hr, h'⟩

theorem shrink (hk : ∀ n slots, kmalloc n slots = true → slots ≤ M) (hp : t₀.percent ≤ 100)
    (h : Holds M t₀ c.table S) :
    ∃ c', shrink kmalloc (insertWithin kmalloc c.table.total) c = .ok c' ∧
      Holds M t₀ c'.table S := by
  unfold HashTables.shrink
  dsimp only
  split_ifs with hs
  · have hhalf := card_le_half (h.percent ▸ hp) hs.2 hs.1
    obtain ⟨c', hr, h', _⟩ := rehash_spec hk (insertWithin_spec hk c.table.total) h
      (c.table.size / 2) (by omega) (h.total ▸ hhalf) h.total.ge
    exact ⟨c', hr, h'⟩
  · exact ⟨c, rfl, h⟩

theorem remove [DecidableEq α] (hk : ∀ n slots, kmalloc n slots = true → slots ≤ M)
    (hp : t₀.percent ≤ 100) (h : Holds M t₀ c.table S) {data : α} (hd : data ∈ S) :
    ∃ c', htableRemove kmalloc c data = .ok (c', 0) ∧ Holds M t₀ c'.table (S.erase data) := by
  have hne : c.table.total ≠ 0 := by
    rw [h.total]
    exact (Multiset.card_pos_iff_exists_mem.mpr ⟨data, hd⟩).ne'
  obtain ⟨c₁, hr₁, h₁⟩ := h.shrink hk hp
  simp only [htableRemove, if_neg hne, hr₁, ok_bind]
  rcases h₁.probe data .badAccess (· = some data) with ⟨p, hp, hr, hhit⟩ | ⟨_, hno⟩
  · rw [hr]
    refine ⟨_, rfl, ?_, ?_, h₁.size_pos, h₁.size_le, h₁.key, h₁.compare, h₁.percent, h₁.fits⟩
    · have ht := Slots.contents_take hp (of_decide_eq_true hhit)
      rw [h₁.stored] at ht
      rw [← ht, Multiset.erase_cons_head]
    · rw [Multiset.card_erase_of_mem hd]
      exact congrArg Nat.pred h₁.total
  · obtain ⟨i, hi, he⟩ := Slots.mem_contents.mp (h₁.stored.symm ▸ hd)
    have := hno i hi
    simp [he] at this

/-- A lookup answers `NULL` when nothing stored compares equal to the sample, and otherwise
something stored that does. -/
theorem retrieve {t : HashTable α} (h : Holds M t₀ t S) (sample : α) :
    (htableRetrieve t sample = .ok none ∧ ∀ e ∈ S, t₀.compare e sample ≠ 0) ∨
    ∃ e ∈ S, htableRetrieve t sample = .ok (some e) ∧ t₀.compare e sample = 0 := by
  unfold htableRetrieve
  split_ifs with hz
  · have hS : S = 0 := Multiset.card_eq_zero.mp (h.total ▸ hz)
    exact .inl ⟨rfl, by simp [hS]⟩
  · dsimp only
    rcases h.probe sample .assertion fun slot => slot.any fun e => t.compare e sample = 0 with
      ⟨p, hp, hr, hhit⟩ | ⟨hr, hno⟩
    · cases he : t.table p with
      | none => simp [he] at hhit
      | some e =>
        refine .inr ⟨e, h.stored ▸ Slots.mem_contents.mpr ⟨p, hp, he⟩, ?_, ?_⟩
        · rw [hr, ok_bind, ← he]
        · simpa [he, h.compare] using hhit
    · refine .inl ⟨by rw [hr, ok_bind], fun e he hc => ?_⟩
      obtain ⟨i, hi, hie⟩ := Slots.mem_contents.mp (h.stored.symm ▸ he)
      have := hno i hi
      simp [hie, h.compare, hc] at this

end Holds

theorem getLoop_of_lt (table : ℕ → Option α) {num count : ℤ} (h : num < count) (left i : ℕ) :
    getLoop table num i left count = none := by
  induction left generalizing i count with
  | zero => rfl
  | succ left ih =>
    simp only [getLoop]
    cases table i with
    | none => exact ih h _
    | some e =>
      dsimp only
      rw [if_neg (by omega)]
      exact ih (by omega) _

theorem getLoop_eq (table : ℕ → Option α) (n left i : ℕ) (count : ℤ) :
    getLoop table (count + n) i left count = ((List.range' i left).filterMap table)[n]? := by
  induction left generalizing i count n with
  | zero => rfl
  | succ left ih =>
    simp only [getLoop, List.range'_succ, List.filterMap_cons]
    cases table i with
    | none => exact ih n (i + 1) count
    | some e =>
      dsimp only
      cases n with
      | zero => simp
      | succ n =>
        rw [if_neg (by push_cast; omega), List.getElem?_cons_succ, ← ih n (i + 1) (count + 1)]
        congr 1
        push_cast
        ring

/-- `htable_get` numbers the stored pointers by the slots they lie in. -/
theorem htableGet_eq {M : ℕ} {t₀ t : HashTable α} {S : Multiset α} (h : Holds M t₀ t S) (n : ℕ) :
    htableGet t n = (Slots.items t.table t.size)[n]? := by
  have hlen : (Slots.items t.table t.size).length = t.total := by
    rw [h.total, ← h.stored]
    rfl
  unfold htableGet
  split_ifs with hz hn
  · rw [List.getElem?_eq_none (by omega)]
  · rw [List.getElem?_eq_none (by omega)]
  · simpa [Slots.items, List.range_eq_range'] using getLoop_eq t.table n t.size 0 0

theorem htableGet_neg (t : HashTable α) {n : ℤ} (hn : n < 0) : htableGet t n = none := by
  unfold htableGet
  split_ifs <;> first | rfl | exact getLoop_of_lt _ hn _ _

/-- The table with the pointers that were stored and not removed since. -/
structure Run (α : Type) where
  counted : Counted α
  stored : Multiset α

inductive Call (α : Type)
  | insert (data : α)
  | remove (data : α)

def Call.exec [DecidableEq α] (kmalloc : ℕ → ℕ → Bool) (s : Run α) : Call α → Outcome (Run α)
  | .insert data => do
    let (c, rc) ← htableInsert kmalloc s.counted data
    .ok ⟨c, if rc = 0 then data ::ₘ s.stored else s.stored⟩
  | .remove data => do
    let (c, _) ← htableRemove kmalloc s.counted data
    .ok ⟨c, s.stored.erase data⟩

def Call.Permitted (s : Run α) : Call α → Prop
  | .insert _ => True
  | .remove data => data ∈ s.stored

def htableSystem [DecidableEq α] (kmalloc : ℕ → ℕ → Bool) (t₀ : HashTable α) :
    System (Run α) (Call α) Fault where
  Init s := s = ⟨⟨t₀, 0⟩, 0⟩
  Guard s c := c.Permitted s
  step s c := c.exec kmalloc s

theorem holds_preserved [DecidableEq α] {M : ℕ} {t₀ : HashTable α} {kmalloc : ℕ → ℕ → Bool}
    (hk : ∀ n slots, kmalloc n slots = true → slots ≤ M) (hp : t₀.percent ≤ 100) :
    (htableSystem kmalloc t₀).Preserves fun s => Holds M t₀ s.counted.table s.stored := by
  intro s c h hc
  cases c with
  | insert data =>
    rcases h.insert hk data with hr | ⟨c', hr, h'⟩
    · exact ⟨s, by simp [htableSystem, Call.exec, hr], h⟩
    · exact ⟨⟨c', data ::ₘ s.stored⟩, by simp [htableSystem, Call.exec, hr], h'⟩
  | remove data =>
    obtain ⟨c', hr, h'⟩ := h.remove hk hp hc
    exact ⟨⟨c', s.stored.erase data⟩, by simp [htableSystem, Call.exec, hr], h'⟩

theorem holds_init {M size percent : ℕ} {key : α → ℤ} (compare : α → α → ℤ) (hsize : 1 ≤ size)
    (hM : size ≤ M) (hkey : ∀ x, M + (key x).natAbs ≤ 2 ^ 31) :
    Holds M (initHtable size percent key compare) (initHtable size percent key compare) 0 := by
  have hs : (initHtable size percent key compare).size = size := by
    simp only [initHtable, if_neg (show ¬ (size : ℤ) ≤ 0 by omega), Int.toNat_natCast]
  exact ⟨Slots.contents_empty _, rfl, by rw [hs]; exact hsize, by rw [hs]; exact hM, rfl, rfl, rfl,
    hkey⟩

/-- The hash table is a finite multiset along every run. `M` bounds the sizes the table takes:
`kmalloc` grants a rehash only up to it, and up to it all probe sums stay in an `int`. -/
theorem htable_refines_multiset [DecidableEq α] {M size percent : ℕ} {key : α → ℤ}
    {compare : α → α → ℤ} {kmalloc : ℕ → ℕ → Bool} (hsize : 1 ≤ size) (hM : size ≤ M)
    (hp : 1 ≤ percent ∧ percent ≤ 100) (hkey : ∀ x, M + (key x).natAbs ≤ 2 ^ 31)
    (hk : ∀ n slots, kmalloc n slots = true → slots ≤ M) {cs : List (Call α)} {s : Run α}
    (h : (htableSystem kmalloc (initHtable size percent key compare)).Steps
      ⟨⟨initHtable size percent key compare, 0⟩, 0⟩ cs s) :
    s.counted.table.total = s.stored.card ∧
    (∀ data, htableInsert kmalloc s.counted data = .ok (s.counted, -1) ∨
      ∃ c, htableInsert kmalloc s.counted data = .ok (c, 0) ∧
        Slots.contents c.table.table c.table.size = data ::ₘ s.stored) ∧
    (∀ data ∈ s.stored, ∃ c, htableRemove kmalloc s.counted data = .ok (c, 0) ∧
      Slots.contents c.table.table c.table.size = s.stored.erase data) ∧
    (∀ sample, (htableRetrieve s.counted.table sample = .ok none ∧
        ∀ e ∈ s.stored, compare e sample ≠ 0) ∨
      ∃ e ∈ s.stored, htableRetrieve s.counted.table sample = .ok (some e) ∧
        compare e sample = 0) ∧
    (∃ l : List α, (l : Multiset α) = s.stored ∧
      ∀ n : ℕ, htableGet s.counted.table n = l[n]?) ∧
    ∀ n : ℤ, n < 0 → htableGet s.counted.table n = none := by
  have hs : Holds M _ s.counted.table s.stored :=
    h.preserves (holds_preserved hk hp.2) (holds_init compare hsize hM hkey)
  refine ⟨hs.total, fun data => ?_, fun data hd => ?_, hs.retrieve,
    ⟨_, hs.stored, htableGet_eq hs⟩, fun n => htableGet_neg _⟩
  · refine (hs.insert hk data).imp_right fun ⟨c, hr, hc⟩ => ⟨c, hr, hc.stored⟩
  · obtain ⟨c, hr, hc⟩ := hs.remove hk hp.2 hd
    exact ⟨c, hr, hc.stored⟩

def lastDigitTable : HashTable ℕ :=
  initHtable 1 75 (fun x => ((x % 10 : ℕ) : ℤ)) fun x y => (x : ℤ) - y

theorem htable_refines_multiset_grown : ∃ s : Run ℕ, s.counted.table.size = 4 ∧
    s.counted.table.total = s.stored.card ∧ htableRetrieve s.counted.table 5 = .ok none := by
  have h : (htableSystem (fun _ slots => decide (slots ≤ 100)) lastDigitTable).Steps
      ⟨⟨lastDigitTable, 0⟩, 0⟩ [.insert 5, .insert 8, .remove 5] _ :=
    .cons trivial rfl (.cons trivial rfl (.one
      (Multiset.mem_cons_of_mem (Multiset.mem_singleton_self 5)) rfl))
  obtain ⟨ht, _⟩ := htable_refines_multiset (M := 100) (by decide) (by decide) (by decide)
    (fun x => by omega) (by simp) h
  exact ⟨_, by decide, ht, by decide⟩

end Racoon.HashTables
