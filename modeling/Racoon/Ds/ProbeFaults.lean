import Racoon.Ds.Probing

/-!
# The hash table for any keys

A call whose probes leave the range of the `int` fails. With keys that come near
the end of it, a call on the table either does what it does otherwise, or fails
and there is a key that does not fit a size which the table may have.
-/

namespace Racoon.HashTables
open Lib
variable {α : Type}

theorem probe_returns {key : ℤ} {size : ℕ} (hsize : 0 < size) (hlt : size < 2 ^ 31) (hk : IsInt key)
    (fault : Fault) (table : ℕ → Option α) (hit : Option α → Bool) :
    (∃ p < size, probe fault (magnitude key) size table hit 0 size = .ok (some p) ∧
      hit (table p) = true) ∨
    (probe fault (magnitude key) size table hit 0 size = .ok none ∧
      ∀ p < size, hit (table p) = false) ∨
    (¬ KeyFits key size ∧ probe fault (magnitude key) size table hit 0 size = .error fault) := by
  suffices hs : ∀ left i, i + left = size →
      (∃ p < size, probe fault (magnitude key) size table hit i left = .ok (some p) ∧
        hit (table p) = true) ∨
      (probe fault (magnitude key) size table hit i left = .ok none ∧ ∀ j, i ≤ j → j < size →
        0 ≤ position (magnitude key) size j ∧
          hit (table (position (magnitude key) size j).toNat) = false) ∨
      ((∃ j < size, position (magnitude key) size j < 0) ∧
        probe fault (magnitude key) size table hit i left = .error fault) by
    rcases hs size 0 (Nat.zero_add _) with hfound | ⟨hnone, hall⟩ | ⟨⟨j, hj, hneg⟩, herror⟩
    · exact .inl hfound
    · refine .inr (.inl ⟨hnone, fun p hp => ?_⟩)
      have hfits := fits_of_range hsize hlt hk fun i hi => (hall i (Nat.zero_le i) hi).1
      obtain ⟨i, hi, he⟩ := (probesAll_of_fits (α := α) hfits).covers p hp
      have hmiss := (hall i (Nat.zero_le i) hi).2
      rwa [he, Int.toNat_natCast] at hmiss
    · refine .inr (.inr ⟨fun hfits => ?_, herror⟩)
      rw [position_of_fits hfits hj] at hneg
      omega
  intro left
  induction left with
  | zero => exact fun i hi => .inr (.inl ⟨rfl, fun j hij hj => absurd hj (by omega)⟩)
  | succ left ih =>
    intro i hi
    rw [probe]
    by_cases hneg : position (magnitude key) size i < 0
    · exact .inr (.inr ⟨⟨i, by omega, hneg⟩, if_pos hneg⟩)
    have hbound : position (magnitude key) size i < size :=
      Int.tmod_lt_of_pos _ (by omega)
    rw [if_neg hneg]
    by_cases hh : hit (table (position (magnitude key) size i).toNat) = true
    · exact .inl ⟨_, by omega, if_pos hh, hh⟩
    · rw [if_neg hh]
      refine (ih (i + 1) (by omega)).imp_right (.imp_left fun hn => ⟨hn.1, fun j hij hj => ?_⟩)
      rcases Nat.eq_or_lt_of_le hij with rfl | hlt
      · exact ⟨not_lt.mp hneg, Bool.not_eq_true _ |>.mp hh⟩
      · exact hn.2 j hlt hj

/-- The table stores the multiset `S`. It has the functions and the percentage of `t₀`, and its
size is at most `M`. -/
structure Stores (M : ℕ) (t₀ t : HashTable α) (S : Multiset α) : Prop where
  stored : Slots.contents t.table t.size = S
  total : t.total = S.card
  size_pos : 0 < t.size
  size_le : t.size ≤ M
  key : t.key = t₀.key
  compare : t.compare = t₀.compare
  percent : t.percent = t₀.percent

/-- A stored key comes too near the end of the `int` range for some size of the table. -/
def Unfit (M : ℕ) (t₀ : HashTable α) (S : Multiset α) : Prop :=
  ∃ x ∈ S, ∃ n, 0 < n ∧ n ≤ M ∧ ¬ KeyFits (t₀.key x) n

theorem Unfit.mono {M : ℕ} {t₀ : HashTable α} {S T : Multiset α} (h : Unfit M t₀ S) (hle : S ≤ T) :
    Unfit M t₀ T := by
  obtain ⟨x, hx, hn⟩ := h
  exact ⟨x, Multiset.mem_of_le hle hx, hn⟩

section Calls
variable {M : ℕ} {t₀ t : HashTable α} {S : Multiset α}

namespace Stores

theorem probe (h : Stores M t₀ t S) (hM : M < 2 ^ 31) (hk : ∀ x, IsInt (t₀.key x)) (x : α)
    (fault : Fault) (hit : Option α → Bool) :
    (∃ p < t.size, probe fault (t.keyOf x) t.size t.table hit 0 t.size = .ok (some p) ∧
      hit (t.table p) = true) ∨
    (HashTables.probe fault (t.keyOf x) t.size t.table hit 0 t.size = .ok none ∧
      ∀ p < t.size, hit (t.table p) = false) ∨
    (¬ KeyFits (t₀.key x) t.size ∧
      HashTables.probe fault (t.keyOf x) t.size t.table hit 0 t.size = .error fault) := by
  have hle := h.size_le
  rw [t.keyOf_eq_magnitude, h.key]
  exact probe_returns h.size_pos (by omega) (hk x) fault t.table hit

theorem card_le (h : Stores M t₀ t S) : S.card ≤ t.size :=
  h.stored ▸ Slots.card_contents_le _ _

theorem fresh (h : Stores M t₀ t S) {n : ℕ} (h₀ : 0 < n) (hn : n ≤ M) :
    Stores M t₀ { t with size := n, total := 0, table := fun _ => none } 0 :=
  ⟨Slots.contents_empty n, rfl, h₀, hn, h.key, h.compare, h.percent⟩

theorem place (h : Stores M t₀ t S) (hM : M < 2 ^ 31) (hk : ∀ x, IsInt (t₀.key x))
    (hc : S.card < t.size) (data : α) :
    (∃ t', place t data = .ok t' ∧ Stores M t₀ t' (data ::ₘ S) ∧ t'.size = t.size) ∨
    (Unfit M t₀ (data ::ₘ S) ∧ ∃ e, HashTables.place t data = .error e) := by
  rcases h.probe hM hk data .assertion Option.isNone with
    ⟨p, hp, hr, hn⟩ | ⟨_, hn⟩ | ⟨hunfit, hr⟩
  · refine .inl ⟨{ t with table := Function.update t.table p (some data), total := t.total + 1 },
      by simp only [HashTables.place, hr, ok_bind], ?_, rfl⟩
    have he := Slots.contents_put hp (Option.isNone_iff_eq_none.mp hn) data
    exact ⟨he.trans (by rw [h.stored]), by simp [h.total], h.size_pos, h.size_le, h.key, h.compare,
      h.percent⟩
  · obtain ⟨i, hi, he⟩ := Slots.exists_empty (h.stored.symm ▸ hc)
    have := hn i hi
    simp [he] at this
  · refine .inr ⟨⟨data, Multiset.mem_cons_self data S, t.size, h.size_pos, h.size_le, hunfit⟩,
      .assertion, ?_⟩
    rw [HashTables.place, hr]
    rfl

end Stores

/-- What an inserting function does on tables with fewer than `depth` items, unless it fails. -/
def InsertsUnless (M : ℕ) (t₀ : HashTable α) (insert : Counted α → α → Outcome (Counted α × ℤ))
    (depth : ℕ) : Prop :=
  ∀ c S data, Stores M t₀ c.table S → S.card < depth →
    (S.card = c.table.size ∧ insert c data = .ok (c, -1)) ∨
    (S.card < c.table.size ∧ ∃ c', insert c data = .ok (c', 0) ∧
      Stores M t₀ c'.table (data ::ₘ S) ∧ c.table.size ≤ c'.table.size) ∨
    (Unfit M t₀ (data ::ₘ S) ∧ ∃ e, insert c data = .error e)

variable {insert : Counted α → α → Outcome (Counted α × ℤ)} {depth : ℕ} {kmalloc : ℕ → ℕ → Bool}

/-- By induction on the old slots. -/
theorem reinsert_returns (hins : InsertsUnless M t₀ insert depth) :
    ∀ (old : List (Option α)) {c : Counted α} {S : Multiset α}, Stores M t₀ c.table S →
      S.card + old.reduceOption.length ≤ c.table.size →
      S.card + old.reduceOption.length ≤ depth →
      (∃ c', reinsert insert old c = .ok c' ∧ Stores M t₀ c'.table (old.reduceOption + S) ∧
        c.table.size ≤ c'.table.size) ∨
      (Unfit M t₀ (old.reduceOption + S) ∧ ∃ e, reinsert insert old c = .error e) := by
  intro old
  induction old with
  | nil => exact fun {c S} h _ _ => .inl ⟨c, rfl, by simpa [List.reduceOption_nil] using h, le_rfl⟩
  | cons o old ih =>
    intro c S h hs hd
    cases o with
    | none => exact ih h hs hd
    | some data =>
      simp only [List.reduceOption_cons_of_some, List.length_cons] at hs hd
      have hsum : ((data :: old.reduceOption : List α) : Multiset α) + S =
          old.reduceOption + (data ::ₘ S) := by
        rw [← Multiset.cons_coe, Multiset.cons_add, Multiset.add_cons]
      rw [List.reduceOption_cons_of_some, hsum]
      rcases hins c S data h (by omega) with ⟨hfull, _⟩ | ⟨_, c₁, hr, h₁, hle₁⟩ | ⟨hunfit, e, hr⟩
      · omega
      · rcases ih h₁ (by simp; omega) (by simp; omega) with ⟨c₂, hr₂, h₂, hle₂⟩ | ⟨hunfit, e, hr₂⟩
        · exact .inl ⟨c₂, by simp only [reinsert, hr, ok_bind, hr₂], h₂, hle₁.trans hle₂⟩
        · exact .inr ⟨hunfit, e, by simp only [reinsert, hr, ok_bind, hr₂]⟩
      · refine .inr ⟨hunfit.mono (Multiset.le_add_left _ _), e, ?_⟩
        rw [reinsert, hr]
        rfl

theorem rehash_returns (hk : ∀ n slots, kmalloc n slots = true → slots ≤ M)
    (hins : InsertsUnless M t₀ insert depth) {c : Counted α} (h : Stores M t₀ c.table S)
    (newSize : ℕ) (h₀ : 0 < newSize) (hn : S.card ≤ newSize) (hd : S.card ≤ depth) :
    (∃ c', htableRehash kmalloc insert c newSize = .ok c' ∧ Stores M t₀ c'.table S ∧
      (c'.table.size = c.table.size ∨ newSize ≤ c'.table.size)) ∨
    (Unfit M t₀ S ∧ ∃ e, htableRehash kmalloc insert c newSize = .error e) := by
  unfold htableRehash
  cases hg : kmalloc c.requests newSize with
  | false => exact .inl ⟨⟨c.table, c.requests + 1⟩, rfl, h, .inl rfl⟩
  | true =>
    have hitems : ((taken c.table.table c.table.size).reduceOption : Multiset α) = S := by
      rw [reduceOption_taken]
      exact h.stored
    have hlen : (taken c.table.table c.table.size).reduceOption.length = S.card := by
      rw [← hitems]
      rfl
    have hrun := reinsert_returns hins (taken c.table.table c.table.size)
      (c := ⟨{ c.table with size := newSize, total := 0, table := fun _ => none },
        c.requests + 1⟩) (h.fresh h₀ (hk _ _ hg)) (by simpa [hlen] using hn)
      (by simpa [hlen] using hd)
    rw [hitems, add_zero] at hrun
    exact hrun.imp_left fun ⟨c', hr, h', hle⟩ => ⟨c', hr, h', .inr hle⟩

/-- By induction on the depth, as where the keys fit. -/
theorem insertWithin_returns (hM : M < 2 ^ 31) (hint : ∀ x, IsInt (t₀.key x))
    (hk : ∀ n slots, kmalloc n slots = true → slots ≤ M) :
    ∀ depth, InsertsUnless M t₀ (insertWithin kmalloc depth) depth := by
  intro depth
  induction depth with
  | zero => exact fun c S data _ hd => absurd hd (Nat.not_lt_zero _)
  | succ depth ih =>
    intro c S data h hd
    by_cases hfull : c.table.total = c.table.size
    · exact .inl ⟨h.total ▸ hfull, by simp only [insertWithin, if_pos hfull]⟩
    · have hlt : S.card < c.table.size := lt_of_le_of_ne h.card_le (h.total ▸ hfull)
      have hgrow : (∃ c₁, grow kmalloc (insertWithin kmalloc depth) c = .ok c₁ ∧
          Stores M t₀ c₁.table S ∧ c.table.size ≤ c₁.table.size) ∨
          (Unfit M t₀ S ∧ ∃ e, grow kmalloc (insertWithin kmalloc depth) c = .error e) := by
        unfold grow
        dsimp only
        split_ifs
        · refine (rehash_returns hk ih h (c.table.size * 2) (by have := h.size_pos; omega)
            (by omega) (by omega)).imp_left ?_
          rintro ⟨c₁, hr, h₁, hle⟩
          exact ⟨c₁, hr, h₁, by omega⟩
        · exact .inl ⟨c, rfl, h, le_rfl⟩
      right
      simp only [insertWithin, if_neg hfull]
      rcases hgrow with ⟨c₁, hr₁, h₁, hle₁⟩ | ⟨hunfit, e, hr₁⟩
      · rcases h₁.place hM hint (by omega) data with ⟨t₂, hr₂, h₂, hsize⟩ | ⟨hunfit, e, hr₂⟩
        · exact .inl ⟨hlt, ⟨t₂, c₁.requests⟩, by simp only [hr₁, ok_bind, hr₂], h₂, hsize ▸ hle₁⟩
        · refine .inr ⟨hunfit, e, ?_⟩
          rw [hr₁, ok_bind, hr₂]
          rfl
      · refine .inr ⟨hunfit.mono (Multiset.le_cons_self S data), e, ?_⟩
        rw [hr₁]
        rfl

namespace Stores
variable {c : Counted α}

theorem shrink (h : Stores M t₀ c.table S) (hM : M < 2 ^ 31) (hint : ∀ x, IsInt (t₀.key x))
    (hk : ∀ n slots, kmalloc n slots = true → slots ≤ M) (hp : t₀.percent ≤ 100) :
    (∃ c', shrink kmalloc (insertWithin kmalloc c.table.total) c = .ok c' ∧
      Stores M t₀ c'.table S) ∨
    (Unfit M t₀ S ∧ ∃ e, HashTables.shrink kmalloc (insertWithin kmalloc c.table.total) c =
      .error e) := by
  unfold HashTables.shrink
  dsimp only
  split_ifs with hs
  · have hhalf := card_le_half (h.percent ▸ hp) hs.2 hs.1
    exact (rehash_returns hk (insertWithin_returns hM hint hk c.table.total) h
      (c.table.size / 2) (by omega) (h.total ▸ hhalf) h.total.ge).imp_left
        fun ⟨c', hr, h', _⟩ => ⟨c', hr, h'⟩
  · exact .inl ⟨c, rfl, h⟩

theorem remove [DecidableEq α] (h : Stores M t₀ c.table S) (hM : M < 2 ^ 31)
    (hint : ∀ x, IsInt (t₀.key x)) (hk : ∀ n slots, kmalloc n slots = true → slots ≤ M)
    (hp : t₀.percent ≤ 100) {data : α} (hd : data ∈ S) :
    (∃ c', htableRemove kmalloc c data = .ok (c', 0) ∧ Stores M t₀ c'.table (S.erase data)) ∨
    (Unfit M t₀ S ∧ ∃ e, htableRemove kmalloc c data = .error e) := by
  have hne : c.table.total ≠ 0 := by
    rw [h.total]
    exact (Multiset.card_pos_iff_exists_mem.mpr ⟨data, hd⟩).ne'
  simp only [htableRemove, if_neg hne]
  rcases h.shrink hM hint hk hp with ⟨c₁, hr₁, h₁⟩ | ⟨hunfit, e, hr₁⟩
  · rw [hr₁, ok_bind]
    rcases h₁.probe hM hint data .badAccess (· = some data) with
      ⟨p, hp, hr, hhit⟩ | ⟨_, hno⟩ | ⟨hunfit, hr⟩
    · rw [hr]
      refine .inl ⟨_, rfl, ?_, ?_, h₁.size_pos, h₁.size_le, h₁.key, h₁.compare, h₁.percent⟩
      · have ht := Slots.contents_take hp (of_decide_eq_true hhit)
        rw [h₁.stored] at ht
        rw [← ht, Multiset.erase_cons_head]
      · rw [Multiset.card_erase_of_mem hd]
        exact congrArg Nat.pred h₁.total
    · obtain ⟨i, hi, he⟩ := Slots.mem_contents.mp (h₁.stored.symm ▸ hd)
      have := hno i hi
      simp [he] at this
    · refine .inr ⟨⟨data, hd, _, h₁.size_pos, h₁.size_le, hunfit⟩, .badAccess, ?_⟩
      rw [hr]
      rfl
  · refine .inr ⟨hunfit, e, ?_⟩
    rw [hr₁]
    rfl

/-- A lookup of something that is stored and that nothing else stored compares equal to. -/
theorem retrieve (h : Stores M t₀ t S) (hM : M < 2 ^ 31) (hint : ∀ x, IsInt (t₀.key x)) {x : α}
    (hx : x ∈ S) (heq : ∀ e ∈ S, t₀.compare e x = 0 ↔ e = x) :
    htableRetrieve t x = .ok (some x) ∨ (Unfit M t₀ S ∧ ∃ e, htableRetrieve t x = .error e) := by
  have hne : t.total ≠ 0 := by
    rw [h.total]
    exact (Multiset.card_pos_iff_exists_mem.mpr ⟨x, hx⟩).ne'
  rw [htableRetrieve, if_neg hne]
  dsimp only
  rcases h.probe hM hint x .assertion fun slot => slot.any fun e => t.compare e x = 0 with
    ⟨p, hp, hr, hhit⟩ | ⟨_, hno⟩ | ⟨hunfit, hr⟩
  · cases he : t.table p with
    | none => simp [he] at hhit
    | some e =>
      have hmem : e ∈ S := h.stored ▸ Slots.mem_contents.mpr ⟨p, hp, he⟩
      have hzero : t₀.compare e x = 0 := by simpa [he, h.compare] using hhit
      rw [hr, ok_bind]
      dsimp only
      rw [he, (heq e hmem).mp hzero]
      exact .inl rfl
  · obtain ⟨i, hi, he⟩ := Slots.mem_contents.mp (h.stored.symm ▸ hx)
    have := hno i hi
    simp [he, h.compare, (heq x hx).mpr rfl] at this
  · refine .inr ⟨⟨x, hx, t.size, h.size_pos, h.size_le, hunfit⟩, .assertion, ?_⟩
    rw [hr]
    rfl

/-- `htable_get` numbers the stored pointers by the slots they lie in. -/
theorem get (h : Stores M t₀ t S) (n : ℕ) : htableGet t n = (Slots.items t.table t.size)[n]? := by
  have hlen : (Slots.items t.table t.size).length = t.total := by
    rw [h.total, ← h.stored]
    rfl
  unfold htableGet
  split_ifs with hz hn
  · rw [List.getElem?_eq_none (by omega)]
  · rw [List.getElem?_eq_none (by omega)]
  · simpa [Slots.items, List.range_eq_range'] using getLoop_eq t.table n t.size 0 0

end Stores

/-- The items that are doomed are taken out of the table, each time the first in the order of the
slots. -/
def removeAll [DecidableEq α] (kmalloc : ℕ → ℕ → Bool) (doomed : α → Bool) :
    ℕ → Counted α → Outcome (Counted α)
  | 0, c => .ok c
  | left + 1, c =>
    match (Slots.items c.table.table c.table.size).find? doomed with
    | none => .ok c
    | some x => do
      let _ ← htableRetrieve c.table x
      let (c, _) ← htableRemove kmalloc c x
      removeAll kmalloc doomed left c

theorem removeAll_eq_self [DecidableEq α] {doomed : α → Bool} {c : Counted α}
    (h : ∀ x ∈ Slots.items c.table.table c.table.size, doomed x = false) (left : ℕ) :
    removeAll kmalloc doomed left c = .ok c := by
  cases left with
  | zero => rfl
  | succ left =>
    have hfind : (Slots.items c.table.table c.table.size).find? doomed = none :=
      List.find?_eq_none.mpr fun x hx => by simp [h x hx]
    rw [removeAll, hfind]

theorem removeAll_succ [DecidableEq α] {doomed : α → Bool} {c : Counted α} {x : α}
    (h : (Slots.items c.table.table c.table.size).find? doomed = some x) (left : ℕ) :
    removeAll kmalloc doomed (left + 1) c = (do
      let _ ← htableRetrieve c.table x
      let (c, _) ← htableRemove kmalloc c x
      removeAll kmalloc doomed left c) := by
  rw [removeAll, h]

theorem removeAll_of_fits [DecidableEq α] (hM : M < 2 ^ 31) (hint : ∀ x, IsInt (t₀.key x))
    (hk : ∀ n slots, kmalloc n slots = true → slots ≤ M) (hp : t₀.percent ≤ 100)
    (heq : ∀ e x, t₀.compare e x = 0 ↔ e = x) (doomed : α → Bool) (left : ℕ) {c : Counted α}
    (h : Stores M t₀ c.table S) (hfits : ¬ Unfit M t₀ S) :
    faultOf (removeAll kmalloc doomed left c) = none := by
  induction left generalizing c S with
  | zero => rfl
  | succ left ih =>
    cases hfind : (Slots.items c.table.table c.table.size).find? doomed with
    | none =>
      rw [removeAll, hfind]
      rfl
    | some x =>
      have hx : x ∈ S := h.stored ▸ List.mem_of_find?_eq_some hfind
      rw [removeAll_succ hfind]
      rcases h.retrieve hM hint hx fun e _ => heq e x with hr | ⟨hunfit, -⟩
      · rw [hr, ok_bind]
        rcases h.remove hM hint hk hp hx with ⟨c', hr', h'⟩ | ⟨hunfit, -⟩
        · rw [hr', ok_bind]
          exact ih h' fun hunfit => hfits (hunfit.mono (Multiset.erase_le x S))
        · exact absurd hunfit hfits
      · exact absurd hunfit hfits

end Calls

end Racoon.HashTables
