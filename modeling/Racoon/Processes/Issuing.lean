import Racoon.Processes.Identifiers
import Racoon.Lib.Run

/-!
# Runs of the identifier loops

The ids that one loop tries repeat only after the whole range, so that fewer
live objects than ids leave one that is not in use. The counter of a run stays
in range until the call that returns the last `int`. After that call `next_pid`
and `next_tid` stand at the least one, which no object carries, and return it.
-/

namespace Racoon.Identifiers
open Lib HashTables Strings
variable {α : Type}

/-- The id that a round looks up. -/
def candidate (reset temp counter : ℤ) : ℤ := if temp = -1 then counter else succId reset counter

theorem succId_of_lt {reset c : ℤ} (h₀ : 0 ≤ c) (h : c + 1 < 2 ^ 31) : succId reset c = c + 1 := by
  rw [succId, int32_of_le (by omega) h, if_neg (by omega)]

theorem succId_last (reset : ℤ) : succId reset (2 ^ 31 - 1) = reset := by
  rw [succId, if_pos (by decide)]

theorem succId_range {reset : ℤ} (h : 0 ≤ reset) (hr : reset < 2 ^ 31) (c : ℤ) :
    0 ≤ succId reset c ∧ succId reset c < 2 ^ 31 := by
  have hint := isInt_int32 (c + 1)
  unfold succId
  split_ifs with hneg
  · exact ⟨h, hr⟩
  · exact ⟨by omega, hint.2⟩

theorem iterate_succId {reset c : ℤ} (hr : 0 ≤ reset) (h₀ : 0 ≤ c) (h : c < 2 ^ 31) :
    ∀ n : ℕ, n < 2 ^ 31 - reset →
    (succId reset)^[n] c = if c + n < 2 ^ 31 then c + n else reset + (c + n - 2 ^ 31) := by
  intro n
  induction n with
  | zero =>
    intro _
    rw [Function.iterate_zero_apply, Nat.cast_zero, add_zero, if_pos h]
  | succ n ih =>
    intro hn
    push_cast at hn
    rw [Function.iterate_succ_apply', ih (by omega)]
    push_cast
    split_ifs with h₁ h₂ h₂
    · rw [succId_of_lt (by omega) (by omega)]
      omega
    · rw [show c + n = 2 ^ 31 - 1 by omega, succId_last]
      omega
    · omega
    · rw [succId_of_lt (by omega) (by omega)]
      omega

/-- Fewer objects than ids leave one of the ids that a loop gets to. -/
theorem exists_unused {A : Carriers α} {t : HashTable α} {reset c : ℤ} (hr : 0 ≤ reset)
    (h₀ : 0 ≤ c) (h : c < 2 ^ 31) (hcard : (live t).card < 2 ^ 31 - reset) :
    ∃ n < rounds, ¬ Carried A t ((succId reset)^[n] c) := by
  by_contra hall
  push Not at hall
  have hmaps : ∀ n ∈ Finset.range (2 ^ 31 - reset).toNat,
      (succId reset)^[n] c ∈ ((live t).map A.idOf).toFinset := by
    intro n hn
    have hlt := Finset.mem_range.mp hn
    obtain ⟨e, he, hid⟩ := hall n (by rw [rounds]; omega)
    exact Multiset.mem_toFinset.mpr (Multiset.mem_map.mpr ⟨e, he, hid⟩)
  have hinj : Set.InjOn (fun n : ℕ => (succId reset)^[n] c)
      (Finset.range (2 ^ 31 - reset).toNat) := by
    intro n hn m hm heq
    have hn := Finset.mem_range.mp (Finset.mem_coe.mp hn)
    have hm := Finset.mem_range.mp (Finset.mem_coe.mp hm)
    dsimp only at heq
    rw [iterate_succId hr h₀ h n (by omega), iterate_succId hr h₀ h m (by omega)] at heq
    split_ifs at heq <;> omega
  have hle := Finset.card_le_card_of_injOn _ hmaps hinj
  have hcount := (Multiset.toFinset_card_le ((live t).map A.idOf)).trans
    (Multiset.card_map A.idOf (live t)).le
  rw [Finset.card_range] at hle
  omega

/-- What the three loops rely on in their tables. -/
structure Lawful (A : Carriers α) : Prop where
  key_int : ∀ x, IsInt (A.key (A.sample x))
  hit : ∀ e x, x ≠ -1 → (A.compare e (A.sample x) = 0 ↔ A.idOf e = x)

theorem retrieve_sample {A : Carriers α} (hA : Lawful A) {t : HashTable α} (hf : Filled A t)
    {x : ℤ} (hx : x ≠ -1) {r : Option α} (h : htableRetrieve t (A.sample x) = .ok r) :
    (r = none ∧ ¬ Carried A t x) ∨ ∃ e, r = some e ∧ Carried A t x := by
  have hkey : ∃ y, IsInt y ∧ t.key (A.sample x) = y := ⟨_, hA.key_int x, by rw [hf.key]⟩
  rcases retrieve_cases hf hkey h with ⟨rfl, hno⟩ | ⟨e, he, rfl, hcmp⟩
  · refine .inl ⟨rfl, ?_⟩
    rintro ⟨e, he, hid⟩
    exact hno e he ((hA.hit e x hx).mpr hid)
  · exact .inr ⟨e, rfl, e, he, (hA.hit e x hx).mp hcmp⟩

theorem searchFrom_succ (sample : ℤ → α) (reset : ℤ) (t : HashTable α) (left : ℕ)
    (temp counter : ℤ) :
    searchFrom sample reset t (left + 1) temp counter =
      htableRetrieve t (sample (candidate reset temp counter)) >>= fun r => match r with
        | none => .ok (candidate reset temp counter)
        | some _ => searchFrom sample reset t left (candidate reset temp counter)
            (candidate reset temp counter) := rfl

/-- A loop that gets to an id not in use ends at one. -/
theorem searchFrom_ok {A : Carriers α} (hA : Lawful A) {reset : ℤ} (hr : 0 ≤ reset)
    (hlt : reset < 2 ^ 31) {t : HashTable α} (hf : Filled A t) :
    ∀ {left : ℕ} {temp counter c : ℤ}, candidate reset temp counter = c → 0 ≤ c →
    (∀ x, Tried A reset t c x → Found A t x) →
    (∃ n < left, ¬ Carried A t ((succId reset)^[n] c)) →
    ∃ id, searchFrom A.sample reset t left temp counter = .ok id ∧ Tried A reset t c id ∧
      ¬ Carried A t id := by
  intro left
  induction left with
  | zero =>
    rintro temp counter c - - - ⟨n, hn, -⟩
    exact absurd hn (Nat.not_lt_zero n)
  | succ left ih =>
    rintro temp counter c hc h₀ hfound ⟨n, hn, hun⟩
    obtain ⟨r, hret⟩ := hfound c (.here c)
    rw [searchFrom_succ, hc, hret, ok_bind]
    rcases retrieve_sample hA hf (by omega) hret with ⟨rfl, hno⟩ | ⟨e, rfl, hcar⟩
    · exact ⟨c, rfl, .here c, hno⟩
    · cases n with
      | zero => exact absurd hcar hun
      | succ n =>
        have hcand : candidate reset c c = succId reset c := if_neg (by omega)
        obtain ⟨id, hid, htried, hno⟩ := ih hcand (succId_range hr hlt c).1
          (fun x hx => hfound x (.next hcar hx)) ⟨n, by omega, hun⟩
        exact ⟨id, hid, .next hcar htried, hno⟩

/-- A loop that ended failed no assertion on its way. -/
theorem found_of_searchFrom {A : Carriers α} (hA : Lawful A) {reset : ℤ} (hr : 0 ≤ reset)
    (hlt : reset < 2 ^ 31) {t : HashTable α} (hf : Filled A t) :
    ∀ {left : ℕ} {temp counter c id : ℤ}, candidate reset temp counter = c → 0 ≤ c →
    searchFrom A.sample reset t left temp counter = .ok id →
    ∀ x, Tried A reset t c x → Found A t x := by
  intro left
  induction left with
  | zero =>
    intro temp counter c id _ _ h
    cases h
  | succ left ih =>
    intro temp counter c id hc h₀ h x hx
    rw [searchFrom_succ, hc] at h
    obtain ⟨r, hret, h⟩ := bind_eq_ok.mp h
    cases hx with
    | here => exact ⟨r, hret⟩
    | next hcar hx =>
      rcases retrieve_sample hA hf (by omega) hret with ⟨rfl, hno⟩ | ⟨e, rfl, -⟩
      · exact absurd hcar hno
      · have hcand : candidate reset c c = succId reset c := if_neg (by omega)
        exact ih hcand (succId_range hr hlt c).1 h x hx

theorem tried_range {A : Carriers α} {reset least : ℤ} (hl : 0 ≤ least) (hr : least ≤ reset)
    (hlt : reset < 2 ^ 31) {t : HashTable α} {c x : ℤ} (h : Tried A reset t c x)
    (hc : least ≤ c ∧ c < 2 ^ 31) : least ≤ x ∧ x < 2 ^ 31 := by
  induction h with
  | here => exact hc
  | @next c x _ _ ih =>
    refine ih ⟨?_, (succId_range (hl.trans hr) hlt c).2⟩
    by_cases hlast : c + 1 < 2 ^ 31
    · rw [succId_of_lt (by omega) hlast]
      omega
    · rw [show c = 2 ^ 31 - 1 by omega, succId_last]
      exact hr

/-- A counter with its table: how the next id is found, from which value on, and to which it is
reset. -/
structure Issuer (α : Type) extends Carriers α where
  next : HashTable α → ℤ → Outcome (ℤ × ℤ)
  start : ℤ
  least : ℤ
  reset : ℤ

inductive Counter
  | pid
  | tid
  | shmem
  deriving DecidableEq, Repr

abbrev Counter.Object : Counter → Type
  | pid => ProcessKey
  | tid => Ipc.ThreadKey
  | shmem => ℤ

def Counter.issuer : (k : Counter) → Issuer k.Object
  | pid => { pids with next := nextPid, start := 1, least := 1, reset := 2 }
  | tid => { tids with next := nextTid, start := 1, least := 1, reset := 1 }
  | shmem => { regions with next := nextShmemId, start := 0, least := 0, reset := 0 }

/-- The value left in a counter after an id was found. -/
def Counter.after : Counter → ℤ → ℤ
  | pid, id => int32 (id + 1)
  | tid, id => int32 (id + 1)
  | shmem, id => succId 0 id

theorem Counter.bounds (k : Counter) :
    0 ≤ k.issuer.least ∧ k.issuer.least ≤ k.issuer.start ∧ k.issuer.start < 2 ^ 31 ∧
      k.issuer.least ≤ k.issuer.reset ∧ k.issuer.reset < 2 ^ 31 := by
  cases k <;> decide

theorem ptableCompare_eq_zero {a b : ProcessKey} (h : b.pid ≠ -1) :
    ptableCompare a b = 0 ↔ a.pid = b.pid := by
  rw [ptableCompare, if_pos h]
  split_ifs with h₁ h₂ <;> simp [h₁]

theorem Counter.lawful (k : Counter) : Lawful k.issuer.toCarriers := by
  cases k with
  | pid => exact ⟨fun x => isInt_magnitude (isInt_int32 _), fun e x hx => ptableCompare_eq_zero hx⟩
  | tid => exact ⟨fun x => isInt_magnitude (isInt_int32 _),
      fun e x hx => Ipc.threadsCompare_eq_zero hx⟩
  | shmem =>
    refine ⟨fun x => isInt_int32 _, fun (e : ℤ) (x : ℤ) _ => ?_⟩
    change (if e = x then (0 : ℤ) else if e < x then -1 else 1) = 0 ↔ e = x
    split_ifs with h₁ h₂ <;> simp [h₁]

theorem shmemIdFrom_eq (t : HashTable ℤ) : ∀ {left : ℕ} {temp counter c : ℤ},
    candidate 0 temp counter = c → c ≠ -1 →
    shmemIdFrom t left c =
      searchFrom regions.sample 0 t left temp counter >>= fun id => .ok (id, succId 0 id) := by
  intro left
  induction left with
  | zero => exact fun _ _ => rfl
  | succ left ih =>
    intro temp counter c hc hne
    rw [searchFrom_succ, hc, shmemIdFrom]
    cases htableRetrieve t (regions.sample c) with
    | error e => rfl
    | ok r =>
      cases r with
      | none => rfl
      | some e =>
        have := (succId_range le_rfl (by norm_num) c).1
        exact ih (if_neg hne) (by omega)

/-- Where the hash table of the regions fails no assertion, the loop finds the id that a search
through the regions themselves finds. -/
theorem freeId_of_shmemIdFrom {table : ℤ → Option Sharing.Shmem} {t : HashTable ℤ}
    (hf : Filled regions t) (ht : ∀ id, table id = none ↔ ¬ Carried regions t id) :
    ∀ {left : ℕ} {c : ℤ} {r : ℤ × ℤ}, 0 ≤ c → shmemIdFrom t left c = .ok r →
    Sharing.freeId table left c = .ok r := by
  intro left
  induction left with
  | zero => exact fun _ h => by cases h
  | succ left ih =>
    intro c r hc h
    rw [shmemIdFrom] at h
    obtain ⟨o, hret, h⟩ := bind_eq_ok.mp h
    rw [Sharing.freeId]
    rcases retrieve_sample (Counter.lawful .shmem) hf (by omega) hret with ⟨rfl, hno⟩ |
      ⟨e, rfl, hcar⟩
    · rw [(ht c).mpr hno]
      exact h
    · obtain ⟨sh, hsh⟩ := Option.ne_none_iff_exists'.mp fun hn => (ht c).mp hn hcar
      rw [hsh]
      exact ih (succId_range le_rfl (by norm_num) c).1 h

theorem Counter.next_eq (k : Counter) {t : HashTable k.Object} {c : ℤ} (hc : c ≠ -1) :
    k.issuer.next t c =
      searchFrom k.issuer.sample k.issuer.reset t rounds (-1) c >>= fun id =>
        .ok (id, k.after id) := by
  cases k with
  | pid => rfl
  | tid => rfl
  | shmem => exact shmemIdFrom_eq t (if_pos rfl) hc

theorem Counter.after_range (k : Counter) {x : ℤ} (h : k.issuer.least ≤ x ∧ x < 2 ^ 31) :
    k.after x = -2 ^ 31 ∨ k.issuer.least ≤ k.after x ∧ k.after x < 2 ^ 31 := by
  have hcount : 0 ≤ x → int32 (x + 1) = -2 ^ 31 ∨ x ≤ int32 (x + 1) ∧ int32 (x + 1) < 2 ^ 31 := by
    intro h₀
    by_cases hlast : x + 1 < 2 ^ 31
    · rw [int32_of_le (by omega) hlast]
      omega
    · rw [show x = 2 ^ 31 - 1 by omega]
      exact .inl (by decide)
  have hl := k.bounds.1
  cases k with
  | pid => exact (hcount (hl.trans h.1)).imp_right fun h' => ⟨h.1.trans h'.1, h'.2⟩
  | tid => exact (hcount (hl.trans h.1)).imp_right fun h' => ⟨h.1.trans h'.1, h'.2⟩
  | shmem => exact .inr (succId_range le_rfl (by norm_num) x)

/-- A counter and the ids given out so far. -/
structure Ids where
  counter : ℤ
  issued : Set ℤ

section
variable (k : Counter)

/-- The call returns an id in range that is not in use. -/
def GoodId (s : Ids) (t : HashTable k.Object) : Prop :=
  ∃ id c, k.issuer.next t s.counter = .ok (id, c) ∧ k.issuer.least ≤ id ∧
    ¬ Carried k.issuer.toCarriers t id

/-- The counter has not passed the last `int`, and no id tried fails an assertion. -/
def Usable (s : Ids) (t : HashTable k.Object) : Prop :=
  k.issuer.least ≤ s.counter ∧
    ∀ x, Tried k.issuer.toCarriers k.issuer.reset t s.counter x → Found k.issuer.toCarriers t x

/-- The calls for an id in runs over whatever objects are live: an input is the table at the
call, with fewer objects than ids, each with an id given out before. -/
def idSystem : System Ids (HashTable k.Object) Fault where
  Init s := s.counter = k.issuer.start ∧ s.issued = ∅
  Guard s t := Filled k.issuer.toCarriers t ∧
    (∀ x, Carried k.issuer.toCarriers t x → x ∈ s.issued) ∧
    (live t).card < 2 ^ 31 - k.issuer.reset
  step s t := do
    let (id, c) ← k.issuer.next t s.counter
    .ok ⟨c, insert id s.issued⟩

/-- The counter is in range, or at the first `int`, and no id below the range was given out. -/
def InRange (s : Ids) : Prop :=
  (s.counter = -2 ^ 31 ∨ k.issuer.least ≤ s.counter ∧ s.counter < 2 ^ 31) ∧
    ∀ x ∈ s.issued, k.issuer.least ≤ x

variable {k}

theorem Usable.next {s : Ids} {t : HashTable k.Object} (hs : InRange k s)
    (hg : (idSystem k).Guard s t) (hu : Usable k s t) :
    ∃ id, k.issuer.next t s.counter = .ok (id, k.after id) ∧
      (k.issuer.least ≤ id ∧ id < 2 ^ 31) ∧ ¬ Carried k.issuer.toCarriers t id := by
  obtain ⟨hl, -, -, hlr, hr⟩ := k.bounds
  obtain ⟨hf, -, hcard⟩ := hg
  have hc : k.issuer.least ≤ s.counter ∧ s.counter < 2 ^ 31 :=
    hs.1.resolve_left fun h => absurd hu.1 (by omega)
  obtain ⟨id, hid, htried, hno⟩ := searchFrom_ok k.lawful (hl.trans hlr) hr hf
    (show candidate k.issuer.reset (-1) s.counter = s.counter from if_pos rfl)
    (hl.trans hc.1) hu.2 (exists_unused (hl.trans hlr) (hl.trans hc.1) hc.2 hcard)
  refine ⟨id, ?_, tried_range hl hlr hr htried hc, hno⟩
  rw [k.next_eq (by omega), hid, ok_bind]

theorem InRange.preserves : ((idSystem k).restrict (Usable k)).Preserves (InRange k) := by
  rintro s t hs ⟨hg, hu⟩
  obtain ⟨id, hid, hin, -⟩ := hu.next hs hg
  refine ⟨⟨k.after id, insert id s.issued⟩, ?_, k.after_range hin, ?_⟩
  · change k.issuer.next t s.counter >>= _ = _
    rw [hid, ok_bind]
  · rintro x (rfl | hx)
    · exact hin.1
    · exact hs.2 x hx

/-- A counter past the last `int` gives out the first. -/
theorem not_goodId {s : Ids} {t : HashTable k.Object} (hs : InRange k s)
    (hg : (idSystem k).Guard s t) (hc : s.counter = -2 ^ 31) : ¬ GoodId k s t := by
  rintro ⟨id, c, hnext, hleast, -⟩
  obtain ⟨hl, -⟩ := k.bounds
  obtain ⟨hf, hissued, -⟩ := hg
  have hfree : ¬ Carried k.issuer.toCarriers t s.counter := fun h =>
    absurd (hs.2 _ (hissued _ h)) (by omega)
  rw [k.next_eq (by omega)] at hnext
  obtain ⟨x, hx, h⟩ := bind_eq_ok.mp hnext
  cases h
  rw [show rounds = 2 ^ 32 - 1 + 1 from rfl, searchFrom_succ,
    show candidate k.issuer.reset (-1) s.counter = s.counter from if_pos rfl] at hx
  obtain ⟨r, hret, hx⟩ := bind_eq_ok.mp hx
  rcases retrieve_sample k.lawful hf (by omega) hret with ⟨rfl, -⟩ | ⟨e, -, hcar⟩
  · cases hx
    omega
  · exact hfree hcar

end

/-- In a run all of whose calls start with the counter in range and fail no assertion in the
table, each call returns an id in range that is not in use exactly when it is such a call. -/
theorem goodId_iff (k : Counter) {s : Ids} (hs : ((idSystem k).restrict (Usable k)).Reach s)
    {t : HashTable k.Object} (hg : (idSystem k).Guard s t) : GoodId k s t ↔ Usable k s t := by
  obtain ⟨hl, hstart, hlt, hlr, hr⟩ := k.bounds
  have hin : InRange k s := by
    refine hs.invariant (fun s h => ⟨.inr ?_, ?_⟩) InRange.preserves
    · rw [h.1]
      exact ⟨hstart, hlt⟩
    · rw [h.2]
      exact fun x hx => absurd hx (Set.notMem_empty x)
  refine ⟨fun h => ?_, fun hu => ?_⟩
  · have hc : k.issuer.least ≤ s.counter ∧ s.counter < 2 ^ 31 :=
      hin.1.resolve_left fun hmin => not_goodId hin hg hmin h
    obtain ⟨id, c, hnext, -, -⟩ := h
    rw [k.next_eq (by omega)] at hnext
    obtain ⟨x, hx, -⟩ := bind_eq_ok.mp hnext
    exact ⟨hc.1, found_of_searchFrom k.lawful (hl.trans hlr) hr hg.1 (if_pos rfl)
      (hl.trans hc.1) hx⟩
  · obtain ⟨id, hid, hrange, hno⟩ := hu.next hin hg
    exact ⟨id, _, hid, hrange.1, hno⟩

theorem live_init (k : Counter) (size : ℤ) (percent : ℕ) :
    live (initHtable size percent k.issuer.key k.issuer.compare) = 0 :=
  Slots.contents_empty _

/-- With no object every state may take a call. -/
theorem guard_init (k : Counter) {size : ℤ} (hsize : 1 ≤ size) (hlt : size < 2 ^ 31) (percent : ℕ)
    (s : Ids) : (idSystem k).Guard s (initHtable size percent k.issuer.key k.issuer.compare) := by
  have hlive := live_init k size percent
  have hlen : (if size ≤ 0 then 32 else size.toNat) = size.toNat := if_neg (by omega)
  refine ⟨⟨rfl, rfl, (congrArg Multiset.card hlive).symm, ?_, ?_⟩, ?_, ?_⟩
  · change 1 ≤ if size ≤ 0 then 32 else size.toNat
    omega
  · change (if size ≤ 0 then 32 else size.toNat) < 2 ^ 31
    omega
  · rintro x ⟨e, he, -⟩
    exact absurd (hlive ▸ he) (Multiset.notMem_zero e)
  · rw [hlive]
    cases k <;> decide

/-- With no object the counter itself is the id. -/
theorem next_init (k : Counter) (size : ℤ) (percent : ℕ) {c : ℤ} (hc : c ≠ -1) :
    k.issuer.next (initHtable size percent k.issuer.key k.issuer.compare) c =
      .ok (c, k.after c) := by
  rw [k.next_eq hc, show rounds = 2 ^ 32 - 1 + 1 from rfl, searchFrom_succ]
  rfl

theorem step_of_next {k : Counter} {s : Ids} {t : HashTable k.Object} {id c : ℤ}
    (h : k.issuer.next t s.counter = .ok (id, c)) :
    (idSystem k).step s t = .ok ⟨c, insert id s.issued⟩ := by
  change k.issuer.next t s.counter >>= _ = _
  rw [h]
  rfl

theorem Counter.after_of_lt (k : Counter) {c : ℤ} (h₀ : 0 ≤ c) (h : c + 1 < 2 ^ 31) :
    k.after c = c + 1 := by
  cases k with
  | pid => exact int32_of_le (by omega) h
  | tid => exact int32_of_le (by omega) h
  | shmem => exact succId_of_lt h₀ h

/-- Objects that come and go one after the other use up the ids. -/
theorem reach_used (k : Counter) {c : ℤ} (hc : k.issuer.start ≤ c) : c < 2 ^ 31 →
    ((idSystem k).restrict (Usable k)).Reach ⟨c, Set.Ico k.issuer.start c⟩ := by
  obtain ⟨hl, hstart, -⟩ := k.bounds
  induction c, hc using Int.leInduction with
  | base => exact fun _ => .of_init ⟨rfl, Set.Ico_self _⟩
  | succ c hc ih =>
    intro hlt
    have hu : Usable k ⟨c, Set.Ico k.issuer.start c⟩
        (initHtable 128 75 k.issuer.key k.issuer.compare) :=
      ⟨hstart.trans hc, fun x _ => ⟨none, rfl⟩⟩
    have hstep := step_of_next (s := ⟨c, Set.Ico k.issuer.start c⟩)
      (next_init k 128 75 (show c ≠ -1 by omega))
    have hissued : insert c (Set.Ico k.issuer.start c) = Set.Ico k.issuer.start (c + 1) := by
      ext x
      simp only [Set.mem_insert_iff, Set.mem_Ico]
      omega
    rw [hissued, k.after_of_lt (by omega) hlt] at hstep
    exact (ih (by omega)).step ⟨guard_init k (by decide) (by decide) 75 _, hu⟩ hstep

/-- `shmem_table` when the region 0 is left of all that were made. -/
def keptRegion : HashTable ℤ :=
  { initHtable 64 80 regions.key regions.compare with
    total := 1
    table := Function.update (fun _ => none) 0 (some 0) }

theorem live_keptRegion : live keptRegion = {0} := by
  have hput := Slots.contents_put (t := fun _ : ℕ => (none : Option ℤ)) (show 0 < 64 by decide)
    rfl 0
  rw [Slots.contents_empty] at hput
  exact hput

/-- Every id was given out once, and the counter stands at the first again. -/
def rolled : Ids := ⟨0, insert (2 ^ 31 - 1) (Set.Ico 0 (2 ^ 31 - 1))⟩

/-- After the last `int` the counter of the regions stands at an id in use, and the call goes on
to the next. -/
theorem goodId_iff_rolled : Carried regions keptRegion 0 ∧
    ((idSystem .shmem).restrict (Usable .shmem)).Reach rolled ∧
      GoodId .shmem rolled keptRegion := by
  have hcarried : ∀ x, Carried regions keptRegion x ↔ x = 0 := by
    intro x
    simp only [Carried, live_keptRegion, Multiset.mem_singleton, exists_eq_left]
    exact eq_comm
  have hreach : ((idSystem .shmem).restrict (Usable .shmem)).Reach rolled := by
    have hlast := reach_used .shmem (show 0 ≤ 2 ^ 31 - 1 by decide) (by decide)
    have hstep := step_of_next (s := ⟨2 ^ 31 - 1, Set.Ico 0 (2 ^ 31 - 1)⟩)
      (next_init .shmem 64 80 (c := 2 ^ 31 - 1) (by decide))
    rw [show Counter.shmem.after (2 ^ 31 - 1) = 0 from succId_last 0] at hstep
    exact hlast.step ⟨guard_init .shmem (by decide) (by decide) 80 _,
      by decide, fun x _ => ⟨none, rfl⟩⟩ hstep
  have hguard : (idSystem .shmem).Guard rolled keptRegion := by
    refine ⟨⟨rfl, rfl, (congrArg Multiset.card live_keptRegion).symm, by decide, by decide⟩, ?_, ?_⟩
    · intro x hx
      rw [(hcarried x).mp hx]
      exact .inr ⟨le_rfl, by decide⟩
    · rw [live_keptRegion]
      decide
  have htried : Usable .shmem rolled keptRegion := by
    refine ⟨le_rfl, ?_⟩
    rintro x (_ | ⟨-, hx⟩)
    · exact ⟨some 0, rfl⟩
    · cases hx with
      | here => exact ⟨none, rfl⟩
      | next hcar => exact absurd ((hcarried _).mp hcar) (by decide)
  exact ⟨(hcarried 0).mpr rfl, hreach, (goodId_iff .shmem hreach hguard).mpr htried⟩

/-- `init_htable( 128, 75, ptable_key, ptable_compare )` -/
def noProcesses : HashTable ProcessKey := initHtable 128 75 pids.key pids.compare

theorem nextPid_eq (t : HashTable ProcessKey) (c : ℤ) :
    nextPid t c = htableRetrieve t (pids.sample c) >>= fun r => match r with
      | none => .ok (c, int32 (c + 1))
      | some _ => searchFrom pids.sample 2 t (rounds - 1) c c >>= fun id =>
          .ok (id, int32 (id + 1)) := by
  rw [nextPid, nextId, show rounds = rounds - 1 + 1 from rfl, searchFrom_succ]
  change (htableRetrieve t (pids.sample c) >>= _) >>= _ = _
  cases htableRetrieve t (pids.sample c) with
  | error e => rfl
  | ok r => cases r <;> rfl

/-- The process 1 alone in the table. -/
def oneProcess : HashTable ProcessKey :=
  { noProcesses with
    total := 1
    table := Function.update noProcesses.table 100 (some ⟨1, fun _ => 0⟩) }

theorem live_oneProcess : live oneProcess = {⟨1, fun _ => 0⟩} := by
  have hput := Slots.contents_put (t := noProcesses.table) (show 100 < 128 by decide) rfl
    (⟨1, fun _ => 0⟩ : ProcessKey)
  rw [noProcesses, initHtable, Slots.contents_empty] at hput
  exact hput

/-- After the last `int` the next pid is the first one, which is negative. The search from the pid
21474836 on fails the assertion of `htable_retrieve` when a process is in the table. -/
theorem next_pid_out_of_range :
    (∃ s, (idSystem .pid).Reach s ∧ (idSystem .pid).Guard s noProcesses ∧
      nextPid noProcesses s.counter = .ok (-2 ^ 31, -2 ^ 31 + 1) ∧ ¬ GoodId .pid s noProcesses) ∧
    ∃ s, (idSystem .pid).Reach s ∧ (idSystem .pid).Guard s oneProcess ∧
      nextPid oneProcess s.counter = .error .assertion ∧ ¬ GoodId .pid s oneProcess := by
  constructor
  · have hlast := reach_used .pid (show 1 ≤ 2 ^ 31 - 1 by decide) (by decide)
    have hstep := step_of_next (s := ⟨2 ^ 31 - 1, Set.Ico 1 (2 ^ 31 - 1)⟩)
      (next_init .pid 128 75 (c := 2 ^ 31 - 1) (by decide))
    have hreach := hlast.of_restrict.step (guard_init .pid (by decide) (by decide) 75 _) hstep
    have hnext : nextPid noProcesses (-2 ^ 31) = .ok (-2 ^ 31, -2 ^ 31 + 1) := by
      rw [nextPid_eq]
      rfl
    refine ⟨_, hreach, guard_init .pid (by decide) (by decide) 75 _, hnext, ?_⟩
    rintro ⟨id, c, h, hleast, -⟩
    cases hnext.symm.trans h
    exact absurd hleast (by decide)
  · have hret : htableRetrieve oneProcess (pids.sample 21474836) = .error .assertion :=
      faultOf_eq_some.mp (by decide +kernel)
    have hnext : nextPid oneProcess 21474836 = .error .assertion := by
      rw [nextPid_eq, hret]
      rfl
    have hreach := (reach_used .pid (show 1 ≤ 21474836 by decide) (by decide)).of_restrict
    refine ⟨_, hreach, ⟨⟨rfl, rfl, ?_, by decide, by decide⟩, ?_, ?_⟩, hnext, ?_⟩
    · exact (congrArg Multiset.card live_oneProcess).symm
    · rintro x ⟨e, he, rfl⟩
      cases Multiset.mem_singleton.mp (live_oneProcess ▸ he)
      exact ⟨by decide, by decide⟩
    · change ((live oneProcess).card : ℤ) < 2 ^ 31 - 2
      rw [live_oneProcess]
      decide
    · rintro ⟨id, c, h, -⟩
      cases hnext.symm.trans h

end Racoon.Identifiers
