import Racoon.Machine
import Racoon.Lib.Run
import Racoon.Lib.Tally

/-!
# The reader-writer lock of `ds/rwlock.c`

Each spinlock operation, each locked increment or decrement, each load and each
store of a field is one step, and the threads take their steps in any order.
Access is granted under the spinlock; it is given back without. The count of the
readers is therefore right only as long as no reader leaves between the load and
the store of another one that enters.
-/

namespace Racoon.RwLocks
open Lib

inductive Role
  | reader
  | writer
  deriving DecidableEq, Repr

/-- `struct rwlock` -/
structure Rwlock where
  numReaders : ℕ
  numWriters : ℕ
  writeRequest : ℕ
  spinlock : Bool
  deriving DecidableEq, Repr

/-- Where a thread is in the three functions: the step it takes next. The role of a thread that
gives its access back is not known to the code. -/
inductive Place
  | idle
  | acquire (r : Role)
  | loadReaders
  | loadWriters
  | incWriters
  | setRequest
  | testWriters
  | testRequest
  | loadCount
  | storeCount (n : ℕ)
  | unlock (r : Role) (granted : Bool)
  | holding (r : Role)
  | checkWriters (r : Role)
  | clearRequest (r : Role)
  | clearWriters (r : Role)
  | decReaders (r : Role)
  deriving DecidableEq, Repr

def initRwlock : Rwlock := ⟨0, 0, 0, false⟩

/-- The first step under the spinlock. -/
def Role.entered : Role → Place
  | writer => .loadReaders
  | reader => .testWriters

/-- One step of a thread in a call. -/
def move (lock : Rwlock) : Place → Rwlock × Place
  | .idle => (lock, .idle)
  | .holding r => (lock, .holding r)
  | .acquire r =>
    if lock.spinlock then (lock, .acquire r)
    else ({ lock with spinlock := true }, r.entered)
  -- rwlock_get_write_access
  | .loadReaders => (lock, if lock.numReaders = 0 then .loadWriters else .setRequest)
  | .loadWriters => (lock, if lock.numWriters = 0 then .incWriters else .setRequest)
  | .incWriters => ({ lock with numWriters := add32 lock.numWriters 1 }, .unlock .writer true)
  | .setRequest => ({ lock with writeRequest := 1 }, .unlock .writer false)
  -- rwlock_get_read_access
  | .testWriters => (lock, if lock.numWriters = 0 then .testRequest else .unlock .reader false)
  | .testRequest => (lock, if lock.writeRequest = 0 then .loadCount else .unlock .reader false)
  | .loadCount => (lock, .storeCount lock.numReaders)
  | .storeCount n => ({ lock with numReaders := add32 n 1 }, .unlock .reader true)
  | .unlock r granted =>
    ({ lock with spinlock := false }, if granted then .holding r else .acquire r)
  -- rwlock_release
  | .checkWriters r => (lock, if lock.numWriters ≠ 0 then .clearRequest r else .decReaders r)
  | .clearRequest r => ({ lock with writeRequest := 0 }, .clearWriters r)
  | .clearWriters _ => ({ lock with numWriters := 0 }, .idle)
  | .decReaders _ => ({ lock with numReaders := sub32 lock.numReaders 1 }, .idle)

structure Threads (τ : Type) where
  lock : Rwlock
  place : τ → Place

inductive Act
  | get (r : Role)
  | release
  | step

namespace Place

/-- In a section that the spinlock protects. -/
def locked : Place → Bool
  | loadReaders | loadWriters | incWriters | setRequest => true
  | testWriters | testRequest | loadCount | storeCount _ | unlock _ _ => true
  | _ => false

/-- From the step that counts the thread in to the one that counts it out. -/
def holds (r : Role) : Place → Bool
  | unlock r' granted => granted && r' = r
  | holding r' | checkWriters r' | clearRequest r' | clearWriters r' | decReaders r' => r' = r
  | _ => false

/-- A writer that waits or holds the lock, up to the step that takes the request back. -/
def wants : Place → Bool
  | loadReaders | loadWriters | incWriters | setRequest => true
  | acquire r | unlock r _ | holding r | checkWriters r | clearRequest r => r = .writer
  | _ => false

/-- No call is in progress. -/
def quiet : Place → Bool
  | idle | holding _ => true
  | _ => false

end Place

section
variable (τ : Type) [DecidableEq τ]

def Act.Guard (s : Threads τ) (i : τ) : Act → Prop
  | get _ => s.place i = .idle
  | release => ∃ r, s.place i = .holding r
  | step => (s.place i).quiet = false

/-- The lock and the thread's place after an action of the thread. -/
def Act.next (lock : Rwlock) (p : Place) : Act → Rwlock × Place
  | get r => (lock, .acquire r)
  | release => (lock, match p with
    | .holding r => .checkWriters r
    | p => p)
  | step => move lock p

/-- The runs of any threads over one lock, in any order of their steps. -/
def rwSystem : System (Threads τ) (τ × Act) Fault where
  Init s := s.lock = initRwlock ∧ ∀ i, s.place i = .idle
  Guard s a := a.2.Guard τ s a.1
  step s a :=
    .ok ⟨(a.2.next s.lock (s.place a.1)).1,
      Function.update s.place a.1 (a.2.next s.lock (s.place a.1)).2⟩

/-- The step does not take a reader out of the count while another one is between the load and
the store of the count, and does not count past the last `unsigned int`. -/
def Undisturbed (s : Threads τ) (a : τ × Act) : Prop :=
  (∀ r, s.place a.1 = .decReaders r → ∀ j n, s.place j ≠ .storeCount n) ∧
    ∀ n, s.place a.1 = .storeCount n → n + 1 < 2 ^ 32

end

/-- What a thread knows at its place about the counts. -/
def Place.Knows (readers writers : ℕ) : Place → Prop
  | .loadWriters => readers = 0
  | .incWriters => readers = 0 ∧ writers = 0
  | .testRequest | .loadCount => writers = 0
  | .storeCount n => writers = 0 ∧ n = readers
  | .clearRequest r | .clearWriters r => r = .writer
  | .decReaders r => r = .reader
  | _ => True

section
variable {τ : Type} [Fintype τ]

structure Consistent (s : Threads τ) : Prop where
  spin : s.lock.spinlock.toNat = tally Place.locked s.place
  readers : s.lock.numReaders = tally (Place.holds .reader) s.place
  writers : s.lock.numWriters = tally (Place.holds .writer) s.place
  bound : s.lock.numReaders < 2 ^ 32
  alone : s.lock.numWriters = 0 ∨ s.lock.numWriters = 1 ∧ s.lock.numReaders = 0
  knows : ∀ i, (s.place i).Knows s.lock.numReaders s.lock.numWriters
  request : s.lock.writeRequest ≠ 0 → 0 < tally Place.wants s.place

variable {s : Threads τ} {i : τ} {p q : Place} {lock : Rwlock}

/-- Outside the sections of the spinlock a thread knows nothing of the counts. -/
theorem Place.Knows.of_not_locked {a b a' b' : ℕ} (h : p.Knows a b) (hp : p.locked = false) :
    p.Knows a' b' := by
  cases p <;> first | exact h | cases hp

theorem Place.Knows.writers_zero {a b : ℕ} (h : p.Knows a b) : p.Knows a 0 := by
  cases p with
  | incWriters => exact ⟨h.1, rfl⟩
  | testRequest => rfl
  | loadCount => rfl
  | storeCount n => exact ⟨rfl, h.2⟩
  | _ => exact h

/-- While there are readers no writer is let in, and no thread outside an update of their count
relies on it. -/
theorem Place.Knows.readers_fewer {a b a' : ℕ} (h : p.Knows a b) (ha : a ≠ 0)
    (hp : ∀ n, p ≠ .storeCount n) : p.Knows a' b := by
  cases p with
  | loadWriters => exact absurd h ha
  | incWriters => exact absurd h.1 ha
  | storeCount n => exact absurd rfl (hp n)
  | _ => exact h

namespace Consistent

/-- The thread in a section of the spinlock is alone there. -/
theorem not_locked (h : Consistent s) (hi : (s.place i).locked = true) {j : τ} (hj : j ≠ i) :
    (s.place j).locked = false := by
  by_contra hl
  refine hj (eq_of_tally_le_one ?_ (Bool.not_eq_false _ ▸ hl) hi)
  rw [← h.spin]
  exact Bool.toNat_le _

theorem spinlock_of_locked (h : Consistent s) (hi : (s.place i).locked = true) :
    s.lock.spinlock = true := by
  have := h.spin ▸ tally_pos hi
  cases hs : s.lock.spinlock with
  | true => rfl
  | false => simp [hs] at this

theorem counted (h : Consistent s) {r : Role} (hi : (s.place i).holds r = true) :
    (r = .reader → 0 < s.lock.numReaders ∧ s.lock.numWriters = 0) ∧
      (r = .writer → s.lock.numWriters = 1 ∧ s.lock.numReaders = 0) := by
  constructor
  · rintro rfl
    have := h.readers ▸ tally_pos hi
    exact ⟨this, h.alone.resolve_right fun ha => by omega⟩
  · rintro rfl
    have := h.writers ▸ tally_pos hi
    exact h.alone.resolve_left (by omega)

variable [DecidableEq τ]

/-- One thread moves: the counts change by what it counts, and the others still know what they
knew. -/
theorem moved (h : Consistent s)
    (hspin : lock.spinlock.toNat + (s.place i).locked.toNat =
      s.lock.spinlock.toNat + q.locked.toNat)
    (hreaders : lock.numReaders + ((s.place i).holds .reader).toNat =
      s.lock.numReaders + (q.holds .reader).toNat)
    (hwriters : lock.numWriters + ((s.place i).holds .writer).toNat =
      s.lock.numWriters + (q.holds .writer).toNat)
    (hbound : lock.numReaders < 2 ^ 32)
    (halone : lock.numWriters = 0 ∨ lock.numWriters = 1 ∧ lock.numReaders = 0)
    (hknows : q.Knows lock.numReaders lock.numWriters)
    (hothers : ∀ j, j ≠ i → (s.place j).Knows lock.numReaders lock.numWriters)
    (hrequest : lock.writeRequest ≠ 0 → q.wants = true ∨
      s.lock.writeRequest ≠ 0 ∧ (s.place i).wants = false) :
    Consistent ⟨lock, Function.update s.place i q⟩ where
  spin := by
    have := tally_update Place.locked s.place i q
    have := h.spin
    dsimp only
    omega
  readers := by
    have := tally_update (Place.holds .reader) s.place i q
    have := h.readers
    dsimp only
    omega
  writers := by
    have := tally_update (Place.holds .writer) s.place i q
    have := h.writers
    dsimp only
    omega
  bound := hbound
  alone := halone
  knows j := by
    dsimp only
    by_cases hj : j = i
    · subst hj
      rw [Function.update_self]
      exact hknows
    · rw [Function.update_of_ne hj]
      exact hothers j hj
  request hr := by
    rcases hrequest hr with hq | ⟨hs, hp⟩
    · exact tally_pos (i := i) ((congrArg Place.wants (Function.update_self ..)).trans hq)
    · have hsame := tally_update Place.wants s.place i q
      have hpos := h.request hs
      rw [hp] at hsame
      dsimp only
      simp only [Bool.toNat_false] at hsame
      omega

/-- The move leaves the lock as it is. -/
theorem walked (h : Consistent s) (hlocked : (s.place i).locked = q.locked)
    (hholds : ∀ r, (s.place i).holds r = q.holds r)
    (hwants : (s.place i).wants = true → q.wants = true)
    (hknows : q.Knows s.lock.numReaders s.lock.numWriters) :
    Consistent ⟨s.lock, Function.update s.place i q⟩ := by
  refine h.moved (by rw [hlocked]) (by rw [hholds]) (by rw [hholds]) h.bound h.alone hknows
    (fun j _ => h.knows j) fun hr => ?_
  cases hw : (s.place i).wants with
  | true => exact .inl (hwants hw)
  | false => exact .inr ⟨hr, rfl⟩

/-- The lock changes in a section of the spinlock. -/
theorem stepped (h : Consistent s) (hlocked : (s.place i).locked = true) (hq : q.locked = true)
    (hspin : lock.spinlock = s.lock.spinlock)
    (hreaders : lock.numReaders = s.lock.numReaders + (q.holds .reader).toNat)
    (hwriters : lock.numWriters = s.lock.numWriters + (q.holds .writer).toNat)
    (hholds : ∀ r, (s.place i).holds r = false)
    (hbound : lock.numReaders < 2 ^ 32)
    (halone : lock.numWriters = 0 ∨ lock.numWriters = 1 ∧ lock.numReaders = 0)
    (hknows : q.Knows lock.numReaders lock.numWriters)
    (hrequest : lock.writeRequest ≠ 0 → q.wants = true ∨
      s.lock.writeRequest ≠ 0 ∧ (s.place i).wants = false) :
    Consistent ⟨lock, Function.update s.place i q⟩ := by
  refine h.moved ?_ ?_ ?_ hbound halone hknows
    (fun j hj => (h.knows j).of_not_locked (h.not_locked hlocked hj)) hrequest
  · rw [hspin, hlocked, hq]
  · rw [hreaders, hholds]
    rfl
  · rw [hwriters, hholds]
    rfl

/-- A step under the spinlock that reads. -/
theorem read (h : Consistent s) (hp : s.place i = p) (hlocked : p.locked = q.locked)
    (hholds : ∀ r, p.holds r = q.holds r) (hwants : p.wants = true → q.wants = true)
    (hknows : q.Knows s.lock.numReaders s.lock.numWriters) :
    Consistent ⟨s.lock, Function.update s.place i q⟩ := by
  subst hp
  exact h.walked hlocked hholds hwants hknows

/-- One step of a call. -/
theorem move_consistent (h : Consistent s)
    (hdec : ∀ r, s.place i = .decReaders r → ∀ j n, s.place j ≠ .storeCount n)
    (hfit : ∀ n, s.place i = .storeCount n → n + 1 < 2 ^ 32) :
    Consistent ⟨(move s.lock (s.place i)).1,
      Function.update s.place i (move s.lock (s.place i)).2⟩ := by
  have hknows := h.knows i
  cases hp : s.place i with
  | idle => exact h.read hp rfl (fun _ => rfl) id trivial
  | holding r => exact h.read hp rfl (fun _ => rfl) id trivial
  | acquire r =>
    rw [move]
    split_ifs with hspin
    · exact h.read hp rfl (fun _ => rfl) id trivial
    · refine h.moved (by rw [hp, Bool.eq_false_iff.mpr hspin]; cases r <;> rfl)
        (by rw [hp]; cases r <;> rfl) (by rw [hp]; cases r <;> rfl) h.bound h.alone
        (by cases r <;> trivial) (fun j _ => h.knows j) fun hr => ?_
      cases r with
      | writer => exact .inl rfl
      | reader => exact .inr ⟨hr, by rw [hp]; rfl⟩
  | loadReaders =>
    rw [move]
    split_ifs with hz
    · exact h.read hp rfl (fun _ => rfl) (fun _ => rfl) hz
    · exact h.read hp rfl (fun _ => rfl) (fun _ => rfl) trivial
  | loadWriters =>
    rw [hp] at hknows
    rw [move]
    split_ifs with hz
    · exact h.read hp rfl (fun _ => rfl) (fun _ => rfl) ⟨hknows, hz⟩
    · exact h.read hp rfl (fun _ => rfl) (fun _ => rfl) trivial
  | incWriters =>
    rw [hp] at hknows
    obtain ⟨hr, hw⟩ := hknows
    have hone : add32 s.lock.numWriters 1 = 1 := by
      rw [hw]
      rfl
    refine h.stepped (by rw [hp]; rfl) rfl rfl rfl ?_ (fun r => by rw [hp]; rfl) h.bound
      (.inr ⟨hone, hr⟩) trivial fun _ => .inl rfl
    rw [hw]
    exact hone
  | setRequest =>
    exact h.stepped (by rw [hp]; rfl) rfl rfl rfl rfl (fun r => by rw [hp]; rfl) h.bound h.alone
      trivial fun _ => .inl rfl
  | testWriters =>
    rw [move]
    split_ifs with hz
    · exact h.read hp rfl (fun _ => rfl) nofun hz
    · exact h.read hp rfl (fun _ => rfl) nofun trivial
  | testRequest =>
    rw [hp] at hknows
    rw [move]
    split_ifs with hz
    · exact h.read hp rfl (fun _ => rfl) nofun hknows
    · exact h.read hp rfl (fun _ => rfl) nofun trivial
  | loadCount =>
    rw [hp] at hknows
    exact h.read hp rfl (fun _ => rfl) nofun ⟨hknows, rfl⟩
  | storeCount n =>
    rw [hp] at hknows
    obtain ⟨hw, rfl⟩ := hknows
    have hadd : add32 s.lock.numReaders 1 = s.lock.numReaders + 1 := add32_of_lt (hfit _ hp)
    refine h.stepped (by rw [hp]; rfl) rfl rfl hadd rfl (fun r => by rw [hp]; rfl) (add32_lt _ _)
      (.inl hw) trivial fun hr => .inr ⟨hr, by rw [hp]; rfl⟩
  | unlock r granted =>
    have hspin := h.spinlock_of_locked (i := i) (by rw [hp]; rfl)
    have hknown : (if granted then Place.holding r else .acquire r).Knows s.lock.numReaders
        s.lock.numWriters := by
      split_ifs <;> trivial
    refine h.moved (by rw [hp, hspin]; cases granted <;> rfl)
      (by rw [hp]; cases granted <;> cases r <;> rfl)
      (by rw [hp]; cases granted <;> cases r <;> rfl) h.bound h.alone hknown
      (fun j _ => h.knows j) fun hr => ?_
    cases r with
    | writer => exact .inl (by cases granted <;> rfl)
    | reader => exact .inr ⟨hr, by rw [hp]; rfl⟩
  | checkWriters r =>
    have hcount := h.counted (i := i) (r := r) (by rw [hp]; exact decide_eq_true rfl)
    rw [move]
    split_ifs with hw
    · refine h.read hp rfl (fun _ => rfl) id ?_
      cases r with
      | writer => rfl
      | reader => exact absurd (hcount.1 rfl).2 hw
    · refine h.read hp rfl (fun _ => rfl) (fun hwants => ?_) ?_
      · cases r with
        | writer => exact absurd (hcount.2 rfl).1 (by omega)
        | reader => cases hwants
      · cases r with
        | writer => exact absurd (hcount.2 rfl).1 (by omega)
        | reader => rfl
  | clearRequest r =>
    rw [hp] at hknows
    cases hknows
    exact h.moved (by rw [hp]; rfl) (by rw [hp]; rfl) (by rw [hp]; rfl) h.bound h.alone rfl
      (fun j _ => h.knows j) fun hr => absurd rfl hr
  | clearWriters r =>
    rw [hp] at hknows
    cases hknows
    obtain ⟨hw, hr⟩ := (h.counted (i := i) (r := .writer) (by rw [hp]; rfl)).2 rfl
    exact h.moved (by rw [hp]; rfl) (by rw [hp]; rfl) (by rw [hp, hw]; rfl) h.bound (.inl rfl)
      trivial (fun j _ => (h.knows j).writers_zero) fun hr => .inr ⟨hr, by rw [hp]; rfl⟩
  | decReaders r =>
    rw [hp] at hknows
    cases hknows
    obtain ⟨hpos, hw⟩ := (h.counted (i := i) (r := .reader) (by rw [hp]; rfl)).1 rfl
    have hsub : sub32 s.lock.numReaders 1 = s.lock.numReaders - 1 := sub32_of_le h.bound hpos
    have hlt := h.bound
    rw [move, hsub]
    refine h.moved (by rw [hp]; rfl) ?_ (by rw [hp]; rfl) (show _ - 1 < 2 ^ 32 by omega) (.inl hw)
      trivial (fun j _ => (h.knows j).readers_fewer hpos.ne' (hdec _ hp j)) fun hr =>
        .inr ⟨hr, by rw [hp]; rfl⟩
    rw [hp]
    change s.lock.numReaders - 1 + 1 = s.lock.numReaders
    omega

theorem init (h : (rwSystem τ).Init s) : Consistent s := by
  obtain ⟨hlock, hidle⟩ := h
  have hzero : ∀ p : Place → Bool, p .idle = false → tally p s.place = 0 := fun p hp => by
    refine Nat.eq_zero_of_not_pos fun hpos => ?_
    obtain ⟨i, hi⟩ := exists_of_tally_pos hpos
    rw [hidle i, hp] at hi
    cases hi
  refine ⟨?_, ?_, ?_, ?_, ?_, fun i => ?_, fun hr => ?_⟩
  · rw [hlock, hzero _ rfl]
    rfl
  · rw [hlock, hzero _ rfl]
    rfl
  · rw [hlock, hzero _ rfl]
    rfl
  · rw [hlock]
    decide
  · exact .inl (by rw [hlock]; rfl)
  · rw [hidle i]
    trivial
  · exact absurd (by rw [hlock]; rfl) hr

theorem preserves : ((rwSystem τ).restrict (Undisturbed τ)).Preserves Consistent := by
  rintro s ⟨i, act⟩ h ⟨hg, hdec, hfit⟩
  refine ⟨_, rfl, ?_⟩
  cases act with
  | get r => exact h.read hg rfl (fun _ => rfl) nofun trivial
  | release =>
    obtain ⟨r, hp⟩ := hg
    change Consistent ⟨s.lock, Function.update s.place i (Act.release.next s.lock (s.place i)).2⟩
    rw [hp]
    exact h.read hp rfl (fun _ => rfl) id trivial
  | step => exact h.move_consistent hdec hfit

end Consistent

/-- No writer holds the lock together with another thread. -/
def Exclusive (s : Threads τ) : Prop :=
  ∀ i j, i ≠ j → (s.place i).holds .writer = true → ∀ r, (s.place j).holds r = false

/-- When no call is in progress, the counts are those of the holders. -/
def Counted (s : Threads τ) : Prop :=
  (∀ i, (s.place i).quiet = true) → ∀ r, (match r with
    | .reader => s.lock.numReaders
    | .writer => s.lock.numWriters) = tally (fun p => p = .holding r) s.place

def Requested (s : Threads τ) : Prop :=
  s.lock.writeRequest ≠ 0 → ∃ i, (s.place i).wants = true

theorem Consistent.counted_quiet (h : Consistent s) : Counted s := by
  intro hquiet r
  have hsame : tally (Place.holds r) s.place = tally (fun p => p = .holding r) s.place := by
    refine tally_congr fun i => ?_
    have hi := hquiet i
    cases hp : s.place i with
    | idle => rfl
    | holding r' => simp [Place.holds]
    | _ =>
      rw [hp] at hi
      cases hi
  rw [← hsame]
  cases r with
  | reader => exact h.readers
  | writer => exact h.writers

theorem Consistent.exclusive (h : Consistent s) : Exclusive s := by
  intro i j hij hi r
  obtain ⟨hw, hr⟩ := (h.counted hi).2 rfl
  by_contra hj
  rw [Bool.not_eq_false] at hj
  cases r with
  | reader => exact absurd hr ((h.counted hj).1 rfl).1.ne'
  | writer => exact hij (eq_of_tally_le_one (h.writers ▸ hw.le) hi hj)

/-- As long as no reader leaves while another one updates the count, the lock excludes, counts and
remembers requests right. -/
theorem rwlock_safe [DecidableEq τ] (h : ((rwSystem τ).restrict (Undisturbed τ)).Reach s) :
    Exclusive s ∧ Counted s ∧ Requested s := by
  have hinit : ∀ t, ((rwSystem τ).restrict (Undisturbed τ)).Init t → Consistent t :=
    fun _ ht => Consistent.init ht
  have hs := h.invariant hinit Consistent.preserves
  exact ⟨hs.exclusive, hs.counted_quiet, fun hr => exists_of_tally_pos (hs.request hr)⟩

end

section Examples

def unused : Threads Bool := ⟨initRwlock, fun _ => .idle⟩

/-- A thread's call and its steps, as far as they go without another thread. -/
def alone (i : Bool) (a : Act) (steps : ℕ) : List (Bool × Act) :=
  (i, a) :: List.replicate steps (i, .step)

theorem rwlock_safe_reader : ∃ s : Threads Bool, s.place true = .holding .reader ∧
    Exclusive s ∧ Counted s ∧ Requested s := by
  obtain ⟨s, hs, hp⟩ : ∃ s : Threads Bool,
      ((rwSystem Bool).restrict (Undisturbed Bool)).Steps unused (alone true (.get .reader) 6) s ∧
        s.place true = .holding .reader :=
    ⟨_, .cons ⟨rfl, nofun, nofun⟩ rfl <| .cons ⟨rfl, nofun, nofun⟩ rfl <|
      .cons ⟨rfl, nofun, nofun⟩ rfl <| .cons ⟨rfl, nofun, nofun⟩ rfl <|
      .cons ⟨rfl, nofun, nofun⟩ rfl <|
      .cons ⟨rfl, nofun, fun n hn => by cases hn; decide⟩ rfl <|
      .one ⟨rfl, nofun, nofun⟩ rfl, rfl⟩
  exact ⟨s, hp, rwlock_safe ⟨unused, _, ⟨rfl, fun _ => rfl⟩, hs⟩⟩

/-- The first reader leaves after the second one has read the count of 1 and before it stores 2.
Then one reader holds the lock and two are counted. -/
theorem reader_counted_twice : ∃ s : Threads Bool, (rwSystem Bool).Reach s ∧
    (∀ i, (s.place i).quiet = true) ∧ s.lock.numReaders = 2 ∧
    tally (fun p => p = .holding .reader) s.place = 1 ∧ ¬ Counted s := by
  obtain ⟨s, hs, hlock, hplace⟩ : ∃ s : Threads Bool,
      (rwSystem Bool).Steps unused (alone true (.get .reader) 6 ++
        (alone false (.get .reader) 4 ++ (alone true .release 2 ++
          [(false, .step), (false, .step)]))) s ∧
        s.lock.numReaders = 2 ∧ s.place = fun i => if i then .idle else .holding .reader := by
    refine ⟨_, .cons rfl rfl <| .cons rfl rfl <| .cons rfl rfl <| .cons rfl rfl <|
      .cons rfl rfl <| .cons rfl rfl <| .cons rfl rfl <| .cons rfl rfl <| .cons rfl rfl <|
      .cons rfl rfl <| .cons rfl rfl <| .cons rfl rfl <| .cons ⟨_, rfl⟩ rfl <| .cons rfl rfl <|
      .cons rfl rfl <| .cons rfl rfl <| .one rfl rfl, rfl, ?_⟩
    funext i
    cases i <;> rfl
  have hone : tally (fun p => p = .holding .reader) s.place = 1 := by
    rw [hplace]
    decide
  have hquiet : ∀ i, (s.place i).quiet = true := by
    rw [hplace]
    decide
  refine ⟨s, ⟨unused, _, ⟨rfl, fun _ => rfl⟩, hs⟩, hquiet, hlock, hone, fun h => ?_⟩
  have := h hquiet .reader
  dsimp only at this
  omega

end Examples
end Racoon.RwLocks
