import Racoon.Ds.Rwlock

/-!
# Whole calls of the reader-writer lock

What a call of `ds/rwlock.c` does to the lock when no other thread moves in
between. An access that is not granted at once is then waited for without end.
Each call is the steps of `move` taken one after the other.
-/

namespace Racoon.RwLocks

def rwlockGetWriteAccess (rw : Rwlock) : Outcome Rwlock :=
  if rw.numReaders = 0 ∧ rw.numWriters = 0 then
    .ok { rw with numWriters := add32 rw.numWriters 1 }
  else .error .diverges

def rwlockGetReadAccess (rw : Rwlock) : Outcome Rwlock :=
  if rw.numWriters = 0 ∧ rw.writeRequest = 0 then
    .ok { rw with numReaders := add32 rw.numReaders 1 }
  else .error .diverges

def rwlockRelease (rw : Rwlock) : Rwlock :=
  if rw.numWriters ≠ 0 then { rw with writeRequest := 0, numWriters := 0 }
  else { rw with numReaders := sub32 rw.numReaders 1 }

def rwlockGet : Role → Rwlock → Outcome Rwlock
  | .reader => rwlockGetReadAccess
  | .writer => rwlockGetWriteAccess

/-- The steps of one thread. -/
def moves (n : ℕ) (s : Rwlock × Place) : Rwlock × Place := (fun s => move s.1 s.2)^[n] s

variable {rw rw' : Rwlock}

theorem rwlockGetWriteAccess_eq_ok : rwlockGetWriteAccess rw = .ok rw' ↔
    (rw.numReaders = 0 ∧ rw.numWriters = 0) ∧ rw' = { rw with numWriters := 1 } := by
  unfold rwlockGetWriteAccess
  by_cases h : rw.numReaders = 0 ∧ rw.numWriters = 0
  · have hone : add32 rw.numWriters 1 = 1 := by
      rw [h.2]
      rfl
    rw [if_pos h, hone, Except.ok.injEq, eq_comm]
    exact (and_iff_right h).symm
  · rw [if_neg h]
    simp [h]

theorem rwlockGetReadAccess_eq_ok : rwlockGetReadAccess rw = .ok rw' ↔
    (rw.numWriters = 0 ∧ rw.writeRequest = 0) ∧
      rw' = { rw with numReaders := add32 rw.numReaders 1 } := by
  unfold rwlockGetReadAccess
  by_cases h : rw.numWriters = 0 ∧ rw.writeRequest = 0
  · rw [if_pos h, Except.ok.injEq, eq_comm]
    exact (and_iff_right h).symm
  · rw [if_neg h]
    simp [h]

/-- An access that is granted is got by the steps of the thread alone. -/
theorem moves_of_get {r : Role} (hs : rw.spinlock = false) (h : rwlockGet r rw = .ok rw') :
    ∃ n, moves n (rw, .acquire r) = (rw', .holding r) := by
  obtain ⟨readers, writers, request, spinlock⟩ := rw
  dsimp only at hs
  subst hs
  cases r with
  | writer =>
    obtain ⟨⟨hr, hw⟩, rfl⟩ := rwlockGetWriteAccess_eq_ok.mp h
    dsimp only at hr hw
    subst hr hw
    exact ⟨5, rfl⟩
  | reader =>
    obtain ⟨⟨hw, hq⟩, rfl⟩ := rwlockGetReadAccess_eq_ok.mp h
    dsimp only at hw hq
    subst hw hq
    exact ⟨6, rfl⟩

theorem moves_of_release (rw : Rwlock) (r : Role) :
    ∃ n, moves n (rw, .checkWriters r) = (rwlockRelease rw, .idle) := by
  unfold rwlockRelease
  by_cases h : rw.numWriters = 0
  · refine ⟨2, ?_⟩
    rw [if_neg (not_not.mpr h)]
    simp [moves, move, h]
  · refine ⟨3, ?_⟩
    rw [if_pos h]
    simp [moves, move, h]

/-- The counts of the lock are what a call found them to be. -/
def counts (rw : Rwlock) : ℕ × ℕ := (rw.numReaders, rw.numWriters)

theorem readers_lt (hc : counts rw = counts rw') (hb : rw'.numReaders < 2 ^ 32) :
    rw.numReaders < 2 ^ 32 := by
  have hreaders : rw.numReaders = rw'.numReaders := congrArg Prod.fst hc
  rw [hreaders]
  exact hb

/-- A release takes back the access that was got last. -/
theorem counts_release {r : Role} (hb : rw.numReaders < 2 ^ 32) (h : rwlockGet r rw = .ok rw') :
    counts (rwlockRelease rw') = counts rw := by
  cases r with
  | writer =>
    obtain ⟨⟨hr, hw⟩, rfl⟩ := rwlockGetWriteAccess_eq_ok.mp h
    simp [counts, rwlockRelease, hw]
  | reader =>
    obtain ⟨⟨hw, -⟩, rfl⟩ := rwlockGetReadAccess_eq_ok.mp h
    have : sub32 (add32 rw.numReaders 1) 1 = rw.numReaders := by
      unfold sub32 add32
      omega
    simp [counts, rwlockRelease, hw, this]

/-- A lock that is held is counted differently. -/
theorem counts_get_ne {r : Role} (h : rwlockGet r rw = .ok rw') :
    counts rw' ≠ counts rw := by
  intro hc
  cases r with
  | writer =>
    obtain ⟨⟨hr, hw⟩, rfl⟩ := rwlockGetWriteAccess_eq_ok.mp h
    simp [counts, hw] at hc
  | reader =>
    obtain ⟨-, rfl⟩ := rwlockGetReadAccess_eq_ok.mp h
    simp only [counts, Prod.mk.injEq, and_true] at hc
    unfold add32 at hc
    omega

end Racoon.RwLocks
