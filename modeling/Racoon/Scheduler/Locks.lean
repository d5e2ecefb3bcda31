import Racoon.Scheduler.ThreadState

/-!
# Scheduler locks and the interrupt flag

`sched_lock` disables the interrupts of the calling CPU and keeps the flag it
found in the record of the CPU that it locks. `sched_unlock` enables them again
only where the calling CPU is the one unlocked. `sched_lock_all` locks the CPUs
in the order of their numbers, so that only the record of CPU 0 gets the flag
that was found, the others are told that interrupts were off.

The other CPUs do not interfere: a lock that is taken stays taken, and a CPU that
has to leave its thread does so.
-/

namespace Racoon.Scheduler
open Lib

/-- The fields of `struct scheduler_info` that the locks use. -/
structure SchedLock where
  lockScheduler : Bool
  lockFlags : ℕ
  nestedLock : ℕ
  running : ℕ
  idle : ℕ
  deriving DecidableEq

/-- What the locks of the scheduler change: the records of the CPUs, the global lock, the
interrupt flag of the calling CPU, and which CPUs have been sent `APIC_INTERRUPT`. -/
structure Locking where
  sched : ℕ → SchedLock
  cpuCount : ℕ
  globalLock : Bool
  interrupts : Bool
  woken : List ℤ

/-- A spinlock that nobody gives back is waited for without end. -/
def acquireSpinlock (held : Bool) : Outcome Unit := if held then .error .diverges else .ok ()

/-- What `disable_interrupts` returns. -/
def Locking.flag (l : Locking) : ℕ := if l.interrupts then 1 else 0

/-- `here` is the calling CPU. -/
def schedLock (here : ℕ) (l : Locking) (id complete : ℤ) : Outcome Locking := do
  assert (0 ≤ id ∧ id < l.cpuCount)
  assert (¬((here : ℤ) = id ∧ complete = 1))
  let c := l.sched id.toNat
  acquireSpinlock c.lockScheduler
  let c := { c with lockScheduler := true, lockFlags := l.flag }
  let woken := if c.idle ≠ 0 then l.woken ++ [id] else l.woken
  let c := { c with idle := 0 }
  -- waits until the CPU has left its thread
  let c := if complete = 1 then { c with running := 0 } else c
  assert (c.nestedLock = 0)
  .ok { l with
    sched := Function.update l.sched id.toNat { c with nestedLock := c.nestedLock + 1 }
    interrupts := false
    woken := woken }

def schedUnlock (here : ℕ) (l : Locking) (id : ℤ) : Outcome Locking := do
  let c := l.sched id.toNat
  assert (0 ≤ id ∧ id < l.cpuCount)
  assert (c.nestedLock = 1)
  .ok { l with
    sched := Function.update l.sched id.toNat
      { c with nestedLock := c.nestedLock - 1, lockScheduler := false }
    interrupts := if (here : ℤ) = id ∧ c.lockFlags ≠ 0 then true else l.interrupts }

/-- The loop of `sched_lock_all` with `left` CPUs to go. -/
def lockFrom (here : ℕ) : ℕ → ℕ → Locking → Outcome Locking
  | 0, _, l => .ok l
  | left + 1, i, l => do
    let l ← schedLock here l i (if here = i then 0 else 1)
    lockFrom here left (i + 1) l

def schedLockAll (here : ℕ) (l : Locking) : Outcome Locking := do
  acquireSpinlock l.globalLock
  lockFrom here l.cpuCount 0 { l with globalLock := true }

def unlockFrom (here : ℕ) : ℕ → ℕ → Locking → Outcome Locking
  | 0, _, l => .ok l
  | left + 1, i, l => do
    let l ← schedUnlock here l i
    unlockFrom here left (i + 1) l

def schedUnlockAll (here : ℕ) (l : Locking) : Outcome Locking := do
  let l ← unlockFrom here l.cpuCount 0 l
  .ok { l with globalLock := false }

/-- No CPU is locked. -/
structure Locking.Free (l : Locking) : Prop where
  spinlock : ∀ i < l.cpuCount, (l.sched i).lockScheduler = false
  nested : ∀ i < l.cpuCount, (l.sched i).nestedLock = 0
  global : l.globalLock = false

/-- Every lock and nesting counter and the interrupt flag are as they were. -/
structure Restored (l l' : Locking) : Prop where
  spinlock : ∀ i, (l'.sched i).lockScheduler = (l.sched i).lockScheduler
  nested : ∀ i, (l'.sched i).nestedLock = (l.sched i).nestedLock
  global : l'.globalLock = l.globalLock
  interrupts : l'.interrupts = l.interrupts

/-- A CPU in the hands of the caller, with the flag that it keeps. -/
structure SchedLock.Held (c : SchedLock) (flag : ℕ) : Prop where
  spinlock : c.lockScheduler = true
  nested : c.nestedLock = 1
  flags : c.lockFlags = flag

variable {l l' : Locking} {here i : ℕ}

theorem schedLock_eq {complete : ℤ} (hi : i < l.cpuCount) (hc : ¬((here : ℤ) = i ∧ complete = 1))
    (hs : (l.sched i).lockScheduler = false) (hn : (l.sched i).nestedLock = 0) :
    ∃ l', schedLock here l i complete = .ok l' ∧ l'.cpuCount = l.cpuCount ∧
      l'.globalLock = l.globalLock ∧ l'.interrupts = false ∧ (l'.sched i).Held l.flag ∧
      ∀ j, j ≠ i → l'.sched j = l.sched j := by
  have hrange : 0 ≤ (i : ℤ) ∧ (i : ℤ) < l.cpuCount := ⟨Int.natCast_nonneg i, by omega⟩
  simp only [schedLock, assert_of hrange, assert_of hc, ok_bind, Int.toNat_natCast, hs,
    acquireSpinlock, Bool.false_eq_true, if_false]
  split_ifs
  all_goals
    rw [assert_of (by exact hn)]
    refine ⟨_, rfl, rfl, rfl, rfl, ⟨?_, ?_, ?_⟩, fun j hj => Function.update_of_ne hj ..⟩
    · simp
    · simp [hn]
    · simp

theorem schedUnlock_eq (here : ℕ) {flag : ℕ} (hi : i < l.cpuCount) (hh : (l.sched i).Held flag) :
    ∃ l', schedUnlock here l i = .ok l' ∧ l'.cpuCount = l.cpuCount ∧
      l'.globalLock = l.globalLock ∧
      l'.interrupts = (if here = i ∧ flag ≠ 0 then true else l.interrupts) ∧
      (l'.sched i).lockScheduler = false ∧ (l'.sched i).nestedLock = 0 ∧
      ∀ j, j ≠ i → l'.sched j = l.sched j := by
  have hrange : 0 ≤ (i : ℤ) ∧ (i : ℤ) < l.cpuCount := ⟨Int.natCast_nonneg i, by omega⟩
  simp only [schedUnlock, assert_of hrange, ok_bind, Int.toNat_natCast, assert_of hh.nested]
  refine ⟨_, rfl, rfl, rfl, ?_, ?_, ?_, fun j hj => Function.update_of_ne hj ..⟩
  · simp [hh.flags]
  · simp
  · simp [hh.nested]

/-- The pair `sched_lock`, `sched_unlock` on a free CPU. -/
theorem lock_unlock_eq {complete : ℤ} (hi : i < l.cpuCount)
    (hc : ¬((here : ℤ) = i ∧ complete = 1)) (hs : (l.sched i).lockScheduler = false)
    (hn : (l.sched i).nestedLock = 0) :
    ∃ l₁ l₂, schedLock here l i complete = .ok l₁ ∧ schedUnlock here l₁ i = .ok l₂ ∧
      (Restored l l₂ ↔ l.interrupts = false ∨ here = i) := by
  obtain ⟨l₁, h₁, hcount₁, hglobal₁, hints₁, hheld, hframe₁⟩ := schedLock_eq hi hc hs hn
  obtain ⟨l₂, h₂, -, hglobal₂, hints₂, hs₂, hn₂, hframe₂⟩ :=
    schedUnlock_eq here (hcount₁ ▸ hi) hheld
  have hframe : ∀ j, j ≠ i → l₂.sched j = l.sched j := fun j hj =>
    (hframe₂ j hj).trans (hframe₁ j hj)
  have hints : l₂.interrupts = l.interrupts ↔ l.interrupts = false ∨ here = i := by
    rw [hints₂, hints₁, Locking.flag]
    cases l.interrupts <;> simp
  refine ⟨l₁, l₂, h₁, h₂, fun hr => hints.mp hr.interrupts, fun hor => ⟨?_, ?_, ?_, ?_⟩⟩
  · intro j
    by_cases hj : j = i
    · rw [hj, hs₂, hs]
    · rw [hframe j hj]
  · intro j
    by_cases hj : j = i
    · rw [hj, hn₂, hn]
    · rw [hframe j hj]
  · rw [hglobal₂, hglobal₁]
  · exact hints.mpr hor

/-- Only the first CPU locked is told the flag that was found. -/
theorem lockFrom_eq (here : ℕ) {n : ℕ} (hi : i + n ≤ l.cpuCount)
    (hs : ∀ j, i ≤ j → j < i + n → (l.sched j).lockScheduler = false)
    (hn : ∀ j, i ≤ j → j < i + n → (l.sched j).nestedLock = 0) :
    ∃ l', lockFrom here n i l = .ok l' ∧ l'.cpuCount = l.cpuCount ∧
      l'.globalLock = l.globalLock ∧
      l'.interrupts = (if n = 0 then l.interrupts else false) ∧
      (∀ j, i ≤ j → j < i + n → (l'.sched j).Held (if j = i then l.flag else 0)) ∧
      ∀ j, j < i ∨ i + n ≤ j → l'.sched j = l.sched j := by
  induction n generalizing i l with
  | zero => exact ⟨l, rfl, rfl, rfl, rfl, fun j h₀ h₁ => by omega, fun _ _ => rfl⟩
  | succ n ih =>
    have hc : ¬((here : ℤ) = i ∧ (if here = i then (0 : ℤ) else 1) = 1) := by
      split_ifs <;> omega
    obtain ⟨l₁, h₁, hcount₁, hglobal₁, hints₁, hheld, hframe₁⟩ :=
      schedLock_eq (by omega) hc (hs i le_rfl (by omega)) (hn i le_rfl (by omega))
    obtain ⟨l₂, h₂, hcount₂, hglobal₂, hints₂, hheld₂, hframe₂⟩ := ih (i := i + 1) (l := l₁)
      (by omega) (fun j h₀ h => by rw [hframe₁ j (by omega)]; exact hs j (by omega) (by omega))
      fun j h₀ h => by rw [hframe₁ j (by omega)]; exact hn j (by omega) (by omega)
    refine ⟨l₂, by rw [lockFrom, h₁, ok_bind, h₂], hcount₂.trans hcount₁,
      hglobal₂.trans hglobal₁, ?_, fun j h₀ h => ?_, fun j hj => ?_⟩
    · rw [hints₂, hints₁, if_neg n.succ_ne_zero, ite_self]
    · by_cases hj : j = i
      · rw [if_pos hj, hframe₂ j (.inl (by omega)), hj]
        exact hheld
      · have hheld := hheld₂ j (by omega) (by omega)
        have hzero : (if j = i + 1 then l₁.flag else 0) = 0 := by simp [Locking.flag, hints₁]
        rw [hzero] at hheld
        rw [if_neg hj]
        exact hheld
    · rw [hframe₂ j (by omega), hframe₁ j (by omega)]

theorem unlockFrom_eq (here : ℕ) {n : ℕ} {flag : ℕ → ℕ} (hi : i + n ≤ l.cpuCount)
    (hh : ∀ j, i ≤ j → j < i + n → (l.sched j).Held (flag j)) :
    ∃ l', unlockFrom here n i l = .ok l' ∧ l'.cpuCount = l.cpuCount ∧
      l'.interrupts = (if (i ≤ here ∧ here < i + n) ∧ flag here ≠ 0 then true
        else l.interrupts) ∧
      (∀ j, i ≤ j → j < i + n →
        (l'.sched j).lockScheduler = false ∧ (l'.sched j).nestedLock = 0) ∧
      ∀ j, j < i ∨ i + n ≤ j → l'.sched j = l.sched j := by
  induction n generalizing i l with
  | zero =>
    refine ⟨l, rfl, rfl, ?_, fun j h₀ h₁ => by omega, fun _ _ => rfl⟩
    rw [if_neg (by omega)]
  | succ n ih =>
    obtain ⟨l₁, h₁, hcount₁, -, hints₁, hs₁, hn₁, hframe₁⟩ :=
      schedUnlock_eq here (by omega) (hh i le_rfl (by omega))
    obtain ⟨l₂, h₂, hcount₂, hints₂, hfree₂, hframe₂⟩ := ih (i := i + 1) (l := l₁) (by omega)
      fun j h₀ h => by rw [hframe₁ j (by omega)]; exact hh j (by omega) (by omega)
    refine ⟨l₂, by rw [unlockFrom, h₁, ok_bind, h₂], hcount₂.trans hcount₁, ?_, fun j h₀ h => ?_,
      fun j hj => ?_⟩
    · rw [hints₂, hints₁]
      by_cases hhere : here = i
      · subst hhere
        by_cases hf : flag here = 0
        · simp [hf]
        · rw [if_neg (by omega), if_pos ⟨rfl, hf⟩, if_pos ⟨⟨le_rfl, by omega⟩, hf⟩]
      · rw [if_neg fun hc : here = i ∧ _ => hhere hc.1]
        have hrange : (i + 1 ≤ here ∧ here < i + 1 + n) ↔ i ≤ here ∧ here < i + (n + 1) := by
          omega
        simp only [hrange]
    · by_cases hj : j = i
      · rw [hframe₂ j (.inl (by omega)), hj]
        exact ⟨hs₁, hn₁⟩
      · exact hfree₂ j (by omega) (by omega)
    · rw [hframe₂ j (by omega), hframe₁ j (by omega)]

/-- The pair `sched_lock_all`, `sched_unlock_all`. -/
theorem lockAll_unlockAll_eq (hl : l.Free) (hhere : here < l.cpuCount) :
    ∃ l₁ l₂, schedLockAll here l = .ok l₁ ∧ schedUnlockAll here l₁ = .ok l₂ ∧
      (Restored l l₂ ↔ l.interrupts = false ∨ here = 0) := by
  obtain ⟨l₁, h₁, hcount₁, -, hints₁, hheld, hframe₁⟩ :=
    lockFrom_eq here (i := 0) (n := l.cpuCount) (l := { l with globalLock := true })
      (by simp) (fun j _ hj => hl.spinlock j (by omega)) fun j _ hj => hl.nested j (by omega)
  obtain ⟨l₂, h₂, -, hints₂, hfree₂, hframe₂⟩ :=
    unlockFrom_eq here (i := 0) (n := l.cpuCount) (l := l₁) (by rw [hcount₁]; simp) hheld
  have hints : l₂.interrupts = l.interrupts ↔ l.interrupts = false ∨ here = 0 := by
    have hoff : l₁.interrupts = false := hints₁.trans (if_neg (Nat.ne_zero_of_lt hhere))
    have hrange : 0 ≤ here ∧ here < 0 + l.cpuCount := ⟨Nat.zero_le here, by omega⟩
    rw [hints₂, hoff]
    simp only [hrange, true_and, Locking.flag]
    cases l.interrupts <;> simp
  refine ⟨l₁, { l₂ with globalLock := false }, ?_, ?_, fun hr => hints.mp hr.interrupts, fun hor =>
    ⟨fun j => ?_, fun j => ?_, hl.global.symm, hints.mpr hor⟩⟩
  · rw [schedLockAll, hl.global]
    exact h₁
  · rw [schedUnlockAll, hcount₁, h₂]
    rfl
  · by_cases hj : j < l.cpuCount
    · rw [(hfree₂ j (Nat.zero_le j) (by omega)).1, hl.spinlock j hj]
    · rw [hframe₂ j (by omega), hframe₁ j (by omega)]
  · by_cases hj : j < l.cpuCount
    · rw [(hfree₂ j (Nat.zero_le j) (by omega)).2, hl.nested j hj]
    · rw [hframe₂ j (by omega), hframe₁ j (by omega)]

section
variable {τ : Type} [DecidableEq τ]

/-- `sub_queue` with its lock. -/
def subQueueLocked (here : ℕ) (l : Locking) (si : SchedulerInfo τ) (tr : τ) :
    Outcome (Locking × SchedulerInfo τ × ℤ) := do
  let l ← schedLock here l si.cpuId 0
  let r := subQueue si tr
  let l ← schedUnlock here l si.cpuId
  .ok (l, r)

/-- `sub_dequeue` with its lock. -/
def subDequeueLocked (here : ℕ) (current : Option τ) (l : Locking) (si : SchedulerInfo τ)
    (tr : τ) : Outcome (Locking × SchedulerInfo τ) := do
  assert (some tr ≠ current)
  let l ← schedLock here l si.cpuId (if si.cpuId = here then 0 else 1)
  let si' ← subDequeue current si tr
  let l ← schedUnlock here l si.cpuId
  .ok (l, si')

def queueLocked (here : ℕ) (l : Locking) (k : Cpus τ) (tr : τ) :
    Outcome (Locking × Cpus τ × ℤ) := do
  let t := k.threads tr
  let id ← homeCpu k t
  assert (t.cpu < 0)
  let k := k.setThread tr { t with cpu := id }
  let si ← k.at id
  let (l, si, rc) ← subQueueLocked here l si tr
  .ok (l, k.setSched id si, rc)

def dequeueLocked (here : ℕ) (current : Option τ) (l : Locking) (k : Cpus τ) (tr : τ) :
    Outcome (Locking × Cpus τ) := do
  let t := k.threads tr
  let id := t.cpu
  assert (0 ≤ t.cpu)
  let si ← k.at id
  let (l, si) ← subDequeueLocked here current l si tr
  .ok (l, (k.setSched id si).setThread tr { t with cpu := -1 })

def restartLocked (here : ℕ) (l : Locking) (k : Cpus τ) (tr : τ) : Outcome (Locking × Cpus τ) := do
  let id ← homeCpu k (k.threads tr)
  let l ← schedLock here l id (if id = here then 0 else 1)
  let k ← restart k tr
  let l ← schedUnlock here l id
  .ok (l, k)

def leaveQueueLocked (here : ℕ) (current : Option τ) (l : Locking) (k : Cpus τ) (tr : τ) :
    Outcome (Locking × Cpus τ) :=
  if (k.threads tr).state = THREAD_RUNNING then dequeueLocked here current l k tr else .ok (l, k)

def enterQueueLocked (here : ℕ) (l : Locking) (k : Cpus τ) (tr : τ) (state : ℕ) :
    Outcome (Locking × Cpus τ) :=
  if state = THREAD_RUNNING then do
    let (l, k, _) ← queueLocked here l k tr
    .ok (l, k)
  else .ok (l, k)

/-- `set_thread_state` with the locks of the functions it calls. -/
def setThreadStateLocked (here : ℕ) (current : Option τ) (l : Locking) (k : Cpus τ) (tr : τ)
    (state : ℕ) : Outcome (Locking × Cpus τ) :=
  let t := k.threads tr
  if t.state = int32 state then .ok (l, k)
  else if some tr = current then do
    assert (t.state = THREAD_RUNNING)
    let ei := l.flag
    let si ← k.at here
    let k := k.setSched here { si with requestingThread := some tr, requestingState := int32 state }
    .ok ({ l with interrupts := if ei ≠ 0 then true else false }, k)
  else if t.state = THREAD_DORMANT ∧ t.duration ≠ 0 then do
    assert (state = THREAD_RUNNING)
    restartLocked here l k tr
  else do
    let (l, k) ← leaveQueueLocked here current l k tr
    let k := k.setThread tr { k.threads tr with state := int32 state }
    enterQueueLocked here l k tr state

/-- The CPU whose scheduler `set_thread_state` locks, if it locks one: that of the thread if it
runs, else the one it is to run on. -/
def lockedCpu (current : Option τ) (k : Cpus τ) (tr : τ) (state : ℕ) : Option ℤ :=
  let t := k.threads tr
  if t.state = int32 state ∨ some tr = current then none
  else if t.state = THREAD_RUNNING then some t.cpu
  else if state = THREAD_RUNNING then (homeCpu k t).toOption
  else none

/-- Every record names its own CPU. -/
def Cpus.Numbered (k : Cpus τ) : Prop := ∀ id, (k.sched id).cpuId = id

variable {k k' : Cpus τ} {current : Option τ} {tr : τ} {id : ℤ} {l₁ l₂ : Locking}

omit [DecidableEq τ] in
theorem Cpus.Numbered.at_eq (hk : k.Numbered) {si : SchedulerInfo τ} (h : k.at id = .ok si) :
    (si.cpuId : ℤ) = id := by
  rw [Cpus.at] at h
  split_ifs at h with hid
  cases h
  rw [hk]
  omega

omit [DecidableEq τ] in
theorem Locking.Free.pair (hl : l.Free) {complete : ℤ} (h₁ : schedLock here l id complete = .ok l₁)
    (h₂ : schedUnlock here l₁ id = .ok l₂) :
    Restored l l₂ ↔ l.interrupts = false ∨ id = here := by
  obtain ⟨_, hrange, h⟩ := bind_eq_ok.mp h₁
  obtain ⟨_, hc, -⟩ := bind_eq_ok.mp h
  obtain ⟨h0, hlt⟩ := assert_eq_ok.mp hrange
  obtain ⟨i, rfl⟩ := Int.eq_ofNat_of_zero_le h0
  have hi : i < l.cpuCount := by omega
  obtain ⟨m₁, m₂, hm₁, hm₂, hiff⟩ :=
    lock_unlock_eq hi (assert_eq_ok.mp hc) (hl.spinlock i hi) (hl.nested i hi)
  rw [h₁] at hm₁
  cases hm₁
  rw [h₂] at hm₂
  cases hm₂
  rw [hiff, Nat.cast_inj, eq_comm (a := here)]

theorem queueLocked_eq (hl : l.Free) (hk : k.Numbered) {rc : ℤ}
    (h : queueLocked here l k tr = .ok (l', k', rc)) :
    queue k tr = .ok (k', rc) ∧ ∃ id, homeCpu k (k.threads tr) = .ok id ∧
      (Restored l l' ↔ l.interrupts = false ∨ id = here) := by
  obtain ⟨id, hhome, h⟩ := bind_eq_ok.mp h
  obtain ⟨_, hcpu, h⟩ := bind_eq_ok.mp h
  obtain ⟨si, hsi, h⟩ := bind_eq_ok.mp h
  obtain ⟨⟨m, r⟩, hr, h⟩ := bind_eq_ok.mp h
  cases h
  obtain ⟨l₁, h₁, hr⟩ := bind_eq_ok.mp hr
  obtain ⟨l₂, h₂, hr⟩ := bind_eq_ok.mp hr
  cases hr
  have hid := hk.at_eq (k := k) hsi
  rw [hid] at h₁ h₂
  refine ⟨?_, id, hhome, hl.pair h₁ h₂⟩
  rw [queue]
  dsimp only
  rw [hhome, ok_bind, hcpu, ok_bind, hsi]
  rfl

theorem dequeueLocked_eq (hl : l.Free) (hk : k.Numbered)
    (h : dequeueLocked here current l k tr = .ok (l', k')) :
    dequeue current k tr = .ok k' ∧
      (Restored l l' ↔ l.interrupts = false ∨ (k.threads tr).cpu = here) := by
  obtain ⟨_, hcpu, h⟩ := bind_eq_ok.mp h
  obtain ⟨si, hsi, h⟩ := bind_eq_ok.mp h
  obtain ⟨⟨m, si'⟩, hr, h⟩ := bind_eq_ok.mp h
  cases h
  obtain ⟨_, hcur, hr⟩ := bind_eq_ok.mp hr
  obtain ⟨l₁, h₁, hr⟩ := bind_eq_ok.mp hr
  obtain ⟨si₂, hsub, hr⟩ := bind_eq_ok.mp hr
  obtain ⟨l₂, h₂, hr⟩ := bind_eq_ok.mp hr
  cases hr
  rw [hk.at_eq hsi] at h₁ h₂
  refine ⟨?_, hl.pair h₁ h₂⟩
  rw [dequeue, hcpu, ok_bind, hsi, ok_bind, hsub]
  rfl

theorem restartLocked_eq (hl : l.Free) (h : restartLocked here l k tr = .ok (l', k')) :
    restart k tr = .ok k' ∧ ∃ id, homeCpu k (k.threads tr) = .ok id ∧
      (Restored l l' ↔ l.interrupts = false ∨ id = here) := by
  obtain ⟨id, hhome, h⟩ := bind_eq_ok.mp h
  obtain ⟨l₁, h₁, h⟩ := bind_eq_ok.mp h
  obtain ⟨k₁, hk, h⟩ := bind_eq_ok.mp h
  obtain ⟨l₂, h₂, h⟩ := bind_eq_ok.mp h
  cases h
  exact ⟨hk, id, hhome, hl.pair h₁ h₂⟩

omit [DecidableEq τ] in
theorem forall_some_eq (id : ℤ) : id = here ↔ ∀ i, some id = some i → i = here :=
  ⟨fun he _ hi => Option.some.inj hi ▸ he, fun h => h id rfl⟩

omit [DecidableEq τ] in
theorem Restored.refl (l : Locking) : Restored l l :=
  ⟨fun _ => rfl, fun _ => rfl, rfl, rfl⟩

omit [DecidableEq τ] in
/-- A thread that asks for a state of its own only brackets the request. -/
theorem Restored.request (l : Locking) :
    Restored l { l with interrupts := if l.flag ≠ 0 then true else false } := by
  refine ⟨fun _ => rfl, fun _ => rfl, rfl, ?_⟩
  unfold Locking.flag
  cases l.interrupts <;> rfl

/-- `set_thread_state` gives the flag back unless it locks another CPU. -/
theorem setThreadStateLocked_eq (hl : l.Free) (hk : k.Numbered) {state : ℕ}
    (h : setThreadStateLocked here current l k tr state = .ok (l', k')) :
    setThreadState here current k tr state = .ok k' ∧ (Restored l l' ↔
      l.interrupts = false ∨ ∀ id, lockedCpu current k tr state = some id → id = here) := by
  rw [setThreadStateLocked] at h
  rw [setThreadState, lockedCpu]
  dsimp only at h ⊢
  by_cases hsame : (k.threads tr).state = int32 state
  · rw [if_pos hsame] at h ⊢
    cases h
    rw [if_pos (.inl hsame)]
    exact ⟨rfl, iff_of_true (.refl l) (.inr (by simp))⟩
  rw [if_neg hsame] at h ⊢
  by_cases hself : some tr = current
  · rw [if_pos hself] at h ⊢
    obtain ⟨_, hrun, h⟩ := bind_eq_ok.mp h
    obtain ⟨si, hsi, h⟩ := bind_eq_ok.mp h
    cases h
    rw [hrun, ok_bind, hsi, if_pos (Or.inr hself : _ ∨ some tr = current)]
    exact ⟨rfl, iff_of_true (.request l) (.inr (by simp))⟩
  rw [if_neg hself] at h ⊢
  rw [if_neg (not_or.mpr ⟨hsame, hself⟩)]
  by_cases hsleep : (k.threads tr).state = THREAD_DORMANT ∧ (k.threads tr).duration ≠ 0
  · rw [if_pos hsleep] at h ⊢
    obtain ⟨_, hrun, h⟩ := bind_eq_ok.mp h
    obtain ⟨hr, id, hhome, hiff⟩ := restartLocked_eq hl h
    rw [hrun, ok_bind, if_neg (by rw [hsleep.1]; decide), if_pos (assert_eq_ok.mp hrun), hhome]
    exact ⟨hr, hiff.trans (or_congr_right (forall_some_eq id))⟩
  rw [if_neg hsleep] at h ⊢
  obtain ⟨⟨l₁, k₁⟩, hleave, h⟩ := bind_eq_ok.mp h
  rw [leaveQueueLocked] at hleave
  rw [enterQueueLocked] at h
  by_cases hrun : (k.threads tr).state = THREAD_RUNNING
  · rw [if_pos hrun] at hleave
    obtain ⟨hdeq, hiff⟩ := dequeueLocked_eq hl hk hleave
    have hstate : state ≠ THREAD_RUNNING := by
      rintro rfl
      exact hsame (hrun.trans ((Placed.int32_eq_running (by decide)).mpr rfl).symm)
    rw [if_neg hstate] at h
    cases h
    rw [leaveQueue, if_pos hrun, hdeq, ok_bind, enterQueue, if_neg hstate, if_pos hrun]
    exact ⟨rfl, hiff.trans (or_congr_right (forall_some_eq _))⟩
  · rw [if_neg hrun] at hleave
    cases hleave
    rw [leaveQueue, if_neg hrun, ok_bind, enterQueue, if_neg hrun]
    by_cases hstate : state = THREAD_RUNNING
    · rw [if_pos hstate] at h ⊢
      obtain ⟨⟨l₂, k₂, rc⟩, hq, h⟩ := bind_eq_ok.mp h
      cases h
      obtain ⟨hq, id, hhome, hiff⟩ := queueLocked_eq (k := k.setThread tr _) hl hk hq
      have hid : homeCpu k (k.threads tr) = .ok id := by
        rw [← hhome, Cpus.setThread_self]
        exact homeCpu_congr rfl rfl rfl
      rw [hq, if_pos hstate, hid]
      exact ⟨rfl, hiff.trans (or_congr_right (forall_some_eq id))⟩
    · rw [if_neg hstate] at h ⊢
      cases h
      rw [if_neg hstate]
      exact ⟨rfl, iff_of_true (.refl l) (.inr (by simp))⟩

/-- The flag comes back where it was found clear, where one CPU is locked and is the calling one,
and where all are locked and the calling one is the first. -/
theorem interrupts_restored (hl : l.Free) (hhere : here < l.cpuCount) :
    (∀ (id : ℕ) (complete : ℤ), id < l.cpuCount → ¬((here : ℤ) = id ∧ complete = 1) →
      ∃ l₁ l₂, schedLock here l id complete = .ok l₁ ∧ schedUnlock here l₁ id = .ok l₂ ∧
        (Restored l l₂ ↔ l.interrupts = false ∨ here = id)) ∧
    (∃ l₁ l₂, schedLockAll here l = .ok l₁ ∧ schedUnlockAll here l₁ = .ok l₂ ∧
      (Restored l l₂ ↔ l.interrupts = false ∨ here = 0)) ∧
    ∀ (current : Option τ) (k k' : Cpus τ) (tr : τ) (state : ℕ) (l' : Locking), k.Numbered →
      setThreadStateLocked here current l k tr state = .ok (l', k') →
        (Restored l l' ↔
          l.interrupts = false ∨ ∀ id, lockedCpu current k tr state = some id → id = here) :=
  ⟨fun id _ hid hc => lock_unlock_eq hid hc (hl.spinlock id hid) (hl.nested id hid),
    lockAll_unlockAll_eq hl hhere, fun _ _ _ _ _ _ hk h => (setThreadStateLocked_eq hl hk h).2⟩

end

/-- Two CPUs, neither locked, interrupts enabled. -/
def twoCpus : Locking := ⟨fun _ => ⟨false, 0, 0, 0, 0⟩, 2, false, true, []⟩

theorem twoCpus_free : twoCpus.Free := ⟨fun _ _ => rfl, fun _ _ => rfl, rfl⟩

theorem interrupts_restored_twoCpus :
    ∃ l₁ l₂, schedLock 0 twoCpus 0 0 = .ok l₁ ∧ schedUnlock 0 l₁ 0 = .ok l₂ ∧
      (Restored twoCpus l₂ ↔ twoCpus.interrupts = false ∨ 0 = 0) :=
  (interrupts_restored (τ := ℕ) twoCpus_free (by decide)).1 0 0 (by decide) (by decide)

/-- CPU 1 locks CPU 0, or both, with interrupts enabled and is left with interrupts disabled. -/
theorem interrupts_lost :
    (∃ l₁ l₂, schedLock 1 twoCpus 0 1 = .ok l₁ ∧ schedUnlock 1 l₁ 0 = .ok l₂ ∧
      twoCpus.interrupts = true ∧ l₂.interrupts = false) ∧
    ∃ l₁ l₂, schedLockAll 1 twoCpus = .ok l₁ ∧ schedUnlockAll 1 l₁ = .ok l₂ ∧
      l₂.interrupts = false :=
  ⟨⟨_, _, rfl, rfl, rfl, rfl⟩, _, _, rfl, rfl, rfl⟩

end Racoon.Scheduler
