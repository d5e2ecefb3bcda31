import Racoon.Gc.Collector

/-!
# Every lock is given back

The counts of the process-list lock and of the locks of the processes after the
collector has dealt with an entry of its queue. In between it holds the list as
a reader and one process as a writer; nothing that it does to threads touches a
lock. Only the look-up of a thread that is gone returns with both locks held.
-/

namespace Racoon.Gc
open Families HashTables RwLocks

/-- The locks are counted as in `k`; those of processes that have gone do not matter. -/
structure GivenBack (k k' : Kernel) : Prop where
  list : counts k'.processLock = counts k.processLock
  own : ∀ a p p', k.processes a = some p → k'.processes a = some p' →
    counts p'.lock = counts p.lock

/-- What the other threads do between two rounds: they give back what they take. -/
structure Others (k : Kernel) where
  elapse : ℕ → Kernel → Kernel
  keeps : ∀ n k', GivenBack k k' → GivenBack k (elapse n k')

/-- The counts are values of type `unsigned int`. -/
structure Kernel.InRange (k : Kernel) : Prop where
  list : k.processLock.numReaders < 2 ^ 32
  own : ∀ a p, k.processes a = some p → p.lock.numReaders < 2 ^ 32

/-- The process exists and can be checked out, and it has no such thread. -/
def ThreadMissing (k : Kernel) (pid tid : ℤ) : Prop :=
  (k.processLock.numWriters = 0 ∧ k.processLock.writeRequest = 0) ∧
  ∃ a p, k.findProcess pid = .ok (some a) ∧ k.processes a = some p ∧
    (p.lock.numReaders = 0 ∧ p.lock.numWriters = 0) ∧ getThread k p tid = .ok none

/-- The locks alone. -/
def Kernel.locks (k : Kernel) : Rwlock × (ℕ → Option Rwlock) :=
  (k.processLock, fun a => (k.processes a).map Process.lock)

/-- The list is held as a reader and the process as a writer, the other locks are as in `k`. -/
structure Held (k : Kernel) (a : ℕ) (k' : Kernel) : Prop where
  list : ∃ rw, counts rw = counts k.processLock ∧ rwlockGet .reader rw = .ok k'.processLock
  own : ∃ p' rw, k'.processes a = some p' ∧ rwlockGet .writer rw = .ok p'.lock ∧
    ∀ p, k.processes a = some p → counts rw = counts p.lock
  others : ∀ b, b ≠ a → ∀ p p', k.processes b = some p → k'.processes b = some p' →
    counts p'.lock = counts p.lock

section
variable {g : Setting} {k k' k₀ : Kernel} {a : ℕ} {p : Process} {pid tid rc : ℤ}

theorem setProcess_locks {p' : Process} (h : k.processes a = some p) (hl : p'.lock = p.lock) :
    (k.setProcess a p').locks = k.locks := by
  refine Prod.ext rfl (funext fun b => ?_)
  by_cases hb : b = a
  · subst hb
    simp [Kernel.locks, Kernel.setProcess, h, hl]
  · simp [Kernel.locks, Kernel.setProcess, Function.update_of_ne hb]

theorem exists_lock (h : k'.locks = k.locks) {p' : Process} (hp : k'.processes a = some p') :
    ∃ p, k.processes a = some p ∧ p.lock = p'.lock := by
  have := congrFun (congrArg Prod.snd h) a
  simp only [Kernel.locks, hp, Option.map_some] at this
  obtain ⟨p, hp, hl⟩ := Option.map_eq_some_iff.mp this.symm
  exact ⟨p, hp, hl⟩

theorem deleteThread_locks {tr : ℕ} (h : deleteThread g k tr = .ok (k', rc)) :
    k'.locks = k.locks := by
  unfold deleteThread at h
  obtain ⟨t, -, h⟩ := bind_eq_ok.mp h
  obtain ⟨-, -, h⟩ := bind_eq_ok.mp h
  obtain ⟨a, -, h⟩ := bind_eq_ok.mp h
  obtain ⟨p, hp, h⟩ := bind_eq_ok.mp h
  obtain ⟨⟨table, _⟩, -, h⟩ := bind_eq_ok.mp h
  obtain ⟨-, -, h⟩ := bind_eq_ok.mp h
  obtain ⟨⟨tree, next⟩, -, h⟩ := bind_eq_ok.mp h
  obtain ⟨x, -, h⟩ := bind_eq_ok.mp h
  obtain ⟨-, -, h⟩ := bind_eq_ok.mp h
  cases h
  exact setProcess_locks (deref_eq_ok.mp hp) rfl

theorem setState_locks {tr state : ℕ} (h : setState g k tr state = .ok k') :
    k'.locks = k.locks := by
  obtain ⟨cpus, -, h⟩ := bind_eq_ok.mp h
  cases h
  rfl

theorem rouseFrom_locks {left : ℕ} {tr : Option ℕ} (h : rouseFrom g left k tr = .ok k') :
    k'.locks = k.locks := by
  induction left generalizing k tr with
  | zero =>
    cases tr with
    | none =>
      cases h
      rfl
    | some tr => cases h
  | succ left ih =>
    cases tr with
    | none =>
      cases h
      rfl
    | some tr =>
      rw [rouseFrom] at h
      obtain ⟨-, -, h⟩ := bind_eq_ok.mp h
      obtain ⟨k₁, h₁, h⟩ := bind_eq_ok.mp h
      obtain ⟨x, -, h⟩ := bind_eq_ok.mp h
      rw [ih h]
      unfold rouse at h₁
      split at h₁
      · exact setState_locks h₁
      · cases h₁
        rfl

theorem deleteThreads_locks {left : ℕ} (h : deleteThreads g a left k = .ok k') :
    k'.locks = k.locks := by
  induction left generalizing k with
  | zero => cases h
  | succ left ih =>
    rw [deleteThreads] at h
    obtain ⟨p, -, h⟩ := bind_eq_ok.mp h
    cases hp : p.threads with
    | none =>
      rw [hp] at h
      cases h
      rfl
    | some tr =>
      rw [hp] at h
      obtain ⟨k₁, h₁, h⟩ := bind_eq_ok.mp h
      obtain ⟨⟨k₂, rc⟩, h₂, h⟩ := bind_eq_ok.mp h
      obtain ⟨-, -, h⟩ := bind_eq_ok.mp h
      rw [ih h, deleteThread_locks h₂, setState_locks h₁]

theorem Held.congr (h : Held k₀ a k) (hl : k'.locks = k.locks) : Held k₀ a k' := by
  have hlist : k'.processLock = k.processLock := congrArg Prod.fst hl
  obtain ⟨p, rw', hp, hget, hc⟩ := h.own
  obtain ⟨p', hp', hlock⟩ := exists_lock hl.symm hp
  refine ⟨hlist ▸ h.list, ⟨p', rw', hp', hlock ▸ hget, hc⟩, fun b hb q q' hq hq' => ?_⟩
  obtain ⟨q₁, hq₁, he⟩ := exists_lock hl hq'
  rw [← he]
  exact h.others b hb q q₁ hq hq₁

/-- What `checkout_process` takes. -/
theorem checkoutProcess_cases {proc : Option ℕ} (hr : k₀.InRange) (hk : GivenBack k₀ k)
    (h : checkoutProcess k pid .writer = .ok (k', proc)) :
    (proc = none ∧ GivenBack k₀ k') ∨ ∃ a, proc = some a ∧ Held k₀ a k' := by
  unfold checkoutProcess at h
  obtain ⟨lock, hlock, h⟩ := bind_eq_ok.mp h
  obtain ⟨found, -, h⟩ := bind_eq_ok.mp h
  have hb : k.processLock.numReaders < 2 ^ 32 := readers_lt hk.list hr.list
  cases found with
  | none =>
    cases h
    have hc : counts (rwlockRelease lock) = counts k.processLock :=
      counts_release (r := .reader) hb hlock
    exact .inl ⟨rfl, ⟨hc.trans hk.list, hk.own⟩⟩
  | some a =>
    obtain ⟨p, hp, h⟩ := bind_eq_ok.mp h
    obtain ⟨own, hown, h⟩ := bind_eq_ok.mp h
    have hp := deref_eq_ok.mp hp
    cases h
    refine .inr ⟨a, rfl, ⟨k.processLock, hk.list, hlock⟩, ?_, fun b hb q q' hq hq' => ?_⟩
    · exact ⟨_, p.lock, Function.update_self .., hown, fun q hq => hk.own a q p hq hp⟩
    · simp only [Kernel.setProcess, Function.update_of_ne hb] at hq'
      exact hk.own b q q' hq hq'

theorem Held.releaseProcesses (hr : k₀.InRange) (h : Held k₀ a k) :
    counts (releaseProcesses k).processLock = counts k₀.processLock := by
  obtain ⟨rw', hc, hget⟩ := h.list
  have hb : rw'.numReaders < 2 ^ 32 := readers_lt hc hr.list
  exact (counts_release hb hget).trans hc

theorem Held.commitProcess (hr : k₀.InRange) (h : Held k₀ a k)
    (hok : commitProcess k a = .ok k') : GivenBack k₀ k' := by
  obtain ⟨p', rw', hp', hget, hc⟩ := h.own
  unfold Gc.commitProcess at hok
  rw [hp'] at hok
  cases hok
  have hlist := h.releaseProcesses hr
  refine ⟨hlist, fun b q q' hq hq' => ?_⟩
  simp only [Gc.releaseProcesses, Kernel.setProcess] at hq'
  by_cases hb : b = a
  · subst hb
    rw [Function.update_self, Option.some.injEq] at hq'
    subst hq'
    have hbound : rw'.numReaders < 2 ^ 32 := readers_lt (hc q hq) (hr.own b q hq)
    exact (counts_release hbound hget).trans (hc q hq)
  · rw [Function.update_of_ne hb] at hq'
    exact h.others b hb q q' hq hq'

/-- With the list given back, the process is taken out of it and freed. -/
theorem Held.remove (hr : k₀.InRange) (h : Held k₀ a k) {k₁ : Kernel}
    (h₁ : removeProcess g (Gc.releaseProcesses k) a = .ok k₁) (h₂ : deleteProcess k₁ a = .ok k') :
    GivenBack k₀ k' := by
  have hlist := h.releaseProcesses hr
  unfold removeProcess at h₁
  obtain ⟨lock, hlock, h₁⟩ := bind_eq_ok.mp h₁
  obtain ⟨x, -, h₁⟩ := bind_eq_ok.mp h₁
  obtain ⟨-, -, h₁⟩ := bind_eq_ok.mp h₁
  obtain ⟨parent, -, h₁⟩ := bind_eq_ok.mp h₁
  obtain ⟨tree₁, -, h₁⟩ := bind_eq_ok.mp h₁
  obtain ⟨tree₂, -, h₁⟩ := bind_eq_ok.mp h₁
  obtain ⟨tree₃, -, h₁⟩ := bind_eq_ok.mp h₁
  obtain ⟨p, -, h₁⟩ := bind_eq_ok.mp h₁
  obtain ⟨⟨table, _⟩, -, h₁⟩ := bind_eq_ok.mp h₁
  cases h₁
  unfold deleteProcess at h₂
  obtain ⟨-, -, h₂⟩ := bind_eq_ok.mp h₂
  cases h₂
  refine ⟨?_, fun b q q' hq hq' => ?_⟩
  · have hb : (Gc.releaseProcesses k).processLock.numReaders < 2 ^ 32 :=
      readers_lt hlist hr.list
    exact (counts_release (r := .writer) hb hlock).trans hlist
  · dsimp only at hq'
    by_cases hb : b = a
    · rw [hb, Function.update_self] at hq'
      cases hq'
    · rw [Function.update_of_ne hb] at hq'
      exact h.others b hb q q' hq hq'

theorem awaitThreads_cases {others : Others k₀} {left round : ℕ} {proc : Option ℕ}
    (hr : k₀.InRange) (hk : GivenBack k₀ k)
    (h : awaitThreads g others.elapse pid left round k = .ok (k', proc)) :
    (proc = none ∧ GivenBack k₀ k') ∨ ∃ a, proc = some a ∧ Held k₀ a k' := by
  induction left generalizing k round with
  | zero => cases h
  | succ left ih =>
    rw [awaitThreads] at h
    obtain ⟨⟨k₁, found⟩, h₁, h⟩ := bind_eq_ok.mp h
    obtain ⟨rfl, hback⟩ | ⟨a, rfl, hheld⟩ := checkoutProcess_cases hr hk h₁
    · cases h
      exact .inl ⟨rfl, hback⟩
    · obtain ⟨p, -, h⟩ := bind_eq_ok.mp h
      obtain ⟨-, -, h⟩ := bind_eq_ok.mp h
      by_cases hz : p.kernelThreads = 0
      · rw [if_pos hz] at h
        cases h
        exact .inr ⟨a, rfl, hheld⟩
      · rw [if_neg hz] at h
        obtain ⟨k₂, h₂, h⟩ := bind_eq_ok.mp h
        obtain ⟨k₃, h₃, h⟩ := bind_eq_ok.mp h
        exact ih (others.keeps round k₃ ((hheld.congr (rouseFrom_locks h₂)).commitProcess hr h₃)) h

theorem GivenBack.refl (k : Kernel) : GivenBack k k :=
  ⟨rfl, fun a p p' hp hp' => by rw [Option.some.inj (hp'.symm.trans hp)]⟩

theorem gcDoProcess_givesBack {others : Others k} (hr : k.InRange)
    (h : gcDoProcess g others.elapse k pid = .ok (k', rc)) : GivenBack k k' := by
  unfold gcDoProcess at h
  obtain ⟨⟨k₁, proc⟩, h₁, h⟩ := bind_eq_ok.mp h
  obtain ⟨rfl, hback⟩ | ⟨a, rfl, hheld⟩ := awaitThreads_cases hr (GivenBack.refl k) h₁
  · cases h
    exact hback
  · obtain ⟨k₂, h₂, h⟩ := bind_eq_ok.mp h
    obtain ⟨k₃, h₃, h⟩ := bind_eq_ok.mp h
    obtain ⟨k₄, h₄, h⟩ := bind_eq_ok.mp h
    cases h
    exact (hheld.congr (deleteThreads_locks h₂)).remove hr h₃ h₄

/-- A thread that is found, and a process that is not, leave the locks as they were. -/
theorem gcDoThread_cases (hr : k.InRange) (h : gcDoThread g k pid tid = .ok (k', rc)) :
    GivenBack k k' ∨ ∃ a p, checkoutProcess k pid .writer = .ok (k', some a) ∧
      k'.processes a = some p ∧ getThread k' p tid = .ok none := by
  unfold gcDoThread at h
  obtain ⟨⟨k₁, proc⟩, h₁, h⟩ := bind_eq_ok.mp h
  obtain ⟨rfl, hback⟩ | ⟨a, rfl, hheld⟩ := checkoutProcess_cases hr (GivenBack.refl k) h₁
  · cases h
    exact .inl hback
  · obtain ⟨p, hp, h⟩ := bind_eq_ok.mp h
    obtain ⟨found, hfound, h⟩ := bind_eq_ok.mp h
    cases found with
    | none =>
      cases h
      exact .inr ⟨a, p, h₁, deref_eq_ok.mp hp, hfound⟩
    | some tr =>
      obtain ⟨-, -, h⟩ := bind_eq_ok.mp h
      obtain ⟨-, -, h⟩ := bind_eq_ok.mp h
      obtain ⟨⟨k₂, rc₂⟩, h₂, h⟩ := bind_eq_ok.mp h
      obtain ⟨-, -, h⟩ := bind_eq_ok.mp h
      obtain ⟨k₃, h₃, h⟩ := bind_eq_ok.mp h
      cases h
      exact .inl ((hheld.congr (deleteThread_locks h₂)).commitProcess hr h₃)

/-- A look-up does not read the locks. -/
theorem findProcess_withLock (k : Kernel) (rw : Rwlock) (pid : ℤ) :
    Kernel.findProcess { k with processLock := rw } pid = k.findProcess pid := rfl

theorem getThread_checkedOut (k : Kernel) (rw rw' : Rwlock) (a : ℕ) (p : Process) (tid : ℤ) :
    getThread ({ k with processLock := rw }.setProcess a { p with lock := rw' })
      { p with lock := rw' } tid = getThread k p tid := rfl

/-- The check-out that precedes a look-up in vain. -/
theorem threadMissing_iff : ThreadMissing k pid tid ↔
    ∃ k' a p, checkoutProcess k pid .writer = .ok (k', some a) ∧ k'.processes a = some p ∧
      getThread k' p tid = .ok none := by
  unfold checkoutProcess
  constructor
  · rintro ⟨hread, a, p, hfind, hp, hwrite, hnone⟩
    have hget := rwlockGetReadAccess_eq_ok.mpr ⟨hread, rfl⟩
    have hown := rwlockGetWriteAccess_eq_ok.mpr ⟨hwrite, rfl⟩
    rw [hget, ok_bind]
    dsimp only
    rw [findProcess_withLock, hfind, ok_bind]
    dsimp only
    rw [hp, deref_some, ok_bind, rwlockGet, hown, ok_bind]
    refine ⟨_, a, _, rfl, Function.update_self .., ?_⟩
    rw [getThread_checkedOut]
    exact hnone
  · rintro ⟨k', a, p, h, hp, hnone⟩
    obtain ⟨lock, hlock, h⟩ := bind_eq_ok.mp h
    obtain ⟨found, hfound, h⟩ := bind_eq_ok.mp h
    cases found with
    | none => cases h
    | some b =>
      obtain ⟨q, hq, h⟩ := bind_eq_ok.mp h
      obtain ⟨own, hown, h⟩ := bind_eq_ok.mp h
      cases h
      have hp := Option.some.inj (hp.symm.trans (Function.update_self ..))
      subst hp
      rw [findProcess_withLock] at hfound
      rw [getThread_checkedOut] at hnone
      exact ⟨(rwlockGetReadAccess_eq_ok.mp hlock).1, a, q, hfound, deref_eq_ok.mp hq,
        (rwlockGetWriteAccess_eq_ok.mp hown).1, hnone⟩

theorem not_givenBack_of_missing (g : Setting) (h : ThreadMissing k pid tid) :
    ∃ k', gcDoThread g k pid tid = .ok (k', -1) ∧ ¬ GivenBack k k' := by
  obtain ⟨k', a, p, hout, hp, hnone⟩ := threadMissing_iff.mp h
  refine ⟨k', ?_, fun hback => ?_⟩
  · rw [gcDoThread, hout, ok_bind]
    dsimp only
    rw [hp, deref_some, ok_bind, hnone, ok_bind]
  · unfold checkoutProcess at hout
    obtain ⟨lock, hlock, hout⟩ := bind_eq_ok.mp hout
    obtain ⟨found, -, hout⟩ := bind_eq_ok.mp hout
    cases found with
    | none => cases hout
    | some b =>
      obtain ⟨q, -, hout⟩ := bind_eq_ok.mp hout
      obtain ⟨own, -, hout⟩ := bind_eq_ok.mp hout
      cases hout
      exact counts_get_ne (r := .reader) hlock hback.list

end

/-- Exactly when the collector gives back every lock, whatever entry it deals with and whatever
happens while it waits. -/
theorem gc_gives_back_iff (k : Kernel) (hk : k.InRange) (others : Others k) (pid tid : ℤ) :
    (∀ g k' rc, gcDestroy g others.elapse k pid tid = .ok (k', rc) → GivenBack k k') ↔
      (0 ≤ tid → ¬ ThreadMissing k pid tid) := by
  constructor
  · intro h htid hmissing
    let g : Setting := ⟨0, none, fun _ _ => false, 0⟩
    obtain ⟨k', hok, hne⟩ := not_givenBack_of_missing g hmissing
    apply hne
    apply h g k' (-1)
    rwa [gcDestroy, if_neg (not_lt.mpr htid)]
  · intro h g k' rc hok
    unfold gcDestroy at hok
    by_cases htid : tid < 0
    · rw [if_pos htid] at hok
      exact gcDoProcess_givesBack hk hok
    · rw [if_neg htid] at hok
      obtain hback | hmissing := gcDoThread_cases hk hok
      · exact hback
      · obtain ⟨a, p, hout, hp, hnone⟩ := hmissing
        exact absurd (threadMissing_iff.mpr ⟨k', a, p, hout, hp, hnone⟩) (h (not_lt.mp htid))

section Examples

/-- While the collector waits nothing happens. -/
def still (k : Kernel) : Others k := ⟨fun _ k' => k', fun _ _ h => h⟩

/-- A hash table of two slots. -/
def twoSlots (first second : Option (Option ℕ)) (total : ℕ) : Counted (Option ℕ) :=
  ⟨⟨fun _ _ => 0, fun _ => 0, total, 2, 75, fun i => if i = 0 then first else second⟩, 0⟩

def parentAndChild : Kin := fun a =>
  if a = 100 then some ⟨none, some 200, none, none, none, some 200⟩
  else if a = 200 then some ⟨some 100, none, none, none, some 100, none⟩
  else none

/-- Process 2, at address 200, is a child of process 1 and has the thread 6, at address 300, which
is finished. -/
def twoProcesses : Kernel where
  processLock := initRwlock
  processTable := twoSlots (some (some 100)) (some (some 200)) 2
  processes a :=
    if a = 100 then some ⟨⟨1, fun _ => 0⟩, initRwlock, 0, none, twoSlots none none 0, 0, 0⟩
    else if a = 200 then some ⟨⟨2, fun _ => 0⟩, initRwlock, PROCESS_FINISHING, some 300,
      twoSlots (some (some 300)) none 1, 1, 0⟩
    else none
  processTree := parentAndChild
  threads a := if a = 300 then some ⟨⟨fun _ => 0, 6⟩, some 200⟩ else none
  threadTree a := if a = 300 then some untied else none
  cpus := ⟨fun _ => Scheduler.loadScheduler 0 fun _ => ⟨none, 0, 0, 0⟩, 1,
    fun _ => ⟨⟨THREAD_FINISHED, 0, 0⟩, 0, 0⟩⟩

theorem twoProcesses_inRange : twoProcesses.InRange where
  list := by decide
  own a p hp := by
    simp only [twoProcesses] at hp
    split_ifs at hp <;> cases hp <;> decide

/-- The thread is deleted, and so is the process with the thread. -/
theorem gc_gives_back_twoProcesses :
    (∃ k', gcDestroy ⟨0, none, fun _ _ => false, 2⟩ (still twoProcesses).elapse twoProcesses 2 6 =
      .ok (k', 0) ∧ k'.threads 300 = none ∧ GivenBack twoProcesses k') ∧
    ∃ k', gcDestroy ⟨0, none, fun _ _ => false, 2⟩ (still twoProcesses).elapse twoProcesses 2 (-1) =
      .ok (k', 0) ∧ k'.processes 200 = none ∧ GivenBack twoProcesses k' := by
  have hpresent : ¬ ThreadMissing twoProcesses 2 6 := by
    rintro ⟨-, a, p, hfind, hp, -, hnone⟩
    cases hfind
    cases hp
    cases hnone
  have hthread := (gc_gives_back_iff twoProcesses twoProcesses_inRange (still twoProcesses) 2 6).mpr
    fun _ => hpresent
  have hprocess := (gc_gives_back_iff twoProcesses twoProcesses_inRange (still twoProcesses) 2
    (-1)).mpr fun h => absurd h (by decide)
  constructor
  · obtain ⟨k', hk, hgone⟩ : ∃ k', gcDestroy ⟨0, none, fun _ _ => false, 2⟩
        (still twoProcesses).elapse twoProcesses 2 6 = .ok (k', 0) ∧ k'.threads 300 = none :=
      ⟨_, rfl, rfl⟩
    exact ⟨k', hk, hgone, hthread _ _ _ hk⟩
  · obtain ⟨k', hk, hgone⟩ : ∃ k', gcDestroy ⟨0, none, fun _ _ => false, 2⟩
        (still twoProcesses).elapse twoProcesses 2 (-1) = .ok (k', 0) ∧ k'.processes 200 = none :=
      ⟨_, rfl, rfl⟩
    exact ⟨k', hk, hgone, hprocess _ _ _ hk⟩

/-- Process 2 has no thread 5: both locks stay taken. -/
theorem missing_thread_keeps_locks : ∃ k', gcDestroy ⟨0, none, fun _ _ => false, 0⟩
    (still twoProcesses).elapse twoProcesses 2 5 = .ok (k', -1) ∧ ¬ GivenBack twoProcesses k' := by
  have hmissing : ThreadMissing twoProcesses 2 5 :=
    ⟨⟨rfl, rfl⟩, 200, _, rfl, rfl, ⟨rfl, rfl⟩, rfl⟩
  exact not_givenBack_of_missing _ hmissing

end Examples

end Racoon.Gc
