import Racoon.Scheduler.RunQueue

/-!
# Thread states and the run queues

`set_thread_state` moves a thread between the run queues of the CPUs and no
queue at all. A run queue has 1024 slots and refuses further threads; the refusal
gets lost, and the thread is taken for runnable without a slot. As long as every
thread set running finds room, the runnable threads are those in a queue.
-/

namespace Racoon.Scheduler
open Lib
variable {τ : Type}

def THREAD_RUNNING : ℕ := 1
def THREAD_SUSPENDED : ℕ := 2
def THREAD_DORMANT : ℕ := 3
def MAX_CPU : ℕ := 8

/-- The fields of `struct thread` that place it on a CPU. -/
structure PlacedThread extends Thread where
  tid : ℤ
  cpuAffinity : ℤ

/-- The array `cpu`, of which the schedulers are looked at, and the threads. -/
structure Cpus (τ : Type) where
  sched : ℕ → SchedulerInfo τ
  cpuCount : ℕ
  threads : τ → PlacedThread

/-- `cpu[ id ].sched` -/
def Cpus.at (k : Cpus τ) (id : ℤ) : Outcome (SchedulerInfo τ) :=
  if 0 ≤ id ∧ id < MAX_CPU then .ok (k.sched id.toNat) else .error .badAccess

def Cpus.setSched (k : Cpus τ) (id : ℤ) (si : SchedulerInfo τ) : Cpus τ :=
  { k with sched := Function.update k.sched id.toNat si }

/-- The CPU that a thread is queued on. -/
def homeCpu (k : Cpus τ) (t : PlacedThread) : Outcome ℤ :=
  if t.cpuAffinity < 0 then
    if k.cpuCount = 0 then .error .divideError else .ok ((t.tid - 1).tmod k.cpuCount)
  else .ok t.cpuAffinity

/-- `for ( i = pos; i > 0; i-- ) a[i] = a[i-1];` -/
def moveUp {α : Type} (a : ℕ → α) : ℕ → ℕ → α
  | 0 => a
  | i + 1 => moveUp (Function.update a (i + 1) (a i)) i

section
variable [DecidableEq τ]

def Cpus.setThread (k : Cpus τ) (tr : τ) (t : PlacedThread) : Cpus τ :=
  { k with threads := Function.update k.threads tr t }

def queue (k : Cpus τ) (tr : τ) : Outcome (Cpus τ × ℤ) := do
  let t := k.threads tr
  let id ← homeCpu k t
  assert (t.cpu < 0)
  let k := k.setThread tr { t with cpu := id }
  let si ← k.at id
  let (si, rc) := subQueue si tr
  .ok (k.setSched id si, rc)

def dequeue (current : Option τ) (k : Cpus τ) (tr : τ) : Outcome (Cpus τ) := do
  let t := k.threads tr
  let id := t.cpu
  assert (0 ≤ t.cpu)
  let si ← k.at id
  let si ← subDequeue current si tr
  .ok ((k.setSched id si).setThread tr { t with cpu := -1 })

/-- The first entry of the pause queue for a thread, `pause_count` when there is none. -/
def findPaused (si : SchedulerInfo τ) (tr : τ) : ℕ :=
  search (fun p => decide (p.tr = some tr)) si.pauseQueue 0 si.pauseCount

/-- The entry of a sleeping thread comes first and is due at once. -/
def restart (k : Cpus τ) (tr : τ) : Outcome (Cpus τ) := do
  let id ← homeCpu k (k.threads tr)
  let si ← k.at id
  let pos := findPaused si tr
  assert (pos ≠ si.pauseCount)
  let ps := si.pauseQueue pos
  let pauseQueue := Function.update (moveUp si.pauseQueue pos) 0 { ps with request := 0 }
  .ok (k.setSched id { si with pauseQueue := pauseQueue })

/-- `if ( t->state == THREAD_RUNNING ) dequeue( t );` -/
def leaveQueue (current : Option τ) (k : Cpus τ) (tr : τ) : Outcome (Cpus τ) :=
  if (k.threads tr).state = THREAD_RUNNING then dequeue current k tr else .ok k

/-- `if ( state == THREAD_RUNNING ) queue( t );` -/
def enterQueue (k : Cpus τ) (tr : τ) (state : ℕ) : Outcome (Cpus τ) :=
  if state = THREAD_RUNNING then do
    let (k, _) ← queue k tr
    .ok k
  else .ok k

/-- `here` is the calling CPU and `current` the thread that runs on it. -/
def setThreadState (here : ℕ) (current : Option τ) (k : Cpus τ) (tr : τ) (state : ℕ) :
    Outcome (Cpus τ) :=
  let t := k.threads tr
  if t.state = int32 state then .ok k
  else if some tr = current then do
    assert (t.state = THREAD_RUNNING)
    let si ← k.at here
    .ok (k.setSched here { si with requestingThread := some tr, requestingState := int32 state })
  else if t.state = THREAD_DORMANT ∧ t.duration ≠ 0 then do
    assert (state = THREAD_RUNNING)
    restart k tr
  else do
    let k ← leaveQueue current k tr
    let k := k.setThread tr { k.threads tr with state := int32 state }
    enterQueue k tr state

/-- A call of `set_thread_state`, on the CPU `here` that runs the thread `current`. -/
structure Change (τ : Type) where
  here : ℕ
  current : Option τ
  thread : τ
  state : ℕ

/-- As `new_thread` leaves it. -/
structure PlacedThread.Fresh (t : PlacedThread) : Prop where
  state : t.state = THREAD_SUSPENDED
  cpu : t.cpu = -1
  duration : t.duration = 0
  tid : 1 ≤ t.tid

variable (τ) in
/-- Runs of `set_thread_state` for threads other than the calling one and without a timed sleep.
A thread may prefer one of the CPUs. -/
def threadStateSystem : System (Cpus τ) (Change τ) Fault where
  Init k := (1 ≤ k.cpuCount ∧ k.cpuCount ≤ MAX_CPU) ∧
    (∃ garbage : ℕ → ℕ → PausedSchedule τ, ∀ id, k.sched id = loadScheduler id (garbage id)) ∧
    ∀ tr, (k.threads tr).Fresh ∧ (k.threads tr).cpuAffinity < k.cpuCount
  Guard k c := c.state < 2 ^ 32 ∧ some c.thread ≠ c.current ∧
    ¬ ((k.threads c.thread).state = THREAD_DORMANT ∧ (k.threads c.thread).duration ≠ 0)
  step k c := setThreadState c.here c.current k c.thread c.state

/-- A thread set running finds a slot in the queue of its CPU. -/
def HasRoom (k : Cpus τ) (c : Change τ) : Prop :=
  c.state = THREAD_RUNNING → (k.threads c.thread).state ≠ THREAD_RUNNING →
    ∀ id si, homeCpu k (k.threads c.thread) = .ok id → k.at id = .ok si →
      si.schedCount ≠ si.schedSize

/-- How many slots of the run queue hold the thread. -/
def slots (k : Cpus τ) (id : ℕ) (tr : τ) : ℕ :=
  (taken (k.sched id).schedQueue (k.sched id).schedCount).count (some tr)

/-- A thread is running exactly when it has a slot, one only, on the CPU it names, and it names
none exactly when it is in no queue. -/
def RunnableQueued (k : Cpus τ) : Prop :=
  ∀ tr, ((k.threads tr).state = THREAD_RUNNING ↔
      ∃ id : ℕ, (k.threads tr).cpu = id ∧ slots k id tr = 1) ∧
    ((k.threads tr).cpu = -1 ↔ ∀ id, slots k id tr = 0) ∧
    ∀ id, slots k id tr ≠ 0 → (k.threads tr).cpu = id

/-- The run queues hold the runnable threads, apart from the thread `out` that is being moved. -/
structure Placed (k : Cpus τ) (members : ℕ → List τ) (out : Option τ) : Prop where
  intact : ∀ id, Intact (k.sched id) (members id)
  member : ∀ tr id, tr ∈ members id ↔
    some tr ≠ out ∧ (k.threads tr).state = THREAD_RUNNING ∧ (k.threads tr).cpu = id
  away : ∀ tr, some tr = out ∨ (k.threads tr).state ≠ THREAD_RUNNING → (k.threads tr).cpu = -1
  present : ∀ tr, some tr ≠ out → (k.threads tr).state = THREAD_RUNNING →
    ∃ id : ℕ, id < MAX_CPU ∧ (k.threads tr).cpu = id
  home : ∀ tr, ∃ id : ℕ, id < MAX_CPU ∧ homeCpu k (k.threads tr) = .ok id

end

section
variable {k k' : Cpus τ} {members members' : ℕ → List τ} {current out out' : Option τ} {tr : τ}
  {id : ℕ}

theorem Cpus.at_of_lt (h : id < MAX_CPU) : k.at id = .ok (k.sched id) := by
  rw [Cpus.at, if_pos ⟨Int.natCast_nonneg _, by omega⟩, Int.toNat_natCast]

theorem homeCpu_congr {t t' : PlacedThread} (hc : k'.cpuCount = k.cpuCount)
    (ht : t'.tid = t.tid) (ha : t'.cpuAffinity = t.cpuAffinity) : homeCpu k' t' = homeCpu k t := by
  rw [homeCpu, homeCpu, hc, ht, ha]

@[simp] theorem Cpus.setSched_threads (si : SchedulerInfo τ) (i : ℤ) :
    (k.setSched i si).threads = k.threads := rfl

theorem Cpus.setSched_apply (si : SchedulerInfo τ) (i : ℕ) :
    (k.setSched id si).sched i = if i = id then si else k.sched i := by
  rw [Cpus.setSched, Int.toNat_natCast]
  exact Function.update_apply ..

theorem Placed.notMem (h : Placed k members (some tr)) (id : ℕ) : tr ∉ members id :=
  fun hm => ((h.member tr id).mp hm).1 rfl

variable (tr) in
/-- One thread is placed anew, the others stay where they are. -/
theorem Placed.edit (h : Placed k members out) (hcount : k'.cpuCount = k.cpuCount)
    (hout : ∀ t, t ≠ tr → some t ≠ out ∧ some t ≠ out')
    (hothers : ∀ t, t ≠ tr → k'.threads t = k.threads t)
    (htid : (k'.threads tr).tid = (k.threads tr).tid)
    (haffinity : (k'.threads tr).cpuAffinity = (k.threads tr).cpuAffinity)
    (hintact : ∀ id, Intact (k'.sched id) (members' id))
    (hmembers : ∀ t, t ≠ tr → ∀ id, t ∈ members' id ↔ t ∈ members id)
    (hmember : ∀ id, tr ∈ members' id ↔
      some tr ≠ out' ∧ (k'.threads tr).state = THREAD_RUNNING ∧ (k'.threads tr).cpu = id)
    (haway : some tr = out' ∨ (k'.threads tr).state ≠ THREAD_RUNNING → (k'.threads tr).cpu = -1)
    (hpresent : some tr ≠ out' → (k'.threads tr).state = THREAD_RUNNING →
      ∃ id : ℕ, id < MAX_CPU ∧ (k'.threads tr).cpu = id) : Placed k' members' out' where
  intact := hintact
  member t id := by
    by_cases ht : t = tr
    · exact ht ▸ hmember id
    · rw [hmembers t ht, hothers t ht, h.member t id]
      exact and_congr_left fun _ => iff_of_true (hout t ht).1 (hout t ht).2
  away t hs := by
    by_cases ht : t = tr
    · subst ht
      exact haway hs
    · rw [hothers t ht] at hs ⊢
      exact h.away t (.inr (hs.resolve_left (hout t ht).2))
  present t hne hs := by
    by_cases ht : t = tr
    · subst ht
      exact hpresent hne hs
    · rw [hothers t ht] at hs ⊢
      exact h.present t (hout t ht).1 hs
  home t := by
    obtain ⟨id, hlt, hid⟩ := h.home t
    refine ⟨id, hlt, ?_⟩
    by_cases ht : t = tr
    · subst ht
      rw [homeCpu_congr hcount htid haffinity, hid]
    · rw [homeCpu_congr hcount (congrArg PlacedThread.tid (hothers t ht))
        (congrArg PlacedThread.cpuAffinity (hothers t ht)), hid]

/-- A thread in no queue may stay there. -/
theorem Placed.rest (h : Placed k members (some tr)) (hs : (k.threads tr).state ≠ THREAD_RUNNING) :
    Placed k members none :=
  h.edit tr rfl (fun t ht => ⟨fun he => ht (Option.some.inj he), Option.some_ne_none t⟩)
    (fun _ _ => rfl) rfl rfl h.intact (fun _ _ _ => Iff.rfl)
    (fun id => iff_of_false (h.notMem id) fun hm => hs hm.2.1) (fun _ => h.away tr (.inl rfl))
    fun _ hr => absurd hr hs

/-- A thread in no queue may be taken to move. -/
theorem Placed.lift (h : Placed k members none) (hs : (k.threads tr).state ≠ THREAD_RUNNING) :
    Placed k members (some tr) :=
  h.edit tr rfl (fun t ht => ⟨Option.some_ne_none t, fun he => ht (Option.some.inj he)⟩)
    (fun _ _ => rfl) rfl rfl h.intact (fun _ _ _ => Iff.rfl)
    (fun id => iff_of_false (fun hm => hs ((h.member tr id).mp hm).2.1) fun hm => hm.1 rfl)
    (fun _ => h.away tr (.inr hs)) fun hne => absurd rfl hne

variable [DecidableEq τ]

@[simp] theorem Cpus.setThread_self {t : PlacedThread} : (k.setThread tr t).threads tr = t :=
  Function.update_self ..

theorem Cpus.setThread_of_ne {t : PlacedThread} {u : τ} (h : u ≠ tr) :
    (k.setThread tr t).threads u = k.threads u :=
  Function.update_of_ne h ..

@[simp] theorem Cpus.setThread_setThread {t t' : PlacedThread} :
    (k.setThread tr t).setThread tr t' = k.setThread tr t' := by
  simp [Cpus.setThread]

theorem dequeue_of_absent (hid : id < MAX_CPU) (hcpu : (k.threads tr).cpu = id)
    (hfind : find (k.sched id) tr = (k.sched id).schedCount) (hc : some tr ≠ current) :
    dequeue current k tr = .error .assertion := by
  have hassert : assert ((k.sched id).schedCount ≠ (k.sched id).schedCount) = .error .assertion :=
    if_neg (not_not.mpr rfl)
  rw [dequeue, hcpu, assert_of (Int.natCast_nonneg id), ok_bind, Cpus.at_of_lt hid,
    ok_bind, subDequeue, assert_of hc, ok_bind, hfind]
  dsimp only
  rw [hassert]
  rfl

theorem queue_of_home (hid : id < MAX_CPU) (hhome : homeCpu k (k.threads tr) = .ok (id : ℤ))
    (hcpu : (k.threads tr).cpu < 0) :
    queue k tr = .ok ((k.setThread tr { k.threads tr with cpu := id }).setSched id
      (subQueue (k.sched id) tr).1, (subQueue (k.sched id) tr).2) := by
  rw [queue]
  dsimp only
  rw [hhome, ok_bind, assert_of hcpu, ok_bind, Cpus.at_of_lt hid]
  rfl

namespace Placed

/-- The thread that moves gets another state. -/
theorem setState (h : Placed k members (some tr)) (state : ℤ) :
    Placed (k.setThread tr { k.threads tr with state := state }) members (some tr) := by
  refine h.edit tr rfl (fun t ht => ?_) (fun t ht => Cpus.setThread_of_ne ht) (by simp)
    (by simp) h.intact (fun _ _ _ => Iff.rfl) (fun id => ?_) (fun _ => ?_) fun hne => absurd rfl hne
  · have : some t ≠ some tr := fun he => ht (Option.some.inj he)
    exact ⟨this, this⟩
  · exact iff_of_false (h.notMem id) fun hm => hm.1 rfl
  · rw [Cpus.setThread_self]
    exact h.away tr (.inl rfl)

theorem dequeue_eq (h : Placed k members none) (hrun : (k.threads tr).state = THREAD_RUNNING)
    (hc : some tr ≠ current) : ∃ k' members', dequeue current k tr = .ok k' ∧
      Placed k' members' (some tr) := by
  obtain ⟨id, hid, hcpu⟩ := h.present tr (Option.some_ne_none tr) hrun
  have hmem : tr ∈ members id := (h.member tr id).mpr ⟨Option.some_ne_none tr, hrun, hcpu⟩
  have hfind := mt ((h.intact id).find_eq_count_iff tr).mp (not_not.mpr hmem)
  have herase : ∀ t i, t ∈ Function.update members id ((members id).erase tr) i ↔
      t ≠ tr ∧ t ∈ members i := fun t i => by
    by_cases hi : i = id
    · subst hi
      rw [Function.update_self, (h.intact i).nodup.mem_erase_iff]
    · rw [Function.update_of_ne hi]
      refine ⟨fun hm => ⟨fun he => hi ?_, hm⟩, fun hm => hm.2⟩
      subst he
      have := ((h.member t i).mp hm).2.2
      omega
  refine ⟨(k.setSched id (closeGap (k.sched id) (find (k.sched id) tr))).setThread tr
    { k.threads tr with cpu := -1 }, Function.update members id ((members id).erase tr), ?_, ?_⟩
  · rw [dequeue]
    dsimp only
    rw [hcpu, assert_of (Int.natCast_nonneg id), ok_bind, Cpus.at_of_lt hid, ok_bind, subDequeue,
      assert_of hc, ok_bind]
    dsimp only
    rw [assert_of hfind]
    rfl
  · refine h.edit tr rfl
      (fun t ht => ⟨Option.some_ne_none t, fun he => ht (Option.some.inj he)⟩)
      (fun t ht => Cpus.setThread_of_ne ht) (by simp) (by simp) (fun i => ?_)
      (fun t ht i => (herase t i).trans (and_iff_right ht)) (fun i => ?_) (fun _ => ?_)
      fun hne => absurd rfl hne
    · change Intact ((k.setSched id _).sched i) _
      rw [Cpus.setSched_apply]
      split_ifs with hi
      · subst hi
        rw [Function.update_self]
        exact (h.intact i).closeGap hmem
      · rw [Function.update_of_ne hi]
        exact h.intact i
    · exact iff_of_false (fun hm => ((herase tr i).mp hm).1 rfl) fun hm => hm.1 rfl
    · rw [Cpus.setThread_self]

/-- A thread that is running but in no queue gets a slot, if there is one. -/
theorem queue_eq (h : Placed k members (some tr)) (hrun : (k.threads tr).state = THREAD_RUNNING) :
    ∃ k' rc id, queue k tr = .ok (k', rc) ∧ id < MAX_CPU ∧
      homeCpu k (k.threads tr) = .ok (id : ℤ) ∧
      ((k.sched id).schedCount ≠ (k.sched id).schedSize → ∃ members', Placed k' members' none) := by
  obtain ⟨id, hid, hhome⟩ := h.home tr
  have hcpu := h.away tr (.inl rfl)
  refine ⟨((k.setThread tr { k.threads tr with cpu := id }).setSched id
    (subQueue (k.sched id) tr).1),
    (subQueue (k.sched id) tr).2, id, queue_of_home hid hhome (by omega), hid, hhome,
    fun hroom => ?_⟩
  · have hin : ∀ t i, t ∈ Function.update members id (members id ++ [tr]) i ↔
        t ∈ members i ∨ t = tr ∧ i = id := fun t i => by
      by_cases hi : i = id
      · subst hi
        simp
      · simp [hi]
    refine ⟨Function.update members id (members id ++ [tr]), h.edit tr rfl
      (fun t ht => ⟨fun he => ht (Option.some.inj he), Option.some_ne_none t⟩)
      (fun t ht => Cpus.setThread_of_ne ht) ?_ ?_ (fun i => ?_) (fun t ht i => ?_) (fun i => ?_)
      (fun hs => ?_) fun _ _ => ⟨id, hid, ?_⟩⟩
    · simp
    · simp
    · rw [Cpus.setSched_apply]
      split_ifs with hi
      · subst hi
        rw [Function.update_self]
        exact (h.intact i).push (h.notMem i) hroom
      · rw [Function.update_of_ne hi]
        exact h.intact i
    · rw [hin]
      exact or_iff_left fun he => ht he.1
    · rw [hin, Cpus.setSched_threads, Cpus.setThread_self]
      refine (or_iff_right (h.notMem i)).trans ⟨fun he => ⟨Option.some_ne_none tr, hrun, ?_⟩,
        fun he => ⟨rfl, Int.ofNat_inj.mp he.2.2.symm⟩⟩
      rw [he.2]
    · rw [Cpus.setSched_threads, Cpus.setThread_self] at hs
      exact absurd hrun (hs.resolve_left (Option.some_ne_none tr))
    · rw [Cpus.setSched_threads, Cpus.setThread_self]

theorem leaveQueue_eq (h : Placed k members none) (hc : some tr ≠ current) :
    ∃ k' members', leaveQueue current k tr = .ok k' ∧ Placed k' members' (some tr) ∧
      ((k.threads tr).state ≠ THREAD_RUNNING → k' = k) := by
  rw [leaveQueue]
  split_ifs with hrun
  · obtain ⟨k', members', heq, hk'⟩ := h.dequeue_eq hrun hc
    exact ⟨k', members', heq, hk', fun hne => absurd hrun hne⟩
  · exact ⟨k, members, rfl, h.lift hrun, fun _ => rfl⟩

theorem int32_eq_running {state : ℕ} (h : state < 2 ^ 32) :
    int32 state = (THREAD_RUNNING : ℤ) ↔ state = THREAD_RUNNING := by
  unfold int32 Int.bmod THREAD_RUNNING
  norm_num
  omega

/-- One call fails no assertion, and keeps the threads placed if there is room. -/
theorem setThreadState_eq (h : Placed k members none) {c : Change τ}
    (hg : (threadStateSystem τ).Guard k c) :
    ∃ k', setThreadState c.here c.current k c.thread c.state = .ok k' ∧
      (HasRoom k c → ∃ members', Placed k' members' none) := by
  obtain ⟨hlt, hc, hsleep⟩ := hg
  rw [setThreadState]
  dsimp only
  split_ifs with hsame
  · exact ⟨k, rfl, fun _ => ⟨members, h⟩⟩
  obtain ⟨k₁, members₁, hleave, h₁, hk₁⟩ := h.leaveQueue_eq hc
  have h₂ := h₁.setState (int32 c.state)
  rw [hleave, ok_bind, enterQueue]
  dsimp only
  split_ifs with hrun
  · have hstate := (int32_eq_running hlt).mpr hrun
    have hne : (k.threads c.thread).state ≠ THREAD_RUNNING := fun he => hsame (he.trans hstate.symm)
    obtain ⟨k₃, rc, id, hqueue, hid, hhome, hroom⟩ := h₂.queue_eq (by simpa using hstate)
    refine ⟨k₃, by rw [hqueue]; rfl, fun hr => hroom ?_⟩
    cases hk₁ hne
    refine hr hrun hne id (k.sched id) ?_ (Cpus.at_of_lt hid)
    rw [← hhome]
    exact homeCpu_congr rfl (by simp) (by simp)
  · have hne : int32 c.state ≠ (THREAD_RUNNING : ℤ) := mt (int32_eq_running hlt).mp hrun
    refine ⟨_, rfl, fun _ => ⟨members₁, h₂.rest ?_⟩⟩
    rw [Cpus.setThread_self]
    dsimp only
    exact hne

theorem slots_eq (h : Placed k members out) (id : ℕ) (tr : τ) :
    slots k id tr = if tr ∈ members id then 1 else 0 := by
  rw [slots, (h.intact id).entries, List.count_map_of_injective _ _ (Option.some_injective τ)]
  split_ifs with hm
  · exact List.count_eq_one_of_mem (h.intact id).nodup hm
  · exact List.count_eq_zero_of_not_mem hm

theorem runnableQueued (h : Placed k members none) : RunnableQueued k := by
  have hone : ∀ id tr, slots k id tr = 1 ↔ tr ∈ members id := fun id tr => by
    rw [h.slots_eq]
    split_ifs with hm <;> simp [hm]
  have hzero : ∀ id tr, slots k id tr = 0 ↔ tr ∉ members id := fun id tr => by
    rw [h.slots_eq]
    split_ifs with hm <;> simp [hm]
  intro tr
  refine ⟨⟨fun hrun => ?_, ?_⟩, ⟨fun hcpu id => ?_, fun hno => ?_⟩, fun id hslot => ?_⟩
  · obtain ⟨id, -, hcpu⟩ := h.present tr (Option.some_ne_none tr) hrun
    exact ⟨id, hcpu, (hone id tr).mpr ((h.member tr id).mpr ⟨Option.some_ne_none tr, hrun, hcpu⟩)⟩
  · rintro ⟨id, -, hslot⟩
    exact ((h.member tr id).mp ((hone id tr).mp hslot)).2.1
  · refine (hzero id tr).mpr fun hm => ?_
    have := ((h.member tr id).mp hm).2.2
    omega
  · refine h.away tr (.inr fun hrun => ?_)
    obtain ⟨id, -, hcpu⟩ := h.present tr (Option.some_ne_none tr) hrun
    exact (hzero id tr).mp (hno id) ((h.member tr id).mpr ⟨Option.some_ne_none tr, hrun, hcpu⟩)
  · exact ((h.member tr id).mp (not_not.mp fun hm => hslot ((hzero id tr).mpr hm))).2.2

theorem init (h : (threadStateSystem τ).Init k) : Placed k (fun _ => []) none := by
  obtain ⟨⟨hpos, hmax⟩, ⟨garbage, hload⟩, hfresh⟩ := h
  refine ⟨fun id => ?_, fun tr id => ?_, fun tr _ => (hfresh tr).1.cpu, fun tr _ hrun => ?_,
    fun tr => ?_⟩
  · rw [hload]
    exact intact_start id (garbage id) fun tr => (k.threads tr).toThread
  · refine iff_of_false List.not_mem_nil fun hm => ?_
    have := (hfresh tr).1.cpu.symm.trans hm.2.2
    omega
  · cases (hfresh tr).1.state.symm.trans hrun
  · obtain ⟨hf, ha⟩ := hfresh tr
    rw [homeCpu]
    split_ifs with hneg hzero
    · omega
    · have hnonneg : 0 ≤ (k.threads tr).tid - 1 := by
        have := hf.tid
        omega
      have hmod := Int.emod_lt_of_pos ((k.threads tr).tid - 1) (show (0 : ℤ) < k.cpuCount by omega)
      have hge := Int.emod_nonneg ((k.threads tr).tid - 1) (show (k.cpuCount : ℤ) ≠ 0 by omega)
      rw [Int.tmod_eq_emod_of_nonneg hnonneg]
      exact ⟨(((k.threads tr).tid - 1) % k.cpuCount).toNat, by omega,
        by rw [Int.toNat_of_nonneg hge]⟩
    · exact ⟨(k.threads tr).cpuAffinity.toNat, by omega, by rw [Int.toNat_of_nonneg (by omega)]⟩

end Placed

/-- As long as every thread set running finds room in the queue of its CPU, the running threads
are those with a slot, and no call fails an assertion. -/
theorem runnable_queued (h : ((threadStateSystem τ).restrict HasRoom).Reach k) :
    RunnableQueued k ∧
      ∀ c, (threadStateSystem τ).Guard k c → ∃ k', (threadStateSystem τ).step k c = .ok k' := by
  have hinit : ∀ k, ((threadStateSystem τ).restrict HasRoom).Init k →
      ∃ members, Placed k members none := fun k hk => ⟨_, Placed.init hk⟩
  obtain ⟨members, hk⟩ := h.invariant hinit fun k c ⟨members, hk⟩ ⟨hg, hroom⟩ => by
    obtain ⟨k', heq, hk'⟩ := hk.setThreadState_eq hg
    exact ⟨k', heq, hk' hroom⟩
  refine ⟨hk.runnableQueued, fun c hg => ?_⟩
  obtain ⟨k', heq, -⟩ := hk.setThreadState_eq hg
  exact ⟨k', heq⟩

end

section Examples

def newThread (i : ℕ) : PlacedThread where
  state := THREAD_SUSPENDED
  duration := 0
  cpu := -1
  tid := i + 1
  cpuAffinity := -1

/-- One CPU and threads without end. -/
def booted : Cpus ℕ := ⟨fun id => loadScheduler id fun _ => ⟨none, 0, 0, 0⟩, 1, newThread⟩

def setRunning (i : ℕ) : Change ℕ := ⟨0, none, i, THREAD_RUNNING⟩

theorem init_booted : (threadStateSystem ℕ).Init booted := by
  refine ⟨⟨by decide, by decide⟩, ⟨fun _ _ => ⟨none, 0, 0, 0⟩, fun _ => rfl⟩, fun i =>
    ⟨⟨rfl, rfl, rfl, ?_⟩, by change (-1 : ℤ) < 1; decide⟩⟩
  change 1 ≤ (i : ℤ) + 1
  omega

/-- The thread as `set_thread_state` leaves it, with a slot or without. -/
def setOn (k : Cpus ℕ) (i : ℕ) : Cpus ℕ :=
  (k.setThread i { newThread i with state := THREAD_RUNNING, cpu := 0 }).setSched 0
    (subQueue (k.sched 0) i).1

theorem step_setRunning {k : Cpus ℕ} {i : ℕ} (hcount : k.cpuCount = 1)
    (hi : k.threads i = newThread i) :
    (threadStateSystem ℕ).Guard k (setRunning i) ∧
      (threadStateSystem ℕ).step k (setRunning i) = .ok (setOn k i) := by
  have hhome : ∀ k' : Cpus ℕ, k'.cpuCount = 1 → ∀ t : PlacedThread, t.cpuAffinity = -1 →
      homeCpu k' t = .ok ((0 : ℕ) : ℤ) := fun k' hk t ht => by
    rw [homeCpu, if_pos (by omega), if_neg (by omega), hk, Nat.cast_one, Int.tmod_one,
      Nat.cast_zero]
  refine ⟨⟨by change 1 < 2 ^ 32; decide, nofun, ?_⟩, ?_⟩
  · rintro ⟨hs, -⟩
    change (k.threads i).state = _ at hs
    rw [hi] at hs
    cases hs
  · have hne : ¬ (newThread i).state = int32 THREAD_RUNNING := by
      change ¬ (2 : ℤ) = int32 1
      decide
    have hnr : ¬ (newThread i).state = THREAD_RUNNING := by
      change ¬ (2 : ℤ) = 1
      decide
    have hnd : ¬ ((newThread i).state = THREAD_DORMANT ∧ (newThread i).duration ≠ 0) :=
      fun hd => hd.2 rfl
    change setThreadState 0 none k i THREAD_RUNNING = _
    rw [setThreadState]
    dsimp only
    rw [hi, if_neg hne, if_neg nofun, if_neg hnd, leaveQueue, hi, if_neg hnr, ok_bind, enterQueue,
      if_pos rfl, hi]
    dsimp only
    rw [queue_of_home (show 0 < MAX_CPU by decide)
      (by rw [Cpus.setThread_self]; exact hhome _ hcount _ rfl)
      (by rw [Cpus.setThread_self]; exact (by decide : (-1 : ℤ) < 0)), ok_bind,
      Cpus.setThread_setThread, Cpus.setThread_self]
    rfl

theorem runnable_queued_first : RunnableQueued (setOn booted 0) := by
  obtain ⟨hg, hs⟩ := step_setRunning (k := booted) (i := 0) rfl rfl
  have hroom : HasRoom booted (setRunning 0) := by
    intro _ _ id si hhome hat
    have hsi : si = booted.sched id.toNat := by
      rw [Cpus.at] at hat
      split_ifs at hat
      exact (Except.ok.inj hat).symm
    rw [hsi]
    exact (by decide : 0 ≠ 1024)
  exact (runnable_queued (System.Reach.step (.of_init init_booted) ⟨hg, hroom⟩ hs)).1

/-- Threads are set running until the queue is full. -/
theorem fill_queue : ∀ n ≤ 1024, ∃ k members, (threadStateSystem ℕ).Reach k ∧
    Placed k members none ∧ k.cpuCount = 1 ∧ (k.sched 0).schedCount = n ∧
    (k.sched 0).schedSize = 1024 ∧ ∀ i, n ≤ i → k.threads i = newThread i := by
  intro n
  induction n with
  | zero =>
    exact fun _ => ⟨booted, _, .of_init init_booted, .init init_booted, rfl, rfl, rfl,
      fun _ _ => rfl⟩
  | succ n ih =>
    intro hn
    obtain ⟨k, members, hreach, hk, hcount, hlen, hsize, hnew⟩ := ih (by omega)
    obtain ⟨hg, hs⟩ := step_setRunning hcount (hnew n le_rfl)
    have hfull : (k.sched 0).schedCount ≠ (k.sched 0).schedSize := by omega
    obtain ⟨k', heq, hk'⟩ := hk.setThreadState_eq hg
    cases heq.symm.trans hs
    have hroom : HasRoom k (setRunning n) := by
      intro _ _ id si hhome hat
      have hid : id = 0 := by
        change homeCpu k (k.threads n) = _ at hhome
        rw [hnew n le_rfl, homeCpu, if_pos (by change (-1 : ℤ) < 0; decide), if_neg (by omega),
          hcount, Nat.cast_one, Int.tmod_one] at hhome
        exact (Except.ok.inj hhome).symm
      subst hid
      cases hat
      exact hfull
    obtain ⟨members', hp⟩ := hk' hroom
    refine ⟨setOn k n, members', hreach.step hg hs, hp, hcount, ?_, ?_, fun i hi => ?_⟩
    · change ((subQueue (k.sched 0) n).1).schedCount = _
      rw [subQueue, if_neg hfull, ← hlen]
    · change ((subQueue (k.sched 0) n).1).schedSize = _
      rw [subQueue, if_neg hfull]
      exact hsize
    · exact (Cpus.setThread_of_ne (by omega)).trans (hnew i (by omega))

/-- The thread after the 1024th is running without a slot, and taking it off fails an assertion. -/
theorem full_queue_forgotten : ∃ k, (threadStateSystem ℕ).Reach k ∧
    ((k.threads 1024).state = THREAD_RUNNING ∧ (k.threads 1024).cpu = 0 ∧ slots k 0 1024 = 0) ∧
    ¬ RunnableQueued k ∧ ∃ c, (threadStateSystem ℕ).Guard k c ∧
      (threadStateSystem ℕ).step k c = .error .assertion := by
  obtain ⟨k, members, hreach, hk, hcount, hlen, hsize, hnew⟩ := fill_queue 1024 le_rfl
  obtain ⟨hg, hs⟩ := step_setRunning hcount (hnew 1024 le_rfl)
  have hthread : (setOn k 1024).threads 1024 =
      { newThread 1024 with state := THREAD_RUNNING, cpu := 0 } := by
    rw [setOn, Cpus.setSched_threads, Cpus.setThread_self]
  have hsched : (setOn k 1024).sched 0 = k.sched 0 := by
    change (subQueue (k.sched 0) 1024).1 = _
    rw [subQueue, if_pos (by omega)]
  have hout : 1024 ∉ members 0 := fun hm => by
    have := ((hk.member 1024 0).mp hm).2.1
    rw [hnew 1024 le_rfl] at this
    cases this
  have hslots : slots (setOn k 1024) 0 1024 = 0 := by
    rw [slots, hsched]
    exact (hk.slots_eq 0 1024).trans (if_neg hout)
  refine ⟨setOn k 1024, hreach.step hg hs, ⟨?_, ?_, hslots⟩, fun h => ?_,
    ⟨0, none, 1024, THREAD_SUSPENDED⟩, ⟨by change 2 < 2 ^ 32; decide, by simp, ?_⟩, ?_⟩
  · rw [hthread]
  · rw [hthread]
  · obtain ⟨id, hid, hone⟩ := (h 1024).1.mp (by rw [hthread])
    rw [hthread] at hid
    cases (Int.ofNat_inj.mp hid : 0 = id)
    omega
  · change ¬ (((setOn k 1024).threads 1024).state = _ ∧ _)
    rw [hthread]
    exact fun hd => hd.2 rfl
  · have hfind : find (k.sched 0) 1024 = (k.sched 0).schedCount :=
      ((hk.intact 0).find_eq_count_iff 1024).mpr hout
    change setThreadState 0 none (setOn k 1024) 1024 THREAD_SUSPENDED = _
    rw [setThreadState]
    dsimp only
    rw [hthread, if_neg (by decide), if_neg (by simp), if_neg (by decide), leaveQueue, hthread,
      if_pos rfl, dequeue_of_absent (show 0 < MAX_CPU by decide) (by rw [hthread]; rfl)
        (by rw [hsched]; exact hfind) (Option.some_ne_none _)]
    rfl

end Examples
end Racoon.Scheduler
