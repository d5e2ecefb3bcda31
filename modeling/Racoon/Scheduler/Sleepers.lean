import Racoon.Scheduler.ThreadState
import Racoon.Lib.Ascending

/-!
# Timed sleepers

The pause queue of a CPU holds its sleeping threads in the order of the times at
which they asked to be woken. `pause` inserts, `restart` moves an entry to the
front with the time 0, and `remove_timers` takes the entries that are due off the
front and appends their threads to the run queue. Whatever else the kernel does
between these calls may change the run queue and the threads, but not the pause
queue.
-/

namespace Racoon.Scheduler
open Lib
variable {τ : Type}

abbrev request (p : PausedSchedule τ) : ℕ := p.request

/-- The pause queue has room for no other entry. -/
def SchedulerInfo.PauseFull (si : SchedulerInfo τ) : Prop := si.pauseCount = si.pauseSize

/-- The entries of the pause queue. -/
def SchedulerInfo.asleep (si : SchedulerInfo τ) : List (PausedSchedule τ) :=
  taken si.pauseQueue si.pauseCount

/-- A CPU with the threads. -/
def Cpus.cpu (k : Cpus τ) (id : ℕ) : Cpu τ := ⟨k.sched id, fun tr => (k.threads tr).toThread⟩

def Cpus.setCpu (k : Cpus τ) (id : ℕ) (c : Cpu τ) : Cpus τ :=
  { k.setSched id c.si with threads := fun tr => { k.threads tr with toThread := c.threads tr } }

section
variable [DecidableEq τ]

/-- The entry that `pause` makes. -/
def pauseEntry (t : PlacedThread) (tr : τ) (milliseconds now : ℕ) : PausedSchedule τ where
  tr := some tr
  state := t.state
  request := (milliseconds + now) % 2 ^ 64
  start := now

/-- `here` is the calling CPU, `current` the thread that runs on it and `now` its clock. -/
def pause (here : ℕ) (current : Option τ) (now : ℕ) (k : Cpus τ) (tr : τ) (milliseconds : ℕ) :
    Outcome (Cpus τ × ℤ) := do
  assert (0 < milliseconds)
  let t := k.threads tr
  assert (t.cpu = here)
  let si ← k.at t.cpu
  if si.pauseCount = si.pauseSize then .ok (k, -1)
  else do
    let entry := pauseEntry t tr milliseconds now
    let pos := search (fun p => decide (entry.request < p.request)) si.pauseQueue 0 si.pauseCount
    let pauseQueue := copyUp si.pauseQueue pos (si.pauseCount - pos)
    let k := k.setSched t.cpu { si with
      pauseQueue := Function.update pauseQueue pos entry
      pauseCount := si.pauseCount + 1 }
    let k ← setThreadState here current k tr THREAD_DORMANT
    .ok (k.setThread tr { k.threads tr with duration := milliseconds }, 0)

/-- `remove_timers` for one of the CPUs. -/
def removeTimersAt (k : Cpus τ) (id time : ℕ) : Outcome (Cpus τ × ℕ) := do
  let (c, requested) ← removeTimers (k.cpu id) time
  .ok (k.setCpu id c, requested)

end

/-- The kernel of a machine with one CPU, the time of the latest call, and the threads restarted
since the last `remove_timers`. -/
structure Timed (τ : Type) where
  kernel : Cpus τ
  time : ℕ
  restarted : List τ

/-- What the rest of the kernel may change between two calls. -/
structure Elsewhere (τ : Type) where
  schedQueue : ℕ → Option τ
  schedCount : ℕ
  position : ℕ
  requestingThread : Option τ
  requestingState : ℤ
  threads : τ → Thread

inductive TimerCall (τ : Type)
  | pause (tr : τ) (milliseconds now : ℕ)
  | restart (tr : τ)
  | removeTimers (time : ℕ)
  | other (e : Elsewhere τ)

def Elsewhere.apply (e : Elsewhere τ) (k : Cpus τ) : Cpus τ :=
  { k.setSched 0 { k.sched 0 with
      schedQueue := e.schedQueue
      schedCount := e.schedCount
      position := e.position
      requestingThread := e.requestingThread
      requestingState := e.requestingState } with
    threads := fun tr => { k.threads tr with toThread := e.threads tr } }

/-- The threads of entries. -/
def threadsOf (ps : List (PausedSchedule τ)) : List τ := ps.filterMap PausedSchedule.tr

/-- The entries due at a time. -/
def dueBy (ps : List (PausedSchedule τ)) (time : ℕ) : List (PausedSchedule τ) :=
  ps.filter fun p => decide (p.request ≤ time)

variable [DecidableEq τ]

/-- A thread pauses itself while it runs, so that it is not asleep; only a sleeper is restarted;
the clock does not run backwards, and the run queue has room for those who wake. -/
def TimerCall.Guard (s : Timed τ) : TimerCall τ → Prop
  | .pause tr milliseconds now => 0 < milliseconds ∧ s.time ≤ now ∧
    (s.kernel.threads tr).state = THREAD_RUNNING ∧ (s.kernel.threads tr).cpu = 0 ∧
      tr ∉ threadsOf (s.kernel.sched 0).asleep
  | .restart tr => tr ∈ threadsOf (s.kernel.sched 0).asleep
  | .removeTimers time => s.time ≤ time ∧ (s.kernel.sched 0).schedCount +
    (dueBy (s.kernel.sched 0).asleep time).length ≤ (s.kernel.sched 0).schedSize
  | .other _ => True

def TimerCall.step (s : Timed τ) : TimerCall τ → Outcome (Timed τ)
  | .pause tr milliseconds now => do
    let (k, _) ← Scheduler.pause 0 (some tr) now s.kernel tr milliseconds
    .ok { s with kernel := k, time := now }
  | .restart tr => do
    let k ← Scheduler.restart s.kernel tr
    .ok { s with kernel := k, restarted := tr :: s.restarted }
  | .removeTimers time => do
    let (k, _) ← removeTimersAt s.kernel 0 time
    .ok { kernel := k, time := time, restarted := [] }
  | .other e => .ok { s with kernel := e.apply s.kernel }

variable (τ) in
/-- Runs of the timer calls on one CPU, which no thread prefers another one to. -/
def timerSystem : System (Timed τ) (TimerCall τ) Fault where
  Init s := s.kernel.cpuCount = 1 ∧
    (∃ garbage : ℕ → PausedSchedule τ, s.kernel.sched 0 = loadScheduler 0 garbage) ∧
    (∀ tr, (s.kernel.threads tr).cpuAffinity < 1) ∧ s.restarted = []
  Guard s c := c.Guard s
  step s c := c.step s

/-- What waking does to the thread of an entry. -/
def wakened (t : Thread) (p : PausedSchedule τ) (cpuId time : ℕ) : Thread :=
  { t with state := p.state, duration := time - p.start, cpu := cpuId }

/-- The entries `ps` have been taken: their threads are behind the run queue, each in the state
that it had. -/
structure Wakened (c c' : Cpu τ) (time : ℕ) (ps : List (PausedSchedule τ)) : Prop where
  queue : taken c'.si.schedQueue c'.si.schedCount =
    taken c.si.schedQueue c.si.schedCount ++ (threadsOf ps).map some
  count : c'.si.schedCount = c.si.schedCount + ps.length
  frame : c'.si = { c.si with
    schedQueue := c'.si.schedQueue, schedCount := c.si.schedCount + ps.length }
  moved : ∀ p ∈ ps, ∀ tr, p.tr = some tr →
    c'.threads tr = wakened (c.threads tr) p c.si.cpuId time
  others : ∀ tr, tr ∉ threadsOf ps → c'.threads tr = c.threads tr

omit [DecidableEq τ] in
theorem threadsOf_cons {p : PausedSchedule τ} {ps : List (PausedSchedule τ)} {tr : τ}
    (h : p.tr = some tr) : threadsOf (p :: ps) = tr :: threadsOf ps := by
  rw [threadsOf, List.filterMap_cons_some h, threadsOf]

omit [DecidableEq τ] in
theorem mem_threadsOf {ps : List (PausedSchedule τ)} {tr : τ} :
    tr ∈ threadsOf ps ↔ ∃ p ∈ ps, p.tr = some tr := List.mem_filterMap

omit [DecidableEq τ] in
theorem Wakened.nil (c : Cpu τ) (time : ℕ) : Wakened c c time [] where
  queue := by simp [threadsOf]
  count := rfl
  frame := rfl
  moved := nofun
  others := fun _ _ => rfl

theorem Wakened.cons {c c' : Cpu τ} {time : ℕ} {p : PausedSchedule τ} {tr : τ}
    {ps : List (PausedSchedule τ)} (hp : p.tr = some tr) (hn : (threadsOf (p :: ps)).Nodup)
    (hroom : c.si.schedCount ≠ c.si.schedSize)
    (h : Wakened ⟨(subQueue c.si tr).1,
      Function.update c.threads tr (wakened (c.threads tr) p c.si.cpuId time)⟩ c' time ps) :
    Wakened c c' time (p :: ps) := by
  rw [threadsOf_cons hp, List.nodup_cons] at hn
  have hpush : (subQueue c.si tr).1 = { c.si with
      schedQueue := Function.update c.si.schedQueue c.si.schedCount (some tr)
      schedCount := c.si.schedCount + 1 } := by
    rw [subQueue, if_neg hroom]
  obtain ⟨hqueue, hcount, hframe, hmoved, hothers⟩ := h
  simp only [hpush] at hqueue hcount hframe hmoved hothers
  refine ⟨?_, ?_, ?_, ?_, ?_⟩
  · rw [hqueue, taken_push, threadsOf_cons hp, List.map_cons, List.append_assoc,
      List.singleton_append]
  · rw [hcount, List.length_cons]
    omega
  · rw [List.length_cons, Nat.add_comm ps.length 1, ← Nat.add_assoc]
    exact hframe
  · intro q hq u hu
    rcases List.mem_cons.mp hq with rfl | hq
    · obtain rfl : tr = u := Option.some.inj (hp.symm.trans hu)
      rw [hothers tr hn.1, Function.update_self]
    · have hne : u ≠ tr := fun he => hn.1 (he ▸ mem_threadsOf.mpr ⟨q, hq, hu⟩)
      rw [hmoved q hq u hu, Function.update_of_ne hne]
  · intro u hu
    rw [threadsOf_cons hp, List.mem_cons, not_or] at hu
    rw [hothers u hu.2, Function.update_of_ne hu.1]

/-- By induction on the entries left: the loop takes those due and stops at the first other. -/
theorem wakeLoop_eq {time n i : ℕ} {c : Cpu τ} {ps : List (PausedSchedule τ)}
    (hps : ps = ((List.range' i n).map c.si.pauseQueue).takeWhile
      fun p => decide (p.request ≤ time))
    (hsome : ∀ p ∈ ps, p.tr ≠ none) (hn : (threadsOf ps).Nodup)
    (hroom : c.si.schedCount + ps.length ≤ c.si.schedSize) :
    ∃ c', wakeLoop time n i c = .ok (c', i + ps.length, n - ps.length) ∧
      Wakened c c' time ps := by
  induction n generalizing i c ps with
  | zero =>
    subst hps
    exact ⟨c, rfl, .nil c time⟩
  | succ n ih =>
    rw [List.range'_succ, List.map_cons] at hps
    rw [wakeLoop]
    by_cases hdue : (c.si.pauseQueue i).request ≤ time
    · rw [List.takeWhile_cons_of_pos (by simpa using hdue)] at hps
      subst hps
      obtain ⟨tr, htr⟩ := Option.ne_none_iff_exists'.mp (hsome _ List.mem_cons_self)
      rw [List.length_cons] at hroom ⊢
      have hfree : c.si.schedCount ≠ c.si.schedSize := by omega
      have hwake : wake c time i = .ok ⟨(subQueue c.si tr).1, Function.update c.threads tr
          (wakened (c.threads tr) (c.si.pauseQueue i) c.si.cpuId time)⟩ := by
        simp only [wake, htr, deref_some, ok_bind, assert_of hfree, wakened]
      have hpush : (subQueue c.si tr).1.schedCount = c.si.schedCount + 1 ∧
          (subQueue c.si tr).1.schedSize = c.si.schedSize := by
        rw [subQueue, if_neg hfree]
        exact ⟨rfl, rfl⟩
      obtain ⟨c', hrun, hc'⟩ := ih (i := i + 1) (c := ⟨(subQueue c.si tr).1, _⟩)
        (by rw [subQueue_pauseQueue]) (fun p hp => hsome p (List.mem_cons_of_mem _ hp))
        (List.nodup_cons.mp (threadsOf_cons htr ▸ hn)).2 (by dsimp only; omega)
      refine ⟨c', ?_, hc'.cons htr hn hfree⟩
      rw [if_pos hdue, hwake, ok_bind, hrun]
      congr 3 <;> omega
    · rw [List.takeWhile_cons_of_neg (by simpa using hdue)] at hps
      subst hps
      rw [if_neg hdue]
      exact ⟨c, rfl, .nil c time⟩

/-- The due entries are served, the others stay, and what is returned is the time to the first
of them. -/
structure Served (c c' : Cpu τ) (time requested : ℕ) : Prop where
  queue : taken c'.si.schedQueue c'.si.schedCount =
    taken c.si.schedQueue c.si.schedCount ++ (threadsOf (dueBy c.si.asleep time)).map some
  asleep : c'.si.asleep = c.si.asleep.filter fun p => decide (time < p.request)
  moved : ∀ p ∈ dueBy c.si.asleep time, ∀ tr, p.tr = some tr →
    c'.threads tr = wakened (c.threads tr) p c.si.cpuId time
  others : ∀ tr, tr ∉ threadsOf (dueBy c.si.asleep time) → c'.threads tr = c.threads tr
  none_left : c'.si.asleep = [] → requested = 0
  earliest : ∀ p ∈ c'.si.asleep, (∀ q ∈ c'.si.asleep, p.request ≤ q.request) →
    time < p.request ∧ requested = p.request - time

omit [DecidableEq τ] in
theorem length_asleep (si : SchedulerInfo τ) : si.asleep.length = si.pauseCount :=
  length_taken ..

omit [DecidableEq τ] in
/-- The end of `remove_timers`, with the pause queue closed up. -/
theorem Wakened.served {c c₁ : Cpu τ} {time left : ℕ} {pauseQueue : ℕ → PausedSchedule τ}
    (h : Wakened c c₁ time (dueBy c.si.asleep time)) (hs : Ascending request c.si.asleep)
    (hasleep : taken pauseQueue left = c.si.asleep.filter fun p => decide (time < p.request)) :
    Served c ⟨{ c₁.si with pauseQueue := pauseQueue, pauseCount := left }, c₁.threads⟩ time
      (if left = 0 then 0 else (pauseQueue 0).request - time) := by
  have hsort : Ascending request (taken pauseQueue left) := hasleep ▸ hs.sublist List.filter_sublist
  refine ⟨h.queue, hasleep, h.moved, h.others, fun hnil => ?_, fun p hp hle => ?_⟩
  · have hleft : (taken pauseQueue left).length = 0 := congrArg List.length hnil
    rw [length_taken] at hleft
    rw [if_pos hleft]
  · change p ∈ taken pauseQueue left at hp
    have hpos : 0 < left := by simpa using List.length_pos_of_mem hp
    have hhead : (taken pauseQueue left).head? = some (pauseQueue 0) := by
      rw [List.head?_eq_getElem?, getElem?_taken, if_pos hpos]
    have hfirst : p.request = (pauseQueue 0).request :=
      le_antisymm (hle _ (List.mem_of_mem_head? hhead)) (hsort.le_of_head hhead hp)
    rw [if_neg hpos.ne', hfirst]
    rw [hasleep, List.mem_filter, decide_eq_true_eq] at hp
    exact ⟨hfirst ▸ hp.2, rfl⟩

omit [DecidableEq τ] in
theorem Served.empty {c : Cpu τ} (h : c.si.pauseCount = 0) (time : ℕ) : Served c c time 0 := by
  have hnil : c.si.asleep = [] := List.eq_nil_of_length_eq_zero ((length_asleep c.si).trans h)
  have hdue : dueBy c.si.asleep time = [] := by rw [hnil, dueBy, List.filter_nil]
  refine ⟨?_, ?_, ?_, fun _ _ => rfl, fun _ => rfl, ?_⟩
  · rw [hdue]
    simp [threadsOf]
  · rw [hnil, List.filter_nil]
  · rw [hdue]
    nofun
  · rw [hnil]
    nofun

/-- A sorted pause queue of threads that differ is served exactly. -/
theorem removeTimers_eq {c : Cpu τ} {time : ℕ} (hs : Ascending request c.si.asleep)
    (hsome : ∀ p ∈ c.si.asleep, p.tr ≠ none) (hn : (threadsOf c.si.asleep).Nodup)
    (hroom : c.si.schedCount + (dueBy c.si.asleep time).length ≤ c.si.schedSize) :
    ∃ c' requested, removeTimers c time = .ok (c', requested) ∧ Served c c' time requested ∧
      c'.si.schedSize = c.si.schedSize ∧ c'.si.cpuId = c.si.cpuId ∧
        c'.si.pauseSize = c.si.pauseSize := by
  by_cases hz : c.si.pauseCount = 0
  · exact ⟨c, 0, by rw [removeTimers, if_pos hz], .empty hz time, rfl, rfl, rfl⟩
  have hdue : dueBy c.si.asleep time =
      ((List.range' 0 c.si.pauseCount).map c.si.pauseQueue).takeWhile
        fun p => decide (p.request ≤ time) := by
    rw [← List.range_eq_range']
    exact (hs.takeWhile_eq_filter time).symm
  have hle : (dueBy c.si.asleep time).length ≤ c.si.pauseCount :=
    length_asleep c.si ▸ List.length_filter_le ..
  obtain ⟨c₁, hloop, hc₁⟩ := wakeLoop_eq hdue (fun p hp => hsome p (List.mem_of_mem_filter hp))
    (hn.sublist (List.filter_sublist.filterMap _)) hroom
  have hsame : c₁.si.pauseQueue = c.si.pauseQueue ∧ c₁.si.schedSize = c.si.schedSize ∧
      c₁.si.cpuId = c.si.cpuId ∧ c₁.si.pauseSize = c.si.pauseSize := by
    rw [hc₁.frame]
    exact ⟨rfl, rfl, rfl, rfl⟩
  obtain ⟨hpause, hsize, hid, hpauseSize⟩ := hsame
  have hasleep : taken (copyDown (dueBy c.si.asleep time).length c₁.si.pauseQueue 0
      (c.si.pauseCount - (dueBy c.si.asleep time).length))
        (c.si.pauseCount - (dueBy c.si.asleep time).length) =
      c.si.asleep.filter fun p => decide (time < p.request) := by
    rw [hpause, taken_copyDown, Nat.add_sub_cancel' hle]
    exact hs.drop_length_filter time
  refine ⟨_, _, ?_, hc₁.served hs hasleep, hsize, hid, hpauseSize⟩
  rw [removeTimers, if_neg hz, hloop, ok_bind, Nat.zero_add]
  dsimp only
  split_ifs <;> rfl

theorem setThreadState_request {k : Cpus τ} {tr : τ}
    (hrun : (k.threads tr).state = THREAD_RUNNING) :
    setThreadState 0 (some tr) k tr THREAD_DORMANT =
      .ok (k.setSched 0 { k.sched 0 with
        requestingThread := some tr, requestingState := int32 THREAD_DORMANT }) := by
  have hne : ¬(k.threads tr).state = int32 THREAD_DORMANT := fun he =>
    absurd ((Placed.int32_eq_running (by decide)).mp (he.symm.trans hrun)) (by decide)
  rw [setThreadState]
  dsimp only
  rw [if_neg hne, if_pos rfl, assert_of hrun, ok_bind, Cpus.at_of_lt (by decide), ok_bind]
  rfl

/-- A running thread that pauses gets an entry in its place, if there is room for one. -/
theorem pause_eq (now : ℕ) {k : Cpus τ} {tr : τ} {milliseconds : ℕ} (hms : 0 < milliseconds)
    (hrun : (k.threads tr).state = THREAD_RUNNING) (hcpu : (k.threads tr).cpu = 0) :
    ∃ k' rc, pause 0 (some tr) now k tr milliseconds = .ok (k', rc) ∧
      k'.cpuCount = k.cpuCount ∧ (∀ u, (k'.threads u).cpuAffinity = (k.threads u).cpuAffinity) ∧
      ((k.sched 0).PauseFull ∧ rc = -1 ∧ k' = k ∨ ¬ (k.sched 0).PauseFull ∧ rc = 0 ∧
        (k'.sched 0).asleep = (k.sched 0).asleep.insertIdx
          (slotFor request ((milliseconds + now) % 2 ^ 64) (k.sched 0).asleep)
          (pauseEntry (k.threads tr) tr milliseconds now)) := by
  have hat : k.at (k.threads tr).cpu = .ok (k.sched 0) := by
    rw [hcpu]
    exact Cpus.at_of_lt (by decide)
  rw [pause, assert_of hms, ok_bind]
  dsimp only
  rw [assert_of (by rw [hcpu]; rfl), ok_bind, hat, ok_bind]
  by_cases hfull : (k.sched 0).pauseCount = (k.sched 0).pauseSize
  · rw [if_pos hfull]
    exact ⟨k, -1, rfl, rfl, fun _ => rfl, .inl ⟨hfull, rfl, rfl⟩⟩
  · rw [if_neg hfull, search_eq_findIdx, hcpu, setThreadState_request (by exact hrun), ok_bind]
    refine ⟨_, 0, rfl, rfl, fun u => ?_, .inr ⟨hfull, rfl, ?_⟩⟩
    · by_cases hu : u = tr
      · rw [hu, Cpus.setThread_self]
        rfl
      · rw [Cpus.setThread_of_ne hu]
        rfl
    · simp only [Cpus.setThread, Cpus.setSched, SchedulerInfo.asleep, Int.toNat_zero,
        Function.update_self]
      refine taken_insert _ ?_ _
      exact List.findIdx_le_length.trans (length_taken ..).le

omit [DecidableEq τ] in
theorem homeCpu_one {k : Cpus τ} (hone : k.cpuCount = 1) {t : PlacedThread}
    (ht : t.cpuAffinity < 1) : homeCpu k t = .ok 0 := by
  rw [homeCpu, hone, if_neg one_ne_zero]
  split_ifs with hneg
  · rw [Nat.cast_one, Int.tmod_one]
  · rw [show t.cpuAffinity = 0 by omega]

theorem moveUp_eq_copyUp {α : Type} (a : ℕ → α) (pos : ℕ) : moveUp a pos = copyUp a 0 pos := by
  induction pos generalizing a with
  | zero => rfl
  | succ pos ih =>
    rw [moveUp, copyUp, ih]
    simp only [Nat.zero_add]

/-- A sleeper restarted comes first, with the time 0. -/
theorem restart_eq {k : Cpus τ} {tr : τ} (hone : k.cpuCount = 1)
    (haffinity : (k.threads tr).cpuAffinity < 1) (htr : tr ∈ threadsOf (k.sched 0).asleep) :
    ∃ k' p pos, restart k tr = .ok k' ∧ k'.cpuCount = k.cpuCount ∧ k'.threads = k.threads ∧
      (k.sched 0).asleep[pos]? = some p ∧ p.tr = some tr ∧
      (k'.sched 0).asleep = { p with request := 0 } :: (k.sched 0).asleep.eraseIdx pos := by
  obtain ⟨q, hq, hqtr⟩ := mem_threadsOf.mp htr
  have hlt : (k.sched 0).asleep.findIdx (fun p => decide (p.tr = some tr)) <
      (k.sched 0).pauseCount := by
    rw [← length_asleep, List.findIdx_lt_length]
    exact ⟨q, hq, decide_eq_true hqtr⟩
  have hpos : findPaused (k.sched 0) tr =
      (k.sched 0).asleep.findIdx fun p => decide (p.tr = some tr) := search_eq_findIdx ..
  rw [← hpos] at hlt
  have hget : (k.sched 0).asleep[findPaused (k.sched 0) tr]? =
      some ((k.sched 0).pauseQueue (findPaused (k.sched 0) tr)) := by
    rw [SchedulerInfo.asleep, getElem?_taken, if_pos hlt]
  have hentry : ((k.sched 0).pauseQueue (findPaused (k.sched 0) tr)).tr = some tr := by
    have hfound := List.findIdx_of_getElem?_eq_some 
      (p := fun p : PausedSchedule τ => decide (p.tr = some tr)) (hpos ▸ hget)
    rw [← hpos] at hfound
    exact of_decide_eq_true hfound
  have hat : k.at 0 = .ok (k.sched 0) := Cpus.at_of_lt (by decide : 0 < MAX_CPU)
  refine ⟨k.setSched 0 { k.sched 0 with
    pauseQueue := Function.update (moveUp (k.sched 0).pauseQueue (findPaused (k.sched 0) tr)) 0
      { ((k.sched 0).pauseQueue (findPaused (k.sched 0) tr)) with request := 0 } },
    _, _, ?_, rfl, rfl, hget, hentry, ?_⟩
  · rw [restart, homeCpu_one hone haffinity, ok_bind, hat, ok_bind]
    dsimp only
    rw [assert_of hlt.ne]
    rfl
  · simp only [Cpus.setSched, SchedulerInfo.asleep, Int.toNat_zero, Function.update_self,
      moveUp_eq_copyUp]
    exact taken_moveFront _ hlt _

/-- What holds between two calls. -/
structure Sleeping (s : Timed τ) : Prop where
  oneCpu : s.kernel.cpuCount = 1
  affinity : ∀ tr, (s.kernel.threads tr).cpuAffinity < 1
  ascending : Ascending request (s.kernel.sched 0).asleep
  entries : ∀ p ∈ (s.kernel.sched 0).asleep, p.tr ≠ none
  nodup : (threadsOf (s.kernel.sched 0).asleep).Nodup
  started : ∀ p ∈ (s.kernel.sched 0).asleep, p.start ≤ s.time
  restarted : ∀ tr ∈ s.restarted,
    ∃ p ∈ (s.kernel.sched 0).asleep, p.tr = some tr ∧ p.request = 0

namespace Sleeping
variable {s : Timed τ}

omit [DecidableEq τ] in
theorem init (h : s.kernel.cpuCount = 1)
    (hsched : ∃ garbage : ℕ → PausedSchedule τ, s.kernel.sched 0 = loadScheduler 0 garbage)
    (haffinity : ∀ tr, (s.kernel.threads tr).cpuAffinity < 1) (hnone : s.restarted = []) :
    Sleeping s := by
  obtain ⟨garbage, hsched⟩ := hsched
  have hnil : (s.kernel.sched 0).asleep = [] := by rw [hsched]; rfl
  refine ⟨h, haffinity, ?_, ?_, ?_, ?_, ?_⟩
  · rw [hnil]
    exact .nil
  · rw [hnil]
    nofun
  · rw [hnil]
    exact List.nodup_nil
  · rw [hnil]
    nofun
  · rw [hnone]
    nofun

omit [DecidableEq τ] in
/-- A thread put to sleep. -/
theorem insert (h : Sleeping s) {k' : Cpus τ} {tr : τ} {p : PausedSchedule τ} {now : ℕ}
    (hcount : k'.cpuCount = s.kernel.cpuCount)
    (haffinity : ∀ u, (k'.threads u).cpuAffinity = (s.kernel.threads u).cpuAffinity)
    (hp : p.tr = some tr) (htr : tr ∉ threadsOf (s.kernel.sched 0).asleep) (hnow : s.time ≤ now)
    (hstart : p.start = now) (hasleep : (k'.sched 0).asleep = (s.kernel.sched 0).asleep.insertIdx
      (slotFor request p.request (s.kernel.sched 0).asleep) p) :
    Sleeping { s with kernel := k', time := now } := by
  have hle : slotFor request p.request (s.kernel.sched 0).asleep ≤
      (s.kernel.sched 0).asleep.length := List.findIdx_le_length
  have hperm : (k'.sched 0).asleep.Perm (p :: (s.kernel.sched 0).asleep) :=
    hasleep ▸ List.perm_insertIdx p _ hle
  have hmem : ∀ q, q ∈ (k'.sched 0).asleep ↔ q = p ∨ q ∈ (s.kernel.sched 0).asleep := fun q =>
    hperm.mem_iff.trans List.mem_cons
  have hthreads : (threadsOf (k'.sched 0).asleep).Perm
      (tr :: threadsOf (s.kernel.sched 0).asleep) :=
    threadsOf_cons hp ▸ hperm.filterMap _
  refine ⟨hcount.trans h.oneCpu, fun u => haffinity u ▸ h.affinity u, ?_, fun q hq => ?_, ?_,
    fun q hq => ?_, fun u hu => ?_⟩
  · exact hasleep ▸ h.ascending.insert p
  · rcases (hmem q).mp hq with rfl | hq
    · rw [hp]
      exact Option.some_ne_none tr
    · exact h.entries q hq
  · exact hthreads.nodup_iff.mpr (List.nodup_cons.mpr ⟨htr, h.nodup⟩)
  · rcases (hmem q).mp hq with rfl | hq
    · exact hstart.le
    · exact (h.started q hq).trans hnow
  · obtain ⟨q, hq, hqu, hzero⟩ := h.restarted u hu
    exact ⟨q, (hmem q).mpr (.inr hq), hqu, hzero⟩

omit [DecidableEq τ] in
/-- A sleeper moved to the front. -/
theorem front (h : Sleeping s) {k' : Cpus τ} {tr : τ} {p : PausedSchedule τ} {pos : ℕ}
    (hcount : k'.cpuCount = s.kernel.cpuCount) (hthreads : k'.threads = s.kernel.threads)
    (hp : (s.kernel.sched 0).asleep[pos]? = some p) (htr : p.tr = some tr)
    (hasleep : (k'.sched 0).asleep =
      { p with request := 0 } :: (s.kernel.sched 0).asleep.eraseIdx pos) :
    Sleeping { s with kernel := k', restarted := tr :: s.restarted } := by
  have hsub : ((s.kernel.sched 0).asleep.eraseIdx pos).Sublist (s.kernel.sched 0).asleep :=
    List.eraseIdx_sublist ..
  have hperm : (s.kernel.sched 0).asleep.Perm (p :: (s.kernel.sched 0).asleep.eraseIdx pos) := by
    obtain ⟨hlt, rfl⟩ := List.getElem?_eq_some_iff.mp hp
    exact (List.getElem_cons_eraseIdx_perm hlt).symm
  have hthreadsOf : (threadsOf (k'.sched 0).asleep).Perm (threadsOf (s.kernel.sched 0).asleep) := by
    have hsame : threadsOf ({ p with request := 0 } :: (s.kernel.sched 0).asleep.eraseIdx pos) =
        threadsOf (p :: (s.kernel.sched 0).asleep.eraseIdx pos) := by
      rw [threadsOf_cons htr, threadsOf_cons (p := { p with request := 0 }) htr]
    rw [hasleep, hsame]
    exact (hperm.filterMap _).symm
  refine ⟨hcount.trans h.oneCpu, fun u => hthreads ▸ h.affinity u, ?_, fun q hq => ?_, ?_,
    fun q hq => ?_, fun u hu => ?_⟩
  · rw [hasleep]
    exact (h.ascending.sublist hsub).cons_of_le fun _ _ => Nat.zero_le _
  · rw [hasleep] at hq
    rcases List.mem_cons.mp hq with rfl | hq
    · exact htr ▸ Option.some_ne_none tr
    · exact h.entries q (hsub.mem hq)
  · exact hthreadsOf.nodup_iff.mpr h.nodup
  · rw [hasleep] at hq
    rcases List.mem_cons.mp hq with rfl | hq
    · exact h.started p (List.mem_of_getElem? hp)
    · exact h.started q (hsub.mem hq)
  · rw [hasleep]
    rcases List.mem_cons.mp hu with rfl | hu
    · exact ⟨_, List.mem_cons_self, htr, rfl⟩
    · obtain ⟨q, hq, hqu, hzero⟩ := h.restarted u hu
      rcases List.mem_cons.mp (hperm.mem_iff.mp hq) with rfl | hq
      · exact ⟨_, List.mem_cons_self, hqu, rfl⟩
      · exact ⟨q, List.mem_cons_of_mem _ hq, hqu, hzero⟩

omit [DecidableEq τ] in
/-- The sleepers that stay when the others are woken. -/
theorem wake (h : Sleeping s) {time : ℕ} (htime : s.time ≤ time) {k' : Cpus τ}
    (hcount : k'.cpuCount = s.kernel.cpuCount)
    (haffinity : ∀ u, (k'.threads u).cpuAffinity = (s.kernel.threads u).cpuAffinity)
    (hasleep : (k'.sched 0).asleep =
      (s.kernel.sched 0).asleep.filter fun p => decide (time < p.request)) :
    Sleeping { kernel := k', time := time, restarted := [] } := by
  have hsub : (k'.sched 0).asleep.Sublist (s.kernel.sched 0).asleep :=
    hasleep ▸ List.filter_sublist
  exact ⟨hcount.trans h.oneCpu, fun u => haffinity u ▸ h.affinity u, h.ascending.sublist hsub,
    fun q hq => h.entries q (hsub.mem hq), h.nodup.sublist (hsub.filterMap _),
    fun q hq => (h.started q (hsub.mem hq)).trans htime, nofun⟩

/-- `remove_timers` serves the sleepers who are due, among them those restarted. -/
theorem removeTimersAt_eq (h : Sleeping s) {time : ℕ}
    (hc : (TimerCall.removeTimers time).Guard s) :
    ∃ k' requested, removeTimersAt s.kernel 0 time = .ok (k', requested) ∧
      Served (s.kernel.cpu 0) (k'.cpu 0) time requested ∧
      Sleeping { kernel := k', time := time, restarted := [] } := by
  obtain ⟨htime, hroom⟩ := hc
  obtain ⟨c', requested, hr, hserved, -⟩ :=
    removeTimers_eq (c := s.kernel.cpu 0) h.ascending h.entries h.nodup hroom
  have hcpu : (s.kernel.setCpu 0 c').cpu 0 = c' := by
    simp [Cpus.setCpu, Cpus.cpu, Cpus.setSched]
  refine ⟨s.kernel.setCpu 0 c', requested, ?_, hcpu.symm ▸ hserved, ?_⟩
  · rw [removeTimersAt, hr]
    rfl
  · refine h.wake htime rfl (fun _ => rfl) ?_
    have hsched : (s.kernel.setCpu 0 c').sched 0 = c'.si := congrArg Cpu.si hcpu
    rw [hsched]
    exact hserved.asleep

omit [DecidableEq τ] in
theorem restarted_due (h : Sleeping s) (time : ℕ) {tr : τ} (htr : tr ∈ s.restarted) :
    tr ∈ threadsOf (dueBy (s.kernel.sched 0).asleep time) := by
  obtain ⟨p, hp, hptr, hzero⟩ := h.restarted tr htr
  refine mem_threadsOf.mpr ⟨p, List.mem_filter.mpr ⟨hp, decide_eq_true ?_⟩, hptr⟩
  rw [hzero]
  exact Nat.zero_le time

/-- A call permitted does not fault and keeps the pause queue in order. -/
theorem step (h : Sleeping s) {c : TimerCall τ} (hc : c.Guard s) :
    ∃ s', c.step s = .ok s' ∧ Sleeping s' := by
  cases c with
  | pause tr milliseconds now =>
    obtain ⟨hms, hnow, hrun, hcpu, hawake⟩ := hc
    obtain ⟨k', rc, hp, hcount, haffinity, hres⟩ := pause_eq now hms hrun hcpu
    refine ⟨_, by rw [TimerCall.step, hp]; rfl, ?_⟩
    rcases hres with ⟨-, -, rfl⟩ | ⟨-, -, hasleep⟩
    · exact ⟨h.oneCpu, h.affinity, h.ascending, h.entries, h.nodup,
        fun p hp => (h.started p hp).trans hnow, h.restarted⟩
    · exact h.insert hcount haffinity rfl hawake hnow rfl hasleep
  | restart tr =>
    obtain ⟨k', p, pos, hr, hcount, hthreads, hp, htr, hasleep⟩ :=
      restart_eq h.oneCpu (h.affinity tr) hc
    exact ⟨_, by rw [TimerCall.step, hr]; rfl, h.front hcount hthreads hp htr hasleep⟩
  | removeTimers time =>
    obtain ⟨k', requested, hr, -, hs⟩ := h.removeTimersAt_eq hc
    exact ⟨_, by rw [TimerCall.step, hr]; rfl, hs⟩
  | other e =>
    have hsame : ((e.apply s.kernel).sched 0).asleep = (s.kernel.sched 0).asleep := by
      simp [Elsewhere.apply, Cpus.setSched, SchedulerInfo.asleep]
    refine ⟨_, rfl, h.oneCpu, h.affinity, ?_, ?_, ?_, ?_, ?_⟩
    all_goals dsimp only
    all_goals rw [hsame]
    · exact h.ascending
    · exact h.entries
    · exact h.nodup
    · exact h.started
    · exact h.restarted

end Sleeping

theorem sleeping_of_reach {s : Timed τ} (h : (timerSystem τ).Reach s) : Sleeping s :=
  h.invariant (fun _ h₀ => .init h₀.1 h₀.2.1 h₀.2.2.1 h₀.2.2.2) fun _ _ hs hc => hs.step hc

/-- Along every run the pause queue is in order, `pause` adds its entry unless the queue is full,
`restart` changes nothing but the time of one, and `remove_timers` serves the sleepers due, each
once, among them all that have been restarted. -/
theorem timed_sleepers {s : Timed τ} (h : (timerSystem τ).Reach s) :
    Ascending request (s.kernel.sched 0).asleep ∧
    (∀ tr milliseconds now, (TimerCall.pause tr milliseconds now).Guard s →
      ∃ k' rc, pause 0 (some tr) now s.kernel tr milliseconds = .ok (k', rc) ∧
        ((s.kernel.sched 0).PauseFull ∧ rc = -1 ∧ k' = s.kernel ∨
          ¬ (s.kernel.sched 0).PauseFull ∧ rc = 0 ∧ (k'.sched 0).asleep.Perm
            (pauseEntry (s.kernel.threads tr) tr milliseconds now ::
              (s.kernel.sched 0).asleep))) ∧
    (∀ tr, (TimerCall.restart tr).Guard s → ∃ k' p pos, restart s.kernel tr = .ok k' ∧
      (s.kernel.sched 0).asleep[pos]? = some p ∧ p.tr = some tr ∧
        (k'.sched 0).asleep = { p with request := 0 } :: (s.kernel.sched 0).asleep.eraseIdx pos) ∧
    ∀ time, (TimerCall.removeTimers time).Guard s →
      ∃ k' requested, removeTimersAt s.kernel 0 time = .ok (k', requested) ∧
        Served (s.kernel.cpu 0) (k'.cpu 0) time requested ∧
          (threadsOf (dueBy (s.kernel.sched 0).asleep time)).Nodup ∧
            ∀ tr ∈ s.restarted, tr ∈ threadsOf (dueBy (s.kernel.sched 0).asleep time) := by
  have hs := sleeping_of_reach h
  refine ⟨hs.ascending, fun tr milliseconds now hc => ?_, fun tr hc => ?_, fun time hc => ?_⟩
  · obtain ⟨hms, -, hrun, hcpu, -⟩ := hc
    obtain ⟨k', rc, hp, -, -, hres⟩ := pause_eq now hms hrun hcpu
    refine ⟨k', rc, hp, hres.imp_right fun hok => ⟨hok.1, hok.2.1, ?_⟩⟩
    rw [hok.2.2]
    exact List.perm_insertIdx _ _ List.findIdx_le_length
  · obtain ⟨k', p, pos, hr, -, -, hp, htr, hasleep⟩ := restart_eq hs.oneCpu (hs.affinity tr) hc
    exact ⟨k', p, pos, hr, hp, htr, hasleep⟩
  · obtain ⟨k', requested, hr, hserved, -⟩ := hs.removeTimersAt_eq hc
    exact ⟨k', requested, hr, hserved, hs.nodup.sublist (List.filter_sublist.filterMap _),
      fun tr htr => hs.restarted_due time htr⟩

/-- One CPU, on which every thread may run. -/
def wideAwake : Timed ℕ where
  kernel := ⟨fun id => loadScheduler id fun _ => ⟨none, 0, 0, 0⟩, 1, fun _ => ⟨⟨1, 0, 0⟩, 1, -1⟩⟩
  time := 0
  restarted := []

/-- Thread 7 sleeps until 11 and thread 8 until 15, but is restarted. -/
theorem timed_sleepers_two : ∃ s : Timed ℕ, threadsOf (s.kernel.sched 0).asleep = [8, 7] ∧
    ∃ k' requested, removeTimersAt s.kernel 0 10 = .ok (k', requested) ∧
      Served (s.kernel.cpu 0) (k'.cpu 0) 10 requested := by
  have h₀ : (timerSystem ℕ).Reach wideAwake :=
    .of_init ⟨rfl, ⟨_, rfl⟩, fun _ => (by decide : (-1 : ℤ) < 1), rfl⟩
  have h₁ := h₀.step (i := TimerCall.pause 7 10 1)
    ⟨by decide, by decide, rfl, rfl, by decide⟩ rfl
  have h₂ := h₁.step (i := TimerCall.pause 8 10 5)
    ⟨by decide, by decide, rfl, rfl, by decide⟩ rfl
  have h₃ := h₂.step (i := TimerCall.restart 8) (by change _ ∈ threadsOf _; decide) rfl
  obtain ⟨-, -, -, hserve⟩ := timed_sleepers h₃
  obtain ⟨k', requested, hr, hserved, -⟩ := hserve 10 ⟨by decide, by decide⟩
  exact ⟨_, by decide, k', requested, hr, hserved⟩

end Racoon.Scheduler
