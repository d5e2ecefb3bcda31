import Racoon.Machine
import Racoon.Lib.Run
import Racoon.Lib.Prefix

/-!
# The run queue of one CPU

`scheduler/scheduler.c` keeps the runnable threads of a CPU in the first
`sched_count` cells of an array and walks them with `position`. Three removers
close the gap they leave and step `position` back with unsigned arithmetic that
wraps below zero; timers append behind the back of `queue`. The invariant ties
the array to the list of the threads added and not yet removed, and from it the
selection step always finds a queued thread.

The scheduler locks around these functions serialise them and are left out here.
-/

namespace Racoon.Scheduler
open Lib
variable {τ : Type}

/-- The fields of `struct thread` these functions write. -/
structure Thread where
  state : ℤ
  duration : ℕ
  cpu : ℤ

structure PausedSchedule (τ : Type) where
  tr : Option τ
  state : ℤ
  request : ℕ
  start : ℕ

/-- `struct scheduler_info` without its locks and its fast queue. -/
structure SchedulerInfo (τ : Type) where
  cpuId : ℕ
  requestingState : ℤ
  requestingThread : Option τ
  schedQueue : ℕ → Option τ
  pauseQueue : ℕ → PausedSchedule τ
  schedCount : ℕ
  pauseCount : ℕ
  schedSize : ℕ
  pauseSize : ℕ
  position : ℕ

def INITIAL_SCHED_SIZE : ℕ := 1024

/-- The entries of the pause queue are whatever `kmalloc` returned, but for `tr`. -/
def loadScheduler (cpuId : ℕ) (garbage : ℕ → PausedSchedule τ) : SchedulerInfo τ where
  cpuId := cpuId
  requestingState := -1
  requestingThread := none
  schedQueue _ := none
  pauseQueue i := { garbage i with tr := none }
  schedCount := 0
  pauseCount := 0
  schedSize := INITIAL_SCHED_SIZE
  pauseSize := INITIAL_SCHED_SIZE
  position := 0

def subQueue (si : SchedulerInfo τ) (tr : τ) : SchedulerInfo τ × ℤ :=
  if si.schedCount = si.schedSize then (si, -1)
  else ({ si with
    schedQueue := Function.update si.schedQueue si.schedCount (some tr)
    schedCount := si.schedCount + 1 }, 0)

/-- The position of `tr`, `sched_count` when it is not queued. -/
def find [DecidableEq τ] (si : SchedulerInfo τ) (tr : τ) : ℕ :=
  search (fun slot => decide (slot = some tr)) si.schedQueue 0 si.schedCount

/-- Closing the gap at `pos`, as `sub_dequeue` and `remove_last` both do. -/
def closeGap (si : SchedulerInfo τ) (pos : ℕ) : SchedulerInfo τ :=
  let count := si.schedCount - 1
  { si with
    schedQueue := copyDown 1 si.schedQueue pos (si.schedCount - 1 - pos)
    schedCount := count
    position := if count = 0 then 0 else sub32 si.position 1 % count }

/-- `current` is the thread that runs on the calling CPU. -/
def subDequeue [DecidableEq τ] (current : Option τ) (si : SchedulerInfo τ) (tr : τ) :
    Outcome (SchedulerInfo τ) := do
  assert (some tr ≠ current)
  let pos := find si tr
  assert (pos ≠ si.schedCount)
  .ok (closeGap si pos)

/-- A CPU's scheduler and the threads it refers to. -/
structure Cpu (τ : Type) where
  si : SchedulerInfo τ
  threads : τ → Thread

def Cpu.clearRequest (c : Cpu τ) : Cpu τ :=
  { c with si := { c.si with requestingThread := none, requestingState := -1 } }

/-- The requested state change of `tr`: it leaves the run queue, if it is there. -/
def honourRequest [DecidableEq τ] (c : Cpu τ) (tr : τ) : Cpu τ :=
  let pos := find c.si tr
  if pos = c.si.schedCount then c.clearRequest
  else
    let t := { c.threads tr with state := c.si.requestingState, cpu := -1 }
    Cpu.clearRequest ⟨closeGap c.si pos, Function.update c.threads tr t⟩

def honourLast [DecidableEq τ] (c : Cpu τ) : Cpu τ :=
  match c.si.requestingThread with
  | some tr => if 0 ≤ c.si.requestingState then honourRequest c tr else c
  | none => c

def removeLast [DecidableEq τ] (c : Cpu τ) : Outcome (Cpu τ) := do
  let c := honourLast c
  assert (c.si.requestingThread = none)
  assert (c.si.requestingState < 0)
  .ok c

/-- One round of the loop of `remove_timers`: entry `count` of the pause queue is due. -/
def wake [DecidableEq τ] (c : Cpu τ) (time count : ℕ) : Outcome (Cpu τ) := do
  let p := c.si.pauseQueue count
  let tr ← deref p.tr
  let t := { c.threads tr with
    state := p.state, duration := time - p.start, cpu := c.si.cpuId }
  assert (c.si.schedCount ≠ c.si.schedSize)
  .ok ⟨(subQueue c.si tr).1, Function.update c.threads tr t⟩

/-- The loop of `remove_timers` with `left` entries not looked at: the CPU reached, the number
of entries moved and the `pause_count` left. -/
def wakeLoop [DecidableEq τ] (time : ℕ) : ℕ → ℕ → Cpu τ → Outcome (Cpu τ × ℕ × ℕ)
  | 0, count, c => .ok (c, count, 0)
  | left + 1, count, c =>
    if (c.si.pauseQueue count).request ≤ time then do
      let c ← wake c time count
      wakeLoop time left (count + 1) c
    else .ok (c, count, left + 1)

def removeTimers [DecidableEq τ] (c : Cpu τ) (time : ℕ) : Outcome (Cpu τ × ℕ) :=
  if c.si.pauseCount = 0 then .ok (c, 0)
  else do
    let (c, count, left) ← wakeLoop time c.si.pauseCount 0 c
    let pauseQueue := copyDown count c.si.pauseQueue 0 left
    let c := { c with si := { c.si with pauseQueue := pauseQueue, pauseCount := left } }
    if left = 0 then .ok (c, 0)
    else .ok (c, (pauseQueue 0).request - time)

/-- The selection step of `scheduler`; with nothing queued the idle thread runs. -/
def select (si : SchedulerInfo τ) : SchedulerInfo τ × Option τ :=
  if si.schedCount = 0 then (si, none)
  else ({ si with position := (si.position + 1) % si.schedCount }, si.schedQueue si.position)

/-- A CPU with the list of the threads added to its run queue and not removed since. -/
structure Run (τ : Type) where
  cpu : Cpu τ
  members : List τ

/-- The calls on one CPU's scheduler. `request` and `sleepers` stand for whatever the rest of the
kernel may leave in the pending request and in the pause queue between two of them. -/
inductive Call (τ : Type)
  | queue (tr : τ)
  | dequeue (current : Option τ) (tr : τ)
  | request (thread : Option τ) (state : ℤ)
  | removeLast
  | sleepers (pauseQueue : ℕ → PausedSchedule τ) (pauseCount : ℕ)
  | removeTimers (time : ℕ)
  | select

/-- The sleepers whose request has passed, at the head of the pause queue. -/
def due (si : SchedulerInfo τ) (time : ℕ) : List (PausedSchedule τ) :=
  (taken si.pauseQueue si.pauseCount).takeWhile fun p => decide (p.request ≤ time)

/-- The members left once the pending request is honoured. -/
def honoured [DecidableEq τ] (si : SchedulerInfo τ) (members : List τ) : List τ :=
  match si.requestingThread with
  | some tr => if 0 ≤ si.requestingState then members.erase tr else members
  | none => members

def Call.exec [DecidableEq τ] (s : Run τ) : Call τ → Outcome (Run τ)
  | .queue tr =>
    let r := subQueue s.cpu.si tr
    .ok ⟨{ s.cpu with si := r.1 }, if r.2 = 0 then s.members ++ [tr] else s.members⟩
  | .dequeue current tr => do
    let si ← subDequeue current s.cpu.si tr
    .ok ⟨{ s.cpu with si := si }, s.members.erase tr⟩
  | .request thread state =>
    .ok { s with cpu := { s.cpu with
      si := { s.cpu.si with requestingThread := thread, requestingState := state } } }
  | .removeLast => do
    let cpu ← Scheduler.removeLast s.cpu
    .ok ⟨cpu, honoured s.cpu.si s.members⟩
  | .sleepers pauseQueue pauseCount =>
    .ok { s with cpu := { s.cpu with
      si := { s.cpu.si with pauseQueue := pauseQueue, pauseCount := pauseCount } } }
  | .removeTimers time => do
    let (cpu, _) ← Scheduler.removeTimers s.cpu time
    .ok ⟨cpu, s.members ++ (due s.cpu.si time).filterMap PausedSchedule.tr⟩
  | .select => .ok { s with cpu := { s.cpu with si := (Scheduler.select s.cpu.si).1 } }

/-- A thread is added only while it is not in the run queue, and only a queued thread other than
the one running is dequeued. -/
def Call.Permitted (s : Run τ) : Call τ → Prop
  | .queue tr => tr ∉ s.members
  | .dequeue current tr => tr ∈ s.members ∧ some tr ≠ current
  | .removeTimers time => (s.members ++ (due s.cpu.si time).filterMap PausedSchedule.tr).Nodup
  | _ => True

def start (cpuId : ℕ) (garbage : ℕ → PausedSchedule τ) (threads : τ → Thread) : Run τ :=
  ⟨⟨loadScheduler cpuId garbage, threads⟩, []⟩

def runQueueSystem (τ : Type) [DecidableEq τ] : System (Run τ) (Call τ) Fault where
  Init s := ∃ cpuId garbage threads, s = start cpuId garbage threads
  Guard s c := c.Permitted s
  step s c := c.exec s

structure Intact (si : SchedulerInfo τ) (members : List τ) : Prop where
  count_le : si.schedCount ≤ si.schedSize
  position : if si.schedCount = 0 then si.position = 0 else si.position < si.schedCount
  entries : taken si.schedQueue si.schedCount = members.map some
  nodup : members.Nodup

namespace Intact
variable {si : SchedulerInfo τ} {members : List τ}

theorem count_eq (h : Intact si members) : si.schedCount = members.length := by
  simpa using congrArg List.length h.entries

theorem find_eq [DecidableEq τ] (h : Intact si members) (tr : τ) :
    find si tr = members.idxOf tr := by
  rw [find, search_eq_findIdx, h.entries, List.findIdx_map]
  congr 1
  funext x
  simp [Function.comp, beq_eq_decide]

theorem find_eq_count_iff [DecidableEq τ] (h : Intact si members) (tr : τ) :
    find si tr = si.schedCount ↔ tr ∉ members := by
  rw [h.find_eq, h.count_eq, List.idxOf_eq_length_iff]

theorem push (h : Intact si members) {tr : τ} (htr : tr ∉ members)
    (hc : si.schedCount ≠ si.schedSize) : Intact (subQueue si tr).1 (members ++ [tr]) := by
  have hle := h.count_le
  rw [subQueue, if_neg hc]
  refine ⟨by dsimp; omega, ?_, ?_, ?_⟩
  · have hp := h.position
    dsimp
    split_ifs at hp ⊢ <;> omega
  · simpa [h.entries] using taken_push si.schedQueue si.schedCount (some tr)
  · simpa using List.Nodup.append h.nodup (List.nodup_singleton tr) (by simpa using htr)

/-- Stepping `position` back wraps to the last index of a word, and the remainder is in range. -/
theorem closeGap [DecidableEq τ] (h : Intact si members) {tr : τ} (htr : tr ∈ members) :
    Intact (closeGap si (find si tr)) (members.erase tr) := by
  have hlt : find si tr < si.schedCount := by
    rw [h.find_eq, h.count_eq]
    exact List.idxOf_lt_length_of_mem htr
  have hle := h.count_le
  refine ⟨by dsimp [Scheduler.closeGap]; omega, ?_, ?_, h.nodup.erase tr⟩
  · dsimp [Scheduler.closeGap]
    split_ifs with hz
    · rfl
    · exact Nat.mod_lt _ (by omega)
  · dsimp [Scheduler.closeGap]
    rw [taken_closeGap _ hlt, h.entries, h.find_eq, List.eraseIdx_map,
      ← List.erase_eq_eraseIdx_of_idxOf rfl]

theorem clearRequest {c : Cpu τ} (h : Intact c.si members) : Intact c.clearRequest.si members :=
  ⟨h.count_le, h.position, h.entries, h.nodup⟩

theorem select (h : Intact si members) : Intact (select si).1 members := by
  unfold Scheduler.select
  split_ifs with hz
  · exact h
  · refine ⟨h.count_le, ?_, h.entries, h.nodup⟩
    rw [if_neg hz]
    exact Nat.mod_lt _ (Nat.pos_of_ne_zero hz)

/-- The selection step picks a queued thread. -/
theorem select_mem (h : Intact si members) (hne : si.schedCount ≠ 0) :
    ∃ tr ∈ members, (Scheduler.select si).2 = some tr := by
  have hp := h.position
  rw [if_neg hne] at hp
  have hm : si.schedQueue si.position ∈ taken si.schedQueue si.schedCount :=
    mem_taken.mpr ⟨_, hp, rfl⟩
  rw [h.entries] at hm
  obtain ⟨tr, htr, he⟩ := List.mem_map.mp hm
  exact ⟨tr, htr, by simp [Scheduler.select, hne, he]⟩

theorem honourRequest [DecidableEq τ] {c : Cpu τ} (h : Intact c.si members) (tr : τ) :
    Intact (honourRequest c tr).si (members.erase tr) := by
  unfold Scheduler.honourRequest
  dsimp only
  split_ifs with hf
  · rw [List.erase_of_not_mem ((h.find_eq_count_iff tr).mp hf)]
    exact h.clearRequest
  · have hm := not_not.mp (mt (h.find_eq_count_iff tr).mpr hf)
    exact Intact.clearRequest (c := ⟨_, _⟩) (h.closeGap hm)

theorem honourLast [DecidableEq τ] {c : Cpu τ} (h : Intact c.si members) :
    Intact (honourLast c).si (honoured c.si members) := by
  unfold Scheduler.honourLast honoured
  cases c.si.requestingThread with
  | none => exact h
  | some tr =>
    dsimp only
    split_ifs
    · exact h.honourRequest tr
    · exact h

theorem removeLast [DecidableEq τ] {c d : Cpu τ} (h : Intact c.si members)
    (hd : removeLast c = .ok d) :
    Intact d.si (honoured c.si members) := by
  obtain ⟨_, _, hd⟩ := bind_eq_ok.mp hd
  obtain ⟨_, _, hd⟩ := bind_eq_ok.mp hd
  cases hd
  exact h.honourLast

end Intact

theorem subQueue_pauseQueue (si : SchedulerInfo τ) (tr : τ) :
    (subQueue si tr).1.pauseQueue = si.pauseQueue := by
  unfold subQueue
  split_ifs <;> rfl

theorem wake_eq_ok [DecidableEq τ] {c d : Cpu τ} {time count : ℕ} (h : wake c time count = .ok d) :
    ∃ tr, (c.si.pauseQueue count).tr = some tr ∧ c.si.schedCount ≠ c.si.schedSize ∧
      d.si = (subQueue c.si tr).1 := by
  obtain ⟨tr, htr, h⟩ := bind_eq_ok.mp h
  obtain ⟨_, hc, h⟩ := bind_eq_ok.mp h
  cases h
  exact ⟨tr, deref_eq_ok.mp htr, assert_eq_ok.mp hc, rfl⟩

/-- The entries of the pause queue from `count` on whose request has passed. -/
def dueFrom (pauseQueue : ℕ → PausedSchedule τ) (time count left : ℕ) : List τ :=
  (((List.range' count left).map pauseQueue).takeWhile
    fun p => decide (p.request ≤ time)).filterMap PausedSchedule.tr

theorem dueFrom_zero (si : SchedulerInfo τ) (time : ℕ) :
    dueFrom si.pauseQueue time 0 si.pauseCount = (due si time).filterMap PausedSchedule.tr := by
  simp only [dueFrom, due, taken, List.range_eq_range']

theorem dueFrom_succ {pauseQueue : ℕ → PausedSchedule τ} {time count left : ℕ} {tr : τ}
    (hd : (pauseQueue count).request ≤ time) (htr : (pauseQueue count).tr = some tr) :
    dueFrom pauseQueue time count (left + 1) = tr :: dueFrom pauseQueue time (count + 1) left := by
  simp [dueFrom, List.range'_succ, hd, htr]

theorem dueFrom_stop {pauseQueue : ℕ → PausedSchedule τ} {time count left : ℕ}
    (hd : ¬ (pauseQueue count).request ≤ time) :
    dueFrom pauseQueue time count (left + 1) = [] := by
  simp [dueFrom, List.range'_succ, hd]

/-- By induction on the entries left: each one due is appended behind the members. -/
theorem wakeLoop_intact [DecidableEq τ] {time left : ℕ} :
    ∀ {count k r : ℕ} {c d : Cpu τ} {members : List τ},
    Intact c.si members →
    (members ++ dueFrom c.si.pauseQueue time count left).Nodup →
    wakeLoop time left count c = .ok (d, k, r) →
    Intact d.si (members ++ dueFrom c.si.pauseQueue time count left) := by
  induction left with
  | zero =>
    intro count k r c d members h _ hrun
    cases hrun
    simpa [dueFrom] using h
  | succ left ih =>
    intro count k r c d members h hnd hrun
    simp only [wakeLoop] at hrun
    split_ifs at hrun with hd
    · obtain ⟨c', hw, hrun⟩ := bind_eq_ok.mp hrun
      obtain ⟨tr, htr, hc, he⟩ := wake_eq_ok hw
      rw [dueFrom_succ hd htr] at hnd ⊢
      have hm : tr ∉ members := fun hm =>
        (List.nodup_append.mp hnd).2.2 tr hm tr (List.mem_cons_self) rfl
      have hi : Intact c'.si (members ++ [tr]) := he ▸ h.push hm hc
      have hq : c'.si.pauseQueue = c.si.pauseQueue := he ▸ subQueue_pauseQueue c.si tr
      rw [List.append_cons, ← hq] at hnd ⊢
      exact ih hi hnd hrun
    · cases hrun
      simpa [dueFrom_stop hd] using h

theorem Intact.removeTimers [DecidableEq τ] {c d : Cpu τ} {members : List τ} {time t : ℕ}
    (h : Intact c.si members) (hnd : (members ++ (due c.si time).filterMap PausedSchedule.tr).Nodup)
    (hd : removeTimers c time = .ok (d, t)) :
    Intact d.si (members ++ (due c.si time).filterMap PausedSchedule.tr) := by
  rw [← dueFrom_zero] at hnd ⊢
  unfold Scheduler.removeTimers at hd
  split_ifs at hd with hz
  · cases hd
    simpa [dueFrom, hz] using h
  · obtain ⟨⟨c', k, r⟩, hw, hd⟩ := bind_eq_ok.mp hd
    have hi := wakeLoop_intact h hnd hw
    dsimp only at hd
    split_ifs at hd <;> cases hd <;> exact ⟨hi.count_le, hi.position, hi.entries, hi.nodup⟩

theorem intact_start (cpuId : ℕ) (garbage : ℕ → PausedSchedule τ) (threads : τ → Thread) :
    Intact (start cpuId garbage threads).cpu.si [] := by
  constructor <;> simp [start, loadScheduler]

/-- The step lemma: every permitted call keeps the run queue intact. -/
theorem Intact.exec [DecidableEq τ] {s t : Run τ} {c : Call τ} (h : Intact s.cpu.si s.members)
    (hc : c.Permitted s) (ht : c.exec s = .ok t) : Intact t.cpu.si t.members := by
  cases c with
  | queue tr =>
    simp only [Call.exec, Except.ok.injEq] at ht
    subst ht
    by_cases hf : s.cpu.si.schedCount = s.cpu.si.schedSize
    · simpa [subQueue, hf] using h
    · have hp := h.push hc hf
      simpa [subQueue, hf] using hp
  | dequeue current tr =>
    obtain ⟨si, hsi, ht⟩ := bind_eq_ok.mp ht
    cases ht
    obtain ⟨_, _, hsi⟩ := bind_eq_ok.mp hsi
    obtain ⟨_, _, hsi⟩ := bind_eq_ok.mp hsi
    cases hsi
    exact h.closeGap hc.1
  | request thread state =>
    cases ht
    exact ⟨h.count_le, h.position, h.entries, h.nodup⟩
  | removeLast =>
    obtain ⟨cpu, hr, ht⟩ := bind_eq_ok.mp ht
    cases ht
    exact h.removeLast hr
  | sleepers pauseQueue pauseCount =>
    cases ht
    exact ⟨h.count_le, h.position, h.entries, h.nodup⟩
  | removeTimers time =>
    obtain ⟨⟨cpu, _⟩, hr, ht⟩ := bind_eq_ok.mp ht
    cases ht
    exact h.removeTimers hc hr
  | select =>
    cases ht
    exact h.select

/-- Dequeuing a queued thread fails no assertion. -/
theorem Intact.dequeue_ok [DecidableEq τ] {si : SchedulerInfo τ} {members : List τ}
    (h : Intact si members)
    {current : Option τ} {tr : τ} (htr : tr ∈ members) (hc : some tr ≠ current) :
    ∃ si', subDequeue current si tr = .ok si' := by
  have hf := mt (h.find_eq_count_iff tr).mp (not_not.mpr htr)
  simp [subDequeue, assert_of hc, assert_of hf]

/-- Along every run the array holds the members in order, `position` is in range and the
selection step picks one of them. -/
theorem run_queue_integrity [DecidableEq τ] {cpuId : ℕ} {garbage : ℕ → PausedSchedule τ}
    {threads : τ → Thread} {cs : List (Call τ)} {s : Run τ}
    (h : (runQueueSystem τ).Steps (start cpuId garbage threads) cs s) :
    Intact s.cpu.si s.members ∧
    (s.cpu.si.schedCount ≠ 0 → ∃ tr ∈ s.members, (select s.cpu.si).2 = some tr) := by
  have hi : Intact s.cpu.si s.members :=
    h.invariant (P := fun s => Intact s.cpu.si s.members) (fun _ _ _ hs hg ht => hs.exec hg ht)
      (intact_start cpuId garbage threads)
  exact ⟨hi, hi.select_mem⟩

theorem run_queue_integrity_example : ∃ s : Run ℕ, s.members = [6] ∧
    taken s.cpu.si.schedQueue s.cpu.si.schedCount = [some 6] ∧
    ∃ tr ∈ s.members, (select s.cpu.si).2 = some tr := by
  let idle : Thread := ⟨2, 0, -1⟩
  have h : (runQueueSystem ℕ).Steps (start 0 (fun _ => ⟨none, 0, 0, 0⟩) fun _ => idle)
      [.queue 5, .queue 6, .select, .dequeue none 5] _ :=
    .cons List.not_mem_nil rfl (.cons (by change 6 ∉ [5]; decide) rfl
      (.cons trivial rfl (.one ⟨by change 5 ∈ [5, 6]; decide, nofun⟩ rfl)))
  obtain ⟨hi, hs⟩ := run_queue_integrity h
  exact ⟨_, rfl, hi.entries, hs (by decide)⟩

end Racoon.Scheduler
