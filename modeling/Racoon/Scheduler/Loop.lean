import Racoon.Scheduler.RoundRobin

/-!
# The loop of the scheduler

Between two turns `scheduler` lets the garbage collector run if it has work, wakes
the sleepers, and then runs the first thread of the fast queue or the next one of
the run queue; after a turn of the fast queue the run queue comes first. While a
thread runs the other queues may change. So a thread that is queued has its turn
within a fixed number of turns, whatever is added to the queues, as long as none
leaves the run queue. When threads leave, the step back of `position` can shut one
out for ever: two threads that wake each other in turn suffice.
-/

namespace Racoon.Scheduler
open Lib
variable {τ : Type}

/-- What the loop has made run. -/
inductive Stage (τ : Type)
  | start
  | gc
  | fast (tr : τ)
  | turn (tr : τ)
  | idle
  deriving DecidableEq

/-- The thread that runs, where it is not one of the kernel's own. -/
def Stage.current : Stage τ → Option τ
  | .fast tr => some tr
  | .turn tr => some tr
  | _ => none

/-- The scheduler of a CPU with the queues that its loop looks at. -/
structure Loop (τ : Type) where
  run : Run τ
  fastQueue : ℕ → Option τ
  fastStart : ℕ
  fastStop : ℕ
  gcSize : ℕ
  flip : Bool
  stage : Stage τ

def getFast (s : Loop τ) : Option τ :=
  if s.fastStart = s.fastStop then none else s.fastQueue s.fastStart

variable [DecidableEq τ]

/-- The end of a pass of the loop, after the thread has returned. -/
def resume (s : Loop τ) : Outcome (Loop τ) :=
  match s.stage with
  | .fast _ => .ok { s with flip := if s.run.cpu.si.schedCount ≠ 0 then true else s.flip }
  | .turn _ | .idle => do
    let run ← Call.removeLast.exec s.run
    .ok { s with run := run }
  | .start | .gc => .ok s

/-- The pass from the fast queue on. Without work but for the garbage collector, it starts again. -/
def choose (s : Loop τ) : Outcome (Loop τ) :=
  match if s.flip = false then getFast s else none with
  | some tr => .ok { s with stage := .fast tr }
  | none =>
    if s.run.cpu.si.schedCount = 0 then
      .ok { s with flip := false, stage := if s.gcSize ≠ 0 then .gc else .idle }
    else
      match (select s.run.cpu.si).2 with
      | none => .error .assertion
      | some tr => do
        let run ← Call.select.exec s.run
        .ok { s with run := run, flip := false, stage := .turn tr }

/-- From the end of a turn to the start of the next one. -/
def pass (s : Loop τ) (time : ℕ) : Outcome (Loop τ) := do
  let s ← resume s
  if s.stage ≠ .gc ∧ s.gcSize ≠ 0 then .ok { s with stage := .gc }
  else do
    let run ← (Call.removeTimers time).exec s.run
    choose { s with run := run }

/-- `others` stands for whatever becomes of the fast queue and of the queue of the garbage
collector during a turn. -/
inductive Input (τ : Type)
  | call (c : Call τ)
  | others (fastQueue : ℕ → Option τ) (fastStart fastStop gcSize : ℕ)
  | pass (time : ℕ)

/-- A thread requests a change of its own state only. -/
def Input.Guard (s : Loop τ) : Input τ → Prop
  | .call (.queue tr) => (Call.queue tr).Permitted s.run
  | .call (.dequeue current tr) => (Call.dequeue current tr).Permitted s.run
  | .call (.request thread _) => thread = none ∨ thread = s.stage.current
  | .call (.sleepers _ _) => True
  | .call _ => False
  | .others _ _ _ _ => True
  | .pass time => ∀ s', resume s = .ok s' → (Call.removeTimers time).Permitted s'.run

def Input.step (s : Loop τ) : Input τ → Outcome (Loop τ)
  | .call c => do
    let run ← c.exec s.run
    .ok { s with run := run }
  | .others fastQueue fastStart fastStop gcSize =>
    .ok { s with
      fastQueue := fastQueue, fastStart := fastStart, fastStop := fastStop, gcSize := gcSize }
  | .pass time => Scheduler.pass s time

/-- The loop as `load_scheduler` leaves the queues. -/
def Loop.load (cpuId : ℕ) (garbage : ℕ → PausedSchedule τ) (threads : τ → Thread)
    (fastQueue : ℕ → Option τ) : Loop τ where
  run := start cpuId garbage threads
  fastQueue := fastQueue
  fastStart := 0
  fastStop := 0
  gcSize := 0
  flip := false
  stage := .start

def loopSystem (τ : Type) [DecidableEq τ] : System (Loop τ) (Input τ) Fault where
  Init s := ∃ cpuId garbage threads fastQueue, s = Loop.load cpuId garbage threads fastQueue
  Guard s i := i.Guard s
  step s i := i.step s

/-- No thread leaves the run queue by this call, and `position` stays. -/
def Call.Adds : Call τ → Prop
  | .dequeue _ _ => False
  | .request thread _ => thread = none
  | .select => False
  | _ => True

def Input.Adds : Input τ → Prop
  | .call c => c.Adds
  | _ => True

def Input.isPass : Input τ → Bool
  | .pass _ => true
  | _ => false

variable {s t : Loop τ} {x : τ} {i : Input τ} {run : Run τ}

/-- A thread stands in the run queue, and no thread is about to leave it. -/
structure Waits (size : ℕ) (x : τ) (run : Run τ) : Prop where
  intact : Intact run.cpu.si run.members
  mem : x ∈ run.members
  request : run.cpu.si.requestingThread = none
  size : run.cpu.si.schedSize = size

/-- How many turns of others may come before the turn of a thread. -/
def turnsAhead (x : τ) (run : Run τ) : ℕ :=
  if run.cpu.si.position ≤ run.members.idxOf x then
    run.members.idxOf x - run.cpu.si.position
  else run.cpu.si.schedSize - run.cpu.si.position + run.members.idxOf x

/-- How many other turns may come before one of the run queue. -/
def Loop.before (s : Loop τ) : ℕ :=
  match s.stage with
  | .gc => if s.flip then 0 else 2
  | .fast _ => 1
  | _ => 3

omit [DecidableEq τ] in
theorem subQueue_frame (si : SchedulerInfo τ) (tr : τ) :
    (subQueue si tr).1.schedSize = si.schedSize ∧
      (subQueue si tr).1.position = si.position ∧
      (subQueue si tr).1.requestingThread = si.requestingThread := by
  unfold subQueue
  split_ifs <;> exact ⟨rfl, rfl, rfl⟩

theorem wakeLoop_frame {time left : ℕ} : ∀ {count k r : ℕ} {c d : Cpu τ},
    wakeLoop time left count c = .ok (d, k, r) → d.si.schedSize = c.si.schedSize ∧
      d.si.position = c.si.position ∧ d.si.requestingThread = c.si.requestingThread := by
  induction left with
  | zero =>
    intro count k r c d h
    cases h
    exact ⟨rfl, rfl, rfl⟩
  | succ left ih =>
    intro count k r c d h
    simp only [wakeLoop] at h
    split_ifs at h
    · obtain ⟨c', hw, h⟩ := bind_eq_ok.mp h
      obtain ⟨tr, -, -, hsi⟩ := wake_eq_ok hw
      obtain ⟨h₁, h₂, h₃⟩ := ih h
      obtain ⟨h₁', h₂', h₃'⟩ := subQueue_frame c.si tr
      rw [hsi] at h₁ h₂ h₃
      exact ⟨h₁.trans h₁', h₂.trans h₂', h₃.trans h₃'⟩
    · cases h
      exact ⟨rfl, rfl, rfl⟩

theorem removeTimers_frame {c d : Cpu τ} {time n : ℕ} (h : removeTimers c time = .ok (d, n)) :
    d.si.schedSize = c.si.schedSize ∧ d.si.position = c.si.position ∧
      d.si.requestingThread = c.si.requestingThread := by
  unfold removeTimers at h
  split_ifs at h
  · cases h
    exact ⟨rfl, rfl, rfl⟩
  · obtain ⟨⟨c', k, r⟩, hw, h⟩ := bind_eq_ok.mp h
    have hwake := wakeLoop_frame hw
    dsimp only at h
    split_ifs at h <;> cases h <;> exact hwake

/-- A call that adds: the others keep their places. -/
theorem Waits.exec {size : ℕ} (h : Waits size x run) {c : Call τ} (hc : c.Permitted run)
    (hadd : c.Adds) {run' : Run τ} (hrun : c.exec run = .ok run') :
    Waits size x run' ∧ turnsAhead x run' = turnsAhead x run := by
  have hintact := h.intact.exec hc hrun
  have hsame : ∀ added, run'.members = run.members ++ added →
      run'.cpu.si.schedSize = run.cpu.si.schedSize →
      run'.cpu.si.position = run.cpu.si.position →
      run'.cpu.si.requestingThread = none → Waits size x run' ∧
        turnsAhead x run' = turnsAhead x run := by
    intro added hm hsize hpos hreq
    have hidx : run'.members.idxOf x = run.members.idxOf x := by
      rw [hm, List.idxOf_append_of_mem h.mem]
    refine ⟨⟨hintact, hm ▸ List.mem_append_left _ h.mem, hreq, hsize.trans h.size⟩, ?_⟩
    rw [turnsAhead, turnsAhead, hidx, hpos, hsize]
  cases c with
  | queue tr =>
    cases hrun
    obtain ⟨hsize, hpos, hreq⟩ := subQueue_frame run.cpu.si tr
    refine hsame (if (subQueue run.cpu.si tr).2 = 0 then [tr] else []) ?_ hsize hpos
      (hreq.trans h.request)
    dsimp only
    split_ifs <;> simp
  | dequeue current tr => exact hadd.elim
  | request thread state =>
    cases hrun
    exact hsame [] (List.append_nil _).symm rfl rfl hadd
  | removeLast =>
    obtain ⟨cpu, hr, hrun⟩ := bind_eq_ok.mp hrun
    cases hrun
    have hlast : honourLast run.cpu = run.cpu := by rw [honourLast, h.request]
    rw [removeLast, hlast] at hr
    obtain ⟨_, -, hr⟩ := bind_eq_ok.mp hr
    obtain ⟨_, -, hr⟩ := bind_eq_ok.mp hr
    cases hr
    refine hsame [] ?_ rfl rfl h.request
    simp [honoured, h.request]
  | sleepers pauseQueue pauseCount =>
    cases hrun
    exact hsame [] (List.append_nil _).symm rfl rfl h.request
  | removeTimers time =>
    obtain ⟨⟨cpu, _⟩, hr, hrun⟩ := bind_eq_ok.mp hrun
    cases hrun
    obtain ⟨hsize, hpos, hreq⟩ := removeTimers_frame hr
    exact hsame _ rfl hsize hpos (hreq.trans h.request)
  | select => exact hadd.elim

namespace Waits
variable {size : ℕ}

omit [DecidableEq τ] in
theorem count_pos (h : Waits size x run) : run.cpu.si.schedCount ≠ 0 := by
  rw [h.intact.count_eq]
  exact fun hz => List.not_mem_nil (List.eq_nil_of_length_eq_zero hz ▸ h.mem)

theorem turnsAhead_lt (h : Waits size x run) : turnsAhead x run < size := by
  have hidx := List.idxOf_lt_length_of_mem h.mem
  have hcount := h.intact.count_eq
  have hle := h.intact.count_le
  have hpos := h.intact.position_lt (List.ne_nil_of_mem h.mem)
  have hsize := h.size
  unfold turnsAhead
  split_ifs <;> omega

/-- A turn of the run queue is the thread's own, or one less is ahead. -/
theorem select (h : Waits size x run) : ∃ tr run', (Scheduler.select run.cpu.si).2 = some tr ∧
    Call.select.exec run = .ok run' ∧ Waits size x run' ∧
    (tr = x ∨ turnsAhead x run' + 1 ≤ turnsAhead x run) := by
  obtain ⟨tr, htr, hsel⟩ := h.intact.select_mem h.count_pos
  have hidx := List.idxOf_lt_length_of_mem h.mem
  have hcount := h.intact.count_eq
  have hle := h.intact.count_le
  have hpos := h.intact.position_lt (List.ne_nil_of_mem h.mem)
  have hsize := h.size
  have hnext : (Scheduler.select run.cpu.si).1 = { run.cpu.si with
      position := (run.cpu.si.position + 1) % run.cpu.si.schedCount } := by
    rw [Scheduler.select, if_neg h.count_pos]
  refine ⟨tr, _, hsel, rfl, ⟨h.intact.select, h.mem, ?_, ?_⟩, ?_⟩
  · dsimp only
    rw [hnext]
    exact h.request
  · dsimp only
    rw [hnext]
    exact hsize
  · by_cases htx : tr = x
    · exact .inl htx
    · right
      have hne : run.cpu.si.position ≠ run.members.idxOf x := fun he => by
        rw [(h.intact.select_eq_iff h.mem).mpr he] at hsel
        exact htx (Option.some.inj hsel).symm
      unfold turnsAhead
      dsimp only
      rw [hnext]
      dsimp only
      by_cases hlast : run.cpu.si.position + 1 = run.cpu.si.schedCount
      · rw [hlast, Nat.mod_self]
        split_ifs <;> omega
      · rw [Nat.mod_eq_of_lt (by omega)]
        split_ifs <;> omega

end Waits

/-- What the thread still waits for, in turns. -/
def Loop.ahead (x : τ) (s : Loop τ) : ℕ := 4 * turnsAhead x s.run + s.before

theorem resume_waits {size : ℕ} (h : Waits size x s.run) (hs : resume s = .ok t) :
    Waits size x t.run ∧ turnsAhead x t.run = turnsAhead x s.run ∧ t.stage = s.stage ∧
      (∀ tr, s.stage = .fast tr → t.flip = true) ∧
      ((∀ tr, s.stage ≠ .fast tr) → t.flip = s.flip) := by
  obtain ⟨run, fastQueue, fastStart, fastStop, gcSize, flip, stage⟩ := s
  dsimp only at h ⊢
  have hlast : ∀ {run'}, Call.removeLast.exec run = .ok run' →
      Waits size x run' ∧ turnsAhead x run' = turnsAhead x run := fun hrun =>
    h.exec (c := .removeLast) trivial trivial hrun
  cases stage with
  | fast tr =>
    change Except.ok _ = _ at hs
    cases hs
    refine ⟨h, rfl, rfl, fun _ _ => if_pos h.count_pos, fun hn => absurd rfl (hn tr)⟩
  | turn tr =>
    obtain ⟨run', hrun, hs⟩ := bind_eq_ok.mp hs
    cases hs
    exact ⟨(hlast hrun).1, (hlast hrun).2, rfl, by simp, fun _ => rfl⟩
  | idle =>
    obtain ⟨run', hrun, hs⟩ := bind_eq_ok.mp hs
    cases hs
    exact ⟨(hlast hrun).1, (hlast hrun).2, rfl, by simp, fun _ => rfl⟩
  | start =>
    cases hs
    exact ⟨h, rfl, rfl, by simp, fun _ => rfl⟩
  | gc =>
    cases hs
    exact ⟨h, rfl, rfl, by simp, fun _ => rfl⟩

/-- A pass gives the thread its turn, or less is ahead of it. -/
theorem pass_waits {size time : ℕ} (h : Waits size x s.run)
    (hg : (Input.pass time).Guard s) (hs : pass s time = .ok t) :
    t.stage = .turn x ∨ Waits size x t.run ∧ t.ahead x + 1 ≤ s.ahead x := by
  obtain ⟨u, hu, hs⟩ := bind_eq_ok.mp hs
  obtain ⟨hw, hahead, hstage, hfast, hflip⟩ := resume_waits h hu
  have hbefore : (s.stage = .gc ∧ s.before = if u.flip then 0 else 2) ∨
      s.stage ≠ .gc ∧ (u.flip = true ∧ s.before = 1 ∨ s.before = 3) := by
    unfold Loop.before
    cases hst : s.stage with
    | gc => exact .inl ⟨rfl, by rw [hflip fun tr hf => by rw [hst] at hf; cases hf]⟩
    | fast tr => exact .inr ⟨by simp, .inl ⟨hfast tr hst, rfl⟩⟩
    | start => exact .inr ⟨by simp, .inr rfl⟩
    | turn tr => exact .inr ⟨by simp, .inr rfl⟩
    | idle => exact .inr ⟨by simp, .inr rfl⟩
  unfold Loop.ahead
  split_ifs at hs with hcollect
  · -- the garbage collector goes first
    cases hs
    refine .inr ⟨hw, ?_⟩
    have hb : Loop.before { u with stage := .gc } = if u.flip then 0 else 2 := rfl
    have hne : s.stage ≠ .gc := hstage ▸ hcollect.1
    rw [hb]
    dsimp only
    rw [hahead]
    rcases hbefore with ⟨he, -⟩ | ⟨-, ⟨hf, h1⟩ | h3⟩
    · exact absurd he hne
    · rw [hf, h1]
      simp
    · rw [h3]
      split_ifs <;> omega
  · obtain ⟨run, hrun, hs⟩ := bind_eq_ok.mp hs
    obtain ⟨hw', hahead'⟩ := hw.exec (hg u hu) trivial hrun
    unfold choose at hs
    split at hs
    · next tr hget =>
      cases hs
      refine .inr ⟨hw', ?_⟩
      have hoff : u.flip = false := by
        by_contra hf
        simp [hf] at hget
      have hb : Loop.before { u with run := run, stage := .fast tr } = 1 := rfl
      rw [hb]
      dsimp only
      rw [hahead', hahead]
      rcases hbefore with ⟨-, h2⟩ | ⟨-, ⟨hf, -⟩ | h3⟩
      · rw [h2, hoff]
        simp
      · rw [hoff] at hf
        cases hf
      · omega
    · obtain ⟨tr, run', hsel, hexec, hw'', hless⟩ := hw'.select
      dsimp only at hs
      rw [if_neg hw'.count_pos, hsel] at hs
      dsimp only at hs
      rw [hexec] at hs
      cases hs
      rcases hless with rfl | hless
      · exact .inl rfl
      · refine .inr ⟨hw'', ?_⟩
        have hb : Loop.before { u with run := run', flip := false, stage := .turn tr } = 3 := rfl
        rw [hb]
        dsimp only
        omega

theorem exec_schedSize {c : Call τ} {run' : Run τ} (h : c.exec run = .ok run') :
    run'.cpu.si.schedSize = run.cpu.si.schedSize := by
  cases c with
  | queue tr =>
    cases h
    exact (subQueue_frame _ tr).1
  | dequeue current tr =>
    obtain ⟨si, hsi, h⟩ := bind_eq_ok.mp h
    cases h
    obtain ⟨_, -, hsi⟩ := bind_eq_ok.mp hsi
    obtain ⟨_, -, hsi⟩ := bind_eq_ok.mp hsi
    cases hsi
    rfl
  | request thread state =>
    cases h
    rfl
  | removeLast =>
    obtain ⟨cpu, hr, h⟩ := bind_eq_ok.mp h
    cases h
    obtain ⟨_, -, hr⟩ := bind_eq_ok.mp hr
    obtain ⟨_, -, hr⟩ := bind_eq_ok.mp hr
    cases hr
    unfold honourLast honourRequest
    cases run.cpu.si.requestingThread with
    | none => rfl
    | some tr =>
      dsimp only
      split_ifs <;> rfl
  | sleepers pauseQueue pauseCount =>
    cases h
    rfl
  | removeTimers time =>
    obtain ⟨⟨cpu, _⟩, hr, h⟩ := bind_eq_ok.mp h
    cases h
    exact (removeTimers_frame hr).1
  | select =>
    cases h
    unfold select
    dsimp only
    split_ifs <;> rfl

/-- The run queue is intact, and of the size that `load_scheduler` gave it. -/
def Running (run : Run τ) : Prop :=
  Intact run.cpu.si run.members ∧ run.cpu.si.schedSize = INITIAL_SCHED_SIZE

theorem Running.exec (h : Running run) {c : Call τ} (hc : c.Permitted run) {run' : Run τ}
    (hrun : c.exec run = .ok run') : Running run' :=
  ⟨h.1.exec hc hrun, (exec_schedSize hrun).trans h.2⟩

theorem Running.resume (h : Running s.run) (hs : resume s = .ok t) : Running t.run := by
  obtain ⟨run, fastQueue, fastStart, fastStop, gcSize, flip, stage⟩ := s
  cases stage with
  | fast => cases hs; exact h
  | start => cases hs; exact h
  | gc => cases hs; exact h
  | turn =>
    obtain ⟨run', hrun, hs⟩ := bind_eq_ok.mp hs
    cases hs
    exact h.exec (c := .removeLast) trivial hrun
  | idle =>
    obtain ⟨run', hrun, hs⟩ := bind_eq_ok.mp hs
    cases hs
    exact h.exec (c := .removeLast) trivial hrun

theorem Running.choose (h : Running s.run) (hs : choose s = .ok t) : Running t.run := by
  unfold Scheduler.choose at hs
  split at hs
  · cases hs
    exact h
  · by_cases hz : s.run.cpu.si.schedCount = 0
    · rw [if_pos hz] at hs
      cases hs
      exact h
    · rw [if_neg hz] at hs
      cases hsel : (select s.run.cpu.si).2 with
      | none => simp [hsel] at hs
      | some tr =>
        rw [hsel] at hs
        obtain ⟨run, hrun, hs⟩ := bind_eq_ok.mp hs
        cases hs
        exact h.exec (c := .select) trivial hrun

theorem Running.pass {time : ℕ} (h : Running s.run) (hg : (Input.pass time).Guard s)
    (hs : pass s time = .ok t) : Running t.run := by
  obtain ⟨u, hu, hs⟩ := bind_eq_ok.mp hs
  have hrunning := h.resume hu
  split_ifs at hs
  · cases hs
    exact hrunning
  · obtain ⟨run, hrun, hs⟩ := bind_eq_ok.mp hs
    exact Running.choose (s := { u with run := run }) (hrunning.exec (hg u hu) hrun) hs

theorem running_of_reach (h : (loopSystem τ).Reach s) : Running s.run := by
  obtain ⟨s₀, is, ⟨cpuId, garbage, threads, fastQueue, rfl⟩, hrun⟩ := h
  refine hrun.invariant (P := fun s => Running s.run) (fun s i t hs hg ht => ?_)
    ⟨intact_start cpuId garbage threads, rfl⟩
  cases i with
  | call c =>
    obtain ⟨run, hexec, ht⟩ := bind_eq_ok.mp ht
    cases ht
    cases c with
    | queue tr => exact hs.exec (c := .queue tr) hg hexec
    | dequeue current tr => exact hs.exec (c := .dequeue current tr) hg hexec
    | request => exact hs.exec (c := .request _ _) trivial hexec
    | sleepers => exact hs.exec (c := .sleepers _ _) trivial hexec
    | removeLast => exact hg.elim
    | removeTimers => exact hg.elim
    | select => exact hg.elim
  | others =>
    cases ht
    exact hs
  | pass time => exact hs.pass hg ht

theorem Waits.step {size : ℕ} (h : Waits size x s.run) (hg : i.Guard s) (hadd : i.Adds)
    (ht : i.step s = .ok t) : t.stage = .turn x ∨
      Waits size x t.run ∧ t.ahead x + (if i.isPass then 1 else 0) ≤ s.ahead x := by
  cases i with
  | call c =>
    obtain ⟨run, hexec, ht⟩ := bind_eq_ok.mp ht
    cases ht
    have hpermitted : c.Permitted s.run := by
      cases c with
      | queue => exact hg
      | dequeue => exact hadd.elim
      | removeTimers => exact hg.elim
      | _ => trivial
    obtain ⟨hw, hahead⟩ := h.exec hpermitted hadd hexec
    refine .inr ⟨hw, le_of_eq ?_⟩
    exact congrArg (4 * · + s.before) hahead
  | others =>
    cases ht
    exact .inr ⟨h, le_rfl⟩
  | pass time => exact pass_waits h hg ht

/-- A thread in the run queue has its turn within 4096 turns, whatever enters the queues in the
meantime, if no thread leaves the run queue. -/
theorem queued_thread_runs {is : List (Input τ)} (hs : (loopSystem τ).Reach s)
    (hx : x ∈ s.run.members) (hreq : s.run.cpu.si.requestingThread = none)
    (hrun : (loopSystem τ).Steps s is t) (hadd : ∀ i ∈ is, i.Adds)
    (hn : 4 * INITIAL_SCHED_SIZE ≤ is.countP Input.isPass) :
    ∃ js u, js <+: is ∧ (loopSystem τ).Steps s js u ∧ u.stage = .turn x := by
  obtain ⟨hintact, hsize⟩ := running_of_reach hs
  have hw : Waits INITIAL_SCHED_SIZE x s.run := ⟨hintact, hx, hreq, hsize⟩
  have hahead : s.ahead x < 4 * INITIAL_SCHED_SIZE := by
    have hlt := hw.turnsAhead_lt
    have hbefore : s.before ≤ 3 := by
      unfold Loop.before
      split
      · split_ifs <;> omega
      · omega
      · omega
    unfold Loop.ahead
    omega
  exact hrun.reaches (fun s i t hP hg hC ht => Waits.step hP hg hC ht) hw hadd (hahead.trans_le hn)

omit [DecidableEq τ] in
theorem due_of_asleep {si : SchedulerInfo τ} (h : si.pauseCount = 0) (time : ℕ) :
    due si time = [] := by
  simp [due, h, taken]

/-- With nothing else to do the pass ends in the next turn of the run queue. -/
theorem pass_eq {n : ℕ} {r : Run τ} {tr : τ}
    (hr : resume s = .ok { s with run := r }) (hasleep : r.cpu.si.pauseCount = 0)
    (hfast : s.fastStart = s.fastStop) (hgc : s.gcSize = 0) (hflip : s.flip = false)
    (hcount : r.cpu.si.schedCount ≠ 0) (hsel : (select r.cpu.si).2 = some tr) :
    pass s n = .ok
      { s with run := { r with cpu := { r.cpu with si := (select r.cpu.si).1 } }
               flip := false
               stage := .turn tr } := by
  have htimers : (Call.removeTimers n).exec r = .ok r := by
    simp [Call.exec, removeTimers, hasleep, due_of_asleep hasleep]
  rw [pass, hr, ok_bind]
  dsimp only
  rw [if_neg (by simp [hgc]), htimers, ok_bind, choose, getFast]
  dsimp only
  rw [if_pos hflip, if_pos hfast]
  dsimp only
  rw [if_neg hcount, hsel]
  rfl

/-- A queue of one thread that makes no request: each pass is a turn of it. -/
structure Alone (x : τ) (s : Loop τ) : Prop where
  intact : Intact s.run.cpu.si s.run.members
  members : s.run.members = [x]
  asleep : s.run.cpu.si.pauseCount = 0
  request : s.run.cpu.si.requestingThread = none ∧ s.run.cpu.si.requestingState < 0
  fast : s.fastStart = s.fastStop
  gc : s.gcSize = 0
  flip : s.flip = false
  stage : s.stage = .start ∨ s.stage = .turn x

theorem Alone.pass (h : Alone x s) : ∃ t, (loopSystem τ).Guard s (.pass 0) ∧
    (loopSystem τ).step s (.pass 0) = .ok t ∧ Alone x t := by
  obtain ⟨hnone, hneg⟩ := h.request
  have hresume : resume s = .ok { s with run := s.run } := by
    rcases h.stage with hst | hst
    · rw [resume, hst]
    · have hexec : Call.removeLast.exec s.run = .ok s.run := by
        have hlast : honourLast s.run.cpu = s.run.cpu := by rw [honourLast, hnone]
        have hleft : honoured s.run.cpu.si s.run.members = s.run.members := by
          rw [honoured, hnone]
        rw [Call.exec, removeLast, hlast, hleft, assert_of hnone, assert_of hneg]
        rfl
      rw [resume, hst]
      dsimp only
      rw [hexec, ok_bind, ← hst]
  have hcount : s.run.cpu.si.schedCount = 1 := by rw [h.intact.count_eq, h.members]; rfl
  obtain ⟨tr, htr, hsel⟩ := h.intact.select_mem (by omega)
  obtain rfl : tr = x := by simpa [h.members] using htr
  have hpass := pass_eq (n := 0) hresume h.asleep h.fast h.gc h.flip (by omega) hsel
  refine ⟨_, fun s' hs' => ?_, hpass, ⟨h.intact.select, h.members, ?_, ?_, h.fast, h.gc, rfl,
    .inr rfl⟩⟩
  · rw [hresume] at hs'
    cases hs'
    change (s.run.members ++ (due s.run.cpu.si 0).filterMap PausedSchedule.tr).Nodup
    rw [due_of_asleep h.asleep, List.filterMap_nil, List.append_nil]
    exact h.intact.nodup
  · dsimp only
    rw [select, if_neg (by omega)]
    exact h.asleep
  · dsimp only
    rw [select, if_neg (by omega)]
    exact h.request

theorem queued_thread_runs_alone : ∃ s js u, (loopSystem ℕ).Reach s ∧ s.stage = .start ∧
    (loopSystem ℕ).Steps s js u ∧ u.stage = .turn 5 := by
  let load : Loop ℕ := Loop.load 0 (fun _ => ⟨none, 0, 0, 0⟩) (fun _ => ⟨1, 0, -1⟩) fun _ => none
  have hqueue : (loopSystem ℕ).Steps load [.call (.queue 5)] _ :=
    .one (List.not_mem_nil : 5 ∉ []) rfl
  have hreach : (loopSystem ℕ).Reach _ := ⟨_, _, ⟨_, _, _, _, rfl⟩, hqueue⟩
  have hpasses : ∀ (n : ℕ) (s : Loop ℕ), Alone 5 s →
      ∃ t, (loopSystem ℕ).Steps s (List.replicate n (.pass 0)) t := by
    intro n
    induction n with
    | zero => exact fun s _ => ⟨s, .nil s⟩
    | succ n ih =>
      intro s hs
      obtain ⟨t, hg, ht, halone⟩ := hs.pass
      obtain ⟨u, hu⟩ := ih t halone
      exact ⟨u, .cons hg ht hu⟩
  have halone : Alone 5 _ := ⟨(running_of_reach hreach).1, rfl, rfl, ⟨rfl, by decide⟩, rfl, rfl,
    rfl, .inl rfl⟩
  obtain ⟨t, hrun⟩ := hpasses (4 * INITIAL_SCHED_SIZE) _ halone
  obtain ⟨js, u, -, hu, hturn⟩ := queued_thread_runs (x := 5) hreach (by decide) rfl hrun
    (fun i hi => by rw [List.eq_of_mem_replicate hi]; trivial)
    (by rw [List.countP_replicate]; rfl)
  exact ⟨_, js, u, hreach, rfl, hu, hturn⟩

end Racoon.Scheduler
