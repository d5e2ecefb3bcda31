import Racoon.Ipc.Messages
import Racoon.Ipc.Pulses

/-!
# Going dormant while messages are sent

A thread calls `go_dormant( 0 )` on one CPU while threads on other CPUs send it
messages and pulses. Both sides take the write lock of the receiver's process,
but the receiver only requests its new state under the lock. The scheduler of
its CPU writes the state later, in `remove_last`, when the lock is free again. A
sender that looks at the state in between sees a running thread and wakes
nobody, and the receiver sleeps on although something waits.

Each access to memory that both sides share outside the lock is a step of its
own. `home` is the CPU the receiver is queued on; the lock of its scheduler is
held throughout `remove_last`.
-/

namespace Racoon.Dormancy
open Lib Ipc

def THREAD_RUNNING : ℤ := 1
def THREAD_DORMANT : ℤ := 3

/-- Where the receiver is: outside `go_dormant`, at a point in it, in `remove_last` or asleep. -/
inductive Stage
  | outside
  | checking
  | declining
  | requesting
  | committing
  | yielding
  | unqueued
  | stopped
  | detached
  | asleep
  deriving DecidableEq

/-- The arguments of a `send_message` or `send_pulse`. -/
inductive Parcel
  | message (sourcePid sourcePort destPort : ℤ) (location : List UInt8) (kmalloc : Option ℕ)
      (room : Bool)
  | pulse (p : Pulse) (room : Bool)

/-- Where a sender is. -/
inductive SendStage
  | idle
  | sending (parcel : Parcel)
  | looking (destPort : ℤ)
  | waking
  | marking
  | queueing
  | enlisting
  | leaving

inductive Party
  | receiver
  | sender (i : ℕ)

structure State where
  proc : Process
  state : ℤ
  duration : ℕ
  cpu : ℤ
  requestingState : ℤ
  requestingThread : Bool
  queued : Bool
  writer : Option Party
  stage : Stage
  send : ℕ → SendStage

inductive Move
  | checkout
  | check
  | decline
  | request
  | commit
  | unqueue
  | writeState
  | writeCpu
  | clearRequest
  | resume
  | checkoutFor (i : ℕ) (parcel : Parcel)
  | enqueue (i : ℕ)
  | look (i : ℕ)
  | wake (i : ℕ)
  | mark (i : ℕ)
  | place (i : ℕ)
  | enlist (i : ℕ) (room : Bool)
  | commitFor (i : ℕ)

def Parcel.destPort : Parcel → ℤ
  | message _ _ destPort _ _ _ => destPort
  | pulse p _ => p.destPort

/-- The calls up to the wake-up. -/
def Parcel.queue (proc : Process) : Parcel → Outcome (Process × ℤ)
  | message sourcePid sourcePort destPort location kmalloc room =>
    sendMessage proc sourcePid sourcePort destPort location kmalloc room
  | pulse p room => sendPulse proc p room

/-- The thread that a send to the port looks at, found when the send was queued. -/
def addressee (proc : Process) (port : ℤ) : Option ℕ :=
  (getThread proc (port2tid proc port)).toOption.join

def State.move (s : State) (i : ℕ) (stage : SendStage) : State :=
  { s with send := Function.update s.send i stage }

/-- `set_thread_state( t, THREAD_DORMANT )` of the running thread: only the request is made. -/
def requestDormant (s : State) : Outcome State :=
  if s.state = THREAD_DORMANT then .ok s
  else do
    assert (s.state = THREAD_RUNNING)
    .ok { s with requestingThread := true, requestingState := THREAD_DORMANT }

/-- `set_thread_state( tr, THREAD_RUNNING )` by a sender up to the first write. A receiver that
sleeps with a `duration` would be restarted, which halts for a thread that is not paused. -/
def beginWake (s : State) (i : ℕ) : Outcome State :=
  if s.state = THREAD_RUNNING then .ok (s.move i .leaving)
  else if s.state = THREAD_DORMANT ∧ s.duration ≠ 0 then .error .assertion
  else .ok (s.move i .marking)

/-- The step of the receiver `tr` or of a sender. -/
def step (tr home : ℕ) (s : State) : Move → Outcome State
  | .checkout => .ok { s with writer := some .receiver, stage := .checking }
  | .check => do
    assert (s.state = THREAD_RUNNING)
    let pulses ← pulsesWaiting s.proc tr
    let messages ← messagesWaiting s.proc tr
    .ok { s with stage := if 0 < pulses ∨ 0 < messages then .declining else .requesting }
  | .decline => .ok { s with writer := none, stage := .outside }
  | .request => do
    let s ← requestDormant { s with duration := 0 }
    .ok { s with stage := .committing }
  | .commit => .ok { s with writer := none, stage := .yielding }
  | .unqueue =>
    if s.requestingThread = true ∧ 0 ≤ s.requestingState then
      if s.queued then .ok { s with queued := false, stage := .unqueued }
      else .ok { s with requestingThread := false, requestingState := -1, stage := .asleep }
    else .ok { s with stage := .asleep }
  | .writeState => .ok { s with state := s.requestingState, stage := .stopped }
  | .writeCpu => .ok { s with cpu := -1, stage := .detached }
  | .clearRequest =>
    .ok { s with requestingThread := false, requestingState := -1, stage := .asleep }
  | .resume => .ok { s with duration := 0, stage := .outside }
  | .checkoutFor i parcel => .ok { s.move i (.sending parcel) with writer := some (.sender i) }
  | .enqueue i =>
    match s.send i with
    | .sending parcel => do
      let (proc, rc) ← parcel.queue s.proc
      let s := { s with proc := proc }
      .ok (s.move i (if rc = 0 then .looking parcel.destPort else .leaving))
    | _ => .ok s
  | .look i =>
    match s.send i with
    | .looking destPort =>
      if portFlags s.proc destPort IPC_MASKED = 0 ∧ addressee s.proc destPort = some tr ∧
          s.state = THREAD_DORMANT then .ok (s.move i .waking)
      else .ok (s.move i .leaving)
    | _ => .ok s
  | .wake i => beginWake s i
  | .mark i => .ok { s.move i .queueing with state := THREAD_RUNNING }
  | .place i => do
    assert (s.cpu < 0)
    .ok { s.move i .enlisting with cpu := home }
  | .enlist i room => .ok { s.move i .leaving with queued := room }
  | .commitFor i => .ok { s.move i .idle with writer := none }

/-- `remove_last` runs under the scheduler's lock. -/
def Stage.inScheduler : Stage → Prop
  | .unqueued | .stopped | .detached => True
  | _ => False

/-- When a step can be taken. -/
def Move.Enabled (s : State) : Move → Prop
  | .checkout => s.stage = .outside ∧ s.writer = none
  | .check => s.stage = .checking
  | .decline => s.stage = .declining
  | .request => s.stage = .requesting
  | .commit => s.stage = .committing
  | .unqueue => s.stage = .yielding
  | .writeState => s.stage = .unqueued
  | .writeCpu => s.stage = .stopped
  | .clearRequest => s.stage = .detached
  | .resume => s.stage = .asleep ∧ s.queued = true
  | .checkoutFor i _ => s.send i = .idle ∧ s.writer = none
  | .enqueue i => ∃ parcel, s.send i = .sending parcel
  | .look i => ∃ destPort, s.send i = .looking destPort
  | .wake i => s.send i = .waking
  | .mark i => s.send i = .marking
  | .place i => s.send i = .queueing
  | .enlist i _ => s.send i = .enlisting ∧ ¬ s.stage.inScheduler
  | .commitFor i => s.send i = .leaving

/-- A message or pulse waits at an unmasked port of the thread. -/
def Waits (proc : Process) (a : Thread) : Prop :=
  ∃ p ∈ unmasked proc a.owned, messages proc p ≠ [] ∨ pulses proc p ≠ []

/-- A send to the receiver has still to look at its state, or has found it dormant. -/
def SendStage.pending (proc : Process) (tr : ℕ) : SendStage → Prop
  | .looking p => portFlags proc p IPC_MASKED = 0 ∧ addressee proc p = some tr
  | .waking | .marking => True
  | _ => False

def WakePending (tr : ℕ) (s : State) : Prop := ∃ i, (s.send i).pending s.proc tr

/-- The receiver sleeps and nobody is about to wake it, while something waits for it. -/
def Lost (tr : ℕ) (a : Thread) (s : State) : Prop :=
  s.state = THREAD_DORMANT ∧ Waits s.proc a ∧ ¬ WakePending tr s

/-- The receiver `tr` runs outside `go_dormant` and nobody sends. -/
structure Init (tr : ℕ) (a : Thread) (s : State) : Prop where
  sound : Sound s.proc
  thread : s.proc.threads tr = some a
  owner : ∀ p, Open s.proc p → (p ∈ a.owned ↔ addressee s.proc p = some tr)
  running : s.state = THREAD_RUNNING
  queued : s.queued = true
  noRequest : s.requestingThread = false
  writer : s.writer = none
  stage : s.stage = .outside
  send : ∀ i, s.send i = .idle

def dormancySystem (tr home : ℕ) (a : Thread) : System State Move Fault where
  Init := Init tr a
  Guard s m := m.Enabled s
  step := step tr home

/-- No send looks at the receiver between its `commit_process` and the write of its state. -/
def Move.InTime (tr : ℕ) (s : State) : Move → Prop
  | .look i => (s.send i).pending s.proc tr → s.stage ≠ .yielding ∧ s.stage ≠ .unqueued
  | _ => True

end Racoon.Dormancy
