import Racoon.Ipc.Process
import Racoon.Lib.Run

/-!
# Pulse operations

`ipc/pulse.c`: pulses are queued at ports and read by the owner of the ports.
`receive_pulse` asserts that `aqueue_next` did not return 0, which it always
does, so that it halts the kernel whenever it finds a pulse. It and
`preview_pulse` give up at the first port that is not masked and empty, and
`preview_pulse` takes the pulse it shows out of its queue. `drop_pulse` reads
the port it is hinted at, or else the first port, without asking whether it
holds a pulse, which halts the kernel too.

A call returns the pulse it took, `none` for the value -1.
-/

namespace Racoon.Ipc
open Lib

/-- `room` says whether the queue takes the pulse. -/
def sendPulse (proc : Process) (p : Pulse) (room : Bool) : Outcome (Process × ℤ) :=
  let tid := port2tid proc p.destPort
  if tid < 0 then .ok (proc, -1)
  else do
    match ← getThread proc tid with
    | none => .ok (proc, -1)
    | some _ => do
      assert ((proc.block p.destPort).pulseQ ≠ none)
      let q ← deref (proc.block p.destPort).pulseQ
      if room then
        .ok (proc.setBlock p.destPort { proc.block p.destPort with pulseQ := some (q ++ [p]) }, 0)
      else .ok (proc, -1)

/-- `aqueue_next` on the pulses of a port, with the value it returns. -/
def nextPulse (proc : Process) (port : ℤ) : Outcome (Process × Pulse × ℤ) := do
  let (p, rest) ← aqueueNext (proc.block port).pulseQ
  .ok (proc.setBlock port { proc.block port with pulseQ := some rest }, p, 0)

def receivePulse (proc : Process) (tr : ℕ) (destPort : ℤ) : Outcome (Process × Option Pulse) := do
  let a ← deref (proc.threads tr)
  let port := if InRange destPort then destPort else a.lastPortPulse
  let proc := proc.setThread tr { a with lastPortPulse := -1 }
  match ← pick proc IpcBlock.pulseQ false a.ports port with
  | none => .ok (proc, none)
  | some port => do
    let (proc, p, i) ← nextPulse proc port
    assert (i ≠ 0)
    .ok (proc, some p)

def previewPulse (proc : Process) (tr : ℕ) (destPort : ℤ) : Outcome (Process × Option Pulse) := do
  let a ← deref (proc.threads tr)
  match bounds a.ports destPort with
  | none => .ok (proc, none)
  | some (bottom, top) => do
    let proc := proc.setThread tr { a with lastPortPulse := -1 }
    match ← scan proc IpcBlock.pulseQ false a.ports bottom (top - bottom) with
    | none => .ok (proc, none)
    | some port => do
      let (proc, p, i) ← nextPulse proc port
      assert (i = 0)
      .ok (proc.setThread tr { a with lastPortPulse := port }, some p)

def pulsesWaiting (proc : Process) (tr : ℕ) : Outcome ℕ := do
  let a ← deref (proc.threads tr)
  waiting proc IpcBlock.pulseQ a.ports 0 MAX_PORTS 0

/-- The loop of `drop_pulse` returns in its first round. -/
def dropPulse (proc : Process) (tr : ℕ) : Outcome (Process × Option Pulse) := do
  let a ← deref (proc.threads tr)
  let port := a.lastPortPulse
  let proc := proc.setThread tr { a with lastPortPulse := -1 }
  if InRange port then
    if portFlags proc port IPC_MASKED ≠ 0 then .ok (proc, none)
    else do
      assert ((proc.block port).pulseQ ≠ none)
      let (proc, p, _) ← nextPulse proc port
      .ok (proc, some p)
  else if a.ports 0 = -1 then .ok (proc, none)
  else do
    let (proc, p, _) ← nextPulse proc (a.ports 0)
    .ok (proc, some p)

def pulses (proc : Process) (port : ℤ) : List Pulse := held IpcBlock.pulseQ proc port

/-- A process with the pulses accepted by `send_pulse` and those taken from its queues. -/
structure PulseRun where
  proc : Process
  accepted : List Pulse
  received : List Pulse

inductive PulseCall
  | send (p : Pulse) (room : Bool)
  | receive (tr : ℕ) (destPort : ℤ)
  | preview (tr : ℕ) (destPort : ℤ)
  | waiting (tr : ℕ)
  | drop (tr : ℕ)

def PulseCall.exec (s : PulseRun) : PulseCall → Outcome PulseRun
  | .send p room => do
    let (proc, rc) ← sendPulse s.proc p room
    .ok ⟨proc, if rc = 0 then s.accepted ++ [p] else s.accepted, s.received⟩
  | .receive tr destPort => do
    let (proc, r) ← receivePulse s.proc tr destPort
    .ok ⟨proc, s.accepted, s.received ++ r.toList⟩
  | .preview tr destPort => do
    let (proc, _) ← previewPulse s.proc tr destPort
    .ok { s with proc := proc }
  | .waiting tr => do
    let _ ← pulsesWaiting s.proc tr
    .ok s
  | .drop tr => do
    let (proc, r) ← dropPulse s.proc tr
    .ok ⟨proc, s.accepted, s.received ++ r.toList⟩

/-- The callers are threads of the process. -/
def PulseCall.Permitted (s : PulseRun) : PulseCall → Prop
  | .send _ _ => True
  | .receive tr _ | .preview tr _ | .waiting tr | .drop tr => ∃ a, s.proc.threads tr = some a

/-- The port a call is restricted to holds a pulse; without restriction, an unmasked port of the
thread does. -/
def Deliverable (proc : Process) (a : Thread) (port : ℤ) : Prop :=
  if InRange port then pulses proc port ≠ []
  else ∃ p ∈ unmasked proc a.owned, pulses proc p ≠ []

/-- The port `receive_pulse` is restricted to, out of range for none. -/
def Thread.restriction (a : Thread) (destPort : ℤ) : ℤ :=
  if InRange destPort then destPort else a.lastPortPulse

def NothingToDrop (proc : Process) (a : Thread) : Prop :=
  if InRange a.lastPortPulse then pulses proc a.lastPortPulse = []
  else ∀ p ∈ a.owned, pulses proc p = []

/-- What a call must do: fail no assertion, and by its kind deliver the oldest pulse exactly when
there is one, consume nothing, or report that there is nothing to drop. -/
def PulseCall.Correct (s : PulseRun) : PulseCall → Prop
  | .send p room => ∃ r, sendPulse s.proc p room = .ok r
  | .receive tr destPort => ∀ a, s.proc.threads tr = some a →
      ∃ proc' r, receivePulse s.proc tr destPort = .ok (proc', r) ∧
        (r.isSome = true ↔ Deliverable s.proc a (a.restriction destPort)) ∧
        ∀ p, r = some p → ∃ port rest, port ∈ a.asked (a.restriction destPort) ∧
          pulses s.proc port = p :: rest ∧ pulses proc' port = rest
  | .preview tr destPort => ∃ proc' r, previewPulse s.proc tr destPort = .ok (proc', r) ∧
      ∀ p, InRange p → pulses proc' p = pulses s.proc p
  | .waiting tr => ∃ n, pulsesWaiting s.proc tr = .ok n
  | .drop tr => ∀ a, s.proc.threads tr = some a →
      ∃ proc' r, dropPulse s.proc tr = .ok (proc', r) ∧ (NothingToDrop s.proc a → r = none)

/-- `send_pulse` finds out whom the pulse is for. `receive_pulse` is called where it has nothing
to deliver and `preview_pulse` where the first port it looks at and that is not masked is empty.
`drop_pulse` is called with a hint at a port that is masked, closed or holds a pulse; or without,
where the first port, if any, holds one. -/
def PulseCall.Safe (s : PulseRun) : PulseCall → Prop
  | .send p _ => Addressed s.proc p.destPort
  | .receive tr destPort => ∀ a, s.proc.threads tr = some a →
      ¬ Deliverable s.proc a (a.restriction destPort)
  | .preview tr destPort => ∀ a, s.proc.threads tr = some a →
      ∀ p, (unmasked s.proc (a.searched destPort)).head? = some p → pulses s.proc p = []
  | .drop tr => ∀ a, s.proc.threads tr = some a →
      if InRange a.lastPortPulse then
        portFlags s.proc a.lastPortPulse IPC_MASKED ≠ 0 ∨ pulses s.proc a.lastPortPulse ≠ []
      else ∀ p, a.owned.head? = some p → pulses s.proc p ≠ []
  | .waiting _ => True

def pulseSystem : System PulseRun PulseCall Fault where
  Init s := Sound s.proc ∧ (∀ p, InRange p → pulses s.proc p = []) ∧ s.accepted = [] ∧
    s.received = []
  Guard s c := c.Permitted s
  step s c := c.exec s

theorem pulses_eq {proc : Process} {p : ℤ} {l : List Pulse}
    (h : (proc.block p).pulseQ = some l) : pulses proc p = l := by
  rw [pulses, held, h]
  rfl

theorem pulses_setBlock {proc : Process} {p q : ℤ} (hp : InRange p) (hq : InRange q)
    (b : IpcBlock) (l : List Pulse) : pulses (proc.setBlock p { b with pulseQ := some l }) q =
      if q = p then l else pulses proc q := by
  rw [pulses, held, block_setBlock _ hp hq]
  split_ifs <;> rfl

namespace Sound
variable {proc : Process}

theorem pulses (h : Sound proc) {p : ℤ} (hp : Open proc p) :
    (proc.block p).pulseQ = some (Ipc.pulses proc p) := by
  obtain ⟨l, hl⟩ := Option.ne_none_iff_exists'.mp (h.pulseQ p hp)
  rw [pulses_eq hl, hl]

theorem setPulses (h : Sound proc) {p : ℤ} (hp : Open proc p) (l : List Pulse) :
    Sound (proc.setBlock p { proc.block p with pulseQ := some l }) :=
  h.setBlock hp.1 rfl (fun _ => Option.some_ne_none l) (h.messageQ p)

end Sound

/-- The state after a call that took nothing. -/
def unhinted (proc : Process) (tr : ℕ) (a : Thread) : Process :=
  proc.setThread tr { a with lastPortPulse := -1 }

/-- The state after the oldest pulse of a port was taken. -/
def delivered (proc : Process) (port : ℤ) (rest : List Pulse) : Process :=
  proc.setBlock port { proc.block port with pulseQ := some rest }

section Calls
variable {proc : Process} {tr : ℕ} {a : Thread}

theorem nextPulse_nil {p : ℤ} (h : (proc.block p).pulseQ = some []) :
    nextPulse proc p = .error .assertion := by
  rw [nextPulse, h]
  rfl

theorem nextPulse_cons {p : ℤ} {x : Pulse} {rest : List Pulse}
    (h : (proc.block p).pulseQ = some (x :: rest)) :
    nextPulse proc p = .ok (delivered proc p rest, x, 0) := by
  rw [nextPulse, h]
  rfl

theorem first_false_none {l : List ℤ} : first proc IpcBlock.pulseQ false l = none ↔
    ∀ p, (unmasked proc l).head? = some p → pulses proc p = [] := by
  cases h : (unmasked proc l).head? with
  | none => simp [first, h]
  | some p => simp [first, h, Option.filter, pulses]

theorem pulsesWaiting_eq (hs : Sound proc) (ht : proc.threads tr = some a) :
    pulsesWaiting proc tr =
      .ok ((unmasked proc a.owned).map fun p => (pulses proc p).length).sum := by
  rw [pulsesWaiting, ht, deref_some, ok_bind, waiting_eq hs.pulseQ, Nat.zero_add]
  rfl

/-- The call finds nothing, or halts on the pulse it finds. -/
theorem receivePulse_cases (hs : Sound proc) (ht : proc.threads tr = some a) (destPort : ℤ) :
    let l := a.asked (a.restriction destPort)
    (first proc IpcBlock.pulseQ false l = none ∧
      receivePulse proc tr destPort = .ok (unhinted proc tr a, none)) ∨
    ∃ p, first proc IpcBlock.pulseQ false l = some p ∧
      receivePulse proc tr destPort = .error .assertion := by
  intro l
  have hq : ∀ p, Open (unhinted proc tr a) p →
      ((unhinted proc tr a).block p).pulseQ ≠ none := hs.pulseQ
  have hpick := pick_eq hq false a (a.restriction destPort)
  have hfirst : first (unhinted proc tr a) IpcBlock.pulseQ false l =
      first proc IpcBlock.pulseQ false l := rfl
  rw [← Thread.asked, hfirst] at hpick
  rw [receivePulse, ht, deref_some, ok_bind]
  simp only
  rw [← unhinted, ← Thread.restriction, hpick, ok_bind]
  cases hf : first proc IpcBlock.pulseQ false l with
  | none => exact .inl ⟨rfl, rfl⟩
  | some p =>
    obtain ⟨_, _, x, rest, hb⟩ := first_spec hf
    have hb' : ((unhinted proc tr a).block p).pulseQ = some (x :: rest) := hb
    refine .inr ⟨p, rfl, ?_⟩
    simp only
    rw [nextPulse_cons hb', ok_bind]
    rfl

theorem previewPulse_cases (hs : Sound proc) (ht : proc.threads tr = some a) (destPort : ℤ) :
    let l := a.searched destPort
    (first proc IpcBlock.pulseQ false l = none ∧
      (previewPulse proc tr destPort = .ok (proc, none) ∨
        previewPulse proc tr destPort = .ok (unhinted proc tr a, none))) ∨
    ∃ p x rest b, first proc IpcBlock.pulseQ false l = some p ∧ Open proc p ∧
      pulses proc p = x :: rest ∧ previewPulse proc tr destPort =
        .ok ((delivered (unhinted proc tr a) p rest).setThread tr b, some x) := by
  intro l
  have hq : ∀ p, Open (unhinted proc tr a) p →
      ((unhinted proc tr a).block p).pulseQ ≠ none := hs.pulseQ
  have hfirst : first (unhinted proc tr a) IpcBlock.pulseQ false l =
      first proc IpcBlock.pulseQ false l := rfl
  rw [previewPulse, ht, deref_some, ok_bind]
  obtain ⟨hb, hl⟩ | ⟨bottom, top, hb, hl⟩ := bounds_cases a destPort
  · left
    rw [hb]
    refine ⟨?_, .inl rfl⟩
    unfold l
    rw [hl]
    rfl
  · rw [hb]
    simp only
    rw [← unhinted, scan_eq hq, hl, hfirst, ok_bind]
    cases hf : first proc IpcBlock.pulseQ false l with
    | none => exact .inl ⟨rfl, .inr rfl⟩
    | some p =>
      right
      obtain ⟨_, hp, x, rest, hb⟩ := first_spec hf
      have hb' : ((unhinted proc tr a).block p).pulseQ = some (x :: rest) := hb
      refine ⟨p, x, rest, { a with lastPortPulse := p }, rfl, hp, pulses_eq hb, ?_⟩
      simp only
      rw [nextPulse_cons hb', ok_bind]
      rfl

/-- The port that `drop_pulse` reads, if any. -/
def dropFrom (proc : Process) (a : Thread) : Option ℤ :=
  if InRange a.lastPortPulse then
    if portFlags proc a.lastPortPulse IPC_MASKED ≠ 0 then none else some a.lastPortPulse
  else a.owned.head?

theorem head_owned (a : Thread) :
    a.owned.head? = if a.ports 0 = -1 then none else some (a.ports 0) := by
  have h : a.owned = entries a.ports 0 (1023 + 1) := rfl
  rw [h, entries_succ]
  split_ifs <;> rfl

theorem open_of_dropFrom (hs : Sound proc) (ht : proc.threads tr = some a) {p : ℤ}
    (h : dropFrom proc a = some p) : Open proc p := by
  unfold dropFrom at h
  split_ifs at h with hr hm
  · obtain rfl := Option.some_inj.mp h
    exact open_of_portFlags (not_not.mp hm)
  · exact hs.owned tr a ht p (List.mem_of_head? h)

/-- The call has nothing to read, halts on an empty queue, or takes the oldest pulse. -/
theorem dropPulse_cases (hs : Sound proc) (ht : proc.threads tr = some a) :
    (dropFrom proc a = none ∧ dropPulse proc tr = .ok (unhinted proc tr a, none)) ∨
    (∃ p, dropFrom proc a = some p ∧ pulses proc p = [] ∧
      dropPulse proc tr = .error .assertion) ∨
    ∃ p x rest, dropFrom proc a = some p ∧ Open proc p ∧ pulses proc p = x :: rest ∧
      dropPulse proc tr = .ok (delivered (unhinted proc tr a) p rest, some x) := by
  have hflags : portFlags (unhinted proc tr a) a.lastPortPulse IPC_MASKED =
      portFlags proc a.lastPortPulse IPC_MASKED := rfl
  have hdrop : dropPulse proc tr = (match dropFrom proc a with
      | none => .ok (unhinted proc tr a, none)
      | some p => nextPulse (unhinted proc tr a) p >>= fun r => .ok (r.1, some r.2.1)) := by
    rw [dropPulse, ht, deref_some, ok_bind, dropFrom, head_owned]
    simp only
    rw [← unhinted, hflags]
    by_cases hr : InRange a.lastPortPulse
    · rw [if_pos hr, if_pos hr]
      by_cases hm : portFlags proc a.lastPortPulse IPC_MASKED = 0
      · rw [if_neg (not_not.mpr hm), if_neg (not_not.mpr hm)]
        have hne : ((unhinted proc tr a).block a.lastPortPulse).pulseQ ≠ none :=
          hs.pulseQ _ (open_of_portFlags hm)
        rw [assert_of hne, ok_bind]
      · rw [if_pos hm, if_pos hm]
    · rw [if_neg hr, if_neg hr]
      split_ifs <;> rfl
  rw [hdrop]
  cases hf : dropFrom proc a with
  | none => exact .inl ⟨rfl, rfl⟩
  | some p =>
    right
    have hp := open_of_dropFrom hs ht hf
    have hb : ((unhinted proc tr a).block p).pulseQ = some (pulses proc p) := hs.pulses hp
    cases hl : pulses proc p with
    | nil =>
      rw [hl] at hb
      refine .inl ⟨p, rfl, hl, ?_⟩
      simp only [nextPulse_nil hb]
      rfl
    | cons x rest =>
      rw [hl] at hb
      refine .inr ⟨p, x, rest, rfl, hp, hl, ?_⟩
      simp only [nextPulse_cons hb, ok_bind]

theorem sendPulse_cases (hs : Sound proc) (p : Pulse) (room : Bool) :
    (Addressed proc p.destPort ∧ sendPulse proc p room = .ok (proc, -1)) ∨
    (Addressed proc p.destPort ∧ Open proc p.destPort ∧ sendPulse proc p room =
      .ok (delivered proc p.destPort (pulses proc p.destPort ++ [p]), 0)) ∨
    (¬ Addressed proc p.destPort ∧ ∃ e, sendPulse proc p room = .error e) := by
  by_cases hneg : port2tid proc p.destPort < 0
  · exact .inl ⟨.inl hneg, by simp [sendPulse, hneg]⟩
  have hp := open_of_port2tid hneg
  cases hg : getThread proc (port2tid proc p.destPort) with
  | error e =>
    refine .inr (.inr ⟨not_addressed hneg hg, e, ?_⟩)
    rw [sendPulse, if_neg hneg, hg]
    rfl
  | ok found =>
    have haddr : Addressed proc p.destPort := .inr ⟨found, hg⟩
    cases found with
    | none => exact .inl ⟨haddr, by simp [sendPulse, hneg, hg]⟩
    | some t =>
      cases room with
      | false => exact .inl ⟨haddr, by simp [sendPulse, hneg, hg, hs.pulses hp, assert]⟩
      | true =>
        exact .inr (.inl ⟨haddr, hp, by simp [sendPulse, hneg, hg, hs.pulses hp, assert,
          delivered]⟩)

end Calls

section Correctness
variable {s : PulseRun} {tr : ℕ} {a : Thread}

/-- What a scan finds on the ports `receive_pulse` looks at can be delivered. -/
theorem deliverable_of_first {proc : Process} {port p : ℤ}
    (h : first proc IpcBlock.pulseQ false (a.asked port) = some p) : Deliverable proc a port := by
  obtain ⟨hh, hne⟩ := Option.filter_eq_some_iff.mp h
  have hne : pulses proc p ≠ [] := by simpa [pulses] using hne
  have hm := List.mem_of_head? hh
  unfold Deliverable
  unfold Thread.asked at hm
  split_ifs at hm ⊢
  · obtain rfl := List.mem_singleton.mp (List.mem_filter.mp hm).1
    exact hne
  · exact ⟨p, hm, hne⟩

theorem receive_correct_iff (hs : Sound s.proc) (ht : s.proc.threads tr = some a) (destPort : ℤ) :
    (PulseCall.receive tr destPort).Correct s ↔ (PulseCall.receive tr destPort).Safe s := by
  simp only [PulseCall.Correct, PulseCall.Safe, ht, Option.some.injEq, forall_eq']
  obtain ⟨_, he⟩ | ⟨p, hf, he⟩ := receivePulse_cases hs ht destPort
  · rw [he]
    constructor
    · rintro ⟨proc', r, h, hd, _⟩
      cases h
      simpa using hd
    · intro hn
      exact ⟨_, _, rfl, by simpa using hn, nofun⟩
  · rw [he]
    exact iff_of_false (fun ⟨_, _, h, _⟩ => nomatch h) (not_not.mpr (deliverable_of_first hf))

theorem pulses_delivered {p q : ℤ} (hp : InRange p) (hq : InRange q) (proc : Process)
    (rest : List Pulse) :
    pulses (delivered proc p rest) q = if q = p then rest else pulses proc q :=
  pulses_setBlock hp hq _ rest

theorem preview_correct_iff (hs : Sound s.proc) (ht : s.proc.threads tr = some a) (destPort : ℤ) :
    (PulseCall.preview tr destPort).Correct s ↔ (PulseCall.preview tr destPort).Safe s := by
  simp only [PulseCall.Correct, PulseCall.Safe, ht, Option.some.injEq, forall_eq',
    ← first_false_none]
  obtain ⟨hf, he⟩ | ⟨p, x, rest, b, hf, hp, hx, he⟩ := previewPulse_cases hs ht destPort
  · refine iff_of_true ?_ hf
    obtain he | he := he
    · exact ⟨_, _, he, fun _ _ => rfl⟩
    · exact ⟨_, _, he, fun _ _ => rfl⟩
  · refine iff_of_false ?_ (by simp [hf])
    rintro ⟨proc', r, h, hq⟩
    rw [he] at h
    cases h
    have hrest : pulses ((delivered (unhinted s.proc tr a) p rest).setThread tr b) p = rest :=
      (pulses_delivered hp.1 hp.1 _ rest).trans (if_pos rfl)
    have := hq p hp.1
    rw [hrest, hx] at this
    exact List.cons_ne_self x rest this.symm

theorem drop_safe_iff (ht : s.proc.threads tr = some a) :
    (PulseCall.drop tr).Safe s ↔ ∀ p, dropFrom s.proc a = some p → pulses s.proc p ≠ [] := by
  simp only [PulseCall.Safe, ht, Option.some.injEq, forall_eq', dropFrom]
  by_cases hr : InRange a.lastPortPulse
  · by_cases hm : portFlags s.proc a.lastPortPulse IPC_MASKED = 0 <;> simp [hr, hm]
  · simp [hr]

theorem drop_correct_iff (hs : Sound s.proc) (ht : s.proc.threads tr = some a) :
    (PulseCall.drop tr).Correct s ↔ (PulseCall.drop tr).Safe s := by
  rw [drop_safe_iff ht]
  simp only [PulseCall.Correct, ht, Option.some.injEq, forall_eq']
  obtain ⟨hf, he⟩ | ⟨p, hf, hx, he⟩ | ⟨p, x, rest, hf, hp, hx, he⟩ := dropPulse_cases hs ht
  · exact iff_of_true ⟨_, _, he, fun _ => rfl⟩ (by simp [hf])
  · refine iff_of_false ?_ fun h => h p hf hx
    rw [he]
    exact fun ⟨_, _, h, _⟩ => nomatch h
  · refine iff_of_true ⟨_, _, he, fun hn => ?_⟩ fun q hq => ?_
    · unfold dropFrom at hf
      unfold NothingToDrop at hn
      split_ifs at hf hn
      · obtain rfl := Option.some_inj.mp hf
        exact absurd (hx.symm.trans hn) (List.cons_ne_nil x rest)
      · exact absurd (hx.symm.trans (hn p (List.mem_of_head? hf))) (List.cons_ne_nil x rest)
    · obtain rfl := Option.some_inj.mp (hf.symm.trans hq)
      rw [hx]
      exact List.cons_ne_nil x rest

/-- A call does what it must exactly when it is safe. -/
theorem PulseCall.correct_iff (hs : Sound s.proc) {c : PulseCall} (hc : c.Permitted s) :
    c.Correct s ↔ c.Safe s := by
  cases c with
  | send p room =>
    obtain ⟨hsafe, he⟩ | ⟨hsafe, _, he⟩ | ⟨hno, e, he⟩ := sendPulse_cases hs p room
    · exact iff_of_true ⟨_, he⟩ hsafe
    · exact iff_of_true ⟨_, he⟩ hsafe
    · refine iff_of_false ?_ hno
      rintro ⟨r, h⟩
      cases he.symm.trans h
  | receive tr destPort =>
    obtain ⟨a, ht⟩ := hc
    exact receive_correct_iff hs ht destPort
  | preview tr destPort =>
    obtain ⟨a, ht⟩ := hc
    exact preview_correct_iff hs ht destPort
  | waiting tr =>
    obtain ⟨a, ht⟩ := hc
    exact iff_of_true ⟨_, pulsesWaiting_eq hs ht⟩ trivial
  | drop tr =>
    obtain ⟨a, ht⟩ := hc
    exact drop_correct_iff hs ht

end Correctness

/-- Every pulse accepted at a port was taken once, in order and as it was sent, or is still queued
there. -/
structure PulsesKept (s : PulseRun) : Prop where
  sound : Sound s.proc
  fifo : ∀ p, InRange p → s.accepted.filter (·.destPort = p) =
    s.received.filter (·.destPort = p) ++ pulses s.proc p

namespace PulsesKept
variable {s : PulseRun}

theorem destPort (h : PulsesKept s) {p : ℤ} (hp : InRange p) {x : Pulse}
    (hx : x ∈ pulses s.proc p) : x.destPort = p := by
  have hmem : x ∈ s.accepted.filter (·.destPort = p) := by
    rw [h.fifo p hp]
    exact List.mem_append_right _ hx
  simpa using (List.mem_filter.mp hmem).2

theorem unhinted (h : PulsesKept s) {tr : ℕ} {a : Thread} (ht : s.proc.threads tr = some a) :
    PulsesKept { s with proc := unhinted s.proc tr a } :=
  ⟨h.sound.setThread ht rfl, h.fifo⟩

theorem delivered (h : PulsesKept s) {p : ℤ} (hp : Open s.proc p) {x : Pulse}
    {rest : List Pulse} (hx : pulses s.proc p = x :: rest) :
    PulsesKept ⟨delivered s.proc p rest, s.accepted, s.received ++ [x]⟩ := by
  have hd : x.destPort = p := h.destPort hp.1 (hx ▸ List.mem_cons_self)
  refine ⟨h.sound.setPulses hp rest, fun q hq => ?_⟩
  rw [pulses_delivered hp.1 hq, List.filter_append, h.fifo q hq]
  by_cases hqp : q = p
  · subst hqp
    simp [hx, hd]
  · have : x.destPort ≠ q := fun e => hqp (e.symm.trans hd)
    simp [hqp, this]

theorem sent (h : PulsesKept s) {x : Pulse} (hp : Open s.proc x.destPort) :
    PulsesKept ⟨Ipc.delivered s.proc x.destPort (pulses s.proc x.destPort ++ [x]),
      s.accepted ++ [x], s.received⟩ := by
  refine ⟨h.sound.setPulses hp _, fun q hq => ?_⟩
  rw [pulses_delivered hp.1 hq, List.filter_append, h.fifo q hq]
  by_cases hqp : q = x.destPort
  · subst hqp
    simp
  · simp [hqp, Ne.symm hqp]

/-- The step lemma. -/
theorem exec (h : PulsesKept s) {c : PulseCall} (hc : c.Permitted s) (hn : c.Safe s) :
    ∃ t, c.exec s = .ok t ∧ PulsesKept t := by
  cases c with
  | send p room =>
    obtain ⟨-, he⟩ | ⟨-, hp, he⟩ | ⟨hno, -⟩ := sendPulse_cases h.sound p room
    · refine ⟨s, ?_, h⟩
      simp [PulseCall.exec, he]
    · refine ⟨_, ?_, h.sent hp⟩
      simp [PulseCall.exec, he]
    · exact absurd hn hno
  | receive tr destPort =>
    obtain ⟨a, ht⟩ := hc
    obtain ⟨_, he⟩ | ⟨p, hf, _⟩ := receivePulse_cases h.sound ht destPort
    · refine ⟨_, ?_, h.unhinted ht⟩
      simp [PulseCall.exec, he]
    · exact absurd (deliverable_of_first hf) (hn a ht)
  | preview tr destPort =>
    obtain ⟨a, ht⟩ := hc
    obtain ⟨_, he | he⟩ | ⟨p, x, rest, b, hf, _⟩ := previewPulse_cases h.sound ht destPort
    · refine ⟨s, ?_, h⟩
      simp [PulseCall.exec, he]
    · refine ⟨_, ?_, h.unhinted ht⟩
      simp [PulseCall.exec, he]
    · exact absurd (first_false_none.mpr (hn a ht)) (by simp [hf])
  | waiting tr =>
    obtain ⟨a, ht⟩ := hc
    refine ⟨s, ?_, h⟩
    simp [PulseCall.exec, pulsesWaiting_eq h.sound ht]
  | drop tr =>
    obtain ⟨a, ht⟩ := hc
    have hn := (drop_safe_iff ht).mp hn
    obtain ⟨_, he⟩ | ⟨p, hf, hx, _⟩ | ⟨p, x, rest, _, hp, hx, he⟩ := dropPulse_cases h.sound ht
    · refine ⟨_, ?_, h.unhinted ht⟩
      simp [PulseCall.exec, he]
    · exact absurd hx (hn p hf)
    · refine ⟨_, ?_, (h.unhinted ht).delivered hp hx⟩
      simp [PulseCall.exec, he]

theorem init (h : pulseSystem.Init s) : PulsesKept s := by
  obtain ⟨hs, hm, ha, hr⟩ := h
  refine ⟨hs, fun p hp => ?_⟩
  rw [ha, hr, hm p hp]
  rfl

end PulsesKept

/-- Each call does what it must exactly where it is safe, and runs of safe calls keep every pulse
as it was sent. -/
theorem pulse_delivery (s : PulseRun) :
    (∀ c : PulseCall, Sound s.proc → c.Permitted s → (c.Correct s ↔ c.Safe s)) ∧
    (∀ cs t, pulseSystem.Init s → (pulseSystem.restrict fun s c => c.Safe s).Steps s cs t →
      PulsesKept t ∧ ∀ c : PulseCall, c.Permitted t → c.Safe t →
        c.Correct t ∧ ∃ u, c.exec t = .ok u) := by
  refine ⟨fun c hs hc => PulseCall.correct_iff hs hc, fun cs t hs hr => ?_⟩
  have hp : (pulseSystem.restrict fun s c => c.Safe s).Preserves PulsesKept :=
    fun s c h hg => h.exec hg.1 hg.2
  have ht : PulsesKept t := hr.preserves hp (.init hs)
  refine ⟨ht, fun c hc hn => ⟨(PulseCall.correct_iff ht.sound hc).mpr hn, ?_⟩⟩
  obtain ⟨u, hu, _⟩ := ht.exec hc hn
  exact ⟨u, hu⟩

def hello : Pulse := ⟨7, 3, 0, 1, 2, 3, 4, 5, 6⟩

/-- A pulse waits at the first port. -/
def helloSent : PulseRun :=
  ⟨delivered idlePorts 0 [hello], [hello], []⟩

theorem idlePorts_pulses : pulseSystem.Init ⟨idlePorts, [], []⟩ :=
  ⟨sound_idlePorts, fun p _ => held_idlePorts_pulse p, rfl, rfl⟩

theorem pulsesKept_helloSent : PulsesKept helloSent :=
  (PulsesKept.init idlePorts_pulses).sent (x := hello) (by unfold Open; decide)

/-- Reading it with `receive_pulse` halts the kernel, and so does `drop_pulse` before it came. -/
theorem receive_halts : PulsesKept helloSent ∧ ¬ (PulseCall.receive 1 (-1)).Correct helloSent ∧
    receivePulse helloSent.proc 1 (-1) = .error .assertion ∧
    dropPulse idlePorts 1 = .error .assertion := by
  refine ⟨pulsesKept_helloSent, fun h => ?_, rfl, rfl⟩
  obtain ⟨proc', r, he, _⟩ := h receiver rfl
  cases he

theorem pulse_delivery_example : (PulseCall.drop 1).Correct helloSent ∧
    ∃ t : PulseRun, t.accepted = [hello] ∧ t.received = [hello] ∧ PulsesKept t := by
  have hsafe : (PulseCall.drop 1).Safe helloSent := by
    refine (drop_safe_iff (a := receiver) rfl).mpr fun p hp => ?_
    have hd : dropFrom helloSent.proc receiver = some 0 := by decide
    obtain rfl := Option.some_inj.mp (hd.symm.trans hp)
    exact List.cons_ne_nil _ _
  refine ⟨((pulse_delivery helloSent).1 (.drop 1) pulsesKept_helloSent.sound
    ⟨receiver, rfl⟩).mpr hsafe, ?_⟩
  have hr : (pulseSystem.restrict fun s c => c.Safe s).Steps ⟨idlePorts, [], []⟩
      [.send hello true, .drop 1] _ :=
    .cons ⟨trivial, .inr ⟨some 1, rfl⟩⟩ rfl (.one ⟨⟨receiver, rfl⟩, hsafe⟩ rfl)
  exact ⟨_, rfl, rfl, ((pulse_delivery _).2 _ _ idlePorts_pulses hr).1⟩

end Racoon.Ipc
