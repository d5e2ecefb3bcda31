import Racoon.Ipc.PortTable
import Racoon.Ipc.Messages
import Racoon.Ipc.Pulses

/-!
# How `release_port` drains a port

The loops of `release_port` over `drop_pulse` and `drop_message`, which the model
of the port table takes to empty the queues. Both loops set the hint for messages
only. `drop_pulse` therefore follows an older hint or goes to the first port of
the thread, and reports failure only where it finds no port to read; a queue that
it finds empty halts the kernel.
-/

namespace Racoon.Ipc
open Lib

/-- `do { target->last_port_message = port; } while ( drop( target ) >= 0 );` -/
def dropAll {α : Type} (drop : Process → ℕ → Outcome (Process × Option α)) :
    ℕ → Process → ℕ → ℤ → Outcome Process
  | 0, _, _, _ => .error .diverges
  | rounds + 1, proc, target, port => do
    let b ← deref (proc.threads target)
    let (proc, dropped) ← drop (proc.setThread target { b with lastPortMessage := port }) target
    match dropped with
    | none => .ok proc
    | some _ => dropAll drop rounds proc target port

def releasePortDraining (rounds : ℕ) (proc : Process) (tr : ℕ) (port : ℤ) :
    Outcome (Process × ℤ) := do
  let a ← deref (proc.threads tr)
  if ¬ InRange port then .ok (proc, -1)
  else if (proc.block port).tid = -1 then .ok (proc, -1)
  else do
    match ← proc.target tr a (proc.block port).tid with
    | none => do
      let proc ← closePort proc port
      .ok (proc, 0)
    | some target => do
      let proc ← dropAll dropPulse rounds proc target port
      let proc ← dropAll dropMessage rounds proc target port
      let proc ← closePort proc port
      let b ← deref (proc.threads target)
      .ok (proc.setThread target { b with ports := shiftOut port 0 MAX_PORTS false b.ports }, 0)

/-- An open port with both queues, whose messages have a block of data each. -/
structure Queued (proc : Process) (port : ℤ) : Prop where
  isOpen : Open proc port
  pulseQ : (proc.block port).pulseQ = some (pulses proc port)
  messageQ : (proc.block port).messageQ = some (messages proc port)
  data : ∀ m ∈ messages proc port, proc.heap.block m.data ≠ none
  nodup : ((messages proc port).map Message.data).Nodup

/-- The port is closed, its messages are freed, the other ports are as they were, and the port can
be created again. -/
structure Drained (proc proc' : Process) (port : ℤ) : Prop where
  freed : proc'.heap.freed = proc.heap.freed ++ (messages proc port).map Message.data
  closed : proc'.block port = ⟨-1, 0, none, none⟩
  others : ∀ q, InRange q → q ≠ port → proc'.block q = proc.block q
  reopened : ∀ tr a tid target b, proc'.threads tr = some a →
    proc'.target tr a tid = .ok (some target) →
    proc'.threads target = some b → ∃ u, createPort proc' tr port tid true true = .ok (u, 0)

/-- The loop over `drop_pulse` ends without harm: the hint names a port that is masked or closed,
or the thread has no port and no hint but at the port itself, where a pulse waits. -/
def PulsesEnd (proc : Process) (b : Thread) (port : ℤ) : Prop :=
  (InRange b.lastPortPulse ∧ portFlags proc b.lastPortPulse IPC_MASKED ≠ 0) ∨
    (b.ports 0 = -1 ∧
      (¬ InRange b.lastPortPulse ∨ (b.lastPortPulse = port ∧ pulses proc port ≠ [])))

/-- When a call by the thread `tr` drains the port. The look-up of the owner has to end. -/
def Drains (proc : Process) (tr : ℕ) (a : Thread) (port : ℤ) : Prop :=
  match proc.target tr a (proc.block port).tid with
  | .error _ => False
  | .ok none => messages proc port = []
  | .ok (some target) => (portFlags proc port IPC_MASKED = 0 ∨ messages proc port = []) ∧
      ∀ b, proc.threads target = some b → PulsesEnd proc b port

theorem not_inRange_neg : ¬ InRange (-1) := by decide

theorem createPort_closed {proc : Process} {tr target : ℕ} {a b : Thread} {port tid : ℤ}
    (hr : InRange port) (hclosed : (proc.block port).tid = -1) (ha : proc.threads tr = some a)
    (ht : proc.target tr a tid = .ok (some target)) (hb : proc.threads target = some b) :
    ∃ u, createPort proc tr port tid true true = .ok (u, 0) := by
  have hb' : (proc.setBlock port ⟨tid, 0, some [], some []⟩).threads target = some b := hb
  rw [createPort, ha, deref_some, ok_bind, if_neg (not_not.mpr hr),
    if_neg (not_not.mpr hclosed), ht]
  simp only [ok_bind, Bool.true_eq_false, if_false, hb', deref_some, ok_bind]
  exact ⟨_, rfl⟩

theorem dropAll_succ {α : Type} (drop : Process → ℕ → Outcome (Process × Option α)) {proc : Process}
    {t : ℕ} {b : Thread} (ht : proc.threads t = some b) (rounds : ℕ) (port : ℤ) :
    dropAll drop (rounds + 1) proc t port =
      drop (proc.setThread t { b with lastPortMessage := port }) t >>= fun r =>
        if r.2.isNone then .ok r.1 else dropAll drop rounds r.1 t port := by
  rw [dropAll, ht, deref_some, ok_bind]
  cases drop (proc.setThread t { b with lastPortMessage := port }) t with
  | error e => rfl
  | ok r =>
    obtain ⟨p, x | x⟩ := r
    · rfl
    · rfl

/-- More rounds change nothing. -/
theorem dropAll_mono {α : Type} {drop : Process → ℕ → Outcome (Process × Option α)}
    {rounds k : ℕ} {proc u : Process} {t : ℕ} {port : ℤ}
    (h : dropAll drop rounds proc t port = .ok u) :
    dropAll drop (rounds + k) proc t port = .ok u := by
  induction rounds generalizing proc with
  | zero => cases h
  | succ rounds ih =>
    cases ht : proc.threads t with
    | none =>
      rw [dropAll, ht] at h
      cases h
    | some b =>
      rw [dropAll_succ drop ht] at h
      rw [Nat.add_right_comm, dropAll_succ drop ht]
      obtain ⟨r, hr, h⟩ := bind_eq_ok.mp h
      rw [hr, ok_bind]
      split_ifs at h ⊢ with hn
      · exact h
      · exact ih h

section Pulses
variable {proc : Process} {t : ℕ} {b : Thread}

/-- The call finds no port, fails, or takes the oldest pulse. -/
theorem dropPulse_outcome (ht : proc.threads t = some b) :
    (dropFrom proc b = none ∧ dropPulse proc t = .ok (unhinted proc t b, none)) ∨
    (∃ p, dropFrom proc b = some p ∧ pulses proc p = [] ∧ ∃ e, dropPulse proc t = .error e) ∨
    ∃ p x rest, dropFrom proc b = some p ∧ pulses proc p = x :: rest ∧
      dropPulse proc t = .ok (delivered (unhinted proc t b) p rest, some x) := by
  have hnext : ∀ p, (pulses proc p = [] ∧ ∃ e, nextPulse (unhinted proc t b) p = .error e) ∨
      ∃ x rest, pulses proc p = x :: rest ∧ (proc.block p).pulseQ ≠ none ∧
        nextPulse (unhinted proc t b) p = .ok (delivered (unhinted proc t b) p rest, x, 0) := by
    intro p
    have hsame : (unhinted proc t b).block p = proc.block p := rfl
    cases hq : (proc.block p).pulseQ with
    | none =>
      refine .inl ⟨by rw [pulses, held, hq]; rfl, .badAccess, ?_⟩
      rw [nextPulse, hsame, hq]
      rfl
    | some l =>
      cases l with
      | nil => exact .inl ⟨pulses_eq hq, .assertion, nextPulse_nil hq⟩
      | cons x rest =>
        exact .inr ⟨x, rest, pulses_eq hq, Option.some_ne_none _, nextPulse_cons hq⟩
  have hflags : portFlags (unhinted proc t b) b.lastPortPulse IPC_MASKED =
      portFlags proc b.lastPortPulse IPC_MASKED := rfl
  rw [dropPulse, ht, deref_some, ok_bind, dropFrom, head_owned]
  simp only
  rw [← unhinted, hflags]
  by_cases hr : InRange b.lastPortPulse
  · rw [if_pos hr, if_pos hr]
    by_cases hm : portFlags proc b.lastPortPulse IPC_MASKED = 0
    · rw [if_neg (not_not.mpr hm), if_neg (not_not.mpr hm)]
      refine .inr ?_
      rcases hnext b.lastPortPulse with ⟨hnil, e, he⟩ | ⟨x, rest, hx, hne, he⟩
      · refine .inl ⟨_, rfl, hnil, ?_⟩
        rw [he]
        by_cases ha : ((unhinted proc t b).block b.lastPortPulse).pulseQ ≠ none
        · exact ⟨e, by rw [assert_of ha]; rfl⟩
        · exact ⟨.assertion, by rw [assert, if_neg ha]; rfl⟩
      · have hne' : ((unhinted proc t b).block b.lastPortPulse).pulseQ ≠ none := hne
        exact .inr ⟨_, x, rest, rfl, hx, by rw [assert_of hne', ok_bind, he]; rfl⟩
    · rw [if_pos hm, if_pos hm]
      exact .inl ⟨rfl, rfl⟩
  · rw [if_neg hr, if_neg hr]
    by_cases h0 : b.ports 0 = -1
    · rw [if_pos h0, if_pos h0]
      exact .inl ⟨rfl, rfl⟩
    · rw [if_neg h0, if_neg h0]
      refine .inr ?_
      rcases hnext (b.ports 0) with ⟨hnil, e, he⟩ | ⟨x, rest, hx, -, he⟩
      · exact .inl ⟨_, rfl, hnil, e, by rw [he]; rfl⟩
      · exact .inr ⟨_, x, rest, rfl, hx, by rw [he]; rfl⟩

/-- The thread after a call of `drop_pulse` in the loop. -/
def stripped (proc : Process) (t : ℕ) (b : Thread) (port : ℤ) : Process :=
  proc.setThread t { b with lastPortPulse := -1, lastPortMessage := port }

theorem threads_stripped (proc : Process) (t : ℕ) (b : Thread) (port : ℤ) :
    (stripped proc t b port).threads t =
      some { b with lastPortPulse := -1, lastPortMessage := port } :=
  Function.update_self ..

theorem setThread_setThread (proc : Process) (t : ℕ) (a b : Thread) :
    (proc.setThread t a).setThread t b = proc.setThread t b := by
  simp [Process.setThread]

/-- One round of the loop. -/
theorem dropPulses_succ (ht : proc.threads t = some b) (rounds : ℕ) (port : ℤ) :
    (dropFrom proc b = none ∧
      dropAll dropPulse (rounds + 1) proc t port = .ok (stripped proc t b port)) ∨
    (∃ p, dropFrom proc b = some p ∧ pulses proc p = [] ∧
      ∃ e, dropAll dropPulse (rounds + 1) proc t port = .error e) ∨
    ∃ p x rest, dropFrom proc b = some p ∧ pulses proc p = x :: rest ∧
      dropAll dropPulse (rounds + 1) proc t port =
        dropAll dropPulse rounds (delivered (stripped proc t b port) p rest) t port := by
  have hs : unhinted (proc.setThread t { b with lastPortMessage := port }) t
      { b with lastPortMessage := port } = stripped proc t b port := setThread_setThread ..
  have hm : (proc.setThread t { b with lastPortMessage := port }).threads t =
      some { b with lastPortMessage := port } := Function.update_self ..
  rw [dropAll_succ _ ht]
  obtain ⟨hf, he⟩ | ⟨p, hf, hp, e, he⟩ | ⟨p, x, rest, hf, hp, he⟩ := dropPulse_outcome hm
  · rw [he, hs]
    exact .inl ⟨hf, rfl⟩
  · rw [he]
    exact .inr (.inl ⟨p, hf, hp, e, rfl⟩)
  · rw [he, hs]
    exact .inr (.inr ⟨p, x, rest, hf, hp, rfl⟩)

/-- Without a hint the loop never ends well for a thread that has a port: it takes from the first
one until that is empty. -/
theorem dropPulses_stuck {port : ℤ} {rounds : ℕ} {u : Process} (ht : proc.threads t = some b)
    (hhint : ¬ InRange b.lastPortPulse) (hports : b.ports 0 ≠ -1) :
    dropAll dropPulse rounds proc t port ≠ .ok u := by
  induction rounds generalizing proc b with
  | zero => simp [dropAll]
  | succ rounds ih =>
    obtain ⟨hf, -⟩ | ⟨p, -, -, e, he⟩ | ⟨p, x, rest, -, -, he⟩ := dropPulses_succ ht rounds port
    · rw [dropFrom, if_neg hhint, head_owned, if_neg hports] at hf
      cases hf
    · simp [he]
    · rw [he]
      exact ih (b := { b with lastPortPulse := -1, lastPortMessage := port })
        (threads_stripped proc t b port) not_inRange_neg hports

/-- How the loop ends if it does: there was no port to read, or a single pulse where the hint
pointed. -/
theorem dropPulses_ok {port : ℤ} {rounds : ℕ} {u : Process} (ht : proc.threads t = some b)
    (h : dropAll dropPulse rounds proc t port = .ok u) :
    (dropFrom proc b = none ∧ u = stripped proc t b port) ∨
    ∃ x rest, dropFrom proc b = some b.lastPortPulse ∧ InRange b.lastPortPulse ∧ b.ports 0 = -1 ∧
      pulses proc b.lastPortPulse = x :: rest ∧
      u = delivered (stripped proc t b port) b.lastPortPulse rest := by
  cases rounds with
  | zero => cases h
  | succ rounds =>
    obtain ⟨hf, he⟩ | ⟨p, -, -, e, he⟩ | ⟨p, x, rest, hf, hp, he⟩ := dropPulses_succ ht rounds port
    · rw [he] at h
      cases h
      exact .inl ⟨hf, rfl⟩
    · rw [he] at h
      cases h
    · rw [he] at h
      have ht' := threads_stripped proc t b port
      by_cases hports : b.ports 0 = -1
      swap
      · exact absurd h (dropPulses_stuck
          (b := { b with lastPortPulse := -1, lastPortMessage := port }) ht' not_inRange_neg hports)
      have hhint : InRange b.lastPortPulse := by
        by_contra hr
        rw [dropFrom, if_neg hr, head_owned, if_pos hports] at hf
        cases hf
      have hpp : p = b.lastPortPulse := by
        rw [dropFrom, if_pos hhint] at hf
        split_ifs at hf
        exact (Option.some.inj hf).symm
      subst hpp
      refine .inr ⟨x, rest, hf, hhint, hports, hp, ?_⟩
      have hnone : dropFrom (delivered (stripped proc t b port) b.lastPortPulse rest)
          { b with lastPortPulse := -1, lastPortMessage := port } = none := by
        rw [dropFrom, if_neg not_inRange_neg, head_owned, if_pos hports]
      have ht' : (delivered (stripped proc t b port) b.lastPortPulse rest).threads t =
        some { b with lastPortPulse := -1, lastPortMessage := port } := ht'
      cases rounds with
      | zero => cases h
      | succ rounds =>
        obtain ⟨-, he'⟩ | ⟨p, hf', -⟩ | ⟨p, -, -, hf', -⟩ := dropPulses_succ ht' rounds port
        · rw [he'] at h
          cases h
          simp only [stripped, delivered, Process.setThread, Process.setBlock, Process.block,
            Function.update_idem]
        · rw [hnone] at hf'
          cases hf'
        · rw [hnone] at hf'
          cases hf'

end Pulses

/-- The heap after `kfree` of the data of messages, one after the other. -/
def freeAll (h : Heap) (data : List ℕ) : Heap :=
  ⟨fun x => if x ∈ data then none else h.block x, h.freed ++ data⟩

theorem freeAll_cons (h : Heap) (x : ℕ) (data : List ℕ) :
    freeAll ⟨Function.update h.block x none, h.freed ++ [x]⟩ data = freeAll h (x :: data) := by
  simp only [freeAll, List.append_assoc, List.singleton_append, Heap.mk.injEq, and_true]
  funext y
  by_cases hy : y = x
  · subst hy
    simp
  · simp [hy]

/-- The state after the messages of a port were dropped. -/
def emptied (proc : Process) (t : ℕ) (b : Thread) (port : ℤ) : Process :=
  { ((proc.setBlock port { proc.block port with messageQ := some [] }).setThread t
      { b with lastPortMessage := -1 }) with
    heap := freeAll proc.heap ((messages proc port).map Message.data) }

section Messages
variable {proc : Process} {t : ℕ} {b : Thread} {port : ℤ}

/-- One call of `drop_message` with the hint set to the port. -/
theorem dropMessage_hinted (hr : InRange port)
    (hq : (proc.block port).messageQ = some (messages proc port)) :
    ((portFlags proc port IPC_MASKED ≠ 0 ∨ messages proc port = []) ∧
      dropMessage (proc.setThread t { b with lastPortMessage := port }) t =
        .ok (proc.setThread t { b with lastPortMessage := -1 }, none)) ∨
    ∃ m rest, portFlags proc port IPC_MASKED = 0 ∧ messages proc port = m :: rest ∧
      (proc.heap.block m.data ≠ none →
        dropMessage (proc.setThread t { b with lastPortMessage := port }) t =
          .ok (consumed (proc.setThread t { b with lastPortMessage := -1 }) port m rest,
            some m)) := by
  have hthread : (proc.setThread t { b with lastPortMessage := port }).threads t =
      some { b with lastPortMessage := port } := Function.update_self ..
  have hq' : ((proc.setThread t { b with lastPortMessage := -1 }).block port).messageQ =
      some (messages proc port) := hq
  have hflags : portFlags (proc.setThread t { b with lastPortMessage := -1 }) port IPC_MASKED =
      portFlags proc port IPC_MASKED := rfl
  rw [dropMessage, hthread, deref_some, ok_bind]
  simp only [setThread_setThread]
  rw [pick, if_pos hr, hflags, hq']
  by_cases hm : portFlags proc port IPC_MASKED = 0
  swap
  · rw [if_pos hm]
    exact .inl ⟨.inl hm, rfl⟩
  rw [if_neg (not_not.mpr hm)]
  cases hl : messages proc port with
  | nil => exact .inl ⟨.inr rfl, rfl⟩
  | cons m rest =>
    refine .inr ⟨m, rest, hm, rfl, fun hdata => ?_⟩
    obtain ⟨c, hc⟩ := Option.ne_none_iff_exists'.mp hdata
    have hc' : (unqueued (proc.setThread t { b with lastPortMessage := -1 }) port rest).heap.block
        m.data = some c := hc
    simp only [ok_bind, nextMessage_eq (hq'.trans (congrArg some hl)), kfree_eq hc']
    rfl

theorem messages_dropped (hr : InRange port) (m : Message) (rest : List Message) :
    messages (consumed (proc.setThread t b) port m rest) port = rest :=
  (messages_setBlock hr hr _ rest).trans (if_pos rfl)

theorem block_dropped (hr : InRange port) (m : Message) (rest : List Message) :
    (consumed (proc.setThread t b) port m rest).block port =
      { proc.block port with messageQ := some rest } :=
  (block_setBlock (proc.setThread t b) hr hr _).trans (if_pos rfl)

theorem Queued.consumed (h : Queued proc port) {m : Message} {rest : List Message}
    (hl : messages proc port = m :: rest) :
    Queued (consumed (proc.setThread t b) port m rest) port := by
  have hr := h.isOpen.1
  have hb : (Ipc.consumed (proc.setThread t b) port m rest).block port =
    { proc.block port with messageQ := some rest } := block_dropped hr m rest
  have hms : messages (Ipc.consumed (proc.setThread t b) port m rest) port = rest :=
    messages_dropped hr m rest
  have hnodup := h.nodup
  rw [hl, List.map_cons, List.nodup_cons] at hnodup
  refine ⟨⟨hr, by rw [hb]; exact h.isOpen.2⟩, ?_, by rw [hb, hms], fun m' hm' => ?_, by
    rw [hms]; exact hnodup.2⟩
  · rw [pulses, held, hb]
    exact h.pulseQ
  · rw [hms] at hm'
    have hne : m'.data ≠ m.data := fun he => hnodup.1 (he ▸ List.mem_map_of_mem hm')
    have hdata := h.data m' (hl ▸ List.mem_cons_of_mem m hm')
    exact fun he => hdata ((Function.update_of_ne hne ..).symm.trans he)

theorem emptied_nil (h : Queued proc port) (hl : messages proc port = []) :
    emptied proc t b port = proc.setThread t { b with lastPortMessage := -1 } := by
  have hb : { proc.block port with messageQ := some [] } = proc.block port := by
    rw [← hl, ← h.messageQ]
  have hset : proc.setBlock port (proc.block port) = proc := by
    simp [Process.setBlock, Process.block]
  rw [emptied, hb, hset, hl]
  simp [freeAll, Process.setThread]

theorem emptied_consumed (hr : InRange port) {m : Message} {rest : List Message}
    (hl : messages proc port = m :: rest) (c : Thread) :
    emptied (consumed (proc.setThread t c) port m rest) t b port = emptied proc t b port := by
  rw [emptied, emptied, messages_dropped hr, block_dropped hr, hl, List.map_cons, ← freeAll_cons]
  simp [Ipc.consumed, unqueued, Process.setThread, Process.setBlock]

/-- The loop over `drop_message` empties the port, if that is not masked. -/
theorem dropMessages_eq {rounds : ℕ} (h : Queued proc port) (ht : proc.threads t = some b)
    (hm : portFlags proc port IPC_MASKED = 0 ∨ messages proc port = [])
    (hlt : (messages proc port).length < rounds) :
    dropAll dropMessage rounds proc t port = .ok (emptied proc t b port) := by
  induction rounds generalizing proc b with
  | zero => cases hlt
  | succ rounds ih =>
    rw [dropAll_succ _ ht]
    obtain ⟨hnone, he⟩ | ⟨m, rest, hflag, hl, he⟩ :=
      dropMessage_hinted (t := t) (b := b) h.isOpen.1 h.messageQ
    · have hl : messages proc port = [] := by
        rcases hnone with hne | hl
        · exact hm.resolve_left hne
        · exact hl
      rw [he, ok_bind, emptied_nil h hl]
      rfl
    · have hr := h.isOpen.1
      have hmem : m ∈ messages proc port := hl ▸ List.mem_cons_self
      rw [he (h.data m hmem), ok_bind]
      refine (ih (b := { b with lastPortMessage := -1 }) (h.consumed hl) (Function.update_self ..)
        (.inl ?_) ?_).trans (congrArg Except.ok (emptied_consumed hr hl _))
      · rw [portFlags, if_pos hr, block_dropped hr]
        rwa [portFlags, if_pos hr] at hflag
      · rw [messages_dropped hr]
        rw [hl, List.length_cons] at hlt
        omega

/-- Of a masked port nothing is dropped. -/
theorem dropMessages_masked {rounds : ℕ} {u : Process} (hr : InRange port)
    (hq : (proc.block port).messageQ = some (messages proc port)) (ht : proc.threads t = some b)
    (hm : portFlags proc port IPC_MASKED ≠ 0) (h : dropAll dropMessage rounds proc t port = .ok u) :
    u = proc.setThread t { b with lastPortMessage := -1 } := by
  cases rounds with
  | zero => cases h
  | succ rounds =>
    rw [dropAll_succ _ ht] at h
    obtain ⟨-, he⟩ | ⟨m, rest, hflag, -⟩ := dropMessage_hinted (t := t) (b := b) hr hq
    · rw [he, ok_bind] at h
      cases h
      rfl
    · exact absurd hflag hm

/-- The loop leaves the other ports alone. -/
theorem dropMessages_other {rounds : ℕ} {u : Process} (h : Queued proc port)
    (ht : proc.threads t = some b) (hok : dropAll dropMessage rounds proc t port = .ok u) {q : ℤ}
    (hq : InRange q) (hne : q ≠ port) : u.block q = proc.block q := by
  by_cases hm : portFlags proc port IPC_MASKED = 0
  · have hlt : (messages proc port).length < rounds + ((messages proc port).length + 1) := by omega
    have he := (dropAll_mono hok).symm.trans (dropMessages_eq h ht (.inl hm) hlt)
    cases he
    exact (block_setBlock proc h.isOpen.1 hq _).trans (if_neg hne)
  · rw [dropMessages_masked h.isOpen.1 h.messageQ ht hm hok]
    rfl

end Messages

section Release
variable {proc : Process} {tr t : ℕ} {a b : Thread} {port : ℤ}

/-- The state after pulses of a port were dropped, of which `ps` are left. -/
def pulsesDropped (proc : Process) (t : ℕ) (b : Thread) (port : ℤ) (ps : List Pulse) : Process :=
  stripped (delivered proc port ps) t b port

/-- The loop over `drop_pulse` where it ends without harm: at most pulses of the port are gone. -/
theorem dropPulses_eq (h : Queued proc port) (ht : proc.threads t = some b)
    (hend : PulsesEnd proc b port) : ∃ ps, ∀ rounds, dropAll dropPulse (rounds + 2) proc t port =
      .ok (pulsesDropped proc t b port ps) := by
  have hkeep : delivered proc port (pulses proc port) = proc := by
    rw [delivered, ← h.pulseQ]
    simp [Process.setBlock, Process.block]
  by_cases hf : dropFrom proc b = none
  · refine ⟨pulses proc port, fun rounds => ?_⟩
    obtain ⟨-, he⟩ | ⟨p, hf', -⟩ | ⟨p, -, -, hf', -⟩ := dropPulses_succ ht (rounds + 1) port
    · rw [he, pulsesDropped, hkeep]
    · rw [hf] at hf'
      cases hf'
    · rw [hf] at hf'
      cases hf'
  · have hcase : b.ports 0 = -1 ∧ b.lastPortPulse = port ∧ pulses proc port ≠ [] := by
      rcases hend with ⟨hr, hm⟩ | ⟨h0, hr | hp⟩
      · exact absurd (by rw [dropFrom, if_pos hr, if_pos hm]) hf
      · exact absurd (by rw [dropFrom, if_neg hr, head_owned, if_pos h0]) hf
      · exact ⟨h0, hp⟩
    obtain ⟨h0, hhint, hne⟩ := hcase
    obtain ⟨x, rest, hx⟩ := List.exists_cons_of_ne_nil hne
    refine ⟨rest, fun rounds => ?_⟩
    obtain ⟨hf', -⟩ | ⟨p, hp, hnil, -⟩ | ⟨p, y, rest', hp, hy, he⟩ :=
      dropPulses_succ ht (rounds + 1) port
    · exact absurd hf' hf
    all_goals
      have hpp : p = port := by
        rw [dropFrom, if_pos (hhint ▸ h.isOpen.1)] at hp
        split_ifs at hp
        exact (Option.some.inj hp).symm.trans hhint
      subst hpp
    · exact absurd hnil hne
    · rw [hx] at hy
      cases hy
      rw [he]
      have hnone : dropFrom (delivered (stripped proc t b p) p rest)
          { b with lastPortPulse := -1, lastPortMessage := p } = none := by
        rw [dropFrom, if_neg not_inRange_neg, head_owned, if_pos h0]
      have ht' : (delivered (stripped proc t b p) p rest).threads t =
        some { b with lastPortPulse := -1, lastPortMessage := p } := threads_stripped proc t b p
      obtain ⟨-, he'⟩ | ⟨q, hf', -⟩ | ⟨q, -, -, hf', -⟩ := dropPulses_succ ht' rounds p
      · rw [he']
        simp only [pulsesDropped, stripped, delivered, Process.setThread, Process.setBlock,
          Process.block, Function.update_idem]
      · rw [hnone] at hf'
        cases hf'
      · rw [hnone] at hf'
        cases hf'

theorem Queued.pulsesDropped (h : Queued proc port) (ps : List Pulse) :
    Queued (pulsesDropped proc t b port ps) port ∧
      messages (pulsesDropped proc t b port ps) port = messages proc port ∧
      portFlags (pulsesDropped proc t b port ps) port IPC_MASKED =
        portFlags proc port IPC_MASKED := by
  have hr := h.isOpen.1
  have hb : (Ipc.pulsesDropped proc t b port ps).block port =
      { proc.block port with pulseQ := some ps } := (block_setBlock proc hr hr _).trans (if_pos rfl)
  have hms : messages (Ipc.pulsesDropped proc t b port ps) port = messages proc port := by
    rw [messages, held, hb]
    rfl
  have hps : pulses (Ipc.pulsesDropped proc t b port ps) port = ps := by
    rw [pulses, held, hb]
    rfl
  refine ⟨⟨⟨hr, by rw [hb]; exact h.isOpen.2⟩, by rw [hb, hps], ?_, ?_, ?_⟩, hms, ?_⟩
  · rw [hb, hms]
    exact h.messageQ
  · rw [hms]
    exact h.data
  · rw [hms]
    exact h.nodup
  · rw [portFlags, portFlags, if_pos hr, if_pos hr, hb]

theorem Queued.nonempty (h : Queued proc port) :
    (proc.block port).pulseQ ≠ none ∧ (proc.block port).messageQ ≠ none := by
  rw [h.pulseQ, h.messageQ]
  exact ⟨Option.some_ne_none _, Option.some_ne_none _⟩

theorem nonempty_emptied (h : Queued proc port) :
    ((emptied proc t b port).block port).pulseQ ≠ none ∧
      ((emptied proc t b port).block port).messageQ ≠ none := by
  have hb : (emptied proc t b port).block port = { proc.block port with messageQ := some [] } :=
    (block_setBlock proc h.isOpen.1 h.isOpen.1 _).trans (if_pos rfl)
  rw [hb]
  exact ⟨h.nonempty.1, Option.some_ne_none _⟩

theorem emptied_released (h : Queued proc port) (ps : List Pulse) :
    ((emptied (pulsesDropped proc t b port ps) t
      { b with lastPortPulse := -1, lastPortMessage := port } port).setBlock port
        ⟨-1, 0, none, none⟩).setThread t { b with
          lastPortPulse := -1, lastPortMessage := -1,
          ports := shiftOut port 0 MAX_PORTS false b.ports } = released proc port t b := by
  rw [emptied, (h.pulsesDropped ps).2.1]
  simp only [released, drain, pulsesDropped, stripped, delivered, Process.setThread,
    Process.setBlock, Function.update_idem, freeAll]
  rfl

/-- Where both loops end without harm, draining is what the model of the port table takes it for. -/
theorem releasePortDraining_eq (h : Queued proc port) (ha : proc.threads tr = some a)
    {target : Option ℕ} (ht : proc.target tr a (proc.block port).tid = .ok target)
    (hd : ∀ t b, target = some t → proc.threads t = some b →
      (portFlags proc port IPC_MASKED = 0 ∨ messages proc port = []) ∧ PulsesEnd proc b port) :
    releasePortDraining ((messages proc port).length + 2) proc tr port =
      releasePort proc tr port := by
  have hr := h.isOpen.1
  have hopen := h.isOpen.2
  cases target with
  | none =>
    rw [releasePort_no_target ha hr hopen h.nonempty ht, releasePortDraining, ha, deref_some,
      ok_bind, if_neg (not_not.mpr hr), if_neg hopen, ht]
    simp only [closePort_eq h.nonempty, ok_bind]
  | some t =>
    obtain ⟨b, hb⟩ := target_some ha ht
    obtain ⟨hm, hend⟩ := hd t b rfl hb
    obtain ⟨ps, hps⟩ := dropPulses_eq h hb hend
    obtain ⟨hq, hms, hflag⟩ := h.pulsesDropped (t := t) (b := b) ps
    have hlt : (messages (pulsesDropped proc t b port ps) port).length <
        (messages proc port).length + 2 := by
      rw [hms]
      omega
    have hdrop := dropMessages_eq hq (Function.update_self ..) (hflag ▸ hms ▸ hm) hlt
    rw [releasePort_target ha hr hopen h.nonempty ht hb, releasePortDraining, ha, deref_some,
      ok_bind, if_neg (not_not.mpr hr), if_neg hopen, ht]
    have hthread : ((emptied (pulsesDropped proc t b port ps) t
        { b with lastPortPulse := -1, lastPortMessage := port } port).setBlock port
          ⟨-1, 0, none, none⟩).threads t =
        some { b with lastPortPulse := -1, lastPortMessage := -1 } := Function.update_self ..
    simp only [hps, ok_bind, hdrop, closePort_eq (nonempty_emptied hq), hthread, deref_some]
    rw [← emptied_released (t := t) (b := b) h ps]

theorem Drained.of_closed {proc' : Process} (h : Queued proc port)
    (hfreed : proc'.heap.freed = proc.heap.freed ++ (messages proc port).map Message.data)
    (hblock : ∀ q, InRange q →
      proc'.block q = if q = port then ⟨-1, 0, none, none⟩ else proc.block q) :
    Drained proc proc' port := by
  have hr := h.isOpen.1
  have hclosed := (hblock port hr).trans (if_pos rfl)
  refine ⟨hfreed, hclosed, fun q hq hne => (hblock q hq).trans (if_neg hne), ?_⟩
  intro tr a tid target b ha ht hb
  exact createPort_closed hr (congrArg IpcBlock.tid hclosed) ha ht hb

/-- What `release_port` does when it returns 0 and there is an owner. -/
theorem releasePortDraining_ok {rounds : ℕ} {proc' : Process} (h : Queued proc port)
    (ha : proc.threads tr = some a) (ht : proc.target tr a (proc.block port).tid = .ok (some t))
    (hok : releasePortDraining rounds proc tr port = .ok (proc', 0)) :
    ∃ u₁ u₂, dropAll dropPulse rounds proc t port = .ok u₁ ∧
      dropAll dropMessage rounds u₁ t port = .ok u₂ ∧ proc'.heap = u₂.heap ∧
      ∀ q, InRange q → q ≠ port → proc'.block q = u₂.block q := by
  rw [releasePortDraining, ha, deref_some, ok_bind, if_neg (not_not.mpr h.isOpen.1),
    if_neg h.isOpen.2, ht, ok_bind] at hok
  obtain ⟨u₁, h₁, hok⟩ := bind_eq_ok.mp hok
  obtain ⟨u₂, h₂, hok⟩ := bind_eq_ok.mp hok
  obtain ⟨u₃, h₃, hok⟩ := bind_eq_ok.mp hok
  obtain ⟨b, -, hok⟩ := bind_eq_ok.mp hok
  obtain ⟨-, -, h₃⟩ := bind_eq_ok.mp h₃
  obtain ⟨-, -, h₃⟩ := bind_eq_ok.mp h₃
  cases h₃
  cases hok
  exact ⟨u₁, u₂, h₁, h₂, rfl, fun q hq hne =>
    (block_setBlock u₂ h.isOpen.1 hq _).trans (if_neg hne)⟩

theorem Queued.of_block {u : Process} (h : Queued proc port) (hb : u.block port = proc.block port)
    (hheap : u.heap = proc.heap) : Queued u port := by
  have hms : messages u port = messages proc port := by rw [messages, held, hb]; rfl
  have hps : pulses u port = pulses proc port := by rw [pulses, held, hb]; rfl
  refine ⟨⟨h.isOpen.1, hb ▸ h.isOpen.2⟩, ?_, ?_, ?_, hms ▸ h.nodup⟩
  · rw [hb, hps]
    exact h.pulseQ
  · rw [hb, hms]
    exact h.messageQ
  · rw [hms, hheap]
    exact h.data

/-- If the port is drained, the loop over `drop_pulse` took no pulse of another port. -/
theorem pulsesEnd_of_drained {rounds : ℕ} {proc' u₁ u₂ : Process} (h : Queued proc port)
    (hb : proc.threads t = some b) (h₁ : dropAll dropPulse rounds proc t port = .ok u₁)
    (h₂ : dropAll dropMessage rounds u₁ t port = .ok u₂)
    (hother : ∀ q, InRange q → q ≠ port → proc'.block q = u₂.block q)
    (hdr : Drained proc proc' port) : PulsesEnd proc b port := by
  obtain ⟨hf, -⟩ | ⟨x, rest, -, hhint, h0, hx, rfl⟩ := dropPulses_ok hb h₁
  · unfold dropFrom at hf
    split_ifs at hf with hr hm
    · exact .inl ⟨hr, hm⟩
    · rw [head_owned] at hf
      split_ifs at hf with h0
      exact .inr ⟨h0, .inl hr⟩
  · refine .inr ⟨h0, .inr ?_⟩
    by_cases hp : b.lastPortPulse = port
    · exact ⟨hp, hp ▸ hx ▸ List.cons_ne_nil x rest⟩
    · have hq : Queued (delivered (stripped proc t b port) b.lastPortPulse rest) port :=
        h.of_block ((block_setBlock (stripped proc t b port) hhint h.isOpen.1 _).trans
          (if_neg (Ne.symm hp))) rfl
      have hrest : pulses proc b.lastPortPulse = rest := by
        rw [pulses, held, ← hdr.others _ hhint hp, hother _ hhint hp,
          dropMessages_other hq (threads_stripped proc t b port) h₂ hhint hp]
        exact (@pulses_setBlock (stripped proc t b port) _ _ hhint hhint _ rest).trans (if_pos rfl)
      rw [hx] at hrest
      exact absurd hrest (List.cons_ne_self x rest)

/-- If the port is drained, it was not masked or had no messages. -/
theorem unmasked_of_drained {rounds : ℕ} {proc' u₁ u₂ : Process} (h : Queued proc port)
    (hb : proc.threads t = some b) (h₁ : dropAll dropPulse rounds proc t port = .ok u₁)
    (h₂ : dropAll dropMessage rounds u₁ t port = .ok u₂) (hheap : proc'.heap = u₂.heap)
    (hdr : Drained proc proc' port) :
    portFlags proc port IPC_MASKED = 0 ∨ messages proc port = [] := by
  have hr := h.isOpen.1
  refine or_iff_not_imp_left.mpr fun hm => ?_
  have hsame : (u₁.block port).messageQ = some (messages u₁ port) ∧
      portFlags u₁ port IPC_MASKED = portFlags proc port IPC_MASKED ∧ u₁.heap = proc.heap ∧
      u₁.threads t = some { b with lastPortPulse := -1, lastPortMessage := port } := by
    obtain ⟨-, rfl⟩ | ⟨x, rest, -, hhint, -, -, rfl⟩ := dropPulses_ok hb h₁
    · exact ⟨h.messageQ, rfl, rfl, threads_stripped proc t b port⟩
    · by_cases hp : b.lastPortPulse = port
      · rw [hp]
        obtain ⟨hq, -, hflag⟩ := h.pulsesDropped (t := t) (b := b) rest
        exact ⟨hq.messageQ, hflag, rfl, threads_stripped proc t b port⟩
      · have hblock : (delivered (stripped proc t b port) b.lastPortPulse rest).block port =
            proc.block port := (block_setBlock (stripped proc t b port) hhint hr _).trans
          (if_neg (Ne.symm hp))
        refine ⟨(h.of_block hblock rfl).messageQ, ?_, rfl, threads_stripped proc t b port⟩
        rw [portFlags, portFlags, hblock]
  obtain ⟨hq, hflag, hheap₁, hthread⟩ := hsame
  rw [dropMessages_masked hr hq hthread (hflag ▸ hm) h₂] at hheap
  have hfreed := hdr.freed
  rw [hheap] at hfreed
  exact List.map_eq_nil_iff.mp (List.append_right_eq_self.mp (hfreed.symm.trans
    (congrArg Heap.freed hheap₁)))

/-- `release_port` drains an open port exactly under `Drains`. -/
theorem release_port_drains (h : Queued proc port) (ha : proc.threads tr = some a) :
    (∃ rounds proc', releasePortDraining rounds proc tr port = .ok (proc', 0) ∧
      Drained proc proc' port) ↔ Drains proc tr a port := by
  have hr := h.isOpen.1
  have hopen := h.isOpen.2
  unfold Drains
  rcases ht : proc.target tr a (proc.block port).tid with e | _ | t
  · dsimp only
    refine iff_of_false ?_ id
    rintro ⟨rounds, proc', hok, -⟩
    rw [releasePortDraining, ha, deref_some, ok_bind, if_neg (not_not.mpr hr), if_neg hopen, ht]
      at hok
    cases hok
  · dsimp only
    constructor
    · rintro ⟨rounds, proc', hok, hdr⟩
      rw [releasePortDraining, ha, deref_some, ok_bind, if_neg (not_not.mpr hr), if_neg hopen, ht]
        at hok
      simp only [closePort_eq h.nonempty, ok_bind] at hok
      cases hok
      exact List.map_eq_nil_iff.mp (List.append_right_eq_self.mp hdr.freed.symm)
    · intro hnil
      refine ⟨_, _, (releasePortDraining_eq h ha ht nofun).trans
        (releasePort_no_target ha hr hopen h.nonempty ht), .of_closed h ?_ fun q hq =>
          block_setBlock proc hr hq _⟩
      rw [hnil]
      exact (List.append_nil _).symm
  · dsimp only
    obtain ⟨b, hb⟩ := target_some ha ht
    have hthe : ∀ c, proc.threads t = some c → c = b := fun c hc =>
      Option.some.inj (hc.symm.trans hb)
    constructor
    · rintro ⟨rounds, proc', hok, hdr⟩
      obtain ⟨u₁, u₂, h₁, h₂, hheap, hother⟩ := releasePortDraining_ok h ha ht hok
      refine ⟨unmasked_of_drained h hb h₁ h₂ hheap hdr, fun c hc => ?_⟩
      rw [hthe c hc]
      exact pulsesEnd_of_drained h hb h₁ h₂ hother hdr
    · rintro ⟨hm, hend⟩
      refine ⟨_, _, (releasePortDraining_eq h ha ht fun t' c ht' hc => ?_).trans
        (releasePort_target ha hr hopen h.nonempty ht hb), .of_closed h rfl fun q hq =>
          block_released hr hq t b⟩
      obtain rfl : t = t' := Option.some.inj ht'
      exact ⟨hm, hend c hc⟩

end Release

/-- The owner of a port that has the given hint. -/
def portOwner (hint : ℤ) : Thread :=
  { receiver with ports := fun i => if i = 0 then 0 else -1, lastPortPulse := hint }

/-- A port with a pulse and a message. -/
def onePort (hint : ℤ) : Process where
  ipc p := if p = 0 then ⟨1, 0, some [hello], some [⟨7, 3, 0, 1, 9⟩]⟩ else ⟨-1, 0, none, none⟩
  threads t := if t = 1 then some (portOwner hint) else none
  threadsHtable := oneThread
  heap := ⟨fun x => if x = 9 then some [0] else none, []⟩

theorem queued_onePort (hint : ℤ) : Queued (onePort hint) 0 where
  isOpen := ⟨by decide, by change (1 : ℤ) ≠ -1; decide⟩
  pulseQ := rfl
  messageQ := rfl
  data m hm := by
    obtain rfl : m = ⟨7, 3, 0, 1, 9⟩ := List.mem_singleton.mp hm
    exact Option.some_ne_none _
  nodup := List.nodup_singleton _

/-- With a hint at a port that is closed. -/
theorem release_port_drains_onePort : ∃ rounds proc',
    releasePortDraining rounds (onePort 5) 1 0 = .ok (proc', 0) ∧ Drained (onePort 5) proc' 0 := by
  refine (release_port_drains (queued_onePort 5) (a := portOwner 5) rfl).mpr
    ⟨.inl rfl, fun b hb => .inl ?_⟩
  obtain rfl : portOwner 5 = b := Option.some.inj hb
  exact ⟨by change InRange 5; decide, by change (-1 : ℤ) ≠ 0; decide⟩

/-- Without a hint the owner cannot release its port: the kernel halts once the pulses are gone. -/
theorem release_port_halts : Queued (onePort (-1)) 0 ∧ ∀ rounds proc',
    releasePortDraining rounds (onePort (-1)) 1 0 ≠ .ok (proc', 0) := by
  refine ⟨queued_onePort (-1), fun rounds proc' hok => ?_⟩
  obtain ⟨u₁, u₂, h₁, -⟩ := releasePortDraining_ok (a := portOwner (-1)) (t := 1)
    (queued_onePort (-1)) rfl rfl hok
  exact dropPulses_stuck (b := portOwner (-1)) rfl not_inRange_neg
    (by change (0 : ℤ) ≠ -1; decide) h₁

end Racoon.Ipc
