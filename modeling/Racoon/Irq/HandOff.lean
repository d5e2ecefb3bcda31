import Racoon.Irq.Rings

/-!
# Handing an interrupt on

A firing of a line queues the handler that accepted last, and a handler that
declines queues the next one. `irq_complete` does so in steps, between which the
line may fire again: it checks whose turn it is, counts the acceptance or the
refusal, compares `index` with `count`, queues the next handler, and takes its own
entry out of the ring. As `index` and `last` belong to the line and not to a firing,
every firing is settled as it should be only where none comes while another one has
been declined and is still on its way, and where no handler declines one firing while
another one waits for it.
-/

namespace Racoon.Irq
open Lib

/-- A firing that is offered: who declined it, and the handler that is queued for it. -/
structure Job where
  firing : ℕ
  declined : List ℕ
  handler : ℕ

/-- How far an `irq_complete` has come: `pos` is its local variable, and `interrupts` the flag
after `fast_queue`. -/
inductive Stage
  | checked (pos : ℤ)
  | declined (pos : ℤ)
  | asking (pos : ℤ)
  | answered (interrupts : Bool)

/-- An `irq_complete` that holds the lock of the line. -/
structure Completion where
  cpuid : ℤ
  tr : ℕ
  status : ℤ
  job : Job
  stage : Stage

/-- The kernel, and what became of the firings of a line so far. The jobs are in the order in which
they were queued. -/
structure Session where
  k : Kernel
  busy : Option Completion
  jobs : List Job
  fired : ℕ
  accepted : List (ℕ × ℕ)
  refused : List (ℕ × List ℕ)
  lies : Bool

inductive Event
  | fire
  | complete (cpuid status : ℤ)
  | proceed

/-- The ring of a CPU has room for one more. -/
def HasRoom (k : Kernel) (c : ℤ) : Prop :=
  ((k.sched c).fastStop + 1) % MAX_FAST ≠ (k.sched c).fastStart

/-- A handler at a place of the array. -/
def handlerAt (h : IrqHook) (pos : ℤ) : Option ℕ := (h.stubs.map IrqStub.tr)[pos.toNat]?

namespace Session

/-- `irq_handler`. Without handlers there is nobody to decline. -/
def fire (irq : ℤ) (s : Session) : Outcome Session := do
  let k ← irqHandler s.k irq
  let h := s.k.handlers irq
  if h.count ≤ 0 then
    .ok { s with k := k, fired := s.fired + 1, refused := s.refused ++ [(s.fired, [])] }
  else if irq = 0 then .ok { s with k := k, fired := s.fired + 1 }
  else do
    let stub ← stubAt h.stubs h.last
    .ok { s with k := k, fired := s.fired + 1, jobs := s.jobs ++ [⟨s.fired, [], stub.tr⟩] }

/-- The job is for a thread of the CPU. -/
def isOn (k : Kernel) (cpuid : ℤ) (j : Job) : Bool := (k.thread j.handler).cpuAffinity = cpuid

/-- The handler at the start of the ring calls `irq_complete`, up to the check. -/
def complete (s : Session) (cpuid status : ℤ) : Outcome Session := do
  let si := s.k.sched cpuid
  let t := si.fastQueue si.fastStart
  let job ← deref (s.jobs.find? (isOn s.k cpuid))
  let irq := (s.k.thread t).irq
  if ¬ InRange irq then .ok { s with lies := true } else do
    match ← entitled s.k t irq with
    | none => .ok { s with lies := true }
    | some pos => .ok { s with
        busy := some ⟨cpuid, t, status, job, .checked pos⟩
        jobs := s.jobs.eraseP (isOn s.k cpuid) }

/-- The next step of the `irq_complete` under way. -/
def proceed (s : Session) : Outcome Session := do
  let b ← deref s.busy
  let irq := (s.k.thread b.tr).irq
  match b.stage with
  | .checked pos =>
    if b.status = 0 then
      .ok { s with
        k := acceptIrq s.k irq pos
        accepted := s.accepted ++ [(b.job.firing, b.tr)]
        busy := some { b with stage := .answered true } }
    else
      .ok { s with
        k := declineIrq s.k irq pos
        busy := some { b with
          job := { b.job with declined := b.job.declined ++ [b.tr] }
          stage := .declined pos } }
  | .declined pos =>
    let h := s.k.handlers irq
    if h.index < h.count then .ok { s with busy := some { b with stage := .asking pos } }
    else
      .ok { s with
        refused := s.refused ++ [(b.job.firing, b.job.declined)]
        busy := some { b with stage := .answered true } }
  | .asking pos => do
    let (k, next) ← askNext s.k irq pos
    .ok { s with
      k := k
      jobs := s.jobs ++ [{ b.job with handler := next }]
      busy := some { b with
        stage := .answered (afterUnlock b.cpuid (k.thread next).cpuAffinity true) } }
  | .answered interrupts => do
    assert (interrupts = true)
    let k ← fastDequeue s.k b.cpuid b.tr
    .ok { s with k := k, busy := none }

def Permitted (s : Session) : Event → Prop
  | .fire => True
  | .complete cpuid _ => s.busy = none ∧ (0 ≤ cpuid ∧ cpuid < s.k.cpuCount) ∧
      (s.k.sched cpuid).fastStart ≠ (s.k.sched cpuid).fastStop
  | .proceed => s.busy.isSome = true

def step (irq : ℤ) (s : Session) : Event → Outcome Session
  | .fire => s.fire irq
  | .complete cpuid status => s.complete cpuid status
  | .proceed => s.proceed

/-- No handler waits that is asked because others declined. -/
def Even (irq : ℤ) (s : Session) : Prop :=
  s.jobs = [] ∨ (s.k.handlers irq).index = 0 ∨ (s.k.handlers irq).count = 1

/-- A firing does not disturb the completion under way, if there is one. -/
def Undisturbed (irq : ℤ) (s : Session) : Prop :=
  let h := s.k.handlers irq
  match s.busy with
  | none => s.Even irq
  | some b =>
    match b.stage with
    | .checked _ => h.count = 1 ∨ (b.status = 0 ∧ h.index = 0)
    | .declined _ => False
    | .asking _ => False
    | .answered _ => s.Even irq

/-- The line has no handlers, or its firing meets no completion that it disturbs and finds room.
A handler declines only the one firing that is open, if it has others behind it, and these are of
the same CPU. -/
def Careful (irq : ℤ) (s : Session) : Event → Prop
  | .fire => (s.k.handlers irq).count = 0 ∨ (irq ≠ 0 ∧ s.Undisturbed irq ∧
      ∀ t ∈ handlerAt (s.k.handlers irq) (s.k.handlers irq).last,
        HasRoom s.k (s.k.thread t).cpuAffinity)
  | .complete _ status => status = 0 ∨ (s.k.handlers irq).count = 1 ∨ s.jobs.length = 1
  | .proceed => ∀ b ∈ s.busy, ∀ pos, b.stage = .asking pos →
      ∀ t ∈ handlerAt (s.k.handlers irq) ((pos + 1) % (s.k.handlers irq).count),
        (s.k.thread t).cpuAffinity = b.cpuid

/-- The jobs that have a place in a ring. -/
def entries (s : Session) : List Job := (s.busy.map Completion.job).toList ++ s.jobs

/-- The firings on their way. -/
def underWay (s : Session) : List Job :=
  (match s.busy with
    | none => []
    | some b =>
      match b.stage with
      | .answered _ => []
      | _ => [b.job]) ++ s.jobs

end Session

/-- The line has the handlers `ts`, in this order. -/
structure Handled (k : Kernel) (irq : ℤ) (ts : List ℕ) : Prop where
  inRange : InRange irq
  stubs : (k.handlers irq).stubs.map IrqStub.tr = ts
  count : (k.handlers irq).count = ts.length
  once : ts.Nodup
  last : ts ≠ [] → 0 ≤ (k.handlers irq).last ∧ (k.handlers irq).last < ts.length
  index : 0 ≤ (k.handlers irq).index
  registered : ∀ t ∈ ts, Registered k irq t
  affinity : ∀ t ∈ ts, 0 ≤ (k.thread t).cpuAffinity ∧ (k.thread t).cpuAffinity < k.cpuCount

/-- How many have declined. With a single handler `index` does not matter. -/
def offset (h : IrqHook) : ℕ := if h.count = 1 then 0 else h.index.toNat

/-- The handlers in the order in which they are asked. -/
def order (h : IrqHook) : List ℕ := (h.stubs.map IrqStub.tr).rotate h.last.toNat

/-- Whose turn it is, as a place in the array. -/
def turn (h : IrqHook) : ℤ := (h.index + h.last) % h.count

/-- The jobs wait for the handler whose turn it is, those before it have declined, and more than one
waits only before anybody declined. -/
structure Waiting (h : IrqHook) (js : List Job) : Prop where
  inside : js ≠ [] → (offset h : ℤ) < h.count
  alone : offset h = 0 ∨ js.length ≤ 1
  asked : ∀ j ∈ js, j.declined ++ [j.handler] = (order h).take (offset h + 1)

/-- The handler at `pos` has declined, as the `index` handlers from `last` on. -/
structure Declined (h : IrqHook) (j : Job) (pos : ℤ) : Prop where
  pos : 0 ≤ pos ∧ (pos + 1) % h.count = turn h
  index : 0 < h.index
  declined : j.declined = (order h).take h.index.toNat

theorem turn_mem {h : IrqHook} (hc : 0 < h.count) : 0 ≤ turn h ∧ turn h < h.count :=
  ⟨Int.emod_nonneg _ hc.ne', Int.emod_lt_of_pos _ hc⟩

namespace Handled
variable {k u : Kernel} {irq : ℤ} {ts : List ℕ} {hook : IrqHook}

theorem length_stubs (hk : Handled k irq ts) : (k.handlers irq).count =
    (k.handlers irq).stubs.length := by
  rw [hk.count, ← hk.stubs, List.length_map]

theorem ne_nil (hk : Handled k irq ts) (hc : 0 < (k.handlers irq).count) : ts ≠ [] := by
  rintro rfl
  have := hk.count
  simp at this
  omega

theorem of_onlyRings (hk : Handled k irq ts) (h : OnlyRings k u) : Handled u irq ts := by
  have hh : u.handlers irq = k.handlers irq := congrFun h.handlers irq
  refine ⟨hk.inRange, hh ▸ hk.stubs, hh ▸ hk.count, hk.once, hh ▸ hk.last, hh ▸ hk.index,
    fun t ht => ?_, fun t ht => ?_⟩
  · rw [Registered, h.state, h.irq]
    exact hk.registered t ht
  · rw [h.affinity, h.cpuCount]
    exact hk.affinity t ht

theorem setHook (hk : Handled k irq ts) (hs : hook.stubs.map IrqStub.tr = ts)
    (hc : hook.count = (k.handlers irq).count)
    (hlast : ts ≠ [] → 0 ≤ hook.last ∧ hook.last < ts.length) (hindex : 0 ≤ hook.index) :
    Handled (k.setHook irq hook) irq ts := by
  have hh : (k.setHook irq hook).handlers irq = hook :=
    (Kernel.handlers_setHook ..).trans (if_pos rfl)
  constructor
  · exact hk.inRange
  · rw [hh, hs]
  · rw [hh, hc, hk.count]
  · exact hk.once
  · rw [hh]
    exact hlast
  · rw [hh]
    exact hindex
  · exact hk.registered
  · exact hk.affinity

theorem handlerAt_eq (hk : Handled k irq ts) {pos : ℤ} (h₀ : 0 ≤ pos)
    (h : pos < (k.handlers irq).count) : ∃ stub t, stubAt (k.handlers irq).stubs pos = .ok stub ∧
      stub.tr = t ∧ handlerAt (k.handlers irq) pos = some t ∧ t ∈ ts := by
  obtain ⟨stub, hs, hat⟩ := stubAt_eq h₀ (h.trans_eq hk.length_stubs)
  have hget : handlerAt (k.handlers irq) pos = some stub.tr := by
    rw [handlerAt, List.getElem?_map, hs, Option.map_some]
  refine ⟨stub, stub.tr, hat, rfl, hget, ?_⟩
  rw [handlerAt, hk.stubs] at hget
  exact List.mem_of_getElem? hget

/-- The order starts at `last`, and it is the turn of the handler after those that declined. -/
theorem order_getElem? (hk : Handled k irq ts)
    (ho : (offset (k.handlers irq) : ℤ) < (k.handlers irq).count) :
    (order (k.handlers irq))[offset (k.handlers irq)]? =
      handlerAt (k.handlers irq) (turn (k.handlers irq)) := by
  have hcount := hk.count
  have hindex := hk.index
  have hpos : 0 < (k.handlers irq).count := by omega
  have hlast := hk.last (hk.ne_nil hpos)
  rw [order, handlerAt, hk.stubs, List.getElem?_rotate (by omega)]
  congr 1
  unfold turn
  by_cases hone : (k.handlers irq).count = 1
  · have hlen : ts.length = 1 := by omega
    rw [offset, if_pos hone, hone, hlen]
    omega
  · rw [offset, if_neg hone, hcount]
    have hsum : (k.handlers irq).index + (k.handlers irq).last =
        (((k.handlers irq).index.toNat + (k.handlers irq).last.toNat : ℕ) : ℤ) := by omega
    rw [hsum, ← Int.natCast_mod, Int.toNat_natCast]

theorem length_order (hk : Handled k irq ts) : (order (k.handlers irq)).length = ts.length := by
  rw [order, hk.stubs, List.length_rotate]

/-- Nobody declined: it is the turn of the one that accepted last. -/
theorem turn_of_offset (hk : Handled k irq ts) (hc : 0 < (k.handlers irq).count)
    (ho : offset (k.handlers irq) = 0) : turn (k.handlers irq) = (k.handlers irq).last := by
  have hlast := hk.last (hk.ne_nil hc)
  have hindex := hk.index
  rw [← hk.count] at hlast
  unfold offset at ho
  unfold turn
  split_ifs at ho with hone
  · rw [hone] at hlast ⊢
    omega
  · rw [show (k.handlers irq).index = 0 by omega, zero_add]
    exact Int.emod_eq_of_lt hlast.1 hlast.2

end Handled

theorem Waiting.nil (h : IrqHook) : Waiting h [] :=
    ⟨fun hn => absurd rfl hn, .inr (by simp), by simp⟩

theorem Waiting.perm {h : IrqHook} {js js' : List Job} (hw : Waiting h js) (hp : js'.Perm js) :
    Waiting h js' := by
  refine ⟨fun hn => hw.inside fun hnil => hn ?_, ?_, fun j hj => hw.asked j (hp.mem_iff.mp hj)⟩
  · exact List.Perm.eq_nil (hnil ▸ hp)
  · rw [hp.length_eq]
    exact hw.alone

/-- What decides who is asked. -/
theorem Waiting.congr {h h' : IrqHook} {js : List Job} (hw : Waiting h js)
    (hc : h'.count = h.count) (ho : offset h' = offset h) (hr : order h' = order h) :
    Waiting h' js := by
  refine ⟨?_, ?_, ?_⟩
  · rw [ho, hc]
    exact hw.inside
  · rw [ho]
    exact hw.alone
  · rw [ho, hr]
    exact hw.asked

theorem Waiting.tail {h : IrqHook} {j : Job} {js : List Job} (hw : Waiting h (j :: js)) :
    Waiting h js := by
  refine ⟨fun _ => hw.inside (List.cons_ne_nil _ _), ?_,
    fun x hx => hw.asked x (List.mem_cons_of_mem _ hx)⟩
  exact hw.alone.imp_right fun hle => (Nat.le_succ _).trans hle

/-- Once somebody has declined there is only one job. -/
theorem Waiting.tail_nil {h : IrqHook} {j : Job} {js : List Job} (hw : Waiting h (j :: js))
    (ho : offset h ≠ 0) : js = [] := by
  have hle := hw.alone.resolve_left ho
  exact List.length_eq_zero_iff.mp (Nat.le_zero.mp (Nat.succ_le_succ_iff.mp hle))

namespace Handled
variable {k : Kernel} {irq : ℤ} {ts : List ℕ} {js : List Job} {j : Job} {t : ℕ}

theorem entitled_turn (hk : Handled k irq ts) (hc : 0 < (k.handlers irq).count)
    (ht : handlerAt (k.handlers irq) (turn (k.handlers irq)) = some t) :
    entitled k t irq = .ok (some (turn (k.handlers irq))) := by
  obtain ⟨h₀, hlt⟩ := turn_mem hc
  obtain ⟨stub, t', hat, htr, hget, -⟩ := hk.handlerAt_eq h₀ hlt
  rw [ht] at hget
  cases hget
  have hlast := hk.last (hk.ne_nil hc)
  have hindex := hk.index
  rw [entitled, (cmod_eq (by omega) hc).1, ok_bind]
  change (do let s ← stubAt _ (turn (k.handlers irq)); _) = _
  rw [hat, ok_bind, if_pos htr]
  rfl

theorem take_turn (hk : Handled k irq ts)
    (ho : (offset (k.handlers irq) : ℤ) < (k.handlers irq).count)
    (ht : handlerAt (k.handlers irq) (turn (k.handlers irq)) = some t) :
    (order (k.handlers irq)).take (offset (k.handlers irq)) ++ [t] =
      (order (k.handlers irq)).take (offset (k.handlers irq) + 1) := by
  rw [List.take_add_one, hk.order_getElem? ho, ht]
  rfl

/-- A job that waits is for the handler whose turn it is. -/
theorem turn_of_waiting (hk : Handled k irq ts) (hw : Waiting (k.handlers irq) js) (hj : j ∈ js) :
    j.declined = (order (k.handlers irq)).take (offset (k.handlers irq)) ∧
      handlerAt (k.handlers irq) (turn (k.handlers irq)) = some j.handler ∧ j.handler ∈ ts := by
  have ho := hw.inside (List.ne_nil_of_mem hj)
  obtain ⟨h₀, hlt⟩ := turn_mem (h := k.handlers irq) (by omega)
  obtain ⟨-, t, -, -, hget, hmem⟩ := hk.handlerAt_eq h₀ hlt
  have hasked := hw.asked j hj
  rw [← hk.take_turn ho hget] at hasked
  obtain ⟨hd, ht⟩ := List.append_inj' hasked rfl
  cases ht
  exact ⟨hd, hget, hmem⟩

/-- One more job for the handler whose turn it is. -/
theorem waiting_queue (hk : Handled k irq ts) (hw : Waiting (k.handlers irq) js)
    (ho : (offset (k.handlers irq) : ℤ) < (k.handlers irq).count)
    (hfew : js = [] ∨ offset (k.handlers irq) = 0)
    (ht : handlerAt (k.handlers irq) (turn (k.handlers irq)) = some t) (firing : ℕ) :
    Waiting (k.handlers irq) (js ++
      [⟨firing, (order (k.handlers irq)).take (offset (k.handlers irq)), t⟩]) := by
  refine ⟨fun _ => ho, ?_, fun j hj => ?_⟩
  · rcases hfew with rfl | hzero
    · exact .inr (by simp)
    · exact .inl hzero
  · rcases List.mem_append.mp hj with hj | hj
    · exact hw.asked j hj
    · obtain rfl := List.mem_singleton.mp hj
      exact hk.take_turn ho ht

end Handled

/-- Where an `irq_complete` for a job stands, with the jobs that wait. -/
def Stage.Fits (h : IrqHook) (status : ℤ) (job : Job) (js : List Job) : Stage → Prop
  | .checked pos => pos = turn h ∧ Waiting h (job :: js) ∧
      (status = 0 ∨ h.count = 1 ∨ js = [])
  | .declined pos => Declined h job pos ∧ Waiting h js ∧ (h.count = 1 ∨ js = [])
  | .asking pos => Declined h job pos ∧ h.index < h.count ∧ js = []
  | .answered interrupts => interrupts = true ∧ Waiting h js

/-- The handler that completes is the one at the start of the ring of its CPU. -/
structure Completion.Runs (b : Completion) (k : Kernel) (ts : List ℕ) : Prop where
  mem : b.tr ∈ ts
  handler : b.job.handler = b.tr
  affinity : (k.thread b.tr).cpuAffinity = b.cpuid

namespace Session

/-- What became of the firings. -/
structure Logged (ts : List ℕ) (s : Session) : Prop where
  honest : s.lies = false
  accepted : ∀ a ∈ s.accepted, a.2 ∈ ts
  refused : ∀ r ∈ s.refused, r.2.Perm ts
  accounted : (s.accepted.map Prod.fst ++ s.refused.map Prod.fst ++
    s.underWay.map Job.firing).Perm (List.range s.fired)

structure Sound (irq : ℤ) (ts : List ℕ) (s : Session) : Prop where
  handled : Handled s.k irq ts
  rings : Rings s.k (s.entries.map Job.handler)
  idle : s.busy = none → Waiting (s.k.handlers irq) s.jobs
  runs : ∀ b ∈ s.busy, b.Runs s.k ts ∧ b.stage.Fits (s.k.handlers irq) b.status b.job s.jobs
  logged : s.Logged ts

variable {irq : ℤ} {ts : List ℕ} {s : Session}

theorem accounted_cons {a r u : List ℕ} {n : ℕ} (h : (a ++ r ++ u).Perm (List.range n)) :
    (a ++ (r ++ [n]) ++ u).Perm (List.range (n + 1)) ∧
      (a ++ r ++ (u ++ [n])).Perm (List.range (n + 1)) := by
  rw [List.range_succ]
  constructor
  · refine .trans ?_ (h.append_right [n])
    rw [List.append_assoc a, List.append_assoc r, List.append_assoc (a ++ r), List.append_assoc a]
    have hlast : ([n] ++ u).Perm (u ++ [n]) := List.perm_append_comm
    exact (hlast.append_left r).append_left a
  · rw [← List.append_assoc]
    exact h.append_right [n]

theorem accounted_settled {a r u : List ℕ} {f n : ℕ} (h : (a ++ r ++ f :: u).Perm (List.range n)) :
    (a ++ [f] ++ r ++ u).Perm (List.range n) ∧ (a ++ (r ++ [f]) ++ u).Perm (List.range n) := by
  constructor
  · refine .trans ?_ h
    rw [List.append_assoc a, List.append_assoc a, List.append_assoc a]
    have hfirst : (f :: (r ++ u)).Perm (r ++ f :: u) := List.perm_middle.symm
    exact hfirst.append_left a
  · simpa only [List.append_assoc, List.singleton_append] using h

/-- A line without handlers counts its firing as declined by all. -/
theorem Sound.fire_empty (h : Sound irq ts s) (hc : (s.k.handlers irq).count = 0) :
    ∃ s', s.fire irq = .ok s' ∧ Sound irq ts s' := by
  obtain ⟨k, busy, jobs, fired, accepted, refused, lies⟩ := s
  have hnil : ts = [] := List.length_eq_zero_iff.mp (by have := h.handled.count; omega)
  subst hnil
  cases busy with
  | some b => exact absurd (h.runs b rfl).1.mem (List.not_mem_nil)
  | none =>
    have hjobs : jobs = [] := by
      by_contra hne
      have := (h.idle rfl).inside hne
      dsimp only at this hc
      omega
    subst hjobs
    have hfires : ∃ u, irqHandler k irq = .ok u ∧ Handled u irq [] ∧ Rings u [] := by
      rw [irqHandler]
      by_cases h0 : irq = 0
      · exact ⟨k, if_pos h0, h.handled, h.rings⟩
      · rw [if_neg h0]
        dsimp only
        rw [if_pos (by dsimp only at hc; omega)]
        exact ⟨_, rfl, h.handled.setHook h.handled.stubs rfl (fun hn => absurd rfl hn) le_rfl,
          h.rings.setHook _ _⟩
    obtain ⟨u, hu, hhandled, hrings⟩ := hfires
    refine ⟨⟨u, none, [], fired + 1, accepted, refused ++ [(fired, [])], lies⟩, ?_, hhandled,
      hrings, fun _ => .nil _, by simp, h.logged.honest, h.logged.accepted, fun r hr => ?_, ?_⟩
    · rw [fire]
      dsimp only
      rw [hu, ok_bind, if_pos (by dsimp only at hc; omega)]
    · rcases List.mem_append.mp hr with hr | hr
      · exact h.logged.refused r hr
      · obtain rfl := List.mem_singleton.mp hr
        exact .nil
    · simpa [underWay] using (accounted_cons h.logged.accounted).1

theorem irqHandler_eq {k : Kernel} {stub : IrqStub} (h0 : irq ≠ 0)
    (hc : 0 < (k.handlers irq).count)
    (hat : stubAt (k.handlers irq).stubs (k.handlers irq).last = .ok stub) :
    irqHandler k irq = fastQueue (k.setHook irq
      { k.handlers irq with raised := (k.handlers irq).raised + 1, index := 0 }) stub.tr := by
  rw [irqHandler, if_neg h0]
  dsimp only
  rw [if_neg hc.not_ge, assert_of hc, ok_bind, hat, ok_bind]

theorem underWay_queue (s : Session) (k : Kernel) (n : ℕ) (j : Job) :
    { s with k := k, fired := n, jobs := s.jobs ++ [j] }.underWay = s.underWay ++ [j] := by
  simp [underWay, List.append_assoc]

theorem entries_queue (s : Session) (k : Kernel) (n : ℕ) (j : Job) :
    { s with k := k, fired := n, jobs := s.jobs ++ [j] }.entries = s.entries ++ [j] := by
  simp [entries, List.append_assoc]

/-- The firing of a line queues its job behind the others and starts the counting anew. -/
theorem Sound.fire_queue (h : Sound irq ts s) (hc : 0 < (s.k.handlers irq).count) (h0 : irq ≠ 0)
    (hun : s.Undisturbed irq)
    (hroom : ∀ t ∈ handlerAt (s.k.handlers irq) (s.k.handlers irq).last,
      HasRoom s.k (s.k.thread t).cpuAffinity) :
    ∃ s', s.fire irq = .ok s' ∧ Sound irq ts s' := by
  have hlast := h.handled.last (h.handled.ne_nil hc)
  rw [← h.handled.count] at hlast
  obtain ⟨stub, t, hat, htr, hget, hmem⟩ := h.handled.handlerAt_eq hlast.1 hlast.2
  set hook : IrqHook :=
    { s.k.handlers irq with raised := (s.k.handlers irq).raised + 1, index := 0 } with hhook
  have hk : Handled (s.k.setHook irq hook) irq ts :=
    h.handled.setHook h.handled.stubs rfl h.handled.last le_rfl
  obtain ⟨u, hu, hrings, honly⟩ := (h.rings.setHook irq hook).fastQueue
    (h.handled.affinity t hmem) ((h.rings.room_iff _).mp (hroom t hget))
  have hset : (s.k.setHook irq hook).handlers irq = hook :=
    (Kernel.handlers_setHook ..).trans (if_pos rfl)
  have hhooku : u.handlers irq = hook := (congrFun honly.handlers irq).trans hset
  have hzero : offset hook = 0 := by simp [offset, hhook]
  have hturn : turn hook = hook.last := by
    have := hk.turn_of_offset (by rw [hset]; exact hc) (by rw [hset]; exact hzero)
    rwa [hset] at this
  -- what waits, waits for the handler that is queued
  have hwait : ∀ js, Waiting (s.k.handlers irq) js →
      (js = [] ∨ offset (s.k.handlers irq) = 0) → Waiting hook (js ++ [⟨s.fired, [], t⟩]) := by
    intro js hw hfew
    have hw' : Waiting hook js := by
      rcases hfew with rfl | ho
      · exact .nil _
      · exact hw.congr rfl (hzero.trans ho.symm) rfl
    have hq := hk.waiting_queue (t := t) (hset ▸ hw') (by rw [hset, hzero]; exact hc)
      (.inr (by rw [hset]; exact hzero)) (by rw [hset, hturn]; exact hget) s.fired
    rw [hset, hzero] at hq
    exact hq
  have heven : s.Even irq → s.jobs = [] ∨ offset (s.k.handlers irq) = 0 := by
    rintro (hnil | hindex | hone)
    · exact .inl hnil
    · exact .inr (by simp [offset, hindex])
    · exact .inr (if_pos hone)
  refine ⟨{ s with k := u, fired := s.fired + 1, jobs := s.jobs ++ [⟨s.fired, [], t⟩] }, ?_,
    hk.of_onlyRings honly, ?_, fun hbusy => ?_, fun b hb => ?_, h.logged.honest,
    h.logged.accepted, h.logged.refused, ?_⟩
  · rw [fire, irqHandler_eq h0 hc hat, htr, hu, ok_bind]
    dsimp only
    rw [if_neg hc.not_ge, if_neg h0, hat, ok_bind, htr]
  · rw [entries_queue, List.map_append]
    exact hrings
  · dsimp only at hbusy ⊢
    rw [Undisturbed, hbusy] at hun
    rw [hhooku]
    exact hwait _ (h.idle hbusy) (heven hun)
  · obtain ⟨hruns, hfits⟩ := h.runs b hb
    refine ⟨⟨hruns.mem, hruns.handler, (honly.affinity b.tr).trans hruns.affinity⟩, ?_⟩
    dsimp only at hb ⊢
    rw [hhooku]
    rw [Undisturbed, hb] at hun
    dsimp only at hun
    cases hstage : b.stage with
    | checked pos =>
      rw [hstage] at hfits hun
      obtain ⟨hpos, hw, -⟩ := hfits
      have ho : offset (s.k.handlers irq) = 0 := by
        rcases hun with hone | ⟨-, hindex⟩
        · exact if_pos hone
        · simp [offset, hindex]
      refine ⟨?_, hwait _ hw (.inr ho), hun.elim (fun hone => .inr (.inl hone)) fun hs => .inl hs.1⟩
      rw [hpos, h.handled.turn_of_offset hc ho, hturn]
    | declined pos =>
      rw [hstage] at hun
      exact hun.elim
    | asking pos =>
      rw [hstage] at hun
      exact hun.elim
    | answered flag =>
      rw [hstage] at hfits hun
      exact ⟨hfits.1, hwait _ hfits.2 (heven hun)⟩
  · rw [underWay_queue, List.map_append]
    exact (accounted_cons h.logged.accounted).2

theorem Sound.fire (h : Sound irq ts s) (hc : s.Careful irq .fire) :
    ∃ s', s.fire irq = .ok s' ∧ Sound irq ts s' := by
  rcases hc with hzero | ⟨h0, hun, hroom⟩
  · exact h.fire_empty hzero
  · by_cases hzero : (s.k.handlers irq).count = 0
    · exact h.fire_empty hzero
    · have := h.handled.count
      exact h.fire_queue (by omega) h0 hun hroom

/-- The first job for a CPU is that of the first thread in its ring. -/
theorem exists_first {k : Kernel} {cpuid : ℤ} {js : List Job} {t : ℕ} {rest : List ℕ}
    (h : onCpu k cpuid (js.map Job.handler) = t :: rest) :
    ∃ job, js.find? (isOn k cpuid) = some job ∧ job.handler = t ∧
      js.Perm (job :: js.eraseP (isOn k cpuid)) ∧
      ∀ c, onCpu k c ((job :: js.eraseP (isOn k cpuid)).map Job.handler) =
        onCpu k c (js.map Job.handler) := by
  induction js with
  | nil => cases h
  | cons j js ih =>
    by_cases hj : (k.thread j.handler).cpuAffinity = cpuid
    · have hon : isOn k cpuid j = true := by simpa [isOn] using hj
      refine ⟨j, List.find?_cons_of_pos hon, ?_, ?_⟩
      · rw [List.map_cons, ← hj, onCpu_cons_self] at h
        exact (List.cons.inj h).1
      · rw [List.eraseP_cons_of_pos hon]
        exact ⟨.rfl, fun _ => rfl⟩
    · have hon : ¬ isOn k cpuid j = true := by simpa [isOn] using hj
      rw [List.map_cons, onCpu_cons_ne _ hj] at h
      obtain ⟨job, hfind, htr, hperm, hsame⟩ := ih h
      have hjob : (k.thread job.handler).cpuAffinity = cpuid := by
        simpa [isOn] using List.find?_some hfind
      refine ⟨job, (List.find?_cons_of_neg hon).trans hfind, htr, ?_, fun c => ?_⟩
      · rw [List.eraseP_cons_of_neg hon]
        exact (hperm.cons j).trans (.swap ..)
      · -- `job` goes in front of `j`, which is for another CPU
        have hc := hsame c
        rw [List.eraseP_cons_of_neg hon]
        simp only [List.map_cons] at hc ⊢
        by_cases hcj : (k.thread j.handler).cpuAffinity = c
        · have hne : (k.thread job.handler).cpuAffinity ≠ c := fun he =>
            hj (hcj.trans (he.symm.trans hjob))
          rw [onCpu_cons_ne _ hne] at hc ⊢
          rw [← hcj, onCpu_cons_self, onCpu_cons_self, hcj, hc]
        · rw [onCpu_cons_ne _ hcj, ← hc]
          by_cases hcjob : (k.thread job.handler).cpuAffinity = c
          · rw [← hcjob, onCpu_cons_self, onCpu_cons_self, hcjob, onCpu_cons_ne _ hcj]
          · rw [onCpu_cons_ne _ hcjob, onCpu_cons_ne _ hcjob, onCpu_cons_ne _ hcj]

/-- The handler at the start of a ring is the one whose turn it is. -/
theorem Sound.complete (h : Sound irq ts s) {cpuid status : ℤ}
    (hp : s.Permitted (.complete cpuid status)) (hc : s.Careful irq (.complete cpuid status)) :
    ∃ s', s.complete cpuid status = .ok s' ∧ Sound irq ts s' := by
  obtain ⟨hbusy, -, hring⟩ := hp
  have hentries : s.entries = s.jobs := by simp [entries, hbusy]
  have hrings := h.rings
  rw [hentries] at hrings
  obtain ⟨t, rest, hon⟩ := List.exists_cons_of_ne_nil ((hrings.nonempty_iff cpuid).mp hring)
  have hfirst := hrings.first hon
  obtain ⟨job, hfind, htr, hperm, hsame⟩ := exists_first hon
  have hw := h.idle hbusy
  have hmem : job ∈ s.jobs := List.mem_of_find?_eq_some hfind
  obtain ⟨-, hturn, hts⟩ := h.handled.turn_of_waiting hw hmem
  have hcount : 0 < (s.k.handlers irq).count := by
    have := hw.inside (List.ne_nil_of_mem hmem)
    omega
  rw [htr] at hturn hts
  have hirq : (s.k.thread t).irq = irq := (h.handled.registered t hts).2
  have haff : (s.k.thread t).cpuAffinity = cpuid := by
    have := List.find?_some hfind
    rw [isOn, htr] at this
    simpa using this
  have hunder : s.underWay = s.jobs := by simp [underWay, hbusy]
  refine ⟨{ s with
      busy := some ⟨cpuid, t, status, job, .checked (turn (s.k.handlers irq))⟩
      jobs := s.jobs.eraseP (isOn s.k cpuid) }, ?_, h.handled, hrings.of_onCpu hsame,
    (fun hn => by cases hn), fun b hb => ?_, h.logged.honest, h.logged.accepted,
    h.logged.refused, ?_⟩
  · rw [Session.complete]
    dsimp only
    rw [hfirst, hfind, deref_some, ok_bind, hirq, if_neg (not_not.mpr h.handled.inRange),
      h.handled.entitled_turn hcount hturn, ok_bind]
  · obtain rfl := Option.mem_some_iff.mp hb
    refine ⟨⟨hts, htr, haff⟩, rfl, hw.perm hperm.symm, ?_⟩
    refine hc.imp_right (Or.imp_right fun hone => ?_)
    rw [hperm.length_eq, List.length_cons] at hone
    exact List.length_eq_zero_iff.mp (Nat.succ.inj hone)
  · refine .trans ?_ h.logged.accounted
    rw [hunder]
    exact (hperm.symm.map Job.firing).append_left _

variable {b : Completion} {pos : ℤ}

/-- Acceptance: the handler is asked first from now on, as those are that wait. -/
theorem Sound.accept (h : Sound irq ts s) (hb : s.busy = some b) (hstage : b.stage = .checked pos)
    (hst : b.status = 0) : ∃ s', s.proceed = .ok s' ∧ Sound irq ts s' := by
  obtain ⟨hruns, hfits⟩ := h.runs b hb
  rw [hstage] at hfits
  obtain ⟨rfl, hw, -⟩ := hfits
  have hirq : (s.k.thread b.tr).irq = irq := (h.handled.registered _ hruns.mem).2
  have hcount : 0 < (s.k.handlers irq).count := by
    have := hw.inside (List.cons_ne_nil _ _)
    omega
  obtain ⟨h₀, hlt⟩ := turn_mem hcount
  set hook : IrqHook := { s.k.handlers irq with
    stubs := (s.k.handlers irq).stubs.modify (turn (s.k.handlers irq)).toNat
      fun s => { s with ack := s.ack + 1 }
    last := turn (s.k.handlers irq) } with hhook
  have htrs : hook.stubs.map IrqStub.tr = (s.k.handlers irq).stubs.map IrqStub.tr :=
    map_tr_modify _ _ _ fun _ => rfl
  have hset : (s.k.setHook irq hook).handlers irq = hook :=
    (Kernel.handlers_setHook ..).trans (if_pos rfl)
  have hwait : Waiting hook s.jobs := by
    by_cases ho : offset (s.k.handlers irq) = 0
    · refine hw.tail.congr rfl rfl ?_
      rw [order, order, htrs]
      change List.rotate _ (turn _).toNat = _
      rw [h.handled.turn_of_offset hcount ho]
    · rw [hw.tail_nil ho]
      exact .nil _
  refine ⟨{ s with
      k := s.k.setHook irq hook
      accepted := s.accepted ++ [(b.job.firing, b.tr)]
      busy := some { b with stage := .answered true } }, ?_, ?_, ?_, (fun hn => by cases hn),
    fun c hc => ?_, h.logged.honest, fun a ha => ?_, h.logged.refused, ?_⟩
  · rw [proceed, hb, deref_some, ok_bind]
    dsimp only
    rw [hstage]
    dsimp only
    rw [if_pos hst, hirq]
    rfl
  · refine h.handled.setHook (htrs.trans h.handled.stubs) rfl (fun _ => ⟨h₀, ?_⟩) h.handled.index
    rw [← h.handled.count]
    exact hlt
  · have hrings := h.rings.setHook irq hook
    rw [entries, hb] at hrings
    exact hrings
  · obtain rfl := Option.mem_some_iff.mp hc
    refine ⟨⟨hruns.mem, hruns.handler, hruns.affinity⟩, rfl, ?_⟩
    dsimp only
    rw [hset]
    exact hwait
  · rcases List.mem_append.mp ha with ha | ha
    · exact h.logged.accepted a ha
    · obtain rfl := List.mem_singleton.mp ha
      exact hruns.mem
  · refine .trans ?_ h.logged.accounted
    have hunder : s.underWay = b.job :: s.jobs := by simp [underWay, hb, hstage]
    have hacc := h.logged.accounted
    rw [hunder] at hacc ⊢
    simpa [underWay] using (accounted_settled hacc).1.trans hacc.symm

/-- Refusal: all that are asked up to now have declined. -/
theorem Sound.decline (h : Sound irq ts s) (hb : s.busy = some b)
    (hstage : b.stage = .checked pos) (hst : b.status ≠ 0) :
    ∃ s', s.proceed = .ok s' ∧ Sound irq ts s' := by
  obtain ⟨hruns, hfits⟩ := h.runs b hb
  rw [hstage] at hfits
  obtain ⟨rfl, hw, hfew⟩ := hfits
  have hfew := hfew.resolve_left hst
  have hirq : (s.k.thread b.tr).irq = irq := (h.handled.registered _ hruns.mem).2
  have ho := hw.inside (List.cons_ne_nil _ _)
  have hcount : 0 < (s.k.handlers irq).count := by omega
  have hindex := h.handled.index
  obtain ⟨h₀, hlt⟩ := turn_mem hcount
  obtain ⟨hdeclined, hturn, -⟩ := h.handled.turn_of_waiting hw (List.mem_cons_self ..)
  set hook : IrqHook := { s.k.handlers irq with
    stubs := (s.k.handlers irq).stubs.modify (turn (s.k.handlers irq)).toNat
      fun s => { s with nop := s.nop + 1 }
    index := (s.k.handlers irq).index + 1 } with hhook
  have htrs : hook.stubs.map IrqStub.tr = (s.k.handlers irq).stubs.map IrqStub.tr :=
    map_tr_modify _ _ _ fun _ => rfl
  have hset : (s.k.setHook irq hook).handlers irq = hook :=
    (Kernel.handlers_setHook ..).trans (if_pos rfl)
  have horder : order hook = order (s.k.handlers irq) := by
    rw [order, order, htrs]
  have htake : (order hook).take hook.index.toNat =
      (order (s.k.handlers irq)).take (offset (s.k.handlers irq) + 1) := by
    have hlen := h.handled.length_order
    have hc := h.handled.count
    rw [horder, offset]
    split_ifs with hone
    · -- the only handler
      have hall : (order (s.k.handlers irq)).length ≤ hook.index.toNat := by
        change _ ≤ ((s.k.handlers irq).index + 1).toNat
        omega
      rw [List.take_of_length_le hall, List.take_of_length_le (by omega)]
    · congr 1
      change ((s.k.handlers irq).index + 1).toNat = _
      omega
  have hwait : Waiting hook s.jobs := by
    rcases hfew with hone | hnil
    · refine hw.tail.congr rfl ?_ horder
      rw [offset, offset, if_pos hone, if_pos hone]
    · rw [hnil]
      exact .nil _
  refine ⟨{ s with
      k := s.k.setHook irq hook
      busy := some { b with
        job := { b.job with declined := b.job.declined ++ [b.tr] }
        stage := .declined (turn (s.k.handlers irq)) } }, ?_, ?_, ?_, (fun hn => by cases hn),
    fun c hc => ?_, h.logged.honest, h.logged.accepted, h.logged.refused, ?_⟩
  · rw [proceed, hb, deref_some, ok_bind]
    dsimp only
    rw [hstage]
    dsimp only
    rw [if_neg hst, hirq]
    rfl
  · exact h.handled.setHook (htrs.trans h.handled.stubs) rfl h.handled.last
      (by change 0 ≤ (s.k.handlers irq).index + 1; omega)
  · have hrings := h.rings.setHook irq hook
    rw [entries, hb] at hrings
    exact hrings
  · obtain rfl := Option.mem_some_iff.mp hc
    refine ⟨⟨hruns.mem, hruns.handler, hruns.affinity⟩, ?_⟩
    dsimp only
    rw [hset]
    refine ⟨⟨⟨h₀, ?_⟩, ?_, ?_⟩, hwait, hfew⟩
    · change (turn (s.k.handlers irq) + 1) % (s.k.handlers irq).count =
        ((s.k.handlers irq).index + 1 + (s.k.handlers irq).last) % (s.k.handlers irq).count
      rw [turn, Int.emod_add_emod]
      congr 1
      ring
    · change 0 < (s.k.handlers irq).index + 1
      omega
    · dsimp only
      rw [htake, ← h.handled.take_turn ho hturn, hdeclined, hruns.handler]
  · refine .trans ?_ h.logged.accounted
    simp [underWay, hb, hstage]

/-- Either a handler is left, or the firing is declined by all. -/
theorem Sound.compare (h : Sound irq ts s) (hb : s.busy = some b)
    (hstage : b.stage = .declined pos) : ∃ s', s.proceed = .ok s' ∧ Sound irq ts s' := by
  obtain ⟨hruns, hfits⟩ := h.runs b hb
  rw [hstage] at hfits
  obtain ⟨hd, hw, hfew⟩ := hfits
  have hirq : (s.k.thread b.tr).irq = irq := (h.handled.registered _ hruns.mem).2
  have hindex := hd.index
  have hrings := h.rings
  rw [entries, hb] at hrings
  have hunder : s.underWay = b.job :: s.jobs := by simp [underWay, hb, hstage]
  rw [proceed, hb, deref_some, ok_bind]
  dsimp only
  rw [hstage]
  dsimp only
  rw [hirq]
  by_cases hlt : (s.k.handlers irq).index < (s.k.handlers irq).count
  · refine ⟨_, if_pos hlt, h.handled, hrings, (fun hn => by cases hn), fun c hc => ?_,
      h.logged.honest, h.logged.accepted, h.logged.refused, ?_⟩
    · obtain rfl := Option.mem_some_iff.mp hc
      exact ⟨⟨hruns.mem, hruns.handler, hruns.affinity⟩, hd, hlt,
        hfew.resolve_left (by omega)⟩
    · refine .trans ?_ h.logged.accounted
      simp [underWay, hb, hstage]
  · refine ⟨_, if_neg hlt, h.handled, hrings, (fun hn => by cases hn), fun c hc => ?_,
      h.logged.honest, h.logged.accepted, fun r hr => ?_, ?_⟩
    · obtain rfl := Option.mem_some_iff.mp hc
      exact ⟨⟨hruns.mem, hruns.handler, hruns.affinity⟩, rfl, hw⟩
    · rcases List.mem_append.mp hr with hr | hr
      · exact h.logged.refused r hr
      · -- all of the order has declined
        obtain rfl := List.mem_singleton.mp hr
        have hlen := h.handled.length_order
        have hcount := h.handled.count
        dsimp only
        rw [hd.declined, List.take_of_length_le (by omega), order, h.handled.stubs]
        exact List.rotate_perm ..
    · have hacc := h.logged.accounted
      rw [hunder] at hacc
      simpa [underWay] using (accounted_settled hacc).2

/-- The next handler is queued for the same firing. -/
theorem Sound.ask (h : Sound irq ts s) (hb : s.busy = some b) (hstage : b.stage = .asking pos)
    (hc : s.Careful irq .proceed) : ∃ s', s.proceed = .ok s' ∧ Sound irq ts s' := by
  obtain ⟨hruns, hfits⟩ := h.runs b hb
  rw [hstage] at hfits
  obtain ⟨hd, hlt, hnil⟩ := hfits
  have hirq : (s.k.thread b.tr).irq = irq := (h.handled.registered _ hruns.mem).2
  have hindex := hd.index
  have hcount : 0 < (s.k.handlers irq).count := by omega
  have ho : offset (s.k.handlers irq) = (s.k.handlers irq).index.toNat := if_neg (by omega)
  obtain ⟨h₀, hturn⟩ := turn_mem hcount
  obtain ⟨stub, t, hat, htr, hget, hmem⟩ := h.handled.handlerAt_eq h₀ hturn
  have hsame : (s.k.thread t).cpuAffinity = b.cpuid :=
    hc b hb pos hstage t (by rw [hd.pos.2]; exact hget)
  have hentries : s.entries = [b.job] := by simp [entries, hb, hnil]
  have hrings := h.rings
  rw [hentries] at hrings
  have hroom : (onCpu s.k (s.k.thread t).cpuAffinity [b.job.handler]).length + 1 < MAX_FAST := by
    exact lt_of_le_of_lt (Nat.succ_le_succ (List.length_filter_le ..))
      (by decide : 1 + 1 < MAX_FAST)
  obtain ⟨u, hu, hrings', honly⟩ := hrings.fastQueue (h.handled.affinity t hmem) hroom
  have hask : askNext s.k irq pos = .ok (u, t) := by
    rw [askNext, (cmod_eq (by have := hd.pos.1; omega) hcount).1, ok_bind, hd.pos.2, hat, ok_bind,
      htr, hu]
    rfl
  have hhook : u.handlers irq = s.k.handlers irq := congrFun honly.handlers irq
  refine ⟨{ s with
      k := u
      jobs := s.jobs ++ [{ b.job with handler := t }]
      busy := some { b with
        stage := .answered (afterUnlock b.cpuid (u.thread t).cpuAffinity true) } }, ?_,
    h.handled.of_onlyRings honly, ?_, (fun hn => by cases hn), fun c hc => ?_, h.logged.honest,
    h.logged.accepted, h.logged.refused, ?_⟩
  · rw [proceed, hb, deref_some, ok_bind]
    dsimp only
    rw [hstage]
    dsimp only
    rw [hirq, hask]
    rfl
  · simp only [entries, hnil, List.map_append]
    exact hrings'
  · obtain rfl := Option.mem_some_iff.mp hc
    refine ⟨⟨hruns.mem, hruns.handler, (honly.affinity _).trans hruns.affinity⟩, ?_, ?_⟩
    · rw [afterUnlock, honly.affinity, if_pos hsame.symm]
    · dsimp only
      rw [hhook, hnil]
      have hw := h.handled.waiting_queue (.nil _) (by rw [ho]; omega) (.inl rfl) hget b.job.firing
      rw [ho, ← hd.declined] at hw
      exact hw
  · refine .trans ?_ h.logged.accounted
    simp [underWay, hb, hstage, hnil]

/-- The run takes the entry off that it was caused by. -/
theorem Sound.dequeue (h : Sound irq ts s) (hb : s.busy = some b) {interrupts : Bool}
    (hstage : b.stage = .answered interrupts) : ∃ s', s.proceed = .ok s' ∧ Sound irq ts s' := by
  obtain ⟨hruns, hfits⟩ := h.runs b hb
  rw [hstage] at hfits
  obtain ⟨rfl, hw⟩ := hfits
  have hrings := h.rings
  have hentries : s.entries = b.job :: s.jobs := by simp [entries, hb]
  rw [hentries, List.map_cons, hruns.handler] at hrings
  obtain ⟨u, hu, hrings', honly⟩ := hrings.fastDequeue (h.handled.affinity _ hruns.mem)
  rw [hruns.affinity] at hu
  have hhook : u.handlers irq = s.k.handlers irq := congrFun honly.handlers irq
  refine ⟨{ s with k := u, busy := none }, ?_, h.handled.of_onlyRings honly, hrings', fun _ => ?_,
    fun c hc => (by cases hc), h.logged.honest, h.logged.accepted, h.logged.refused, ?_⟩
  · rw [proceed, hb, deref_some, ok_bind]
    dsimp only
    rw [hstage]
    dsimp only
    rw [assert_of rfl, ok_bind, hu]
    rfl
  · dsimp only
    rw [hhook]
    exact hw
  · refine .trans ?_ h.logged.accounted
    simp [underWay, hb, hstage]

theorem Sound.proceed (h : Sound irq ts s) (hp : s.Permitted .proceed)
    (hc : s.Careful irq .proceed) : ∃ s', s.proceed = .ok s' ∧ Sound irq ts s' := by
  obtain ⟨b, hb⟩ := Option.isSome_iff_exists.mp hp
  cases hstage : b.stage with
  | checked pos =>
    by_cases hst : b.status = 0
    · exact h.accept hb hstage hst
    · exact h.decline hb hstage hst
  | declined pos => exact h.compare hb hstage
  | asking pos => exact h.ask hb hstage hc
  | answered interrupts => exact h.dequeue hb hstage

theorem Sound.step (h : Sound irq ts s) {e : Event} (hp : s.Permitted e) (hc : s.Careful irq e) :
    ∃ s', s.step irq e = .ok s' ∧ Sound irq ts s' := by
  cases e with
  | fire => exact h.fire hc
  | complete cpuid status => exact h.complete hp hc
  | proceed => exact h.proceed hp hc

/-- The rings hold exactly the jobs; a job that waits has not come by its handler before; a firing
was accepted by a handler, declined by all, or is on its way as one job, and only one of these. -/
structure Orderly (irq : ℤ) (ts : List ℕ) (s : Session) : Prop where
  logged : s.Logged ts
  rings : Rings s.k (s.entries.map Job.handler)
  asked : ∀ j ∈ s.jobs, (j.declined ++ [j.handler]).Nodup ∧ j.declined ++ [j.handler] ⊆ ts
  completes : ∀ e, s.Permitted e → s.Careful irq e → ∃ s', s.step irq e = .ok s' ∧ s'.lies = false

theorem Sound.waiting (h : Sound irq ts s) : Waiting (s.k.handlers irq) s.jobs := by
  cases hb : s.busy with
  | none => exact h.idle hb
  | some b =>
    have hfits := (h.runs b hb).2
    cases hstage : b.stage with
    | checked pos =>
      rw [hstage] at hfits
      exact hfits.2.1.tail
    | declined pos =>
      rw [hstage] at hfits
      exact hfits.2.1
    | asking pos =>
      rw [hstage] at hfits
      rw [hfits.2.2]
      exact .nil _
    | answered interrupts =>
      rw [hstage] at hfits
      exact hfits.2

theorem Sound.orderly (h : Sound irq ts s) : Orderly irq ts s := by
  refine ⟨h.logged, h.rings, fun j hj => ?_, fun e hp hc => ?_⟩
  · have hperm : (order (s.k.handlers irq)).Perm ts := by
      rw [order, h.handled.stubs]
      exact List.rotate_perm ..
    rw [h.waiting.asked j hj]
    exact ⟨(hperm.nodup_iff.mpr h.handled.once).sublist (List.take_sublist ..),
      fun t ht => hperm.mem_iff.mp (List.mem_of_mem_take ht)⟩
  · obtain ⟨s', hs, hs'⟩ := h.step hp hc
    exact ⟨s', hs, hs'.logged.honest⟩

end Session
end Racoon.Irq
