import Racoon.Irq.HandOff

/-!
# Runs of the hand-off

The runs start when `request_irq` has put the handlers of the line into its array
and nothing has fired yet. The steps of a completion that nothing interrupts are
`irq_complete`.
-/

namespace Racoon.Irq
open Lib

namespace Session

/-- The steps of an `irq_complete` one after the other. -/
def finish : ℕ → Session → Outcome Session
  | 0, s => .ok s
  | n + 1, s => do
    if s.busy.isNone = true then .ok s
    else do
      let s ← s.proceed
      finish n s

/-- The steps of a completion with nothing between them are `irq_complete` with the interrupts
on. -/
def Uninterrupted (s : Session) : Prop :=
  ∀ (cpuid status : ℤ) (job : Job), s.busy = none → s.jobs.find? (isOn s.k cpuid) = some job →
    (do let s ← s.complete cpuid status
        let s ← s.finish 4
        .ok s.k) = (do
      let r ← irqComplete s.k cpuid ((s.k.sched cpuid).fastQueue (s.k.sched cpuid).fastStart) true
        status
      .ok r.1)

theorem bind_ok {α : Type} (x : Outcome α) : (x >>= fun a => (.ok a : Outcome α)) = x := by
  cases x <;> rfl

theorem finish_answered {s : Session} {b : Completion} {flag : Bool} (n : ℕ) (hb : s.busy = some b)
    (hstage : b.stage = .answered flag) :
    (do let s ← s.finish (n + 1)
        .ok s.k) = (do
      assert (flag = true)
      fastDequeue s.k b.cpuid b.tr) := by
  have hproceed : s.proceed = (do
      assert (flag = true)
      let k ← fastDequeue s.k b.cpuid b.tr
      .ok { s with k := k, busy := none }) := by
    rw [proceed, hb, deref_some, ok_bind]
    dsimp only
    rw [hstage]
  rw [finish, hb, hproceed]
  simp only [Option.isNone_some, Bool.false_eq_true, if_false, bind_assoc, ok_bind]
  congr 1
  funext _
  cases h : fastDequeue s.k b.cpuid b.tr with
  | error e => rfl
  | ok k => cases n <;> rfl

/-- By the stages that the completion goes through. -/
theorem complete_finish (s : Session) : s.Uninterrupted := by
  intro cpuid status job hb hfind
  rw [complete, irqComplete]
  dsimp only
  rw [hfind, deref_some, ok_bind]
  generalize (s.k.sched cpuid).fastQueue (s.k.sched cpuid).fastStart = t
  by_cases hr : InRange (s.k.thread t).irq
  swap
  · rw [if_pos hr, if_pos hr]
    simp [finish, hb]
  rw [if_neg (not_not.mpr hr), if_neg (not_not.mpr hr)]
  cases he : entitled s.k t (s.k.thread t).irq with
  | error e => rfl
  | ok r =>
  simp only [ok_bind]
  cases r with
  | none => simp [finish, hb]
  | some pos =>
  simp only [ok_bind]
  rw [settle]
  by_cases hst : status = 0
  · -- accepted
    rw [if_pos hst, finish]
    simp only [Option.isNone_some, Bool.false_eq_true, if_false, proceed, deref_some, ok_bind, hst,
      if_true, bind_assoc]
    refine (finish_answered (b := ⟨cpuid, t, 0, job, .answered true⟩) 2 rfl rfl).trans ?_
    simp only [bind_ok]
  · rw [if_neg hst, offerNext, finish]
    simp only [Option.isNone_some, Bool.false_eq_true, if_false, proceed, deref_some, ok_bind, hst,
      bind_assoc]
    rw [finish]
    simp only [Option.isNone_some, Bool.false_eq_true, if_false, proceed, deref_some, ok_bind]
    have hthread : (declineIrq s.k (s.k.thread t).irq pos).thread = s.k.thread := rfl
    rw [hthread]
    by_cases hlt : ((declineIrq s.k (s.k.thread t).irq pos).handlers (s.k.thread t).irq).index <
        ((declineIrq s.k (s.k.thread t).irq pos).handlers (s.k.thread t).irq).count
    · -- the next handler is queued
      rw [if_pos hlt, if_pos hlt, ok_bind, finish]
      simp only [Option.isNone_some, Bool.false_eq_true, if_false, proceed, deref_some, ok_bind,
        bind_assoc, hthread]
      congr 1
      funext r
      simp only [bind_ok]
      exact finish_answered (b := ⟨cpuid, t, status, ⟨job.firing, job.declined ++ [t], job.handler⟩,
        .answered (afterUnlock cpuid (r.1.thread r.2).cpuAffinity true)⟩) 0 rfl rfl
    · -- declined by all
      rw [if_neg hlt, if_neg hlt, ok_bind, ok_bind]
      simp only [bind_ok]
      exact finish_answered (b := ⟨cpuid, t, status, ⟨job.firing, job.declined ++ [t], job.handler⟩,
        .answered true⟩) 1 rfl rfl

/-- Nothing has fired yet. -/
def start (k : Kernel) : Session := ⟨k, none, [], 0, [], [], false⟩

theorem sound_start {k : Kernel} {irq : ℤ} {ts : List ℕ} (hk : Handled k irq ts)
    (hr : Rings k []) : Sound irq ts (start k) where
  handled := hk
  rings := hr
  idle _ := .nil _
  runs _ hb := by cases hb
  logged := ⟨rfl, by simp [start], by simp [start], by simp [start, underWay]⟩

end Session

/-- The firings and completions of a line, in any order. -/
def handOff (irq : ℤ) : System Session Event Fault where
  Init _ := True
  Guard s e := s.Permitted e
  step s e := s.step irq e

theorem Session.Sound.run {irq : ℤ} {ts : List ℕ} {s s' : Session} {es : List Event}
    (h : s.Sound irq ts) (hrun : ((handOff irq).restrict (Session.Careful irq)).Steps s es s') :
    s'.Sound irq ts := by
  have hstep : ((handOff irq).restrict (Session.Careful irq)).Preserves
      (Session.Sound irq ts) := fun s e hs he => hs.step he.1 he.2
  exact hrun.preserves hstep h

/-- A kernel that has just come up: a CPU for every preference, and nothing queued. -/
structure Fresh (k : Kernel) : Prop where
  init : hookSystem.Init k
  cpus : 0 < k.cpuCount
  tid : ∀ t, 0 < (k.thread t).tid
  affinity : ∀ t, (k.thread t).cpuAffinity < k.cpuCount
  queued : ∀ t, (k.thread t).fastQueued = 0
  rings : ∀ c, (k.sched c).fastStart < MAX_FAST ∧ (k.sched c).fastStop = (k.sched c).fastStart

def IrqCall.IsRequest : IrqCall → Prop
  | .request _ _ _ _ => True
  | _ => False

/-- What `request_irq` keeps as it gives handlers a CPU. -/
structure Assigned (k : Kernel) : Prop where
  hooked : Hooked k
  cpus : 0 < k.cpuCount
  tid : ∀ t, 0 < (k.thread t).tid
  affinity : ∀ t, (k.thread t).cpuAffinity < k.cpuCount ∧
    ((k.thread t).state = THREAD_IRQ → 0 ≤ (k.thread t).cpuAffinity)
  rings : Rings k []

theorem Fresh.assigned {k : Kernel} (h : Fresh k) : Assigned k where
  hooked := hooked_init h.init
  cpus := h.cpus
  tid := h.tid
  affinity t := ⟨h.affinity t, fun ht => absurd ht (h.init.2 t).2⟩
  rings := by
    refine ⟨fun c => (h.rings c).1, fun c => (by decide : 0 < MAX_FAST), fun c => ?_, fun c => rfl,
      fun t => (h.queued t).trans rfl, by simp⟩
    change _ = ((k.sched c).fastStart + 0) % MAX_FAST
    rw [Nat.add_zero, Nat.mod_eq_of_lt (h.rings c).1, (h.rings c).2]

/-- A request that is granted gives the thread to the line, and a CPU if it prefers none. -/
theorem requestIrq_cases {k u : Kernel} {hookMem stubsMem : Bool} {t : ℕ} {irq rc : ℤ}
    (h : requestIrq k hookMem stubsMem t irq = .ok (u, rc)) :
    u = k ∨ ∃ masked hook, u = (({ k with masked := masked }).setHook irq hook).setThread t
      { k.thread t with
        irq := irq
        state := THREAD_IRQ
        cpuAffinity := if (k.thread t).cpuAffinity < 0 then ((k.thread t).tid - 1).tmod k.cpuCount
          else (k.thread t).cpuAffinity } := by
  rw [requestIrq] at h
  by_cases hr : ¬ InRange irq
  · rw [if_pos hr] at h
    cases h
    exact .inl rfl
  rw [if_neg hr] at h
  by_cases hs : (k.thread t).state ≠ THREAD_SUSPENDED
  · rw [if_pos hs] at h
    cases h
    exact .inl rfl
  rw [if_neg hs] at h
  by_cases hm : hookMem = false
  · rw [if_pos hm] at h
    cases h
    exact .inl rfl
  rw [if_neg hm] at h
  by_cases hm' : stubsMem = false
  · rw [if_pos hm'] at h
    cases h
    exact .inl rfl
  rw [if_neg hm'] at h
  obtain ⟨stubs, -, h⟩ := bind_eq_ok.mp h
  cases h
  exact .inr ⟨_, _, rfl⟩

theorem Assigned.request {k u : Kernel} (h : Assigned k) {hookMem stubsMem : Bool} {t : ℕ}
    {irq rc : ℤ} (ht : (k.thread t).state = THREAD_SUSPENDED)
    (hu : requestIrq k hookMem stubsMem t irq = .ok (u, rc)) : Assigned u := by
  obtain ⟨v, rc', hv, hhooked⟩ := h.hooked.request hookMem stubsMem ht irq
  cases hu.symm.trans hv
  rcases requestIrq_cases hu with rfl | ⟨masked, hook, rfl⟩
  · exact h
  have hmod : 0 ≤ ((k.thread t).tid - 1).tmod k.cpuCount ∧
      ((k.thread t).tid - 1).tmod k.cpuCount < k.cpuCount := by
    have htid := h.tid t
    rw [Int.tmod_eq_emod_of_nonneg (by omega)]
    exact ⟨Int.emod_nonneg _ h.cpus.ne', Int.emod_lt_of_pos _ h.cpus⟩
  refine ⟨hhooked, h.cpus, fun x => ?_, fun x => ?_, ⟨h.rings.start, h.rings.room, h.rings.stop,
    h.rings.cells, fun x => ?_, by simp⟩⟩
  · by_cases hx : x = t
    · subst hx
      simpa [Kernel.setThread] using h.tid x
    · simpa [Kernel.setThread, Kernel.setHook, hx] using h.tid x
  · by_cases hx : x = t
    · subst hx
      have haff := h.affinity x
      simp only [Kernel.setThread, Function.update_self, Kernel.setHook]
      split_ifs with hneg
      · exact ⟨hmod.2, fun _ => hmod.1⟩
      · exact ⟨haff.1, fun _ => by omega⟩
    · simpa [Kernel.setThread, Kernel.setHook, hx] using h.affinity x
  · by_cases hx : x = t
    · subst hx
      simpa [Kernel.setThread] using h.rings.queued x
    · simpa [Kernel.setThread, Kernel.setHook, hx] using h.rings.queued x

theorem Assigned.requests {k u : Kernel} (h : Assigned k) {cs : List IrqCall}
    (hcs : ∀ c ∈ cs, c.IsRequest) (hu : hookSystem.Steps k cs u) : Assigned u := by
  induction hu with
  | nil => exact h
  | @snoc v w cs c _ hg hs ih =>
    have hv := ih fun c hc => hcs c (List.mem_append_left _ hc)
    cases c with
    | request hookMem stubsMem t irq =>
      obtain ⟨⟨x, rc⟩, hx, hs⟩ := bind_eq_ok.mp hs
      cases hs
      exact hv.request hg hx
    | release => exact (hcs _ (List.mem_append_right _ (List.mem_singleton_self _))).elim
    | fire => exact (hcs _ (List.mem_append_right _ (List.mem_singleton_self _))).elim
    | complete => exact (hcs _ (List.mem_append_right _ (List.mem_singleton_self _))).elim

theorem Assigned.handled {k : Kernel} (h : Assigned k) {irq : ℤ} (hr : InRange irq) :
    Handled k irq ((k.handlers irq).stubs.map IrqStub.tr) := by
  have hl := h.hooked.line irq hr
  have hcount : (k.handlers irq).count = ((k.handlers irq).stubs.map IrqStub.tr).length := by
    rw [List.length_map]
    exact hl.count
  refine ⟨hr, rfl, hcount, hl.once, fun hne => ?_, ?_, fun t ht => (hl.members t).mp ht,
    fun t ht => ?_⟩
  · rw [← hcount]
    refine hl.last ?_
    rw [hcount]
    exact_mod_cast List.length_pos_iff.mpr hne
  · rcases (by omega : 0 < (k.handlers irq).count ∨ (k.handlers irq).count = 0) with hpos | hzero
    · exact (hl.index hpos).1
    · exact (hl.empty hzero).2.ge
  · have haff := h.affinity t
    exact ⟨haff.2 ((hl.members t).mp ht).1, haff.1⟩

/-- In every run of careful steps, whatever handlers the line was given, each completion of the
handler that runs is accepted, each firing is offered until one handler accepts or all have
declined, each run takes its own entry off the ring, and no assertion fails. The steps of a
completion that no firing comes between are `irq_complete`. -/
theorem irq_hand_off {k₀ k : Kernel} (h₀ : Fresh k₀) {cs : List IrqCall}
    (hcs : ∀ c ∈ cs, c.IsRequest) (hk : hookSystem.Steps k₀ cs k) {irq : ℤ} (hr : InRange irq)
    {es : List Event} {s : Session}
    (hrun : ((handOff irq).restrict (Session.Careful irq)).Steps (Session.start k) es s) :
    s.Orderly irq ((k.handlers irq).stubs.map IrqStub.tr) ∧ s.Uninterrupted := by
  have hassigned := h₀.assigned.requests hcs hk
  have hsound := (Session.sound_start (hassigned.handled hr) hassigned.rings).run hrun
  exact ⟨hsound.orderly, s.complete_finish⟩

theorem fresh_booted : Fresh booted where
  init := booted_init
  cpus := by decide
  tid t := by
    change (0 : ℤ) < t + 1
    omega
  affinity _ := (by decide : (-1 : ℤ) < 1)
  queued _ := rfl
  rings _ := ⟨(by decide : 0 < MAX_FAST), rfl⟩

theorem requests_twoHandlers : ∀ c ∈ twoHandlers, c.IsRequest := by
  simp [twoHandlers, IrqCall.IsRequest]

/-- The kernel in which both handlers have asked for the line. -/
def bothHooked : Kernel := (twoHandlers.foldlM IrqCall.exec booted).toOption.getD booted

theorem bothHooked_steps : hookSystem.Steps booted twoHandlers bothHooked :=
  .cons rfl rfl (.one rfl rfl)

/-- The line fires, the first handler declines, and the second is queued. -/
def firstDeclines : List Event :=
  [.fire, .complete 0 1, .proceed, .proceed, .proceed, .proceed]

/-- When the line fires again before the second handler has come to run, that handler lies. -/
theorem second_handler_lies : Fresh booted ∧ (∀ c ∈ twoHandlers, c.IsRequest) ∧
    hookSystem.Steps booted twoHandlers bothHooked ∧ InRange 1 ∧ ∃ s,
    (handOff 1).Steps (Session.start bothHooked) (firstDeclines ++ [.fire, .complete 0 0]) s ∧
    s.lies = true := by
  refine ⟨fresh_booted, requests_twoHandlers, bothHooked_steps, inRange_one, _,
    .cons trivial rfl (.cons ⟨rfl, ⟨by decide, by decide⟩, by decide⟩ rfl (.cons rfl rfl
      (.cons rfl rfl (.cons rfl rfl (.cons rfl rfl (.cons trivial rfl
        (.one ⟨rfl, ⟨by decide, by decide⟩, by decide⟩ rfl))))))), rfl⟩

theorem careful_proceed {irq : ℤ} {s : Session} {b : Completion} (hb : s.busy = some b)
    (hs : ∀ pos, b.stage ≠ .asking pos) : s.Careful irq .proceed := by
  intro b' hb' pos hpos
  rw [hb] at hb'
  cases hb'
  exact absurd hpos (hs pos)

theorem of_mem_some {o : Option ℕ} {t : ℕ} {P : ℕ → Prop} (ho : o = some t) (ht : P t) :
    ∀ x ∈ o, P x := by
  subst ho
  intro x hx
  obtain rfl := Option.mem_some_iff.mp hx
  exact ht

theorem irq_hand_off_example : ∃ s : Session, s.jobs.map Job.declined = [[0]] ∧
    s.Orderly 1 ((bothHooked.handlers 1).stubs.map IrqStub.tr) ∧ s.Uninterrupted := by
  have hrun : ((handOff 1).restrict (Session.Careful 1)).Steps (Session.start bothHooked)
      firstDeclines _ :=
    .cons ⟨trivial, .inr ⟨by decide, .inl rfl, of_mem_some rfl (by decide : (1 : ℕ) ≠ 0)⟩⟩ rfl
      (.cons ⟨⟨rfl, ⟨by decide, by decide⟩, by decide⟩, .inr (.inr rfl)⟩ rfl
        (.cons ⟨rfl, careful_proceed rfl fun _ => by simp⟩ rfl
          (.cons ⟨rfl, careful_proceed rfl fun _ => by simp⟩ rfl
            (.cons ⟨rfl, fun b hb pos hpos => by
              cases hb
              cases hpos
              exact of_mem_some rfl rfl⟩ rfl
              (.one ⟨rfl, careful_proceed rfl fun _ => by simp⟩ rfl)))))
  exact ⟨_, rfl, irq_hand_off fresh_booted requests_twoHandlers bothHooked_steps inRange_one hrun⟩

end Racoon.Irq
