import Racoon.Scheduler.Loop
import Racoon.Scheduler.ThreadState

/-!
# A thread that never has its turn

Three threads share a CPU, and two of them wake each other in turn: each one
queues the other and goes dormant. The one that leaves is the last but one of the
queue when `position` has just come round to the first entry, and the step back
takes it to the last entry again, the thread just woken. So the two have all the
turns, and the third, at the head of the queue, is passed by for ever.
-/

namespace Racoon.Scheduler
open Lib
variable {τ : Type} [DecidableEq τ] {x a b : τ} {s t : Loop τ}

/-- Thread `a` runs, `x` is next, and nothing else is there to do. -/
structure Pinging (x a : τ) (s : Loop τ) : Prop where
  intact : Intact s.run.cpu.si s.run.members
  members : s.run.members = [x, a]
  position : s.run.cpu.si.position = 0
  asleep : s.run.cpu.si.pauseCount = 0
  room : 3 ≤ s.run.cpu.si.schedSize
  fast : s.fastStart = s.fastStop
  gc : s.gcSize = 0
  flip : s.flip = false
  stage : s.stage = .turn a

theorem honourRequest_frame (c : Cpu τ) (tr : τ) :
    (honourRequest c tr).si.requestingThread = none ∧
      (honourRequest c tr).si.requestingState = -1 ∧
      (honourRequest c tr).si.pauseCount = c.si.pauseCount ∧
      (honourRequest c tr).si.schedSize = c.si.schedSize := by
  unfold honourRequest
  dsimp only
  split_ifs <;> exact ⟨rfl, rfl, rfl, rfl⟩

/-- A thread that has requested to leave is taken out, with the step back. -/
theorem removeLast_exec {run : Run τ} {tr : τ} (h : Intact run.cpu.si run.members)
    (hreq : run.cpu.si.requestingThread = some tr) (hstate : 0 ≤ run.cpu.si.requestingState)
    (htr : tr ∈ run.members) : ∃ run', Call.removeLast.exec run = .ok run' ∧
      run'.members = run.members.erase tr ∧ Intact run'.cpu.si run'.members ∧
      run'.cpu.si.position = (closeGap run.cpu.si (find run.cpu.si tr)).position ∧
      run'.cpu.si.pauseCount = run.cpu.si.pauseCount ∧
      run'.cpu.si.schedSize = run.cpu.si.schedSize := by
  have hlast : honourLast run.cpu = honourRequest run.cpu tr := by
    rw [honourLast, hreq]
    exact if_pos hstate
  have hleft : honoured run.cpu.si run.members = run.members.erase tr := by
    rw [honoured, hreq]
    exact if_pos hstate
  obtain ⟨hnone, hneg, hpause, hsize⟩ := honourRequest_frame run.cpu tr
  refine ⟨⟨honourRequest run.cpu tr, run.members.erase tr⟩, ?_, rfl, h.honourRequest tr, ?_, hpause,
    hsize⟩
  · rw [Call.exec, removeLast, hlast, hleft, assert_of hnone, assert_of (by rw [hneg]; decide)]
    rfl
  · have hfound := mt (h.find_eq_count_iff tr).mp (not_not.mpr htr)
    simp only [honourRequest, if_neg hfound]
    rfl

namespace Pinging

/-- After the turn the other thread runs, and the queue is as before with the two exchanged. -/
theorem turn (h : Pinging x a s) (hxa : x ≠ a) (hxb : x ≠ b) (hab : a ≠ b) :
    ∃ s₁ s₂ t, (loopSystem τ).Guard s (.call (.queue b)) ∧
      (loopSystem τ).step s (.call (.queue b)) = .ok s₁ ∧
      (loopSystem τ).Guard s₁ (.call (.request (some a) THREAD_DORMANT)) ∧
      (loopSystem τ).step s₁ (.call (.request (some a) THREAD_DORMANT)) = .ok s₂ ∧
      (loopSystem τ).Guard s₂ (.pass 0) ∧ (loopSystem τ).step s₂ (.pass 0) = .ok t ∧ Pinging x b t ∧
      (x ∈ s₁.run.members ∧ s₁.stage = .turn a) ∧ x ∈ s₂.run.members ∧ s₂.stage = .turn a := by
  have hm := h.members
  have hcount : s.run.cpu.si.schedCount = 2 := by rw [h.intact.count_eq, hm]; rfl
  have hroom : s.run.cpu.si.schedCount ≠ s.run.cpu.si.schedSize := by
    have := h.room
    omega
  have hb : b ∉ s.run.members := by simp [hm, hxb.symm, hab.symm]
  -- the other thread is queued behind the two
  obtain ⟨hsize₁, hpos₁, -⟩ := subQueue_frame s.run.cpu.si b
  have hpause₁ : (subQueue s.run.cpu.si b).1.pauseCount = 0 := by
    rw [subQueue, if_neg hroom]
    exact h.asleep
  have hzero : (subQueue s.run.cpu.si b).2 = 0 := by rw [subQueue, if_neg hroom]
  let run₁ : Run τ := ⟨{ s.run.cpu with si := (subQueue s.run.cpu.si b).1 }, s.run.members ++ [b]⟩
  have hrun₁ : (Call.queue b).exec s.run = .ok run₁ := by
    rw [Call.exec]
    dsimp only
    rw [if_pos hzero]
  -- the running thread asks to leave
  let run₂ : Run τ := { run₁ with cpu := { run₁.cpu with
    si := { run₁.cpu.si with requestingThread := some a, requestingState := THREAD_DORMANT } } }
  have hintact₂ : Intact run₂.cpu.si run₂.members := by
    have hpush := h.intact.push hb hroom
    exact ⟨hpush.count_le, hpush.position, hpush.entries, hpush.nodup⟩
  have hm₂ : run₂.members = [x, a, b] := by
    change s.run.members ++ [b] = _
    rw [hm]
    rfl
  -- and the step back ends behind it
  obtain ⟨run₃, hrun₃, hm₃, hintact₃, hpos₃, hpause₃, hsize₃⟩ :=
    removeLast_exec hintact₂ rfl (Int.natCast_nonneg _) (by simp [hm₂])
  have hleft : run₃.members = [x, b] := by
    rw [hm₃, hm₂, List.erase_cons_tail (by simp [hxa]), List.erase_cons_head]
  have hcount₃ : run₃.cpu.si.schedCount = 2 := by rw [hintact₃.count_eq, hleft]; rfl
  have hone : run₃.cpu.si.position = 1 := by
    have hzero₂ : run₂.cpu.si.position = 0 := hpos₁.trans h.position
    rw [hpos₃, closeGap_position hintact₂ (by simp [hm₂]) (by omega), if_pos hzero₂, hm₂]
    norm_num
  have hsel : (select run₃.cpu.si).2 = some b := by
    rw [hintact₃.select_eq (by simp [hleft]), hone, hleft]
    rfl
  have hnext : (select run₃.cpu.si).1.position = 0 := by
    rw [select, if_neg (by omega)]
    dsimp only
    rw [hone, hcount₃]
  have hresume : resume { s with run := run₂ } = .ok { s with run := run₃ } := by
    rw [resume, h.stage]
    dsimp only
    rw [hrun₃]
    rfl
  have hpass := pass_eq (n := 0) hresume (hpause₃.trans hpause₁) h.fast h.gc h.flip (by omega)
    hsel
  refine ⟨{ s with run := run₁ }, { s with run := run₂ }, _, hb, ?_, .inr ?_, rfl, ?_, hpass,
    ?_, ?_, ?_⟩
  · change (Call.queue b).exec s.run >>= _ = _
    rw [hrun₁]
    rfl
  · change some a = s.stage.current
    rw [h.stage]
    rfl
  · intro s' hs'
    rw [hresume] at hs'
    cases hs'
    have hdue := due_of_asleep (hpause₃.trans hpause₁) 0
    change (run₃.members ++ (due run₃.cpu.si 0).filterMap PausedSchedule.tr).Nodup
    rw [hdue, List.filterMap_nil, List.append_nil]
    exact hintact₃.nodup
  · refine ⟨hintact₃.select, hleft, hnext, ?_, ?_, h.fast, h.gc, rfl, rfl⟩
    · dsimp only
      rw [select, if_neg (by omega)]
      exact hpause₃.trans hpause₁
    · dsimp only
      rw [select, if_neg (by omega)]
      exact (h.room.trans hsize₁.symm.le).trans hsize₃.symm.le
  · exact ⟨List.mem_append_left _ (by simp [hm]), h.stage⟩
  · exact ⟨List.mem_append_left _ (by simp [hm]), h.stage⟩

/-- Any number of turns of the two, and none of the third. -/
theorem run (hxa : x ≠ a) (hxb : x ≠ b) (hab : a ≠ b) (h : Pinging x a s) (n : ℕ) :
    ∃ is t, (loopSystem τ).Steps s is t ∧ is.countP Input.isPass = n ∧
      (Pinging x a t ∨ Pinging x b t) ∧
      (loopSystem τ).Along (fun u => x ∈ u.run.members ∧ u.stage ≠ .turn x) s is := by
  induction n with
  | zero =>
    refine ⟨[], s, .nil s, rfl, .inl h, .nil ⟨by simp [h.members], ?_⟩⟩
    rw [h.stage]
    exact fun he => hxa (Stage.turn.inj he).symm
  | succ n ih =>
    obtain ⟨is, t, hrun, hn, hping, halong⟩ := ih
    -- whichever of the two runs, the other is next
    have hnext : ∃ c d, Pinging x c t ∧ x ≠ c ∧ x ≠ d ∧ c ≠ d ∧
        (∀ u, Pinging x d u → Pinging x a u ∨ Pinging x b u) := by
      rcases hping with hp | hp
      · exact ⟨a, b, hp, hxa, hxb, hab, fun _ => .inr⟩
      · exact ⟨b, a, hp, hxb, hxa, hab.symm, fun _ => .inl⟩
    obtain ⟨c, d, hp, hxc, hxd, hcd, hout⟩ := hnext
    obtain ⟨s₁, s₂, u, hg₁, h₁, hg₂, h₂, hg₃, h₃, hu, ⟨hx₁, hst₁⟩, hx₂, hst₂⟩ := hp.turn hxc hxd hcd
    have hrun₁ : (loopSystem τ).Steps s (is ++ [.call (.queue d)]) s₁ := hrun.snoc hg₁ h₁
    have hrun₂ : (loopSystem τ).Steps s (is ++ [.call (.queue d)] ++
      [.call (.request (some c) THREAD_DORMANT)]) s₂ := hrun₁.snoc hg₂ h₂
    have hrun₃ : (loopSystem τ).Steps s (is ++ [.call (.queue d)] ++
      [.call (.request (some c) THREAD_DORMANT)] ++ [.pass 0]) u := hrun₂.snoc hg₃ h₃
    have hother : ∀ {v : Loop τ} {e : τ}, x ≠ e → v.stage = .turn e → v.stage ≠ .turn x :=
      fun hne hst he => hne (Stage.turn.inj (hst.symm.trans he)).symm
    have halong₁ := halong.snoc hrun h₁ ⟨hx₁, hother hxc hst₁⟩
    have halong₂ := halong₁.snoc hrun₁ h₂ ⟨hx₂, hother hxc hst₂⟩
    refine ⟨_, u, hrun₃, ?_, hout u hu, halong₂.snoc hrun₂ h₃ ⟨?_, hother hxd hu.stage⟩⟩
    · simp [List.countP_append, hn, Input.isPass]
    · simp [hu.members]

end Pinging

/-- Two threads wake each other for as long as they like, and a third one, queued before them, gets
no turn. -/
theorem ping_pong_starves (hxa : x ≠ a) (hxb : x ≠ b) (hab : a ≠ b) (cpuId : ℕ)
    (garbage : ℕ → PausedSchedule τ) (threads : τ → Thread) (fastQueue : ℕ → Option τ) :
    ∃ s, (loopSystem τ).Steps (Loop.load cpuId garbage threads fastQueue)
        [.call (.queue x), .call (.queue a), .pass 0, .pass 0] s ∧ s.stage = .turn a ∧
      ∀ n, ∃ is t, (loopSystem τ).Steps s is t ∧ is.countP Input.isPass = n ∧
        (loopSystem τ).Along (fun u => x ∈ u.run.members ∧ u.stage ≠ .turn x) s is := by
  let load : Loop τ := Loop.load cpuId garbage threads fastQueue
  let si : SchedulerInfo τ := { load.run.cpu.si with
    schedQueue := Function.update (Function.update load.run.cpu.si.schedQueue 0 (some x)) 1 (some a)
    schedCount := 2 }
  let queued : Loop τ := { load with run := ⟨⟨si, threads⟩, [x, a]⟩ }
  let first : Loop τ :=
    { queued with run := ⟨⟨{ si with position := 1 }, threads⟩, [x, a]⟩, stage := .turn x }
  let second : Loop τ :=
    { queued with run := ⟨⟨{ si with position := (1 + 1) % 2 }, threads⟩, [x, a]⟩
                  stage := .turn a }
  have hnodup : ([x, a] : List τ).Nodup := by simpa using hxa
  have hfirst : pass queued 0 = .ok first :=
    pass_eq (s := queued) (r := queued.run) rfl rfl rfl rfl rfl two_ne_zero rfl
  have hsecond : pass first 0 = .ok second :=
    pass_eq (s := first) (r := first.run) rfl rfl rfl rfl rfl two_ne_zero rfl
  have hboot : (loopSystem τ).Steps load
      [.call (.queue x), .call (.queue a), .pass 0, .pass 0] second :=
    .cons (List.not_mem_nil : x ∉ []) rfl <| .cons (by simp [hxa.symm] : a ∉ [x]) rfl <|
      .cons (fun s' hs' => by obtain rfl := Except.ok.inj hs'; exact hnodup) hfirst <|
      .cons (fun s' hs' => by obtain rfl := Except.ok.inj hs'; exact hnodup) hsecond <| .nil _
  have hintact := (running_of_reach ⟨_, _, ⟨cpuId, garbage, threads, fastQueue, rfl⟩, hboot⟩).1
  have hroom : 3 ≤ INITIAL_SCHED_SIZE := by decide
  have hround : (1 + 1) % 2 = 0 := rfl
  have hping : Pinging x a second :=
    ⟨hintact, rfl, hround, rfl, hroom, rfl, rfl, rfl, rfl⟩
  refine ⟨second, hboot, rfl, fun n => ?_⟩
  obtain ⟨is, t, hrun, hn, -, halong⟩ := hping.run hxa hxb hab n
  exact ⟨is, t, hrun, hn, halong⟩

theorem ping_pong_starves_three : ∃ s : Loop ℕ, s.stage = .turn 6 ∧
    ∃ is t, (loopSystem ℕ).Steps s is t ∧ is.countP Input.isPass = 1000 ∧ 5 ∈ t.run.members ∧
      t.stage ≠ .turn 5 := by
  obtain ⟨s, -, hstage, hall⟩ := ping_pong_starves (x := 5) (a := 6) (b := 7) (by decide)
    (by decide) (by decide) 0 (fun _ => ⟨none, 0, 0, 0⟩) (fun _ => ⟨1, 0, -1⟩) fun _ => none
  obtain ⟨is, t, hrun, hn, halong⟩ := hall 1000
  exact ⟨s, hstage, is, t, hrun, hn, halong is t (List.prefix_refl _) hrun⟩

end Racoon.Scheduler
