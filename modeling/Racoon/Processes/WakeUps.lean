import Racoon.Processes.Dormancy

/-!
# No wake-up is lost in time

`Awake` is the invariant of runs in which every sender looks at the receiver in
time. One sender at a time is past the lock, so whatever waits while the
receiver is on its way to sleep, or asleep, was queued by a sender that has
still to look.
-/

namespace Racoon.Dormancy
open Lib Ipc

namespace Stage

/-- The receiver holds the write lock. -/
def inside : Stage → Prop
  | checking | declining | requesting | committing => True
  | _ => False

/-- Nothing was found to wait and the state is not written yet. -/
def decided : Stage → Prop
  | requesting | committing | yielding | unqueued => True
  | _ => False

/-- The request is made and not carried out. -/
def requested : Stage → Prop
  | committing | yielding | unqueued => True
  | _ => False

/-- The state is written. -/
def past : Stage → Prop
  | stopped | detached | asleep => True
  | _ => False

end Stage

namespace SendStage

/-- A sender on its way through `set_thread_state` and `queue`. -/
def wakes : SendStage → Prop
  | waking | marking | queueing | enlisting => True
  | _ => False

/-- It has written the state. -/
def marked : SendStage → Prop
  | queueing | enlisting => True
  | _ => False

end SendStage

structure Awake (tr : ℕ) (a : Thread) (s : State) : Prop where
  sound : Sound s.proc
  thread : s.proc.threads tr = some a
  owner : ∀ p, Open s.proc p → (p ∈ a.owned ↔ addressee s.proc p = some tr)
  held : ∀ i, s.send i ≠ .idle → s.writer = some (.sender i)
  inside : s.stage.inside → s.writer = some .receiver
  dormant : s.state = THREAD_DORMANT → s.stage.past ∧ s.queued = false
  waking : ∀ i, (s.send i).wakes → s.stage.past ∧ s.queued = false
  marked : ∀ i, (s.send i).marked → s.state ≠ THREAD_DORMANT
  unqueued : s.stage = .unqueued → s.queued = false
  kept : ¬ s.stage.past → s.stage ≠ .unqueued → s.queued = true
  requested : s.stage.requested → s.requestingThread = true ∧ s.requestingState = THREAD_DORMANT
  looked : ∀ i p, s.send i = .looking p → messages s.proc p ≠ [] ∨ pulses s.proc p ≠ []
  noted : s.stage.decided ∨ s.state = THREAD_DORMANT → Waits s.proc a → WakePending tr s

section Frame
variable {proc proc' : Process}

/-- A send changes queues only. -/
structure SameTable (proc proc' : Process) : Prop where
  threads : proc'.threads = proc.threads
  htable : proc'.threadsHtable = proc.threadsHtable
  tid : ∀ p, InRange p → (proc'.block p).tid = (proc.block p).tid
  flags : ∀ p, InRange p → (proc'.block p).flags = (proc.block p).flags

theorem SameTable.portFlags_eq (h : SameTable proc proc') (p : ℤ) (flags : ℕ) :
    portFlags proc' p flags = portFlags proc p flags := by
  unfold portFlags
  split_ifs with hr h₁ h₂ h₂
  · rfl
  · exact absurd ((h.tid p hr).symm.trans h₁) h₂
  · exact absurd ((h.tid p hr).trans h₂) h₁
  · rw [h.flags p hr]
  · rfl

theorem SameTable.addressee_eq (h : SameTable proc proc') (p : ℤ) :
    addressee proc' p = addressee proc p := by
  have htid : port2tid proc' p = port2tid proc p := by
    unfold port2tid
    split_ifs with hr
    · exact h.tid p hr
    · rfl
  rw [addressee, addressee, htid, getThread_congr h.htable fun t => by rw [h.threads]]

theorem SameTable.unmasked_eq (h : SameTable proc proc') (owned : List ℤ) :
    unmasked proc' owned = unmasked proc owned := by
  unfold unmasked
  simp only [h.portFlags_eq]

theorem SameTable.open_iff (h : SameTable proc proc') (p : ℤ) : Open proc' p ↔ Open proc p :=
  and_congr_right fun hr => by rw [h.tid p hr]

theorem sameTable_setBlock {p : ℤ} (hp : InRange p) {b : IpcBlock}
    (htid : b.tid = (proc.block p).tid) (hflags : b.flags = (proc.block p).flags) :
    SameTable proc (proc.setBlock p b) := by
  refine ⟨rfl, rfl, fun q hq => ?_, fun q hq => ?_⟩
  · rw [block_setBlock _ hp hq]
    split_ifs with he
    · rw [htid, he]
    · rfl
  · rw [block_setBlock _ hp hq]
    split_ifs with he
    · rw [hflags, he]
    · rfl

/-- A parcel is refused, or it is queued at an open port and nothing else changes, or the look-up
of the receiver halts. -/
theorem Parcel.queue_cases (hs : Sound proc) (parcel : Parcel) :
    parcel.queue proc = .ok (proc, -1) ∨
    (∃ proc', parcel.queue proc = .ok (proc', 0) ∧ Open proc parcel.destPort ∧ Sound proc' ∧
      SameTable proc proc' ∧
      (messages proc' parcel.destPort ≠ [] ∨ pulses proc' parcel.destPort ≠ []) ∧
      ∀ q, InRange q → q ≠ parcel.destPort →
        messages proc' q = messages proc q ∧ pulses proc' q = pulses proc q) ∨
    ∃ e, parcel.queue proc = .error e := by
  cases parcel with
  | message sourcePid sourcePort destPort location kmalloc room =>
    obtain ⟨-, he⟩ | ⟨data, _, -, hp, he⟩ | ⟨-, he⟩ := sendMessage_cases hs sourcePid sourcePort
      destPort location kmalloc room
    · exact .inl he
    swap
    · exact .inr (.inr he)
    refine .inr (.inl ⟨_, he, hp, (hs.setMessages hp _).setHeap _, ?_, .inl ?_, fun q hq hne => ?_⟩)
    · obtain ⟨h₁, h₂, h₃, h₄⟩ := @sameTable_setBlock proc _ hp.1
        { proc.block destPort with messageQ := some (messages proc destPort ++
          [newMessage sourcePid sourcePort destPort location data]) } rfl rfl
      exact ⟨h₁, h₂, h₃, h₄⟩
    · refine ne_of_eq_of_ne ((messages_setBlock hp.1 hp.1 _ _).trans (if_pos rfl)) ?_
      exact List.append_ne_nil_of_right_ne_nil _ (List.cons_ne_nil _ _)
    · exact ⟨held_setBlock_ne _ hp.1 hq hne _, held_setBlock_ne _ hp.1 hq hne _⟩
  | pulse p room =>
    obtain ⟨-, he⟩ | ⟨-, hp, he⟩ | ⟨-, he⟩ := sendPulse_cases hs p room
    · exact .inl he
    swap
    · exact .inr (.inr he)
    refine .inr (.inl ⟨_, he, hp, hs.setPulses hp _, sameTable_setBlock hp.1 rfl rfl, .inr ?_,
      fun q hq hne => ⟨held_setBlock_ne _ hp.1 hq hne _, held_setBlock_ne _ hp.1 hq hne _⟩⟩)
    refine ne_of_eq_of_ne ((pulses_delivered hp.1 hp.1 _ _).trans (if_pos rfl)) ?_
    exact List.append_ne_nil_of_right_ne_nil _ (List.cons_ne_nil _ _)

end Frame

namespace Awake
variable {tr home : ℕ} {a : Thread} {s s' : State} {i : ℕ}

/-- Before the state is written the receiver is not dormant and nobody wakes it. -/
theorem early (h : Awake tr a s) (hs : ¬ s.stage.past) :
    s.state ≠ THREAD_DORMANT ∧ ∀ i, ¬ (s.send i).wakes :=
  ⟨fun e => hs (h.dormant e).1, fun i hw => hs (h.waking i hw).1⟩

/-- The lock lets one sender in at a time. -/
theorem alone (h : Awake tr a s) (hi : s.send i ≠ .idle) :
    (∀ j, j ≠ i → s.send j = .idle) ∧ ¬ s.stage.inside := by
  have hw := h.held i hi
  refine ⟨fun j hj => ?_, fun hin => ?_⟩
  · by_contra hne
    have := (h.held j hne).symm.trans hw
    simp only [Option.some.injEq, Party.sender.injEq] at this
    exact hj this
  · cases (h.inside hin).symm.trans hw

theorem pending_of (ha : ∀ j, j ≠ i → s.send j = .idle) (hp : WakePending tr s) :
    (s.send i).pending s.proc tr := by
  obtain ⟨j, hj⟩ := hp
  by_cases hji : j = i
  · exact hji ▸ hj
  · rw [ha j hji] at hj
    exact hj.elim

/-- A step of the receiver from one stage to another before its state is written. -/
theorem advance (h : Awake tr a s) (hs : ¬ s.stage.past) (hu : s.stage ≠ .unqueued)
    (hs' : ¬ s'.stage.past) (hu' : s'.stage ≠ .unqueued) (hproc : s'.proc = s.proc)
    (hsend : s'.send = s.send) (hstate : s'.state = s.state) (hqueued : s'.queued = s.queued)
    (hheld : ∀ i, s.send i ≠ .idle → s'.writer = some (.sender i))
    (hinside : s'.stage.inside → s'.writer = some .receiver)
    (hrequested : s'.stage.requested →
      s'.requestingThread = true ∧ s'.requestingState = THREAD_DORMANT)
    (hnoted : s'.stage.decided → Waits s.proc a → WakePending tr s) : Awake tr a s' := by
  obtain ⟨hne, hw⟩ := h.early hs
  obtain ⟨proc, state, duration, cpu, rs, rt, queued, writer, stage, send⟩ := s'
  subst hproc hsend hstate hqueued
  exact ⟨h.sound, h.thread, h.owner, hheld, hinside, fun e => absurd e hne,
    fun i hi => absurd hi (hw i), h.marked, fun e => absurd e hu', fun _ _ => h.kept hs hu,
    hrequested, h.looked, fun hd => hnoted (hd.resolve_right hne)⟩

/-- A step of the sender `i` to the stage `x`, the others being idle. -/
theorem sender (h : Awake tr a s) (halone : ∀ j, j ≠ i → s.send j = .idle)
    (hin : ¬ s.stage.inside) {x : SendStage} (hs : Sound s'.proc) (htab : SameTable s.proc s'.proc)
    (hsend : s'.send = Function.update s.send i x) (hstage : s'.stage = s.stage)
    (hrt : s'.requestingThread = s.requestingThread)
    (hrs : s'.requestingState = s.requestingState)
    (hheld : x ≠ .idle → s'.writer = some (.sender i))
    (hdormant : s'.state = THREAD_DORMANT → s.stage.past ∧ s'.queued = false)
    (hwaking : x.wakes → s.stage.past ∧ s'.queued = false)
    (hmarked : x.marked → s'.state ≠ THREAD_DORMANT)
    (hunqueued : s.stage = .unqueued → s'.queued = false)
    (hkept : ¬ s.stage.past → s.stage ≠ .unqueued → s'.queued = true)
    (hlooked : ∀ p, x = .looking p → messages s'.proc p ≠ [] ∨ pulses s'.proc p ≠ [])
    (hnoted : s.stage.decided ∨ s'.state = THREAD_DORMANT → Waits s'.proc a →
      x.pending s'.proc tr) : Awake tr a s' := by
  obtain ⟨proc, state, duration, cpu, rs, rt, queued, writer, stage, send⟩ := s'
  dsimp only at hs htab hlooked hnoted
  subst hsend hstage hrt hrs
  have hof : ∀ j, (Function.update s.send i x) j = x ∧ j = i ∨
      (Function.update s.send i x) j = .idle := by
    intro j
    by_cases hj : j = i
    · subst hj
      exact .inl ⟨Function.update_self _ _ _, rfl⟩
    · exact .inr ((Function.update_of_ne hj _ _).trans (halone j hj))
  refine ⟨hs, htab.threads ▸ h.thread, fun p hp => ?_, fun j hj => ?_, fun e => absurd e hin,
    hdormant, fun j hj => ?_, fun j hj => ?_, hunqueued, hkept, h.requested, fun j p hj => ?_,
    fun hd hw => ⟨i, ?_⟩⟩
  · dsimp only
    rw [htab.addressee_eq]
    exact h.owner p ((htab.open_iff p).mp hp)
  · obtain ⟨he, rfl⟩ | he := hof j
    · exact hheld (he ▸ hj)
    · exact absurd he hj
  · obtain ⟨he, rfl⟩ | he := hof j
    · exact hwaking (he ▸ hj)
    · exact (he ▸ hj : SendStage.idle.wakes).elim
  · obtain ⟨he, rfl⟩ | he := hof j
    · exact hmarked (he ▸ hj)
    · exact (he ▸ hj : SendStage.idle.marked).elim
  · obtain ⟨he, _⟩ | he := hof j
    · exact hlooked p (he.symm.trans hj)
    · cases he.symm.trans hj
  · change ((Function.update s.send i x) i).pending proc tr
    rw [Function.update_self]
    exact hnoted hd hw

/-- The same when it changes no queue. -/
theorem sender_quiet (h : Awake tr a s) (halone : ∀ j, j ≠ i → s.send j = .idle)
    (hin : ¬ s.stage.inside) {x : SendStage} (hproc : s'.proc = s.proc)
    (hsend : s'.send = Function.update s.send i x) (hstage : s'.stage = s.stage)
    (hrt : s'.requestingThread = s.requestingThread)
    (hrs : s'.requestingState = s.requestingState)
    (hheld : x ≠ .idle → s'.writer = some (.sender i))
    (hdormant : s'.state = THREAD_DORMANT → s.stage.past ∧ s'.queued = false)
    (hwaking : x.wakes → s.stage.past ∧ s'.queued = false)
    (hmarked : x.marked → s'.state ≠ THREAD_DORMANT)
    (hunqueued : s.stage = .unqueued → s'.queued = false)
    (hkept : ¬ s.stage.past → s.stage ≠ .unqueued → s'.queued = true)
    (hlooked : ∀ p, x ≠ .looking p)
    (hnoted : s.stage.decided ∨ s'.state = THREAD_DORMANT → Waits s.proc a →
      x.pending s.proc tr) : Awake tr a s' :=
  h.sender halone hin (hproc ▸ h.sound) (hproc ▸ ⟨rfl, rfl, fun _ _ => rfl, fun _ _ => rfl⟩) hsend
    hstage hrt hrs hheld hdormant hwaking hmarked hunqueued hkept
    (fun p hp => absurd hp (hlooked p)) (hproc ▸ hnoted)

theorem check (h : Awake tr a s) (hs : s.stage = .checking) {t : State}
    (ht : step tr home s .check = .ok t) : Awake tr a t := by
  have hearly : ¬ s.stage.past := by simp [hs, Stage.past]
  have hw : s.writer = some .receiver := h.inside (by simp [hs, Stage.inside])
  obtain ⟨_, _, ht⟩ := bind_eq_ok.mp ht
  rw [pulsesWaiting_eq h.sound h.thread, messagesWaiting_eq h.sound h.thread] at ht
  simp only [ok_bind, Except.ok.injEq] at ht
  subst ht
  refine h.advance hearly (by simp [hs]) ?_ ?_ rfl rfl rfl rfl h.held (fun _ => hw) ?_ ?_
  · dsimp only
    split_ifs <;> simp [Stage.past]
  · dsimp only
    split_ifs <;> simp
  · dsimp only
    split_ifs <;> simp [Stage.requested]
  · dsimp only
    split_ifs with hn
    · exact fun hd => hd.elim
    · -- Both sums are 0, so no queue at an unmasked port holds anything.
      rintro _ ⟨p, hp, hne⟩
      simp only [not_or, Nat.pos_iff_ne_zero, not_not] at hn
      have hpulses := List.sum_eq_zero_iff.mp hn.1 _ (List.mem_map_of_mem hp)
      have hmessages := List.sum_eq_zero_iff.mp hn.2 _ (List.mem_map_of_mem hp)
      obtain hne | hne := hne
      · exact absurd (List.length_eq_zero_iff.mp hmessages) hne
      · exact absurd (List.length_eq_zero_iff.mp hpulses) hne

theorem request (h : Awake tr a s) (hs : s.stage = .requesting) {t : State}
    (ht : step tr home s .request = .ok t) : Awake tr a t := by
  have hearly : ¬ s.stage.past := by simp [hs, Stage.past]
  have hw : s.writer = some .receiver := h.inside (by simp [hs, Stage.inside])
  have hn := h.noted (.inl (by simp [hs, Stage.decided]))
  have hne := (h.early hearly).1
  obtain ⟨t', ht', ht⟩ := bind_eq_ok.mp ht
  rw [requestDormant, if_neg hne] at ht'
  obtain ⟨_, _, ht'⟩ := bind_eq_ok.mp ht'
  cases ht'
  cases ht
  exact h.advance hearly (by simp [hs]) (by simp [Stage.past]) (by simp) rfl rfl rfl rfl h.held
    (fun _ => hw) (fun _ => ⟨rfl, rfl⟩) fun _ => hn

theorem unqueue (h : Awake tr a s) (hs : s.stage = .yielding) {t : State}
    (ht : step tr home s .unqueue = .ok t) : Awake tr a t := by
  have hearly : ¬ s.stage.past := by simp [hs, Stage.past]
  obtain ⟨hne, hw⟩ := h.early hearly
  obtain ⟨hrt, hrs⟩ := h.requested (by simp [hs, Stage.requested])
  have hq := h.kept hearly (by simp [hs])
  have hn := h.noted (.inl (by simp [hs, Stage.decided]))
  have hpos : (0 : ℤ) ≤ THREAD_DORMANT := by decide
  simp only [step, hrt, hrs, hpos, and_self, if_true, hq, Except.ok.injEq] at ht
  subst ht
  exact ⟨h.sound, h.thread, h.owner, h.held, nofun, fun e => absurd e hne,
    fun i hi => absurd hi (hw i), h.marked, fun _ => rfl, fun _ hu => absurd rfl hu,
    fun _ => ⟨rfl, rfl⟩, h.looked, fun _ => hn⟩

/-- The state is written: what waits by now was queued by a sender that has still to look. -/
theorem writeState (h : Awake tr a s) (hs : s.stage = .unqueued) :
    Awake tr a { s with state := s.requestingState, stage := .stopped } := by
  have hearly : ¬ s.stage.past := by simp [hs, Stage.past]
  obtain ⟨_, hw⟩ := h.early hearly
  have hq := h.unqueued hs
  have hn := h.noted (.inl (by simp [hs, Stage.decided]))
  have hm : ∀ i, ¬ (s.send i).marked := by
    intro i hi
    have := hw i
    cases hi' : s.send i <;> simp_all [SendStage.marked, SendStage.wakes]
  exact ⟨h.sound, h.thread, h.owner, h.held, nofun, fun _ => ⟨trivial, hq⟩,
    fun i hi => absurd hi (hw i), fun i hi => absurd hi (hm i), nofun,
    fun hp => absurd trivial hp, nofun, h.looked, fun _ => hn⟩

/-- The last two writes of `remove_last`. -/
theorem late (h : Awake tr a s) (hs' : s'.stage.past)
    (hproc : s'.proc = s.proc) (hsend : s'.send = s.send) (hstate : s'.state = s.state)
    (hqueued : s'.queued = s.queued) (hwriter : s'.writer = s.writer) : Awake tr a s' := by
  obtain ⟨proc, state, duration, cpu, rs, rt, queued, writer, stage, send⟩ := s'
  subst hproc hsend hstate hqueued hwriter
  have hstage : ∀ {st : Stage}, st.past → ¬ st.inside ∧ st ≠ .unqueued ∧ ¬ st.requested ∧
      ¬ st.decided := by
    intro st hst
    cases st <;> simp [Stage.past, Stage.inside, Stage.requested, Stage.decided] at hst ⊢
  obtain ⟨h₁, h₂, h₃, h₄⟩ := hstage hs'
  refine ⟨h.sound, h.thread, h.owner, h.held, fun e => absurd e h₁, fun e => ⟨hs', (h.dormant e).2⟩,
    fun i hi => ⟨hs', (h.waking i hi).2⟩, h.marked, fun e => absurd e h₂, fun e => absurd hs' e,
    fun e => absurd e h₃, h.looked, fun e => h.noted (.inr (e.resolve_left h₄))⟩

theorem resume (h : Awake tr a s) (hq : s.queued = true) :
    Awake tr a { s with duration := 0, stage := .outside } := by
  have hne : s.state ≠ THREAD_DORMANT := fun e => by simp [(h.dormant e).2] at hq
  have hw : ∀ i, ¬ (s.send i).wakes := fun i hi => by simp [(h.waking i hi).2] at hq
  exact ⟨h.sound, h.thread, h.owner, h.held, nofun, fun e => absurd e hne,
    fun i hi => absurd hi (hw i), h.marked, nofun, fun _ _ => hq, nofun, h.looked,
    fun e => absurd (e.resolve_left id) hne⟩

theorem checkoutFor (h : Awake tr a s) (hw : s.writer = none) (i : ℕ) (parcel : Parcel) :
    Awake tr a { s.move i (.sending parcel) with writer := some (.sender i) } := by
  have hidle : ∀ j, s.send j = .idle := by
    intro j
    by_contra hne
    cases hw.symm.trans (h.held j hne)
  have hin : ¬ s.stage.inside := fun e => by cases hw.symm.trans (h.inside e)
  have hnp : ¬ WakePending tr s := by
    rintro ⟨j, hj⟩
    rw [hidle j] at hj
    exact hj
  exact h.sender_quiet (fun j _ => hidle j) hin rfl rfl rfl rfl rfl
    (fun _ => rfl) h.dormant nofun nofun
    h.unqueued h.kept nofun fun hd hwt => absurd (h.noted hd hwt) hnp

theorem enqueue (h : Awake tr a s) {parcel : Parcel} (hi : s.send i = .sending parcel) {t : State}
    (ht : step tr home s (.enqueue i) = .ok t) : Awake tr a t := by
  have hne : s.send i ≠ .idle := by simp [hi]
  obtain ⟨halone, hin⟩ := h.alone hne
  have hnp : ¬ WakePending tr s := by
    intro hp
    have := pending_of halone hp
    rwa [hi] at this
  simp only [step, hi] at ht
  obtain ⟨⟨proc', rc⟩, hq, ht⟩ := bind_eq_ok.mp ht
  simp only [Except.ok.injEq] at ht
  subst ht
  obtain he | ⟨proc'', he, hp, hs', htab, hnew, hold⟩ | ⟨e, he⟩ :=
    Parcel.queue_cases h.sound parcel
  · obtain ⟨rfl, rfl⟩ : s.proc = proc' ∧ -1 = rc := by simpa using he.symm.trans hq
    exact h.sender_quiet halone hin rfl rfl rfl rfl rfl
      (fun _ => h.held i hne) h.dormant nofun nofun
      h.unqueued h.kept nofun fun hd hw => absurd (h.noted hd hw) hnp
  · obtain ⟨rfl, rfl⟩ : proc'' = proc' ∧ 0 = rc := by simpa using he.symm.trans hq
    refine h.sender halone hin hs' htab rfl rfl rfl rfl (fun _ => h.held i hne) h.dormant nofun
      nofun h.unqueued h.kept (fun p hp => ?_) fun hd hw => ?_
    · cases hp
      exact hnew
    · -- What waits now and did not before is the parcel itself.
      obtain ⟨p, hpm, hpw⟩ : Waits proc'' a := hw
      rw [htab.unmasked_eq] at hpm
      obtain ⟨hpo, hflags⟩ := List.mem_filter.mp hpm
      have hflags : portFlags s.proc p IPC_MASKED = 0 := by simpa using hflags
      have hopen := open_of_portFlags hflags
      by_cases hpd : p = parcel.destPort
      · subst hpd
        exact ⟨(htab.portFlags_eq _ _).trans hflags,
          (htab.addressee_eq _).trans ((h.owner _ hopen).mp hpo)⟩
      · obtain ⟨hm, hpu⟩ := hold p hopen.1 hpd
        exact absurd (h.noted hd ⟨p, hpm, by rwa [hm, hpu] at hpw⟩) hnp
  · cases he.symm.trans hq

theorem look (h : Awake tr a s) {p : ℤ} (hi : s.send i = .looking p)
    (hin : (Move.look i).InTime tr s) {t : State} (ht : step tr home s (.look i) = .ok t) :
    Awake tr a t := by
  have hne : s.send i ≠ .idle := by simp [hi]
  obtain ⟨halone, hout⟩ := h.alone hne
  have hnp : WakePending tr s →
      portFlags s.proc p IPC_MASKED = 0 ∧ addressee s.proc p = some tr := by
    intro hp
    have := pending_of halone hp
    rwa [hi] at this
  simp only [step, hi] at ht
  split_ifs at ht with hc
  · cases ht
    exact h.sender_quiet halone hout rfl rfl rfl rfl rfl (fun _ => h.held i hne) h.dormant
      (fun _ => h.dormant hc.2.2) nofun h.unqueued h.kept nofun fun _ _ => trivial
  · cases ht
    refine h.sender_quiet halone hout rfl rfl rfl rfl rfl
      (fun _ => h.held i hne) h.dormant nofun nofun
      h.unqueued h.kept nofun fun hd hw => ?_
    -- Something waits and the sender would be the one to see to it, but it looks too early.
    obtain ⟨hm, hto⟩ := hnp (h.noted hd hw)
    have hstate : s.state ≠ THREAD_DORMANT := fun e => hc ⟨hm, hto, e⟩
    have hlate := hin (by rw [hi]; exact ⟨hm, hto⟩)
    have hdec := hd.resolve_right hstate
    cases hst : s.stage <;> simp_all [Stage.decided, Stage.inside]

theorem wake (h : Awake tr a s) (hi : s.send i = .waking) {t : State}
    (ht : step tr home s (.wake i) = .ok t) : Awake tr a t := by
  have hne : s.send i ≠ .idle := by simp [hi]
  obtain ⟨halone, hout⟩ := h.alone hne
  have hw := h.waking i (by simp [hi, SendStage.wakes])
  simp only [step, beginWake] at ht
  split_ifs at ht with hr hd
  · cases ht
    refine h.sender_quiet halone hout rfl rfl rfl rfl rfl
      (fun _ => h.held i hne) h.dormant nofun nofun
      h.unqueued h.kept nofun fun hd _ => ?_
    have hstate : s.state ≠ THREAD_DORMANT := hr ▸ by decide
    have hdec := hd.resolve_right hstate
    have hpast := hw.1
    cases hst : s.stage <;> simp_all [Stage.decided, Stage.past]
  · cases ht
    exact h.sender_quiet halone hout rfl rfl rfl rfl rfl (fun _ => h.held i hne) h.dormant
      (fun _ => hw) nofun h.unqueued h.kept nofun fun _ _ => trivial

theorem mark (h : Awake tr a s) (hi : s.send i = .marking) :
    Awake tr a { s.move i .queueing with state := THREAD_RUNNING } := by
  have hne : s.send i ≠ .idle := by simp [hi]
  obtain ⟨halone, hout⟩ := h.alone hne
  have hw := h.waking i (by simp [hi, SendStage.wakes])
  have hrun : THREAD_RUNNING ≠ THREAD_DORMANT := by decide
  refine h.sender_quiet halone hout rfl rfl rfl rfl rfl (fun _ => h.held i hne)
    (fun e => absurd e hrun) (fun _ => hw) (fun _ => hrun) h.unqueued h.kept nofun fun hd _ => ?_
  have hdec := hd.resolve_right hrun
  have hpast := hw.1
  cases hst : s.stage <;> simp_all [Stage.decided, Stage.past]

theorem place (h : Awake tr a s) (hi : s.send i = .queueing) (home : ℕ) :
    Awake tr a { s.move i .enlisting with cpu := home } := by
  have hne : s.send i ≠ .idle := by simp [hi]
  obtain ⟨halone, hout⟩ := h.alone hne
  have hw := h.waking i (by simp [hi, SendStage.wakes])
  have hm := h.marked i (by simp [hi, SendStage.marked])
  refine h.sender_quiet halone hout rfl rfl rfl rfl rfl (fun _ => h.held i hne) h.dormant
    (fun _ => hw) (fun _ => hm) h.unqueued h.kept nofun fun hd _ => ?_
  have hdec := hd.resolve_right hm
  have hpast := hw.1
  cases hst : s.stage <;> simp_all [Stage.decided, Stage.past]

theorem enlist (h : Awake tr a s) (hi : s.send i = .enlisting) (room : Bool) :
    Awake tr a { s.move i .leaving with queued := room } := by
  have hne : s.send i ≠ .idle := by simp [hi]
  obtain ⟨halone, hout⟩ := h.alone hne
  have hw := h.waking i (by simp [hi, SendStage.wakes])
  have hm := h.marked i (by simp [hi, SendStage.marked])
  refine h.sender_quiet halone hout rfl rfl rfl rfl rfl (fun _ => h.held i hne)
    (fun e => absurd e hm) nofun nofun (fun e => ?_) (fun e _ => absurd hw.1 e) nofun
    fun hd _ => ?_
  · simp [e, Stage.past] at hw
  · have hdec := hd.resolve_right hm
    have hpast := hw.1
    cases hst : s.stage <;> simp_all [Stage.decided, Stage.past]

theorem commitFor (h : Awake tr a s) (hi : s.send i = .leaving) :
    Awake tr a { s.move i .idle with writer := none } := by
  have hne : s.send i ≠ .idle := by simp [hi]
  obtain ⟨halone, hout⟩ := h.alone hne
  refine h.sender_quiet halone hout rfl rfl rfl rfl rfl
    (fun e => absurd rfl e) h.dormant nofun nofun
    h.unqueued h.kept nofun fun hd hw => ?_
  have := pending_of halone (h.noted hd hw)
  rw [hi] at this
  exact this.elim

/-- The step lemma. -/
theorem step (h : Awake tr a s) {m : Move} (hm : m.Enabled s) (hin : m.InTime tr s) {t : State}
    (ht : Dormancy.step tr home s m = .ok t) : Awake tr a t := by
  cases m with
  | checkout =>
    obtain ⟨hs, hw⟩ := hm
    cases ht
    have hidle : ∀ i, s.send i = .idle := by
      intro i
      by_contra hne
      cases hw.symm.trans (h.held i hne)
    exact h.advance (by simp [hs, Stage.past]) (by simp [hs]) (by simp [Stage.past]) (by simp)
      rfl rfl rfl rfl (fun i hi => absurd (hidle i) hi) (fun _ => rfl) nofun nofun
  | check => exact h.check hm ht
  | decline =>
    have hs : s.stage = .declining := hm
    have hw := h.inside (by simp [hs, Stage.inside])
    cases ht
    exact h.advance (by simp [hs, Stage.past]) (by simp [hs]) (by simp [Stage.past]) (by simp)
      rfl rfl rfl rfl (fun i hi => by cases hw.symm.trans (h.held i hi)) nofun nofun nofun
  | request => exact h.request hm ht
  | commit =>
    have hs : s.stage = .committing := hm
    have hw := h.inside (by simp [hs, Stage.inside])
    have hr := h.requested (by simp [hs, Stage.requested])
    have hn := h.noted (.inl (by simp [hs, Stage.decided]))
    cases ht
    exact h.advance (by simp [hs, Stage.past]) (by simp [hs]) (by simp [Stage.past]) (by simp)
      rfl rfl rfl rfl (fun i hi => by cases hw.symm.trans (h.held i hi)) nofun (fun _ => hr)
      fun _ => hn
  | unqueue => exact h.unqueue hm ht
  | writeState =>
    cases ht
    exact h.writeState hm
  | writeCpu =>
    have hs : s.stage = .stopped := hm
    cases ht
    exact h.late trivial rfl rfl rfl rfl rfl
  | clearRequest =>
    have hs : s.stage = .detached := hm
    cases ht
    exact h.late trivial rfl rfl rfl rfl rfl
  | resume =>
    cases ht
    exact h.resume hm.2
  | checkoutFor i parcel =>
    cases ht
    exact h.checkoutFor hm.2 i parcel
  | enqueue i =>
    obtain ⟨parcel, hi⟩ := hm
    exact h.enqueue hi ht
  | look i =>
    obtain ⟨p, hi⟩ := hm
    exact h.look hi hin ht
  | wake i => exact h.wake hm ht
  | mark i =>
    cases ht
    exact h.mark hm
  | place i =>
    obtain ⟨_, _, ht⟩ := bind_eq_ok.mp ht
    cases ht
    exact h.place hm home
  | enlist i room =>
    cases ht
    exact h.enlist hm.1 room
  | commitFor i =>
    cases ht
    exact h.commitFor hm

theorem init (h : Init tr a s) : Awake tr a s := by
  have hrun : s.state ≠ THREAD_DORMANT := h.running ▸ by decide
  have hst := h.stage
  have hidle := h.send
  exact ⟨h.sound, h.thread, h.owner, fun i hi => absurd (hidle i) hi,
    fun e => by simp [hst, Stage.inside] at e, fun e => absurd e hrun,
    fun i hi => by simp [hidle i, SendStage.wakes] at hi,
    fun i hi => by simp [hidle i, SendStage.marked] at hi, fun e => by simp [hst] at e,
    fun _ _ => h.queued, fun e => by simp [hst, Stage.requested] at e,
    fun i p hi => by simp [hidle i] at hi,
    fun e => by simp [hst, Stage.decided, hrun] at e⟩

theorem not_lost (h : Awake tr a s) : ¬ Lost tr a s :=
  fun ⟨hd, hw, hn⟩ => hn (h.noted (.inr hd) hw)

/-- A sender that looks between `commit_process` and the write of the state wakes nobody, and the
write leaves the receiver asleep with the sender's parcel waiting. -/
theorem lost_of_late (h : Awake tr a s) (home : ℕ) (hm : (Move.look i).Enabled s)
    (hlate : ¬ (Move.look i).InTime tr s) : ∃ ms t,
      (dormancySystem tr home a).Steps s (.look i :: ms) t ∧ Lost tr a t := by
  obtain ⟨p, hi⟩ := hm
  obtain ⟨hp, hst⟩ : (s.send i).pending s.proc tr ∧
      (s.stage = .yielding ∨ s.stage = .unqueued) := by
    simp only [Move.InTime, not_forall, not_and_or, not_not] at hlate
    exact ⟨hlate.1, hlate.2⟩
  have hearly : ¬ s.stage.past := by obtain e | e := hst <;> simp [e, Stage.past]
  have hne := (h.early hearly).1
  obtain ⟨hrt, hrs⟩ := h.requested (by obtain e | e := hst <;> simp [e, Stage.requested])
  obtain ⟨halone, _⟩ := h.alone (i := i) (by simp [hi])
  rw [hi] at hp
  obtain ⟨hflags, hto⟩ : portFlags s.proc p IPC_MASKED = 0 ∧ addressee s.proc p = some tr := hp
  have hwaits : Waits s.proc a :=
    ⟨p, List.mem_filter.mpr ⟨(h.owner p (open_of_portFlags hflags)).mpr hto, by simpa using hflags⟩,
      h.looked i p hi⟩
  have hlook : Dormancy.step tr home s (.look i) = .ok (s.move i .leaving) := by
    simp only [Dormancy.step, hi]
    rw [if_neg fun hc => hne hc.2.2]
  have hpos : (0 : ℤ) ≤ THREAD_DORMANT := by decide
  -- The state is written next, whether or not the gap in the run queue is closed already.
  have hlost : ∀ queued, Lost tr a { s.move i .leaving with
      queued := queued, state := s.requestingState, stage := .stopped } := by
    refine fun queued => ⟨hrs, hwaits, fun ⟨j, hj⟩ => ?_⟩
    by_cases hji : j = i
    · subst hji
      simp [State.move, SendStage.pending] at hj
    · simp [State.move, hji, halone j hji, SendStage.pending] at hj
  obtain hst | hst := hst
  · have hq := h.kept hearly (by simp [hst])
    have hunqueue : Dormancy.step tr home (s.move i .leaving) .unqueue =
        .ok { s.move i .leaving with queued := false, stage := .unqueued } := by
      simp [Dormancy.step, State.move, hrt, hrs, hpos, hq]
    refine ⟨[.unqueue, .writeState], _, .cons ⟨p, hi⟩ hlook (.cons hst hunqueue
      (.one (rfl : _ = Stage.unqueued) rfl)), hlost false⟩
  · exact ⟨[.writeState], _, .cons ⟨p, hi⟩ hlook (.one hst rfl), hlost _⟩

end Awake

/-- While every sender looks at the receiver in time, no state reached has lost a wake-up; and
from a state where one looks too late a state that has is reached. -/
theorem no_lost_wake_up (tr home : ℕ) (a : Thread) (s : State) (hs : Init tr a s)
    (ms : List Move) (t : State)
    (hr : ((dormancySystem tr home a).restrict fun s m => m.InTime tr s).Steps s ms t) :
    ¬ Lost tr a t ∧ ∀ i, (Move.look i).Enabled t → ¬ (Move.look i).InTime tr t →
      ∃ ms' u, (dormancySystem tr home a).Steps t (.look i :: ms') u ∧ Lost tr a u := by
  have ht : Awake tr a t := hr.invariant (P := Awake tr a)
    (fun s m _ h (hg : m.Enabled s ∧ m.InTime tr s) hst => h.step hg.1 hg.2 hst) (.init hs)
  exact ⟨ht.not_lost, fun i hm hlate => ht.lost_of_late home hm hlate⟩

/-- The owner of two idle ports runs on CPU 0. -/
def awake : State where
  proc := idlePorts
  state := THREAD_RUNNING
  duration := 0
  cpu := 0
  requestingState := -1
  requestingThread := false
  queued := true
  writer := none
  stage := .outside
  send _ := .idle

theorem awake_init : Init 1 receiver awake := by
  refine ⟨sound_idlePorts, rfl, fun p hp => ?_, rfl, rfl, rfl, rfl, rfl, fun _ => rfl⟩
  obtain ⟨⟨h₀, _⟩, htid⟩ := hp
  have hlt : p = 0 ∨ p = 1 := by
    by_contra hne
    refine htid ?_
    simp only [awake, Process.block, idlePorts]
    rw [if_neg (by omega)]
  rw [receiver_owned]
  obtain rfl | rfl := hlt
  · exact iff_of_true (by decide) (by decide)
  · exact iff_of_true (by decide) (by decide)

/-- A pulse comes after the receiver has released the lock and before its state is written. -/
def lateMoves : List Move :=
  [.checkout, .check, .request, .commit, .checkoutFor 0 (.pulse hello true), .enqueue 0, .look 0,
    .commitFor 0, .unqueue, .writeState, .writeCpu, .clearRequest]

theorem wake_up_lost : ∃ s, Init 1 receiver s ∧ ∃ t,
    (dormancySystem 1 0 receiver).Steps s lateMoves t ∧ Lost 1 receiver t := by
  have hr : (dormancySystem 1 0 receiver).Steps awake lateMoves _ :=
    .cons ⟨rfl, rfl⟩ rfl (.cons rfl rfl (.cons rfl rfl (.cons rfl rfl (.cons ⟨rfl, rfl⟩ rfl
      (.cons ⟨_, rfl⟩ rfl (.cons ⟨_, rfl⟩ rfl (.cons rfl rfl (.cons rfl rfl (.cons rfl rfl
        (.cons rfl rfl (.one rfl rfl)))))))))))
  refine ⟨awake, awake_init, _, hr, rfl, ⟨0, ?_, .inr ?_⟩, ?_⟩
  · decide
  · exact List.cons_ne_nil hello []
  · rintro ⟨j, hj⟩
    simp [State.move, awake, SendStage.pending] at hj

/-- The same pulse wakes the receiver when it comes a little later. -/
theorem no_lost_wake_up_example : ∃ t : State, t.stage = .outside ∧ t.state = THREAD_RUNNING ∧
    ¬ Lost 1 receiver t := by
  have hr : ((dormancySystem 1 0 receiver).restrict fun s m => m.InTime 1 s).Steps awake
      [.checkout, .check, .request, .commit, .unqueue, .writeState, .checkoutFor 0
        (.pulse hello true), .enqueue 0, .look 0, .wake 0, .mark 0, .writeCpu, .place 0,
        .clearRequest, .enlist 0 true, .commitFor 0, .resume] _ :=
    .cons ⟨⟨rfl, rfl⟩, trivial⟩ rfl (.cons ⟨rfl, trivial⟩ rfl (.cons ⟨rfl, trivial⟩ rfl
      (.cons ⟨rfl, trivial⟩ rfl (.cons ⟨rfl, trivial⟩ rfl (.cons ⟨rfl, trivial⟩ rfl
        (.cons ⟨⟨rfl, rfl⟩, trivial⟩ rfl (.cons ⟨⟨_, rfl⟩, trivial⟩ rfl
          (.cons ⟨⟨_, rfl⟩, fun _ => ⟨nofun, nofun⟩⟩ rfl (.cons ⟨rfl, trivial⟩ rfl
            (.cons ⟨rfl, trivial⟩ rfl (.cons ⟨rfl, trivial⟩ rfl (.cons ⟨rfl, trivial⟩ rfl
              (.cons ⟨rfl, trivial⟩ rfl (.cons ⟨⟨rfl, id⟩, trivial⟩ rfl
                (.cons ⟨rfl, trivial⟩ rfl (.one ⟨⟨rfl, rfl⟩, trivial⟩ rfl))))))))))))))))
  exact ⟨_, rfl, rfl, (no_lost_wake_up 1 0 receiver awake awake_init _ _ hr).1⟩

end Racoon.Dormancy
