import Racoon.Ds.RwlockCalls
import Racoon.Env.EnvironmentRuns

/-!
# The list of processes

`process_get_list` of `processes/process.c` fills an array of at most `max` entries
with the name, the command line, the pid and the state of the first processes. The
command line is the variable `CMD_LINE`, which a process gets only after it has been
inserted and which it may remove; the callback takes it for granted, and it stops
after the entry that makes `done` equal to `max`.
-/

namespace Racoon.Listing
open Env Strings Lib RwLocks

def SMK_NAME_LENGTH : ℕ := 64
def SMK_CMDLINE_LENGTH : ℕ := 256
def READER : ℕ := 0
def WRITER : ℕ := 1

/-- `"CMD_LINE"` -/
def CMD_LINE : CString := fun i => [67, 77, 68, 95, 76, 73, 78, 69].getD i 0

/-- `struct process_information` -/
structure ProcessInformation where
  name : CString
  cmdline : Buffer
  pid : ℕ
  state : ℕ

/-- What is read of a `struct process`; the environment belongs to the pid. -/
structure Process where
  name : CString
  pid : ℕ
  state : ℕ

section Foreach
variable {σ : Type}

/-- The loop of `process_foreach` over the processes that are left. -/
def foreachFrom (callback : σ → Process → Outcome (ℤ × σ)) : List Process → ℤ → σ →
    Outcome (ℤ × σ)
  | [], ans, s => .ok (ans, s)
  | p :: ps, _, s => do
    let (ans, s) ← callback s p
    if ans ≠ 0 then .ok (ans, s) else foreachFrom callback ps ans s

def foreachAccess (flags : ℕ) (lock : Rwlock) : Outcome Rwlock :=
  if flags = READER then rwlockGetReadAccess lock
  else if flags = WRITER then rwlockGetWriteAccess lock
  else .ok lock

/-- `l_processLock` is `lock` and the list of `l_rootProcess` is `ps`. -/
def processForeach (callback : σ → Process → Outcome (ℤ × σ)) (flags : ℕ) (lock : Rwlock)
    (ps : List Process) (s : σ) : Outcome (ℤ × σ × Rwlock) := do
  let lock ← foreachAccess flags lock
  let (ans, s) ← foreachFrom callback ps 0 s
  .ok (ans, s, rwlockRelease lock)

end Foreach

/-- The variables that `internal_callback` shares with `process_get_list`. -/
structure Shared where
  done : ℕ
  list : ℕ → ProcessInformation

def internalCallback (env : State) (max : ℤ) (s : Shared) (p : Process) :
    Outcome (ℤ × Shared) := do
  let name := kstrncpy (s.list s.done).name p.name SMK_NAME_LENGTH
  let (rc, cmdline, _) ← getEnvironment env.mem (env.proc p.pid) CMD_LINE (s.list s.done).cmdline
    SMK_CMDLINE_LENGTH
  assert (0 ≤ rc)
  let list := Function.update s.list s.done ⟨name, cmdline, p.pid, p.state⟩
  if ((s.done + 1 : ℕ) : ℤ) = max then .ok (-1, ⟨s.done + 1, list⟩)
  else .ok (0, ⟨s.done + 1, list⟩)

def processGetList (env : State) (lock : Rwlock) (ps : List Process) (max : ℤ)
    (list : ℕ → ProcessInformation) : Outcome (ℕ × (ℕ → ProcessInformation) × Rwlock) := do
  let (_, s, lock) ← processForeach (internalCallback env max) WRITER lock ps ⟨0, list⟩
  .ok (s.done, s.list, lock)

/-! ### The environments that processes build -/

/-- A call of `set_environment` or `remove_environment` for the process `pid`. -/
inductive Change
  | set (pid : ℕ) (name : Option CString) (data : Option Buffer) (size : ℕ)
  | remove (pid : ℕ) (name : CString)

def Change.pid : Change → ℕ
  | .set pid _ _ _ => pid
  | .remove pid _ => pid

def Change.answer (env : State) (k : Kalloc) : Change → Outcome (ℤ × Env.Process × Memory)
  | .set pid name data size => setEnvironment k env.mem (env.proc pid) name data size
  | .remove pid name => removeEnvironment k env.mem (env.proc pid) name

/-- Any calls with any allocations granted or refused, from processes without variables on. -/
def changes : System State (Kalloc × Change) Fault where
  Init env := ∀ pid, env.proc pid = ⟨none, 0⟩
  Guard _ _ := True
  step env i := do
    let (_, proc, m) ← i.2.answer env i.1
    .ok ⟨m, Function.update env.proc i.2.pid proc⟩

theorem Change.answer_eq {env : State} {es : ℕ → List EnvironInfo} (h : Separate env es)
    (k : Kalloc) (c : Change) : ∃ rc proc m ds, c.answer env k = .ok (rc, proc, m) ∧
      Represents m proc ds ∧
      Frame env.mem m (owned (env.proc c.pid) (es c.pid)) (owned proc ds) := by
  cases c with
  | set pid name data size =>
    have hsame := h.represents pid
    have hframe := Frame.refl env.mem (owned (env.proc pid) (es pid))
    cases data with
    | none => exact ⟨_, _, _, _, rfl, hsame, hframe⟩
    | some data =>
      cases name with
      | none => exact ⟨_, _, _, _, rfl, hsame, hframe⟩
      | some name =>
        rcases Nat.eq_zero_or_pos size with h0 | hpos
        · exact ⟨_, _, _, _, by
            rw [answer, setEnvironment, setEnvironmentWith, if_pos h0], hsame, hframe⟩
        · obtain ⟨rc, proc, m, ds, ha, hset⟩ := setEnvironment_spec k hsame name data hpos
          exact ⟨rc, proc, m, ds, ha, hset.represents, hset.frame⟩
  | remove pid name =>
    obtain ⟨rc, proc, m, ds, ha, hs, -⟩ := removeEnvironment_spec k (h.represents pid) name
    exact ⟨rc, proc, m, ds, ha, hs.represents, hs.frame⟩

theorem separate_preserved : changes.Preserves fun env => ∃ es, Separate env es := by
  rintro env ⟨k, c⟩ ⟨es, h⟩ -
  obtain ⟨rc, proc, m, ds, ha, hR, hF⟩ := c.answer_eq h k
  refine ⟨_, ?_, _, h.change hR hF⟩
  change c.answer env k >>= _ = _
  rw [ha, ok_bind]

theorem separate_of_reach {env : State} (h : changes.Reach env) : ∃ es, Separate env es :=
  h.invariant (fun _ h₀ => ⟨_, .none h₀⟩) separate_preserved

/-! ### What is listed -/

/-- The variable `CMD_LINE` is set. -/
def HasCmdLine (env : State) (p : Process) : Prop :=
  ∃ n, getEnvironmentSize env.mem (env.proc p.pid) CMD_LINE 0 = .ok (SMK_OK, n)

/-- An entry tells what it should of a process; behind the command line the array is as before. -/
structure Describes (env : State) (p : Process) (before info : ProcessInformation) : Prop where
  name : info.name = kstrncpy before.name p.name SMK_NAME_LENGTH
  cmdline : ∃ n, getEnvironment env.mem (env.proc p.pid) CMD_LINE before.cmdline
    SMK_CMDLINE_LENGTH = .ok (SMK_OK, info.cmdline, n)
  pid : info.pid = p.pid
  state : info.state = p.state

/-- The call returns, no assertion fails, the first `max` entries are filled, as far as there are
processes, and no other one is written. -/
def ListsSafely (env : State) (lock : Rwlock) (ps : List Process) (max : ℤ) : Prop :=
  ∀ list, ∃ list' lock',
    processGetList env lock ps max list = .ok (min max.toNat ps.length, list', lock') ∧
    (∀ i : ℕ, (i : ℤ) < max → ∀ p, ps[i]? = some p → Describes env p (list i) (list' i)) ∧
    ∀ i : ℕ, max ≤ (i : ℤ) ∨ ps.length ≤ i → list' i = list i

section Callback
variable {env : State} {es : ℕ → List EnvironInfo}

theorem getEnvironment_cases (h : Separate env es) (p : Process) (data : Buffer) :
    (HasCmdLine env p ∧ ∃ cmdline n, getEnvironment env.mem (env.proc p.pid) CMD_LINE data
      SMK_CMDLINE_LENGTH = .ok (SMK_OK, cmdline, n)) ∨
    (¬ HasCmdLine env p ∧ getEnvironment env.mem (env.proc p.pid) CMD_LINE data
      SMK_CMDLINE_LENGTH = .ok (SMK_NOT_FOUND, data, SMK_CMDLINE_LENGTH)) := by
  obtain ⟨i, hi, ⟨e, room, d, hlt, he, hd, hroom, -⟩ | ⟨hlt, -⟩⟩ :=
    (h.represents p.pid).find_cases CMD_LINE
  · have hn : (if e.size > SMK_CMDLINE_LENGTH then SMK_CMDLINE_LENGTH else e.size) ≤ room := by
      split_ifs <;> omega
    refine .inl ⟨⟨e.size, ?_⟩, ?_⟩
    · rw [getEnvironmentSize, hi, ok_bind, if_pos hlt, he, ok_bind]
    · rw [getEnvironment, hi, ok_bind, if_pos hlt, he, ok_bind]
      dsimp only
      rw [bytesAt_eq hd hn, ok_bind]
      exact ⟨_, _, rfl⟩
  · refine .inr ⟨?_, ?_⟩
    · rintro ⟨n, hsize⟩
      rw [getEnvironmentSize, hi, ok_bind, if_neg hlt, Except.ok.injEq, Prod.mk.injEq] at hsize
      exact absurd hsize.1 (by decide)
    · rw [getEnvironment, hi, ok_bind, if_neg hlt]

/-- The callback fills the entry it has come to, or its assertion fails. -/
theorem internalCallback_eq (h : Separate env es) (max : ℤ) (s : Shared) (p : Process) :
    (HasCmdLine env p ∧ ∃ info, Describes env p (s.list s.done) info ∧
      internalCallback env max s p = .ok (if ((s.done + 1 : ℕ) : ℤ) = max then -1 else 0,
        ⟨s.done + 1, Function.update s.list s.done info⟩)) ∨
    (¬ HasCmdLine env p ∧ internalCallback env max s p = .error .assertion) := by
  rcases getEnvironment_cases h p (s.list s.done).cmdline with ⟨hp, cmdline, n, hget⟩ | ⟨hp, hget⟩
  · refine .inl ⟨hp, ⟨_, cmdline, p.pid, p.state⟩, ⟨rfl, ⟨n, hget⟩, rfl, rfl⟩, ?_⟩
    rw [internalCallback, hget, ok_bind]
    dsimp only
    rw [assert_of (by decide), ok_bind]
    split_ifs <;> rfl
  · refine .inr ⟨hp, ?_⟩
    rw [internalCallback, hget, ok_bind]
    rfl

/-- How many of `n` processes the callback sees when `done` entries are filled. -/
def seen (max : ℤ) (done n : ℕ) : ℕ :=
  if (done : ℤ) < max then min (max.toNat - done) n else n

theorem seen_last {max : ℤ} {done : ℕ} (h : ((done + 1 : ℕ) : ℤ) = max) (n : ℕ) :
    seen max done (n + 1) = 1 := by
  rw [seen, if_pos (by omega)]
  omega

theorem seen_succ {max : ℤ} {done : ℕ} (h : ((done + 1 : ℕ) : ℤ) ≠ max) (n : ℕ) :
    seen max done (n + 1) = seen max (done + 1) n + 1 := by
  rw [seen, seen]
  by_cases hd : (done : ℤ) < max
  · rw [if_pos hd, if_pos (by omega)]
    omega
  · rw [if_neg hd, if_neg (by omega)]

theorem foreachFrom_error (h : Separate env es) {max : ℤ} {ps : List Process} {ans : ℤ}
    {s : Shared} (hp : ∃ p ∈ ps.take (seen max s.done ps.length), ¬ HasCmdLine env p) :
    foreachFrom (internalCallback env max) ps ans s = .error .assertion := by
  induction ps generalizing ans s with
  | nil => simp at hp
  | cons q ps ih =>
    rw [foreachFrom]
    rcases internalCallback_eq h max s q with ⟨hq, info, -, hc⟩ | ⟨-, hc⟩
    · rw [hc, ok_bind]
      obtain ⟨p, hmem, hno⟩ := hp
      rw [List.length_cons] at hmem
      by_cases hlast : ((s.done + 1 : ℕ) : ℤ) = max
      · rw [seen_last hlast] at hmem
        obtain rfl : p = q := by simpa using hmem
        exact absurd hq hno
      · rw [seen_succ hlast, List.take_succ_cons, List.mem_cons] at hmem
        rw [if_neg hlast]
        refine ih ⟨p, hmem.resolve_left fun hpq => hno (hpq ▸ hq), hno⟩
    · rw [hc]
      rfl

/-- The loop fills one entry after the other. -/
theorem foreachFrom_ok (h : Separate env es) {max : ℤ} {ps : List Process} (ans : ℤ) (s : Shared)
    (hp : ∀ p ∈ ps.take (seen max s.done ps.length), HasCmdLine env p) :
    ∃ ans' list', foreachFrom (internalCallback env max) ps ans s =
        .ok (ans', ⟨s.done + seen max s.done ps.length, list'⟩) ∧
      (∀ i < seen max s.done ps.length, ∀ p, ps[i]? = some p →
        Describes env p (s.list (s.done + i)) (list' (s.done + i))) ∧
      ∀ i, i < s.done ∨ s.done + seen max s.done ps.length ≤ i → list' i = s.list i := by
  induction ps generalizing ans s with
  | nil =>
    have hseen : seen max s.done ([] : List Process).length = 0 := by
      rw [seen]
      split_ifs <;> simp
    refine ⟨ans, s.list, ?_, fun i hi => ?_, fun _ _ => rfl⟩
    · rw [hseen]
      rfl
    · rw [hseen] at hi
      omega
  | cons q ps ih =>
    rw [List.length_cons] at hp ⊢
    rcases internalCallback_eq h max s q with ⟨-, info, hinfo, hc⟩ | ⟨hno, -⟩
    · rw [foreachFrom, hc, ok_bind]
      by_cases hlast : ((s.done + 1 : ℕ) : ℤ) = max
      · rw [if_pos hlast, seen_last hlast]
        refine ⟨-1, _, rfl, fun i hi p hip => ?_, fun i hi => ?_⟩
        · obtain rfl : i = 0 := by omega
          cases hip
          simpa using hinfo
        · exact Function.update_of_ne (by omega) ..
      · rw [seen_succ hlast, List.take_succ_cons] at hp
        obtain ⟨ans', list', hrun, hfilled, hrest⟩ := ih 0
          ⟨s.done + 1, Function.update s.list s.done info⟩
          fun p hmem => hp p (List.mem_cons_of_mem q hmem)
        rw [if_neg hlast, seen_succ hlast]
        dsimp only at hrun hfilled hrest ⊢
        refine ⟨ans', list', ?_, fun i hi p hip => ?_, fun i hi => ?_⟩
        · rw [if_neg (by decide), hrun, Nat.add_assoc, Nat.add_comm 1]
        · cases i with
          | zero =>
            cases hip
            rw [Nat.add_zero, hrest _ (.inl (Nat.lt_succ_self _)), Function.update_self]
            exact hinfo
          | succ i =>
            have hfill := hfilled i (by omega) p hip
            rw [Function.update_of_ne (by omega)] at hfill
            rwa [Nat.add_comm i, ← Nat.add_assoc]
        · rw [hrest i (by omega), Function.update_of_ne (by omega)]
    · refine absurd (hp q ?_) hno
      by_cases hlast : ((s.done + 1 : ℕ) : ℤ) = max
      · rw [seen_last hlast]
        simp
      · rw [seen_succ hlast]
        simp

theorem processGetList_eq {lock : Rwlock} (hr : lock.numReaders = 0) (hw : lock.numWriters = 0)
    (ps : List Process) (max : ℤ) (list : ℕ → ProcessInformation) : ∃ lock',
    processGetList env lock ps max list = (do
      let (_, s) ← foreachFrom (internalCallback env max) ps 0 ⟨0, list⟩
      .ok (s.done, s.list, lock')) := by
  have hlock := rwlockGetWriteAccess_eq_ok.mpr ⟨⟨hr, hw⟩, rfl⟩
  refine ⟨rwlockRelease { lock with numWriters := 1 }, ?_⟩
  rw [processGetList, processForeach, foreachAccess, if_neg (by decide), if_pos rfl, hlock, ok_bind]
  cases foreachFrom (internalCallback env max) ps 0 ⟨0, list⟩ <;> rfl

end Callback

/-- The list is safe to ask for when there is nothing to list, or room for an entry and a `CMD_LINE`
in each of the processes that are listed. -/
theorem processGetList_safe_iff {env : State} (he : changes.Reach env) {lock : Rwlock}
    (hr : lock.numReaders = 0) (hw : lock.numWriters = 0) (ps : List Process) (max : ℤ) :
    ListsSafely env lock ps max ↔
      ps = [] ∨ 1 ≤ max ∧ ∀ p ∈ ps.take max.toNat, HasCmdLine env p := by
  obtain ⟨es, h⟩ := separate_of_reach he
  constructor
  · intro hsafe
    refine or_iff_not_imp_left.mpr fun hps => ?_
    have hlen : 0 < ps.length := List.length_pos_iff.mpr hps
    obtain ⟨list', lock', hcall, -⟩ := hsafe fun _ => ⟨fun _ => 0, fun _ => 0, 0, 0⟩
    obtain ⟨lock'', heq⟩ := processGetList_eq hr hw ps max
      fun _ : ℕ => (⟨fun _ => 0, fun _ => 0, 0, 0⟩ : ProcessInformation)
    have hall : ∀ p ∈ ps.take (seen max 0 ps.length), HasCmdLine env p := by
      intro p hp
      by_contra hno
      rw [heq, foreachFrom_error h ⟨p, hp, hno⟩] at hcall
      cases hcall
    obtain ⟨ans, list'', hrun, -⟩ := foreachFrom_ok h 0 ⟨0, _⟩ hall
    rw [heq, hrun, ok_bind, Except.ok.injEq, Prod.mk.injEq] at hcall
    have hdone := hcall.1
    dsimp only at hdone
    have hmax : 1 ≤ max := by
      by_contra hmax
      rw [seen, if_neg (by omega)] at hdone
      omega
    refine ⟨hmax, fun p hp => hall p ?_⟩
    rw [seen, if_pos (by omega), Nat.sub_zero]
    rwa [List.take_eq_take_min] at hp
  · rintro hgood list
    obtain ⟨lock', heq⟩ : ∃ lock', processGetList env lock ps max list = _ :=
      processGetList_eq hr hw ps max list
    have hseen : seen max 0 ps.length = min max.toNat ps.length := by
      rcases hgood with rfl | ⟨hmax, -⟩
      · simp [seen]
      · rw [seen, if_pos (by omega), Nat.sub_zero]
    have hall : ∀ p ∈ ps.take (seen max 0 ps.length), HasCmdLine env p := by
      intro p hp
      rcases hgood with rfl | ⟨-, hall⟩
      · simp at hp
      · rw [hseen, ← List.take_eq_take_min] at hp
        exact hall p hp
    obtain ⟨ans, list', hrun, hfilled, hrest⟩ := foreachFrom_ok h 0 ⟨0, list⟩ hall
    dsimp only at hrun hfilled hrest
    rw [hseen] at hrun hfilled hrest
    refine ⟨list', lock', ?_, fun i hi p hip => ?_, fun i hi => hrest i ?_⟩
    · rw [heq, hrun, ok_bind, Nat.zero_add]
    · have hlt : i < ps.length := (List.getElem?_eq_some_iff.mp hip).1
      simpa using hfilled i (by omega) p hip
    · omega

def freeLock : Rwlock := ⟨0, 0, 0, false⟩

/-- A process that has been inserted and has no variable yet. -/
def inserted : Process := ⟨nameA, 0, 0⟩

/-- With no room the first entry is written, and without `CMD_LINE` the assertion fails. -/
theorem inserted_not_listed : changes.Reach noVariables ∧
    (∀ list, processGetList noVariables freeLock [inserted] 1 list = .error .assertion) ∧
    ¬ ListsSafely noVariables freeLock [inserted] 1 := by
  have hcall : ∀ list, processGetList noVariables freeLock [inserted] 1 list = .error .assertion :=
    fun _ => rfl
  refine ⟨.of_init fun _ => rfl, hcall, fun hsafe => ?_⟩
  obtain ⟨list', lock', h, -⟩ := hsafe fun _ => ⟨fun _ => 0, fun _ => 0, 0, 0⟩
  rw [hcall] at h
  cases h

theorem inserted_listed_with_cmdline : ∃ env, changes.Reach env ∧
    ListsSafely env freeLock [inserted] 1 := by
  obtain ⟨rc, proc, m, es, ha, hset⟩ := setEnvironment_spec bump (.nil noBlocks) CMD_LINE
    dataSmk (by decide : 0 < 4)
  have hbelow : noBlocks.Below 0 := fun a B h => by cases h
  have hempty : Room 1036 noBlocks := ⟨rfl, 0, hbelow, by decide⟩
  have hroom : Room 0 m := (hempty.mono (by decide)).setEnvironment (by decide) ha
  have hreach : changes.Reach ⟨m, Function.update noVariables.proc 0 proc⟩ := by
    refine (System.Reach.of_init fun _ => rfl).step (s := noVariables)
      (i := (bump, .set 0 (some CMD_LINE) (some dataSmk) 4)) trivial ?_
    change setEnvironment bump noBlocks ⟨none, 0⟩ (some CMD_LINE) (some dataSmk) 4 >>= _ = _
    rw [ha, ok_bind]
    rfl
  refine ⟨_, hreach, (processGetList_safe_iff hreach rfl rfl _ _).mpr (.inr ⟨le_rfl, ?_⟩)⟩
  intro p hp
  obtain rfl : p = inserted := by simpa using hp
  obtain ⟨i, hi, ⟨e, room, d, hlt, he, -⟩ | ⟨-, hno⟩⟩ := hset.represents.find_cases CMD_LINE
  · refine ⟨e.size, ?_⟩
    change getEnvironmentSize m proc CMD_LINE 0 = _
    rw [getEnvironmentSize, hi, ok_bind, if_pos hlt, he, ok_bind]
  · rcases hset.result with ⟨-, hr⟩ | ⟨-, -, hv⟩
    · exact absurd (hr.symm.trans hroom.1) (by decide)
    · rw [hv, OrderedMap.get?_put, if_pos rfl] at hno
      cases hno

end Racoon.Listing
