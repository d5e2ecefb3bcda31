import Racoon.Lib.Ring
import Racoon.Lib.Run
import Racoon.Machine

/-!
# The queue of the garbage collector

`gc_queue`, `gc_has_work`, `gc_peek`, `gc_next` and the loop of `gc` in `gc.c`.
Each CPU has a ring of 32 entries and a collector thread. The functions run with
interrupts disabled, so that each is one step here; between the steps of a
collector anything may be queued, also while it destroys what it has peeked at.
A thread that queues stays on its CPU between the look at `CPUID` and the ring.
Each of these functions, and what the collector calls, gives the interrupt flag
back as it was; the flag matters for two assertions.
-/

namespace Racoon.GcQueue
open Lib

def MAX_CPU : ℕ := 8
def MAX_GC : ℤ := 32

structure GcInfo where
  pid : ℤ
  tid : ℤ
  deriving DecidableEq

structure Qdata where
  info : ℕ → GcInfo
  pos : ℤ
  size : ℤ

def loadGc (q : Qdata) : Qdata := { q with pos := 0, size := 0 }

def gcQueue (q : Qdata) (pid tid : ℤ) : Outcome (Qdata × ℤ) := do
  assert (0 ≤ q.pos)
  assert (0 ≤ q.size)
  if q.size ≠ MAX_GC then
    let newPos := (q.pos + q.size).tmod MAX_GC
    .ok (⟨Function.update q.info newPos.toNat ⟨pid, tid⟩, q.pos, q.size + 1⟩, 0)
  else .ok (q, -1)

/-- `enabled` is the interrupt flag at the call. -/
def gcHasWork (enabled : Bool) (q : Qdata) : Outcome ℤ := do
  assert (enabled = false)
  assert (0 ≤ q.pos)
  assert (0 ≤ q.size)
  .ok (if q.size = 0 then -1 else 0)

/-- `none` stands for the answer -1. -/
def gcPeek (q : Qdata) : Outcome (Option GcInfo) := do
  assert (0 ≤ q.pos)
  assert (0 ≤ q.size)
  .ok (if q.size ≠ 0 then some (q.info q.pos.toNat) else none)

def gcNext (q : Qdata) : Outcome Qdata := do
  assert (0 ≤ q.pos)
  assert (0 < q.size)
  .ok { q with pos := (q.pos + 1).tmod MAX_GC, size := q.size - 1 }

/-- What the collector is asked to destroy. -/
inductive Destruction
  | process (pid : ℤ)
  | thread (pid tid : ℤ)
  deriving DecidableEq

def GcInfo.destruction (i : GcInfo) : Destruction :=
  if i.tid < 0 then .process i.pid else .thread i.pid i.tid

/-- Where a collector is in a round of its loop. -/
inductive Stage
  | peek
  | destroy (i : GcInfo)
  | next

/-- One CPU, with what `gc_queue` has accepted there and the calls of `gc_do_process` and
`gc_do_thread`, in their order, and with the interrupt flag of the collector's thread. -/
structure Collector where
  qdata : Qdata
  stage : Stage
  accepted : List GcInfo
  destroyed : List Destruction
  interrupts : Bool

/-- A step of `gc`. Where there is nothing to do it yields and looks again. -/
def Collector.collect (c : Collector) : Outcome Collector :=
  match c.stage with
  | .peek => do
    assert (c.interrupts = true)
    match ← gcPeek c.qdata with
    | none => .ok c
    | some i => .ok { c with stage := .destroy i }
  | .destroy i => .ok { c with stage := .next, destroyed := c.destroyed ++ [i.destruction] }
  | .next => do
    let q ← gcNext c.qdata
    .ok { c with qdata := q, stage := .peek }

def Collector.queue (c : Collector) (pid tid : ℤ) : Outcome Collector := do
  let (q, rc) ← gcQueue c.qdata pid tid
  .ok { c with qdata := q, accepted := if rc = 0 then c.accepted ++ [⟨pid, tid⟩] else c.accepted }

inductive Event
  | queue (cpu : ℕ) (pid tid : ℤ)
  | collect (cpu : ℕ)
  deriving DecidableEq

def Event.cpu : Event → ℕ
  | .queue c _ _ => c
  | .collect c => c

def Event.exec (s : ℕ → Collector) : Event → Outcome (ℕ → Collector)
  | .queue c pid tid => do
    let k ← (s c).queue pid tid
    .ok (Function.update s c k)
  | .collect c => do
    let k ← (s c).collect
    .ok (Function.update s c k)

/-- Any order of calls and of the steps of the collectors, once `load_gc` has run on the CPUs. A
thread starts with interrupts enabled. -/
def queueSystem : System (ℕ → Collector) Event Fault where
  Init s := ∀ c, ∃ q, s c = ⟨loadGc q, .peek, [], [], true⟩
  Guard _ e := e.cpu < MAX_CPU
  step s e := e.exec s

/-- The entries of a ring, the oldest first. -/
def Qdata.entries (q : Qdata) : List GcInfo := ring q.info 32 q.pos.toNat q.size.toNat

/-- The entries that the collector has not destroyed yet. -/
def Collector.waiting (c : Collector) : List GcInfo :=
  match c.stage with
  | .next => c.qdata.entries.tail
  | _ => c.qdata.entries

/-- The steps of the collector until it has destroyed `n` objects, if it is not there yet. -/
def Collector.due (k : Collector) (n : ℕ) : ℕ :=
  3 * (n - k.destroyed.length) -
    match k.stage with
    | .next => 0
    | .peek => 1
    | .destroy _ => 2

/-- The state of one CPU: each object accepted is destroyed or waits, in the order of the calls. -/
structure Orderly (c : Collector) : Prop where
  pos : 0 ≤ c.qdata.pos ∧ c.qdata.pos < MAX_GC
  size : 0 ≤ c.qdata.size ∧ c.qdata.size ≤ MAX_GC
  order : c.accepted.map GcInfo.destruction =
    c.destroyed ++ c.waiting.map GcInfo.destruction
  destroy : ∀ i, c.stage = .destroy i → c.qdata.entries.head? = some i
  next : c.stage = .next → c.qdata.entries ≠ []
  interrupts : c.interrupts = true

section Ring
variable {q : Qdata}

theorem toNat_tmod {x : ℤ} (hx : 0 ≤ x) : (x.tmod MAX_GC).toNat = x.toNat % 32 := by
  rw [Int.tmod_eq_emod_of_nonneg hx]
  unfold MAX_GC
  omega

theorem length_entries (q : Qdata) : q.entries.length = q.size.toNat := length_ring ..

theorem entries_eq_nil_iff (hsize : 0 ≤ q.size) : q.entries = [] ↔ q.size = 0 := by
  rw [← List.length_eq_zero_iff, length_entries]
  omega

theorem gcQueue_full (hpos : 0 ≤ q.pos) (hfull : q.size = MAX_GC) (pid tid : ℤ) :
    gcQueue q pid tid = .ok (q, -1) := by
  have hsize : 0 ≤ q.size := by rw [hfull]; decide
  rw [gcQueue, assert_of hpos, ok_bind, assert_of hsize, ok_bind, if_neg (not_not.mpr hfull)]

theorem gcQueue_room (hpos : 0 ≤ q.pos) (hsize : 0 ≤ q.size) (hroom : q.size < MAX_GC)
    (pid tid : ℤ) : ∃ q', gcQueue q pid tid = .ok (q', 0) ∧ q'.pos = q.pos ∧
      q'.size = q.size + 1 ∧ q'.entries = q.entries ++ [⟨pid, tid⟩] := by
  refine ⟨⟨Function.update q.info ((q.pos + q.size).tmod MAX_GC).toNat ⟨pid, tid⟩, q.pos,
    q.size + 1⟩, ?_, rfl, rfl, ?_⟩
  · rw [gcQueue, assert_of hpos, ok_bind, assert_of hsize, ok_bind, if_pos hroom.ne]
  · have hplace : ((q.pos + q.size).tmod MAX_GC).toNat = (q.pos.toNat + q.size.toNat) % 32 := by
      rw [toNat_tmod (by omega), Int.toNat_add hpos hsize]
    have hcount : (q.size + 1).toNat = q.size.toNat + 1 := by omega
    have hlt : q.size.toNat < 32 := by
      unfold MAX_GC at hroom
      omega
    rw [Qdata.entries, hplace, hcount]
    exact ring_push q.info q.pos.toNat hlt ⟨pid, tid⟩

theorem entries_cons (hpos : 0 ≤ q.pos ∧ q.pos < MAX_GC) (hsize : 0 < q.size) :
    q.entries = q.info q.pos.toNat ::
      ring q.info 32 ((q.pos.toNat + 1) % 32) (q.size.toNat - 1) := by
  have hcount : q.size.toNat = q.size.toNat - 1 + 1 := by omega
  have hlt : q.pos.toNat < 32 := by
    unfold MAX_GC at hpos
    omega
  rw [Qdata.entries, hcount]
  exact ring_pop q.info hlt (q.size.toNat - 1)

theorem gcPeek_eq (hpos : 0 ≤ q.pos ∧ q.pos < MAX_GC) (hsize : 0 ≤ q.size) :
    gcPeek q = .ok q.entries.head? := by
  rw [gcPeek, assert_of hpos.1, ok_bind, assert_of hsize, ok_bind]
  by_cases hzero : q.size = 0
  · rw [if_neg (not_not.mpr hzero), (entries_eq_nil_iff hsize).mpr hzero]
    rfl
  · rw [if_pos hzero, entries_cons hpos (by omega)]
    rfl

theorem gcHasWork_eq (hpos : 0 ≤ q.pos) (hsize : 0 ≤ q.size) :
    gcHasWork false q = .ok (if q.entries = [] then -1 else 0) := by
  rw [gcHasWork, assert_of rfl, ok_bind, assert_of hpos, ok_bind, assert_of hsize, ok_bind]
  simp only [entries_eq_nil_iff hsize]

theorem gcNext_entries (hpos : 0 ≤ q.pos ∧ q.pos < MAX_GC) (hsize : 0 < q.size) :
    ∃ q', gcNext q = .ok q' ∧ (0 ≤ q'.pos ∧ q'.pos < MAX_GC) ∧ q'.size = q.size - 1 ∧
      q'.entries = q.entries.tail := by
  have hnext : ((q.pos + 1).tmod MAX_GC).toNat = (q.pos.toNat + 1) % 32 := by
    rw [toNat_tmod (by omega), Int.toNat_add hpos.1 (by decide)]
    rfl
  refine ⟨{ q with pos := (q.pos + 1).tmod MAX_GC, size := q.size - 1 }, ?_, ⟨?_, ?_⟩, rfl, ?_⟩
  · rw [gcNext, assert_of hpos.1, ok_bind, assert_of hsize, ok_bind]
  · exact Int.tmod_nonneg _ (by omega)
  · exact Int.tmod_lt_of_pos _ (by decide)
  · have hcount : (q.size - 1).toNat = q.size.toNat - 1 := by omega
    rw [entries_cons hpos hsize, List.tail_cons, Qdata.entries, hnext, hcount]

end Ring

namespace Orderly
variable {k : Collector}

theorem init (q : Qdata) : Orderly ⟨loadGc q, .peek, [], [], true⟩ where
  pos := ⟨le_rfl, (by decide : (0 : ℤ) < 32)⟩
  size := ⟨le_rfl, (by decide : (0 : ℤ) ≤ 32)⟩
  order := rfl
  destroy i hi := by cases hi
  next h := by cases h
  interrupts := rfl

/-- A new entry goes behind those that are there, so the collector still finds the one it is at. -/
theorem queue (h : Orderly k) (pid tid : ℤ) : ∃ k', k.queue pid tid = .ok k' ∧ Orderly k' ∧
    k'.stage = k.stage ∧ k'.destroyed = k.destroyed ∧
    k'.accepted = k.accepted ++ if k.qdata.size = MAX_GC then [] else [⟨pid, tid⟩] := by
  by_cases hfull : k.qdata.size = MAX_GC
  · refine ⟨k, ?_, h, rfl, rfl, ?_⟩
    · rw [Collector.queue, gcQueue_full h.pos.1 hfull, ok_bind]
      rfl
    · rw [if_pos hfull, List.append_nil]
  · have hroom : k.qdata.size < MAX_GC := lt_of_le_of_ne h.size.2 hfull
    obtain ⟨q', hq, hpos, hsize, hentries⟩ := gcQueue_room h.pos.1 h.size.1 hroom pid tid
    refine ⟨⟨q', k.stage, k.accepted ++ [⟨pid, tid⟩], k.destroyed, k.interrupts⟩, ?_, ?_,
      rfl, rfl, ?_⟩
    · rw [Collector.queue, hq, ok_bind]
      rfl
    · have hwait : Collector.waiting
          ⟨q', k.stage, k.accepted ++ [⟨pid, tid⟩], k.destroyed, k.interrupts⟩ =
            k.waiting ++ [⟨pid, tid⟩] := by
        unfold Collector.waiting
        cases hs : k.stage with
        | peek => exact hentries
        | destroy i => exact hentries
        | next =>
          dsimp only
          rw [hentries, List.tail_append_of_ne_nil (h.next hs)]
      refine ⟨hpos ▸ h.pos, ?_, ?_, fun i hi => ?_, fun hs => ?_, h.interrupts⟩
      · have := h.size.1
        rw [hsize]
        omega
      · rw [List.map_append, h.order, hwait, List.map_append, List.append_assoc]
      · rw [hentries, List.head?_append, h.destroy i hi]
        rfl
      · rw [hentries]
        exact List.append_ne_nil_of_left_ne_nil (h.next hs) _
    · rw [if_neg hfull]

theorem length_waiting (h : Orderly k) :
    k.accepted.length = k.destroyed.length + k.waiting.length := by
  have hlen := congrArg List.length h.order
  rwa [List.length_map, List.length_append, List.length_map] at hlen

theorem length_waiting_le (h : Orderly k) : k.waiting.length ≤ 32 := by
  have hle : k.qdata.entries.length ≤ 32 := by
    have := h.size
    rw [length_entries]
    unfold MAX_GC at this
    omega
  unfold Collector.waiting
  cases k.stage with
  | peek => exact hle
  | destroy i => exact hle
  | next => exact (List.length_tail ▸ Nat.sub_le _ _ : _ ≤ k.qdata.entries.length).trans hle

/-- A round of three steps destroys the entry that has waited longest. -/
theorem collect (h : Orderly k) : ∃ k', k.collect = .ok k' ∧ Orderly k' ∧
    k'.accepted = k.accepted ∧ k.destroyed <+: k'.destroyed ∧
    ∀ n ≤ k.accepted.length, k.destroyed.length < n →
      n ≤ k'.destroyed.length ∨ k'.due n + 1 ≤ k.due n := by
  cases hs : k.stage with
  | peek =>
    have hpeek := gcPeek_eq h.pos h.size.1
    cases he : k.qdata.entries with
    | nil =>
      refine ⟨k, ?_, h, rfl, List.prefix_rfl, fun n hn hlt => ?_⟩
      · rw [Collector.collect, hs]
        dsimp only
        rw [assert_of h.interrupts, ok_bind, hpeek, he, ok_bind]
        rfl
      · have hlen := h.length_waiting
        rw [Collector.waiting, hs] at hlen
        dsimp only at hlen
        rw [he, List.length_nil] at hlen
        omega
    | cons i rest =>
      refine ⟨{ k with stage := .destroy i }, ?_, ⟨h.pos, h.size, ?_, fun j hj => ?_, fun hn => ?_,
        h.interrupts⟩, rfl, List.prefix_rfl, fun n hn hlt => .inr ?_⟩
      · rw [Collector.collect, hs]
        dsimp only
        rw [assert_of h.interrupts, ok_bind, hpeek, he, ok_bind]
        rfl
      · have horder := h.order
        rwa [Collector.waiting, hs] at horder
      · cases hj
        rw [he, List.head?_cons]
      · cases hn
      · simp only [Collector.due, hs]
        omega
  | destroy i =>
    have hhead := h.destroy i hs
    obtain ⟨rest, he⟩ := List.head?_eq_some_iff.mp hhead
    refine ⟨{ k with stage := .next, destroyed := k.destroyed ++ [i.destruction] }, ?_,
      ⟨h.pos, h.size, ?_, fun j hj => ?_, fun _ => ?_, h.interrupts⟩, rfl,
      List.prefix_append _ _,
      fun n hn hlt => .inr ?_⟩
    · rw [Collector.collect, hs]
    · have horder := h.order
      rw [Collector.waiting, hs] at horder
      dsimp only at horder
      rw [horder, Collector.waiting]
      dsimp only
      rw [he, List.map_cons, List.tail_cons, List.append_assoc]
      rfl
    · cases hj
    · rw [he]
      exact List.cons_ne_nil i rest
    · simp only [Collector.due, hs, List.length_append, List.length_singleton]
      omega
  | next =>
    have hne := h.next hs
    have hsize : 0 < k.qdata.size := by
      have hnonneg := h.size.1
      rw [ne_eq, entries_eq_nil_iff hnonneg] at hne
      omega
    obtain ⟨q', hq, hpos, hsize', hentries⟩ := gcNext_entries h.pos hsize
    refine ⟨{ k with qdata := q', stage := .peek }, ?_,
      ⟨hpos, ?_, ?_, fun j hj => ?_, fun hn => ?_, h.interrupts⟩, rfl, List.prefix_rfl,
      fun n hn hlt => .inr ?_⟩
    · rw [Collector.collect, hs]
      dsimp only
      rw [hq, ok_bind]
    · have hle := h.size.2
      dsimp only
      rw [hsize']
      omega
    · have horder := h.order
      rw [Collector.waiting, hs] at horder
      rwa [Collector.waiting, hentries]
    · cases hj
    · cases hn
    · simp only [Collector.due, hs]
      omega

end Orderly

/-- One step of the system touches one CPU. -/
theorem step {s : ℕ → Collector} (h : ∀ c, Orderly (s c)) (e : Event) :
    ∃ t, e.exec s = .ok t ∧ ∀ c, Orderly (t c) := by
  cases e with
  | queue c pid tid =>
    obtain ⟨k, hk, hok, -⟩ := (h c).queue pid tid
    refine ⟨_, by rw [Event.exec, hk, ok_bind], fun c' => ?_⟩
    rw [Function.update_apply]
    split_ifs
    · exact hok
    · exact h c'
  | collect c =>
    obtain ⟨k, hk, hok, -⟩ := (h c).collect
    refine ⟨_, by rw [Event.exec, hk, ok_bind], fun c' => ?_⟩
    rw [Function.update_apply]
    split_ifs
    · exact hok
    · exact h c'

theorem orderly_of_reach {s : ℕ → Collector} (h : queueSystem.Reach s) (c : ℕ) :
    Orderly (s c) := by
  refine h.invariant (P := fun s => ∀ c, Orderly (s c)) (fun s hs c => ?_)
    (fun s e hs _ => step (s := s) hs e) c
  obtain ⟨q, hq⟩ := hs c
  rw [hq]
  exact .init q

/-- What holds of a CPU whenever it is looked at: the collector destroys in the order in which
objects were queued, `gc_has_work`, called with interrupts disabled, sees what is there, a call is
refused for 32 entries only, and nothing halts the kernel. -/
structure Collects (s : ℕ → Collector) (c : ℕ) : Prop where
  order : (s c).accepted.map GcInfo.destruction =
    (s c).destroyed ++ (s c).waiting.map GcInfo.destruction
  work : gcHasWork false (s c).qdata = .ok (if (s c).qdata.entries = [] then -1 else 0)
  queue : ∀ pid tid, ∃ t, queueSystem.step s (.queue c pid tid) = .ok t ∧
    (t c).accepted = (s c).accepted ++
      if (s c).qdata.entries.length = 32 then [] else [⟨pid, tid⟩]
  collect : ∃ t, queueSystem.step s (.collect c) = .ok t ∧ (t c).accepted = (s c).accepted

/-- Over every order of calls and collector steps, on each CPU: what has been destroyed is what
was accepted, in its order and once each, as far as the collector has come. -/
theorem collects_in_order {s : ℕ → Collector} (h : queueSystem.Reach s) (c : ℕ) :
    Collects s c := by
  have ho := orderly_of_reach h c
  refine ⟨ho.order, gcHasWork_eq ho.pos.1 ho.size.1, fun pid tid => ?_, ?_⟩
  · obtain ⟨k, hk, -, -, -, haccepted⟩ := ho.queue pid tid
    refine ⟨Function.update s c k, ?_, ?_⟩
    · change (Event.queue c pid tid).exec s = _
      rw [Event.exec, hk, ok_bind]
    · have hfull : (s c).qdata.size = MAX_GC ↔ (s c).qdata.entries.length = 32 := by
        have := ho.size.1
        rw [length_entries]
        unfold MAX_GC
        omega
      rw [Function.update_self, haccepted]
      simp only [hfull]
  · obtain ⟨k, hk, -, haccepted, -⟩ := ho.collect
    refine ⟨Function.update s c k, ?_, ?_⟩
    · change (Event.collect c).exec s = _
      rw [Event.exec, hk, ok_bind]
    · rw [Function.update_self, haccepted]

/-- What a step leaves of a CPU's lists, and how much nearer a destruction comes. -/
theorem nearer {s t : ℕ → Collector} {e : Event} {c n : ℕ} (h : Orderly (s c))
    (hn : n ≤ (s c).accepted.length) (hlt : (s c).destroyed.length < n) (ht : e.exec s = .ok t) :
    n ≤ (t c).destroyed.length ∨ n ≤ (t c).accepted.length ∧
      (t c).due n + (if e = .collect c then 1 else 0) ≤ (s c).due n := by
  cases e with
  | queue c' pid tid =>
    rw [if_neg (by simp)]
    obtain ⟨k, hk, ht⟩ := bind_eq_ok.mp ht
    cases ht
    by_cases hc : c = c'
    · subst hc
      obtain ⟨k', hk', -, hstage, hdestroyed, haccepted⟩ := h.queue pid tid
      rw [hk'] at hk
      cases hk
      rw [Function.update_self, haccepted, List.length_append]
      refine .inr ⟨by omega, ?_⟩
      rw [Collector.due, Collector.due, hstage, hdestroyed]
      exact le_rfl
    · rw [Function.update_of_ne hc]
      exact .inr ⟨hn, le_rfl⟩
  | collect c' =>
    obtain ⟨k, hk, ht⟩ := bind_eq_ok.mp ht
    cases ht
    by_cases hc : c = c'
    · subst hc
      obtain ⟨k', hk', -, haccepted, -, hdue⟩ := h.collect
      rw [hk'] at hk
      cases hk
      rw [Function.update_self, if_pos rfl]
      exact (hdue n hn hlt).imp_right fun hd => ⟨haccepted ▸ hn, hd⟩
    · rw [Function.update_of_ne hc, if_neg (by simpa using Ne.symm hc)]
      exact .inr ⟨hn, le_rfl⟩

/-- The CPUs after `load_gc`. -/
def loaded : ℕ → Collector := fun _ => ⟨loadGc ⟨fun _ => ⟨0, 0⟩, 0, 0⟩, .peek, [], [], true⟩

/-- Process 3 is to be destroyed, on CPU 0. -/
def oneQueued : ℕ → Collector := Function.update loaded 0
  ⟨⟨Function.update (fun _ => ⟨0, 0⟩) 0 ⟨3, -1⟩, 0, 1⟩, .peek, [⟨3, -1⟩], [], true⟩

theorem oneQueued_reach : queueSystem.Reach oneQueued :=
  (System.Reach.of_init fun _ => ⟨⟨fun _ => ⟨0, 0⟩, 0, 0⟩, rfl⟩ : queueSystem.Reach loaded).step
    (i := .queue 0 3 (-1)) (by decide : 0 < 8) rfl

theorem collects_in_order_oneQueued : Collects oneQueued 0 := collects_in_order oneQueued_reach 0

/-- What is accepted stays accepted, and what is destroyed stays so. -/
theorem grows {s t : ℕ → Collector} {es : List Event} (hs : ∀ c, Orderly (s c))
    (h : queueSystem.Steps s es t) (c : ℕ) : (∀ c, Orderly (t c)) ∧
    (s c).accepted <+: (t c).accepted ∧ (s c).destroyed <+: (t c).destroyed := by
  induction h with
  | nil => exact ⟨hs, List.prefix_rfl, List.prefix_rfl⟩
  | @snoc u v es e _ _ hv ih =>
    obtain ⟨ho, hacc, hdes⟩ := ih
    obtain ⟨v', hv', hov⟩ := step ho e
    cases hv'.symm.trans hv
    have hmono : (u c).accepted <+: (v c).accepted ∧ (u c).destroyed <+: (v c).destroyed := by
      cases e with
      | queue c' pid tid =>
        obtain ⟨k, hk, -, -, hd, ha⟩ := (ho c').queue pid tid
        rw [Event.exec, hk, ok_bind] at hv'
        cases hv'
        by_cases hc : c = c'
        · subst hc
          rw [Function.update_self, hd, ha]
          exact ⟨List.prefix_append _ _, List.prefix_rfl⟩
        · rw [Function.update_of_ne hc]
          exact ⟨List.prefix_rfl, List.prefix_rfl⟩
      | collect c' =>
        obtain ⟨k, hk, -, ha, hd, -⟩ := (ho c').collect
        rw [Event.exec, hk, ok_bind] at hv'
        cases hv'
        by_cases hc : c = c'
        · subst hc
          rw [Function.update_self, ha]
          exact ⟨List.prefix_rfl, hd⟩
        · rw [Function.update_of_ne hc]
          exact ⟨List.prefix_rfl, List.prefix_rfl⟩
    exact ⟨hov, hacc.trans hmono.1, hdes.trans hmono.2⟩

/-- However calls and the steps of other collectors come in between, 96 steps of a collector
destroy whatever its CPU has accepted before. -/
theorem accepted_is_destroyed {s t : ℕ → Collector} {es : List Event} {c : ℕ}
    (h : queueSystem.Reach s) (hr : queueSystem.Steps s es t) (hn : 96 ≤ es.count (.collect c)) :
    (s c).accepted.map GcInfo.destruction <+: (t c).destroyed := by
  set n := (s c).accepted.length with hndef
  have hs := orderly_of_reach h
  have hlong : n ≤ (t c).destroyed.length := by
    by_cases hlt : (s c).destroyed.length < n
    · have hdue : (s c).due n < es.countP (· == .collect c) := by
        have hlen := (hs c).length_waiting
        have hle := (hs c).length_waiting_le
        have hdue : (s c).due n ≤ 95 := by
          unfold Collector.due
          cases hst : (s c).stage with
          | peek => dsimp only; omega
          | destroy i => dsimp only; omega
          | next =>
            have hne := (hs c).next hst
            have hsize := (hs c).size.2
            unfold Collector.waiting at hlen
            rw [hst] at hlen
            dsimp only at hlen ⊢
            rw [List.length_tail, length_entries] at hlen
            unfold MAX_GC at hsize
            omega
        rw [List.count] at hn
        omega
      have hstep : ∀ u e v, ((∀ c, Orderly (u c)) ∧ n ≤ (u c).accepted.length ∧
          (u c).destroyed.length < n) → queueSystem.Guard u e → True →
          queueSystem.step u e = .ok v → n ≤ (v c).destroyed.length ∨
            ((∀ c, Orderly (v c)) ∧ n ≤ (v c).accepted.length ∧ (v c).destroyed.length < n) ∧
              (v c).due n + (if (e == .collect c) then 1 else 0) ≤ (u c).due n := by
        rintro u e v ⟨hou, hnu, hltu⟩ - - hv
        obtain ⟨v', hv', hov⟩ := step hou e
        cases hv'.symm.trans hv
        rcases nearer (hou c) hnu hltu hv with hdone | ⟨hacc, hle⟩
        · exact .inl hdone
        · by_cases hdone : n ≤ (v c).destroyed.length
          · exact .inl hdone
          · exact .inr ⟨⟨hov, hacc, not_le.mp hdone⟩, by simpa using hle⟩
      obtain ⟨js, u, ⟨rest, rfl⟩, hu, hG⟩ := hr.reaches hstep ⟨hs, le_rfl, hlt⟩
        (fun _ _ => trivial) hdue
      obtain ⟨u', hu', hut⟩ := hr.of_append
      obtain rfl := hu.unique hu'
      have hou := (grows hs hu c).1
      exact hG.trans (grows hou hut c).2.2.length_le
    · exact (not_lt.mp hlt).trans (grows hs hr c).2.2.length_le
  obtain ⟨hot, hacc, -⟩ := grows hs hr c
  have hdestroyed : (t c).destroyed <+: (t c).accepted.map GcInfo.destruction := by
    rw [(hot c).order]
    exact List.prefix_append _ _
  exact List.prefix_of_prefix_length_le (hacc.map GcInfo.destruction) hdestroyed
    (by rw [List.length_map]; exact hlong)

theorem accepted_is_destroyed_oneQueued :
    ∃ t, queueSystem.Steps oneQueued (List.replicate 96 (.collect 0)) t ∧
      [.process 3] <+: (t 0).destroyed := by
  have hkept : queueSystem.Preserves fun s => ∀ c, Orderly (s c) := fun s e hs _ => step hs e
  have hcpu : ∀ s, ∀ e ∈ List.replicate 96 (Event.collect 0), (∀ c, Orderly (s c)) →
      queueSystem.Guard s e := by
    intro s e he _
    rw [List.eq_of_mem_replicate he]
    exact (by decide : 0 < 8)
  obtain ⟨t, ht⟩ := hkept.steps (orderly_of_reach oneQueued_reach) hcpu
  have hn : 96 ≤ (List.replicate 96 (Event.collect 0)).count (.collect 0) := by
    rw [List.count_replicate_self]
  exact ⟨t, ht, accepted_is_destroyed (c := 0) oneQueued_reach ht hn⟩

end Racoon.GcQueue
