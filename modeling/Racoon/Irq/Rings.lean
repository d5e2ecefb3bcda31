import Racoon.Irq.HookInvariant
import Racoon.Lib.Ring

/-!
# The rings of the CPUs

A handler thread that is to run stands in the ring of the CPU it prefers, as often
as it is to run. `fast_queue` puts it behind the others there and `fast_dequeue`
takes the first one off, so that the rings are the threads in the order in which
they were queued, each ring those of its own CPU. A ring of 32 slots has room for
31 of them.
-/

namespace Racoon.Irq
open Lib
variable {k u : Kernel} {ts ts' : List ℕ} {t : ℕ} {c : ℤ}

/-- The threads of a list that prefer a CPU. -/
def onCpu (k : Kernel) (c : ℤ) (ts : List ℕ) : List ℕ :=
  ts.filter fun t => (k.thread t).cpuAffinity = c

/-- The rings hold the threads of a list, in its order. -/
structure Rings (k : Kernel) (ts : List ℕ) : Prop where
  start : ∀ c, (k.sched c).fastStart < MAX_FAST
  room : ∀ c, (onCpu k c ts).length < MAX_FAST
  stop : ∀ c, (k.sched c).fastStop = ((k.sched c).fastStart + (onCpu k c ts).length) % MAX_FAST
  cells : ∀ c, ring (k.sched c).fastQueue MAX_FAST (k.sched c).fastStart (onCpu k c ts).length =
    onCpu k c ts
  queued : ∀ t, (k.thread t).fastQueued = ts.count t
  cpu : ∀ t ∈ ts, (k.thread t).cpu = (k.thread t).cpuAffinity

/-- Nothing but rings has changed, and what threads know of them. -/
structure OnlyRings (k u : Kernel) : Prop extends SameLines k u where
  cpuCount : u.cpuCount = k.cpuCount
  affinity : ∀ t, (u.thread t).cpuAffinity = (k.thread t).cpuAffinity

theorem onCpu_congr (h : ∀ t, (u.thread t).cpuAffinity = (k.thread t).cpuAffinity) (c : ℤ)
    (ts : List ℕ) : onCpu u c ts = onCpu k c ts :=
  List.filter_congr fun t _ => by rw [h]

theorem onCpu_append (k : Kernel) (c : ℤ) (ts ts' : List ℕ) :
    onCpu k c (ts ++ ts') = onCpu k c ts ++ onCpu k c ts' :=
  List.filter_append ts ts'

theorem onCpu_cons_self (k : Kernel) (t : ℕ) (ts : List ℕ) :
    onCpu k (k.thread t).cpuAffinity (t :: ts) = t :: onCpu k (k.thread t).cpuAffinity ts :=
  List.filter_cons_of_pos (by simp)

theorem onCpu_cons_ne (ts : List ℕ) (h : (k.thread t).cpuAffinity ≠ c) :
    onCpu k c (t :: ts) = onCpu k c ts :=
  List.filter_cons_of_neg (by simpa using h)

theorem onlyRings_setThread {tr : Thread} (hs : tr.state = (k.thread t).state)
    (hi : tr.irq = (k.thread t).irq) (ha : tr.cpuAffinity = (k.thread t).cpuAffinity) (id : ℤ)
    (si : SchedulerInfo) : OnlyRings k ((k.setThread t tr).setSched id si) where
  toSameLines := sameLines_setThread hs hi id si
  cpuCount := rfl
  affinity x := by
    by_cases hx : x = t
    · subst hx
      simpa [Kernel.setThread, Kernel.setSched] using ha
    · simp [Kernel.setThread, Kernel.setSched, hx]

namespace Rings

/-- Only the order on each CPU counts. -/
theorem of_onCpu (h : Rings k ts) (he : ∀ c, onCpu k c ts' = onCpu k c ts) : Rings k ts' := by
  have hcount : ∀ t, ts'.count t = ts.count t := fun t => by
    have hself : decide ((k.thread t).cpuAffinity = (k.thread t).cpuAffinity) = true := by simp
    rw [← List.count_filter (l := ts') (p := fun x => (k.thread x).cpuAffinity =
        (k.thread t).cpuAffinity) hself, ← List.count_filter (l := ts) (p := fun x =>
        (k.thread x).cpuAffinity = (k.thread t).cpuAffinity) hself]
    exact congrArg _ (he _)
  refine ⟨h.start, fun c => ?_, fun c => ?_, fun c => ?_, fun t => ?_, fun t ht => h.cpu t ?_⟩
  · rw [he]
    exact h.room c
  · rw [he]
    exact h.stop c
  · rw [he]
    exact h.cells c
  · rw [hcount]
    exact h.queued t
  · rw [← List.count_pos_iff, ← hcount, List.count_pos_iff]
    exact ht

theorem setHook (h : Rings k ts) (irq : ℤ) (hook : IrqHook) : Rings (k.setHook irq hook) ts :=
  ⟨h.start, h.room, h.stop, h.cells, h.queued, h.cpu⟩

/-- There is room exactly if the new end would not meet the start. -/
theorem room_iff (h : Rings k ts) (c : ℤ) :
    ((k.sched c).fastStop + 1) % MAX_FAST ≠ (k.sched c).fastStart ↔
      (onCpu k c ts).length + 1 < MAX_FAST := by
  have hstart := h.start c
  have hroom := h.room c
  rw [h.stop]
  unfold MAX_FAST at *
  omega

theorem nonempty_iff (h : Rings k ts) (c : ℤ) :
    (k.sched c).fastStart ≠ (k.sched c).fastStop ↔ onCpu k c ts ≠ [] := by
  have hstart := h.start c
  have hroom := h.room c
  rw [h.stop, ← List.length_pos_iff]
  unfold MAX_FAST at *
  omega

/-- The thread at the start of the ring is the first of its CPU. -/
theorem first (h : Rings k ts) {rest : List ℕ} (hc : onCpu k c ts = t :: rest) :
    (k.sched c).fastQueue (k.sched c).fastStart = t := by
  have hcells := h.cells c
  rw [hc, List.length_cons, ring_pop _ (h.start c)] at hcells
  exact (List.cons.inj hcells).1

theorem fastQueue (h : Rings k ts)
    (hid : 0 ≤ (k.thread t).cpuAffinity ∧ (k.thread t).cpuAffinity < k.cpuCount)
    (hroom : (onCpu k (k.thread t).cpuAffinity ts).length + 1 < MAX_FAST) :
    ∃ u, fastQueue k t = .ok u ∧ Rings u (ts ++ [t]) ∧ OnlyRings k u := by
  have hne := (h.room_iff _).mpr hroom
  rw [Irq.fastQueue]
  dsimp only
  rw [assert_of hid, ok_bind, assert_of hne, ok_bind]
  set id := (k.thread t).cpuAffinity with hset
  set tr : Thread := { k.thread t with cpu := id, fastQueued := (k.thread t).fastQueued + 1 }
    with htr
  have honly : OnlyRings k ((k.setThread t tr).setSched id
      ⟨Function.update (k.sched id).fastQueue (k.sched id).fastStop t, (k.sched id).fastStart,
        ((k.sched id).fastStop + 1) % MAX_FAST⟩) := by
    refine onlyRings_setThread ?_ ?_ ?_ _ _ <;> rfl
  refine ⟨_, rfl, ?_, honly⟩
  have hon := fun c => onCpu_congr honly.affinity c (ts ++ [t])
  have hself : onCpu k id (ts ++ [t]) = onCpu k id ts ++ [t] := by
    rw [onCpu_append, hset, onCpu_cons_self]
    rfl
  have hother : ∀ c, c ≠ id → onCpu k c (ts ++ [t]) = onCpu k c ts := fun c hc => by
    rw [onCpu_append, onCpu_cons_ne _ hc.symm]
    exact List.append_nil _
  constructor
  · intro c
    by_cases hc : c = id
    · subst hc
      simpa [Kernel.setSched] using h.start id
    · simpa [Kernel.setSched, Kernel.setThread, hc] using h.start c
  · intro c
    rw [hon]
    by_cases hc : c = id
    · rw [hc, hself, List.length_append]
      exact hroom
    · rw [hother c hc]
      exact h.room c
  · intro c
    rw [hon]
    by_cases hc : c = id
    · rw [hc, hself]
      simp only [Kernel.setSched, Function.update_self, List.length_append, List.length_singleton]
      rw [h.stop, Nat.mod_add_mod, Nat.add_assoc]
    · rw [hother c hc]
      simpa [Kernel.setSched, Kernel.setThread, hc] using h.stop c
  · intro c
    rw [hon]
    by_cases hc : c = id
    · rw [hc, hself]
      simp only [Kernel.setSched, Function.update_self, List.length_append, List.length_singleton]
      rw [h.stop, ring_push _ _ (h.room id), h.cells]
    · rw [hother c hc]
      simpa [Kernel.setSched, Kernel.setThread, hc] using h.cells c
  · intro x
    rw [List.count_append]
    by_cases hx : x = t
    · subst hx
      simp [Kernel.setSched, Kernel.setThread, htr, h.queued]
    · simp [Kernel.setSched, Kernel.setThread, hx, h.queued, Ne.symm hx]
  · intro x hx
    rw [honly.affinity]
    by_cases hxt : x = t
    · subst hxt
      simp [Kernel.setSched, Kernel.setThread, htr, hset]
    · have hmem : x ∈ ts := by simpa [hxt] using hx
      simpa [Kernel.setSched, Kernel.setThread, hxt] using h.cpu x hmem

/-- The run of the first thread takes its own entry off. -/
theorem fastDequeue (h : Rings k (t :: ts))
    (hid : 0 ≤ (k.thread t).cpuAffinity ∧ (k.thread t).cpuAffinity < k.cpuCount) :
    ∃ u, fastDequeue k (k.thread t).cpuAffinity t = .ok u ∧ Rings u ts ∧ OnlyRings k u := by
  have hcpu := h.cpu t (List.mem_cons_self ..)
  have hfirst := h.first (onCpu_cons_self k t ts)
  rw [Irq.fastDequeue]
  dsimp only
  rw [hcpu, assert_of hid, ok_bind, assert_of rfl, ok_bind, assert_of hfirst.symm, ok_bind]
  set id := (k.thread t).cpuAffinity with hset
  set tr : Thread := { k.thread t with
    cpu := if (k.thread t).fastQueued - 1 = 0 then -1 else id
    fastQueued := (k.thread t).fastQueued - 1 } with htr
  have honly : OnlyRings k ((k.setThread t tr).setSched id
      { k.sched id with fastStart := ((k.sched id).fastStart + 1) % MAX_FAST }) := by
    refine onlyRings_setThread ?_ ?_ ?_ _ _ <;> rfl
  have hqueued : (k.thread t).fastQueued - 1 = ts.count t := by
    rw [h.queued, List.count_cons_self]
    push_cast
    ring
  refine ⟨_, rfl, ?_, honly⟩
  have hon := fun c => onCpu_congr honly.affinity c ts
  have hself : onCpu k id (t :: ts) = t :: onCpu k id ts := onCpu_cons_self k t ts
  have hother : ∀ c, c ≠ id → onCpu k c (t :: ts) = onCpu k c ts := fun c hc =>
    onCpu_cons_ne _ hc.symm
  constructor
  · intro c
    by_cases hc : c = id
    · subst hc
      simpa [Kernel.setSched] using Nat.mod_lt _ (by decide : 0 < MAX_FAST)
    · simpa [Kernel.setSched, Kernel.setThread, hc] using h.start c
  · intro c
    have hroom := h.room c
    rw [hon]
    by_cases hc : c = id
    · rw [hc, hself, List.length_cons] at hroom
      rw [hc]
      omega
    · rwa [hother c hc] at hroom
  · intro c
    have hstop := h.stop c
    rw [hon]
    by_cases hc : c = id
    · rw [hc, hself, List.length_cons] at hstop
      rw [hc]
      simp only [Kernel.setSched, Function.update_self]
      change (k.sched id).fastStop = _
      rw [hstop, Nat.mod_add_mod, Nat.add_right_comm, Nat.add_assoc]
    · rw [hother c hc] at hstop
      simpa [Kernel.setSched, Kernel.setThread, hc] using hstop
  · intro c
    have hcells := h.cells c
    rw [hon]
    by_cases hc : c = id
    · rw [hc, hself, List.length_cons, ring_pop _ (h.start id)] at hcells
      rw [hc]
      simpa [Kernel.setSched, Kernel.setThread] using (List.cons.inj hcells).2
    · rw [hother c hc] at hcells
      simpa [Kernel.setSched, Kernel.setThread, hc] using hcells
  · intro x
    by_cases hx : x = t
    · subst hx
      simpa [Kernel.setSched, Kernel.setThread, htr] using hqueued
    · have hx' := h.queued x
      rw [List.count_cons_of_ne (Ne.symm hx)] at hx'
      simpa [Kernel.setSched, Kernel.setThread, hx] using hx'
  · intro x hx
    rw [honly.affinity]
    by_cases hxt : x = t
    · subst hxt
      have hpos := List.count_pos_iff.mpr hx
      have hne : (k.thread x).fastQueued - 1 ≠ 0 := by omega
      simp [Kernel.setSched, Kernel.setThread, htr, hset, hne]
    · simpa [Kernel.setSched, Kernel.setThread, hxt] using h.cpu x (List.mem_cons_of_mem _ hx)

end Rings
end Racoon.Irq
