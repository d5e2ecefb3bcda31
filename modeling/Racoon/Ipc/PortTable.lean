import Racoon.Ipc.Process
import Racoon.Lib.Run
import Mathlib.Data.List.GetD

/-!
# The port table and the ports of a thread

`create_port`, `release_port` and `release_thread_ports` of `ipc/ports.c`. Who
owns a port is stored twice: in the `tid` of its block and in the `ports[]` of
the owner, a list packed at the front. `PortTable` says that the two agree.

A `tid` of -1 marks a closed port, but `create_port` takes it as an argument
too. The look-up then compares names instead and finds a thread that has none:
the port is added to the thread's list and still counts as closed, and
`release_thread_ports` of that thread never ends. For a `tid` whose key comes near
the last `int` the look-up may halt the kernel.
-/

namespace Racoon.Ipc
open Lib HashTables

/-- The loop of `create_port` over `target->ports[]`. -/
def addPort (ports : ℕ → ℤ) (port : ℤ) : ℕ → ℤ :=
  let i := search (· = -1) ports 0 MAX_PORTS
  if i < MAX_PORTS then Function.update ports i port else ports

/-- The thread meant by `tid` in a call of the thread `tr`. -/
def Process.target (proc : Process) (tr : ℕ) (a : Thread) (tid : ℤ) : Outcome (Option ℕ) :=
  if a.tid = tid then .ok (some tr) else getThread proc tid

/-- `pulseRoom` and `messageRoom` say whether `aqueue_create` gets its memory. -/
def createPort (proc : Process) (tr : ℕ) (port tid : ℤ) (pulseRoom messageRoom : Bool) :
    Outcome (Process × ℤ) := do
  let a ← deref (proc.threads tr)
  if ¬ InRange port then .ok (proc, -1)
  else if (proc.block port).tid ≠ -1 then .ok (proc, -1)
  else do
    match ← proc.target tr a tid with
    | none => .ok (proc, -1)
    | some target =>
      if pulseRoom = false then
        .ok (proc.setBlock port { proc.block port with pulseQ := none }, -1)
      else if messageRoom = false then
        .ok (proc.setBlock port { proc.block port with pulseQ := none, messageQ := none }, -1)
      else do
        let proc := proc.setBlock port ⟨tid, 0, some [], some []⟩
        let b ← deref (proc.threads target)
        .ok (proc.setThread target { b with ports := addPort b.ports port }, 0)

/-- The shift loop of `release_port` with `left` entries to go. -/
def shiftOut (port : ℤ) : ℕ → ℕ → Bool → (ℕ → ℤ) → ℕ → ℤ
  | _, 0, _, ports => ports
  | i, left + 1, found, ports =>
    if ports i = -1 then ports
    else
      let hit := decide (ports i = port)
      let ports := if hit then Function.update ports i (-1) else ports
      let found := found || hit
      let next := if found = true ∧ i = MAX_PORTS - 1 then -1 else ports (i + found.toNat)
      shiftOut port (i + 1) left found (Function.update ports i next)

/-- Draining a port, taken to empty its queues: the data of the messages is freed, and the calls
of `drop_pulse` and `drop_message` leave the thread without hints. -/
def drain (proc : Process) (target : ℕ) (b : Thread) (port : ℤ) : Process :=
  let data := (held IpcBlock.messageQ proc port).map Message.data
  let heap := ⟨fun x => if x ∈ data then none else proc.heap.block x, proc.heap.freed ++ data⟩
  let proc := { proc with heap := heap }
  let proc := proc.setBlock port { proc.block port with
    pulseQ := (proc.block port).pulseQ.map fun _ => []
    messageQ := (proc.block port).messageQ.map fun _ => [] }
  proc.setThread target { b with lastPortPulse := -1, lastPortMessage := -1 }

/-- `aqueue_destroy` of both queues and the fields of a closed port. -/
def closePort (proc : Process) (port : ℤ) : Outcome Process := do
  let _ ← deref (proc.block port).pulseQ
  let _ ← deref (proc.block port).messageQ
  .ok (proc.setBlock port ⟨-1, 0, none, none⟩)

def releasePort (proc : Process) (tr : ℕ) (port : ℤ) : Outcome (Process × ℤ) := do
  let a ← deref (proc.threads tr)
  if ¬ InRange port then .ok (proc, -1)
  else if (proc.block port).tid = -1 then .ok (proc, -1)
  else do
    match ← proc.target tr a (proc.block port).tid with
    | none => do
      let proc ← closePort proc port
      .ok (proc, 0)
    | some target => do
      let b ← deref (proc.threads target)
      let proc ← closePort (drain proc target b port) port
      let b ← deref (proc.threads target)
      .ok (proc.setThread target { b with ports := shiftOut port 0 MAX_PORTS false b.ports }, 0)

/-- The loop of `release_thread_ports`. -/
def releaseLoop : ℕ → Process → ℕ → ℕ → Outcome (Process × ℕ)
  | 0, _, _, _ => .error .diverges
  | rounds + 1, proc, tr, count => do
    let a ← deref (proc.threads tr)
    if a.ports 0 = -1 then .ok (proc, count)
    else do
      let (proc, _) ← releasePort proc tr (a.ports 0)
      releaseLoop rounds proc tr (count + 1)

def releaseThreadPorts (proc : Process) (tr : ℕ) : Outcome (Process × ℕ) :=
  releaseLoop (MAX_PORTS + 1) proc tr 0

/-- `owned` is packed at the front of `ports[]` and followed by -1 only. -/
def Packed (ports : ℕ → ℤ) (owned : List ℤ) : Prop := ∀ i, ports i = owned.getD i (-1)

/-- Some slot that the probes for the `tid` come to, before any position is negative, holds `t`. -/
def Filed (table : HashTable (Option ℕ)) (tid : ℤ) (t : ℕ) : Prop :=
  table.total ≠ 0 ∧ ∃ i < table.size,
    (∀ j ≤ i, 0 ≤ position (magnitude (threadsKey tid)) table.size j) ∧
    table.table (position (magnitude (threadsKey tid)) table.size i).toNat = some (some t)

/-- The threads of a process have different `tid`s, none of them -1, and the hash table holds
them all and nothing else. -/
structure Threads (proc : Process) : Prop where
  distinct : ∀ t u a b, proc.threads t = some a → proc.threads u = some b → a.tid = b.tid → t = u
  tid_ne : ∀ t a, proc.threads t = some a → a.tid ≠ -1
  filed : ∀ t a, proc.threads t = some a → Filed proc.threadsHtable a.tid t
  stored : ∀ i < proc.threadsHtable.size, ∀ x, proc.threadsHtable.table i = some x →
    ∃ t, x = some t ∧ proc.threads t ≠ none

/-- `ports[]` of a thread lists the ports whose block names it. -/
def Lists (proc : Process) (a : Thread) (owned : List ℤ) : Prop :=
  Packed a.ports owned ∧ owned.Nodup ∧ ∀ p, p ∈ owned ↔ InRange p ∧ (proc.block p).tid = a.tid

/-- Each list is as it should be; a closed port has no queue, and an open port both, and a thread
that owns it. -/
structure PortTable (proc : Process) : Prop where
  lists : ∀ t a, proc.threads t = some a → ∃ owned, Lists proc a owned
  closed : ∀ p, InRange p → (proc.block p).tid = -1 →
    (proc.block p).pulseQ = none ∧ (proc.block p).messageQ = none
  opened : ∀ p, InRange p → (proc.block p).tid ≠ -1 →
    (proc.block p).pulseQ ≠ none ∧ (proc.block p).messageQ ≠ none
  owned : ∀ p, InRange p → (proc.block p).tid ≠ -1 →
    ∃ t a, proc.threads t = some a ∧ a.tid = (proc.block p).tid

section Arrays
variable {ports : ℕ → ℤ} {owned : List ℤ}

theorem length_le_of_inRange (hn : owned.Nodup) (hr : ∀ p ∈ owned, InRange p) :
    owned.length ≤ MAX_PORTS := by
  rw [← List.toFinset_card_of_nodup hn]
  refine (Finset.card_le_card (t := Finset.Ico (0 : ℤ) MAX_PORTS) fun p hp => ?_).trans (by simp)
  exact Finset.mem_Ico.mpr (hr p (List.mem_toFinset.mp hp))

theorem Packed.addPort (h : Packed ports owned) (ho : ∀ p ∈ owned, p ≠ -1)
    (hl : owned.length < MAX_PORTS) (port : ℤ) :
    Packed (addPort ports port) (owned ++ [port]) := by
  have hi : search (· = -1) ports 0 MAX_PORTS = owned.length := by
    rw [search_eq_findIdx, List.findIdx_eq (by simpa using hl)]
    refine ⟨?_, fun j hj => ?_⟩
    · simp [taken, h owned.length]
    · have : ports j ∈ owned := by
        rw [h j, List.getD_eq_getElem _ _ hj]
        exact List.getElem_mem hj
      simpa [taken] using ho _ this
  intro i
  rw [Ipc.addPort]
  simp only [hi, if_pos hl]
  rcases lt_trichotomy i owned.length with hlt | rfl | hgt
  · rw [Function.update_of_ne hlt.ne, List.getD_append _ _ _ _ hlt, h i]
  · rw [Function.update_self, List.getD_append_right _ _ _ _ le_rfl, Nat.sub_self]
    rfl
  · rw [Function.update_of_ne hgt.ne', h i, List.getD_eq_default _ _ hgt.le,
      List.getD_eq_default _ _ (by simpa using hgt)]

/-- Cells from `i` on hold `rest`, packed. -/
def PackedFrom (ports : ℕ → ℤ) (i : ℕ) (rest : List ℤ) : Prop :=
  ∀ k, ports (i + k) = rest.getD k (-1)

theorem PackedFrom.tail {i : ℕ} {x : ℤ} {rest : List ℤ} (h : PackedFrom ports i (x :: rest)) :
    PackedFrom ports (i + 1) rest := by
  intro k
  have := h (k + 1)
  rwa [List.getD_cons_succ, Nat.add_comm k 1, ← Nat.add_assoc] at this

theorem PackedFrom.update {i : ℕ} {rest : List ℤ} (h : PackedFrom ports (i + 1) rest) (x : ℤ) :
    PackedFrom (Function.update ports i x) (i + 1) rest := by
  intro k
  rw [Function.update_of_ne (by omega)]
  exact h k

theorem packedFrom_cons {i : ℕ} {x : ℤ} {rest : List ℤ} (hx : ports i = x)
    (h : PackedFrom ports (i + 1) rest) : PackedFrom ports i (x :: rest) := by
  intro k
  cases k with
  | zero => simpa using hx
  | succ k => rw [List.getD_cons_succ, ← h k, Nat.add_right_comm, Nat.add_assoc]

/-- What a cell gets once the port was found: the next one, -1 after the last. -/
theorem PackedFrom.next {i : ℕ} {rest : List ℤ} (h : PackedFrom ports (i + 1) rest)
    (hl : i + 1 + rest.length ≤ MAX_PORTS) :
    (if i = MAX_PORTS - 1 then -1 else ports (i + 1)) = rest.getD 0 (-1) := by
  split_ifs with hi
  · have : rest.length = 0 := by
      have : MAX_PORTS = 1024 := rfl
      omega
    rw [List.length_eq_zero_iff.mp this, List.getD_nil]
  · exact h 0

/-- Once the port was found the loop moves each entry down by one. By induction on what is left. -/
theorem shiftOut_found (port : ℤ) : ∀ (rest : List ℤ) (i left : ℕ) (ports : ℕ → ℤ),
    i + left = MAX_PORTS → rest.length ≤ left → (∀ p ∈ rest, p ≠ -1) → PackedFrom ports i rest →
    PackedFrom (shiftOut port i left true ports) i rest.tail ∧
      ∀ j < i, shiftOut port i left true ports j = ports j := by
  intro rest
  induction rest with
  | nil =>
    intro i left ports hi _ _ h
    have hz : ports i = -1 := h 0
    cases left with
    | zero => exact ⟨h, fun _ _ => rfl⟩
    | succ left =>
      rw [shiftOut, if_pos hz]
      exact ⟨h, fun _ _ => rfl⟩
  | cons x rest ih =>
    intro i left ports hi hl hne h
    obtain ⟨left, rfl⟩ : ∃ n, left = n + 1 := ⟨left - 1, by rw [List.length_cons] at hl; omega⟩
    rw [List.length_cons] at hl
    have hx : ports i = x := h 0
    have hnz : ports i ≠ -1 := hx ▸ hne x List.mem_cons_self
    -- The mark for the port itself is overwritten at once.
    have hstep : shiftOut port i (left + 1) true ports = shiftOut port (i + 1) left true
        (Function.update ports i (rest.getD 0 (-1))) := by
      have hn := h.tail.next (by omega)
      rw [shiftOut, if_neg hnz]
      by_cases hp : ports i = port
      · have hm : Function.update ports i (-1) (i + 1) = ports (i + 1) :=
          Function.update_of_ne (by omega) _ _
        simp only [hp, decide_true, if_true, Bool.or_self, Bool.toNat_true, hm, true_and, hn,
          Function.update_idem]
      · simp only [hp, decide_false, Bool.false_eq_true, if_false, Bool.or_false, Bool.toNat_true,
          true_and, hn]
    obtain ⟨hp, hj⟩ := ih (i + 1) left (Function.update ports i (rest.getD 0 (-1))) (by omega)
      (by omega) (fun p hp => hne p (List.mem_cons_of_mem _ hp)) (h.tail.update _)
    rw [hstep]
    refine ⟨?_, fun j hji => ?_⟩
    · have hi : shiftOut port (i + 1) left true
          (Function.update ports i (rest.getD 0 (-1))) i = rest.getD 0 (-1) := by
        rw [hj i (by omega), Function.update_self]
      cases rest with
      | nil =>
        intro k
        cases k with
        | zero => exact hi
        | succ k =>
          have := hp k
          rwa [Nat.add_right_comm, Nat.add_assoc] at this
      | cons y rest => exact packedFrom_cons hi hp
    · rw [hj j (by omega), Function.update_of_ne hji.ne]

/-- The shift loop takes the port out of the list. By induction on what is left of it. -/
theorem shiftOut_eq (port : ℤ) : ∀ (rest : List ℤ) (i left : ℕ) (ports : ℕ → ℤ),
    i + left = MAX_PORTS → rest.length ≤ left → (∀ p ∈ rest, p ≠ -1) → PackedFrom ports i rest →
    PackedFrom (shiftOut port i left false ports) i (rest.erase port) ∧
      ∀ j < i, shiftOut port i left false ports j = ports j := by
  intro rest
  induction rest with
  | nil =>
    intro i left ports hi _ _ h
    have hz : ports i = -1 := h 0
    cases left with
    | zero => exact ⟨h, fun _ _ => rfl⟩
    | succ left =>
      rw [shiftOut, if_pos hz]
      exact ⟨h, fun _ _ => rfl⟩
  | cons x rest ih =>
    intro i left ports hi hl hne h
    obtain ⟨left, rfl⟩ : ∃ n, left = n + 1 := ⟨left - 1, by rw [List.length_cons] at hl; omega⟩
    have hx : ports i = x := h 0
    have hnz : ports i ≠ -1 := hx ▸ hne x List.mem_cons_self
    by_cases hp : x = port
    · -- The round that finds the port does what the rounds after it do.
      have hsame : shiftOut port i (left + 1) false ports =
          shiftOut port i (left + 1) true ports := by
        rw [shiftOut, shiftOut]
        simp only [hx.trans hp, decide_true, Bool.or_true]
      rw [hsame, hp, List.erase_cons_head]
      exact shiftOut_found port (x :: rest) i (left + 1) ports hi hl hne h
    · have hstep : shiftOut port i (left + 1) false ports =
          shiftOut port (i + 1) left false ports := by
        have hpi : ports i ≠ port := hx ▸ hp
        rw [shiftOut, if_neg hnz]
        simp only [hpi, decide_false, Bool.false_eq_true, if_false, Bool.or_self, false_and,
          Bool.toNat_false, Nat.add_zero, Function.update_eq_self]
      obtain ⟨hpk, hj⟩ := ih (i + 1) left ports (by omega) (by rw [List.length_cons] at hl; omega)
        (fun p hp => hne p (List.mem_cons_of_mem _ hp)) h.tail
      rw [hstep, List.erase_cons_tail (by simpa using hp)]
      exact ⟨packedFrom_cons ((hj i (by omega)).trans hx) hpk, fun j hji => hj j (by omega)⟩

theorem packed_iff : Packed ports owned ↔ PackedFrom ports 0 owned := by
  simp only [Packed, PackedFrom, Nat.zero_add]

theorem Packed.shiftOut (h : Packed ports owned) (ho : ∀ p ∈ owned, p ≠ -1)
    (hl : owned.length ≤ MAX_PORTS) (port : ℤ) :
    Packed (shiftOut port 0 MAX_PORTS false ports) (owned.erase port) :=
  packed_iff.mpr (shiftOut_eq port owned 0 MAX_PORTS ports (Nat.zero_add _) hl ho
    (packed_iff.mp h)).1

end Arrays

section Table
variable {proc : Process} {port : ℤ} {t : ℕ} {a : Thread}

theorem Lists.ne {owned : List ℤ} (h : Lists proc a owned) : ∀ p ∈ owned, p ≠ -1 := by
  intro p hp
  have := ((h.2.2 p).mp hp).1.1
  omega

theorem Lists.length_le {owned : List ℤ} (h : Lists proc a owned) : owned.length ≤ MAX_PORTS :=
  length_le_of_inRange h.2.1 fun p hp => ((h.2.2 p).mp hp).1

theorem Threads.congr {proc' : Process} (h : Threads proc)
    (hp : proc'.threadsHtable = proc.threadsHtable)
    (ht : ∀ t, (proc'.threads t).map (·.tid) = (proc.threads t).map (·.tid)) : Threads proc' := by
  have hof : ∀ t a, proc'.threads t = some a → ∃ b, proc.threads t = some b ∧ b.tid = a.tid := by
    intro t a ha
    have := ht t
    rw [ha, Option.map_some] at this
    exact Option.map_eq_some_iff.mp this.symm
  refine ⟨fun t u a b ha hb he => ?_, fun t a ha => ?_, fun t a ha => ?_, fun i hi x hx => ?_⟩
  · obtain ⟨a', ha', hae⟩ := hof t a ha
    obtain ⟨b', hb', hbe⟩ := hof u b hb
    exact h.distinct t u a' b' ha' hb' (hae.trans (he.trans hbe.symm))
  · obtain ⟨a', ha', hae⟩ := hof t a ha
    exact hae ▸ h.tid_ne t a' ha'
  · obtain ⟨a', ha', hae⟩ := hof t a ha
    exact hp ▸ hae ▸ h.filed t a' ha'
  · rw [hp] at hi hx
    obtain ⟨t, rfl, hne⟩ := h.stored i hi x hx
    refine ⟨t, rfl, fun hnone => hne ?_⟩
    have := ht t
    rwa [hnone, Option.map_none, eq_comm, Option.map_eq_none_iff] at this

theorem Threads.update {proc' : Process} {b b' : Thread} (h : Threads proc)
    (hp : proc'.threadsHtable = proc.threadsHtable) (hb : proc.threads t = some b)
    (htid : b'.tid = b.tid)
    (ht : proc'.threads = Function.update proc.threads t (some b')) : Threads proc' := by
  refine h.congr hp fun u => ?_
  rw [ht]
  by_cases hu : u = t
  · subst hu
    rw [Function.update_self, hb, Option.map_some, Option.map_some, htid]
  · rw [Function.update_of_ne hu]

/-- A look-up for the `tid` of a thread ends, whatever the `tid`. -/
theorem getThread_spec (h : Threads proc) {tid : ℤ} (htid : tid ≠ -1) :
    (∀ t, getThread proc tid = .ok (some t) → ∃ b, proc.threads t = some b ∧ b.tid = tid) ∧
    (∀ t b, proc.threads t = some b → b.tid = tid → getThread proc tid = .ok (some t)) := by
  have hcmp : ∀ b : Thread, threadsCompare b.toThreadKey ⟨fun _ => 0, tid⟩ = 0 ↔ b.tid = tid :=
    fun b => threadsCompare_eq_zero htid
  refine ⟨fun t ht => ?_, fun t b hb hbt => ?_⟩
  · obtain ⟨b, hb, hc⟩ := getThread_found ht
    exact ⟨b, hb, (hcmp b).mp hc⟩
  · obtain ⟨hz, i, hi, hpos, hslot⟩ := h.filed t b hb
    rw [hbt] at hpos hslot
    obtain ⟨e, he⟩ : ∃ e, htableRetrieve (proc.htable ⟨fun _ => 0, tid⟩) none = .ok (some e) := by
      refine retrieve_finds hz hi (fun j hj => ?_) ?_ ((htable_compare proc _ hb).trans
        ((hcmp b).mpr hbt))
      · rw [htable_keyOf_none]
        exact hpos j hj
      · rw [htable_keyOf_none]
        exact hslot
    obtain ⟨p, hp, hpe, hc⟩ := retrieve_eq_some he
    obtain ⟨u, rfl, hu⟩ := h.stored p hp e hpe
    obtain ⟨c, hcu⟩ := Option.ne_none_iff_exists'.mp hu
    rw [htable_compare proc _ hcu, hcmp c] at hc
    have hut : u = t := h.distinct u t c b hcu hb (hc.trans hbt.symm)
    rw [getThread, he, ok_bind]
    dsimp only [Option.join_some]
    rw [hcu, deref_some, ok_bind, hut]

theorem target_spec (h : Threads proc) {tr : ℕ} (ha : proc.threads tr = some a) {tid : ℤ}
    (htid : tid ≠ -1) :
    (∀ t, proc.target tr a tid = .ok (some t) → ∃ b, proc.threads t = some b ∧ b.tid = tid) ∧
    (∀ t b, proc.threads t = some b → b.tid = tid → proc.target tr a tid = .ok (some t)) := by
  obtain ⟨hg₁, hg₂⟩ := getThread_spec h htid
  unfold Process.target
  split_ifs with he
  · refine ⟨fun t ht => ?_, fun t b hb hbt => ?_⟩
    · obtain rfl := Option.some_inj.mp (Except.ok.inj ht)
      exact ⟨a, ha, he⟩
    · rw [h.distinct tr t a b ha hb (he.trans hbt.symm)]
  · exact ⟨hg₁, hg₂⟩

/-- What is looked up is a thread, whatever the table. -/
theorem target_some {tr : ℕ} (ha : proc.threads tr = some a) {tid : ℤ}
    (ht : proc.target tr a tid = .ok (some t)) : ∃ b, proc.threads t = some b := by
  unfold Process.target at ht
  split_ifs at ht
  · cases ht
    exact ⟨a, ha⟩
  · obtain ⟨b, hb, -⟩ := getThread_found ht
    exact ⟨b, hb⟩

/-- Every `tid` stays when a thread is written back with its own. -/
theorem tids_update {proc' : Process} {b b' : Thread} (hb : proc.threads t = some b)
    (htid : b'.tid = b.tid) (ht : proc'.threads = Function.update proc.threads t (some b'))
    (u : ℕ) (a : Thread) (ha : proc.threads u = some a) :
    ∃ a', proc'.threads u = some a' ∧ a'.tid = a.tid := by
  rw [ht]
  by_cases hu : u = t
  · subst hu
    obtain rfl := Option.some_inj.mp (hb.symm.trans ha)
    exact ⟨b', Function.update_self _ _ _, htid⟩
  · exact ⟨a, (Function.update_of_ne hu _ _).trans ha, rfl⟩

/-- One port's block changes, and the list of its owner with it. -/
theorem PortTable.edit {proc' : Process} {B : IpcBlock} (h : PortTable proc)
    (hblock : ∀ q, InRange q → proc'.block q = if q = port then B else proc.block q)
    (hB : if B.tid = -1 then B.pulseQ = none ∧ B.messageQ = none
      else B.pulseQ ≠ none ∧ B.messageQ ≠ none)
    (hB' : B.tid ≠ -1 → ∃ t a, proc'.threads t = some a ∧ a.tid = B.tid)
    (htids : ∀ t a, proc.threads t = some a → ∃ a', proc'.threads t = some a' ∧ a'.tid = a.tid)
    (hlists : ∀ t a', proc'.threads t = some a' → (∃ owned, Lists proc' a' owned) ∨
      ∃ a, proc.threads t = some a ∧ a.ports = a'.ports ∧ a.tid = a'.tid ∧
        (proc.block port).tid ≠ a.tid ∧ B.tid ≠ a.tid) : PortTable proc' := by
  refine ⟨fun t a' ht => ?_, fun q hq htid => ?_, fun q hq htid => ?_, fun q hq htid => ?_⟩
  · obtain hl | ⟨a, ha, hports, htid, hold, hnew⟩ := hlists t a' ht
    · exact hl
    · obtain ⟨owned, hp, hn, hm⟩ := h.lists t a ha
      refine ⟨owned, hports ▸ hp, hn, fun p => (hm p).trans (and_congr_right fun hpr => ?_)⟩
      rw [hblock p hpr, ← htid]
      split_ifs with he
      · rw [he]
        exact iff_of_false hold hnew
      · rfl
  · rw [hblock q hq] at htid ⊢
    split_ifs at htid ⊢ with he
    · rwa [if_pos htid] at hB
    · exact h.closed q hq htid
  · rw [hblock q hq] at htid ⊢
    split_ifs at htid ⊢ with he
    · rwa [if_neg htid] at hB
    · exact h.opened q hq htid
  · rw [hblock q hq] at htid ⊢
    split_ifs at htid ⊢ with he
    · exact hB' htid
    · obtain ⟨t, a, ha, hat⟩ := h.owned q hq htid
      obtain ⟨a', ha', he'⟩ := htids t a ha
      exact ⟨t, a', ha', he'.trans hat⟩

/-- A port opened for the thread `t`. -/
theorem PortTable.open_port {b : Thread} (hT : Threads proc) (h : PortTable proc)
    (hr : InRange port) (hfree : (proc.block port).tid = -1) (hb : proc.threads t = some b) :
    PortTable ((proc.setBlock port ⟨b.tid, 0, some [], some []⟩).setThread t
      { b with ports := addPort b.ports port }) := by
  have hne := hT.tid_ne t b hb
  have hself : ((proc.setBlock port ⟨b.tid, 0, some [], some []⟩).setThread t
      { b with ports := addPort b.ports port }).threads t =
        some { b with ports := addPort b.ports port } := Function.update_self _ _ _
  refine h.edit (fun q hq => block_setBlock proc hr hq _) (by simp [hne])
    (fun _ => ⟨t, _, hself, rfl⟩)
    (@tids_update proc t _ b { b with ports := addPort b.ports port } hb rfl rfl) fun u c hu => ?_
  by_cases hut : u = t
  · subst hut
    obtain rfl : _ = c := Option.some_inj.mp ((Function.update_self u _ _).symm.trans hu)
    obtain ⟨owned, hl⟩ := h.lists u b hb
    have hnot : port ∉ owned := fun hm => hne (((hl.2.2 port).mp hm).2.symm.trans hfree)
    have hnd : (owned ++ [port]).Nodup := by
      refine List.nodup_append.mpr ⟨hl.2.1, List.nodup_singleton _, fun x hx y hy e => hnot ?_⟩
      rwa [← List.mem_singleton.mp hy, ← e]
    have hlt : owned.length < MAX_PORTS := by
      have := length_le_of_inRange hnd fun p hp => by
        rcases List.mem_append.mp hp with hp | hp
        · exact ((hl.2.2 p).mp hp).1
        · rwa [List.mem_singleton.mp hp]
      rw [List.length_append, List.length_singleton] at this
      omega
    refine .inl ⟨owned ++ [port], hl.1.addPort hl.ne hlt port, hnd, fun p => ?_⟩
    rw [List.mem_append, List.mem_singleton, hl.2.2 p]
    constructor
    · rintro (⟨hp, htid⟩ | rfl)
      · refine ⟨hp, (congrArg IpcBlock.tid (block_setBlock proc hr hp _)).trans ?_⟩
        rwa [if_neg fun e : p = port => hne (htid.symm.trans (e ▸ hfree))]
      · exact ⟨hr, (congrArg IpcBlock.tid (block_setBlock proc hr hr _)).trans (by simp)⟩
    · rintro ⟨hp, htid⟩
      by_cases he : p = port
      · exact .inr he
      · refine .inl ⟨hp, ?_⟩
        have := (congrArg IpcBlock.tid (block_setBlock proc hr hp _)).symm.trans htid
        rwa [if_neg he] at this
  · have hc : proc.threads u = some c := (Function.update_of_ne hut _ _).symm.trans hu
    refine .inr ⟨c, hc, rfl, rfl, ?_, fun e => hut (hT.distinct u t c b hc hb e.symm)⟩
    rw [hfree]
    exact (hT.tid_ne u c hc).symm

theorem closePort_eq (h : (proc.block port).pulseQ ≠ none ∧ (proc.block port).messageQ ≠ none) :
    closePort proc port = .ok (proc.setBlock port ⟨-1, 0, none, none⟩) := by
  obtain ⟨q, hq⟩ := Option.ne_none_iff_exists'.mp h.1
  obtain ⟨q', hq'⟩ := Option.ne_none_iff_exists'.mp h.2
  rw [closePort, hq, hq']
  rfl

/-- The state after `release_port` of a port of the thread `t`. -/
def released (proc : Process) (port : ℤ) (t : ℕ) (b : Thread) : Process :=
  ((drain proc t b port).setBlock port ⟨-1, 0, none, none⟩).setThread t
    { b with lastPortPulse := -1, lastPortMessage := -1,
             ports := shiftOut port 0 MAX_PORTS false b.ports }

theorem block_released (hr : InRange port) {q : ℤ} (hq : InRange q) (t : ℕ) (b : Thread) :
    (released proc port t b).block q =
      if q = port then ⟨-1, 0, none, none⟩ else proc.block q := by
  have h₁ := block_setBlock (drain proc t b port) hr hq ⟨-1, 0, none, none⟩
  have h₂ : (drain proc t b port).block q = if q = port then _ else proc.block q :=
    block_setBlock { proc with heap := _ } hr hq _
  refine h₁.trans ?_
  split_ifs with he
  · rfl
  · rw [h₂, if_neg he]

theorem threads_released (proc : Process) (port : ℤ) (t : ℕ) (b : Thread) :
    ∃ b', (released proc port t b).threads = Function.update proc.threads t (some b') ∧
      b'.tid = b.tid ∧ b'.ports = shiftOut port 0 MAX_PORTS false b.ports :=
  ⟨_, Function.update_idem _ _ _, rfl, rfl⟩

theorem releasePort_shut {tr : ℕ} (ha : proc.threads tr = some a)
    (h : ¬ InRange port ∨ (proc.block port).tid = -1) :
    releasePort proc tr port = .ok (proc, -1) := by
  rw [releasePort, ha, deref_some, ok_bind]
  by_cases hr : InRange port
  · rw [if_neg (not_not.mpr hr), if_pos (h.resolve_left (not_not.mpr hr))]
  · rw [if_pos hr]

/-- A release once the look-up of the owner is settled. -/
theorem releasePort_target {tr : ℕ} (ha : proc.threads tr = some a) (hr : InRange port)
    (hopen : (proc.block port).tid ≠ -1)
    (hq : (proc.block port).pulseQ ≠ none ∧ (proc.block port).messageQ ≠ none)
    (ht : proc.target tr a (proc.block port).tid = .ok (some t)) {b : Thread}
    (hb : proc.threads t = some b) :
    releasePort proc tr port = .ok (released proc port t b, 0) := by
  have hblock : (drain proc t b port).block port = _ :=
    (block_setBlock { proc with heap := _ } hr hr _).trans (if_pos rfl)
  have hq' : ((drain proc t b port).block port).pulseQ ≠ none ∧
      ((drain proc t b port).block port).messageQ ≠ none := by
    rw [hblock]
    exact ⟨fun e => hq.1 (Option.map_eq_none_iff.mp e), fun e => hq.2 (Option.map_eq_none_iff.mp e)⟩
  have hthread : ((drain proc t b port).setBlock port ⟨-1, 0, none, none⟩).threads t =
      some { b with lastPortPulse := -1, lastPortMessage := -1 } := Function.update_self _ _ _
  rw [releasePort, ha, deref_some, ok_bind, if_neg (not_not.mpr hr), if_neg hopen, ht]
  simp only [ok_bind, hb, deref_some, closePort_eq hq', hthread]
  rfl

theorem releasePort_no_target {tr : ℕ} (ha : proc.threads tr = some a) (hr : InRange port)
    (hopen : (proc.block port).tid ≠ -1)
    (hq : (proc.block port).pulseQ ≠ none ∧ (proc.block port).messageQ ≠ none)
    (ht : proc.target tr a (proc.block port).tid = .ok none) :
    releasePort proc tr port = .ok (proc.setBlock port ⟨-1, 0, none, none⟩, 0) := by
  rw [releasePort, ha, deref_some, ok_bind, if_neg (not_not.mpr hr), if_neg hopen, ht]
  simp only [ok_bind, closePort_eq hq]

theorem releasePort_owned (hT : Threads proc) (h : PortTable proc) {tr : ℕ}
    (ha : proc.threads tr = some a) (hr : InRange port) (hopen : (proc.block port).tid ≠ -1)
    {b : Thread} (hb : proc.threads t = some b) (hbt : b.tid = (proc.block port).tid) :
    releasePort proc tr port = .ok (released proc port t b, 0) :=
  releasePort_target ha hr hopen (h.opened port hr hopen)
    ((target_spec hT ha hopen).2 t b hb hbt) hb

theorem threads_of_released (hT : Threads proc) {b : Thread} (hb : proc.threads t = some b) :
    Threads (released proc port t b) := by
  obtain ⟨b', ht, htid, _⟩ := threads_released proc port t b
  exact hT.update rfl hb htid ht

/-- A port closed and taken out of its owner's list. -/
theorem lists_released {owned : List ℤ} {b b' : Thread} (hT : Threads proc) (hr : InRange port)
    (hb : proc.threads t = some b) (hl : Lists proc b owned) (htid : b'.tid = b.tid)
    (hports : b'.ports = shiftOut port 0 MAX_PORTS false b.ports) :
    Lists (released proc port t b) b' (owned.erase port) := by
  refine ⟨hports ▸ hl.1.shiftOut hl.ne hl.length_le port, hl.2.1.erase port, fun p => ?_⟩
  rw [hl.2.1.mem_erase_iff, hl.2.2 p]
  constructor
  · rintro ⟨hne, hp, he⟩
    rw [block_released hr hp, if_neg hne, htid]
    exact ⟨hp, he⟩
  · rintro ⟨hp, he⟩
    rw [block_released hr hp, htid] at he
    split_ifs at he with heq
    · exact absurd he.symm (hT.tid_ne t b hb)
    · exact ⟨heq, hp, he⟩

theorem PortTable.released {b : Thread} (hT : Threads proc) (h : PortTable proc)
    (hr : InRange port) (hb : proc.threads t = some b) (hbt : b.tid = (proc.block port).tid) :
    PortTable (released proc port t b) := by
  obtain ⟨b', hth, htid, hports⟩ := threads_released proc port t b
  refine h.edit (fun q hq => block_released hr hq t b) (by simp) (fun hne => absurd rfl hne)
    (tids_update hb htid hth) fun u c hu => ?_
  rw [hth] at hu
  by_cases hut : u = t
  · subst hut
    obtain rfl : b' = c := Option.some_inj.mp ((Function.update_self u _ _).symm.trans hu)
    obtain ⟨owned, hl⟩ := h.lists u b hb
    exact .inl ⟨_, lists_released hT hr hb hl htid hports⟩
  · have hc : proc.threads u = some c := (Function.update_of_ne hut _ _).symm.trans hu
    refine .inr ⟨c, hc, rfl, rfl, fun e => hut ?_, (hT.tid_ne u c hc).symm⟩
    exact hT.distinct u t c b hc hb (e.symm.trans hbt.symm)

/-- A block that no thread owns may be closed. -/
theorem PortTable.close {B : IpcBlock} (hT : Threads proc) (h : PortTable proc)
    (hr : InRange port) (hno : ∀ t b, proc.threads t = some b → b.tid ≠ (proc.block port).tid)
    (hB : B.tid = -1 ∧ B.pulseQ = none ∧ B.messageQ = none) : PortTable (proc.setBlock port B) := by
  refine h.edit (fun q hq => block_setBlock proc hr hq B) (by rw [if_pos hB.1]; exact hB.2)
    (fun hne => absurd hB.1 hne) (fun _ c hc => ⟨c, hc, rfl⟩)
    fun u c hu => .inr ⟨c, hu, rfl, rfl, (hno u c hu).symm, ?_⟩
  rw [hB.1]
  exact (hT.tid_ne u c hu).symm

end Table

/-- `release_thread_ports` takes the ports from the front of the list, one a round. -/
theorem releaseLoop_eq (tr : ℕ) : ∀ (owned : List ℤ) (proc : Process) (a : Thread)
    (rounds count : ℕ), Threads proc → PortTable proc → proc.threads tr = some a →
    Lists proc a owned → owned.length < rounds →
    ∃ proc' a', releaseLoop rounds proc tr count = .ok (proc', count + owned.length) ∧
      Threads proc' ∧ PortTable proc' ∧ proc'.threads tr = some a' ∧ Packed a'.ports [] := by
  intro owned
  induction owned with
  | nil =>
    intro proc a rounds count hT h ha hl hlt
    obtain ⟨rounds, rfl⟩ : ∃ n, rounds = n + 1 := ⟨rounds - 1, by simp at hlt; omega⟩
    refine ⟨proc, a, ?_, hT, h, ha, hl.1⟩
    have hz : a.ports 0 = -1 := hl.1 0
    rw [releaseLoop, ha, deref_some, ok_bind, if_pos hz]
    rfl
  | cons p rest ih =>
    intro proc a rounds count hT h ha hl hlt
    obtain ⟨rounds, rfl⟩ : ∃ n, rounds = n + 1 := ⟨rounds - 1, by omega⟩
    rw [List.length_cons] at hlt
    obtain ⟨hr, htid⟩ := (hl.2.2 p).mp List.mem_cons_self
    have hp : a.ports 0 = p := hl.1 0
    have hne : a.ports 0 ≠ -1 := hp ▸ hl.ne p List.mem_cons_self
    have hopen : (proc.block p).tid ≠ -1 := htid ▸ hT.tid_ne tr a ha
    obtain ⟨b', hth, hbt, hports⟩ := threads_released proc p tr a
    have hl' := lists_released hT hr ha hl hbt hports
    rw [List.erase_cons_head] at hl'
    have hb' : (released proc p tr a).threads tr = some b' := by rw [hth, Function.update_self]
    obtain ⟨proc', a', he, hrest⟩ := ih (released proc p tr a) b' rounds (count + 1)
      (threads_of_released hT ha) (h.released hT hr ha htid.symm) hb' hl' (by omega)
    refine ⟨proc', a', ?_, hrest⟩
    rw [releaseLoop, ha, deref_some, ok_bind, if_neg hne, hp,
      releasePort_owned hT h ha hr hopen ha htid.symm, ok_bind]
    dsimp only
    rw [he, List.length_cons, Nat.add_right_comm, Nat.add_assoc]

theorem releaseThreadPorts_eq {proc : Process} {tr : ℕ} {a : Thread} {owned : List ℤ}
    (hT : Threads proc) (h : PortTable proc) (ha : proc.threads tr = some a)
    (hl : Lists proc a owned) : ∃ proc' a', releaseThreadPorts proc tr = .ok (proc', owned.length) ∧
      Threads proc' ∧ PortTable proc' ∧ proc'.threads tr = some a' ∧ Packed a'.ports [] := by
  have := releaseLoop_eq tr owned proc a (MAX_PORTS + 1) 0 hT h ha hl
    (Nat.lt_succ_of_le hl.length_le)
  rwa [Nat.zero_add] at this

inductive PortCall
  | create (tr : ℕ) (port tid : ℤ) (pulseRoom messageRoom : Bool)
  | release (tr : ℕ) (port : ℤ)
  | releaseAll (tr : ℕ)

def PortCall.exec (proc : Process) : PortCall → Outcome Process
  | .create tr port tid pulseRoom messageRoom => do
    let (proc, _) ← createPort proc tr port tid pulseRoom messageRoom
    .ok proc
  | .release tr port => do
    let (proc, _) ← releasePort proc tr port
    .ok proc
  | .releaseAll tr => do
    let (proc, _) ← releaseThreadPorts proc tr
    .ok proc

def PortCall.Permitted (proc : Process) : PortCall → Prop
  | .create tr _ _ _ _ | .release tr _ | .releaseAll tr => ∃ a, proc.threads tr = some a

/-- The look-up of the thread that a port is opened for ends, and no port is opened for the `tid`
-1. -/
def PortCall.Named (proc : Process) : PortCall → Prop
  | .create tr port tid pulseRoom messageRoom => ∀ a, proc.threads tr = some a →
      InRange port → (proc.block port).tid = -1 →
        ∃ target, proc.target tr a tid = .ok target ∧
          ¬ (tid = -1 ∧ target ≠ none ∧ pulseRoom = true ∧ messageRoom = true)
  | _ => True

def portSystem : System Process PortCall Fault where
  Init proc := Threads proc ∧
    (∀ p, InRange p → proc.block p = ⟨-1, 0, none, none⟩) ∧
    ∀ t a, proc.threads t = some a → Packed a.ports []
  Guard proc c := c.Permitted proc
  step proc c := c.exec proc

/-- The two lists of owners agree. -/
structure Agree (proc : Process) : Prop where
  threads : Threads proc
  table : PortTable proc

namespace Agree
variable {proc : Process}

theorem init (h : portSystem.Init proc) : Agree proc := by
  obtain ⟨hT, hclosed, hempty⟩ := h
  refine ⟨hT, ⟨fun t a ht => ⟨[], hempty t a ht, List.nodup_nil, fun p => ?_⟩, fun p hp _ => ?_,
    fun p hp hne => absurd (by rw [hclosed p hp]) hne,
    fun p hp hne => absurd (by rw [hclosed p hp]) hne⟩⟩
  · refine iff_of_false List.not_mem_nil fun ⟨hp, he⟩ => hT.tid_ne t a ht ?_
    rw [← he, hclosed p hp]
  · rw [hclosed p hp]
    exact ⟨rfl, rfl⟩

theorem create (h : Agree proc) {tr : ℕ} {a : Thread} (ha : proc.threads tr = some a)
    (port tid : ℤ) (pulseRoom messageRoom : Bool)
    (hn : (PortCall.create tr port tid pulseRoom messageRoom).Named proc) :
    ∃ proc' rc, createPort proc tr port tid pulseRoom messageRoom = .ok (proc', rc) ∧
      Agree proc' := by
  obtain ⟨hT, hP⟩ := h
  rw [createPort, ha, deref_some, ok_bind]
  by_cases hr : InRange port
  swap
  · rw [if_pos hr]
    exact ⟨_, _, rfl, hT, hP⟩
  rw [if_neg (not_not.mpr hr)]
  by_cases hfree : (proc.block port).tid = -1
  swap
  · rw [if_pos hfree]
    exact ⟨_, _, rfl, hT, hP⟩
  rw [if_neg (not_not.mpr hfree)]
  have hno : ∀ t b, proc.threads t = some b → b.tid ≠ (proc.block port).tid := by
    intro t b hb
    rw [hfree]
    exact hT.tid_ne t b hb
  have hnone := hP.closed port hr hfree
  obtain ⟨target, ht, hnot⟩ := hn a ha hr hfree
  rw [ht, ok_bind]
  cases target with
  | none => exact ⟨_, _, rfl, hT, hP⟩
  | some t =>
    cases pulseRoom with
    | false =>
      refine ⟨_, _, rfl, hT.congr rfl fun _ => rfl, hP.close hT hr hno ⟨hfree, rfl, hnone.2⟩⟩
    | true =>
      cases messageRoom with
      | false => exact ⟨_, _, rfl, hT.congr rfl fun _ => rfl, hP.close hT hr hno ⟨hfree, rfl, rfl⟩⟩
      | true =>
        have htid : tid ≠ -1 := fun he => hnot ⟨he, Option.some_ne_none t, rfl, rfl⟩
        obtain ⟨b, hb, hbt⟩ := (target_spec hT ha htid).1 t ht
        have hb' : (proc.setBlock port ⟨tid, 0, some [], some []⟩).threads t = some b := hb
        simp only [Bool.true_eq_false, if_false, hb', deref_some, ok_bind]
        refine ⟨_, _, rfl, @Threads.update _ t _ b { b with ports := addPort b.ports port } hT rfl
          hb rfl rfl, ?_⟩
        rw [← hbt]
        exact hP.open_port hT hr hfree hb

theorem release (h : Agree proc) {tr : ℕ} {a : Thread} (ha : proc.threads tr = some a)
    (port : ℤ) : ∃ proc' rc, releasePort proc tr port = .ok (proc', rc) ∧ Agree proc' := by
  obtain ⟨hT, hP⟩ := h
  by_cases hshut : ¬ InRange port ∨ (proc.block port).tid = -1
  · exact ⟨_, _, releasePort_shut ha hshut, hT, hP⟩
  obtain ⟨hr, hopen⟩ := not_or.mp hshut
  have hr := not_not.mp hr
  obtain ⟨t, b, hb, hbt⟩ := hP.owned port hr hopen
  exact ⟨_, _, releasePort_owned hT hP ha hr hopen hb hbt, threads_of_released hT hb,
    hP.released hT hr hb hbt⟩

/-- The step lemma. -/
theorem exec (h : Agree proc) {c : PortCall} (hc : c.Permitted proc) (hn : c.Named proc) :
    ∃ proc', c.exec proc = .ok proc' ∧ Agree proc' := by
  cases c with
  | create tr port tid pulseRoom messageRoom =>
    obtain ⟨a, ha⟩ := hc
    obtain ⟨proc', rc, he, h'⟩ := h.create ha port tid pulseRoom messageRoom hn
    exact ⟨proc', by simp [PortCall.exec, he], h'⟩
  | release tr port =>
    obtain ⟨a, ha⟩ := hc
    obtain ⟨proc', rc, he, h'⟩ := h.release ha port
    exact ⟨proc', by simp [PortCall.exec, he], h'⟩
  | releaseAll tr =>
    obtain ⟨a, ha⟩ := hc
    obtain ⟨owned, hl⟩ := h.table.lists tr a ha
    obtain ⟨proc', a', he, hT, hP, _⟩ := releaseThreadPorts_eq h.threads h.table ha hl
    exact ⟨proc', by simp [PortCall.exec, he], hT, hP⟩

/-- A port opened for the `tid` -1 has queues and still counts as closed. -/
theorem exec_iff (h : Agree proc) {c : PortCall} (hc : c.Permitted proc) :
    (∃ proc', c.exec proc = .ok proc' ∧ Agree proc') ↔ c.Named proc := by
  refine ⟨fun ⟨proc', he, h'⟩ => ?_, h.exec hc⟩
  cases c with
  | create tr port tid pulseRoom messageRoom =>
    intro a ha hr hfree
    obtain ⟨⟨proc'', rc⟩, hcreate, he⟩ := bind_eq_ok.mp he
    cases he
    rw [createPort, ha, deref_some, ok_bind, if_neg (not_not.mpr hr), if_neg (not_not.mpr hfree)]
      at hcreate
    obtain ⟨target, ht, hcreate⟩ := bind_eq_ok.mp hcreate
    refine ⟨target, ht, ?_⟩
    rintro ⟨rfl, hne, rfl, rfl⟩
    obtain ⟨t, rfl⟩ := Option.ne_none_iff_exists'.mp hne
    obtain ⟨b, hb⟩ := target_some ha ht
    have hb' : (proc.setBlock port ⟨-1, 0, some [], some []⟩).threads t = some b := hb
    simp only [Bool.true_eq_false, if_false, hb', deref_some, ok_bind] at hcreate
    cases hcreate
    have hbl := (block_setBlock proc hr hr ⟨-1, 0, some [], some []⟩).trans (if_pos rfl)
    have hnone := (h'.table.closed port hr (congrArg IpcBlock.tid hbl)).1
    exact Option.some_ne_none _ ((congrArg IpcBlock.pulseQ hbl).symm.trans hnone)
  | _ => trivial

end Agree

/-- Along every run that opens no port for the `tid` -1, and none for a `tid` whose look-up halts,
the port table and the lists of the threads agree, and `release_thread_ports` ends with the number
of ports the thread owned; any other call halts or breaks the agreement. -/
theorem port_table_inverse (s : Process) :
    (∀ cs t, portSystem.Init s → (portSystem.restrict fun s c => c.Named s).Steps s cs t →
      PortTable t ∧ ∀ tr a owned, t.threads tr = some a → Lists t a owned →
        ∃ proc' a', releaseThreadPorts t tr = .ok (proc', owned.length) ∧ PortTable proc' ∧
          proc'.threads tr = some a' ∧ Packed a'.ports []) ∧
    (∀ c : PortCall, Agree s → c.Permitted s →
      ((∃ t, c.exec s = .ok t ∧ Agree t) ↔ c.Named s)) := by
  refine ⟨fun cs t hs hr => ?_, fun c h hc => h.exec_iff hc⟩
  have hp : (portSystem.restrict fun s c => c.Named s).Preserves Agree :=
    fun s c h hg => h.exec hg.1 hg.2
  have ht : Agree t := hr.preserves hp (.init hs)
  refine ⟨ht.table, fun tr a owned ha hl => ?_⟩
  obtain ⟨proc', a', he, _, hP, hrest⟩ := releaseThreadPorts_eq ht.threads ht.table ha hl
  exact ⟨proc', a', he, hP, hrest⟩

/-- A process whose one thread has the given name and owns no port. -/
def lone (name : ℤ) : Process where
  ipc _ := ⟨-1, 0, none, none⟩
  threads t := if t = 1 then some ⟨⟨fun _ => name, 1⟩, fun _ => -1, -1, -1⟩ else none
  threadsHtable := oneThread
  heap := ⟨fun _ => none, []⟩

theorem lone_init (name : ℤ) : portSystem.Init (lone name) := by
  have hof : ∀ t a, (lone name).threads t = some a →
      t = 1 ∧ a = ⟨⟨fun _ => name, 1⟩, fun _ => -1, -1, -1⟩ := by
    intro t a ht
    simp only [lone] at ht
    split_ifs at ht with h
    exact ⟨h, (Option.some_inj.mp ht).symm⟩
  refine ⟨⟨fun t u a b ha hb _ => ?_, fun t a ht => ?_, fun t a ht => ?_, fun i _ x hx => ?_⟩,
    fun p _ => rfl, fun t a ht i => ?_⟩
  · rw [(hof t a ha).1, (hof u b hb).1]
  · rw [(hof t a ht).2]
    exact (by decide : (1 : ℤ) ≠ -1)
  · obtain ⟨rfl, rfl⟩ := hof t a ht
    refine ⟨Nat.one_ne_zero, 0, (by decide : 0 < 128), fun j hj => ?_, rfl⟩
    obtain rfl := Nat.le_zero.mp hj
    exact (by decide : 0 ≤ position (magnitude (threadsKey 1)) 128 0)
  · simp only [lone, oneThread] at hx
    split_ifs at hx
    cases hx
    exact ⟨1, rfl, Option.some_ne_none _⟩
  · rw [(hof t a ht).2]
    rfl

/-- The state after a port was opened for the `tid` -1. -/
def stuck : Process :=
  ((lone 0).setBlock 5 ⟨-1, 0, some [], some []⟩).setThread 1
    ⟨⟨fun _ => 0, 1⟩, addPort (fun _ => -1) 5, -1, -1⟩

theorem releaseLoop_stuck (rounds count : ℕ) :
    releaseLoop rounds stuck 1 count = .error .diverges := by
  induction rounds generalizing count with
  | zero => rfl
  | succ rounds ih =>
    have hrelease : releasePort stuck 1 5 = .ok (stuck, -1) :=
      releasePort_shut (a := ⟨⟨fun _ => 0, 1⟩, addPort (fun _ => -1) 5, -1, -1⟩) rfl (.inr rfl)
    change (releasePort stuck 1 5 >>= fun r => releaseLoop rounds r.1 1 (count + 1)) = _
    rw [hrelease, ok_bind, ih]

/-- With a nameless thread `create_port` opens a port for the `tid` -1: the thread lists it, the
block has queues and no owner, and `release_thread_ports` never ends. For the `tid` 21474836, whose
key is 48 below the last `int`, `create_port` halts. -/
theorem create_without_tid : portSystem.Init (lone 0) ∧
    createPort (lone 0) 1 5 (-1) true true = .ok (stuck, 0) ∧ ¬ PortTable stuck ∧
    (∀ rounds, releaseLoop rounds stuck 1 0 = .error .diverges) ∧
    createPort (lone 0) 1 5 21474836 true true = .error .assertion := by
  refine ⟨lone_init 0, rfl, fun h => ?_, fun rounds => releaseLoop_stuck rounds 0, ?_⟩
  · obtain ⟨hq, _⟩ := h.closed 5 (by decide) rfl
    cases hq
  · exact faultOf_eq_some.mp (by decide +kernel)

theorem port_table_inverse_example : ∃ t : Process, (t.block 5).tid = 1 ∧ PortTable t ∧
    ∃ (owned : List ℤ) (proc' : Process), 5 ∈ owned ∧ releaseThreadPorts t 1 =
      .ok (proc', owned.length) := by
  obtain ⟨hrun, _⟩ := port_table_inverse (lone 114)
  have hr : (portSystem.restrict fun s c => c.Named s).Steps (lone 114)
      [.create 1 5 1 true true] _ :=
    .one ⟨⟨_, rfl⟩, fun a ha _ _ => by
      cases ha
      exact ⟨some 1, rfl, fun h => absurd h.1 (by decide)⟩⟩ rfl
  obtain ⟨ht, hrel⟩ := hrun _ _ (lone_init 114) hr
  obtain ⟨owned, hl⟩ := ht.lists 1 _ rfl
  obtain ⟨proc', a', he, _⟩ := hrel 1 _ owned rfl hl
  exact ⟨_, rfl, ht, owned, proc', (hl.2.2 5).mpr ⟨by decide, rfl⟩, he⟩

end Racoon.Ipc
