import Racoon.Ds.Probing
import Racoon.Libsmk.Strings

/-!
# Threads, ports and the look-up of a thread

The parts of `struct process`, `struct thread` and `struct ipc_block` that the
port, message and pulse calls read and write. Port queues are the FIFO lists
they are meant as; `none` is a `NULL` queue. Objects allocated for message data
are blocks of bytes by address, with a log of the blocks freed.

A process reaches its threads through a hash table of their addresses. A look-up
compares what is at an address with a sample, which stands in the table as the
address `none`. It halts the kernel where the probes for its `tid` leave the
table.
-/

namespace Racoon.Ipc
open Strings Lib HashTables

def MAX_PORTS : ℕ := 1024
def IPC_MASKED : ℕ := 1
def SMK_NAME_LENGTH : ℕ := 64

structure Pulse where
  sourcePid : ℤ
  sourcePort : ℤ
  destPort : ℤ
  data1 : ℕ
  data2 : ℕ
  data3 : ℕ
  data4 : ℕ
  data5 : ℕ
  data6 : ℕ
  deriving DecidableEq, Repr

structure Message where
  sourcePid : ℤ
  sourcePort : ℤ
  destPort : ℤ
  bytes : ℕ
  data : ℕ
  deriving DecidableEq, Repr

structure IpcBlock where
  tid : ℤ
  flags : ℕ
  pulseQ : Option (List Pulse)
  messageQ : Option (List Message)

/-- The fields of a thread, or of a sample, that the hash table looks at. -/
structure ThreadKey where
  name : CString
  tid : ℤ

structure Thread extends ThreadKey where
  ports : ℕ → ℤ
  lastPortPulse : ℤ
  lastPortMessage : ℤ

structure Heap where
  block : ℕ → Option (List UInt8)
  freed : List ℕ

structure Process where
  ipc : ℕ → IpcBlock
  threads : ℕ → Option Thread
  threadsHtable : HashTable (Option ℕ)
  heap : Heap

def Heap.put (h : Heap) (a : ℕ) (contents : List UInt8) : Heap :=
  { h with block := Function.update h.block a (some contents) }

/-- `kfree` of a block that is allocated. -/
def Heap.kfree (h : Heap) (a : ℕ) : Outcome Heap := do
  let _ ← deref (h.block a)
  .ok ⟨Function.update h.block a none, h.freed ++ [a]⟩

/-- `aqueue_next` on a queue taken as a FIFO. -/
def aqueueNext {α : Type} : Option (List α) → Outcome (α × List α)
  | none => .error .badAccess
  | some [] => .error .assertion
  | some (obj :: rest) => .ok (obj, rest)

def threadsCompare (a b : ThreadKey) : ℤ :=
  if b.tid ≠ -1 then
    if a.tid < b.tid then -1
    else if b.tid < a.tid then 1
    else 0
  else kstrncmp a.name b.name SMK_NAME_LENGTH

theorem threadsCompare_eq_zero {a b : ThreadKey} (h : b.tid ≠ -1) :
    threadsCompare a b = 0 ↔ a.tid = b.tid := by
  rw [threadsCompare, if_pos h]
  rcases lt_trichotomy a.tid b.tid with hlt | heq | hgt
  · simp [hlt, hlt.ne]
  · simp [heq]
  · simp [hgt, hgt.not_gt, hgt.ne']

def Process.threadKey (proc : Process) (temp : ThreadKey) : Option ℕ → ThreadKey
  | none => temp
  | some t => ((proc.threads t).map Thread.toThreadKey).getD temp

/-- `threads_htable` with its key and compare functions, which read the threads. -/
def Process.htable (proc : Process) (temp : ThreadKey) : HashTable (Option ℕ) :=
  { proc.threadsHtable with
    key := fun p => threadsKey (proc.threadKey temp p).tid
    compare := fun a b => threadsCompare (proc.threadKey temp a) (proc.threadKey temp b) }

/-- The thread's address. The sample's name is empty. An address of the table where no thread is
any more counts as equal to the sample, so that reading from it fails at the end. -/
def getThread (proc : Process) (tid : ℤ) : Outcome (Option ℕ) := do
  let r ← htableRetrieve (proc.htable ⟨fun _ => 0, tid⟩) none
  match r.join with
  | none => .ok none
  | some t => do
    let _ ← deref (proc.threads t)
    .ok (some t)

/-- `proc->ipc[port]` for a port number in range. -/
def Process.block (proc : Process) (port : ℤ) : IpcBlock := proc.ipc port.toNat

def Process.setBlock (proc : Process) (port : ℤ) (b : IpcBlock) : Process :=
  { proc with ipc := Function.update proc.ipc port.toNat b }

def Process.setThread (proc : Process) (t : ℕ) (a : Thread) : Process :=
  { proc with threads := Function.update proc.threads t (some a) }

def InRange (port : ℤ) : Prop := 0 ≤ port ∧ port < MAX_PORTS

instance (port : ℤ) : Decidable (InRange port) := inferInstanceAs (Decidable (_ ∧ _))

def port2tid (proc : Process) (port : ℤ) : ℤ :=
  if InRange port then (proc.block port).tid else -1

/-- A send to the port finds out whom it is for: the probes for the owner stay in the table. -/
def Addressed (proc : Process) (port : ℤ) : Prop :=
  port2tid proc port < 0 ∨ ∃ t, getThread proc (port2tid proc port) = .ok t

/-- The flags of an open port among `flags`; -1 for a port that is not open. -/
def portFlags (proc : Process) (port : ℤ) (flags : ℕ) : ℤ :=
  if InRange port then
    if (proc.block port).tid = -1 then -1 else ((proc.block port).flags &&& flags : ℕ)
  else -1

/-- A scan over `ports[]` from index `i` with `left` entries to go. It passes over the ports that
are masked. At the first other port whose queue holds something it stops; an empty queue is
passed over too, or ends the scan with nothing, as `skip` says. -/
def scan {α : Type} (proc : Process) (queue : IpcBlock → Option (List α)) (skip : Bool)
    (ports : ℕ → ℤ) : ℕ → ℕ → Outcome (Option ℤ)
  | _, 0 => .ok none
  | i, left + 1 =>
    if ports i = -1 then .ok none
    else if portFlags proc (ports i) IPC_MASKED ≠ 0 then scan proc queue skip ports (i + 1) left
    else
      match queue (proc.block (ports i)) with
      | none => .error .assertion
      | some [] => if skip then scan proc queue skip ports (i + 1) left else .ok none
      | some (_ :: _) => .ok (some (ports i))

/-- The port that `recv_message`, `drop_message` and `receive_pulse` take from: the one asked for
or hinted at, if it is not masked and holds something, and else what the scan finds. -/
def pick {α : Type} (proc : Process) (queue : IpcBlock → Option (List α)) (skip : Bool)
    (ports : ℕ → ℤ) (port : ℤ) : Outcome (Option ℤ) :=
  if InRange port then
    if portFlags proc port IPC_MASKED ≠ 0 then .ok none
    else
      match queue (proc.block port) with
      | none => .error .assertion
      | some [] => .ok none
      | some (_ :: _) => .ok (some port)
  else scan proc queue skip ports 0 MAX_PORTS

/-- The loop that adds up the queues of the ports that are not masked. -/
def waiting {α : Type} (proc : Process) (queue : IpcBlock → Option (List α)) (ports : ℕ → ℤ) :
    ℕ → ℕ → ℕ → Outcome ℕ
  | _, 0, count => .ok count
  | i, left + 1, count =>
    if ports i = -1 then .ok count
    else if portFlags proc (ports i) IPC_MASKED ≠ 0 then
      waiting proc queue ports (i + 1) left count
    else
      match queue (proc.block (ports i)) with
      | none => .error .assertion
      | some q => waiting proc queue ports (i + 1) left (count + q.length)

/-- The loop by which `peek_message` and `preview_pulse` look for `*dest_port` among the ports. -/
def findPort (ports : ℕ → ℤ) (destPort : ℤ) : ℕ → ℕ → Option ℕ
  | _, 0 => none
  | i, left + 1 =>
    if ports i = -1 then none
    else if ports i = destPort then some i
    else findPort ports destPort (i + 1) left

/-- `bottom` and `top` of the two previewing calls, `none` where they give up at once. -/
def bounds (ports : ℕ → ℤ) (destPort : ℤ) : Option (ℕ × ℕ) :=
  if InRange destPort then (findPort ports destPort 0 MAX_PORTS).map fun i => (i, i + 1)
  else some (0, MAX_PORTS)

/-- The entries from index `i` on before the first -1, among `left` of them. -/
def entries (ports : ℕ → ℤ) (i left : ℕ) : List ℤ :=
  ((List.range' i left).map ports).takeWhile (· ≠ -1)

def Thread.owned (a : Thread) : List ℤ := entries a.ports 0 MAX_PORTS

def Open (proc : Process) (port : ℤ) : Prop := InRange port ∧ (proc.block port).tid ≠ -1

/-- Open ports have both queues, and the ports that threads own are open. -/
structure Sound (proc : Process) : Prop where
  pulseQ : ∀ p, Open proc p → (proc.block p).pulseQ ≠ none
  messageQ : ∀ p, Open proc p → (proc.block p).messageQ ≠ none
  owned : ∀ t a, proc.threads t = some a → ∀ p ∈ a.owned, Open proc p

/-- The ports among `owned` that are not masked. -/
def unmasked (proc : Process) (owned : List ℤ) : List ℤ :=
  owned.filter fun p => portFlags proc p IPC_MASKED = 0

/-- What a queue pointer leads to, nothing for `NULL`. -/
def held {α : Type} (queue : IpcBlock → Option (List α)) (proc : Process) (port : ℤ) : List α :=
  (queue (proc.block port)).getD []

/-- The port a scan over the list `l` stops at. -/
def first {α : Type} (proc : Process) (queue : IpcBlock → Option (List α)) (skip : Bool)
    (l : List ℤ) : Option ℤ :=
  if skip then (unmasked proc l).find? fun p => !(held queue proc p).isEmpty
  else (unmasked proc l).head?.filter fun p => !(held queue proc p).isEmpty

/-- The ports a receiving call looks at: the one asked for or hinted at, or all that are owned. -/
def Thread.asked (a : Thread) (port : ℤ) : List ℤ := if InRange port then [port] else a.owned

/-- The ports `peek_message` looks at. -/
def Thread.searched (a : Thread) (port : ℤ) : List ℤ :=
  if InRange port then (if port ∈ a.owned then [port] else []) else a.owned

theorem open_of_portFlags {proc : Process} {port : ℤ} {flags : ℕ}
    (h : portFlags proc port flags = 0) : Open proc port := by
  unfold portFlags at h
  split_ifs at h with hr ht
  exact ⟨hr, ht⟩

theorem open_of_port2tid {proc : Process} {port : ℤ} (h : ¬ port2tid proc port < 0) :
    Open proc port := by
  unfold port2tid at h
  split_ifs at h with hr
  · exact ⟨hr, fun e => h (by rw [e]; decide)⟩
  · exact absurd (by decide) h

section Htable
variable (proc : Process) (temp : ThreadKey)

@[simp] theorem htable_keyOf_none :
    (proc.htable temp).keyOf none = magnitude (threadsKey temp.tid) :=
  (proc.htable temp).keyOf_eq_magnitude none

theorem htable_compare {t : ℕ} {a : Thread} (ha : proc.threads t = some a) :
    (proc.htable temp).compare (some t) none = threadsCompare a.toThreadKey temp := by
  simp only [Process.htable, Process.threadKey, ha, Option.map_some, Option.getD_some]

end Htable

/-- A look-up reads the table, and of each thread its name and `tid`. -/
theorem getThread_congr {proc proc' : Process} (hp : proc'.threadsHtable = proc.threadsHtable)
    (ht : ∀ t, (proc'.threads t).map Thread.toThreadKey =
      (proc.threads t).map Thread.toThreadKey) (tid : ℤ) :
    getThread proc' tid = getThread proc tid := by
  have hkey : ∀ temp, proc'.threadKey temp = proc.threadKey temp := by
    intro temp
    funext p
    cases p with
    | none => rfl
    | some t => rw [Process.threadKey, Process.threadKey, ht]
  have hderef : ∀ t, (deref (proc'.threads t) >>= fun _ => .ok (some t)) =
      (deref (proc.threads t) >>= fun _ => .ok (some t)) := by
    intro t
    have := ht t
    cases h₁ : proc'.threads t <;> cases h₂ : proc.threads t <;> simp [h₁, h₂] at this ⊢
  simp only [getThread, Process.htable, hp, hkey, hderef]

/-- What a look-up finds is a thread that the table holds. -/
theorem getThread_found {proc : Process} {tid : ℤ} {t : ℕ}
    (h : getThread proc tid = .ok (some t)) : ∃ a, proc.threads t = some a ∧
      threadsCompare a.toThreadKey ⟨fun _ => 0, tid⟩ = 0 := by
  obtain ⟨r, hr, h⟩ := bind_eq_ok.mp h
  cases hj : r.join with
  | none =>
    rw [hj] at h
    cases h
  | some u =>
    rw [hj] at h
    obtain ⟨a, ha, h⟩ := bind_eq_ok.mp h
    cases h
    obtain rfl : r = some (some t) := Option.join_eq_some_iff.mp hj
    obtain ⟨-, -, -, hc⟩ := retrieve_eq_some hr
    have ha := deref_eq_ok.mp ha
    exact ⟨a, ha, htable_compare proc _ ha ▸ hc⟩

theorem not_addressed {proc : Process} {port : ℤ} {e : Fault} (hneg : ¬ port2tid proc port < 0)
    (he : getThread proc (port2tid proc port) = .error e) : ¬ Addressed proc port := by
  rintro (h | ⟨t, h⟩)
  · exact hneg h
  · cases he.symm.trans h

theorem entries_succ (ports : ℕ → ℤ) (i left : ℕ) : entries ports i (left + 1) =
    if ports i = -1 then [] else ports i :: entries ports (i + 1) left := by
  by_cases h : ports i = -1 <;> simp [entries, List.range'_succ, h]

theorem block_setBlock (proc : Process) {p q : ℤ} (hp : InRange p) (hq : InRange q)
    (b : IpcBlock) : (proc.setBlock p b).block q = if q = p then b else proc.block q := by
  have hp := hp.1
  have hq := hq.1
  by_cases h : q = p
  · subst h
    simp [Process.setBlock, Process.block]
  · rw [if_neg h]
    exact Function.update_of_ne (by omega) _ _

theorem held_setBlock_ne {α : Type} (queue : IpcBlock → Option (List α)) {proc : Process}
    {p q : ℤ} (hp : InRange p) (hq : InRange q) (hne : q ≠ p) (b : IpcBlock) :
    held queue (proc.setBlock p b) q = held queue proc q := by
  rw [held, held, block_setBlock _ hp hq, if_neg hne]

namespace Sound
variable {proc : Process}

/-- A thread may change everything but the ports it owns. -/
theorem setThread (h : Sound proc) {t : ℕ} {a b : Thread} (ht : proc.threads t = some a)
    (hb : b.ports = a.ports) : Sound (proc.setThread t b) where
  pulseQ := h.pulseQ
  messageQ := h.messageQ
  owned u c hc p hp := by
    by_cases hu : u = t
    · subst hu
      obtain rfl : b = c := by simpa [Process.setThread] using hc
      rw [Thread.owned, hb] at hp
      exact h.owned u a ht p hp
    · exact h.owned u c (by simpa [Process.setThread, hu] using hc) p hp

/-- An open port may change everything but its owner and lose no queue. -/
theorem setBlock (h : Sound proc) {p : ℤ} (hp : InRange p) {b : IpcBlock}
    (htid : b.tid = (proc.block p).tid) (hpulse : Open proc p → b.pulseQ ≠ none)
    (hmsg : Open proc p → b.messageQ ≠ none) : Sound (proc.setBlock p b) := by
  have hopen : ∀ q, Open (proc.setBlock p b) q ↔ Open proc q := by
    intro q
    refine and_congr_right fun hq => ?_
    rw [block_setBlock _ hp hq]
    split_ifs with he
    · rw [htid, he]
    · rfl
  refine ⟨fun q hq => ?_, fun q hq => ?_, fun t a ht q hq => (hopen q).mpr (h.owned t a ht q hq)⟩
  · have hq := (hopen q).mp hq
    rw [block_setBlock _ hp hq.1]
    split_ifs with he
    · exact hpulse (he ▸ hq)
    · exact h.pulseQ q hq
  · have hq := (hopen q).mp hq
    rw [block_setBlock _ hp hq.1]
    split_ifs with he
    · exact hmsg (he ▸ hq)
    · exact h.messageQ q hq

end Sound

section Scans
variable {α : Type} {proc : Process} {queue : IpcBlock → Option (List α)}

theorem first_of_masked {skip : Bool} {p : ℤ} {l : List ℤ}
    (h : portFlags proc p IPC_MASKED ≠ 0) :
    first proc queue skip (p :: l) = first proc queue skip l := by
  simp [first, unmasked, h]

/-- By induction on the entries left. -/
theorem scan_eq (hq : ∀ p, Open proc p → queue (proc.block p) ≠ none) (skip : Bool)
    (ports : ℕ → ℤ) (i left : ℕ) :
    scan proc queue skip ports i left = .ok (first proc queue skip (entries ports i left)) := by
  induction left generalizing i with
  | zero => cases skip <;> rfl
  | succ left ih =>
    rw [scan, entries_succ]
    by_cases he : ports i = -1
    · rw [if_pos he, if_pos he]
      cases skip <;> rfl
    rw [if_neg he, if_neg he]
    by_cases hm : portFlags proc (ports i) IPC_MASKED = 0
    · rw [if_neg (not_not.mpr hm)]
      cases hb : queue (proc.block (ports i)) with
      | none => exact absurd hb (hq _ (open_of_portFlags hm))
      | some q => cases q <;> cases skip <;>
          simp [first, unmasked, hm, held, hb, Option.filter, ih]
    · rw [if_pos hm, ih, first_of_masked hm]

theorem pick_eq (hq : ∀ p, Open proc p → queue (proc.block p) ≠ none) (skip : Bool)
    (a : Thread) (port : ℤ) :
    pick proc queue skip a.ports port =
      .ok (first proc queue skip (if InRange port then [port] else a.owned)) := by
  rw [pick]
  split_ifs with hr hm
  · rw [first_of_masked hm]
    cases skip <;> rfl
  · have hm := not_not.mp hm
    cases hb : queue (proc.block port) with
    | none => exact absurd hb (hq _ (open_of_portFlags hm))
    | some q => cases q <;> cases skip <;> simp [first, unmasked, hm, held, hb, Option.filter]
  · exact scan_eq hq skip a.ports 0 MAX_PORTS

theorem waiting_eq (hq : ∀ p, Open proc p → queue (proc.block p) ≠ none)
    (ports : ℕ → ℤ) (i left count : ℕ) :
    waiting proc queue ports i left count = .ok (count +
      ((unmasked proc (entries ports i left)).map fun p => (held queue proc p).length).sum) := by
  induction left generalizing i count with
  | zero => rfl
  | succ left ih =>
    rw [waiting, entries_succ]
    split_ifs with he hm
    · rfl
    · rw [ih]
      simp [unmasked, hm]
    · have hm := not_not.mp hm
      cases hb : queue (proc.block (ports i)) with
      | none => exact absurd hb (hq _ (open_of_portFlags hm))
      | some q => simp [unmasked, hm, held, hb, ih, Nat.add_assoc]

theorem first_spec {skip : Bool} {l : List ℤ} {p : ℤ} (h : first proc queue skip l = some p) :
    p ∈ l ∧ Open proc p ∧ ∃ x rest, queue (proc.block p) = some (x :: rest) := by
  have hm : p ∈ unmasked proc l ∧ held queue proc p ≠ [] := by
    cases skip with
    | true =>
      have hne := List.find?_some h
      exact ⟨List.mem_of_find?_eq_some h, by simpa using hne⟩
    | false =>
      obtain ⟨hh, hne⟩ := Option.filter_eq_some_iff.mp h
      exact ⟨List.mem_of_head? hh, by simpa using hne⟩
  obtain ⟨hl, hf⟩ := List.mem_filter.mp hm.1
  refine ⟨hl, open_of_portFlags (of_decide_eq_true hf), ?_⟩
  cases hb : queue (proc.block p) with
  | none => simp [held, hb] at hm
  | some q =>
    cases q with
    | nil => simp [held, hb] at hm
    | cons x rest => exact ⟨x, rest, rfl⟩

/-- Nothing waits exactly when a scan that passes over empty queues finds nothing. -/
theorem waiting_eq_zero (l : List ℤ) :
    ((unmasked proc l).map fun p => (held queue proc p).length).sum = 0 ↔
      first proc queue true l = none := by
  simp [first, List.find?_eq_none, List.sum_eq_zero_iff]

theorem findPort_eq (ports : ℕ → ℤ) (port : ℤ) (i left : ℕ) :
    (findPort ports port i left = none ∧ port ∉ entries ports i left) ∨
    ∃ k, findPort ports port i left = some k ∧ port ∈ entries ports i left ∧
      entries ports k 1 = [port] := by
  induction left generalizing i with
  | zero => exact .inl ⟨rfl, nofun⟩
  | succ left ih =>
    rw [findPort, entries_succ]
    split_ifs with he hp
    · exact .inl ⟨rfl, nofun⟩
    · exact .inr ⟨i, rfl, hp ▸ List.mem_cons_self, by rw [entries_succ, if_neg he, hp]; rfl⟩
    · obtain ⟨hf, hn⟩ | ⟨k, hf, hm, hk⟩ := ih (i + 1)
      · exact .inl ⟨hf, fun h => hn ((List.mem_cons.mp h).resolve_left (Ne.symm hp))⟩
      · exact .inr ⟨k, hf, List.mem_cons_of_mem _ hm, hk⟩

end Scans

theorem bounds_cases (a : Thread) (destPort : ℤ) :
    (bounds a.ports destPort = none ∧ a.searched destPort = []) ∨
    ∃ bottom top, bounds a.ports destPort = some (bottom, top) ∧
      entries a.ports bottom (top - bottom) = a.searched destPort := by
  unfold bounds Thread.searched
  by_cases hr : InRange destPort
  · rw [if_pos hr, if_pos hr]
    obtain ⟨hf, hn⟩ | ⟨k, hf, hm, hk⟩ := findPort_eq a.ports destPort 0 MAX_PORTS
    · exact .inl ⟨by rw [hf]; rfl, if_neg hn⟩
    · refine .inr ⟨k, k + 1, by rw [hf]; rfl, ?_⟩
      rw [Nat.add_sub_cancel_left, hk]
      exact (if_pos hm).symm
  · rw [if_neg hr, if_neg hr]
    exact .inr ⟨0, MAX_PORTS, rfl, rfl⟩

/-- A thread that owns ports 0 and 1. -/
def receiver : Thread where
  name _ := 114
  tid := 1
  ports i := if i = 0 then 0 else if i = 1 then 1 else -1
  lastPortPulse := -1
  lastPortMessage := -1

theorem receiver_owned : receiver.owned = [0, 1] := by decide

/-- A table of 128 slots that holds the address 1, of the thread with `tid` 1. -/
def oneThread : HashTable (Option ℕ) :=
  { initHtable 128 75 (fun _ => 0) (fun _ _ => 0) with
    total := 1
    table := fun i => if i = 100 then some (some 1) else none }

/-- The process of that thread, with nothing queued. -/
def idlePorts : Process where
  ipc p := if p < 2 then ⟨1, 0, some [], some []⟩ else ⟨-1, 0, none, none⟩
  threads t := if t = 1 then some receiver else none
  threadsHtable := oneThread
  heap := ⟨fun _ => none, []⟩

theorem idlePorts_block (p : ℤ) : idlePorts.block p = ⟨1, 0, some [], some []⟩ ∨
    idlePorts.block p = ⟨-1, 0, none, none⟩ := by
  unfold Process.block idlePorts
  dsimp only
  split_ifs
  · exact .inl rfl
  · exact .inr rfl

theorem held_idlePorts_message (p : ℤ) : held IpcBlock.messageQ idlePorts p = [] := by
  obtain h | h := idlePorts_block p <;> simp [held, h]

theorem held_idlePorts_pulse (p : ℤ) : held IpcBlock.pulseQ idlePorts p = [] := by
  obtain h | h := idlePorts_block p <;> simp [held, h]

theorem sound_idlePorts : Sound idlePorts := by
  have hq : ∀ p, Open idlePorts p → idlePorts.block p = ⟨1, 0, some [], some []⟩ := by
    intro p hp
    exact (idlePorts_block p).resolve_right fun h => hp.2 (by rw [h])
  refine ⟨fun p hp => by simp [hq p hp], fun p hp => by simp [hq p hp], fun t a ht p hp => ?_⟩
  simp only [idlePorts] at ht
  split_ifs at ht
  cases ht
  rw [receiver_owned] at hp
  have : ∀ p ∈ [(0 : ℤ), 1], Open idlePorts p := by
    unfold Open
    decide
  exact this p hp

end Racoon.Ipc
