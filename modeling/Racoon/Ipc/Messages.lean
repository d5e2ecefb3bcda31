import Racoon.Ipc.Process
import Racoon.Lib.Run

/-!
# Message operations

`ipc/messages.c`: a message is queued at a port with a copy of its data, and
four calls of the receiving thread scan the thread's ports for one. They are
meant to agree on which message is next. `recv_message` and `messages_waiting`
do; `drop_message` gives up at the first port that is empty, and `peek_message`
takes the message it reports out of its queue and never frees its data.

A call returns the message it took, `none` for the value -1. The length of a
message is an `int`, kept here as the `size_t` that `kmalloc` and `kmemcpy` get,
and `kmalloc` is taken to give as many bytes as it is asked for. Waking the
receiver up is left to the model of dormant threads.
-/

namespace Racoon.Ipc
open Lib HashTables

def newMessage (sourcePid sourcePort destPort : ℤ) (location : List UInt8) (data : ℕ) : Message :=
  ⟨sourcePid, sourcePort, destPort, location.length, data⟩

/-- `location` is what is copied, `kmalloc` the address of the data, and `room` says whether the
queue takes the message. -/
def sendMessage (proc : Process) (sourcePid sourcePort destPort : ℤ) (location : List UInt8)
    (kmalloc : Option ℕ) (room : Bool) : Outcome (Process × ℤ) :=
  let destTid := port2tid proc destPort
  if destTid < 0 then .ok (proc, -1)
  else do
    match ← getThread proc destTid, kmalloc with
    | none, _ => .ok (proc, -1)
    | some _, none => .ok (proc, -1)
    | some _, some data => do
      let msg := newMessage sourcePid sourcePort destPort location data
      let q ← deref (proc.block destPort).messageQ
      if room then
        let b := { proc.block destPort with messageQ := some (q ++ [msg]) }
        .ok ({ proc.setBlock destPort b with heap := proc.heap.put data location }, 0)
      else .ok (proc, -1)

def nextMessage (proc : Process) (port : ℤ) : Outcome (Process × Message) := do
  let (tmp, rest) ← aqueueNext (proc.block port).messageQ
  .ok (proc.setBlock port { proc.block port with messageQ := some rest }, tmp)

/-- `size = tmp.bytes; if ( bytes < size ) size = bytes;` -/
def Message.size (tmp : Message) (bytes : ℤ) : ℤ :=
  if bytes < int32 tmp.bytes then bytes else int32 tmp.bytes

/-- `kmemcpy` from a block of data. -/
def kmemcpy (contents : List UInt8) (n : ℕ) : Outcome (List UInt8) :=
  if n ≤ contents.length then .ok (contents.take n) else .error .badAccess

/-- The message taken, what is copied to `location` and the value returned. -/
structure Received where
  tmp : Message
  location : List UInt8
  size : ℤ

def receiveFrom (proc : Process) (port bytes : ℤ) : Outcome (Process × Option Received) := do
  let (proc, tmp) ← nextMessage proc port
  let size := tmp.size bytes
  let contents ← deref (proc.heap.block tmp.data)
  let location ← kmemcpy contents (asSize size)
  let heap ← proc.heap.kfree tmp.data
  .ok ({ proc with heap := heap }, some ⟨tmp, location, size⟩)

def recvMessage (proc : Process) (tr : ℕ) (destPort bytes : ℤ) :
    Outcome (Process × Option Received) := do
  let a ← deref (proc.threads tr)
  let port := if InRange destPort then destPort else a.lastPortMessage
  let proc := proc.setThread tr { a with lastPortMessage := -1 }
  match ← pick proc IpcBlock.messageQ true a.ports port with
  | none => .ok (proc, none)
  | some port => receiveFrom proc port bytes

def peekMessage (proc : Process) (tr : ℕ) (destPort : ℤ) : Outcome (Process × Option Message) := do
  let a ← deref (proc.threads tr)
  match bounds a.ports destPort with
  | none => .ok (proc, none)
  | some (bottom, top) => do
    let proc := proc.setThread tr { a with lastPortMessage := -1 }
    match ← scan proc IpcBlock.messageQ true a.ports bottom (top - bottom) with
    | none => .ok (proc, none)
    | some port => do
      let (proc, tmp) ← nextMessage proc port
      .ok (proc.setThread tr { a with lastPortMessage := port }, some tmp)

def messagesWaiting (proc : Process) (tr : ℕ) : Outcome ℕ := do
  let a ← deref (proc.threads tr)
  waiting proc IpcBlock.messageQ a.ports 0 MAX_PORTS 0

def dropMessage (proc : Process) (tr : ℕ) : Outcome (Process × Option Message) := do
  let a ← deref (proc.threads tr)
  let port := a.lastPortMessage
  let proc := proc.setThread tr { a with lastPortMessage := -1 }
  match ← pick proc IpcBlock.messageQ false a.ports port with
  | none => .ok (proc, none)
  | some port => do
    let (proc, tmp) ← nextMessage proc port
    let heap ← proc.heap.kfree tmp.data
    .ok ({ proc with heap := heap }, some tmp)

def messages (proc : Process) (port : ℤ) : List Message := held IpcBlock.messageQ proc port

/-- The message that a thread receives next. -/
def nextUp (proc : Process) (a : Thread) (destPort : ℤ) : Option Message :=
  (first proc IpcBlock.messageQ true
    (a.asked (if InRange destPort then destPort else a.lastPortMessage))).bind fun p =>
      (messages proc p).head?

/-- There is no message, or neither of the two lengths is negative. -/
def RecvsSafely (proc : Process) (a : Thread) (destPort bytes : ℤ) : Prop :=
  ∀ m ∈ nextUp proc a destPort, 0 ≤ bytes ∧ 0 ≤ int32 m.bytes

/-- Every queued message has a block of data of its own. -/
structure Live (proc : Process) : Prop where
  data : ∀ p, InRange p → ∀ m ∈ messages proc p,
    ∃ c, proc.heap.block m.data = some c ∧ c.length = m.bytes
  nodup : ∀ p, InRange p → ((messages proc p).map Message.data).Nodup
  apart : ∀ p q, InRange p → InRange q → p ≠ q →
    ∀ m ∈ messages proc p, ∀ m' ∈ messages proc q, m.data ≠ m'.data

/-- The state after the oldest message of a port was taken from its queue. -/
def unqueued (proc : Process) (port : ℤ) (rest : List Message) : Process :=
  proc.setBlock port { proc.block port with messageQ := some rest }

/-- And after its data was freed too. -/
def consumed (proc : Process) (port : ℤ) (m : Message) (rest : List Message) : Process :=
  { unqueued proc port rest with
    heap := ⟨Function.update proc.heap.block m.data none, proc.heap.freed ++ [m.data]⟩ }

def hinted (proc : Process) (tr : ℕ) (a : Thread) (port : ℤ) : Process :=
  proc.setThread tr { a with lastPortMessage := port }

theorem nextMessage_eq {proc : Process} {p : ℤ} {m : Message} {rest : List Message}
    (h : (proc.block p).messageQ = some (m :: rest)) :
    nextMessage proc p = .ok (unqueued proc p rest, m) := by
  rw [nextMessage, h]
  rfl

theorem kfree_eq {h : Heap} {x : ℕ} {c : List UInt8} (hx : h.block x = some c) :
    h.kfree x = .ok ⟨Function.update h.block x none, h.freed ++ [x]⟩ := by
  simp [Heap.kfree, hx]

theorem messages_setBlock {proc : Process} {p q : ℤ} (hp : InRange p) (hq : InRange q)
    (b : IpcBlock) (l : List Message) : messages (proc.setBlock p { b with messageQ := some l }) q =
      if q = p then l else messages proc q := by
  rw [messages, held, block_setBlock _ hp hq]
  split_ifs <;> rfl

theorem messages_eq {proc : Process} {p : ℤ} {l : List Message}
    (h : (proc.block p).messageQ = some l) : messages proc p = l := by
  rw [messages, held, h]
  rfl

/-! ### Lengths -/

theorem kmemcpy_eq {contents : List UInt8} {n : ℕ} (h : n ≤ contents.length) :
    kmemcpy contents n = .ok (contents.take n) := if_pos h

theorem int32_le {n : ℕ} (h : 0 ≤ int32 n) : int32 n ≤ n := by
  unfold int32 at h ⊢
  rw [Int.bmod_def] at h ⊢
  split_ifs at h ⊢ <;> omega

theorem Message.size_nonneg_iff (m : Message) (bytes : ℤ) :
    0 ≤ m.size bytes ↔ 0 ≤ bytes ∧ 0 ≤ int32 m.bytes := by
  unfold Message.size
  split_ifs <;> omega

theorem Message.size_le {m : Message} {bytes : ℤ} (h : 0 ≤ m.size bytes) :
    asSize (m.size bytes) ≤ m.bytes := by
  obtain ⟨hb, hm⟩ := (m.size_nonneg_iff bytes).mp h
  have hle := int32_le hm
  unfold Message.size asSize
  split_ifs <;> omega

/-- A negative count is as a `size_t` larger than the length of any message that is not negative. -/
theorem Message.size_le_iff {m : Message} {bytes : ℤ} (hb : IsInt bytes) (hm : m.bytes < 2 ^ 32) :
    asSize (m.size bytes) ≤ m.bytes ↔ 0 ≤ bytes ∨ int32 m.bytes < 0 := by
  obtain ⟨hlow, hhigh⟩ := hb
  have hint : int32 m.bytes =
      if (m.bytes : ℤ) < 2 ^ 31 then (m.bytes : ℤ) else m.bytes - 2 ^ 32 := by
    unfold int32
    rw [Int.bmod_def]
    split_ifs <;> omega
  unfold Message.size asSize
  rw [hint]
  split_ifs <;> omega

namespace Sound
variable {proc : Process}

theorem messages (h : Sound proc) {p : ℤ} (hp : Open proc p) :
    (proc.block p).messageQ = some (Ipc.messages proc p) := by
  obtain ⟨l, hl⟩ := Option.ne_none_iff_exists'.mp (h.messageQ p hp)
  rw [messages_eq hl, hl]

theorem setMessages (h : Sound proc) {p : ℤ} (hp : Open proc p) (l : List Message) :
    Sound (proc.setBlock p { proc.block p with messageQ := some l }) :=
  h.setBlock hp.1 rfl (h.pulseQ p) fun _ => Option.some_ne_none l

theorem setHeap (h : Sound proc) (heap : Heap) : Sound { proc with heap := heap } :=
  ⟨h.pulseQ, h.messageQ, h.owned⟩

end Sound

namespace Live
variable {proc : Process}

theorem setThread (h : Live proc) (t : ℕ) (a : Thread) : Live (proc.setThread t a) :=
  ⟨h.data, h.nodup, h.apart⟩

theorem consumed (h : Live proc) {p : ℤ} (hp : InRange p) {m : Message} {rest : List Message}
    (hq : messages proc p = m :: rest) : Live (consumed proc p m rest) := by
  have hm : m ∈ messages proc p := hq ▸ List.mem_cons_self
  have hnd : m.data ∉ rest.map Message.data := by
    have := h.nodup p hp
    rw [hq, List.map_cons] at this
    exact (List.nodup_cons.mp this).1
  have he : ∀ q, InRange q → messages (Ipc.consumed proc p m rest) q =
      if q = p then rest else messages proc q := fun q hr => messages_setBlock hp hr _ rest
  have hsub : ∀ q, InRange q → List.Sublist (messages (Ipc.consumed proc p m rest) q)
      (messages proc q) := by
    intro q hr
    rw [he q hr]
    split_ifs with h'
    · rw [h', hq]
      exact List.sublist_cons_self m rest
    · exact List.Sublist.refl _
  refine ⟨fun q hr m' hm' => ?_, fun q hr => (h.nodup q hr).sublist ((hsub q hr).map _),
    fun q q' hr hr' hne m₁ h₁ m₂ h₂ =>
      h.apart q q' hr hr' hne m₁ ((hsub q hr).subset h₁) m₂ ((hsub q' hr').subset h₂)⟩
  obtain ⟨c, hc, hlen⟩ := h.data q hr m' ((hsub q hr).subset hm')
  have hne : m'.data ≠ m.data := by
    rw [he q hr] at hm'
    split_ifs at hm' with h'
    · exact fun e => hnd (e ▸ List.mem_map_of_mem hm')
    · exact h.apart q p hr hp h' m' hm' m hm
  exact ⟨c, (Function.update_of_ne hne _ _).trans hc, hlen⟩

/-- A message queued with its data in a block that was free. -/
theorem sent (h : Live proc) {p : ℤ} (hp : InRange p) {m : Message} {c : List UInt8}
    (hfree : proc.heap.block m.data = none) (hlen : c.length = m.bytes) :
    Live { proc.setBlock p { proc.block p with messageQ := some (messages proc p ++ [m]) } with
      heap := proc.heap.put m.data c } := by
  have hold : ∀ q, InRange q → ∀ m' ∈ messages proc q, m'.data ≠ m.data := by
    intro q hr m' hm' e
    obtain ⟨c', hc, _⟩ := h.data q hr m' hm'
    rw [e, hfree] at hc
    cases hc
  have he : ∀ q, InRange q →
      messages (proc.setBlock p { proc.block p with messageQ := some (messages proc p ++ [m]) }) q =
      if q = p then messages proc p ++ [m] else messages proc q :=
    fun q hr => messages_setBlock hp hr _ _
  refine ⟨fun q hr m' hm' => ?_, fun q hr => ?_, fun q q' hr hr' hne m₁ h₁ m₂ h₂ => ?_⟩
  · have hm' := he q hr ▸ hm'
    by_cases hmm : m'.data = m.data
    · have : m' = m := by
        split_ifs at hm' with h'
        · exact (List.mem_append.mp hm').elim (fun hx => absurd hmm (hold p hp m' hx)) (by simp)
        · exact absurd hmm (hold q hr m' hm')
      exact ⟨c, by simp [Heap.put, this], by rw [hlen, this]⟩
    · have hm' : m' ∈ messages proc q := by
        split_ifs at hm' with h'
        · refine h' ▸ (List.mem_append.mp hm').resolve_right fun hx => hmm ?_
          rw [List.mem_singleton.mp hx]
        · exact hm'
      obtain ⟨c', hc, hl⟩ := h.data q hr m' hm'
      exact ⟨c', (Function.update_of_ne hmm _ _).trans hc, hl⟩
  · have heq := he q hr
    refine (congrArg (fun l => (l.map Message.data).Nodup) heq).mpr ?_
    split_ifs with h'
    · rw [List.map_append]
      refine List.Nodup.append (h.nodup p hp) (List.nodup_singleton _) ?_
      simpa [List.disjoint_left] using fun m' hm' => hold p hp m' hm'
    · exact h.nodup q hr
  · have h₁ := he q hr ▸ h₁
    have h₂ := he q' hr' ▸ h₂
    have key : ∀ q, InRange q → ∀ x ∈ (if q = p then messages proc p ++ [m] else messages proc q),
        x ∈ messages proc q ∨ q = p ∧ x = m := by
      intro q hr x hx
      split_ifs at hx with h'
      · exact (List.mem_append.mp hx).imp (h' ▸ ·) fun hx => ⟨h', List.mem_singleton.mp hx⟩
      · exact .inl hx
    obtain hx | ⟨e₁, hx⟩ := key q hr m₁ h₁ <;> obtain hy | ⟨e₂, hy⟩ := key q' hr' m₂ h₂
    · exact h.apart q q' hr hr' hne m₁ hx m₂ hy
    · exact hy ▸ hold q hr m₁ hx
    · exact hx ▸ (hold q' hr' m₂ hy).symm
    · exact absurd (e₁.trans e₂.symm) hne

end Live

section Calls
variable {proc : Process} {tr : ℕ} {a : Thread}

/-- What `first` finds does not depend on the threads. -/
theorem first_hinted (a : Thread) (port : ℤ) (skip : Bool) (l : List ℤ) :
    first (hinted proc tr a port) IpcBlock.messageQ skip l =
      first proc IpcBlock.messageQ skip l := rfl

theorem messagesWaiting_eq (hs : Sound proc) (ht : proc.threads tr = some a) :
    messagesWaiting proc tr =
      .ok ((unmasked proc a.owned).map fun p => (messages proc p).length).sum := by
  rw [messagesWaiting, ht, deref_some, ok_bind, waiting_eq hs.messageQ, Nat.zero_add]
  rfl

/-- What is picked, and what taking the oldest message there gives. -/
theorem pick_message (hs : Sound proc) (hl : Live proc) (tr : ℕ) (a : Thread) (skip : Bool)
    (port : ℤ) :
    (first proc IpcBlock.messageQ skip (a.asked port) = none ∧
      pick (hinted proc tr a (-1)) IpcBlock.messageQ skip a.ports port = .ok none) ∨
    ∃ p m rest c, first proc IpcBlock.messageQ skip (a.asked port) = some p ∧ Open proc p ∧
      messages proc p = m :: rest ∧ proc.heap.block m.data = some c ∧ c.length = m.bytes ∧
      pick (hinted proc tr a (-1)) IpcBlock.messageQ skip a.ports port = .ok (some p) ∧
      nextMessage (hinted proc tr a (-1)) p =
        .ok (unqueued (hinted proc tr a (-1)) p rest, m) := by
  have hq : ∀ p, Open (hinted proc tr a (-1)) p →
      ((hinted proc tr a (-1)).block p).messageQ ≠ none := hs.messageQ
  have hpick := pick_eq hq skip a port
  rw [first_hinted, ← Thread.asked] at hpick
  rw [hpick]
  cases hf : first proc IpcBlock.messageQ skip (a.asked port) with
  | none => exact .inl ⟨rfl, rfl⟩
  | some p =>
    obtain ⟨_, hp, m, rest, hb⟩ := first_spec hf
    have hm := messages_eq hb
    obtain ⟨c, hc, hlen⟩ := hl.data p hp.1 m (hm ▸ List.mem_cons_self)
    have hb' : ((hinted proc tr a (-1)).block p).messageQ = some (m :: rest) := hb
    exact .inr ⟨p, m, rest, c, rfl, hp, hm, hc, hlen, rfl, nextMessage_eq hb'⟩

/-- The message that is next, if there is one, is taken with a copy of so many bytes. -/
theorem recvMessage_cases (hs : Sound proc) (hl : Live proc) (ht : proc.threads tr = some a)
    (destPort bytes : ℤ) :
    let l := a.asked (if InRange destPort then destPort else a.lastPortMessage)
    (nextUp proc a destPort = none ∧ first proc IpcBlock.messageQ true l = none ∧
      recvMessage proc tr destPort bytes = .ok (hinted proc tr a (-1), none)) ∨
    ∃ p m rest c, nextUp proc a destPort = some m ∧
      first proc IpcBlock.messageQ true l = some p ∧ Open proc p ∧ messages proc p = m :: rest ∧
      c.length = m.bytes ∧ recvMessage proc tr destPort bytes =
        kmemcpy c (asSize (m.size bytes)) >>= fun location =>
          .ok (consumed (hinted proc tr a (-1)) p m rest, some ⟨m, location, m.size bytes⟩) := by
  intro l
  rw [recvMessage, ht, deref_some, ok_bind]
  dsimp only
  rw [← hinted]
  obtain ⟨hf, hp⟩ | ⟨p, m, rest, c, hf, ho, hm, hc, hlen, hp, hn⟩ := pick_message hs hl tr a true
    (if InRange destPort then destPort else a.lastPortMessage)
  · have hnone : nextUp proc a destPort = none := by
      rw [nextUp, hf]
      rfl
    rw [hp]
    exact .inl ⟨hnone, hf, rfl⟩
  · have hc' : (unqueued (hinted proc tr a (-1)) p rest).heap.block m.data = some c := hc
    refine .inr ⟨p, m, rest, c, ?_, hf, ho, hm, hlen, ?_⟩
    · rw [nextUp, hf, Option.bind_some, hm]
      rfl
    · rw [hp, ok_bind]
      dsimp only
      rw [receiveFrom, hn, ok_bind]
      dsimp only
      rw [hc', deref_some, ok_bind, kfree_eq hc']
      rfl

theorem dropMessage_cases (hs : Sound proc) (hl : Live proc) (ht : proc.threads tr = some a) :
    let l := a.asked a.lastPortMessage
    (first proc IpcBlock.messageQ false l = none ∧
      dropMessage proc tr = .ok (hinted proc tr a (-1), none)) ∨
    ∃ p m rest, first proc IpcBlock.messageQ false l = some p ∧ Open proc p ∧
      messages proc p = m :: rest ∧
      dropMessage proc tr = .ok (consumed (hinted proc tr a (-1)) p m rest, some m) := by
  intro l
  rw [dropMessage, ht, deref_some, ok_bind]
  simp only
  rw [← hinted]
  obtain ⟨hf, hp⟩ | ⟨p, m, rest, c, hf, ho, hm, hc, -, hp, hn⟩ :=
    pick_message hs hl tr a false a.lastPortMessage
  · rw [hp]
    exact .inl ⟨hf, rfl⟩
  · have hc' : (unqueued (hinted proc tr a (-1)) p rest).heap.block m.data = some c := hc
    refine .inr ⟨p, m, rest, hf, ho, hm, ?_⟩
    rw [hp, ok_bind]
    simp only
    rw [hn, ok_bind]
    simp only
    rw [kfree_eq hc', ok_bind]
    rfl

theorem peekMessage_cases (hs : Sound proc) (ht : proc.threads tr = some a) (destPort : ℤ) :
    let l := a.searched destPort
    (first proc IpcBlock.messageQ true l = none ∧
      (peekMessage proc tr destPort = .ok (proc, none) ∨
        peekMessage proc tr destPort = .ok (hinted proc tr a (-1), none))) ∨
    ∃ p m rest b, first proc IpcBlock.messageQ true l = some p ∧ Open proc p ∧
      messages proc p = m :: rest ∧
      peekMessage proc tr destPort =
        .ok ((unqueued (hinted proc tr a (-1)) p rest).setThread tr b, some m) := by
  intro l
  have hq : ∀ p, Open (hinted proc tr a (-1)) p →
      ((hinted proc tr a (-1)).block p).messageQ ≠ none := hs.messageQ
  rw [peekMessage, ht, deref_some, ok_bind]
  obtain ⟨hb, hl⟩ | ⟨bottom, top, hb, hl⟩ := bounds_cases a destPort
  · left
    rw [hb]
    refine ⟨?_, .inl rfl⟩
    unfold l
    rw [hl]
    rfl
  · rw [hb]
    simp only
    rw [← hinted, scan_eq hq, first_hinted, hl, ok_bind]
    cases hf : first proc IpcBlock.messageQ true l with
    | none => exact .inl ⟨rfl, .inr rfl⟩
    | some p =>
      right
      obtain ⟨_, hp, m, rest, hb⟩ := first_spec hf
      have hb' : ((hinted proc tr a (-1)).block p).messageQ = some (m :: rest) := hb
      refine ⟨p, m, rest, { a with lastPortMessage := p }, rfl, hp, messages_eq hb, ?_⟩
      simp only
      rw [nextMessage_eq hb', ok_bind]

end Calls

/-- The queues after a call that took the oldest message of the first unmasked port among `owned`
that has any, and nothing else; or that took nothing. -/
def TakesOldest (proc : Process) (owned : List ℤ) (proc' : Process) : Option Message → Prop
  | none => ∀ q, InRange q → messages proc' q = messages proc q
  | some m => ∃ p rest, first proc IpcBlock.messageQ true owned = some p ∧
      messages proc p = m :: rest ∧ messages proc' p = rest ∧
      ∀ q, InRange q → q ≠ p → messages proc' q = messages proc q

/-- Success exactly when `messages_waiting` is positive. -/
def Succeeds (proc : Process) (tr : ℕ) (success : Prop) : Prop :=
  ∃ n, messagesWaiting proc tr = .ok n ∧ (success ↔ 0 < n)

/-- A negative value of `recv_message` means failure. -/
def RecvAgrees (proc : Process) (tr : ℕ) (a : Thread) (bytes : ℤ) : Prop :=
  ∃ proc' r, recvMessage proc tr (-1) bytes = .ok (proc', r) ∧
    Succeeds proc tr (∃ x ∈ r, 0 ≤ x.size) ∧
    TakesOldest proc a.owned proc' (r.map Received.tmp)

/-- `peek_message` reports the message the others would take, and takes nothing. -/
def PeekAgrees (proc : Process) (tr : ℕ) (a : Thread) : Prop :=
  ∃ proc' r, peekMessage proc tr (-1) = .ok (proc', r) ∧ Succeeds proc tr r.isSome ∧
    (∀ m, r = some m → ∃ p, first proc IpcBlock.messageQ true a.owned = some p ∧
      (messages proc p).head? = some m) ∧
    ∀ q, InRange q → messages proc' q = messages proc q

def DropAgrees (proc : Process) (tr : ℕ) (a : Thread) : Prop :=
  ∃ proc' r, dropMessage proc tr = .ok (proc', r) ∧
    Succeeds proc tr r.isSome ∧ TakesOldest proc a.owned proc' r

section Agreement
variable {proc : Process} {tr : ℕ} {a : Thread}

theorem waiting_zero_iff (hs : Sound proc) (ht : proc.threads tr = some a) :
    messagesWaiting proc tr = .ok 0 ↔ first proc IpcBlock.messageQ true a.owned = none := by
  rw [messagesWaiting_eq hs ht, Except.ok.injEq]
  exact waiting_eq_zero a.owned

theorem succeeds_iff (hs : Sound proc) (ht : proc.threads tr = some a) {success : Prop} :
    Succeeds proc tr success ↔
      (success ↔ first proc IpcBlock.messageQ true a.owned ≠ none) := by
  have hz := waiting_zero_iff hs ht
  obtain ⟨n, hn⟩ : ∃ n, messagesWaiting proc tr = .ok n := ⟨_, messagesWaiting_eq hs ht⟩
  rw [hn, Except.ok.injEq] at hz
  simp only [Succeeds, hn, Except.ok.injEq, ne_eq, ← hz, ← Nat.pos_iff_ne_zero]
  exact ⟨fun ⟨_, he, h⟩ => he ▸ h, fun h => ⟨n, rfl, h⟩⟩

theorem messages_consumed {p q : ℤ} (hp : InRange p) (hq : InRange q) (port : ℤ) (m : Message)
    (rest : List Message) : messages (consumed (hinted proc tr a port) p m rest) q =
      if q = p then rest else messages proc q :=
  messages_setBlock hp hq _ rest

theorem takesOldest_consumed {p : ℤ} {m : Message} {rest : List Message} {owned : List ℤ}
    (hf : first proc IpcBlock.messageQ true owned = some p) (hp : InRange p)
    (hm : messages proc p = m :: rest) (port : ℤ) :
    TakesOldest proc owned (consumed (hinted proc tr a port) p m rest) (some m) := by
  refine ⟨p, rest, hf, hm, ?_, fun q hq hne => ?_⟩
  · rw [messages_consumed hp hp, if_pos rfl]
  · rw [messages_consumed hp hq, if_neg hne]

/-- A message is copied and its length returned where neither length is negative. -/
theorem recv_agrees_iff (hs : Sound proc) (hl : Live proc) (ht : proc.threads tr = some a)
    (hint : a.lastPortMessage = -1) (bytes : ℤ) :
    RecvAgrees proc tr a bytes ↔ RecvsSafely proc a (-1) bytes := by
  have hl' : a.asked (if InRange (-1) then -1 else a.lastPortMessage) = a.owned := by
    rw [hint]
    rfl
  obtain ⟨hn, hf, he⟩ | ⟨p, m, rest, c, hn, hf, hp, hm, hlen, he⟩ :=
    recvMessage_cases hs hl ht (-1) bytes
  · rw [hl'] at hf
    refine iff_of_true ⟨_, _, he, (succeeds_iff hs ht).mpr (by simp [hf]), fun _ _ => rfl⟩ ?_
    rw [RecvsSafely, hn]
    nofun
  · rw [hl'] at hf
    have hsafe : RecvsSafely proc a (-1) bytes ↔ 0 ≤ m.size bytes := by
      rw [RecvsSafely, hn, m.size_nonneg_iff]
      simp
    rw [hsafe]
    constructor
    · rintro ⟨proc', r, h, hsu, _⟩
      rw [he] at h
      obtain ⟨location, _, h⟩ := bind_eq_ok.mp h
      cases h
      obtain ⟨x, hx, hpos⟩ := ((succeeds_iff hs ht).mp hsu).mpr (by simp [hf])
      obtain rfl := Option.some.inj hx
      dsimp only at hpos
      exact hpos
    · intro hpos
      have hle : asSize (m.size bytes) ≤ c.length := hlen.symm ▸ Message.size_le hpos
      rw [kmemcpy_eq hle, ok_bind] at he
      refine ⟨_, _, he, (succeeds_iff hs ht).mpr (iff_of_true ?_ (by simp [hf])),
        takesOldest_consumed hf hp.1 hm (-1)⟩
      refine ⟨_, Option.mem_some_self _, ?_⟩
      dsimp only
      exact hpos

/-- A message that `peek_message` reports is no longer at the head of its queue. -/
theorem peek_agrees_iff (hs : Sound proc) (ht : proc.threads tr = some a) :
    PeekAgrees proc tr a ↔ messagesWaiting proc tr = .ok 0 := by
  rw [waiting_zero_iff hs ht]
  obtain ⟨hf, he⟩ | ⟨p, m, rest, b, hf, hp, hm, he⟩ := peekMessage_cases hs ht (-1)
  · have hf : first proc IpcBlock.messageQ true a.owned = none := hf
    refine iff_of_true ?_ hf
    have hsu : Succeeds proc tr (none : Option Message).isSome :=
      (succeeds_iff hs ht).mpr (by simp [hf])
    obtain he | he := he
    · exact ⟨_, _, he, hsu, nofun, fun _ _ => rfl⟩
    · exact ⟨_, _, he, hsu, nofun, fun _ _ => rfl⟩
  · have hf : first proc IpcBlock.messageQ true a.owned = some p := hf
    refine iff_of_false ?_ (by simp [hf])
    rintro ⟨proc', r, h, _, _, hq⟩
    rw [he] at h
    cases h
    have hrest : messages ((unqueued (hinted proc tr a (-1)) p rest).setThread tr b) p = rest :=
      (messages_setBlock hp.1 hp.1 _ rest).trans (if_pos rfl)
    have := hq p hp.1
    rw [hrest, hm] at this
    exact List.cons_ne_self m rest this.symm

/-- `drop_message` looks no further than the first port that is not masked. -/
theorem drop_agrees_iff (hs : Sound proc) (hl : Live proc) (ht : proc.threads tr = some a)
    (hint : a.lastPortMessage = -1) : DropAgrees proc tr a ↔
      messagesWaiting proc tr = .ok 0 ∨
      ∃ p, (unmasked proc a.owned).head? = some p ∧ messages proc p ≠ [] := by
  rw [waiting_zero_iff hs ht]
  have hl' : a.asked a.lastPortMessage = a.owned := by
    rw [hint]
    rfl
  obtain ⟨hf, he⟩ | ⟨p, m, rest, hf, hp, hm, he⟩ := dropMessage_cases hs hl ht
  · rw [hl'] at hf
    constructor
    · rintro ⟨proc', r, h, hsu, _⟩
      rw [he] at h
      cases h
      left
      simpa using ((succeeds_iff hs ht).mp hsu).mpr.mt
    · rintro (hn | ⟨p, hh, hne⟩)
      · exact ⟨_, _, he, (succeeds_iff hs ht).mpr (by simp [hn]), fun _ _ => rfl⟩
      · simp [first, hh, Option.filter] at hf
        exact absurd hf hne
  · rw [hl'] at hf
    have hh := Option.filter_eq_some_iff.mp hf
    refine iff_of_true ?_ (.inr ⟨p, hh.1, by simp [hm]⟩)
    have hf' : first proc IpcBlock.messageQ true a.owned = some p := by
      obtain ⟨l, hl⟩ := List.head?_eq_some_iff.mp hh.1
      have hne : held IpcBlock.messageQ proc p ≠ [] := by simpa using hh.2
      simp [first, hl, hne]
    exact ⟨_, _, he, (succeeds_iff hs ht).mpr (by simp [hf']),
      takesOldest_consumed hf' hp.1 hm (-1)⟩

end Agreement

/-- A process with the messages accepted by `send_message` and those that `recv_message` and
`drop_message` took. -/
structure MessageRun where
  proc : Process
  accepted : List Message
  received : List Message

inductive MessageCall
  | send (sourcePid sourcePort destPort : ℤ) (location : List UInt8) (kmalloc : Option ℕ)
      (room : Bool)
  | recv (tr : ℕ) (destPort bytes : ℤ)
  | peek (tr : ℕ) (destPort : ℤ)
  | drop (tr : ℕ)

def MessageCall.exec (s : MessageRun) : MessageCall → Outcome MessageRun
  | .send sourcePid sourcePort destPort location kmalloc room => do
    let (proc, rc) ← sendMessage s.proc sourcePid sourcePort destPort location kmalloc room
    let msg := kmalloc.map (newMessage sourcePid sourcePort destPort location)
    .ok ⟨proc, if rc = 0 then s.accepted ++ msg.toList else s.accepted, s.received⟩
  | .recv tr destPort bytes => do
    let (proc, r) ← recvMessage s.proc tr destPort bytes
    .ok ⟨proc, s.accepted, s.received ++ (r.map Received.tmp).toList⟩
  | .peek tr destPort => do
    let (proc, _) ← peekMessage s.proc tr destPort
    .ok { s with proc := proc }
  | .drop tr => do
    let (proc, r) ← dropMessage s.proc tr
    .ok ⟨proc, s.accepted, s.received ++ r.toList⟩

/-- `kmalloc` returns blocks that are free, lengths are `int`s, and receivers are threads of the
process. -/
def MessageCall.Permitted (s : MessageRun) : MessageCall → Prop
  | .send _ _ _ location kmalloc _ =>
    location.length < 2 ^ 32 ∧ ∀ x, kmalloc = some x → s.proc.heap.block x = none
  | .recv tr _ bytes => (∃ a, s.proc.threads tr = some a) ∧ IsInt bytes
  | .peek tr _ | .drop tr => ∃ a, s.proc.threads tr = some a

/-- A send finds out whom it is for, no message is received with a negative length that has not a
negative length itself, and `peek_message` is called only where it has nothing to report. -/
def MessageCall.Safe (s : MessageRun) : MessageCall → Prop
  | .send _ _ destPort _ _ _ => Addressed s.proc destPort
  | .recv tr destPort bytes => ∀ a, s.proc.threads tr = some a →
      ∀ m ∈ nextUp s.proc a destPort, 0 ≤ bytes ∨ int32 m.bytes < 0
  | .peek tr destPort => ∀ a, s.proc.threads tr = some a →
      first s.proc IpcBlock.messageQ true (a.searched destPort) = none
  | .drop _ => True

def messageSystem : System MessageRun MessageCall Fault where
  Init s := Sound s.proc ∧ (∀ p, InRange p → messages s.proc p = []) ∧ s.proc.heap.freed = [] ∧
    s.accepted = [] ∧ s.received = []
  Guard s c := c.Permitted s
  step s c := c.exec s

/-- Every message accepted at a port was taken once, in order, or is still queued there, and the
data freed is that of the messages taken. -/
structure Accounted (s : MessageRun) : Prop where
  sound : Sound s.proc
  live : Live s.proc
  length : ∀ p, InRange p → ∀ m ∈ messages s.proc p, m.bytes < 2 ^ 32
  fifo : ∀ p, InRange p → s.accepted.filter (·.destPort = p) =
    s.received.filter (·.destPort = p) ++ messages s.proc p
  freed : s.proc.heap.freed = s.received.map Message.data

namespace Accounted
variable {s : MessageRun}

theorem destPort (h : Accounted s) {p : ℤ} (hp : InRange p) {m : Message}
    (hm : m ∈ messages s.proc p) : m.destPort = p := by
  have hmem : m ∈ s.accepted.filter (·.destPort = p) := by
    rw [h.fifo p hp]
    exact List.mem_append_right _ hm
  simpa using (List.mem_filter.mp hmem).2

theorem hinted (h : Accounted s) {tr : ℕ} {a : Thread} (ht : s.proc.threads tr = some a)
    (port : ℤ) : Accounted { s with proc := hinted s.proc tr a port } :=
  ⟨h.sound.setThread ht rfl, h.live.setThread _ _, h.length, h.fifo, h.freed⟩

/-- Taking the oldest message of a port. -/
theorem consumed (h : Accounted s) {p : ℤ} (hp : Open s.proc p) {m : Message}
    {rest : List Message} (hm : messages s.proc p = m :: rest) :
    Accounted ⟨consumed s.proc p m rest, s.accepted, s.received ++ [m]⟩ := by
  have hd : m.destPort = p := h.destPort hp.1 (hm ▸ List.mem_cons_self)
  have he : ∀ q, InRange q → messages (Ipc.consumed s.proc p m rest) q =
      if q = p then rest else messages s.proc q := fun q hq => messages_setBlock hp.1 hq _ rest
  refine ⟨(h.sound.setMessages hp rest).setHeap _, h.live.consumed hp.1 hm, fun q hq x hx => ?_,
    fun q hq => ?_, ?_⟩
  · rw [he q hq] at hx
    split_ifs at hx with hqp
    · exact h.length p hp.1 x (hm ▸ List.mem_cons_of_mem m hx)
    · exact h.length q hq x hx
  · rw [he q hq, List.filter_append, h.fifo q hq]
    by_cases hqp : q = p
    · subst hqp
      simp [hm, hd]
    · have : m.destPort ≠ q := fun e => hqp (e.symm.trans hd)
      simp [hqp, this]
  · simp [Ipc.consumed, h.freed]

theorem sent (h : Accounted s) {p : ℤ} (hp : Open s.proc p) {m : Message} {c : List UInt8}
    (hd : m.destPort = p) (hfree : s.proc.heap.block m.data = none) (hlen : c.length = m.bytes)
    (hlt : m.bytes < 2 ^ 32) : Accounted ⟨{ s.proc.setBlock p { s.proc.block p with
        messageQ := some (messages s.proc p ++ [m]) } with heap := s.proc.heap.put m.data c },
      s.accepted ++ [m], s.received⟩ := by
  have he := fun q hq =>
    @messages_setBlock s.proc p q hp.1 hq (s.proc.block p) (messages s.proc p ++ [m])
  refine ⟨(h.sound.setMessages hp _).setHeap _, h.live.sent hp.1 hfree hlen, fun q hq x hx => ?_,
    fun q hq => ?_, h.freed⟩
  · have hx := he q hq ▸ hx
    split_ifs at hx with hqp
    · obtain hx | hx := List.mem_append.mp hx
      · exact h.length p hp.1 x hx
      · exact List.mem_singleton.mp hx ▸ hlt
    · exact h.length q hq x hx
  refine Eq.trans ?_ (congrArg (s.received.filter (·.destPort = q) ++ ·) (he q hq).symm)
  rw [List.filter_append, h.fifo q hq]
  by_cases hqp : q = p
  · subst hqp
    simp [hd]
  · have : m.destPort ≠ q := fun e => hqp (e.symm.trans hd)
    simp [hqp, this]

end Accounted

/-- `send_message` refuses and changes nothing, queues the message with its data copied, or halts
at the look-up. -/
theorem sendMessage_cases {proc : Process} (hs : Sound proc)
    (sourcePid sourcePort destPort : ℤ) (location : List UInt8) (kmalloc : Option ℕ)
    (room : Bool) :
    (Addressed proc destPort ∧
      sendMessage proc sourcePid sourcePort destPort location kmalloc room = .ok (proc, -1)) ∨
    (∃ data, kmalloc = some data ∧ Addressed proc destPort ∧ Open proc destPort ∧
      let m := newMessage sourcePid sourcePort destPort location data
      let b := { proc.block destPort with messageQ := some (messages proc destPort ++ [m]) }
      sendMessage proc sourcePid sourcePort destPort location kmalloc room =
        .ok ({ proc.setBlock destPort b with heap := proc.heap.put data location }, 0)) ∨
    (¬ Addressed proc destPort ∧ ∃ e,
      sendMessage proc sourcePid sourcePort destPort location kmalloc room = .error e) := by
  by_cases hneg : port2tid proc destPort < 0
  · exact .inl ⟨.inl hneg, by simp [sendMessage, hneg]⟩
  have hp := open_of_port2tid hneg
  cases hg : getThread proc (port2tid proc destPort) with
  | error e =>
    refine .inr (.inr ⟨not_addressed hneg hg, e, ?_⟩)
    rw [sendMessage, if_neg hneg, hg]
    rfl
  | ok found =>
    have haddr : Addressed proc destPort := .inr ⟨found, hg⟩
    cases found with
    | none => exact .inl ⟨haddr, by simp [sendMessage, hneg, hg]⟩
    | some t =>
      cases kmalloc with
      | none => exact .inl ⟨haddr, by simp [sendMessage, hneg, hg]⟩
      | some data =>
        cases room with
        | false => exact .inl ⟨haddr, by simp [sendMessage, hneg, hg, hs.messages hp]⟩
        | true =>
          exact .inr (.inl ⟨data, rfl, haddr, hp, by simp [sendMessage, hneg, hg, hs.messages hp]⟩)

/-- The step lemma. -/
theorem Accounted.exec {s : MessageRun} {c : MessageCall} (h : Accounted s) (hc : c.Permitted s)
    (hn : c.Safe s) : ∃ t, c.exec s = .ok t ∧ Accounted t := by
  cases c with
  | send sourcePid sourcePort destPort location kmalloc room =>
    obtain ⟨-, he⟩ | ⟨data, hk, -, hp, he⟩ | ⟨hno, -⟩ := sendMessage_cases h.sound sourcePid
      sourcePort destPort location kmalloc room
    · refine ⟨s, ?_, h⟩
      simp [MessageCall.exec, he]
    · subst hk
      refine ⟨_, ?_, h.sent hp (m := newMessage sourcePid sourcePort destPort location data) rfl
        (hc.2 data rfl) rfl hc.1⟩
      simp only [MessageCall.exec, he, ok_bind]
      rfl
    · exact absurd hn hno
  | recv tr destPort bytes =>
    obtain ⟨⟨a, ht⟩, hint⟩ := hc
    obtain ⟨_, _, he⟩ | ⟨p, m, rest, x, hnext, _, hp, hm, hlen, he⟩ :=
      recvMessage_cases h.sound h.live ht destPort bytes
    · refine ⟨_, ?_, h.hinted ht (-1)⟩
      simp [MessageCall.exec, he]
    · have hlt := h.length p hp.1 m (hm ▸ List.mem_cons_self)
      have hle := (Message.size_le_iff hint hlt).mpr (hn a ht m hnext)
      rw [kmemcpy_eq (hlen ▸ hle), ok_bind] at he
      refine ⟨_, ?_, (h.hinted ht (-1)).consumed hp hm⟩
      simp [MessageCall.exec, he]
  | peek tr destPort =>
    obtain ⟨a, ht⟩ := hc
    obtain ⟨_, he | he⟩ | ⟨p, m, rest, x, hf, _⟩ := peekMessage_cases h.sound ht destPort
    · refine ⟨s, ?_, h⟩
      simp [MessageCall.exec, he]
    · refine ⟨_, ?_, h.hinted ht (-1)⟩
      simp [MessageCall.exec, he]
    · exact absurd (hn a ht) (by simp [hf])
  | drop tr =>
    obtain ⟨a, ht⟩ := hc
    obtain ⟨_, he⟩ | ⟨p, m, rest, _, hp, hm, he⟩ := dropMessage_cases h.sound h.live ht
    · refine ⟨_, ?_, h.hinted ht (-1)⟩
      simp [MessageCall.exec, he]
    · refine ⟨_, ?_, (h.hinted ht (-1)).consumed hp hm⟩
      simp [MessageCall.exec, he]

theorem Accounted.init {s : MessageRun} (h : messageSystem.Init s) : Accounted s := by
  obtain ⟨hs, hm, hf, ha, hr⟩ := h
  refine ⟨hs, ⟨fun p hp m h => ?_, fun p hp => ?_, fun p q hp _ _ m h => ?_⟩, fun p hp m h => ?_,
    fun p hp => ?_, ?_⟩
  · rw [hm p hp] at h
    exact absurd h List.not_mem_nil
  · rw [hm p hp]
    exact List.nodup_nil
  · rw [hm p hp] at h
    exact absurd h List.not_mem_nil
  · rw [hm p hp] at h
    exact absurd h List.not_mem_nil
  · rw [ha, hr, hm p hp]
    rfl
  · rw [hf, hr]
    rfl

/-- A send that cannot tell whom it is for halts, and so does a receive with a negative length; a
peek that reports a message leaves it unaccounted for. -/
theorem Accounted.exec_iff {s : MessageRun} {c : MessageCall} (h : Accounted s)
    (hc : c.Permitted s) : (∃ t, c.exec s = .ok t ∧ Accounted t) ↔ c.Safe s := by
  refine ⟨fun ⟨t, ht, hacc⟩ => ?_, h.exec hc⟩
  cases c with
  | send sourcePid sourcePort destPort location kmalloc room =>
    obtain ⟨hsafe, -⟩ | ⟨_, -, hsafe, -⟩ | ⟨-, e, he⟩ := sendMessage_cases h.sound sourcePid
      sourcePort destPort location kmalloc room
    · exact hsafe
    · exact hsafe
    · rw [MessageCall.exec, he] at ht
      cases ht
  | recv tr destPort bytes =>
    obtain ⟨⟨_, _⟩, hint⟩ := hc
    intro a ha m hm
    obtain ⟨hnone, -, -⟩ | ⟨p, m', rest, x, hnext, _, hp, hm', hlen, he⟩ :=
      recvMessage_cases h.sound h.live ha destPort bytes
    · rw [hnone] at hm
      cases hm
    · obtain rfl : m' = m := Option.some.inj (hnext.symm.trans hm)
      have hlt := h.length p hp.1 m' (hm' ▸ List.mem_cons_self)
      refine (Message.size_le_iff hint hlt).mp ?_
      by_contra hover
      rw [MessageCall.exec, he, kmemcpy, if_neg (hlen ▸ hover)] at ht
      cases ht
  | peek tr destPort =>
    intro a ha
    obtain ⟨hf, _⟩ | ⟨p, m, rest, b, hf, hp, hm, he⟩ := peekMessage_cases h.sound ha destPort
    · exact hf
    · simp only [MessageCall.exec, he, ok_bind] at ht
      cases ht
      have h₁ := h.fifo p hp.1
      have h₂ := hacc.fifo p hp.1
      have hrest : messages ((unqueued (Ipc.hinted s.proc tr a (-1)) p rest).setThread tr b) p =
          rest := (messages_setBlock hp.1 hp.1 _ rest).trans (if_pos rfl)
      simp only [hrest] at h₂
      rw [h₂, hm, List.append_cancel_left_eq] at h₁
      exact absurd h₁.symm (List.cons_ne_self m rest)
  | drop tr => trivial

/-- For a thread without hint, `recv_message` agrees with `messages_waiting` where nothing waits or
no length is negative, `drop_message` where nothing waits or the first port that is not masked
holds a message, and `peek_message` only where nothing waits. Runs of safe calls account for every
message, and any other call does not. -/
theorem message_operations_agree (s : MessageRun) :
    (∀ tr a, Sound s.proc → Live s.proc → s.proc.threads tr = some a → a.lastPortMessage = -1 →
      (∀ bytes, RecvAgrees s.proc tr a bytes ↔ RecvsSafely s.proc a (-1) bytes) ∧
      (DropAgrees s.proc tr a ↔ messagesWaiting s.proc tr = .ok 0 ∨
        ∃ p, (unmasked s.proc a.owned).head? = some p ∧ messages s.proc p ≠ []) ∧
      (PeekAgrees s.proc tr a ↔ messagesWaiting s.proc tr = .ok 0)) ∧
    (∀ cs t, messageSystem.Init s →
      (messageSystem.restrict fun s c => c.Safe s).Steps s cs t →
      Accounted t ∧ ∀ c : MessageCall, c.Permitted t →
        ((∃ u, c.exec t = .ok u ∧ Accounted u) ↔ c.Safe t)) := by
  constructor
  · intro tr a hs hl ht hint
    exact ⟨recv_agrees_iff hs hl ht hint, drop_agrees_iff hs hl ht hint, peek_agrees_iff hs ht⟩
  · intro cs t hs hr
    have hp : (messageSystem.restrict fun s c => c.Safe s).Preserves Accounted :=
      fun s c h hg => h.exec hg.1 hg.2
    have ht : Accounted t := hr.preserves hp (.init hs)
    exact ⟨ht, fun c hc => ht.exec_iff hc⟩

theorem idlePorts_messages : messageSystem.Init ⟨idlePorts, [], []⟩ :=
  ⟨sound_idlePorts, fun p _ => held_idlePorts_message p, rfl, rfl, rfl⟩

/-- A message waits at the second port. -/
def secondPort : Process :=
  { idlePorts.setBlock 1 { idlePorts.block 1 with
      messageQ := some (messages idlePorts 1 ++ [newMessage 7 3 1 [5, 6] 100]) } with
    heap := idlePorts.heap.put 100 [5, 6] }

theorem accounted_secondPort : Accounted ⟨secondPort, [newMessage 7 3 1 [5, 6] 100], []⟩ :=
  (Accounted.init idlePorts_messages).sent (p := 1) (by unfold Open; decide) rfl rfl rfl
    (by decide)

theorem secondPort_next :
    nextUp secondPort receiver (-1) = some (newMessage 7 3 1 [5, 6] 100) := by
  decide

/-- There `peek_message` takes the message, `drop_message` gives up at the empty port, and
`recv_message` with a negative length takes it and fails. -/
theorem peek_takes_message : Sound secondPort ∧ Live secondPort ∧
    secondPort.threads 1 = some receiver ∧ receiver.lastPortMessage = -1 ∧
    ¬ PeekAgrees secondPort 1 receiver ∧ ¬ DropAgrees secondPort 1 receiver ∧
    ¬ RecvAgrees secondPort 1 receiver (-1) := by
  obtain ⟨hs, hl, _, _, _⟩ := accounted_secondPort
  have ht : secondPort.threads 1 = some receiver := rfl
  have hw : messagesWaiting secondPort 1 = .ok 1 := by
    rw [messagesWaiting_eq hs ht, receiver_owned]
    rfl
  refine ⟨hs, hl, ht, rfl, ?_, ?_, ?_⟩
  · rw [peek_agrees_iff hs ht, hw]
    simp
  · rw [drop_agrees_iff hs hl ht rfl, hw, receiver_owned]
    rintro (h | ⟨p, hp, hne⟩)
    · cases h
    · have hh : (unmasked secondPort [0, 1]).head? = some 0 := by decide
      obtain rfl := Option.some_inj.mp (hh.symm.trans hp)
      exact hne rfl
  · rw [recv_agrees_iff hs hl ht rfl]
    intro h
    have hneg := (h _ secondPort_next).1
    omega

theorem message_operations_agree_example : RecvAgrees secondPort 1 receiver 10 ∧
    ∃ t : MessageRun, t.accepted.length = 1 ∧ t.received = t.accepted ∧ Accounted t := by
  obtain ⟨hs, hl, _, _, _⟩ := accounted_secondPort
  have hsafe : RecvsSafely secondPort receiver (-1) 10 := by
    rw [RecvsSafely, secondPort_next]
    rintro m ⟨⟩
    decide
  refine ⟨(((message_operations_agree ⟨secondPort, [], []⟩).1 1 receiver hs hl rfl rfl).1 10).mpr
    hsafe, ?_⟩
  have hr : (messageSystem.restrict fun s c => c.Safe s).Steps ⟨idlePorts, [], []⟩
      [.send 7 3 1 [5, 6] (some 200) true, .recv 1 (-1) 10] _ :=
    .cons ⟨⟨by decide, fun x hx => by cases hx; rfl⟩, .inr ⟨some 1, rfl⟩⟩ rfl
      (.one ⟨⟨⟨receiver, rfl⟩, by decide, by decide⟩, fun _ _ _ _ => .inl (by decide)⟩ rfl)
  exact ⟨_, rfl, rfl, ((message_operations_agree _).2 _ _ idlePorts_messages hr).1⟩

end Racoon.Ipc
