import Racoon.Ipc.Messages
import Racoon.Mm.HeapRealloc

/-!
# The copies of the message calls

The length of a message is an `int`. `send_message` hands it to `kmalloc` and to
`kmemcpy`, which take a `size_t`, and `la_malloc` adds its padding with
wrap-around; `recv_message` compares it with the `int` of the receiver before it
copies. Here the data is in the kernel heap, and a copy that leaves the pages
which the block is in is a bad access. What the queues hold is modelled by the
message calls themselves.
-/

namespace Racoon.Ipc.Copies
open Lib Liballoc

structure Message where
  sourcePid : ℤ
  sourcePort : ℤ
  destPort : ℤ
  bytes : ℤ
  data : ℕ

/-- `kmemcpy` to a block of the heap, from a place outside of it. -/
def kmemcpy (h : Liballoc.Heap) (s : ℕ) (ct : ℕ → UInt8) (n : ℕ) : Outcome Liballoc.Heap :=
  if ∃ b ∈ h.pages, b.1 ≤ s ∧ s + n ≤ b.1 + b.2 then
    .ok { h with memory := fun a => if s ≤ a ∧ a < s + n then ct (a - s) else h.memory a }
  else .error .badAccess

/-- The heap, the message that was queued and the value returned. -/
structure Sent where
  heap : Liballoc.Heap
  queued : Option Message
  result : ℤ

section Send
variable (liballocAlloc : List Block → ℕ → Option ℕ) (proc : Process) (h : Liballoc.Heap)
  (sourcePid sourcePort destPort bytes : ℤ) (location : ℕ → UInt8) (room : Bool)

/-- `room` says whether the queue takes the message. -/
def sendMessage : Outcome Sent :=
  let destTid := port2tid proc destPort
  if destTid < 0 then .ok ⟨h, none, -1⟩
  else do
    match ← getThread proc destTid with
    | none => .ok ⟨h, none, -1⟩
    | some _ => do
      let (h, data) ← laMalloc liballocAlloc h (asSize bytes)
      if data = 0 then .ok ⟨h, none, -1⟩
      else do
        let msg : Message := ⟨sourcePid, sourcePort, destPort, bytes, data⟩
        let h ← kmemcpy h msg.data location (asSize bytes)
        let _ ← deref (proc.block destPort).messageQ
        if room then .ok ⟨h, some msg, 0⟩
        else do
          let h ← laFree h data
          .ok ⟨h, none, -1⟩

/-- Nothing is queued, the value is -1 and the heap has its blocks and their bytes as before. -/
def Refuses (G : List MajorBlock) : Prop :=
  ∃ h', sendMessage liballocAlloc proc h sourcePid sourcePort destPort bytes location room =
      .ok ⟨h', none, -1⟩ ∧ Represents h' G ∧ SameData h.memory h'.memory (cells G)

/-- The block that `kmalloc` answers has room for all that is copied into it. -/
def CopyFits : Prop :=
  ¬ port2tid proc destPort < 0 ∧
    (∃ t, getThread proc (port2tid proc destPort) = .ok (some t)) ∧ ∃ h₁ p G₁ d,
      laMalloc liballocAlloc h (asSize bytes) = .ok (h₁, p) ∧ Represents h₁ G₁ ∧
        d ∈ cells G₁ ∧ d.ptr = p ∧ asSize bytes ≤ d.usable

def SendsInBounds (G : List MajorBlock) : Prop :=
  Refuses liballocAlloc proc h sourcePid sourcePort destPort bytes location room G ∨
    CopyFits liballocAlloc proc h destPort bytes

end Send

/-- The size and the requested size that `la_malloc` searches with. -/
def searched (reqSize : ℕ) : ℕ × ℕ :=
  if adjust reqSize = 0 then (adjust 1, 1) else (adjust reqSize, reqSize)

/-- No block of that size can be had: no gap is large enough, and there are no pages. -/
def Denied (liballocAlloc : List Block → ℕ → Option ℕ) (h : Liballoc.Heap) (G : List MajorBlock)
    (reqSize : ℕ) : Prop :=
  (¬ ∃ B ∈ G, B.HasGap (add32 (searched reqSize).1 sizeofMinor)) ∧
    liballocAlloc h.pages (pagesFor (searched reqSize).1) = none

section Lengths

theorem searched_pos (reqSize : ℕ) : 0 < (searched reqSize).1 := by
  unfold searched
  split_ifs with h
  · decide
  · exact Nat.pos_of_ne_zero h

end Lengths

section Requests
variable {liballocAlloc : List Block → ℕ → Option ℕ} {h h' : Liballoc.Heap} {G : List MajorBlock}
  {reqSize p : ℕ}

theorem laMalloc_searched (liballocAlloc : List Block → ℕ → Option ℕ) (h : Liballoc.Heap)
    (reqSize : ℕ) : ∃ warnings, laMalloc liballocAlloc h reqSize =
      mallocSize liballocAlloc (searched reqSize).1 (searched reqSize).2
        { h with warningCount := warnings } := by
  unfold laMalloc searched
  split_ifs
  · exact ⟨_, rfl⟩
  · exact ⟨h.warningCount, rfl⟩

theorem laMalloc_grown (hg : PageGrants liballocAlloc)
    (he : laMalloc liballocAlloc h reqSize = .ok (h', p)) : Grown h h' := by
  obtain ⟨warnings, hm⟩ := laMalloc_searched liballocAlloc h reqSize
  rw [hm] at he
  have hgrown := hg.mallocSize he
  exact ⟨hgrown.suffix, hgrown.granted⟩

/-- A request that is denied leaves the heap as it was. -/
theorem laMalloc_denied (hg : PageGrants liballocAlloc) (hr : Represents h G)
    (hd : Denied liballocAlloc h G reqSize) :
    ∃ h', laMalloc liballocAlloc h reqSize = .ok (h', 0) ∧ Represents h' G ∧
      h'.memory = h.memory := by
  obtain ⟨warnings, hm⟩ := laMalloc_searched liballocAlloc h reqSize
  have hr₀ : Represents { h with warningCount := warnings } G :=
    ⟨hr.toMajors, hr.root, hr.chain, hr.pages, hr.allocated, hr.inuse, hr.best⟩
  rcases hr₀.mallocSize_cases hg rfl (searched reqSize).2 with
    ⟨h₁, A, l, r, a, hspot, -⟩ | ⟨-, h', -, ⟨hfound, href, hr'⟩ | ⟨N, hext⟩⟩
  · exact (hd.1 ⟨A, hspot.mem, hspot.gap.hasGap⟩).elim
  · exact ⟨h', hm.trans hfound, hr', href.memory⟩
  · have hask := hext.granted.answer
    rw [show ({ h with warningCount := warnings } : Liballoc.Heap).pages = h.pages from rfl,
      hd.2] at hask
    cases hask

/-- Any other request changes the heap. -/
theorem laMalloc_changes (hg : PageGrants liballocAlloc) (hr : Represents h G)
    (hd : ¬ Denied liballocAlloc h G reqSize)
    (he : laMalloc liballocAlloc h reqSize = .ok (h', p)) : ¬ Represents h' G := by
  intro hr'
  obtain ⟨warnings, hm⟩ := laMalloc_searched liballocAlloc h reqSize
  rw [hm] at he
  have hr₀ : Represents { h with warningCount := warnings } G :=
    ⟨hr.toMajors, hr.root, hr.chain, hr.pages, hr.allocated, hr.inuse, hr.best⟩
  rcases hr₀.mallocSize_cases hg rfl (searched reqSize).2 with
    ⟨h₁, A, l, r, a, hspot, hfound⟩ | ⟨hno, h₁, -, ⟨hfound, href, -⟩ | ⟨N, hext⟩⟩
  · -- the minor that was placed counts as in use
    have hfilled : (filled h₁ A l r a (searched reqSize).1 (searched reqSize).2).1 = h' :=
      congrArg Prod.fst (Except.ok.inj ((hfound liballocAlloc).symm.trans he))
    have hinuse := Represents.inuse_filled h₁ A l r a (searched reqSize).1 (searched reqSize).2
    have hpos := searched_pos reqSize
    rw [hfilled, hr'.inuse, hspot.rebet.inuse, ← hr₀.inuse] at hinuse
    omega
  · exact hd ⟨hno, href.answer⟩
  · -- the major that was added has its pages
    have hlong := (hext.keeps _ _ he).suffix.length_le
    have hold := hr.pages.length_eq
    have hnew := hr'.pages.length_eq
    rw [hext.granted.pages, List.length_cons] at hlong
    change h.pages.length + 1 ≤ h'.pages.length at hlong
    omega

/-- No page block of the heap has as many bytes as a size that wraps. -/
theorem kmemcpy_wrapped (hr : Represents h G) (hgrown : Grown h h') {n s : ℕ} (hn : 2 ^ 32 ≤ n + 54)
    (ct : ℕ → UInt8) : kmemcpy h' s ct n = .error .badAccess := by
  refine if_neg fun ⟨b, hb, hle, hlt⟩ => ?_
  have hlarge : 0 < b.1 ∧ b.1 + b.2 ≤ 2 ^ 32 ∧ b.2 % 4096 = 0 := by
    rcases hgrown.granted b hb with hold | ⟨hin, hmod⟩
    · obtain ⟨B, hB, rfl⟩ := List.mem_map.mp (hr.pages.mem_iff.mp hold)
      have hin := hr.inside hB
      have hpages := (hr.stored B hB).pages
      rw [pageSize] at hpages
      unfold MajorBlock.extent
      dsimp only
      omega
    · exact ⟨hin.1, hin.2, hmod⟩
  omega

end Requests

section Settled
variable {liballocAlloc : List Block → ℕ → Option ℕ} {proc : Process} {h : Liballoc.Heap}
  {G : List MajorBlock} {destPort bytes : ℤ}

/-- `send_message` gives up before it asks for memory, or it finds out whom the message is for, and
the length does not wrap when it is padded or there is no memory. -/
def SendsSafely (liballocAlloc : List Block → ℕ → Option ℕ) (proc : Process) (h : Liballoc.Heap)
    (G : List MajorBlock) (destPort bytes : ℤ) : Prop :=
  port2tid proc destPort < 0 ∨ getThread proc (port2tid proc destPort) = .ok none ∨
    (∃ t, getThread proc (port2tid proc destPort) = .ok (some t)) ∧
      (0 ≤ bytes ∨ bytes < -54 ∨ Denied liballocAlloc h G (asSize bytes))

theorem sendMessage_asks {t : ℕ} (htid : ¬ port2tid proc destPort < 0)
    (ht : getThread proc (port2tid proc destPort) = .ok (some t)) {h₁ : Liballoc.Heap} {p : ℕ}
    (hfound : laMalloc liballocAlloc h (asSize bytes) = .ok (h₁, p)) (sourcePid sourcePort : ℤ)
    (location : ℕ → UInt8) (room : Bool) :
    sendMessage liballocAlloc proc h sourcePid sourcePort destPort bytes location room =
      if p = 0 then .ok ⟨h₁, none, -1⟩
      else
        kmemcpy h₁ p location (asSize bytes) >>= fun h₂ =>
          deref (proc.block destPort).messageQ >>= fun _ =>
            if room then .ok ⟨h₂, some ⟨sourcePid, sourcePort, destPort, bytes, p⟩, 0⟩
            else laFree h₂ p >>= fun h₃ => .ok ⟨h₃, none, -1⟩ := by
  unfold sendMessage
  dsimp only
  rw [if_neg htid, ht, ok_bind]
  dsimp only
  rw [hfound]
  rfl

theorem sendsInBounds_of_safely (hg : PageGrants liballocAlloc) (hr : Represents h G)
    (hle : -2 ^ 31 ≤ bytes) (hlt : bytes < 2 ^ 31) (sourcePid sourcePort : ℤ)
    (location : ℕ → UInt8) (room : Bool) (hs : SendsSafely liballocAlloc proc h G destPort bytes) :
    SendsInBounds liballocAlloc proc h sourcePid sourcePort destPort bytes location room G := by
  by_cases htid : port2tid proc destPort < 0
  · exact .inl ⟨h, if_pos htid, hr, .refl _ _⟩
  rcases hs.resolve_left htid with ht | ⟨⟨t, ht⟩, hs⟩
  · refine .inl ⟨h, ?_, hr, .refl _ _⟩
    unfold sendMessage
    dsimp only
    rw [if_neg htid, ht]
    rfl
  · have hrefuses : ∀ h₁, laMalloc liballocAlloc h (asSize bytes) = .ok (h₁, 0) → Represents h₁ G →
        SameData h.memory h₁.memory (cells G) →
        SendsInBounds liballocAlloc proc h sourcePid sourcePort destPort bytes location room G :=
      fun h₁ hfound hr₁ hdata => .inl ⟨h₁, by rw [sendMessage_asks htid ht hfound, if_pos rfl], hr₁,
        hdata⟩
    by_cases hwraps : -54 ≤ bytes ∧ bytes < 0
    · have hd : Denied liballocAlloc h G (asSize bytes) := by
        rcases hs with hs | hs | hs
        · omega
        · omega
        · exact hs
      obtain ⟨h₁, hfound, hr₁, hmemory⟩ := laMalloc_denied hg hr hd
      exact hrefuses h₁ hfound hr₁ (hmemory ▸ .refl _ _)
    · have hsize : asSize bytes + 54 < 2 ^ 32 := by
        unfold asSize
        omega
      obtain ⟨h₁, p, hfound, hdata,
          ⟨-, G', ⟨G₁, d, hr₁, hp, -, hreq, rfl⟩, -⟩ | ⟨-, rfl, -, hr₁⟩⟩ :=
        hr.laMalloc_serves hg hsize
      · have hd : d ∈ cells G₁ := hp.mem_iff.mpr List.mem_cons_self
        refine .inr ⟨htid, ⟨t, ht⟩, h₁, d.ptr, G₁, d, hfound, hr₁, hd, rfl, ?_⟩
        exact hreq ▸ hr₁.reqSize_le hd
      · exact hrefuses h₁ hfound hr₁ hdata

theorem safely_of_sendsInBounds (hg : PageGrants liballocAlloc) (hr : Represents h G)
    {sourcePid sourcePort : ℤ} {location : ℕ → UInt8} {room : Bool}
    (hs : SendsInBounds liballocAlloc proc h sourcePid sourcePort destPort bytes location room G) :
    SendsSafely liballocAlloc proc h G destPort bytes := by
  refine or_iff_not_imp_left.mpr fun htid => ?_
  rcases ht : getThread proc (port2tid proc destPort) with e | _ | t
  · -- the look-up halts
    rcases hs with ⟨h', hsent, -⟩ | ⟨-, ⟨t, hfound⟩, -⟩
    · unfold sendMessage at hsent
      dsimp only at hsent
      rw [if_neg htid, ht] at hsent
      cases hsent
    · cases ht.symm.trans hfound
  · exact .inl rfl
  refine .inr ⟨⟨t, rfl⟩, ?_⟩
  by_contra hno
  simp only [not_or] at hno
  obtain ⟨hneg, hwraps, hdenied⟩ := hno
  have hsize : 2 ^ 32 ≤ asSize bytes + 54 := by
    unfold asSize
    omega
  rcases hs with ⟨h', hsent, hr', -⟩ | ⟨-, -, h₁, p, G₁, d, -, hr₁, hd, -, huse⟩
  · cases hfound : laMalloc liballocAlloc h (asSize bytes) with
    | error e =>
      unfold sendMessage at hsent
      dsimp only at hsent
      rw [if_neg htid, ht, ok_bind] at hsent
      dsimp only at hsent
      rw [hfound] at hsent
      cases hsent
    | ok found =>
      obtain ⟨h₁, p⟩ := found
      rw [sendMessage_asks htid ht hfound] at hsent
      by_cases hp : p = 0
      · rw [if_pos hp] at hsent
        cases hsent
        exact laMalloc_changes hg hr hdenied hfound hr'
      · rw [if_neg hp, kmemcpy_wrapped hr (laMalloc_grown hg hfound) hsize] at hsent
        cases hsent
  · have := hr₁.usable_lt hd
    omega

/-- A call that ends does to the queues what the model of the message calls says. -/
theorem sendMessage_agrees {sourcePid sourcePort : ℤ} {location : List UInt8}
    {room : Bool} {s : Sent}
    (hsent : sendMessage liballocAlloc proc h sourcePid sourcePort destPort location.length
      (fun i => location.getD i 0) room = .ok s) :
    ∃ kmalloc proc', Ipc.sendMessage proc sourcePid sourcePort destPort location kmalloc room =
        .ok (proc', s.result) ∧
      ∀ m ∈ s.queued, kmalloc = some m.data ∧
        newMessage sourcePid sourcePort destPort location m.data =
          ⟨m.sourcePid, m.sourcePort, m.destPort, m.bytes.toNat, m.data⟩ := by
  unfold sendMessage at hsent
  unfold Ipc.sendMessage
  dsimp only at hsent ⊢
  by_cases htid : port2tid proc destPort < 0
  · rw [if_pos htid] at hsent
    cases hsent
    exact ⟨none, proc, if_pos htid, nofun⟩
  simp only [if_neg htid] at hsent ⊢
  rcases ht : getThread proc (port2tid proc destPort) with e | _ | t
  · rw [ht] at hsent
    cases hsent
  · rw [ht] at hsent
    cases hsent
    exact ⟨none, proc, rfl, nofun⟩
  · rw [ht, ok_bind] at hsent
    obtain ⟨⟨h₁, p⟩, -, hsent⟩ := bind_eq_ok.mp hsent
    dsimp only at hsent
    by_cases hp : p = 0
    · rw [if_pos hp] at hsent
      cases hsent
      exact ⟨none, proc, rfl, nofun⟩
    rw [if_neg hp] at hsent
    obtain ⟨h₂, -, hsent⟩ := bind_eq_ok.mp hsent
    obtain ⟨q, hq, hsent⟩ := bind_eq_ok.mp hsent
    refine ⟨some p, ?_⟩
    rw [ok_bind]
    dsimp only
    rw [hq, ok_bind]
    cases room with
    | true =>
      cases hsent
      exact ⟨_, rfl, fun m hm => by cases hm; exact ⟨rfl, rfl⟩⟩
    | false =>
      obtain ⟨h₃, -, hsent⟩ := bind_eq_ok.mp hsent
      cases hsent
      exact ⟨_, rfl, nofun⟩

end Settled

/-- The message taken, what is copied to `location` and with which count `kmemcpy` is called. -/
structure Received where
  tmp : Ipc.Message
  location : List UInt8
  count : ℕ

/-- `tmp.bytes` is the length that the sender gave as an `int`. -/
def receiveFrom (proc : Process) (port bytes : ℤ) : Outcome (Process × Option Received) := do
  let (proc, tmp) ← nextMessage proc port
  let size := int32 tmp.bytes
  let size := if bytes < size then bytes else size
  let contents ← deref (proc.heap.block tmp.data)
  let heap ← proc.heap.kfree tmp.data
  .ok ({ proc with heap := heap }, some ⟨tmp, contents.take (asSize size), asSize size⟩)

def recvMessage (proc : Process) (tr : ℕ) (destPort bytes : ℤ) :
    Outcome (Process × Option Received) := do
  let a ← deref (proc.threads tr)
  let port := if InRange destPort then destPort else a.lastPortMessage
  let proc := proc.setThread tr { a with lastPortMessage := -1 }
  match ← pick proc IpcBlock.messageQ true a.ports port with
  | none => .ok (proc, none)
  | some port => receiveFrom proc port bytes

/-- No more is copied than the receiver has asked for and the message has, and nothing for a
negative length. -/
def RecvInBounds (proc : Process) (tr : ℕ) (destPort bytes : ℤ) : Prop :=
  ∃ proc' taken, recvMessage proc tr destPort bytes = .ok (proc', taken) ∧
    ∀ r ∈ taken, (r.count : ℤ) ≤ max bytes 0 ∧ r.count ≤ r.tmp.bytes

section Receive
variable {proc : Process} {tr : ℕ} {a : Thread} {bytes : ℤ}

theorem recvMessage_taken (hs : Sound proc) (hl : Live proc) (ht : proc.threads tr = some a)
    (destPort bytes : ℤ) :
    (nextUp proc a destPort = none ∧
      recvMessage proc tr destPort bytes = .ok (hinted proc tr a (-1), none)) ∨
    ∃ m proc', ∃ c : List UInt8, nextUp proc a destPort = some m ∧
      let count := asSize (if bytes < int32 m.bytes then bytes else int32 m.bytes)
      recvMessage proc tr destPort bytes = .ok (proc', some ⟨m, c.take count, count⟩) := by
  unfold recvMessage nextUp
  rw [ht, deref_some, ok_bind]
  dsimp only
  rw [← hinted]
  rcases pick_message hs hl tr a true
      (if InRange destPort then destPort else a.lastPortMessage) with
    ⟨hf, hp⟩ | ⟨p, m, rest, c, hf, -, hm, hc, -, hp, hn⟩
  · rw [hf, hp]
    exact .inl ⟨rfl, rfl⟩
  · have hc' : (unqueued (hinted proc tr a (-1)) p rest).heap.block m.data = some c := hc
    rw [hf, hp]
    refine .inr ⟨m, consumed (hinted proc tr a (-1)) p m rest, c, ?_, ?_⟩
    · rw [Option.bind_some, hm]
      rfl
    · rw [ok_bind]
      dsimp only
      rw [receiveFrom, hn, ok_bind]
      dsimp only
      rw [hc', deref_some, ok_bind, kfree_eq hc', ok_bind]
      rfl

theorem int32_range (n : ℤ) : -2 ^ 31 ≤ int32 n ∧ int32 n < 2 ^ 31 := by
  have h₁ := @Int.le_bmod n (2 ^ 32) (by norm_num)
  have h₂ := @Int.bmod_lt n (2 ^ 32) (by norm_num)
  unfold int32
  omega

/-- The count that `kmemcpy` gets. -/
theorem count_iff (hle : -2 ^ 31 ≤ bytes) (hlt : bytes < 2 ^ 31) (m : Ipc.Message) :
    ((asSize (if bytes < int32 m.bytes then bytes else int32 m.bytes) : ℤ) ≤ max bytes 0 ∧
      asSize (if bytes < int32 m.bytes then bytes else int32 m.bytes) ≤ m.bytes) ↔
      0 ≤ bytes ∧ 0 ≤ int32 m.bytes := by
  have hrange := int32_range m.bytes
  refine ⟨fun ⟨hcount, _⟩ => ?_, fun ⟨hb, hm⟩ => ?_⟩
  · generalize int32 m.bytes = k at hrange hcount ⊢
    unfold asSize at hcount
    split_ifs at hcount <;> omega
  · have hlen := int32_le hm
    generalize int32 m.bytes = k at hrange hm hlen ⊢
    unfold asSize
    split_ifs <;> omega

theorem recvInBounds_iff (hs : Sound proc) (hl : Live proc) (ht : proc.threads tr = some a)
    (destPort : ℤ) (hle : -2 ^ 31 ≤ bytes) (hlt : bytes < 2 ^ 31) :
    RecvInBounds proc tr destPort bytes ↔ RecvsSafely proc a destPort bytes := by
  unfold RecvInBounds RecvsSafely
  rcases recvMessage_taken hs hl ht destPort bytes with
    ⟨hnone, he⟩ | ⟨m, proc', c, hsome, he⟩
  · rw [hnone, he]
    exact ⟨fun _ m hm => (by cases hm), fun _ => ⟨_, none, rfl, fun r hr => (by cases hr)⟩⟩
  · have hcount := count_iff hle hlt m
    rw [hsome, he]
    generalize asSize (if bytes < int32 m.bytes then bytes else int32 m.bytes) = count at hcount ⊢
    constructor
    · rintro ⟨_, taken, heq, hbound⟩ m' hm'
      have htaken := congrArg Prod.snd (Except.ok.inj heq)
      rw [← Option.some.inj hm']
      exact hcount.mp (hbound _ htaken.symm)
    · intro hsafe
      refine ⟨_, _, rfl, fun r hr => ?_⟩
      rw [← Option.some.inj hr]
      exact hcount.mpr (hsafe m rfl)

/-- Where no length is negative, this is the call of which the queues are modelled. -/
theorem recvMessage_agrees (hs : Sound proc) (hl : Live proc) (ht : proc.threads tr = some a)
    (destPort : ℤ) (hsafe : RecvsSafely proc a destPort bytes) :
    ∃ proc' taken, recvMessage proc tr destPort bytes = .ok (proc', taken) ∧
      Ipc.recvMessage proc tr destPort bytes =
        .ok (proc', taken.map fun r => ⟨r.tmp, r.location, r.count⟩) := by
  unfold recvMessage Ipc.recvMessage
  rw [ht, deref_some, ok_bind, ok_bind]
  dsimp only
  rw [← hinted]
  rcases pick_message hs hl tr a true
      (if InRange destPort then destPort else a.lastPortMessage) with
    ⟨-, hp⟩ | ⟨p, m, rest, c, hf, -, hm, hc, hlen, hp, hn⟩
  · rw [hp]
    exact ⟨_, none, rfl, rfl⟩
  · have hc' : (unqueued (hinted proc tr a (-1)) p rest).heap.block m.data = some c := hc
    have hnext : nextUp proc a destPort = some m := by
      rw [nextUp, hf, Option.bind_some, hm]
      rfl
    have hpos : 0 ≤ m.size bytes := (m.size_nonneg_iff bytes).mpr (hsafe m hnext)
    have hle : asSize (m.size bytes) ≤ c.length := hlen.symm ▸ Message.size_le hpos
    have hcount : (asSize (m.size bytes) : ℤ) = m.size bytes := by
      have hlt := (int32_range m.bytes).2
      have hsize : m.size bytes ≤ int32 m.bytes := by
        unfold Message.size
        split_ifs <;> omega
      unfold asSize
      omega
    rw [hp, ok_bind, ok_bind]
    dsimp only
    rw [receiveFrom, Ipc.receiveFrom, hn, ok_bind, ok_bind]
    dsimp only
    rw [hc', deref_some, ok_bind, ok_bind, kmemcpy_eq hle, ok_bind, kfree_eq hc', ok_bind, ok_bind]
    refine ⟨_, _, rfl, ?_⟩
    dsimp only [Option.map_some]
    rw [← Message.size, hcount]

end Receive

section Calls
variable {liballocAlloc : List Block → ℕ → Option ℕ} {proc : Process} {h : Liballoc.Heap}
  {G : List MajorBlock} {tr : ℕ} {a : Thread} {bytes : ℤ}

/-- For every length, `send_message` fills a block that is large enough or does nothing, except for
the lengths from -54 to -1 where memory can be had; `recv_message` copies no more than it may,
except where it takes a message and one of the two lengths is negative. -/
theorem message_copies_in_bounds_iff (hg : PageGrants liballocAlloc) (hr : Represents h G)
    (hs : Sound proc) (hl : Live proc) (ht : proc.threads tr = some a) (hle : -2 ^ 31 ≤ bytes)
    (hlt : bytes < 2 ^ 31) (sourcePid sourcePort destPort : ℤ) (location : ℕ → UInt8)
    (room : Bool) :
    (SendsInBounds liballocAlloc proc h sourcePid sourcePort destPort bytes location room G ↔
      SendsSafely liballocAlloc proc h G destPort bytes) ∧
    (RecvInBounds proc tr destPort bytes ↔ RecvsSafely proc a destPort bytes) :=
  ⟨⟨safely_of_sendsInBounds hg hr,
    sendsInBounds_of_safely hg hr hle hlt sourcePid sourcePort location room⟩,
    recvInBounds_iff hs hl ht destPort hle hlt⟩

end Calls

theorem message_copies_in_bounds_iff_secondPort :
    SendsInBounds (fun _ _ => none) secondPort oneMajor 7 3 1 2 (fun _ => 5) true
      [⟨4096, 65536, []⟩] ∧ RecvInBounds secondPort 1 (-1) 2 := by
  obtain ⟨hs, hl, _, _, _⟩ := accounted_secondPort
  have ht : secondPort.threads 1 = some receiver := rfl
  have hiff := fun destPort =>
    message_copies_in_bounds_iff noPages_grants oneMajor_represents hs hl ht
      (show (-2 ^ 31 : ℤ) ≤ 2 by norm_num) (by norm_num) 7 3 destPort (fun _ => 5) true
  refine ⟨(hiff 1).1.mpr (.inr (.inr ⟨⟨1, rfl⟩, .inl (by norm_num)⟩)),
    (hiff (-1)).2.mpr fun m hm => ⟨by norm_num, ?_⟩⟩
  rw [secondPort_next] at hm
  cases hm
  decide

/-- A length of -1 makes `send_message` write past the heap, and `recv_message` past what it was
given. -/
theorem negative_length_overruns :
    ¬ SendsInBounds (fun _ _ => none) secondPort oneMajor 7 3 1 (-1) (fun _ => 5) true
        [⟨4096, 65536, []⟩] ∧
      ¬ RecvInBounds secondPort 1 (-1) (-1) := by
  obtain ⟨hs, hl, _, _, _⟩ := accounted_secondPort
  constructor
  · intro hsend
    rcases safely_of_sendsInBounds noPages_grants oneMajor_represents hsend with
      h | h | ⟨-, h | h | h⟩
    · exact absurd h (by decide)
    · cases h
    · omega
    · omega
    · exact h.1 ⟨_, List.mem_singleton_self _, hasGap_of_empty rfl (by decide)⟩
  · rw [recvInBounds_iff hs hl rfl (-1) (by norm_num) (by norm_num)]
    intro h
    have hneg := (h _ secondPort_next).1
    omega

end Racoon.Ipc.Copies
