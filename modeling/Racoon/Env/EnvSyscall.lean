import Racoon.Env.RemoveEnvironment

/-!
# The environment system calls

`kernel/syscalls/syscall_env.c`. The name field of a packet has
`SMK_NAME_LENGTH` bytes, the functions of `kernel/env.c` read and write
`SMK_ENVNAME_LENGTH` of them. A name without its terminating zero in the field
goes on in the rest of the packet, where `rc` has just been stored, and in the
memory after it. The current process exists and is locked around each case.
-/

namespace Racoon.Env
open Lib Strings

def SMK_UNKNOWN_SYSCALL : ℤ := -10
def SMK_NAME_LENGTH : ℕ := 64

def SYS_ENV : ℕ := 21 * 2 ^ 8
def SYS_ONE : ℕ := 1
def SYS_TWO : ℕ := 2
def SYS_THREE : ℕ := 3
def SYS_FOUR : ℕ := 4
def SYS_FIVE : ℕ := 5

def OP (major minor : ℕ) : ℕ := major ||| minor

/-- The packet. Behind its name field stand `flags`, `state`, the six words of `data`, `rc` and
then other memory. -/
structure SyscallPacket where
  opcode : ℕ
  pid : ℤ
  tid : ℤ
  id : ℤ
  destPort : ℤ
  srcPort : ℤ
  size : ℕ
  ptr : ℕ
  name : CString

/-- `&(scp->rc) - scp->name` -/
def rcOffset : ℕ := SMK_NAME_LENGTH + 4 + 4 + 6 * 4

/-- The `char` at byte `j` of an `int`. -/
def charOf (v : ℤ) (j : ℕ) : ℤ := (v / 256 ^ j + 128) % 256 - 128

def storeInt (s : CString) (a : ℕ) (v : ℤ) : CString :=
  fun i => if a ≤ i ∧ i < a + 4 then charOf v (i - a) else s i

def SyscallPacket.setRc (scp : SyscallPacket) (rc : ℤ) : SyscallPacket :=
  { scp with name := storeInt scp.name rcOffset rc }

def SyscallPacket.rc (scp : SyscallPacket) : List ℤ := taken (fun j => scp.name (rcOffset + j)) 4

/-- The memory behind `ptr` is `data`. -/
structure Entered where
  mem : Memory
  proc : Process
  scp : SyscallPacket
  data : Buffer

def syscallEnv (k : Kalloc) (s : Entered) : Outcome Entered :=
  let scp := s.scp.setRc SMK_UNKNOWN_SYSCALL
  if scp.opcode = OP SYS_ENV SYS_ONE then do
    let (rc, proc, mem) ← setEnvironment k s.mem s.proc (some scp.name)
      (if scp.ptr = 0 then none else some s.data) scp.size
    .ok ⟨mem, proc, scp.setRc rc, s.data⟩
  else if scp.opcode = OP SYS_ENV SYS_TWO then do
    let (rc, data, size) ← getEnvironment s.mem s.proc scp.name s.data scp.size
    .ok ⟨s.mem, s.proc, { scp with size := size }.setRc rc, data⟩
  else if scp.opcode = OP SYS_ENV SYS_THREE then do
    let (rc, size) ← getEnvironmentSize s.mem s.proc scp.name scp.size
    .ok ⟨s.mem, s.proc, { scp with size := size }.setRc rc, s.data⟩
  else if scp.opcode = OP SYS_ENV SYS_FOUR then do
    let (rc, name, size) ← getEnvironmentInformation s.mem s.proc scp.id scp.name scp.size
    .ok ⟨s.mem, s.proc, { scp with name := name, size := size }.setRc rc, s.data⟩
  else if scp.opcode = OP SYS_ENV SYS_FIVE then do
    let (rc, proc, mem) ← removeEnvironment k s.mem s.proc scp.name
    .ok ⟨mem, proc, scp.setRc rc, s.data⟩
  else .ok { s with scp := scp }

/-! ### The name is read through its key -/

section Key
variable {name name' : CString} (h : key name = key name')
include h

theorem named_congr : named name = named name' := by
  funext e
  refine decide_eq_decide.mpr ?_
  rw [kstrncmp_eq_zero, kstrncmp_eq_zero]
  change _ = key name ↔ _ = key name'
  rw [h]

theorem findFrom_congr (m : Memory) (env : Option ℕ) (i left : ℕ) :
    findFrom m env name i left = findFrom m env name' i left := by
  induction left generalizing i with
  | zero => rfl
  | succ left ih => simp only [findFrom, named_congr h, ih]

theorem removeFrom_congr (env : Option ℕ) (i left : ℕ) (found : Bool) (m : Memory) :
    removeFrom env name i left found m = removeFrom env name' i left found m := by
  induction left generalizing i found m with
  | zero => rfl
  | succ left ih =>
    cases found with
    | false => simp only [removeFrom, named_congr h, ih]
    | true => simp only [removeFrom, ih]

theorem setEnvironment_congr (k : Kalloc) (m : Memory) (proc : Process) (data : Option Buffer)
    (size : ℕ) : setEnvironment k m proc (some name) data size =
      setEnvironment k m proc (some name') data size := by
  cases data with
  | none => rfl
  | some data => simp only [setEnvironment, setEnvironmentWith, findFrom_congr h, kstrncpy_congr h]

theorem getEnvironment_congr (m : Memory) (proc : Process) (data : Buffer) (size : ℕ) :
    getEnvironment m proc name data size = getEnvironment m proc name' data size := by
  simp only [getEnvironment, findFrom_congr h]

theorem getEnvironmentSize_congr (m : Memory) (proc : Process) (size : ℕ) :
    getEnvironmentSize m proc name size = getEnvironmentSize m proc name' size := by
  simp only [getEnvironmentSize, findFrom_congr h]

theorem removeEnvironment_congr (k : Kalloc) (m : Memory) (proc : Process) :
    removeEnvironment k m proc name = removeEnvironment k m proc name' := by
  simp only [removeEnvironment, removeFrom_congr h]

end Key

/-! ### What a packet shows -/

/-- `char` is signed. -/
def SyscallPacket.Chars (scp : SyscallPacket) : Prop := ∀ i, -128 ≤ scp.name i ∧ scp.name i < 128

/-- Two packets agree in all that the environment calls are meant to read. -/
structure SyscallPacket.Agrees (scp scp' : SyscallPacket) : Prop where
  opcode : scp'.opcode = scp.opcode
  id : scp'.id = scp.id
  size : scp'.size = scp.size
  ptr : scp'.ptr = scp.ptr
  name : ∀ i < SMK_NAME_LENGTH, scp'.name i = scp.name i

/-- The environment, `rc`, `size` and the data after a call. -/
def result (s : Entered) : Process × Memory × List ℤ × ℕ × Buffer :=
  (s.proc, s.mem, s.scp.rc, s.scp.size, s.data)

/-- A call writes `rc`, `size` and the name field of the packet, and the data buffer. -/
structure Stays (s t : Entered) : Prop where
  opcode : t.scp.opcode = s.scp.opcode
  pid : t.scp.pid = s.scp.pid
  tid : t.scp.tid = s.scp.tid
  id : t.scp.id = s.scp.id
  destPort : t.scp.destPort = s.scp.destPort
  srcPort : t.scp.srcPort = s.scp.srcPort
  ptr : t.scp.ptr = s.scp.ptr
  rest : ∀ i, SMK_NAME_LENGTH ≤ i → i < rcOffset ∨ rcOffset + 4 ≤ i → t.scp.name i = s.scp.name i
  data : ∀ i, s.scp.size ≤ i → t.data i = s.data i

/-- The calls of the packets that agree with `scp` end alike and stay inside the packet. -/
def Confined (k : Kalloc) (m : Memory) (proc : Process) (data : Buffer) (scp : SyscallPacket) :
    Prop :=
  (∀ p p' : SyscallPacket, p.Chars → p'.Chars → scp.Agrees p → scp.Agrees p' →
    (syscallEnv k ⟨m, proc, p, data⟩).map result =
      (syscallEnv k ⟨m, proc, p', data⟩).map result) ∧
  ∀ p : SyscallPacket, p.Chars → scp.Agrees p →
    ∃ t, syscallEnv k ⟨m, proc, p, data⟩ = .ok t ∧ Stays ⟨m, proc, p, data⟩ t

def SyscallPacket.Terminated (scp : SyscallPacket) : Prop := ∃ i < SMK_NAME_LENGTH, scp.name i = 0

/-- The name of a variable that goes on, behind the name field, as a packet might: it ends before
`rc` or has the bytes of `SMK_UNKNOWN_SYSCALL` there. -/
structure SyscallPacket.Extended (scp : SyscallPacket) (e : EnvironInfo) : Prop where
  field : ∀ i < SMK_NAME_LENGTH, e.name i = scp.name i
  behind : (key e.name).length < rcOffset ∨
    ∀ j < 4, e.name (rcOffset + j) = charOf SMK_UNKNOWN_SYSCALL j

def DataRefused (k : Kalloc) (m : Memory) (size : ℕ) : Prop :=
  ∃ m₁, kmalloc k m size (.bytes k.litter) = .ok (none, m₁)

/-- The data gets its block, and then `krealloc` refuses the longer array. -/
def ArrayRefused (k : Kalloc) (m : Memory) (proc : Process) (size : ℕ) : Prop :=
  ∃ p m₁ m₂, kmalloc k m size (.bytes k.litter) = .ok (some p, m₁) ∧
    krealloc k m₁ proc.environment (arrayBytes (proc.environmentCount + 1)) = .ok (none, m₂)

/-- The condition: the name matters only where it ends in its field, or where no variable has a
name that goes on behind it, and no name is written. -/
structure Safe (k : Kalloc) (m : Memory) (proc : Process) (es : List EnvironInfo)
    (scp : SyscallPacket) : Prop where
  set : scp.opcode = OP SYS_ENV SYS_ONE → scp.ptr = 0 ∨ scp.size = 0 ∨ scp.Terminated ∨
    DataRefused k m scp.size ∨ ArrayRefused k m proc scp.size ∧ ∀ e ∈ es, ¬ scp.Extended e
  find : scp.opcode = OP SYS_ENV SYS_TWO ∨ scp.opcode = OP SYS_ENV SYS_THREE ∨
    scp.opcode = OP SYS_ENV SYS_FIVE → scp.Terminated ∨ ∀ e ∈ es, ¬ scp.Extended e
  information : scp.opcode = OP SYS_ENV SYS_FOUR → scp.id < 0 ∨ proc.environmentCount ≤ scp.id

/-- The name that a packet gives to the functions of `kernel/env.c`. -/
def SyscallPacket.given (scp : SyscallPacket) : CString :=
  (scp.setRc SMK_UNKNOWN_SYSCALL).name

theorem name_setRc (scp : SyscallPacket) (rc : ℤ) {i : ℕ} (h : i < rcOffset) :
    (scp.setRc rc).name i = scp.name i :=
  if_neg (by omega)

theorem given_of_lt (scp : SyscallPacket) {i : ℕ} (h : i < rcOffset) : scp.given i = scp.name i :=
  name_setRc scp _ h

theorem given_rc (scp : SyscallPacket) {j : ℕ} (h : j < 4) :
    scp.given (rcOffset + j) = charOf SMK_UNKNOWN_SYSCALL j := by
  refine (if_pos ⟨by omega, by omega⟩).trans ?_
  rw [Nat.add_sub_cancel_left]

theorem given_of_le (scp : SyscallPacket) {i : ℕ} (h : rcOffset + 4 ≤ i) :
    scp.given i = scp.name i :=
  if_neg (by omega)

theorem charOf_ne_zero {j : ℕ} (h : j < 4) : charOf SMK_UNKNOWN_SYSCALL j ≠ 0 := by
  interval_cases j <;> decide

/-- A terminated field is the whole name. -/
theorem key_of_terminated {scp p p' : SyscallPacket} (h : scp.Terminated) (hp : scp.Agrees p)
    (hp' : scp.Agrees p') : key p.given = key p'.given := by
  obtain ⟨j, hj, hz⟩ := h
  have hlt : ∀ i ≤ j, i < rcOffset := fun i hi => hi.trans_lt (hj.trans (by decide))
  have hfield : ∀ q : SyscallPacket, scp.Agrees q → key q.given = key scp.given := fun q hq => by
    refine cut_congr_of_zero (j := j) (by rw [given_of_lt _ (hlt j le_rfl), hz]) fun i hi => ?_
    rw [given_of_lt _ (hlt i hi), given_of_lt _ (hlt i hi), hq.name i (by omega)]
  rw [hfield p hp, hfield p' hp']

/-- A variable that a packet names by more than its field goes on as such a packet does. -/
theorem extended_of_key {scp p : SyscallPacket} {e : EnvironInfo} (h : ¬ scp.Terminated)
    (hp : scp.Agrees p) (hk : key e.name = key p.given) : scp.Extended e := by
  have hopen : ∀ i < SMK_NAME_LENGTH, p.given i ≠ 0 := fun i hi hz =>
    h ⟨i, hi, by rw [← hp.name i hi, ← given_of_lt p (hi.trans (by decide)), hz]⟩
  refine ⟨fun i hi => ?_, ?_⟩
  · rw [← eq_of_cut_eq hk.symm (hi.trans (by decide)) fun l hl => hopen l (hl.trans hi),
      given_of_lt p (hi.trans (by decide)), hp.name i hi]
  · by_cases hl : (key e.name).length < rcOffset
    · exact .inl hl
    · refine .inr fun j hj => ?_
      have hn : rcOffset + j < SMK_ENVNAME_LENGTH :=
        (Nat.add_lt_add_left hj _).trans (by decide)
      rw [← given_rc p hj]
      refine (eq_of_cut_eq hk.symm hn fun i hi => ?_).symm
      by_cases hir : i < rcOffset
      · refine ne_zero_of_lt_cut (n := SMK_ENVNAME_LENGTH) ?_
        rw [← key, ← hk]
        omega
      · obtain ⟨l, rfl⟩ := Nat.exists_eq_add_of_le (not_lt.mp hir)
        rw [given_rc p (by omega)]
        exact charOf_ne_zero (by omega)

/-- The packet with other memory behind its name field. -/
def SyscallPacket.followedBy (scp : SyscallPacket) (tail : CString) : SyscallPacket :=
  { scp with name := fun i => if i < SMK_NAME_LENGTH then scp.name i else tail i }

theorem agrees_followedBy (scp : SyscallPacket) (tail : CString) :
    scp.Agrees (scp.followedBy tail) :=
  ⟨rfl, rfl, rfl, rfl, fun _ hi => if_pos hi⟩

theorem chars_followedBy {scp : SyscallPacket} {tail : CString} (h : scp.Chars)
    (ht : ∀ i, -128 ≤ tail i ∧ tail i < 128) : (scp.followedBy tail).Chars := by
  intro i
  change -128 ≤ ite _ _ _ ∧ ite _ _ _ < 128
  split_ifs
  · exact h i
  · exact ht i

theorem name_followedBy (scp : SyscallPacket) (tail : CString) {i : ℕ} (h : SMK_NAME_LENGTH ≤ i) :
    (scp.followedBy tail).name i = tail i :=
  if_neg (not_lt.mpr h)

/-- The digits of `t` behind the name field, each a character that is not zero. -/
def digits (t : ℕ) : CString := fun i => if t.testBit (i - SMK_NAME_LENGTH) then 2 else 1

theorem digits_char (t i : ℕ) : -128 ≤ digits t i ∧ digits t i < 128 := by
  unfold digits
  split_ifs <;> decide

/-- Different digits give different names. -/
theorem key_digits_injOn {scp : SyscallPacket} (h : ¬ scp.Terminated) :
    Set.InjOn (fun t => key (scp.followedBy (digits t)).given) (Set.Iio (2 ^ 24)) := by
  intro t ht u hu htu
  have hne : ∀ i < rcOffset, (scp.followedBy (digits t)).given i ≠ 0 := by
    intro i hi
    rw [given_of_lt _ hi]
    by_cases hf : i < SMK_NAME_LENGTH
    · rw [(agrees_followedBy scp _).name i hf]
      exact fun hz => h ⟨i, hf, hz⟩
    · rw [name_followedBy _ _ (not_lt.mp hf), digits]
      split_ifs <;> decide
  refine Nat.eq_of_testBit_eq fun b => ?_
  by_cases hb : b < 24
  · have hlt : SMK_NAME_LENGTH + b < rcOffset := by
      simp only [rcOffset]
      omega
    have heq := eq_of_cut_eq htu (hlt.trans (by decide)) fun i hi => hne i (hi.trans hlt)
    rw [given_of_lt _ hlt, given_of_lt _ hlt, name_followedBy _ _ (Nat.le_add_right _ _),
      name_followedBy _ _ (Nat.le_add_right _ _), digits, digits, Nat.add_sub_cancel_left] at heq
    revert heq
    cases t.testBit b <;> cases u.testBit b <;> simp
  · have hle : 2 ^ 24 ≤ 2 ^ b := Nat.pow_le_pow_right (by norm_num) (not_lt.mp hb)
    rw [Nat.testBit_lt_two_pow (lt_of_lt_of_le ht hle),
      Nat.testBit_lt_two_pow (lt_of_lt_of_le hu hle)]

/-- A packet whose name goes on behind the field can avoid any list of names that fits into the
memory. -/
theorem exists_fresh {scp : SyscallPacket} (h : ¬ scp.Terminated) (hs : scp.Chars)
    (names : List (List ℤ)) (hl : names.length < 2 ^ 24) :
    ∃ p : SyscallPacket, p.Chars ∧ scp.Agrees p ∧ key p.given ∉ names := by
  obtain ⟨x, hx, hn⟩ := Finset.exists_mem_notMem_of_card_lt_card
    (s := names.toFinset) (t := (Finset.range (2 ^ 24)).image
      fun t => key (scp.followedBy (digits t)).given) (by
    rw [Finset.card_image_of_injOn (by simpa [← Set.Iio_def] using key_digits_injOn h),
      Finset.card_range]
    exact (List.toFinset_card_le _).trans_lt hl)
  obtain ⟨t, -, rfl⟩ := Finset.mem_image.mp hx
  exact ⟨_, chars_followedBy hs (digits_char t), agrees_followedBy scp _,
    fun hm => hn (List.mem_toFinset.mpr hm)⟩

/-- A packet can name a variable whose name goes on as a packet might. -/
theorem exists_named {scp : SyscallPacket} {e : EnvironInfo} (h : ¬ scp.Terminated)
    (hs : scp.Chars) (he : scp.Extended e) (hc : ∀ i, -128 ≤ e.name i ∧ e.name i < 128) :
    ∃ p : SyscallPacket, p.Chars ∧ scp.Agrees p ∧ key p.given = key e.name := by
  have hle := length_cut_le e.name SMK_ENVNAME_LENGTH
  have hopen : SMK_NAME_LENGTH ≤ (key e.name).length := by
    by_contra hlt
    refine h ⟨_, not_le.mp hlt, ?_⟩
    rw [← he.field _ (not_le.mp hlt)]
    exact cut_end ((not_le.mp hlt).trans (by decide))
  refine ⟨scp.followedBy fun i => if i < (key e.name).length then e.name i else 0,
    chars_followedBy hs fun i => ?_, agrees_followedBy scp _,
    cutFrom_congr (fun j _ hj => ?_) fun hl => ?_⟩
  · split_ifs
    · exact hc i
    · decide
  · rw [Nat.zero_add, ← cut, ← key] at hj
    have hname : (scp.followedBy fun i => if i < (key e.name).length then e.name i else 0).name j =
        e.name j := by
      by_cases hf : j < SMK_NAME_LENGTH
      · rw [(agrees_followedBy scp _).name j hf, he.field j hf]
      · rw [name_followedBy _ _ (not_lt.mp hf), if_pos hj]
    by_cases hlt : j < rcOffset
    · rw [given_of_lt _ hlt, hname]
    · by_cases hge : rcOffset + 4 ≤ j
      · rw [given_of_le _ hge, hname]
      · obtain ⟨l, rfl⟩ := Nat.exists_eq_add_of_le (not_lt.mp hlt)
        rw [given_rc _ (by omega)]
        rcases he.behind with hb | hb
        · omega
        · rw [hb l (by omega)]
  · rw [Nat.zero_add, ← cut, ← key] at *
    have hz : (scp.followedBy fun i => if i < (key e.name).length then e.name i else 0).name
        (key e.name).length = 0 := by
      rw [name_followedBy _ _ hopen, if_neg (lt_irrefl _)]
    by_cases hlt : (key e.name).length < rcOffset
    · rw [given_of_lt _ hlt, hz]
    · by_cases hge : rcOffset + 4 ≤ (key e.name).length
      · rw [given_of_le _ hge, hz]
      · -- the name does not end within the bytes of `rc`
        obtain ⟨l, hel⟩ := Nat.exists_eq_add_of_le (not_lt.mp hlt)
        have hend : e.name (key e.name).length = 0 := cut_end hl
        rcases he.behind with hb | hb
        · omega
        · rw [hel, hb l (by omega)] at hend
          exact absurd hend (charOf_ne_zero (by omega))

/-! ### The calls -/

section Calls
variable {m : Memory} {proc : Process} {es : List EnvironInfo} (h : Represents m proc es)
include h

/-- The variables of a process fit into the address space. -/
theorem Represents.length_lt : es.length < 2 ^ 23 := by
  rcases Nat.eq_zero_or_pos es.length with h0 | hpos
  · rw [h0]
    norm_num
  · obtain ⟨a, room, _, -, hb, hr, -⟩ := h.array_of_lt hpos
    have hin : a + room ≤ 2 ^ 32 := m.inside a _ hb
    simp only [sizeofEnvironInfo, SMK_ENVNAME_LENGTH] at hr
    omega

theorem Represents.unique {es' : List EnvironInfo} (h' : Represents m proc es') : es = es' := by
  have hl : es.length = es'.length := h.count.symm.trans h'.count
  refine List.ext_getElem hl fun i hi hi' => ?_
  exact Except.ok.inj ((h.entry_eq hi).symm.trans (h'.entry_eq hi'))

omit h in
theorem findIdx_named (name : CString) :
    es.findIdx (named name) < es.length ↔ ∃ e ∈ es, key e.name = key name := by
  rw [List.findIdx_lt_length]
  refine exists_congr fun e => and_congr_right fun _ => ?_
  rw [named, decide_eq_true_iff, kstrncmp_eq_zero]
  rfl

theorem find_absent {name : CString} (ha : ∀ e ∈ es, key e.name ≠ key name) :
    findFrom m proc.environment name 0 proc.environmentCount = .ok proc.environmentCount := by
  have hn : ¬ es.findIdx (named name) < es.length := by
    rw [findIdx_named]
    exact fun ⟨e, he, hk⟩ => ha e he hk
  rw [h.findFrom_eq, h.count, Nat.le_antisymm List.findIdx_le_length (not_lt.mp hn)]

theorem find_present {name : CString} (hp : ∃ e ∈ es, key e.name = key name) :
    ∃ i, ∃ hi : i < es.length, i < proc.environmentCount ∧
      findFrom m proc.environment name 0 proc.environmentCount = .ok i ∧
      entry m proc.environment i = .ok es[i] := by
  have hi := (findIdx_named name).mpr hp
  exact ⟨_, hi, h.count ▸ hi, h.findFrom_eq name, h.entry_eq hi⟩

theorem getEnvironment_absent {name : CString} (ha : ∀ e ∈ es, key e.name ≠ key name)
    (data : Buffer) (size : ℕ) :
    getEnvironment m proc name data size = .ok (SMK_NOT_FOUND, data, size) := by
  rw [getEnvironment, find_absent h ha, ok_bind, if_neg (lt_irrefl _)]

theorem getEnvironment_present {name : CString} (hp : ∃ e ∈ es, key e.name = key name)
    (data : Buffer) (size : ℕ) :
    ∃ d n, getEnvironment m proc name data size = .ok (SMK_OK, d, n) ∧
      ∀ i, size ≤ i → d i = data i := by
  obtain ⟨i, hi, hlt, hf, he⟩ := find_present h hp
  obtain ⟨room, b, hb, -, hroom⟩ := h.data es[i] (List.getElem_mem hi)
  have hn : (if es[i].size > size then size else es[i].size) ≤ room := by
    split_ifs <;> omega
  rw [getEnvironment, hf, ok_bind, if_pos hlt, he, ok_bind]
  dsimp only
  rw [bytesAt_eq hb hn, ok_bind]
  refine ⟨_, _, rfl, fun j hj => if_neg ?_⟩
  split_ifs <;> omega

theorem getEnvironmentSize_absent {name : CString} (ha : ∀ e ∈ es, key e.name ≠ key name)
    (size : ℕ) : getEnvironmentSize m proc name size = .ok (SMK_NOT_FOUND, size) := by
  rw [getEnvironmentSize, find_absent h ha, ok_bind, if_neg (lt_irrefl _)]

theorem getEnvironmentSize_present {name : CString} (hp : ∃ e ∈ es, key e.name = key name)
    (size : ℕ) : ∃ n, getEnvironmentSize m proc name size = .ok (SMK_OK, n) := by
  obtain ⟨i, hi, hlt, hf, he⟩ := find_present h hp
  rw [getEnvironmentSize, hf, ok_bind, if_pos hlt, he, ok_bind]
  exact ⟨_, rfl⟩

theorem removeEnvironment_absent (k : Kalloc) {name : CString}
    (ha : ∀ e ∈ es, key e.name ≠ key name) :
    removeEnvironment k m proc name = .ok (SMK_NOT_FOUND, proc, m) := by
  rw [removeEnvironment, removeFrom_eq, find_absent h ha, ok_bind, Nat.zero_add,
    if_neg (lt_irrefl _), ok_bind]
  rfl

omit h in
theorem removeFrom_found {env : Option ℕ} {name : CString} {i left : ℕ} {m m' : Memory}
    {found : Bool} (hr : removeFrom env name i left true m = .ok (found, m')) : found = true := by
  induction left generalizing i m with
  | zero =>
    cases hr
    rfl
  | succ left ih =>
    obtain ⟨e, -, hr⟩ := bind_eq_ok.mp hr
    obtain ⟨m₁, -, hr⟩ := bind_eq_ok.mp hr
    exact ih hr

theorem removeEnvironment_present (k : Kalloc) {name : CString}
    (hp : ∃ e ∈ es, key e.name = key name) :
    ∃ proc' m', removeEnvironment k m proc name = .ok (SMK_OK, proc', m') := by
  obtain ⟨rc, proc', m', es', hr, -⟩ := removeEnvironment_spec k h name
  refine ⟨proc', m', ?_⟩
  rw [hr]
  obtain ⟨⟨found, m₁⟩, hf, hr⟩ := bind_eq_ok.mp hr
  cases found with
  | true =>
    obtain ⟨⟨env, m₂⟩, -, hr⟩ := bind_eq_ok.mp hr
    cases hr
    rfl
  | false =>
    obtain ⟨i, hi, hlt, hfi, he⟩ := find_present h hp
    rw [removeFrom_eq, hfi, ok_bind, Nat.zero_add, if_pos hlt, he, ok_bind] at hf
    obtain ⟨m₂, -, hf⟩ := bind_eq_ok.mp hf
    exact absurd (removeFrom_found hf) (by decide)

theorem information_present {id : ℤ} (h0 : 0 ≤ id) (hid : id < proc.environmentCount) :
    ∃ e : EnvironInfo, ∀ name size, getEnvironmentInformation m proc id name size =
      .ok (SMK_OK, kstrncpy name e.name SMK_ENVNAME_LENGTH, e.size) := by
  have hlt : id.toNat < es.length := by
    rw [← h.count]
    omega
  refine ⟨es[id.toNat], fun name size => ?_⟩
  rw [getEnvironmentInformation, if_neg (not_lt.mpr h0), if_neg (not_le.mpr hid),
    h.entry_eq hlt, ok_bind]

/-- Without a block for the data nothing happens, whatever the name. -/
theorem setEnvironment_refused {k : Kalloc} {size : ℕ} {m₁ : Memory} (hs : 0 < size)
    (hk : kmalloc k m size (.bytes k.litter) = .ok (none, m₁)) (name : CString) (data : Buffer) :
    setEnvironment k m proc (some name) (some data) size = .ok (SMK_NOMEM, proc, m₁) := by
  simp only [setEnvironment, setEnvironmentWith, if_neg hs.ne']
  by_cases hp : ∃ e ∈ es, key e.name = key name
  · obtain ⟨i, hi, hlt, hf, he⟩ := find_present h hp
    rw [hf, ok_bind, if_pos hlt, he, ok_bind, hk, ok_bind]
  · push Not at hp
    rw [find_absent h hp, ok_bind, if_neg (lt_irrefl _), hk, ok_bind]

/-- Without a longer array the process loses its variables, whatever new name it was. -/
theorem setEnvironment_lost {k : Kalloc} {size p : ℕ} {m₁ m₂ : Memory} (hs : 0 < size)
    (hk : kmalloc k m size (.bytes k.litter) = .ok (some p, m₁))
    (hr : krealloc k m₁ proc.environment (arrayBytes (proc.environmentCount + 1)) = .ok (none, m₂))
    {name : CString} (ha : ∀ e ∈ es, key e.name ≠ key name) (data : Buffer) :
    setEnvironment k m proc (some name) (some data) size = (do
      let m ← kfree m₂ p
      .ok (SMK_NOMEM, ⟨none, 0⟩, m)) := by
  simp only [setEnvironment, setEnvironmentWith, if_neg hs.ne']
  rw [find_absent h ha, ok_bind, if_neg (lt_irrefl _), hk, ok_bind]
  dsimp only
  rw [hr, ok_bind]
  rfl

theorem setEnvironment_rc {k : Kalloc} {size p : ℕ} {m₁ : Memory} (hs : 0 < size)
    (hk : kmalloc k m size (.bytes k.litter) = .ok (some p, m₁)) {name : CString}
    (hq : (∃ e ∈ es, key e.name = key name) ∨ ∃ a m₂, krealloc k m₁ proc.environment
      (arrayBytes (proc.environmentCount + 1)) = .ok (some a, m₂))
    {data : Buffer} {rc : ℤ} {proc' : Process} {m' : Memory}
    (ha : setEnvironment k m proc (some name) (some data) size = .ok (rc, proc', m')) :
    rc = SMK_OK := by
  simp only [setEnvironment, setEnvironmentWith, if_neg hs.ne'] at ha
  by_cases hp : ∃ e ∈ es, key e.name = key name
  · obtain ⟨i, hi, hlt, hf, he⟩ := find_present h hp
    rw [hf, ok_bind, if_pos hlt, he, ok_bind, hk, ok_bind] at ha
    obtain ⟨m₂, -, ha⟩ := bind_eq_ok.mp ha
    obtain ⟨m₃, -, ha⟩ := bind_eq_ok.mp ha
    obtain ⟨m₄, -, ha⟩ := bind_eq_ok.mp ha
    cases ha
    rfl
  · obtain ⟨a, m₂, hr⟩ := hq.resolve_left hp
    push Not at hp
    rw [find_absent h hp, ok_bind, if_neg (lt_irrefl _), hk, ok_bind] at ha
    dsimp only at ha
    rw [hr, ok_bind] at ha
    dsimp only at ha
    rw [if_neg (by simp)] at ha
    obtain ⟨m₃, -, ha⟩ := bind_eq_ok.mp ha
    obtain ⟨e, -, ha⟩ := bind_eq_ok.mp ha
    obtain ⟨m₄, -, ha⟩ := bind_eq_ok.mp ha
    cases ha
    rfl

/-- Two new names leave different environments. -/
theorem setEnvironment_new {k : Kalloc} {size p a : ℕ} {m₁ m₂ : Memory} (hs : 0 < size)
    (hk : kmalloc k m size (.bytes k.litter) = .ok (some p, m₁))
    (hr : krealloc k m₁ proc.environment (arrayBytes (proc.environmentCount + 1)) =
      .ok (some a, m₂)) {name name' : CString} (ha : ∀ e ∈ es, key e.name ≠ key name)
    (ha' : ∀ e ∈ es, key e.name ≠ key name') {data : Buffer} {rc rc' : ℤ} {proc' : Process}
    {m' : Memory}
    (hn : setEnvironment k m proc (some name) (some data) size = .ok (rc, proc', m'))
    (hn' : setEnvironment k m proc (some name') (some data) size = .ok (rc', proc', m')) :
    key name = key name' := by
  have hviews : ∀ {n : CString} {r : ℤ}, (∀ e ∈ es, key e.name ≠ key n) →
      setEnvironment k m proc (some n) (some data) size = .ok (r, proc', m') →
      ∃ es', Represents m' proc' es' ∧
        es'.map (view m') = es.map (view m) ++ [(key n, taken data size)] := by
    intro n r hnew hset
    obtain ⟨r', q, m'', es', hset', hS⟩ := setEnvironment_spec k h n data hs
    rw [hset, Except.ok.injEq, Prod.mk.injEq, Prod.mk.injEq] at hset'
    obtain ⟨rfl, rfl, rfl⟩ := hset'
    have hrc := setEnvironment_rc h hs hk (.inr ⟨a, m₂, hr⟩) hset
    have habs : ¬ es.findIdx (named n) < es.length := by
      rw [findIdx_named]
      exact fun ⟨e, he, hek⟩ => hnew e he hek
    have hput := OrderedMap.put_eq (key n) (taken data size) (es.map (view m))
    rw [findIdx_views, List.length_map, if_neg habs] at hput
    rcases hS.result with ⟨hno, -⟩ | ⟨-, -, hv⟩
    · rw [hrc] at hno
      exact absurd hno (by decide)
    · exact ⟨es', hS.represents, hv.trans hput⟩
  obtain ⟨es₁, h₁, hv₁⟩ := hviews ha hn
  obtain ⟨es₂, h₂, hv₂⟩ := hviews ha' hn'
  rw [← h₁.unique h₂, hv₁] at hv₂
  have hlast := List.append_cancel_left hv₂
  rw [List.cons.injEq, Prod.mk.injEq] at hlast
  exact hlast.1.1

omit h in
theorem information_outside {id : ℤ} (hid : id < 0 ∨ proc.environmentCount ≤ id) (name : CString)
    (size : ℕ) :
    getEnvironmentInformation m proc id name size = .ok (SMK_NOT_FOUND, name, size) := by
  rw [getEnvironmentInformation]
  split_ifs with h₁ h₂
  · rfl
  · rfl
  · omega

end Calls

/-! ### The packets -/

theorem rc_setRc (scp : SyscallPacket) (rc : ℤ) : (scp.setRc rc).rc = taken (charOf rc) 4 := by
  refine taken_congr fun j hj => ?_
  exact (if_pos ⟨Nat.le_add_right _ _, by omega⟩).trans (by rw [Nat.add_sub_cancel_left])

section Packets
variable {k : Kalloc} {m : Memory} {proc : Process} {data : Buffer} {p : SyscallPacket}

theorem syscallEnv_set (hop : p.opcode = OP SYS_ENV SYS_ONE) :
    syscallEnv k ⟨m, proc, p, data⟩ = (do
      let (rc, proc, mem) ← setEnvironment k m proc (some p.given)
        (if p.ptr = 0 then none else some data) p.size
      .ok ⟨mem, proc, (p.setRc SMK_UNKNOWN_SYSCALL).setRc rc, data⟩) :=
  if_pos hop

theorem syscallEnv_get (hop : p.opcode = OP SYS_ENV SYS_TWO) :
    syscallEnv k ⟨m, proc, p, data⟩ = (do
      let (rc, data, size) ← getEnvironment m proc p.given data p.size
      .ok ⟨m, proc, { p.setRc SMK_UNKNOWN_SYSCALL with size := size }.setRc rc, data⟩) :=
  (if_neg (by rw [SyscallPacket.setRc, hop]; decide)).trans (if_pos hop)

theorem syscallEnv_getSize (hop : p.opcode = OP SYS_ENV SYS_THREE) :
    syscallEnv k ⟨m, proc, p, data⟩ = (do
      let (rc, size) ← getEnvironmentSize m proc p.given p.size
      .ok ⟨m, proc, { p.setRc SMK_UNKNOWN_SYSCALL with size := size }.setRc rc, data⟩) :=
  (if_neg (by rw [SyscallPacket.setRc, hop]; decide)).trans <|
    (if_neg (by rw [SyscallPacket.setRc, hop]; decide)).trans (if_pos hop)

theorem syscallEnv_information (hop : p.opcode = OP SYS_ENV SYS_FOUR) :
    syscallEnv k ⟨m, proc, p, data⟩ = (do
      let (rc, name, size) ← getEnvironmentInformation m proc p.id p.given p.size
      .ok ⟨m, proc,
        { p.setRc SMK_UNKNOWN_SYSCALL with name := name, size := size }.setRc rc, data⟩) :=
  (if_neg (by rw [SyscallPacket.setRc, hop]; decide)).trans <|
    (if_neg (by rw [SyscallPacket.setRc, hop]; decide)).trans <|
      (if_neg (by rw [SyscallPacket.setRc, hop]; decide)).trans (if_pos hop)

theorem syscallEnv_remove (hop : p.opcode = OP SYS_ENV SYS_FIVE) :
    syscallEnv k ⟨m, proc, p, data⟩ = (do
      let (rc, proc, mem) ← removeEnvironment k m proc p.given
      .ok ⟨mem, proc, (p.setRc SMK_UNKNOWN_SYSCALL).setRc rc, data⟩) :=
  (if_neg (by rw [SyscallPacket.setRc, hop]; decide)).trans <|
    (if_neg (by rw [SyscallPacket.setRc, hop]; decide)).trans <|
      (if_neg (by rw [SyscallPacket.setRc, hop]; decide)).trans <|
        (if_neg (by rw [SyscallPacket.setRc, hop]; decide)).trans (if_pos hop)

theorem syscallEnv_other (h₁ : p.opcode ≠ OP SYS_ENV SYS_ONE) (h₂ : p.opcode ≠ OP SYS_ENV SYS_TWO)
    (h₃ : p.opcode ≠ OP SYS_ENV SYS_THREE) (h₄ : p.opcode ≠ OP SYS_ENV SYS_FOUR)
    (h₅ : p.opcode ≠ OP SYS_ENV SYS_FIVE) :
    syscallEnv k ⟨m, proc, p, data⟩ = .ok ⟨m, proc, p.setRc SMK_UNKNOWN_SYSCALL, data⟩ :=
  (if_neg h₁).trans <| (if_neg h₂).trans <| (if_neg h₃).trans <| (if_neg h₄).trans (if_neg h₅)

/-- An answer that goes to `rc`, `size` and the data buffer stays inside. -/
theorem Stays.of_answer (proc' : Process) (m' : Memory) (size : ℕ) (rc : ℤ) {d : Buffer}
    (hd : ∀ i, p.size ≤ i → d i = data i) : Stays ⟨m, proc, p, data⟩
      ⟨m', proc', { p.setRc SMK_UNKNOWN_SYSCALL with size := size }.setRc rc, d⟩ := by
  refine ⟨rfl, rfl, rfl, rfl, rfl, rfl, rfl, fun i _ hi => ?_, hd⟩
  refine (if_neg (by omega)).trans (if_neg (by omega))

end Packets

theorem result_congr {β : Type} {x y : Outcome β} (h : x = y) {f g : β → Outcome Entered}
    (hfg : ∀ b, (f b).map result = (g b).map result) :
    (x >>= f).map result = (y >>= g).map result := by
  subst h
  cases x with
  | error e => rfl
  | ok b => exact hfg b

theorem result_setRc (m : Memory) (proc : Process) (scp : SyscallPacket) (data : Buffer) (rc : ℤ) :
    result ⟨m, proc, scp.setRc rc, data⟩ = (proc, m, taken (charOf rc) 4, scp.size, data) := by
  simp only [result, rc_setRc]
  rfl

/-- Where the name matters at all, the packets name the same variable or none. -/
theorem given_cases {es : List EnvironInfo} {scp p p' : SyscallPacket}
    (hs : scp.Terminated ∨ ∀ e ∈ es, ¬ scp.Extended e) (hp : scp.Agrees p) (hp' : scp.Agrees p') :
    key p.given = key p'.given ∨
      (∀ e ∈ es, key e.name ≠ key p.given) ∧ ∀ e ∈ es, key e.name ≠ key p'.given := by
  by_cases ht : scp.Terminated
  · exact .inl (key_of_terminated ht hp hp')
  · have hn := hs.resolve_left ht
    exact .inr ⟨fun e he hk => hn e he (extended_of_key ht hp hk),
      fun e he hk => hn e he (extended_of_key ht hp' hk)⟩

theorem setEnvironment_without (k : Kalloc) (m : Memory) (proc : Process) (name : CString)
    (size : ℕ) : setEnvironment k m proc (some name) none size = .ok (SMK_BAD_PARAMS, proc, m) :=
  rfl

theorem setEnvironment_nothing (k : Kalloc) (m : Memory) (proc : Process) (name : CString)
    (data : Buffer) :
    setEnvironment k m proc (some name) (some data) 0 =
      .ok (SMK_REQUESTED_NOTHING, proc, m) := by
  rw [setEnvironment, setEnvironmentWith, if_pos rfl]

section Confinement
variable {k : Kalloc} {m : Memory} {proc : Process} {es : List EnvironInfo}
  (h : Represents m proc es) {data : Buffer} {scp : SyscallPacket}
include h

theorem setEnvironment_same (hsafe : scp.ptr = 0 ∨ scp.size = 0 ∨ scp.Terminated ∨
      DataRefused k m scp.size ∨ ArrayRefused k m proc scp.size ∧ ∀ e ∈ es, ¬ scp.Extended e)
    {p p' : SyscallPacket} (hp : scp.Agrees p) (hp' : scp.Agrees p') :
    setEnvironment k m proc (some p.given) (if scp.ptr = 0 then none else some data) scp.size =
      setEnvironment k m proc (some p'.given) (if scp.ptr = 0 then none else some data)
        scp.size := by
  by_cases hptr : scp.ptr = 0
  · rw [if_pos hptr, setEnvironment_without, setEnvironment_without]
  rw [if_neg hptr]
  by_cases hsize : scp.size = 0
  · rw [hsize, setEnvironment_nothing, setEnvironment_nothing]
  have hs : 0 < scp.size := Nat.pos_of_ne_zero hsize
  rcases hsafe with h₀ | h₀ | ht | ⟨m₁, hk⟩ | ⟨⟨a, m₁, m₂, hk, hr⟩, hn⟩
  · exact absurd h₀ hptr
  · exact absurd h₀ hsize
  · exact setEnvironment_congr (key_of_terminated ht hp hp') ..
  · rw [setEnvironment_refused h hs hk, setEnvironment_refused h hs hk]
  · rcases given_cases (.inr hn) hp hp' with hkey | ⟨ha, ha'⟩
    · exact setEnvironment_congr hkey ..
    · rw [setEnvironment_lost h hs hk hr ha, setEnvironment_lost h hs hk hr ha']

theorem same_result (hsafe : Safe k m proc es scp) {p p' : SyscallPacket} (hp : scp.Agrees p)
    (hp' : scp.Agrees p') : (syscallEnv k ⟨m, proc, p, data⟩).map result =
      (syscallEnv k ⟨m, proc, p', data⟩).map result := by
  by_cases h₁ : scp.opcode = OP SYS_ENV SYS_ONE
  · rw [syscallEnv_set (hp.opcode.trans h₁), syscallEnv_set (hp'.opcode.trans h₁), hp.size,
      hp'.size, hp.ptr, hp'.ptr]
    refine result_congr (setEnvironment_same h (hsafe.set h₁) hp hp') fun r => ?_
    refine congrArg Except.ok ?_
    rw [result_setRc, result_setRc]
    change (_, _, _, p.size, _) = (_, _, _, p'.size, _)
    rw [hp.size, hp'.size]
  by_cases h₂ : scp.opcode = OP SYS_ENV SYS_TWO
  · rw [syscallEnv_get (hp.opcode.trans h₂), syscallEnv_get (hp'.opcode.trans h₂), hp.size,
      hp'.size]
    refine result_congr ?_ fun r => congrArg Except.ok (by rw [result_setRc, result_setRc])
    rcases given_cases (hsafe.find (.inl h₂)) hp hp' with hkey | ⟨ha, ha'⟩
    · exact getEnvironment_congr hkey ..
    · rw [getEnvironment_absent h ha, getEnvironment_absent h ha']
  by_cases h₃ : scp.opcode = OP SYS_ENV SYS_THREE
  · rw [syscallEnv_getSize (hp.opcode.trans h₃), syscallEnv_getSize (hp'.opcode.trans h₃), hp.size,
      hp'.size]
    refine result_congr ?_ fun r => congrArg Except.ok (by rw [result_setRc, result_setRc])
    rcases given_cases (hsafe.find (.inr (.inl h₃))) hp hp' with hkey | ⟨ha, ha'⟩
    · exact getEnvironmentSize_congr hkey ..
    · rw [getEnvironmentSize_absent h ha, getEnvironmentSize_absent h ha']
  by_cases h₄ : scp.opcode = OP SYS_ENV SYS_FOUR
  · rw [syscallEnv_information (hp.opcode.trans h₄), syscallEnv_information (hp'.opcode.trans h₄),
      hp.size, hp'.size, hp.id, hp'.id, information_outside (hsafe.information h₄),
      information_outside (hsafe.information h₄), ok_bind, ok_bind]
    exact congrArg Except.ok (by rw [result_setRc, result_setRc])
  by_cases h₅ : scp.opcode = OP SYS_ENV SYS_FIVE
  · rw [syscallEnv_remove (hp.opcode.trans h₅), syscallEnv_remove (hp'.opcode.trans h₅)]
    refine result_congr ?_ fun r => congrArg Except.ok ?_
    · rcases given_cases (hsafe.find (.inr (.inr h₅))) hp hp' with hkey | ⟨ha, ha'⟩
      · exact removeEnvironment_congr hkey ..
      · rw [removeEnvironment_absent h k ha, removeEnvironment_absent h k ha']
    · rw [result_setRc, result_setRc]
      change (_, _, _, p.size, _) = (_, _, _, p'.size, _)
      rw [hp.size, hp'.size]
  rw [← hp.opcode] at h₁ h₂ h₃ h₄ h₅
  rw [syscallEnv_other h₁ h₂ h₃ h₄ h₅]
  rw [hp.opcode, ← hp'.opcode] at h₁ h₂ h₃ h₄ h₅
  rw [syscallEnv_other h₁ h₂ h₃ h₄ h₅]
  refine congrArg Except.ok ?_
  rw [result_setRc, result_setRc, hp.size, hp'.size]

theorem setEnvironment_total (k : Kalloc) (name : CString) (data : Option Buffer) (size : ℕ) :
    ∃ rc proc' m', setEnvironment k m proc (some name) data size = .ok (rc, proc', m') := by
  cases data with
  | none => exact ⟨_, _, _, setEnvironment_without ..⟩
  | some data =>
    rcases Nat.eq_zero_or_pos size with rfl | hs
    · exact ⟨_, _, _, setEnvironment_nothing ..⟩
    · obtain ⟨rc, proc', m', -, hset, -⟩ := setEnvironment_spec k h name data hs
      exact ⟨rc, proc', m', hset⟩

/-- Only the name of a variable can leave the packet. -/
theorem stays (hid : scp.opcode = OP SYS_ENV SYS_FOUR → scp.id < 0 ∨ proc.environmentCount ≤ scp.id)
    {p : SyscallPacket} (hp : scp.Agrees p) :
    ∃ t, syscallEnv k ⟨m, proc, p, data⟩ = .ok t ∧ Stays ⟨m, proc, p, data⟩ t := by
  have hfound : (∃ e ∈ es, key e.name = key p.given) ∨ ∀ e ∈ es, key e.name ≠ key p.given := by
    by_cases hf : ∃ e ∈ es, key e.name = key p.given
    · exact .inl hf
    · exact .inr fun e he hk => hf ⟨e, he, hk⟩
  by_cases h₁ : p.opcode = OP SYS_ENV SYS_ONE
  · obtain ⟨rc, proc', m', hset⟩ := setEnvironment_total h k p.given
      (if p.ptr = 0 then none else some data) p.size
    rw [syscallEnv_set h₁, hset, ok_bind]
    exact ⟨_, rfl, Stays.of_answer proc' m' p.size rc fun _ _ => rfl⟩
  by_cases h₂ : p.opcode = OP SYS_ENV SYS_TWO
  · rw [syscallEnv_get h₂]
    rcases hfound with hf | ha
    · obtain ⟨d, n, hget, hd⟩ := getEnvironment_present h hf data p.size
      rw [hget, ok_bind]
      exact ⟨_, rfl, Stays.of_answer proc m n SMK_OK hd⟩
    · rw [getEnvironment_absent h ha, ok_bind]
      exact ⟨_, rfl, Stays.of_answer proc m p.size SMK_NOT_FOUND fun _ _ => rfl⟩
  by_cases h₃ : p.opcode = OP SYS_ENV SYS_THREE
  · rw [syscallEnv_getSize h₃]
    rcases hfound with hf | ha
    · obtain ⟨n, hget⟩ := getEnvironmentSize_present h hf p.size
      rw [hget, ok_bind]
      exact ⟨_, rfl, Stays.of_answer proc m n SMK_OK fun _ _ => rfl⟩
    · rw [getEnvironmentSize_absent h ha, ok_bind]
      exact ⟨_, rfl, Stays.of_answer proc m p.size SMK_NOT_FOUND fun _ _ => rfl⟩
  by_cases h₄ : p.opcode = OP SYS_ENV SYS_FOUR
  · rw [← hp.id] at hid
    rw [syscallEnv_information h₄, information_outside (hid (hp.opcode.symm.trans h₄)), ok_bind]
    exact ⟨_, rfl, Stays.of_answer proc m p.size SMK_NOT_FOUND fun _ _ => rfl⟩
  by_cases h₅ : p.opcode = OP SYS_ENV SYS_FIVE
  · rw [syscallEnv_remove h₅]
    rcases hfound with hf | ha
    · obtain ⟨proc', m', hrem⟩ := removeEnvironment_present h k hf
      rw [hrem, ok_bind]
      exact ⟨_, rfl, Stays.of_answer proc' m' p.size SMK_OK fun _ _ => rfl⟩
    · rw [removeEnvironment_absent h k ha, ok_bind]
      exact ⟨_, rfl, Stays.of_answer proc m p.size SMK_NOT_FOUND fun _ _ => rfl⟩
  rw [syscallEnv_other h₁ h₂ h₃ h₄ h₅]
  exact ⟨_, rfl, rfl, rfl, rfl, rfl, rfl, rfl, rfl, fun i _ hi => if_neg (by omega), fun _ _ => rfl⟩

/-! Where the condition fails, two packets tell the difference. -/

theorem exists_absent (ht : ¬ scp.Terminated) (hs : scp.Chars) (names : List (List ℤ))
    (hl : names.length ≤ 1) : ∃ p : SyscallPacket, p.Chars ∧ scp.Agrees p ∧
      (∀ e ∈ es, key e.name ≠ key p.given) ∧ key p.given ∉ names := by
  have hlt := h.length_lt
  obtain ⟨p, hpc, hp, hn⟩ := exists_fresh ht hs (es.map (fun e => key e.name) ++ names) (by
    rw [List.length_append, List.length_map]
    omega)
  rw [List.mem_append, not_or] at hn
  exact ⟨p, hpc, hp, fun e he hk => hn.1 (List.mem_map.mpr ⟨e, he, hk⟩), hn.2⟩

omit h in
theorem rc_of_result {x y : Outcome Entered} (hxy : x.map result = y.map result) {m₁ m₂ : Memory}
    {proc₁ proc₂ : Process} {p₁ p₂ : SyscallPacket} {d₁ d₂ : Buffer} {rc₁ rc₂ : ℤ}
    (hx : x = .ok ⟨m₁, proc₁, p₁.setRc rc₁, d₁⟩) (hy : y = .ok ⟨m₂, proc₂, p₂.setRc rc₂, d₂⟩) :
    taken (charOf rc₁) 4 = taken (charOf rc₂) 4 ∧ m₁ = m₂ ∧ proc₁ = proc₂ := by
  rw [hx, hy] at hxy
  have hr : result _ = result _ := Except.ok.inj hxy
  rw [result_setRc, result_setRc] at hr
  simp only [Prod.mk.injEq] at hr
  exact ⟨hr.2.2.1, hr.2.1, hr.1⟩

/-- A variable that only some of the packets name is found by those. -/
theorem find_of_confined (hc : ∀ e ∈ es, ∀ i, -128 ≤ e.name i ∧ e.name i < 128) (hs : scp.Chars)
    (hconf : Confined k m proc data scp)
    (hop : scp.opcode = OP SYS_ENV SYS_TWO ∨ scp.opcode = OP SYS_ENV SYS_THREE ∨
      scp.opcode = OP SYS_ENV SYS_FIVE) :
    scp.Terminated ∨ ∀ e ∈ es, ¬ scp.Extended e := by
  by_contra hno
  push Not at hno
  obtain ⟨ht, e, he, hext⟩ := hno
  obtain ⟨p, hpc, hp, hk⟩ := exists_named ht hs hext (hc e he)
  obtain ⟨p', hpc', hp', ha, -⟩ := exists_absent h ht hs [] (by simp)
  have hf : ∃ e ∈ es, key e.name = key p.given := ⟨e, he, hk.symm⟩
  have hsame := hconf.1 p p' hpc hpc' hp hp'
  have hrc : taken (charOf SMK_OK) 4 = taken (charOf SMK_NOT_FOUND) 4 := by
    rcases hop with hop | hop | hop
    · obtain ⟨d, n, hget, -⟩ := getEnvironment_present h hf data p.size
      rw [syscallEnv_get (hp.opcode.trans hop), hget, ok_bind,
        syscallEnv_get (hp'.opcode.trans hop), getEnvironment_absent h ha, ok_bind] at hsame
      exact (rc_of_result hsame rfl rfl).1
    · obtain ⟨n, hget⟩ := getEnvironmentSize_present h hf p.size
      rw [syscallEnv_getSize (hp.opcode.trans hop), hget, ok_bind,
        syscallEnv_getSize (hp'.opcode.trans hop), getEnvironmentSize_absent h ha, ok_bind] at hsame
      exact (rc_of_result hsame rfl rfl).1
    · obtain ⟨proc', m', hrem⟩ := removeEnvironment_present h k hf
      rw [syscallEnv_remove (hp.opcode.trans hop), hrem, ok_bind,
        syscallEnv_remove (hp'.opcode.trans hop), removeEnvironment_absent h k ha, ok_bind] at hsame
      exact (rc_of_result hsame rfl rfl).1
  exact absurd hrc (by decide)

theorem set_of_confined (hc : ∀ e ∈ es, ∀ i, -128 ≤ e.name i ∧ e.name i < 128) (hs : scp.Chars)
    (hconf : Confined k m proc data scp) (hop : scp.opcode = OP SYS_ENV SYS_ONE) :
    scp.ptr = 0 ∨ scp.size = 0 ∨ scp.Terminated ∨ DataRefused k m scp.size ∨
      ArrayRefused k m proc scp.size ∧ ∀ e ∈ es, ¬ scp.Extended e := by
  by_contra hno
  push Not at hno
  obtain ⟨hptr, hsize, ht, hd, harr⟩ := hno
  have hpos : 0 < scp.size := Nat.pos_of_ne_zero hsize
  have hset : ∀ p : SyscallPacket, scp.Agrees p → ∃ rc proc' m',
      setEnvironment k m proc (some p.given) (some data) scp.size = .ok (rc, proc', m') ∧
      syscallEnv k ⟨m, proc, p, data⟩ =
        .ok ⟨m', proc', (p.setRc SMK_UNKNOWN_SYSCALL).setRc rc, data⟩ := fun p hp => by
    obtain ⟨rc, proc', m', ha⟩ := setEnvironment_total h k p.given (some data) scp.size
    refine ⟨rc, proc', m', ha, ?_⟩
    rw [syscallEnv_set (hp.opcode.trans hop), hp.ptr, hp.size, if_neg hptr, ha, ok_bind]
  rcases kmalloc_cases k m scp.size (.bytes k.litter) with hk | ⟨x, hf, hk⟩
  · exact hd ⟨_, hk⟩
  have h₁ : Represents (m.alloc hf (.bytes k.litter)) proc es := h.congr fun y hy => by
    have hyx : y ≠ x := fun he => h.allocated hy (he ▸ hf.fresh)
    rw [Memory.block_alloc, if_neg hyx]
  obtain ⟨q, m₂, hq, -⟩ := krealloc_grow k h₁ (Nat.le_succ es.length) (Nat.succ_pos _)
  rw [← h.arrayBytes_eq le_rfl, ← h.count] at hq
  cases q with
  | none =>
    -- a variable that is there keeps its entry, a new one needs the array
    obtain ⟨e, he, hext⟩ := harr ⟨x, _, m₂, hk, hq⟩
    obtain ⟨p, hpc, hp, hkey⟩ := exists_named ht hs hext (hc e he)
    obtain ⟨p', hpc', hp', ha', -⟩ := exists_absent h ht hs [] (by simp)
    obtain ⟨rc, proc₁, m₃, hrun, hcall⟩ := hset p hp
    obtain ⟨rc', proc₂, m₄, hrun', hcall'⟩ := hset p' hp'
    have hok := setEnvironment_rc h hpos hk (.inl ⟨e, he, hkey.symm⟩) hrun
    rw [setEnvironment_lost h hpos hk hq ha'] at hrun'
    obtain ⟨m₅, -, hrun'⟩ := bind_eq_ok.mp hrun'
    rw [Except.ok.injEq, Prod.mk.injEq] at hrun'
    have hrc := (rc_of_result (hconf.1 p p' hpc hpc' hp hp') hcall hcall').1
    rw [hok, ← hrun'.1] at hrc
    exact absurd hrc (by decide)
  | some a =>
    obtain ⟨p, hpc, hp, ha, -⟩ := exists_absent h ht hs [] (by simp)
    obtain ⟨p', hpc', hp', ha', hne⟩ := exists_absent h ht hs [key p.given] (by simp)
    obtain ⟨rc, proc₁, m₃, hrun, hcall⟩ := hset p hp
    obtain ⟨rc', proc₂, m₄, hrun', hcall'⟩ := hset p' hp'
    obtain ⟨-, rfl, rfl⟩ := rc_of_result (hconf.1 p p' hpc hpc' hp hp') hcall hcall'
    have hkey := setEnvironment_new h hpos hk hq ha ha' hrun hrun'
    exact hne (hkey ▸ List.mem_singleton_self _)

/-- The name of a variable overwrites the packet behind the name field. -/
theorem information_of_confined (hs : scp.Chars) (hconf : Confined k m proc data scp)
    (hop : scp.opcode = OP SYS_ENV SYS_FOUR) : scp.id < 0 ∨ proc.environmentCount ≤ scp.id := by
  by_contra hno
  push Not at hno
  obtain ⟨e, he⟩ := information_present h hno.1 hno.2
  have hwritten : ∀ c : ℤ, -128 ≤ c ∧ c < 128 →
      (if SMK_NAME_LENGTH < (key e.name).length then e.name SMK_NAME_LENGTH else 0) = c := by
    intro c hc
    have hp := agrees_followedBy scp fun _ => c
    obtain ⟨t, ht, hst⟩ := hconf.2 _ (chars_followedBy hs fun _ => hc) hp
    rw [syscallEnv_information (hp.opcode.trans hop), hp.id, he, ok_bind, Except.ok.injEq] at ht
    have hrest := hst.rest SMK_NAME_LENGTH le_rfl (.inl (by decide))
    rw [← ht] at hrest
    dsimp only at hrest
    rw [name_setRc _ _ (by decide), name_followedBy _ _ le_rfl] at hrest
    change kstrncpy _ e.name SMK_ENVNAME_LENGTH SMK_NAME_LENGTH = c at hrest
    rw [kstrncpy_apply, if_pos (by decide : SMK_NAME_LENGTH < SMK_ENVNAME_LENGTH)] at hrest
    exact hrest
  have h₀ := hwritten 0 (by decide)
  have h₁ := hwritten 1 (by decide)
  rw [h₀] at h₁
  exact absurd h₁ (by decide)

end Confinement

def letterA : CString := fun i => if i = 0 then 65 else 0

def variableA : EnvironInfo := ⟨letterA, 4, 0x1000⟩

/-- An array with the variable `A` at `0x2000` and its data at `0x1000`. -/
def oneVariable : Memory where
  block x := if x = 0x1000 then some ⟨4, .bytes fun _ => 1⟩
    else if x = 0x2000 then some ⟨1032, .environ fun _ => variableA⟩ else none
  refused := false
  inside a A ha := by
    split_ifs at ha with h₁ h₂ <;> cases ha <;> subst a <;> decide
  apart a b A B ha hb hab := by
    split_ifs at ha with h₁ h₂ <;> split_ifs at hb with h₃ h₄ <;> cases ha <;> subst a <;>
      subst b <;> first | decide | exact absurd hab (by decide)

theorem represents_oneVariable : Represents oneVariable ⟨some 0x2000, 1⟩ [variableA] :=
  @Represents.of_array _ [variableA] _ ⟨1032, _, rfl, by decide, le_rfl, rfl⟩
    (fun e he => by
      obtain rfl := List.mem_singleton.mp he
      exact ⟨4, _, rfl, by decide, by decide⟩)
    (List.nodup_singleton _)

def noSlots : Kalloc := ⟨fun _ _ => none, fun _ => 0, fun _ => ⟨fun _ => 0, 0, 0⟩⟩

/-- A packet about the variable `A`, with `flags` set. -/
def packetA (opcode : ℕ) : SyscallPacket :=
  ⟨opcode, 0, 0, 0, 0, 0, 16, 0x5000, fun i => if i = SMK_NAME_LENGTH then 1 else letterA i⟩

theorem chars_packetA (opcode : ℕ) : (packetA opcode).Chars := by
  intro i
  simp only [packetA, letterA]
  split_ifs <;> decide

end Racoon.Env
