import Racoon.Processes.ContextSwitch

/-!
# Every thread keeps its registers

Over a run of any length and on any number of CPUs, a thread goes on with the
registers it was interrupted with, and `new_thread` decides with which ones it
starts. A scheduler goes on behind its call with its own registers as well, but
for the data selectors: those stay what the thread had made of them. The state
that says so knows nothing of stacks.
-/

namespace Racoon.Switching
open Lib

variable {τ : Type} {m m' : ℕ → ℕ} {s : Machine} {r : Regs} {sc : Scratch} {e : ℕ}

/-- The words that hold the registers of a thread that does not run; the fourth is ignored. -/
def Regs.frame (r : Regs) (e : ℕ) : List ℕ :=
  [r.edi, r.esi, r.ebp, e, r.ebx, r.edx, r.ecx, r.eax, r.es.toNat, r.ds.toNat, r.fs.toNat,
    r.gs.toNat, r.eip, r.cs.toNat, r.eflags] ++ if r.inUser then [r.esp, r.ss.toNat] else []

theorem withInterrupts_testBit (b : Bool) (w : ℕ) : (withInterrupts b w).testBit 9 = b := by
  unfold withInterrupts
  split_ifs with h
  · exact h
  · rw [Nat.testBit_xor, show EFLAG_INTERRUPT.testBit 9 = true by decide]
    cases b <;> simp_all

/-- The second half of `__switch_thread`. -/
theorem exec_frame (sc : Scratch) (h : WordsAt s.mem s.regs.esp (r.frame e))
    (hkernel : r.inUser = false → r.esp = s.regs.esp + 60 ∧ s.regs.ss = r.ss) :
    s.exec sc [.popa, .poplSel .es, .poplSel .ds, .poplSel .fs, .poplSel .gs, .iret] =
      { s with regs := r } := by
  obtain ⟨h0, h1, h2, -, h4, h5, h6, h7, h8, h9, h10, h11, h12, h13, h14, htail⟩ := h
  simp only [Nat.add_assoc, Nat.reduceAdd] at h1 h2 h4 h5 h6 h7 h8 h9 h10 h11 h12 h13 h14 htail
  simp only [Machine.exec, List.foldl_cons, List.foldl_nil, Instr.exec, Machine.drop, Machine.peek,
    Selector.set, Machine.iret, Nat.add_assoc, Nat.reduceAdd, Nat.reduceMul, Nat.mul_zero,
    Nat.add_zero, h0, h1, h2, h4, h5, h6, h7, h8, h9, h10, h11, h12, h13, h14,
    BitVec.ofNat_toNat, BitVec.setWidth_eq]
  by_cases hu : r.inUser = true
  · rw [if_pos hu] at htail
    obtain ⟨hesp, hss, -⟩ := htail
    simp only [Nat.add_assoc, Nat.reduceAdd] at hss
    rw [if_pos (by simpa [Regs.inUser] using hu), hesp, hss]
    simp only [BitVec.ofNat_toNat, BitVec.setWidth_eq]
  · obtain ⟨hesp, hss⟩ := hkernel (by simpa using hu)
    rw [if_neg (by simpa [Regs.inUser] using hu), hss, ← hesp]

/-- The first half of `__soft_scheduler`, after the way into ring 0. -/
theorem exec_pushFrame (sc : Scratch) (s : Machine) :
    ∃ e, s.interrupted.exec sc
      [.pushlSel .gs, .pushlSel .fs, .pushlSel .ds, .pushlSel .es, .pusha] =
      { s with
        mem := pushWords s.mem (if s.regs.inUser then s.esp0 else s.regs.esp)
          (s.regs.frame e).reverse
        regs := { s.regs with
          esp := (if s.regs.inUser then s.esp0 else s.regs.esp) - 4 * (s.regs.frame e).length
          cs := BitVec.ofNat 16 GDT_SYSTEMCODE
          ss := if s.regs.inUser then BitVec.ofNat 16 GDT_SYSTEMDATA else s.regs.ss
          eflags := withInterrupts false s.regs.eflags } } := by
  cases hu : s.regs.inUser with
  | false =>
    refine ⟨s.regs.esp - 28, ?_⟩
    simp only [Machine.exec, List.foldl_cons, List.foldl_nil, Instr.exec, Machine.pushes,
      Machine.interrupted, Selector.get, hu, Regs.frame, pushWords, List.length_cons,
      List.length_nil, List.nil_append, List.append_nil, List.reverse_cons, List.reverse_nil,
      List.cons_append, Nat.sub_sub, Nat.reduceAdd, Nat.reduceMul, Bool.false_eq_true, if_false]
  | true =>
    refine ⟨s.esp0 - 36, ?_⟩
    simp only [Machine.exec, List.foldl_cons, List.foldl_nil, Instr.exec, Machine.pushes,
      Machine.interrupted, Selector.get, hu, Regs.frame, pushWords, List.length_cons,
      List.length_nil, List.nil_append, List.reverse_cons, List.reverse_nil, List.cons_append,
      Nat.sub_sub, Nat.reduceAdd, Nat.reduceMul, if_true]

/-- The first half of `__switch_thread`, called with the thread's stack as its argument. -/
theorem exec_saveScheduler (sc : Scratch) (s : Machine) (hroom : 36 + sc.depth ≤ s.regs.esp) :
    ∃ m r,
    s.exec sc [.pusha, .pushlEsp, .callSetSwitchStack, .addlEsp 0x28, .poplEsp] =
      { s with mem := m, regs := r, schedulerStack := s.regs.esp - 32 } ∧
    r.esp = s.mem (s.regs.esp + 4) ∧ r.ss = s.regs.ss ∧
    (∃ e, WordsAt m (s.regs.esp - 32) [s.regs.edi, s.regs.esi, s.regs.ebp, e, s.regs.ebx,
      s.regs.edx, s.regs.ecx, s.regs.eax]) ∧
    ∀ a, s.regs.esp ≤ a ∨ a < s.regs.esp - 36 - sc.depth → m a = s.mem a := by
  set ws := [s.regs.eax, s.regs.ecx, s.regs.edx, s.regs.ebx, s.regs.esp, s.regs.ebp, s.regs.esi,
    s.regs.edi] with hws
  have hlen : 4 * ws.length = 32 := rfl
  set m := pushWords s.mem s.regs.esp ws with hm
  set low := fun a => if s.regs.esp - (36 + sc.depth) ≤ a ∧ a < s.regs.esp - 36 then sc.frame a
    else pushWords m (s.regs.esp - 32) [s.regs.esp - 32] a with hlow
  have hframe : ∀ a, s.regs.esp ≤ a ∨ a < s.regs.esp - 36 - sc.depth → low a = s.mem a := by
    intro a ha
    rw [hlow]
    dsimp only
    rw [if_neg (by omega), pushWords_frame (by simp; omega) (by simp; omega), hm,
      pushWords_frame (by omega) (by omega)]
  refine ⟨low, { s.regs with
      esp := low (s.regs.esp + 4)
      ecx := sc.ecx
      edx := sc.edx
      eflags := withInterrupts s.regs.interrupts sc.eflags }, ?_, hframe _ (.inl (by omega)), rfl,
    ⟨s.regs.esp, ?_⟩, hframe⟩
  · simp only [Machine.exec, List.foldl_cons, List.foldl_nil, Instr.exec, Machine.pushes,
      Machine.called, Machine.peek, List.length_cons, List.length_nil, Nat.sub_sub, Nat.reduceAdd,
      Nat.reduceMul, Nat.add_zero, ← hws, hlen, ← hm, ← hlow]
    rw [show s.regs.esp - 36 + 40 = s.regs.esp + 4 by omega, pushWords, pushWords, Nat.sub_sub,
      Function.update_self]
    rfl
  · have hat := wordsAt_pushWords s.mem (show 4 * ws.length ≤ s.regs.esp by omega)
    rw [hlen, ← hm] at hat
    refine WordsAt.congr hat fun a ha hle => ?_
    rw [hlow]
    dsimp only
    rw [if_neg (by omega), pushWords_frame (by simp; omega) (.inl ha)]

/-- The second half of `__soft_scheduler`. -/
theorem exec_loadScheduler (sc : Scratch) {w : ℕ}
    (h : WordsAt s.mem s.schedulerStack
      [r.edi, r.esi, r.ebp, e, r.ebx, r.edx, r.ecx, w, afterSwitch])
    (hfar : s.regs.esp ≤ s.schedulerStack ∨ s.schedulerStack + 36 ≤ s.regs.esp - sc.depth) :
    ∃ m, s.exec sc [.callGetSwitchStack, .storeEsp 0x1C, .loadEsp, .popa, .ret] =
      { s with
        mem := m
        regs := { s.regs with
          eax := s.regs.esp
          ecx := r.ecx
          edx := r.edx
          ebx := r.ebx
          esp := s.schedulerStack + 36
          ebp := r.ebp
          esi := r.esi
          edi := r.edi
          eip := afterSwitch
          eflags := withInterrupts s.regs.interrupts sc.eflags } } ∧
    ∀ a, (a < s.regs.esp - sc.depth ∨ s.regs.esp ≤ a) → a ≠ s.schedulerStack + 0x1C →
      m a = s.mem a := by
  set low := fun a => if s.regs.esp - sc.depth ≤ a ∧ a < s.regs.esp then sc.frame a else s.mem a
    with hlow
  have hkeep : ∀ a, (a < s.regs.esp - sc.depth ∨ s.regs.esp ≤ a) → a ≠ s.schedulerStack + 0x1C →
      Function.update low (s.schedulerStack + 0x1C) s.regs.esp a = s.mem a := by
    intro a ha hne
    rw [Function.update_of_ne hne, hlow]
    dsimp only
    rw [if_neg (by omega)]
  refine ⟨_, ?_, hkeep⟩
  obtain ⟨h0, h1, h2, -, h4, h5, h6, -, h8, -⟩ := h
  simp only [Nat.add_assoc, Nat.reduceAdd] at h1 h2 h4 h5 h6 h8
  simp only [Machine.exec, List.foldl_cons, List.foldl_nil, Instr.exec, Machine.drop, Machine.peek,
    Machine.called, Nat.add_assoc, Nat.reduceAdd, Nat.reduceMul, Nat.mul_zero, Nat.add_zero, ← hlow]
  rw [hkeep s.schedulerStack (by omega) (by omega),
    hkeep (s.schedulerStack + 4) (by omega) (by omega),
    hkeep (s.schedulerStack + 8) (by omega) (by omega),
    hkeep (s.schedulerStack + 16) (by omega) (by omega),
    hkeep (s.schedulerStack + 20) (by omega) (by omega),
    hkeep (s.schedulerStack + 24) (by omega) (by omega),
    hkeep (s.schedulerStack + 32) (by omega) (by omega), Function.update_self, h0, h1, h2, h4, h5,
    h6, h8]

theorem Machine.exec_append (sc : Scratch) (is js : List Instr) (s : Machine) :
    s.exec sc (is ++ js) = (s.exec sc is).exec sc js := List.foldl_append

theorem Regs.length_frame (r : Regs) (e : ℕ) :
    (r.frame e).length = if r.inUser then 17 else 15 := by
  unfold frame
  split_ifs <;> rfl

/-- The words that hold the registers of a scheduler that has called `__switch_thread`. -/
def Regs.callFrame (r : Regs) (e w : ℕ) : List ℕ :=
  [r.edi, r.esi, r.ebp, e, r.ebx, r.edx, r.ecx, w, afterSwitch]

/-- The thread goes on as it was, and the scheduler's registers are on the scheduler's stack. -/
theorem switch_spec (sc : Scratch) {stack : ℕ} (hroom : 44 + sc.depth ≤ s.regs.esp)
    (h : WordsAt s.mem stack (r.frame e))
    (hkernel : r.inUser = false → r.esp = stack + 60 ∧ s.regs.ss = r.ss)
    (hfar : stack + 4 * (r.frame e).length ≤ s.regs.esp - 44 - sc.depth ∨ s.regs.esp ≤ stack) :
    ∃ m, (s.pushes [stack, afterSwitch]).exec sc switchThread =
      { s with mem := m, regs := r, schedulerStack := s.regs.esp - 40 } ∧
    (∃ e w, WordsAt m (s.regs.esp - 40) (s.regs.callFrame e w)) ∧
    ∀ a, s.regs.esp ≤ a ∨ a < s.regs.esp - 44 - sc.depth → m a = s.mem a := by
  set s₁ := s.pushes [stack, afterSwitch] with hs₁
  have hesp : s₁.regs.esp = s.regs.esp - 8 := rfl
  have hargs : WordsAt s₁.mem s₁.regs.esp [afterSwitch, stack] :=
    wordsAt_pushWords _ (by simp; omega)
  have hbelow : ∀ a, s.regs.esp ≤ a ∨ a < s.regs.esp - 8 → s₁.mem a = s.mem a := fun a ha =>
    pushWords_frame (by simp; omega) (by simp; omega)
  obtain ⟨m, r', he, hr', hss, ⟨e', hat⟩, hm⟩ := exec_saveScheduler sc s₁ (by omega)
  have hm' : ∀ a, s.regs.esp ≤ a ∨ a < s.regs.esp - 44 - sc.depth → m a = s.mem a := fun a ha =>
    (hm a (by omega)).trans (hbelow a (by omega))
  have hframe : WordsAt m r'.esp (r.frame e) := by
    rw [hr', show s₁.mem (s₁.regs.esp + 4) = stack from hargs.2.1]
    exact h.congr fun a ha hle => hm' a (by omega)
  have hrest := exec_frame sc
    (s := { s₁ with mem := m, regs := r', schedulerStack := s₁.regs.esp - 32 }) hframe fun hu => by
      obtain ⟨h₁, h₂⟩ := hkernel hu
      exact ⟨by rw [hr', show s₁.mem (s₁.regs.esp + 4) = stack from hargs.2.1]; exact h₁,
        hss.trans h₂⟩
  refine ⟨m, ?_, ⟨e', s₁.regs.eax, ?_⟩, hm'⟩
  · rw [show switchThread = [.pusha, .pushlEsp, .callSetSwitchStack, .addlEsp 0x28, .poplEsp] ++
      [.popa, .poplSel .es, .poplSel .ds, .poplSel .fs, .poplSel .gs, .iret] from rfl,
      Machine.exec_append, he, hrest, hesp, Nat.sub_sub]
    rfl
  · have hret : WordsAt m (s₁.regs.esp - 32 + 32) [afterSwitch] := by
      rw [Nat.sub_add_cancel (by omega)]
      exact ⟨(hm _ (.inl le_rfl)).trans hargs.1, trivial⟩
    have hall := hat.append hret
    rw [hesp, Nat.sub_sub] at hall
    exact hall

/-- A scheduler with the registers `r` called `__switch_thread` for a thread that was interrupted
with the registers `x`, and has the registers `r'` behind the call. -/
structure Resumes (r x r' : Regs) : Prop where
  ecx : r'.ecx = r.ecx
  edx : r'.edx = r.edx
  ebx : r'.ebx = r.ebx
  esp : r'.esp = r.esp
  ebp : r'.ebp = r.ebp
  esi : r'.esi = r.esi
  edi : r'.edi = r.edi
  eip : r'.eip = afterSwitch
  cs : r'.cs = r.cs
  ss : r'.ss = r.ss
  interrupts : r'.interrupts = false
  selectors : r'.ds = x.ds ∧ r'.es = x.es ∧ r'.fs = x.fs ∧ r'.gs = x.gs

/-- The thread's registers are on its stack, and the scheduler goes on behind its call. -/
theorem interrupt_spec (sc : Scratch) {e w entry : ℕ}
    (hentry : entry = if s.regs.inUser then s.esp0 else s.regs.esp)
    (hroom : 68 + sc.depth ≤ entry) (h : WordsAt s.mem s.schedulerStack (r.callFrame e w))
    (hfar : entry ≤ s.schedulerStack ∨ s.schedulerStack + 36 ≤ entry - 68 - sc.depth)
    (hesp : r.esp = s.schedulerStack + 40) (hcs : r.cs = BitVec.ofNat 16 GDT_SYSTEMCODE)
    (hss : r.ss = BitVec.ofNat 16 GDT_SYSTEMDATA)
    (hkernel : s.regs.inUser = false → s.regs.ss = r.ss) :
    ∃ m e' r', (s.interrupted.exec sc softScheduler).drop 1 = { s with mem := m, regs := r' } ∧
    r'.eax = entry - 4 * (s.regs.frame e').length ∧ Resumes r s.regs r' ∧
    WordsAt m (entry - 4 * (s.regs.frame e').length) (s.regs.frame e') ∧
    ∀ a, entry ≤ a ∨ a < entry - 68 - sc.depth → a ≠ s.schedulerStack + 0x1C → m a = s.mem a := by
  obtain ⟨e', he⟩ := exec_pushFrame sc s
  rw [← hentry] at he
  set s₁ := s.interrupted.exec sc
    [.pushlSel .gs, .pushlSel .fs, .pushlSel .ds, .pushlSel .es, .pusha] with hs₁
  have hlen := s.regs.length_frame e'
  have hlen' : (s.regs.frame e').reverse.length = (s.regs.frame e').length := List.length_reverse
  have hle : (s.regs.frame e').length ≤ 17 := by
    rw [hlen]
    split_ifs <;> omega
  have hentry' : s₁.regs.esp = entry - 4 * (s.regs.frame e').length := by rw [he]
  have hmem : s₁.mem = pushWords s.mem entry (s.regs.frame e').reverse := by rw [he]
  have hstack : s₁.schedulerStack = s.schedulerStack := by rw [he]
  have hkeep : ∀ a, entry ≤ a ∨ a < entry - 4 * (s.regs.frame e').length → s₁.mem a = s.mem a :=
    fun a ha => by rw [hmem, pushWords_frame (by omega) (by omega)]
  have hcall : WordsAt s₁.mem s₁.schedulerStack (r.callFrame e w) := by
    rw [hstack]
    refine h.congr fun a ha hle' => hkeep a ?_
    simp only [Regs.callFrame, List.length_cons, List.length_nil] at hle'
    omega
  obtain ⟨m, hload, hm⟩ := exec_loadScheduler sc hcall (by omega)
  have hflag : s₁.regs.interrupts = false := by
    rw [he]
    exact withInterrupts_testBit false _
  have hrun : (s.interrupted.exec sc softScheduler).drop 1 =
      { s with
        mem := m
        regs := { s.regs with
          eax := s₁.regs.esp
          ecx := r.ecx
          edx := r.edx
          ebx := r.ebx
          esp := s.schedulerStack + 40
          ebp := r.ebp
          esi := r.esi
          edi := r.edi
          eip := afterSwitch
          eflags := withInterrupts s₁.regs.interrupts sc.eflags
          cs := BitVec.ofNat 16 GDT_SYSTEMCODE
          ss := if s.regs.inUser then BitVec.ofNat 16 GDT_SYSTEMDATA else s.regs.ss } } := by
    rw [show softScheduler = [.pushlSel .gs, .pushlSel .fs, .pushlSel .ds, .pushlSel .es, .pusha] ++
      [.callGetSwitchStack, .storeEsp 0x1C, .loadEsp, .popa, .ret] from rfl, Machine.exec_append,
      ← hs₁, hload, he]
    rfl
  refine ⟨m, e', _, hrun, hentry', ⟨rfl, rfl, rfl, hesp.symm, rfl, rfl, rfl, rfl, hcs.symm, ?_, ?_,
    ⟨rfl, rfl, rfl, rfl⟩⟩, ?_, fun a ha hne => ?_⟩
  · dsimp only
    split_ifs with hu
    · exact hss.symm
    · exact hkernel (by simpa using hu)
  · rw [hflag]
    exact withInterrupts_testBit false _
  · have hat := wordsAt_pushWords s.mem
      (show 4 * (s.regs.frame e').reverse.length ≤ entry by omega)
    rw [List.reverse_reverse, hlen', ← hmem] at hat
    refine hat.congr fun a ha hle' => hm a (.inr ?_) ?_
    · omega
    · omega
  · exact (hm a (by omega) (by omega)).trans (hkeep a (by omega))

/-- The registers of every thread and of every scheduler, each for itself. -/
structure Private (τ : Type) where
  current : ℕ → Option τ
  thread : τ → Option Regs
  scheduler : ℕ → Regs

/-- The registers with which a new thread starts. A kernel thread stays on its kernel stack: its way
to ring 0 takes no other. -/
def NewThread.regs (n : NewThread) : Regs where
  eax := n.data1
  ecx := n.data3
  edx := n.data4
  ebx := n.data2
  esp := if n.type = 1 then n.stackKernel - 8 else n.stackUser
  ebp := 0
  esi := 0
  edi := 0
  eip := n.entry
  eflags := EFLAG_BASE ||| EFLAG_INTERRUPT
  cs := BitVec.ofNat 16 (if n.type = 1 then GDT_SYSTEMCODE else GDT_USERCODE ||| 3)
  ss := BitVec.ofNat 16 (if n.type = 1 then GDT_SYSTEMDATA else GDT_USERDATA ||| 3)
  ds := BitVec.ofNat 16 (GDT_USERDATA ||| 3)
  es := BitVec.ofNat 16 (GDT_USERDATA ||| 3)
  fs := BitVec.ofNat 16 (GDT_USERDATA ||| 3)
  gs := BitVec.ofNat 16 (GDT_USERDATA ||| 3)

theorem NewThread.flat (n : NewThread) : n.regs.Flat := ⟨rfl, rfl⟩

/-- The stack of a thread that does not run holds its registers. -/
structure Saved (m : ℕ → ℕ) (tr : Thread) (r : Regs) : Prop where
  frame : ∃ e, WordsAt m tr.stack (r.frame e)
  low : tr.base ≤ tr.stack
  high : tr.stack + 4 * (r.frame 0).length ≤ tr.stackKernel
  kernel : r.inUser = false → r.esp = tr.stack + 60 ∧ r.InKernel tr.stackKernel

/-- The stack of a scheduler that does not run holds its registers. -/
structure Pending (m : ℕ → ℕ) (c : Cpu τ) (r : Regs) : Prop where
  frame : ∃ e w, WordsAt m c.schedulerStack (r.callFrame e w)
  low : c.low ≤ c.schedulerStack
  high : c.schedulerStack + 40 ≤ c.high
  esp : r.esp = c.schedulerStack + 40

theorem Saved.congr {tr : Thread} (h : Saved m tr r)
    (hm : ∀ a, tr.base ≤ a → a < tr.stackKernel → m' a = m a) : Saved m' tr r := by
  obtain ⟨e, he⟩ := h.frame
  have hlow := h.low
  have hhigh := h.high
  refine ⟨⟨e, he.congr fun a ha hle => hm a (by omega) ?_⟩, h.low, h.high, h.kernel⟩
  rw [Regs.length_frame] at hle hhigh
  omega

theorem Pending.congr {c c' : Cpu τ} (h : Pending m c r)
    (hc : c'.schedulerStack = c.schedulerStack ∧ c'.low = c.low ∧ c'.high = c.high)
    (hm : ∀ a, c.low ≤ a → a < c.high → m' a = m a) : Pending m' c' r := by
  obtain ⟨e, w, hat⟩ := h.frame
  have hlow := h.low
  have hhigh := h.high
  refine ⟨⟨e, w, ?_⟩, by omega, by omega, by rw [h.esp]; omega⟩
  rw [hc.1]
  refine hat.congr fun a ha hle => hm a (by omega) ?_
  simp only [Regs.callFrame, List.length_cons, List.length_nil] at hle
  omega

/-- The words that `new_thread` pushes are the registers that it asks for. -/
theorem NewThread.saved (n : NewThread) (m : ℕ → ℕ) (hroom : 8192 ≤ n.stackKernel) :
    Saved (pushWords m n.stackKernel n.words)
      ⟨n.stackKernel - 4 * n.words.length, n.stackKernel⟩ n.regs := by
  have hlen : n.words.length = 17 := by
    rw [NewThread.words]
    split_ifs <;> rfl
  have hat := wordsAt_pushWords m (show 4 * n.words.length ≤ n.stackKernel by omega)
  have hbase : (⟨n.stackKernel - 4 * n.words.length, n.stackKernel⟩ : Thread).base =
    n.stackKernel - 8192 := rfl
  by_cases htype : n.type = 1
  · have huser : n.regs.inUser = false := by
      simp [NewThread.regs, Regs.inUser, htype, GDT_SYSTEMCODE]
    have hwords : n.words.reverse = n.regs.frame 0 ++ [n.stackUser, GDT_SYSTEMDATA] := by
      rw [Regs.frame, huser, NewThread.words, if_pos htype]
      simp [NewThread.regs, htype, GDT_USERDATA, GDT_SYSTEMCODE]
    rw [hwords] at hat
    refine ⟨⟨0, hat.of_append⟩, by rw [hbase]; dsimp only; omega, ?_, fun _ => ⟨?_, ?_⟩⟩
    · rw [Regs.length_frame, huser]
      simp only [Bool.false_eq_true, if_false]
      omega
    · simp only [NewThread.regs, htype, if_true]
      omega
    · simp only [NewThread.regs, htype, if_true]
      exact ⟨rfl, rfl, by dsimp only; omega⟩
  · have huser : n.regs.inUser = true := by
      simp [NewThread.regs, Regs.inUser, htype, GDT_USERCODE]
    have hwords : n.words.reverse = n.regs.frame 0 := by
      rw [Regs.frame, huser, NewThread.words, if_neg htype]
      simp [NewThread.regs, htype, GDT_USERDATA, GDT_USERCODE]
    rw [hwords] at hat
    refine ⟨⟨0, hat⟩, by rw [hbase]; dsimp only; omega, ?_, fun h => ?_⟩
    · rw [Regs.length_frame, huser]
      simp only [if_true]
      omega
    · rw [huser] at h
      cases h

variable [DecidableEq τ]

/-- What the events mean for registers alone. -/
def Event.Spec (p : Private τ) (e : Event τ) (p' : Private τ) : Prop :=
  match e with
  | .create t n => p' = { p with thread := Function.update p.thread t (some n.regs) }
  | .delete t => p' = { p with thread := Function.update p.thread t none }
  | .run i regs _ =>
    match p.current i with
    | none => p' = { p with scheduler := Function.update p.scheduler i regs }
    | some t => p' = { p with thread := Function.update p.thread t (some regs) }
  | .switch i t _ => p' = { p with current := Function.update p.current i (some t) }
  | .interrupt i t _ => ∃ x r, p.thread t = some x ∧ Resumes (p.scheduler i) x r ∧
    p' = { p with
      current := Function.update p.current i none
      scheduler := Function.update p.scheduler i r }

structure Represents (k : Kernel τ) (p : Private τ) : Prop where
  current : ∀ i, p.current i = (k.cpu i).current
  once : ∀ i j t, (k.cpu i).current = some t → (k.cpu j).current = some t → i = j
  running : ∀ i t, (k.cpu i).current = some t → ∃ tr, k.thread t = some tr ∧
    p.thread t = some (k.cpu i).regs ∧ (k.cpu i).esp0 = tr.stackKernel ∧
    ((k.cpu i).regs.inUser = false → (k.cpu i).regs.InKernel tr.stackKernel) ∧
    Pending k.mem (k.cpu i) (p.scheduler i)
  idle : ∀ i, (k.cpu i).current = none → p.scheduler i = (k.cpu i).regs
  scheduler : ∀ i, (p.scheduler i).InKernel (k.cpu i).high ∧ (p.scheduler i).interrupts = false
  waiting : ∀ t tr, (∀ i, (k.cpu i).current ≠ some t) → k.thread t = some tr →
    ∃ r, p.thread t = some r ∧ Saved k.mem tr r
  absent : ∀ t, k.thread t = none → p.thread t = none
  apart : ∀ x y p q, x ≠ y → k.stack x = some p → k.stack y = some q → p.2 ≤ q.1 ∨ q.2 ≤ p.1
  room : ∀ t tr, k.thread t = some tr → sK_PAGES_KERNEL * PAGE_SIZE ≤ tr.stackKernel
  flat : (∀ i, (k.cpu i).regs.Flat) ∧ ∀ t r, p.thread t = some r → r.Flat

namespace Represents
variable {k k' : Kernel τ} {p : Private τ}

theorem init (h : switching.Init k) :
    Represents k ⟨fun _ => none, fun _ => none, fun i => (k.cpu i).regs⟩ where
  current i := (h.2.1 i).1.symm
  once i _ _ hi := by rw [(h.2.1 i).1] at hi; cases hi
  running i _ hi := by rw [(h.2.1 i).1] at hi; cases hi
  idle _ _ := rfl
  scheduler i := (h.2.1 i).2
  waiting t _ _ ht := by rw [h.1 t] at ht; cases ht
  absent _ _ := rfl
  apart x y p q hxy hp hq := by
    cases x with
    | thread t => rw [Kernel.stack, h.1 t] at hp; cases hp
    | scheduler i =>
      cases y with
      | thread t => rw [Kernel.stack, h.1 t] at hq; cases hq
      | scheduler j =>
        cases hp
        cases hq
        exact h.2.2.2 i j fun hij => hxy (hij ▸ rfl)
  room t _ ht := by rw [h.1 t] at ht; cases ht
  flat := ⟨h.2.2.1, fun _ _ h => by cases h⟩

omit [DecidableEq τ] in
/-- A step on one CPU: the threads of `T` are the ones that it is about, and no stacks but theirs
and the scheduler's are written. -/
theorem update (hk : Represents k p) (i : ℕ) (mem : ℕ → ℕ) (th : τ → Option Thread) (c : Cpu τ)
    {p' : Private τ} (T : τ → Prop) (hcur : p'.current = Function.update p.current i c.current)
    (hstack : c.low = (k.cpu i).low ∧ c.high = (k.cpu i).high)
    (hsched : ∀ j, j ≠ i → p'.scheduler j = p.scheduler j)
    (hpriv : ∀ u, ¬ T u → p'.thread u = p.thread u) (hth : ∀ u, ¬ T u → th u = k.thread u)
    (htop : ∀ u tr', th u = some tr' →
      ∃ tr, k.thread u = some tr ∧ tr'.stackKernel = tr.stackKernel)
    (hmem : ∀ x q, k.stack x = some q → x ≠ .scheduler i → (∀ u, T u → x ≠ .thread u) →
      ∀ a, q.1 ≤ a → a < q.2 → mem a = k.mem a)
    (hT : ∀ u, T u → ∀ j, j ≠ i → (k.cpu j).current ≠ some u)
    (hold : ∀ u, (k.cpu i).current = some u → T u) (hnew : ∀ u, c.current = some u → T u)
    (hrun : ∀ u, c.current = some u → ∃ tr, th u = some tr ∧ p'.thread u = some c.regs ∧
      c.esp0 = tr.stackKernel ∧ (c.regs.inUser = false → c.regs.InKernel tr.stackKernel) ∧
      Pending mem c (p'.scheduler i))
    (hidle : c.current = none → p'.scheduler i = c.regs)
    (hmode : (p'.scheduler i).InKernel c.high ∧ (p'.scheduler i).interrupts = false)
    (hwait : ∀ u tr, T u → c.current ≠ some u → th u = some tr →
      ∃ r, p'.thread u = some r ∧ Saved mem tr r)
    (habsent : ∀ u, T u → th u = none → p'.thread u = none)
    (hflat : c.regs.Flat ∧ ∀ u r, T u → p'.thread u = some r → r.Flat) :
    Represents ({ k with mem := mem, thread := th }.setCpu i c) p' := by
  have hcpu : ∀ j, j ≠ i → ({ k with mem := mem, thread := th }.setCpu i c).cpu j = k.cpu j :=
    fun j hj => Function.update_of_ne hj _ _
  have hself : ({ k with mem := mem, thread := th }.setCpu i c).cpu i = c := Function.update_self ..
  have hspan : ∀ x q, ({ k with mem := mem, thread := th }.setCpu i c).stack x = some q →
      k.stack x = some q := by
    intro x q hq
    cases x with
    | scheduler j =>
      by_cases hj : j = i
      · subst hj
        simpa only [Kernel.stack, hself, hstack.1, hstack.2] using hq
      · simpa only [Kernel.stack, hcpu j hj] using hq
    | thread u =>
      obtain ⟨tr', htr', rfl⟩ := Option.map_eq_some_iff.mp hq
      obtain ⟨tr, htr, he⟩ := htop u tr' htr'
      rw [Kernel.stack, htr, Option.map_some, Thread.base, Thread.base, he]
  -- what a CPU other than `i` runs is no thread of `T`
  have hfree : ∀ j u, j ≠ i → (k.cpu j).current = some u → ¬ T u :=
    fun j u hj hu ht => hT u ht j hj hu
  constructor
  · intro j
    rw [hcur, Function.update_apply]
    split_ifs with hj
    · rw [hj, hself]
    · rw [hcpu j hj, hk.current j]
  · intro j l u hj hl
    by_cases hji : j = i
    · by_cases hli : l = i
      · rw [hji, hli]
      · rw [hcpu l hli] at hl
        rw [hji, hself] at hj
        exact absurd (hnew u hj) (hfree l u hli hl)
    · rw [hcpu j hji] at hj
      by_cases hli : l = i
      · rw [hli, hself] at hl
        exact absurd (hnew u hl) (hfree j u hji hj)
      · rw [hcpu l hli] at hl
        exact hk.once j l u hj hl
  · intro j u hj
    by_cases hji : j = i
    · subst hji
      rw [hself] at hj ⊢
      exact hrun u hj
    · rw [hcpu j hji] at hj ⊢
      obtain ⟨tr, htr, hp, hesp, hkernel, hpend⟩ := hk.running j u hj
      have hu := hfree j u hji hj
      refine ⟨tr, (hth u hu).trans htr, (hpriv u hu).trans hp, hesp, hkernel, ?_⟩
      rw [hsched j hji]
      refine hpend.congr ⟨rfl, rfl, rfl⟩ (hmem (.scheduler j) _ rfl ?_ fun v _ h => by cases h)
      exact fun h => hji (by cases h; rfl)
  · intro j hj
    by_cases hji : j = i
    · subst hji
      rw [hself] at hj ⊢
      exact hidle hj
    · rw [hcpu j hji] at hj ⊢
      rw [hsched j hji]
      exact hk.idle j hj
  · intro j
    by_cases hji : j = i
    · subst hji
      rw [hself]
      exact hmode
    · rw [hcpu j hji, hsched j hji]
      exact hk.scheduler j
  · intro u tr hu htr
    by_cases ht : T u
    · refine hwait u tr ht ?_ htr
      have hi := hu i
      rwa [hself] at hi
    · have htr' : k.thread u = some tr := (hth u ht).symm.trans htr
      have hcurrent : ∀ j, (k.cpu j).current ≠ some u := fun j hj => by
        by_cases hji : j = i
        · exact ht (hold u (hji ▸ hj))
        · exact hu j (by rw [hcpu j hji]; exact hj)
      obtain ⟨r, hr, hsaved⟩ := hk.waiting u tr hcurrent htr'
      refine ⟨r, (hpriv u ht).trans hr, hsaved.congr (hmem (.thread u) (tr.base, tr.stackKernel) ?_
        (fun h => by cases h) fun v hv h => ?_)⟩
      · rw [Kernel.stack, htr', Option.map_some]
      · cases h
        exact ht hv
  · intro u hu
    by_cases ht : T u
    · exact habsent u ht hu
    · exact (hpriv u ht).trans (hk.absent u ((hth u ht).symm.trans hu))
  · exact fun x y q q' hxy hx hy => hk.apart x y q q' hxy (hspan x q hx) (hspan y q' hy)
  · intro u tr htr
    obtain ⟨tr', htr', he⟩ := htop u tr htr
    rw [he]
    exact hk.room u tr' htr'
  · refine ⟨fun j => ?_, fun u r hr => ?_⟩
    · by_cases hji : j = i
      · rw [hji, hself]
        exact hflat.1
      · rw [hcpu j hji]
        exact hk.flat.1 j
    · by_cases ht : T u
      · exact hflat.2 u r ht hr
      · exact hk.flat.2 u r ((hpriv u ht).symm.trans hr)

theorem of_run (hk : Represents k p) {i : ℕ} {regs : Regs} {mem : ℕ → ℕ}
    (hg : (Event.run i regs mem : Event τ).Guard k) :
    ∃ k' p', (Event.run i regs mem).step k = .ok k' ∧ (Event.run i regs mem).Spec p p' ∧
      Represents k' p' := by
  obtain ⟨hflat, hmem, hregs⟩ := hg
  have hsame : p.current = Function.update p.current i (k.cpu i).current := by
    rw [← hk.current i, Function.update_eq_self]
  cases hcur : (k.cpu i).current with
  | none =>
    rw [hcur] at hregs
    refine ⟨_, { p with scheduler := Function.update p.scheduler i regs }, rfl, ?_,
      hk.update i mem k.thread { k.cpu i with regs := regs } (fun _ => False) ?_ ⟨rfl, rfl⟩
        (fun j hj => Function.update_of_ne hj _ _) (fun _ _ => rfl) (fun _ _ => rfl)
        (fun u tr' h => ⟨tr', h, rfl⟩) ?_ (fun _ h => h.elim) ?_ ?_ ?_ ?_ ?_
        (fun _ _ h => h.elim) (fun _ h => h.elim) ⟨hflat, fun _ _ h => h.elim⟩⟩
    · rw [Event.Spec, hk.current i, hcur]
    · exact hsame
    · exact fun x q hx hxi _ => hmem x q hx (by rw [Cpu.owner, hcur]; exact hxi)
    · exact fun u hu => by rw [hcur] at hu; cases hu
    · exact fun u hu => by rw [hcur] at hu; cases hu
    · exact fun u hu => by rw [hcur] at hu; cases hu
    · exact fun _ => Function.update_self ..
    · dsimp only
      rw [Function.update_self]
      exact hregs
  | some t =>
    rw [hcur] at hregs
    obtain ⟨tr, htr, hp, hesp, -, hpend⟩ := hk.running i t hcur
    refine ⟨_, { p with thread := Function.update p.thread t (some regs) }, rfl, ?_,
      hk.update i mem k.thread { k.cpu i with regs := regs } (fun u => u = t) ?_ ⟨rfl, rfl⟩
        (fun _ _ => rfl)
        (fun u hu => Function.update_of_ne hu _ _) (fun _ _ => rfl)
        (fun u tr' h => ⟨tr', h, rfl⟩) ?_ ?_ ?_ ?_ ?_ ?_ ?_ ?_ ?_ ⟨hflat, ?_⟩⟩
    · rw [Event.Spec, hk.current i, hcur]
    · exact hsame
    · exact fun x q hx _ hxt => hmem x q hx (by rw [Cpu.owner, hcur]; exact hxt t rfl)
    · rintro u rfl j hj hu
      exact hj (hk.once j i u hu hcur)
    · exact fun u hu => Option.some.inj (hu.symm.trans hcur)
    · exact fun u hu => Option.some.inj (hu.symm.trans hcur)
    · intro u hu
      obtain rfl : u = t := Option.some.inj (hu.symm.trans hcur)
      refine ⟨tr, htr, Function.update_self .., hesp, fun h => hesp ▸ hregs h, ?_⟩
      refine hpend.congr ⟨rfl, rfl, rfl⟩ (hmem (.scheduler i) _ rfl ?_)
      rw [Cpu.owner, hcur]
      exact fun h => by cases h
    · intro h
      have hnone := hcur.symm.trans h
      cases hnone
    · exact hk.scheduler i
    · rintro u tr' rfl hne -
      exact absurd hcur hne
    · rintro u rfl hnone
      rw [htr] at hnone
      cases hnone
    · rintro u r rfl hr
      dsimp only at hr
      rw [Function.update_self] at hr
      exact Option.some.inj hr ▸ hflat

theorem of_switch (hk : Represents k p) {i : ℕ} {t : τ} {sc : Scratch}
    (hg : (Event.switch i t sc).Guard k) :
    ∃ k' p', (Event.switch i t sc).step k = .ok k' ∧ (Event.switch i t sc).Spec p p' ∧
      Represents k' p' := by
  obtain ⟨hidle, hthread, hfree, hroom⟩ := hg
  obtain ⟨tr, htr⟩ := Option.ne_none_iff_exists'.mp hthread
  obtain ⟨r, hr, hsaved⟩ := hk.waiting t tr hfree htr
  obtain ⟨e, hat⟩ := hsaved.frame
  have hmode := hk.scheduler i
  rw [hk.idle i hidle] at hmode
  have hlow := hsaved.low
  have hhigh := hsaved.high
  have hsp := hmode.1.esp
  have hfar := hk.apart (.scheduler i) (.thread t) _ _ (by simp) rfl
    (by rw [Kernel.stack, htr, Option.map_some])
  dsimp only at hfar
  rw [Regs.length_frame] at hhigh
  obtain ⟨m, he, ⟨e', w, hcall⟩, hm⟩ := switch_spec sc
    (s := { k.machine i with esp0 := tr.stackKernel }) (r := r) (e := e)
    (by change _ ≤ (k.cpu i).regs.esp; omega) hat
    (fun hu => ⟨(hsaved.kernel hu).1, hmode.1.ss.trans (hsaved.kernel hu).2.ss.symm⟩)
    (by
      change _ ≤ (k.cpu i).regs.esp - 44 - sc.depth ∨ (k.cpu i).regs.esp ≤ _
      rw [Regs.length_frame]
      omega)
  have hesp : ({ k.machine i with esp0 := tr.stackKernel } : Machine).regs.esp =
    (k.cpu i).regs.esp := rfl
  rw [hesp] at hcall hm he
  refine ⟨_, { p with current := Function.update p.current i (some t) }, ?_, rfl,
    hk.update i m k.thread { k.cpu i with
        regs := r
        schedulerStack := (k.cpu i).regs.esp - 40
        esp0 := tr.stackKernel
        current := some t } (fun u => u = t) rfl ⟨rfl, rfl⟩ (fun _ _ => rfl) (fun _ _ => rfl)
      (fun _ _ => rfl)
      (fun u tr' h => ⟨tr', h, rfl⟩) ?_ ?_ ?_ ?_ ?_ ?_ ?_ ?_ ?_
      ⟨hk.flat.2 t r hr, fun u r _ hr => hk.flat.2 u r hr⟩⟩
  · change execThread k i t sc = _
    rw [execThread, htr, deref_some, ok_bind, enterC, if_pos (hk.flat.1 i), ok_bind]
    dsimp only
    rw [he]
  · intro x q hx hxi _ a ha hlt
    have hne := hk.apart (.scheduler i) x _ q (Ne.symm hxi) rfl hx
    dsimp only at hne
    exact hm a (by omega)
  · rintro u rfl j -
    exact hfree j
  · intro u hu
    rw [hidle] at hu
    cases hu
  · exact fun u hu => (Option.some.inj hu).symm
  · intro u hu
    obtain rfl := Option.some.inj hu
    refine ⟨tr, htr, hr, rfl, fun hu => (hsaved.kernel hu).2, ⟨e', w, ?_⟩, ?_, ?_, ?_⟩
    · rw [hk.idle i hidle]
      exact hcall
    · change (k.cpu i).low ≤ (k.cpu i).regs.esp - 40
      omega
    · change (k.cpu i).regs.esp - 40 + 40 ≤ (k.cpu i).high
      omega
    · rw [hk.idle i hidle]
      change _ = (k.cpu i).regs.esp - 40 + 40
      omega
  · exact fun h => by cases h
  · exact hk.scheduler i
  · rintro u tr' rfl hne -
    exact absurd rfl hne
  · rintro u rfl hnone
    rw [htr] at hnone
    cases hnone

theorem of_interrupt (hk : Represents k p) {i : ℕ} {t : τ} {sc : Scratch}
    (hg : (Event.interrupt i t sc).Guard k) :
    ∃ k' p', (Event.interrupt i t sc).step k = .ok k' ∧ (Event.interrupt i t sc).Spec p p' ∧
      Represents k' p' := by
  obtain ⟨hcur, hroom⟩ := hg
  obtain ⟨tr, htr, hp, hesp, hkernel, hpend⟩ := hk.running i t hcur
  obtain ⟨e, w, hcall⟩ := hpend.frame
  have hlow := hpend.low
  have hhigh := hpend.high
  have hsp := hpend.esp
  replace hroom := hroom tr htr
  obtain ⟨hmode, hflag⟩ := hk.scheduler i
  have hbase := hk.room t tr htr
  have htop : (k.cpu i).entry ≤ tr.stackKernel := by
    rw [Cpu.entry]
    split_ifs with hu
    · exact hesp.le
    · exact (hkernel (by simpa using hu)).esp
  have hfar := hk.apart (.scheduler i) (.thread t) _ _ (by simp) rfl
    (by rw [Kernel.stack, htr, Option.map_some])
  dsimp only at hfar
  obtain ⟨m, e', r', he, heax, hres, hat, hm⟩ := interrupt_spec sc (s := k.machine i)
    (r := p.scheduler i) (e := e) (w := w) (show (k.cpu i).entry = _ from rfl) (by omega) hcall
    (by change _ ≤ (k.cpu i).schedulerStack ∨ (k.cpu i).schedulerStack + 36 ≤ _; omega) hsp hmode.cs
    hmode.ss (fun hu => (hkernel hu).ss.trans hmode.ss.symm)
  have hlen := (k.cpu i).regs.length_frame e'
  have hlen₀ := (k.cpu i).regs.length_frame 0
  have hle : ((k.cpu i).regs.frame e').length ≤ 17 := by
    rw [hlen]
    split_ifs <;> omega
  refine ⟨_, { p with
      current := Function.update p.current i none
      scheduler := Function.update p.scheduler i r' }, ?_, ⟨(k.cpu i).regs, r', hp, hres, rfl⟩,
    hk.update i m (Function.update k.thread t (some { tr with stack := r'.eax }))
      { k.cpu i with regs := r', current := none } (fun u => u = t) rfl ⟨rfl, rfl⟩
      (fun j hj => Function.update_of_ne hj _ _) (fun _ _ => rfl)
      (fun u hu => Function.update_of_ne hu _ _) ?_ ?_ ?_ ?_ ?_ ?_ ?_ ?_ ?_ ?_
      ⟨?_, fun u r _ hr => hk.flat.2 u r hr⟩⟩
  · change resumeScheduler k i t sc = _
    rw [resumeScheduler, htr, deref_some, ok_bind, enterC, if_pos (hk.flat.1 i), ok_bind]
    dsimp only
    rw [he, assert_of hres.interrupts, ok_bind]
  · intro u tr' hu
    by_cases hut : u = t
    · subst hut
      rw [Function.update_self] at hu
      cases hu
      exact ⟨tr, htr, rfl⟩
    · rw [Function.update_of_ne hut] at hu
      exact ⟨tr', hu, rfl⟩
  · intro x q hx hxi hxt a ha hlt
    have hne := hk.apart (.thread t) x _ q (Ne.symm (hxt t rfl))
      (by rw [Kernel.stack, htr, Option.map_some]) hx
    have hne' := hk.apart (.scheduler i) x _ q (Ne.symm hxi) rfl hx
    dsimp only at hne hne'
    refine hm a (by omega) ?_
    change a ≠ (k.cpu i).schedulerStack + 28
    omega
  · rintro u rfl j hj hu
    exact hj (hk.once j i u hu hcur)
  · exact fun u hu => Option.some.inj (hu.symm.trans hcur)
  · exact fun u hu => by cases hu
  · exact fun u hu => by cases hu
  · exact fun _ => Function.update_self ..
  · dsimp only
    rw [Function.update_self]
    refine ⟨⟨hres.cs.trans hmode.cs, hres.ss.trans hmode.ss, ?_⟩, hres.interrupts⟩
    rw [hres.esp]
    exact hmode.esp
  · rintro u tr' rfl - hu
    rw [Function.update_self] at hu
    cases hu
    refine ⟨(k.cpu i).regs, hp, ⟨⟨e', ?_⟩, ?_, ?_, fun hu => ?_⟩⟩
    · change WordsAt m r'.eax _
      rw [heax]
      exact hat
    · change tr.base ≤ r'.eax
      rw [heax]
      change _ ≤ (k.cpu i).entry - 4 * ((k.cpu i).regs.frame e').length
      omega
    · change r'.eax + _ ≤ tr.stackKernel
      rw [heax]
      change (k.cpu i).entry - 4 * ((k.cpu i).regs.frame e').length + _ ≤ _
      rw [hlen₀, ← hlen]
      omega
    · refine ⟨?_, hkernel hu⟩
      change (k.cpu i).regs.esp = r'.eax + 60
      rw [heax]
      change _ = (k.cpu i).entry - 4 * ((k.cpu i).regs.frame e').length + 60
      rw [hu] at hlen
      have hentry : (k.cpu i).entry = (k.cpu i).regs.esp := by
        rw [Cpu.entry, hu]
        rfl
      rw [hlen, hentry]
      rw [hentry] at hroom
      simp only [Bool.false_eq_true, if_false]
      omega
  · rintro u rfl hnone
    rw [Function.update_self] at hnone
    cases hnone
  · obtain ⟨hds, hes, -⟩ := hres.selectors
    have hflat := hk.flat.1 i
    exact ⟨hds ▸ hflat.1, hes ▸ hflat.2⟩

theorem of_create (hk : Represents k p) {t : τ} {n : NewThread}
    (hg : (Event.create t n).Guard k) :
    ∃ k' p', (Event.create t n).step k = .ok k' ∧ (Event.create t n).Spec p p' ∧
      Represents k' p' := by
  obtain ⟨hnone, hroom, hapart⟩ := hg
  have hlen : n.words.length = 17 := by
    rw [NewThread.words]
    split_ifs <;> rfl
  have hroom' : 8192 ≤ n.stackKernel := hroom
  have hmem : ∀ x q, k.stack x = some q → ∀ a, q.1 ≤ a → a < q.2 →
      pushWords k.mem n.stackKernel n.words a = k.mem a := by
    intro x q hx a ha hlt
    have hfar := hapart x q hx
    rw [show sK_PAGES_KERNEL * PAGE_SIZE = 8192 from rfl] at hfar
    exact pushWords_frame (by omega) (by omega)
  have hother : ∀ u, u ≠ t → Function.update k.thread t
      (some ⟨n.stackKernel - 4 * n.words.length, n.stackKernel⟩) u = k.thread u :=
    fun u hu => Function.update_of_ne hu _ _
  have hstack : ∀ x q, Kernel.stack { k with
      mem := pushWords k.mem n.stackKernel n.words
      thread := Function.update k.thread t
        (some ⟨n.stackKernel - 4 * n.words.length, n.stackKernel⟩) } x = some q →
      x = .thread t ∧ q = (n.stackKernel - 8192, n.stackKernel) ∨
        x ≠ .thread t ∧ k.stack x = some q := by
    rintro (j | u) q hq
    · exact .inr ⟨by simp, hq⟩
    · rw [Kernel.stack] at hq
      dsimp only at hq
      by_cases hut : u = t
      · subst hut
        rw [Function.update_self, Option.map_some] at hq
        exact .inl ⟨rfl, (Option.some.inj hq).symm⟩
      · rw [hother u hut] at hq
        exact .inr ⟨fun h => hut (by cases h; rfl), hq⟩
  refine ⟨_, { p with thread := Function.update p.thread t (some n.regs) }, rfl, rfl, hk.current,
    hk.once, fun i u hu => ?_, hk.idle, hk.scheduler, fun u tr hu htr => ?_, fun u hu => ?_, ?_, ?_,
    ⟨hk.flat.1, fun u r hr => ?_⟩⟩
  · obtain ⟨tr, htr, hp, hesp, hkernel, hpend⟩ := hk.running i u hu
    have hut : u ≠ t := fun h => by rw [h, hnone] at htr; cases htr
    refine ⟨tr, (hother u hut).trans htr, (Function.update_of_ne hut _ _).trans hp, hesp, hkernel,
      hpend.congr ⟨rfl, rfl, rfl⟩ (hmem (.scheduler i) _ rfl)⟩
  · dsimp only at htr ⊢
    by_cases hut : u = t
    · subst hut
      rw [Function.update_self] at htr ⊢
      cases htr
      exact ⟨n.regs, rfl, n.saved k.mem hroom'⟩
    · rw [hother u hut] at htr
      rw [Function.update_of_ne hut]
      obtain ⟨r, hr, hsaved⟩ := hk.waiting u tr hu htr
      refine ⟨r, hr, hsaved.congr (hmem (.thread u) (tr.base, tr.stackKernel) ?_)⟩
      rw [Kernel.stack, htr, Option.map_some]
  · dsimp only at hu ⊢
    by_cases hut : u = t
    · subst hut
      rw [Function.update_self] at hu
      cases hu
    · rw [hother u hut] at hu
      exact (Function.update_of_ne hut _ _).trans (hk.absent u hu)
  · intro x y q q' hxy hx hy
    obtain ⟨rfl, rfl⟩ | ⟨hxt, hx'⟩ := hstack x q hx
    · obtain ⟨rfl, rfl⟩ | ⟨-, hy'⟩ := hstack y q' hy
      · exact absurd rfl hxy
      · exact hapart y q' hy'
    · obtain ⟨rfl, rfl⟩ | ⟨-, hy'⟩ := hstack y q' hy
      · exact (hapart x q hx').symm
      · exact hk.apart x y q q' hxy hx' hy'
  · intro u tr htr
    dsimp only at htr
    by_cases hut : u = t
    · subst hut
      rw [Function.update_self] at htr
      cases htr
      exact hroom
    · rw [hother u hut] at htr
      exact hk.room u tr htr
  · dsimp only at hr
    by_cases hut : u = t
    · rw [hut, Function.update_self] at hr
      exact Option.some.inj hr ▸ n.flat
    · rw [Function.update_of_ne hut] at hr
      exact hk.flat.2 u r hr

theorem of_delete (hk : Represents k p) {t : τ} (hg : (Event.delete t).Guard k) :
    ∃ k' p', (Event.delete t).step k = .ok k' ∧ (Event.delete t).Spec p p' ∧ Represents k' p' := by
  have hthread : ∀ u tr, Function.update k.thread t none u = some tr →
      u ≠ t ∧ k.thread u = some tr := by
    intro u tr hu
    rw [Function.update_apply] at hu
    split_ifs at hu with hut
    exact ⟨hut, hu⟩
  have hstack : ∀ x q,
      Kernel.stack { k with thread := Function.update k.thread t none } x = some q →
        k.stack x = some q := by
    rintro (j | u) q hq
    · exact hq
    · obtain ⟨tr, htr, rfl⟩ := Option.map_eq_some_iff.mp hq
      rw [Kernel.stack, (hthread u tr htr).2, Option.map_some]
  refine ⟨_, { p with thread := Function.update p.thread t none }, rfl, rfl, hk.current, hk.once,
    fun i u hu => ?_, hk.idle, hk.scheduler, fun u tr hu htr => ?_, fun u hu => ?_,
    fun x y q q' hxy hx hy => hk.apart x y q q' hxy (hstack x q hx) (hstack y q' hy),
    fun u tr htr => hk.room u tr (hthread u tr htr).2, ⟨hk.flat.1, fun u r hr => ?_⟩⟩
  · obtain ⟨tr, htr, hp, hrest⟩ := hk.running i u hu
    have hut : u ≠ t := fun h => hg i (h ▸ hu)
    exact ⟨tr, (Function.update_of_ne hut _ _).trans htr, (Function.update_of_ne hut _ _).trans hp,
      hrest⟩
  · obtain ⟨hut, htr'⟩ := hthread u tr htr
    obtain ⟨r, hr, hsaved⟩ := hk.waiting u tr hu htr'
    exact ⟨r, (Function.update_of_ne hut _ _).trans hr, hsaved⟩
  · dsimp only at hu ⊢
    by_cases hut : u = t
    · subst hut
      exact Function.update_self ..
    · rw [Function.update_of_ne hut] at hu ⊢
      exact hk.absent u hu
  · dsimp only at hr
    rw [Function.update_apply] at hr
    split_ifs at hr
    exact hk.flat.2 u r hr

/-- Whatever the kernel does with stacks, it does to the private registers what the event means. -/
theorem step (hk : Represents k p) {e : Event τ} (hg : e.Guard k) :
    ∃ k' p', e.step k = .ok k' ∧ e.Spec p p' ∧ Represents k' p' := by
  cases e with
  | create t n => exact hk.of_create hg
  | delete t => exact hk.of_delete hg
  | run i regs mem => exact hk.of_run hg
  | switch i t sc => exact hk.of_switch hg
  | interrupt i t sc => exact hk.of_interrupt hg

end Represents

/-- In every run each thread and each scheduler has registers of its own, that only its own code
changes; and no step faults. -/
theorem switching_keeps_registers {k₀ k : Kernel τ} {es : List (Event τ)} (h₀ : switching.Init k₀)
    (h : switching.Steps k₀ es k) : ∃ p,
    System.Performs Event.Spec ⟨fun _ => none, fun _ => none, fun i => (k₀.cpu i).regs⟩ es p ∧
    Represents k p ∧ ∀ e : Event τ, e.Guard k → ∃ k', e.step k = .ok k' := by
  obtain ⟨p, hp, hk⟩ := h.simulates (fun _ _ _ hk hg => hk.step hg) (Represents.init h₀)
  refine ⟨p, hp, hk, fun e hg => ?_⟩
  obtain ⟨k', -, hstep, -⟩ := hk.step hg
  exact ⟨k', hstep⟩

/-- The CPUs in their schedulers; each has 8 KiB of stack above 16 MiB. -/
def inSchedulers : Kernel ℕ where
  mem _ := 0
  cpu i :=
    { regs := ⟨1, 2, 3, 4, 0x1002000 + 0x2000 * i, 6, 7, 8, 9, EFLAG_BASE,
        BitVec.ofNat 16 GDT_SYSTEMCODE, BitVec.ofNat 16 GDT_SYSTEMDATA,
        BitVec.ofNat 16 GDT_SYSTEMDATA, BitVec.ofNat 16 GDT_SYSTEMDATA, 0, 0⟩
      schedulerStack := 0
      esp0 := 0
      current := none
      low := 0x1000000 + 0x2000 * i
      high := 0x1002000 + 0x2000 * i }
  thread _ := none

def firstThread : NewThread := ⟨0, 0x10000, 0x80000000, 0x8048000, 11, 12, 13, 14⟩

def scratch : Scratch := ⟨21, 22, 23, fun _ => 24, 64⟩

theorem switching_keeps_registers_firstThread : ∃ k p,
    switching.Steps inSchedulers
      [.create 0 firstThread, .switch 0 0 scratch, .interrupt 0 0 scratch] k ∧
    System.Performs Event.Spec ⟨fun _ => none, fun _ => none, fun i => (inSchedulers.cpu i).regs⟩
      [.create 0 firstThread, .switch 0 0 scratch, .interrupt 0 0 scratch] p ∧
    Represents k p ∧ (k.cpu 0).regs.edi = 8 ∧ (k.cpu 0).regs.eip = afterSwitch := by
  have h₀ : switching.Init inSchedulers :=
    ⟨fun _ => rfl, fun _ => ⟨rfl, ⟨rfl, rfl, le_rfl⟩, show EFLAG_BASE.testBit 9 = false by decide⟩,
      fun _ => ⟨rfl, rfl⟩, fun i j hij => by
      simp only [inSchedulers]
      omega⟩
  have hcreate : (Event.create 0 firstThread).Guard inSchedulers := by
    refine ⟨rfl, by decide, ?_⟩
    rintro (i | t) q hq
    · cases hq
      refine .inl ?_
      simp only [inSchedulers, firstThread]
      omega
    · cases hq
  have hrun : switching.Steps inSchedulers
      [.create 0 firstThread, .switch 0 0 scratch, .interrupt 0 0 scratch] _ :=
    .cons hcreate rfl <|
      .cons ⟨rfl, fun h => (by cases h), fun j h => (by cases h), by decide⟩ rfl <|
      .cons ⟨rfl, fun tr htr => by cases htr; decide⟩ rfl <| .nil _
  obtain ⟨p, hp, hk, -⟩ := switching_keeps_registers h₀ hrun
  exact ⟨_, p, hrun, hp, hk, rfl, rfl⟩

end Racoon.Switching
