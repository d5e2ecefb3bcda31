import Racoon.Machine
import Racoon.Lib.Run

/-!
# The registers of the FPU

The registers are not switched with the thread. `exec_thread` sets a trap instead;
the first FPU instruction of the turn ends in `device_not_available`, which gives
the thread its registers, and they are saved after the turn if that happened. A
thread's instructions so act on registers of its own, on whatever CPUs its turns
are. The first of them finds what `finit` makes of the registers that were left on
the CPU: that instruction resets the control registers and keeps the others.
-/

namespace Racoon.Fpu
open Lib

def FPU_MP : BitVec 32 := 1 <<< 1
def FPU_EM : BitVec 32 := 1 <<< 2
def FPU_TS : BitVec 32 := 1 <<< 3
def FPU_NE : BitVec 32 := 1 <<< 5
def FPU_CLEAN : BitVec 32 := 0xFFFFFFFF - FPU_MP - FPU_EM - FPU_TS - FPU_NE

/-- A CPU, with the registers of its FPU as one value. -/
structure Cpu (R : Type) where
  cr0 : BitVec 32
  regs : R

/-- The fields of `struct thread` for the FPU. -/
structure Thread (R : Type) where
  mathState : ℤ
  math : R

variable {R τ : Type} {finit : R → R} {c c' : Cpu R} {t t' : Thread R}

/-- With either bit set an FPU instruction raises exception 7. -/
def Cpu.Traps (c : Cpu R) : Prop := c.cr0.getLsbD 2 = true ∨ c.cr0.getLsbD 3 = true

instance (c : Cpu R) : Decidable c.Traps := inferInstanceAs (Decidable (_ ∨ _))

def setFpuTrap (c : Cpu R) : Cpu R := { c with cr0 := c.cr0 &&& FPU_CLEAN ||| (FPU_TS ||| FPU_MP) }

/-- `clts` -/
def releaseFpuTrap (c : Cpu R) : Cpu R := { c with cr0 := c.cr0 &&& ~~~FPU_TS }

/-- An FPU instruction of the kernel. In the handler of the exception it must not raise it again. -/
def untrapped {α : Type} (c : Cpu R) (x : α) : Outcome α :=
  if c.Traps then .error .diverges else .ok x

def cleanFpu (finit : R → R) (c : Cpu R) (t : Thread R) : Outcome (Cpu R × Thread R) :=
  let c := releaseFpuTrap c
  untrapped c ({ c with regs := finit c.regs }, { t with mathState := 1 })

def saveFpu (c : Cpu R) (t : Thread R) : Outcome (Cpu R × Thread R) := do
  let c := releaseFpuTrap c
  let math ← untrapped c c.regs
  .ok (setFpuTrap c, { t with math := math, mathState := 0 })

def restoreFpu (c : Cpu R) (t : Thread R) : Outcome (Cpu R × Thread R) :=
  let c := releaseFpuTrap c
  untrapped c ({ c with regs := t.math }, { t with mathState := 1 })

def deviceNotAvailable (finit : R → R) (c : Cpu R) (t : Thread R) : Outcome (Cpu R × Thread R) :=
  if t.mathState = -1 then cleanFpu finit c t
  else if t.mathState = 0 then restoreFpu c t
  else if t.mathState = 1 then
    .ok (if c.cr0 &&& FPU_TS = FPU_TS then releaseFpuTrap c else c, t)
  else .ok (c, t)

/-- An instruction of the running thread is started again after the exception. -/
def instruction (finit : R → R) (f : R → R) (c : Cpu R) (t : Thread R) :
    Outcome (Cpu R × Thread R) :=
  if c.Traps then do
    let (c, t) ← deviceNotAvailable finit c t
    untrapped c ({ c with regs := f c.regs }, t)
  else .ok ({ c with regs := f c.regs }, t)

/-- What `exec_thread` does after the turn. -/
def afterTurn (c : Cpu R) (t : Thread R) : Outcome (Cpu R × Thread R) :=
  if t.mathState > 0 then saveFpu c t else .ok (c, t)

structure Kernel (τ R : Type) where
  cpu : ℕ → Cpu R
  current : ℕ → Option τ
  thread : τ → Thread R

inductive Event (τ R : Type)
  | exec (cpu : ℕ) (t : τ)
  | instruction (cpu : ℕ) (t : τ) (f : R → R)
  | leave (cpu : ℕ) (t : τ)

variable [DecidableEq τ]

def Kernel.set (k : Kernel τ R) (cpu : ℕ) (current : Option τ) (t : τ) (r : Cpu R × Thread R) :
    Kernel τ R where
  cpu := Function.update k.cpu cpu r.1
  current := Function.update k.current cpu current
  thread := Function.update k.thread t r.2

def Event.step (finit : R → R) (k : Kernel τ R) : Event τ R → Outcome (Kernel τ R)
  | .exec cpu t => .ok (k.set cpu (some t) t (setFpuTrap (k.cpu cpu), k.thread t))
  | .instruction cpu t f => do
    let r ← Fpu.instruction finit f (k.cpu cpu) (k.thread t)
    .ok (k.set cpu (some t) t r)
  | .leave cpu t => do
    let r ← afterTurn (k.cpu cpu) (k.thread t)
    .ok (k.set cpu none t r)

/-- The scheduler runs a thread on one CPU at a time. -/
def Event.Guard (k : Kernel τ R) : Event τ R → Prop
  | .exec cpu t => k.current cpu = none ∧ ∀ i, k.current i ≠ some t
  | .instruction cpu t _ => k.current cpu = some t
  | .leave cpu t => k.current cpu = some t

def fpuSystem (finit : R → R) : System (Kernel τ R) (Event τ R) Fault where
  Init k := (∀ i, k.current i = none) ∧ ∀ t, (k.thread t).mathState = -1
  Guard k e := e.Guard k
  step k e := e.step finit k

def Event.by (t : τ) : Event τ R → Option (R → R)
  | .instruction _ u f => if u = t then some f else none
  | _ => none

/-- The instructions of a thread in a run. -/
def instructions (t : τ) (es : List (Event τ R)) : List (R → R) := es.filterMap (Event.by t)

/-- The registers of a thread: in its save area, or on the CPU where it runs. -/
def Owns (k : Kernel τ R) (t : τ) (r : R) : Prop :=
  (k.thread t).mathState = 0 ∧ (k.thread t).math = r ∨
    (k.thread t).mathState = 1 ∧ ∃ i, k.current i = some t ∧ (k.cpu i).regs = r

/-- The state of a CPU and of the thread that runs there: the trap is set until the thread has its
registers. -/
structure Settled (c : Cpu R) (t : Thread R) : Prop where
  emulation : c.cr0.getLsbD 2 = false
  trap : c.Traps ↔ t.mathState ≠ 1
  state : t.mathState = -1 ∨ t.mathState = 0 ∨ t.mathState = 1

theorem getLsbD_setFpuTrap (c : Cpu R) :
    (setFpuTrap c).cr0.getLsbD 2 = false ∧ (setFpuTrap c).cr0.getLsbD 3 = true := by
  have hclean : FPU_CLEAN.getLsbD 2 = false := by decide
  have hset : (FPU_TS ||| FPU_MP).getLsbD 2 = false ∧ (FPU_TS ||| FPU_MP).getLsbD 3 = true := by
    decide
  simp only [setFpuTrap, BitVec.getLsbD_or, BitVec.getLsbD_and, hclean, hset]
  simp

theorem getLsbD_releaseFpuTrap (c : Cpu R) : (releaseFpuTrap c).cr0.getLsbD 2 = c.cr0.getLsbD 2 ∧
    (releaseFpuTrap c).cr0.getLsbD 3 = false := by
  have hmask : (~~~FPU_TS).getLsbD 2 = true ∧ (~~~FPU_TS).getLsbD 3 = false := by decide
  simp only [releaseFpuTrap, BitVec.getLsbD_and, hmask, Bool.and_true, Bool.and_false, and_self]

theorem not_traps_release (h : c.cr0.getLsbD 2 = false) : ¬ (releaseFpuTrap c).Traps := by
  obtain ⟨hem, hts⟩ := getLsbD_releaseFpuTrap c
  rw [Cpu.Traps, hem, hts, h]
  decide

theorem traps_set (c : Cpu R) : (setFpuTrap c).Traps := .inr (getLsbD_setFpuTrap c).2

/-- The registers on which the next instruction of the running thread acts. -/
def nextRegs (finit : R → R) (c : Cpu R) (t : Thread R) : R :=
  if t.mathState = -1 then finit c.regs else if t.mathState = 0 then t.math else c.regs

theorem Settled.instruction (h : Settled c t) (finit f : R → R) : ∃ c' t',
    Fpu.instruction finit f c t = .ok (c', t') ∧ Settled c' t' ∧ t'.mathState = 1 ∧
      c'.regs = f (nextRegs finit c t) := by
  have hfree := not_traps_release h.emulation
  have hem := (getLsbD_releaseFpuTrap c).1.trans h.emulation
  have hsettled : ∀ r : R, ∀ t' : Thread R, t'.mathState = 1 →
      Settled { releaseFpuTrap c with regs := r } t' := fun r t' hone =>
    ⟨hem, iff_of_false hfree (not_not.mpr hone), .inr (.inr hone)⟩
  rcases h.state with hneg | hzero | hone
  · have htrap : c.Traps := h.trap.mpr (by omega)
    refine ⟨_, { t with mathState := 1 }, ?_, hsettled (f (finit c.regs)) _ rfl, rfl, ?_⟩
    · rw [Fpu.instruction, if_pos htrap, deviceNotAvailable, if_pos hneg, cleanFpu]
      simp only [untrapped, if_neg hfree, ok_bind]
      exact if_neg hfree
    · rw [nextRegs, if_pos hneg]
  · have htrap : c.Traps := h.trap.mpr (by omega)
    refine ⟨_, { t with mathState := 1 }, ?_, hsettled (f t.math) _ rfl, rfl, ?_⟩
    · rw [Fpu.instruction, if_pos htrap, deviceNotAvailable, if_neg (by omega), if_pos hzero,
        restoreFpu]
      simp only [untrapped, if_neg hfree, ok_bind]
      exact if_neg hfree
    · rw [nextRegs, if_neg (by omega), if_pos hzero]
  · have htrap : ¬ c.Traps := fun ht => h.trap.mp ht hone
    refine ⟨{ c with regs := f c.regs }, t, ?_,
      ⟨h.emulation, iff_of_false htrap (not_not.mpr hone), .inr (.inr hone)⟩, hone, ?_⟩
    · rw [Fpu.instruction, if_neg htrap]
    · rw [nextRegs, if_neg (by omega), if_neg (by omega)]

/-- The registers are saved if the thread had them. -/
theorem Settled.afterTurn (h : Settled c t) : ∃ c' t', Fpu.afterTurn c t = .ok (c', t') ∧
    (t.mathState = 1 → t'.mathState = 0 ∧ t'.math = c.regs) ∧ (t.mathState ≠ 1 → t' = t) := by
  have hfree := not_traps_release h.emulation
  by_cases hone : t.mathState = 1
  · refine ⟨setFpuTrap (releaseFpuTrap c), { t with math := c.regs, mathState := 0 }, ?_,
      fun _ => ⟨rfl, rfl⟩, fun hne => absurd hone hne⟩
    rw [Fpu.afterTurn, if_pos (by omega), saveFpu]
    simp only [untrapped, if_neg hfree]
    rfl
  · refine ⟨c, t, ?_, fun h1 => absurd h1 hone, fun _ => rfl⟩
    rw [Fpu.afterTurn, if_neg]
    rcases h.state with hs | hs | hs <;> omega

/-- A thread runs on one CPU at most, and outside of its turns its registers are saved. -/
structure Sound (k : Kernel τ R) : Prop where
  once : ∀ i j t, k.current i = some t → k.current j = some t → i = j
  settled : ∀ i t, k.current i = some t → Settled (k.cpu i) (k.thread t)
  running : ∀ t, (k.thread t).mathState = 1 → ∃ i, k.current i = some t
  state : ∀ t, (k.thread t).mathState = -1 ∨ (k.thread t).mathState = 0 ∨
    (k.thread t).mathState = 1

section Step
variable {k : Kernel τ R} {i : ℕ} {u : τ} {next : Option τ}

/-- What a step may do to a CPU and to the thread that runs there or is to run there. -/
structure Allowed (k : Kernel τ R) (i : ℕ) (next : Option τ) (u : τ) (r : Cpu R × Thread R) :
    Prop where
  before : k.current i = none ∨ k.current i = some u
  elsewhere : ∀ j, j ≠ i → k.current j ≠ some u
  follows : next = none ∨ next = some u
  settled : next = some u → Settled r.1 r.2
  state : r.2.mathState = -1 ∨ r.2.mathState = 0 ∨ r.2.mathState = 1
  off : next = none → r.2.mathState ≠ 1

variable {r : Cpu R × Thread R}

theorem Allowed.current_eq (h : Allowed k i next u r) {j : ℕ} {v : τ} :
    (k.set i next u r).current j = some v ↔
      j = i ∧ v = u ∧ next = some u ∨ j ≠ i ∧ v ≠ u ∧ k.current j = some v := by
  by_cases hj : j = i
  · subst hj
    rcases h.follows with rfl | rfl
    · simp [Kernel.set]
    · simp [Kernel.set, eq_comm]
  · simp only [Kernel.set, Function.update_of_ne hj, hj, false_and, false_or, not_false_eq_true,
      true_and, ne_eq]
    refine ⟨fun hc => ⟨fun hv => h.elsewhere j hj (hv ▸ hc), hc⟩, fun hc => hc.2⟩

theorem Sound.set (hk : Sound k) (h : Allowed k i next u r) : Sound (k.set i next u r) := by
  refine ⟨fun a b v ha hb => ?_, fun j v hj => ?_, fun v hv => ?_, fun v => ?_⟩
  · rcases h.current_eq.mp ha with ⟨rfl, rfl, -⟩ | ⟨-, hne, ha⟩
    · rcases h.current_eq.mp hb with ⟨rfl, -⟩ | ⟨-, hne, -⟩
      · rfl
      · exact absurd rfl hne
    · rcases h.current_eq.mp hb with ⟨-, rfl, -⟩ | ⟨-, -, hb⟩
      · exact absurd rfl hne
      · exact hk.once a b v ha hb
  · rcases h.current_eq.mp hj with ⟨rfl, rfl, hnext⟩ | ⟨hji, hvu, hc⟩
    · simpa [Kernel.set] using h.settled hnext
    · simpa [Kernel.set, hji, hvu] using hk.settled j v hc
  · by_cases hvu : v = u
    · subst hvu
      have hone : r.2.mathState = 1 := by simpa [Kernel.set] using hv
      rcases h.follows with hnone | hsome
      · exact absurd hone (h.off hnone)
      · exact ⟨i, h.current_eq.mpr (.inl ⟨rfl, rfl, hsome⟩)⟩
    · obtain ⟨j, hj⟩ := hk.running v (by simpa [Kernel.set, hvu] using hv)
      have hji : j ≠ i := by
        rintro rfl
        rcases h.before with hb | hb
        · rw [hb] at hj
          cases hj
        · exact hvu (Option.some.inj (hj.symm.trans hb))
      exact ⟨j, h.current_eq.mpr (.inr ⟨hji, hvu, hj⟩)⟩
  · by_cases hvu : v = u
    · subst hvu
      simpa [Kernel.set] using h.state
    · simpa [Kernel.set, hvu] using hk.state v

/-- The registers of other threads stay. -/
theorem Owns.set {v : τ} {x : R} (ho : Owns k v x) (h : Allowed k i next u r) (hvu : v ≠ u) :
    Owns (k.set i next u r) v x := by
  rcases ho with ⟨hs, hm⟩ | ⟨hs, j, hj, hr⟩
  · exact .inl ⟨by simpa [Kernel.set, hvu] using hs, by simpa [Kernel.set, hvu] using hm⟩
  · have hji : j ≠ i := by
      rintro rfl
      rcases h.before with hb | hb
      · rw [hb] at hj
        cases hj
      · exact hvu (Option.some.inj (hj.symm.trans hb))
    refine .inr ⟨by simpa [Kernel.set, hvu] using hs, j, h.current_eq.mpr (.inr ⟨hji, hvu, hj⟩), ?_⟩
    simpa [Kernel.set, hji] using hr

omit [DecidableEq τ] in
theorem Owns.nextRegs_eq (hk : Sound k) (hi : k.current i = some u) {x : R} (ho : Owns k u x) :
    nextRegs finit (k.cpu i) (k.thread u) = x := by
  rcases ho with ⟨hs, hm⟩ | ⟨hs, j, hj, hr⟩
  · rw [nextRegs, if_neg (by omega), if_pos hs, hm]
  · rw [nextRegs, if_neg (by omega), if_neg (by omega), ← hr, hk.once i j u hi hj]

/-- What an event does for the registers of a thread. -/
structure Effect (finit : R → R) (k : Kernel τ R) (e : Event τ R) (k' : Kernel τ R) (v : τ) :
    Prop where
  fresh : e.by v = none → (k.thread v).mathState = -1 → (k'.thread v).mathState = -1
  kept : e.by v = none → ∀ x, Owns k v x → Owns k' v x
  own : ∀ i f, e = .instruction i v f → k.current i = some v ∧
    Owns k' v (f (nextRegs finit (k.cpu i) (k.thread v)))

theorem Allowed.effect_other (h : Allowed k i next u r) {e : Event τ R} {v : τ} (hvu : v ≠ u)
    (he : ∀ i f, e ≠ .instruction i v f) : Effect finit k e (k.set i next u r) v where
  fresh _ hs := by simpa [Kernel.set, hvu] using hs
  kept _ x ho := ho.set h hvu
  own i f hi := absurd hi (he i f)

/-- One step: it does not fail, and each thread keeps its registers but for its own instructions. -/
theorem Sound.step (finit : R → R) (hk : Sound k) {e : Event τ R} (he : e.Guard k) :
    ∃ k', e.step finit k = .ok k' ∧ Sound k' ∧ ∀ v, Effect finit k e k' v := by
  cases e with
  | exec i t =>
    obtain ⟨hidle, hnone⟩ := he
    have hout : (k.thread t).mathState ≠ 1 := fun hone => by
      obtain ⟨j, hj⟩ := hk.running t hone
      exact hnone j hj
    have hallowed : Allowed k i (some t) t (setFpuTrap (k.cpu i), k.thread t) :=
      ⟨.inl hidle, fun j _ => hnone j, .inr rfl, fun _ => ⟨(getLsbD_setFpuTrap _).1,
        iff_of_true (traps_set _) hout, hk.state t⟩, hk.state t, fun h => by cases h⟩
    refine ⟨_, rfl, hk.set hallowed, fun v => ?_⟩
    by_cases hvt : v = t
    · subst hvt
      refine ⟨fun _ hs => by simpa [Kernel.set] using hs, fun _ x ho => ?_,
        fun j f hj => by cases hj⟩
      rcases ho with ⟨hs, hm⟩ | ⟨hs, -⟩
      · exact .inl ⟨by simpa [Kernel.set] using hs, by simpa [Kernel.set] using hm⟩
      · exact absurd hs hout
    · exact hallowed.effect_other hvt fun j f hj => by cases hj
  | instruction i t f =>
    have hi : k.current i = some t := he
    obtain ⟨c', t', hrun, hsettled, hone, hregs⟩ := (hk.settled i t hi).instruction finit f
    have hallowed : Allowed k i (some t) t (c', t') :=
      ⟨.inr hi, fun j hji hj => hji (hk.once j i t hj hi), .inr rfl, fun _ => hsettled,
        hsettled.state, fun h => by cases h⟩
    refine ⟨k.set i (some t) t (c', t'), ?_, hk.set hallowed, fun v => ?_⟩
    · rw [Event.step, hrun]
      rfl
    · by_cases hvt : v = t
      · subst hvt
        refine ⟨fun hn => by simp [Event.by] at hn, fun hn => by simp [Event.by] at hn,
          fun j g hj => ?_⟩
        cases hj
        refine ⟨hi, .inr ⟨by simpa [Kernel.set] using hone, i, by simp [Kernel.set], ?_⟩⟩
        simpa [Kernel.set] using hregs
      · exact hallowed.effect_other hvt fun j g hj => by cases hj; exact hvt rfl
  | leave i t =>
    have hi : k.current i = some t := he
    obtain ⟨c', t', hrun, hsaved, hsame⟩ := (hk.settled i t hi).afterTurn
    have hoff : t'.mathState ≠ 1 := by
      by_cases hone : (k.thread t).mathState = 1
      · rw [(hsaved hone).1]
        decide
      · rwa [hsame hone]
    have hstate : t'.mathState = -1 ∨ t'.mathState = 0 ∨ t'.mathState = 1 := by
      by_cases hone : (k.thread t).mathState = 1
      · exact .inr (.inl (hsaved hone).1)
      · rw [hsame hone]
        exact hk.state t
    have hallowed : Allowed k i none t (c', t') :=
      ⟨.inr hi, fun j hji hj => hji (hk.once j i t hj hi), .inl rfl, fun h => (by cases h), hstate,
        fun _ => hoff⟩
    refine ⟨k.set i none t (c', t'), ?_, hk.set hallowed, fun v => ?_⟩
    · rw [Event.step, hrun]
      rfl
    · by_cases hvt : v = t
      · subst hvt
        refine ⟨fun _ hs => ?_, fun _ x ho => ?_, fun j f hj => by cases hj⟩
        · simpa [Kernel.set, hsame (by omega : (k.thread v).mathState ≠ 1)] using hs
        · refine .inl ?_
          rcases ho with ⟨hs, hm⟩ | ⟨hs, j, hj, hr⟩
          · rw [hsame (by omega : (k.thread v).mathState ≠ 1)]
            simp [Kernel.set, hs, hm]
          · obtain rfl := hk.once i j v hi hj
            simp [Kernel.set, hsaved hs, hr]
      · exact hallowed.effect_other hvt fun j f hj => by cases hj

end Step

theorem sound_preserved (finit : R → R) : (fpuSystem (τ := τ) finit).Preserves Sound := by
  intro k e hk he
  obtain ⟨k', hrun, hk', -⟩ := hk.step finit he
  exact ⟨k', hrun, hk'⟩

theorem Sound.init {k : Kernel τ R} (h : (fpuSystem finit).Init k) : Sound k where
  once i _ _ hi := by rw [h.1 i] at hi; cases hi
  settled i _ hi := by rw [h.1 i] at hi; cases hi
  running t ht := by rw [h.2 t] at ht; cases ht
  state t := .inl (h.2 t)

/-- The registers of a thread are what its own instructions have made of those that its first one
found: what `finit` made of the registers of that CPU. -/
def Told (finit : R → R) (k₀ : Kernel τ R) (es : List (Event τ R)) (k : Kernel τ R) (t : τ) :
    Prop :=
  ∃ js i f u, js ++ [.instruction i t f] <+: es ∧ instructions t js = [] ∧
    (fpuSystem finit).Steps k₀ js u ∧
    Owns k t ((instructions t es).foldl (fun r f => f r) (finit (u.cpu i).regs))

theorem instructions_snoc (t : τ) (es : List (Event τ R)) (e : Event τ R) :
    instructions t (es ++ [e]) = instructions t es ++ (e.by t).toList := by
  cases h : e.by t <;> simp [instructions, h]

/-- Each thread's FPU instructions act on registers of its own, whatever other threads run before,
after and between, and on whatever CPUs; no exception finds the trap released. -/
theorem lazy_switching {k₀ k : Kernel τ R} {es : List (Event τ R)}
    (h₀ : (fpuSystem finit).Init k₀) (h : (fpuSystem finit).Steps k₀ es k) :
    (∀ t, instructions t es = [] ∧ (k.thread t).mathState = -1 ∨ Told finit k₀ es k t) ∧
    (∀ i t, k.current i = some t → ((k.cpu i).Traps ↔ (k.thread t).mathState ≠ 1)) ∧
    ∀ e : Event τ R, e.Guard k → ∃ k', e.step finit k = .ok k' := by
  have hk := h.preserves (sound_preserved finit) (Sound.init h₀)
  refine ⟨fun t => ?_, fun i t hi => (hk.settled i t hi).trap, fun e he => ?_⟩
  · clear hk
    induction h with
    | nil => exact .inl ⟨rfl, h₀.2 t⟩
    | @snoc k k' es e hrun he hstep ih =>
      have hk := hrun.preserves (sound_preserved finit) (Sound.init h₀)
      obtain ⟨k'', hstep', -, heffect⟩ := hk.step finit he
      obtain rfl : k' = k'' := Except.ok.inj (hstep.symm.trans hstep')
      have hv := heffect t
      rw [instructions_snoc]
      cases hby : e.by t with
      | none =>
        rw [Option.toList_none, List.append_nil]
        refine ih.imp (fun ⟨hnil, hs⟩ => ⟨hnil, hv.fresh hby hs⟩) ?_
        rintro ⟨js, i, f, u, hjs, hnil, hu, ho⟩
        refine ⟨js, i, f, u, hjs.trans (List.prefix_append _ _), hnil, hu, ?_⟩
        rw [instructions_snoc, hby, Option.toList_none, List.append_nil]
        exact hv.kept hby _ ho
      | some f =>
        obtain ⟨i, rfl⟩ : ∃ i, e = .instruction i t f := by
          cases e with
          | instruction i u g =>
            by_cases hut : u = t
            · subst hut
              simp only [Event.by, if_true, Option.some.injEq] at hby
              exact ⟨i, hby ▸ rfl⟩
            · simp [Event.by, hut] at hby
          | exec => cases hby
          | leave => cases hby
        obtain ⟨hi, ho⟩ := hv.own i f rfl
        refine .inr ?_
        rcases ih with ⟨hnil, hs⟩ | ⟨js, j, g, u, hjs, hnil, hu, hold⟩
        · -- the first instruction of the thread
          refine ⟨es, i, f, k, List.prefix_refl _, hnil, hrun, ?_⟩
          rw [nextRegs, if_pos hs] at ho
          simpa [instructions_snoc, hby, hnil] using ho
        · refine ⟨js, j, g, u, hjs.trans (List.prefix_append _ _), hnil, hu, ?_⟩
          rw [hold.nextRegs_eq hk hi] at ho
          simpa [instructions_snoc, hby, List.foldl_append] using ho
  · obtain ⟨k', hrun, -⟩ := hk.step finit he
    exact ⟨k', hrun⟩

/-- Two CPUs at rest; the registers are a control register and a data register. -/
def atRest : Kernel ℕ (ℕ × ℕ) := ⟨fun _ => ⟨0, 0, 7⟩, fun _ => none, fun _ => ⟨-1, 0, 0⟩⟩

def resetControl (r : ℕ × ℕ) : ℕ × ℕ := (895, r.2)

/-- Thread 1 stores a value and leaves, thread 2 finds it, and thread 1 goes on on the other CPU. -/
def twoTurns : List (Event ℕ (ℕ × ℕ)) :=
  [.exec 0 1, .instruction 0 1 fun r => (r.1, 42), .leave 0 1, .exec 0 2,
    .instruction 0 2 fun r => (r.1, r.2 + 1), .exec 1 1, .instruction 1 1 fun r => (r.1, r.2 + 8)]

theorem lazy_switching_twoTurns : ∃ k, (fpuSystem resetControl).Steps atRest twoTurns k ∧
    Told resetControl atRest twoTurns k 1 ∧ Owns k 1 (895, 50) ∧ Owns k 2 (895, 43) := by
  have hexec : ∀ (k : Kernel ℕ (ℕ × ℕ)) (i t : ℕ), k.current i = none →
      (∀ j < 2, k.current j ≠ some t) → (∀ j, 2 ≤ j → k.current j = none) →
      (Event.exec i t).Guard k := by
    intro k i t hi hlow hhigh
    refine ⟨hi, fun j hj => ?_⟩
    by_cases hlt : j < 2
    · exact hlow j hlt hj
    · rw [hhigh j (by omega)] at hj
      cases hj
  have hone : (Event.exec 0 1).Guard atRest := hexec _ _ _ rfl (by decide) fun _ _ => rfl
  have hrun : (fpuSystem resetControl).Steps atRest twoTurns _ :=
    .cons hone rfl <| .cons rfl rfl <| .cons rfl rfl <|
      .cons (hexec _ _ _ rfl (by decide) fun j hj => by
        simp [Kernel.set, atRest]) rfl <|
      .cons rfl rfl <|
      .cons (hexec _ _ _ rfl (by decide) fun j hj => by
        simp [Kernel.set, atRest, show j ≠ 0 by omega]) rfl <|
      .cons rfl rfl <| .nil _
  have htold := (lazy_switching ⟨fun _ => rfl, fun _ => rfl⟩ hrun).1 1
  refine ⟨_, hrun, htold.resolve_left fun hnil => List.cons_ne_nil _ _ hnil.1, ?_, ?_⟩
  · exact .inr ⟨rfl, 1, rfl, rfl⟩
  · exact .inr ⟨rfl, 0, rfl, rfl⟩

end Racoon.Fpu
