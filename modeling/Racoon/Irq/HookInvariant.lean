import Racoon.Irq.Hooks
import Racoon.Lib.Run

/-!
# The hook of an interrupt line

In every run of `request_irq`, `release_irq`, `irq_handler` and `irq_complete` the
stubs of a line are its registered threads, each once, and `last` and `index`
stay within the array, as long as two steps are avoided: `release_irq` moves a
`last` that stood at the end of the array up instead of down, and a handler that
declines when all have declined already counts `index` past the end.
-/

namespace Racoon.Irq
open Lib

/-- The kernel does not halt but for an assertion. -/
def OnlyAsserts {α : Type} (x : Outcome α) : Prop := ∀ f, x = .error f → f = .assertion

namespace OnlyAsserts
variable {α β : Type}

theorem ok (a : α) : OnlyAsserts (.ok a : Outcome α) := fun _ h => by cases h

theorem assert (c : Prop) [Decidable c] : OnlyAsserts (assert c) := by
  intro f h
  rw [Racoon.assert] at h
  split_ifs at h
  cases h
  rfl

theorem bind {x : Outcome α} {g : α → Outcome β} (hx : OnlyAsserts x)
    (hg : ∀ a, x = .ok a → OnlyAsserts (g a)) : OnlyAsserts (x >>= g) := by
  cases x with
  | error e =>
    intro f h
    cases h
    exact hx e rfl
  | ok a => exact hg a rfl

end OnlyAsserts

def Registered (k : Kernel) (irq : ℤ) (t : ℕ) : Prop :=
  (k.thread t).state = THREAD_IRQ ∧ (k.thread t).irq = irq

/-- A hook whose registered threads are `reg`. -/
structure Line (h : IrqHook) (reg : ℕ → Prop) : Prop where
  count : h.count = h.stubs.length
  once : (h.stubs.map IrqStub.tr).Nodup
  members : ∀ t, t ∈ h.stubs.map IrqStub.tr ↔ reg t
  last : 0 < h.count → 0 ≤ h.last ∧ h.last < h.count
  index : 0 < h.count → 0 ≤ h.index ∧ h.index ≤ h.count
  empty : h.count = 0 → h.last = 0 ∧ h.index = 0

structure Hooked (k : Kernel) : Prop where
  line : ∀ irq, InRange irq → Line (k.handlers irq) (Registered k irq)
  named : ∀ t, InRange (k.thread t).irq → (k.thread t).state = THREAD_IRQ

/-- Nothing that the hooks are about has changed. -/
structure SameLines (k u : Kernel) : Prop where
  handlers : u.handlers = k.handlers
  state : ∀ t, (u.thread t).state = (k.thread t).state
  irq : ∀ t, (u.thread t).irq = (k.thread t).irq

theorem SameLines.hooked_iff {k u : Kernel} (h : SameLines k u) : Hooked u ↔ Hooked k := by
  have hreg : ∀ irq, Registered u irq = Registered k irq := fun irq => by
    funext t
    rw [Registered, Registered, h.state, h.irq]
  constructor
  · intro hu
    refine ⟨fun irq hr => ?_, fun t ht => ?_⟩
    · rw [← hreg, ← h.handlers]
      exact hu.line irq hr
    · rw [← h.state]
      exact hu.named t (h.irq t ▸ ht)
  · intro hk
    refine ⟨fun irq hr => ?_, fun t ht => ?_⟩
    · rw [hreg, h.handlers]
      exact hk.line irq hr
    · rw [h.state]
      exact hk.named t (h.irq t ▸ ht)

theorem sameLines_setThread {k : Kernel} {t : ℕ} {tr : Thread}
    (hs : tr.state = (k.thread t).state) (hi : tr.irq = (k.thread t).irq) (id : ℤ)
    (si : SchedulerInfo) : SameLines k ((k.setThread t tr).setSched id si) where
  handlers := rfl
  state x := by
    by_cases hx : x = t
    · subst hx
      simpa [Kernel.setThread, Kernel.setSched] using hs
    · simp [Kernel.setThread, Kernel.setSched, hx]
  irq x := by
    by_cases hx : x = t
    · subst hx
      simpa [Kernel.setThread, Kernel.setSched] using hi
    · simp [Kernel.setThread, Kernel.setSched, hx]

theorem fastQueue_onlyAsserts (k : Kernel) (t : ℕ) : OnlyAsserts (fastQueue k t) :=
  (OnlyAsserts.assert _).bind fun _ _ => (OnlyAsserts.assert _).bind fun _ _ => .ok _

theorem fastDequeue_onlyAsserts (k : Kernel) (cpuid : ℤ) (t : ℕ) :
    OnlyAsserts (fastDequeue k cpuid t) :=
  (OnlyAsserts.assert _).bind fun _ _ => (OnlyAsserts.assert _).bind fun _ _ =>
    (OnlyAsserts.assert _).bind fun _ _ => .ok _

theorem fastQueue_sameLines {k u : Kernel} {t : ℕ} (h : fastQueue k t = .ok u) :
    SameLines k u := by
  obtain ⟨_, _, h⟩ := bind_eq_ok.mp h
  obtain ⟨_, _, h⟩ := bind_eq_ok.mp h
  cases h
  refine sameLines_setThread ?_ ?_ _ _ <;> rfl

theorem fastDequeue_sameLines {k u : Kernel} {cpuid : ℤ} {t : ℕ}
    (h : fastDequeue k cpuid t = .ok u) : SameLines k u := by
  obtain ⟨_, _, h⟩ := bind_eq_ok.mp h
  obtain ⟨_, _, h⟩ := bind_eq_ok.mp h
  obtain ⟨_, _, h⟩ := bind_eq_ok.mp h
  cases h
  refine sameLines_setThread ?_ ?_ _ _ <;> rfl

theorem stubAt_eq {stubs : List IrqStub} {pos : ℤ} (h₀ : 0 ≤ pos) (h : pos < stubs.length) :
    ∃ s, stubs[pos.toNat]? = some s ∧ stubAt stubs pos = .ok s := by
  have hlt : pos.toNat < stubs.length := by omega
  refine ⟨stubs[pos.toNat], List.getElem?_eq_getElem hlt, ?_⟩
  rw [stubAt, if_pos h₀, List.getElem?_eq_getElem hlt, deref_some]

theorem copyStubs_eq {stubs : List IrqStub} {n : ℤ} (h : n = stubs.length) :
    copyStubs stubs n = .ok stubs := by
  rw [copyStubs, if_pos (by omega), h, Int.toNat_natCast, List.take_length]

theorem shiftStubs_eq (t room : ℕ) (l : List IrqStub) (found : ℕ) (copied : List IrqStub)
    (h : copied.length + (l.filter fun s => s.tr ≠ t).length ≤ room) :
    shiftStubs t room l found copied =
      .ok (found + l.countP (fun s => s.tr = t), copied ++ l.filter fun s => s.tr ≠ t) := by
  induction l generalizing found copied with
  | nil => simp [shiftStubs]
  | cons s rest ih =>
    rw [shiftStubs]
    by_cases hs : s.tr = t
    · rw [if_pos hs, ih _ _ (by simpa [hs] using h)]
      simp only [List.countP_cons, hs, decide_true, if_true, ne_eq, not_true, decide_false,
        Bool.false_eq_true, not_false_eq_true, List.filter_cons_of_neg]
      rw [Nat.add_assoc, Nat.add_comm 1]
    · have hlen : copied.length + ((rest.filter fun s => s.tr ≠ t).length + 1) ≤ room := by
        simpa [hs] using h
      have hnext : (copied ++ [s]).length + (rest.filter fun s => s.tr ≠ t).length ≤ room := by
        rw [List.length_append, List.length_singleton]
        omega
      rw [if_neg hs, if_pos (by omega), ih _ _ hnext]
      simp [hs]

theorem cmod_eq {a b : ℤ} (ha : 0 ≤ a) (hb : 0 < b) :
    cmod a b = .ok (a % b) ∧ 0 ≤ a % b ∧ a % b < b := by
  refine ⟨?_, Int.emod_nonneg a hb.ne', Int.emod_lt_of_pos a hb⟩
  rw [cmod, if_neg hb.ne', Int.tmod_eq_emod_of_nonneg ha]

namespace Line
variable {h : IrqHook} {reg : ℕ → Prop} {t : ℕ}

theorem count_pos (hl : Line h reg) (ht : reg t) : 0 < h.count := by
  have hm := (hl.members t).mpr ht
  rw [List.mem_map] at hm
  obtain ⟨s, hs, _⟩ := hm
  rw [hl.count]
  exact_mod_cast List.length_pos_of_mem hs

theorem congr {reg' : ℕ → Prop} (hl : Line h reg) (he : ∀ t, reg' t ↔ reg t) : Line h reg' :=
  ⟨hl.count, hl.once, fun t => (hl.members t).trans (he t).symm, hl.last, hl.index, hl.empty⟩

/-- The stubs without those of a registered thread. -/
theorem filter_length (hl : Line h reg) (ht : reg t) :
    (h.stubs.countP fun s => s.tr = t) = 1 ∧
      ((h.stubs.filter fun s => s.tr ≠ t).length : ℤ) = h.count - 1 := by
  have hone : (h.stubs.countP fun s => s.tr = t) = 1 := by
    have hc := List.count_eq_one_of_mem hl.once ((hl.members t).mpr ht)
    rw [List.count, List.countP_map] at hc
    rw [← hc]
    refine List.countP_congr fun s _ => ?_
    simp
  refine ⟨hone, ?_⟩
  have hsum := List.length_eq_countP_add_countP (fun s : IrqStub => decide (s.tr = t))
    (l := h.stubs)
  rw [← List.countP_eq_length_filter, hl.count]
  simp only [ne_eq, decide_not, decide_eq_true_eq] at hsum ⊢
  omega

end Line

/-- A change of one hook and of the thread it is made for. -/
theorem hooked_setHook_iff {k : Kernel} (hk : Hooked k) (masked : ℤ → Bool) {irq : ℤ}
    (hr : InRange irq) (h : IrqHook) {t : ℕ} {tr : Thread}
    (hold : ∀ i, i ≠ irq → ¬ Registered k i t)
    (hnew : ∀ i, InRange i → i ≠ irq → tr.irq ≠ i)
    (hnamed : InRange tr.irq → tr.state = THREAD_IRQ) :
    Hooked ((({ k with masked := masked }).setHook irq h).setThread t tr) ↔
      Line h fun x => if x = t then tr.state = THREAD_IRQ ∧ tr.irq = irq
        else Registered k irq x := by
  have hreg : ∀ i x, Registered ((({ k with masked := masked }).setHook irq h).setThread t tr) i x ↔
      if x = t then tr.state = THREAD_IRQ ∧ tr.irq = i else Registered k i x := by
    intro i x
    simp only [Registered, Kernel.setThread, Kernel.setHook]
    by_cases hx : x = t
    · subst hx
      simp
    · simp [hx]
  constructor
  · intro hu
    have hl := hu.line irq hr
    simp only [Kernel.setThread, Kernel.setHook, Function.update_self] at hl
    exact hl.congr fun x => (hreg irq x).symm
  · intro hl
    refine ⟨fun i hi => ?_, fun x hx => ?_⟩
    · by_cases he : i = irq
      · subst he
        simp only [Kernel.setThread, Kernel.setHook, Function.update_self]
        exact hl.congr (hreg i)
      · simp only [Kernel.setThread, Kernel.setHook, Function.update_of_ne he]
        refine (hk.line i hi).congr fun x => (hreg i x).trans ?_
        by_cases hx : x = t
        · subst hx
          rw [if_pos rfl]
          exact iff_of_false (fun ht => hnew i hi he ht.2) (hold i he)
        · rw [if_neg hx]
    · simp only [Kernel.setThread, Kernel.setHook] at hx ⊢
      by_cases hxt : x = t
      · subst hxt
        rw [Function.update_self] at hx ⊢
        exact hnamed hx
      · rw [Function.update_of_ne hxt] at hx ⊢
        exact hk.named x hx

theorem Hooked.request {k : Kernel} (hk : Hooked k) (hookMem stubsMem : Bool) {t : ℕ}
    (ht : (k.thread t).state = THREAD_SUSPENDED) (irq : ℤ) :
    ∃ u rc, requestIrq k hookMem stubsMem t irq = .ok (u, rc) ∧ Hooked u := by
  rw [requestIrq]
  by_cases hr : InRange irq
  swap
  · exact ⟨k, -1, if_pos hr, hk⟩
  rw [if_neg (not_not.mpr hr), if_neg (not_not.mpr ht)]
  cases hookMem with
  | false => exact ⟨k, -1, rfl, hk⟩
  | true =>
    cases stubsMem with
    | false => exact ⟨k, -1, rfl, hk⟩
    | true =>
      have hl := hk.line irq hr
      have hno : ∀ i, ¬ Registered k i t := fun i hi => by
        have := hi.1.symm.trans ht
        cases this
      have hnot : t ∉ (k.handlers irq).stubs.map IrqStub.tr :=
        fun hm => hno irq ((hl.members t).mp hm)
      simp only [Bool.true_eq_false, if_false, copyStubs_eq hl.count, ok_bind]
      refine ⟨_, _, rfl, (hooked_setHook_iff hk _ hr _ (fun i _ => hno i)
        (fun i _ hi => hi.symm) fun _ => rfl).mpr ?_⟩
      have hcount : 0 ≤ (k.handlers irq).count := by
        rw [hl.count]
        exact Int.natCast_nonneg _
      have hlast : 0 ≤ (k.handlers irq).last ∧
          (k.handlers irq).last < (k.handlers irq).count + 1 := by
        rcases hcount.lt_or_eq with hpos | hzero
        · have := hl.last hpos
          omega
        · have := hl.empty hzero.symm
          omega
      have hindex : 0 ≤ (k.handlers irq).index ∧
          (k.handlers irq).index ≤ (k.handlers irq).count + 1 := by
        rcases hcount.lt_or_eq with hpos | hzero
        · have := hl.index hpos
          omega
        · have := hl.empty hzero.symm
          omega
      constructor
      · simp [hl.count]
      · rw [List.map_append, List.nodup_append]
        refine ⟨hl.once, List.nodup_singleton _, fun x hx y hy he => hnot ?_⟩
        have hy : y = t := List.mem_singleton.mp hy
        rwa [← hy, ← he]
      · intro x
        rw [List.map_append, List.mem_append, hl.members]
        by_cases hx : x = t
        · simp [hx]
        · simp [hx]
      · intro _
        dsimp only
        rw [if_neg (by omega)]
        exact hlast
      · intro _
        dsimp only
        rw [if_neg (by omega)]
        exact hindex
      · intro hzero
        dsimp only at hzero
        omega

/-- A release finds the thread once and keeps the other stubs. -/
theorem withoutStub_eq {k : Kernel} {irq : ℤ} {t : ℕ} {reg : ℕ → Prop}
    (hl : Line (k.handlers irq) reg) (ht : reg t) :
    withoutStub k t irq = .ok (1, (k.handlers irq).stubs.filter fun s => s.tr ≠ t) := by
  obtain ⟨hone, hlen⟩ := hl.filter_length ht
  rw [withoutStub]
  by_cases hlast : (k.handlers irq).count - 1 = 0
  · have hnil : ((k.handlers irq).stubs.filter fun s => s.tr ≠ t) = [] := by
      rw [← List.length_eq_zero_iff]
      omega
    obtain ⟨s, hs⟩ : ∃ s, (k.handlers irq).stubs = [s] := by
      rw [← List.length_eq_one_iff]
      have := hl.count
      omega
    have hst : s.tr = t := by
      have hm := (hl.members t).mpr ht
      rw [hs] at hm
      exact (List.mem_singleton.mp hm).symm
    rw [if_pos hlast, hnil, hs]
    simp [stubAt, hst]
  · rw [if_neg hlast, copyStubs_eq hl.count, ok_bind, shiftStubs_eq]
    · rw [hone]
      rfl
    · simp only [List.length_nil]
      omega

/-- After a release the hook is in order exactly if `last` did not have to move down. -/
theorem Hooked.release {k : Kernel} (hk : Hooked k) {irq : ℤ} {t : ℕ} (hr : InRange irq)
    (ht : Registered k irq t) (hookMem stubsMem : Bool) :
    ∃ u rc, releaseIrq k hookMem stubsMem t irq = .ok (u, rc) ∧
      (Hooked u ↔ hookMem = false ∨ ((k.handlers irq).count ≠ 1 ∧ stubsMem = false) ∨
        (k.handlers irq).last + 1 < (k.handlers irq).count ∨ (k.handlers irq).last = 0) := by
  have hl := hk.line irq hr
  have hpos := hl.count_pos ht
  have hlast := hl.last hpos
  have hindex := hl.index hpos
  obtain ⟨hone, hlen⟩ := hl.filter_length ht
  rw [releaseIrq, if_neg (not_not.mpr hr)]
  cases hookMem with
  | false => exact ⟨k, -1, rfl, by simp [hk]⟩
  | true =>
    rw [if_neg (by simp)]
    by_cases hmem : (k.handlers irq).count - 1 ≠ 0 ∧ stubsMem = false
    · rw [if_pos hmem]
      exact ⟨k, -1, rfl, iff_of_true hk (.inr (.inl ⟨by omega, hmem.2⟩))⟩
    · rw [if_neg hmem]
      simp only [withoutStub_eq hl ht, ok_bind, one_ne_zero, if_false, assert_of]
      refine ⟨_, _, rfl, (hooked_setHook_iff hk _ hr _ (fun i hi hreg => hi ?_)
        (fun i hi _ he => ?_) fun hin => ?_).trans ?_⟩
      · exact hreg.2.symm.trans ht.2
      · have he : -1 = i := he
        rw [← he] at hi
        exact absurd hi (by decide)
      · have hin : InRange (-1) := hin
        exact absurd hin (by decide)
      constructor
      · intro hu
        by_contra hbad
        simp only [Bool.true_eq_false, false_or, not_or, not_and, not_lt] at hbad
        obtain ⟨-, hge, hne⟩ := hbad
        have hc : 0 < (k.handlers irq).count - 1 := by omega
        have hrange := (hu.last hc).2
        dsimp only at hrange
        rw [if_pos ⟨by omega, by omega⟩] at hrange
        omega
      · intro hsafe
        have hmoved : (k.handlers irq).last + 1 < (k.handlers irq).count ∨
            (k.handlers irq).last = 0 := by
          rcases hsafe with h | h | h
          · cases h
          · exact absurd ⟨by omega, h.2⟩ hmem
          · exact h
        have hsame : (if (k.handlers irq).last ≥ (k.handlers irq).count - 1 ∧
            (k.handlers irq).last > 0 then (k.handlers irq).last - -1
            else (k.handlers irq).last) = (k.handlers irq).last := by
          rw [if_neg (by omega)]
        constructor
        · exact hlen.symm
        · exact hl.once.sublist (List.filter_sublist.map _)
        · intro x
          rw [List.mem_map]
          by_cases hx : x = t
          · subst hx
            rw [if_pos rfl]
            refine iff_of_false ?_ fun h => (by decide : THREAD_SUSPENDED ≠ THREAD_IRQ) h.1
            rintro ⟨s, hs, he⟩
            rw [List.mem_filter] at hs
            exact absurd he (by simpa using hs.2)
          · rw [if_neg hx, ← hl.members, List.mem_map]
            refine exists_congr fun s => ?_
            rw [List.mem_filter]
            constructor
            · rintro ⟨hs, he⟩
              exact ⟨hs.1, he⟩
            · rintro ⟨hs, he⟩
              exact ⟨⟨hs, by simpa [he] using hx⟩, he⟩
        · intro hc
          dsimp only at hc ⊢
          rw [hsame]
          omega
        · intro hc
          dsimp only at hc ⊢
          split_ifs <;> omega
        · intro hc
          dsimp only at hc ⊢
          rw [hsame]
          split_ifs <;> omega

/-- A change of one hook alone. -/
theorem hooked_setHook {k : Kernel} (hk : Hooked k) {irq : ℤ} (hr : InRange irq) (h : IrqHook) :
    Hooked (k.setHook irq h) ↔ Line h (Registered k irq) := by
  constructor
  · intro hu
    have hl := hu.line irq hr
    rwa [Kernel.handlers_setHook, if_pos rfl] at hl
  · refine fun hl => ⟨fun i hi => ?_, hk.named⟩
    by_cases he : i = irq
    · subst he
      rw [Kernel.handlers_setHook, if_pos rfl]
      exact hl
    · rw [Kernel.handlers_setHook, if_neg he]
      exact hk.line i hi

theorem Hooked.fire {k : Kernel} (hk : Hooked k) {irq : ℤ} (hr : InRange irq) :
    OnlyAsserts (irqHandler k irq) ∧ ∀ u, irqHandler k irq = .ok u → Hooked u := by
  have hl := hk.line irq hr
  have hu : Hooked (k.setHook irq
      { k.handlers irq with raised := (k.handlers irq).raised + 1, index := 0 }) :=
    (hooked_setHook hk hr _).mpr ⟨hl.count, hl.once, hl.members, hl.last,
      fun hc => ⟨le_rfl, hc.le⟩, fun hc => ⟨(hl.empty hc).1, rfl⟩⟩
  rw [irqHandler]
  by_cases h0 : irq = 0
  · rw [if_pos h0]
    exact ⟨.ok _, fun u h => by cases h; exact hk⟩
  rw [if_neg h0]
  dsimp only
  by_cases hc : (k.handlers irq).count ≤ 0
  · rw [if_pos hc]
    exact ⟨.ok _, fun u h => by cases h; exact hu⟩
  · have hlast := hl.last (not_le.mp hc)
    obtain ⟨s, _, hs⟩ := stubAt_eq hlast.1 (hlast.2.trans_eq hl.count)
    rw [if_neg hc, assert_of (not_le.mp hc), ok_bind, hs, ok_bind]
    exact ⟨fastQueue_onlyAsserts _ _,
      fun u h => (fastQueue_sameLines h).hooked_iff.mpr hu⟩

/-- The position of the handler whose turn it is. -/
theorem entitled_eq {k : Kernel} (hk : Hooked k) {irq : ℤ} (hr : InRange irq)
    (hc : 0 < (k.handlers irq).count) (t : ℕ) :
    ∃ pos s, 0 ≤ pos ∧ pos < (k.handlers irq).count ∧
      (k.handlers irq).stubs[pos.toNat]? = some s ∧
      entitled k t irq = .ok (if s.tr = t then some pos else none) := by
  have hl := hk.line irq hr
  have hlast := hl.last hc
  have hindex := hl.index hc
  obtain ⟨hmod, h₀, hlt⟩ :=
    cmod_eq (a := (k.handlers irq).index + (k.handlers irq).last) (by omega) hc
  obtain ⟨s, hs, hst⟩ := stubAt_eq h₀ (hlt.trans_eq hl.count)
  refine ⟨_, s, h₀, hlt, hs, ?_⟩
  rw [entitled, hmod, ok_bind, hst, ok_bind]

theorem map_tr_modify (stubs : List IrqStub) (i : ℕ) (f : IrqStub → IrqStub)
    (hf : ∀ s, (f s).tr = s.tr) :
    (stubs.modify i f).map IrqStub.tr = stubs.map IrqStub.tr := by
  apply List.ext_getElem?
  intro j
  rw [List.getElem?_map, List.getElem?_map, List.getElem?_modify]
  cases stubs[j]? with
  | none => rfl
  | some s =>
    by_cases hj : i = j
    · simp [hj, hf]
    · simp [hj]

/-- New counters in a stub and new values of `last` and `index`. -/
theorem line_modify_iff {h : IrqHook} {reg : ℕ → Prop} (hl : Line h reg) (hc : 0 < h.count)
    (i : ℕ) (f : IrqStub → IrqStub) (hf : ∀ s, (f s).tr = s.tr) {last : ℤ} (index : ℤ)
    (hlast : 0 ≤ last ∧ last < h.count) :
    Line { h with stubs := h.stubs.modify i f, last := last, index := index } reg ↔
      0 ≤ index ∧ index ≤ h.count := by
  constructor
  · exact fun hl' => hl'.index hc
  · intro hindex
    constructor
    · rw [List.length_modify]
      exact hl.count
    · rw [map_tr_modify _ _ _ hf]
      exact hl.once
    · intro t
      rw [map_tr_modify _ _ _ hf]
      exact hl.members t
    · exact fun _ => hlast
    · exact fun _ => hindex
    · exact fun h0 => absurd h0 hc.ne'

theorem askNext_spec {k : Kernel} {irq pos : ℤ} (hcount : (k.handlers irq).count =
    (k.handlers irq).stubs.length) (hc : 0 < (k.handlers irq).count) (hpos : 0 ≤ pos) :
    OnlyAsserts (askNext k irq pos) ∧ ∀ u next, askNext k irq pos = .ok (u, next) →
      SameLines k u := by
  obtain ⟨hmod, h₀, hp⟩ := cmod_eq (by omega : 0 ≤ pos + 1) hc
  obtain ⟨s, _, hs⟩ := stubAt_eq h₀ (hp.trans_eq hcount)
  rw [askNext, hmod, ok_bind, hs, ok_bind]
  refine ⟨(fastQueue_onlyAsserts _ _).bind fun _ _ => .ok _, fun u next h => ?_⟩
  obtain ⟨v, hv, h⟩ := bind_eq_ok.mp h
  cases h
  exact fastQueue_sameLines hv

theorem offerNext_spec {k : Kernel} {irq pos : ℤ} (hcount : (k.handlers irq).count =
    (k.handlers irq).stubs.length) (hc : 0 < (k.handlers irq).count) (hpos : 0 ≤ pos) (cpuid : ℤ)
    (interrupts : Bool) :
    OnlyAsserts (offerNext k cpuid interrupts irq pos) ∧
      ∀ u r, offerNext k cpuid interrupts irq pos = .ok (u, r) → SameLines k u := by
  rw [offerNext]
  split_ifs with hlt
  · obtain ⟨hasserts, hsame⟩ := askNext_spec hcount hc hpos
    refine ⟨hasserts.bind fun _ _ => .ok _, fun u r h => ?_⟩
    obtain ⟨⟨v, next⟩, hv, h⟩ := bind_eq_ok.mp h
    cases h
    exact hsame _ _ hv
  · refine ⟨.ok _, fun u r h => ?_⟩
    cases h
    exact ⟨rfl, fun _ => rfl, fun _ => rfl⟩

/-- The thread is a handler and the one whose turn it is. -/
def Counts (k : Kernel) (t : ℕ) : Prop :=
  InRange (k.thread t).irq ∧ ∃ pos, entitled k t (k.thread t).irq = .ok (some pos)

/-- A completion keeps the hook in order exactly if it does not count past the end. -/
theorem Hooked.complete {k : Kernel} (hk : Hooked k) (cpuid : ℤ) (t : ℕ) (interrupts : Bool)
    (status : ℤ) :
    OnlyAsserts (irqComplete k cpuid t interrupts status) ∧
    ∀ u rc, irqComplete k cpuid t interrupts status = .ok (u, rc) → (Hooked u ↔ status = 0 ∨
      ¬ Counts k t ∨
      (k.handlers (k.thread t).irq).index < (k.handlers (k.thread t).irq).count) := by
  rw [irqComplete]
  dsimp only
  by_cases hr : InRange (k.thread t).irq
  swap
  · rw [if_pos hr]
    refine ⟨.ok _, fun u rc h => ?_⟩
    cases h
    exact iff_of_true hk (.inr (.inl fun hc => hr hc.1))
  rw [if_neg (not_not.mpr hr)]
  have hl := hk.line _ hr
  have hc := hl.count_pos ⟨hk.named t hr, rfl⟩
  have hindex := hl.index hc
  obtain ⟨pos, s, hpos, hlt, hs, he⟩ := entitled_eq hk hr hc t
  rw [he, ok_bind]
  by_cases hst : s.tr = t
  swap
  · rw [if_neg hst]
    refine ⟨.ok _, fun u rc h => ?_⟩
    cases h
    refine iff_of_true hk (.inr (.inl fun hcount => ?_))
    obtain ⟨_, p, hp⟩ := hcount
    rw [he, if_neg hst] at hp
    cases hp
  rw [if_pos hst]
  have hcounts : Counts k t := ⟨hr, pos, by rw [he, if_pos hst]⟩
  dsimp only
  have hfinish : ∀ {v : Kernel} {flag : Bool} {P : Prop}, (Hooked v ↔ P) → ∀ u (rc : ℤ),
      (do
        assert (flag = true)
        let k ← fastDequeue v cpuid t
        .ok (k, (0 : ℤ))) = .ok (u, rc) → (Hooked u ↔ P) := by
    intro v flag P hv u rc h
    obtain ⟨_, _, h⟩ := bind_eq_ok.mp h
    obtain ⟨w, hw, h⟩ := bind_eq_ok.mp h
    cases h
    exact (fastDequeue_sameLines hw).hooked_iff.trans hv
  have hasserts : ∀ (v : Kernel) (flag : Bool), OnlyAsserts (do
      assert (flag = true)
      let k ← fastDequeue v cpuid t
      .ok (k, (0 : ℤ))) := fun v flag =>
    (OnlyAsserts.assert _).bind fun _ _ =>
      (fastDequeue_onlyAsserts v cpuid t).bind fun _ _ => .ok _
  by_cases hstatus : status = 0
  · have haccept : Hooked (acceptIrq k (k.thread t).irq pos) :=
      (hooked_setHook hk hr _).mpr
        ((line_modify_iff hl hc pos.toNat (fun s => { s with ack := s.ack + 1 }) (fun _ => rfl) _
          ⟨hpos, hlt⟩).mpr hindex)
    rw [settle, if_pos hstatus, ok_bind]
    exact ⟨hasserts _ _, hfinish (iff_of_true haccept (.inl hstatus))⟩
  · have hdecline : Hooked (declineIrq k (k.thread t).irq pos) ↔
        (k.handlers (k.thread t).irq).index < (k.handlers (k.thread t).irq).count := by
      refine (hooked_setHook hk hr _).trans ((line_modify_iff hl hc pos.toNat
        (fun s => { s with nop := s.nop + 1 }) (fun _ => rfl) _ (hl.last hc)).trans ?_)
      omega
    have hdeclined : (declineIrq k (k.thread t).irq pos).handlers (k.thread t).irq =
        { k.handlers (k.thread t).irq with
          stubs := (k.handlers (k.thread t).irq).stubs.modify pos.toNat
            fun s => { s with nop := s.nop + 1 }
          index := (k.handlers (k.thread t).irq).index + 1 } :=
      (Kernel.handlers_setHook ..).trans (if_pos rfl)
    obtain ⟨ho, hsame⟩ := @offerNext_spec (declineIrq k (k.thread t).irq pos)
      (k.thread t).irq pos (by rw [hdeclined, List.length_modify, hl.count])
      (by rw [hdeclined]; exact hc) hpos cpuid interrupts
    rw [settle, if_neg hstatus]
    refine ⟨ho.bind fun r _ => hasserts r.1 r.2.2, fun u rc h => ?_⟩
    obtain ⟨⟨v, r⟩, hv, h⟩ := bind_eq_ok.mp h
    refine hfinish ((hsame v r hv).hooked_iff.trans (hdecline.trans ?_)) u rc h
    simp [hstatus, hcounts]

inductive IrqCall
  | request (hookMem stubsMem : Bool) (t : ℕ) (irq : ℤ)
  | release (hookMem stubsMem : Bool) (t : ℕ) (irq : ℤ)
  | fire (irq : ℤ)
  | complete (cpuid : ℤ) (t : ℕ) (interrupts : Bool) (status : ℤ)

namespace IrqCall

def Permitted (k : Kernel) : IrqCall → Prop
  | request _ _ t _ => (k.thread t).state = THREAD_SUSPENDED
  | release _ _ t irq => InRange irq ∧ Registered k irq t
  | fire irq => InRange irq
  | complete _ _ _ _ => True

def exec (k : Kernel) : IrqCall → Outcome Kernel
  | request hookMem stubsMem t irq => do
    let (k, _) ← requestIrq k hookMem stubsMem t irq
    .ok k
  | release hookMem stubsMem t irq => do
    let (k, _) ← releaseIrq k hookMem stubsMem t irq
    .ok k
  | fire irq => irqHandler k irq
  | complete cpuid t interrupts status => do
    let (k, _) ← irqComplete k cpuid t interrupts status
    .ok k

/-- Not a release that goes through while `last` is at the end of two handlers or more, and not a
refusal when as many have declined as there are handlers. -/
def Careful (k : Kernel) : IrqCall → Prop
  | release hookMem stubsMem _ irq =>
    hookMem = false ∨ ((k.handlers irq).count ≠ 1 ∧ stubsMem = false) ∨
      (k.handlers irq).last + 1 < (k.handlers irq).count ∨ (k.handlers irq).last = 0
  | complete _ t _ status => status = 0 ∨ ¬ Counts k t ∨
      (k.handlers (k.thread t).irq).index < (k.handlers (k.thread t).irq).count
  | _ => True

end IrqCall

def hookSystem : System Kernel IrqCall Fault where
  Init k := (∀ irq, InRange irq → k.handlers irq = ⟨0, 0, 0, 0, []⟩) ∧
    ∀ t, (k.thread t).irq = -1 ∧ (k.thread t).state ≠ THREAD_IRQ
  Guard k c := c.Permitted k
  step k c := c.exec k

theorem hooked_init {k : Kernel} (h : hookSystem.Init k) : Hooked k where
  line irq hr := by
    rw [h.1 irq hr]
    refine ⟨rfl, List.nodup_nil, fun t => ?_, fun h0 => absurd h0 (lt_irrefl 0),
      fun h0 => absurd h0 (lt_irrefl 0), fun _ => ⟨rfl, rfl⟩⟩
    exact iff_of_false (by simp) fun ht => (h.2 t).2 ht.1
  named t ht := by
    rw [(h.2 t).1] at ht
    exact absurd ht (by decide)

theorem onlyAsserts_fst {x : Outcome (Kernel × ℤ)} (h : OnlyAsserts x) :
    OnlyAsserts (do
      let (k, _) ← x
      .ok k) :=
  h.bind fun _ _ => .ok _

/-- A call keeps the hooks in order exactly if it is careful, and never leaves an array. -/
theorem Hooked.exec {k : Kernel} (hk : Hooked k) {c : IrqCall} (hc : c.Permitted k) :
    OnlyAsserts (c.exec k) ∧ ∀ u, c.exec k = .ok u → (Hooked u ↔ c.Careful k) := by
  cases c with
  | request hookMem stubsMem t irq =>
    obtain ⟨u, rc, he, hu⟩ := hk.request hookMem stubsMem hc irq
    rw [IrqCall.exec, he, ok_bind]
    exact ⟨.ok _, fun v h => by cases h; exact iff_of_true hu trivial⟩
  | release hookMem stubsMem t irq =>
    obtain ⟨u, rc, he, hu⟩ := hk.release hc.1 hc.2 hookMem stubsMem
    rw [IrqCall.exec, he, ok_bind]
    exact ⟨.ok _, fun v h => by cases h; exact hu⟩
  | fire irq =>
    obtain ⟨hasserts, hu⟩ := hk.fire hc
    exact ⟨hasserts, fun v h => iff_of_true (hu v h) trivial⟩
  | complete cpuid t interrupts status =>
    obtain ⟨hasserts, hu⟩ := hk.complete cpuid t interrupts status
    refine ⟨onlyAsserts_fst hasserts, fun v h => ?_⟩
    obtain ⟨⟨w, rc⟩, hw, h⟩ := bind_eq_ok.mp h
    cases h
    exact hu _ rc hw

theorem Hooked.ack {k : Kernel} (hk : Hooked k) (t : ℕ) {irq : ℤ} (hr : InRange irq)
    (hc : 0 < (k.handlers irq).count) : OnlyAsserts (irqAck k t irq) := by
  obtain ⟨pos, s, _, _, _, he⟩ := entitled_eq hk hr hc t
  rw [irqAck, if_neg (not_not.mpr hr), he, ok_bind]
  exact .ok _

/-- The hooks are in order after a call exactly if it was careful. In runs of careful calls they
are always, and no call, careful or not, then goes outside the stubs of a line. -/
theorem hook_invariant (k : Kernel) :
    (∀ (c : IrqCall) (u : Kernel), Hooked k → c.Permitted k → c.exec k = .ok u →
      (Hooked u ↔ c.Careful k)) ∧
    ∀ cs u, hookSystem.Init k → (hookSystem.restrict fun k c => c.Careful k).Steps k cs u →
      Hooked u ∧ (∀ c : IrqCall, c.Permitted u → OnlyAsserts (c.exec u)) ∧
      ∀ t irq, InRange irq → 0 < (u.handlers irq).count → OnlyAsserts (irqAck u t irq) := by
  refine ⟨fun c u hk hc he => (hk.exec hc).2 u he, fun cs u hk hr => ?_⟩
  have hu : Hooked u := hr.invariant
    (fun k c v hk hg hv => ((hk.exec hg.1).2 v hv).mpr hg.2) (hooked_init hk)
  exact ⟨hu, fun c hc => (hu.exec hc).1, fun t irq hr hc => hu.ack t hr hc⟩

/-- One CPU, no handlers, and every thread suspended. -/
def booted : Kernel where
  cpuCount := 1
  handlers _ := ⟨0, 0, 0, 0, []⟩
  masked _ := true
  thread t := ⟨t + 1, 0, THREAD_SUSPENDED, -1, -1, -1, 0⟩
  sched _ := ⟨fun _ => 0, 0, 0⟩

theorem booted_init : hookSystem.Init booted :=
  ⟨fun _ _ => rfl, fun _ => ⟨rfl, (by decide : THREAD_SUSPENDED ≠ THREAD_IRQ)⟩⟩

theorem inRange_one : InRange 1 := by decide

/-- Two handlers of one line. -/
def twoHandlers : List IrqCall := [.request true true 0 1, .request true true 1 1]

/-- The line fires, the first handler declines and the second accepts. -/
def secondAccepts : List IrqCall := [.fire 1, .complete 0 0 true 1, .complete 0 1 true 0]

/-- When the first handler is released then, `last` goes past the end, and the next interrupt
reads the stubs there. Two interrupts in a row for a single handler that declines both take
`index` past the end. -/
theorem last_leaves_stubs :
    (∃ u, hookSystem.Steps booted (twoHandlers ++ secondAccepts ++ [.release true true 0 1]) u ∧
      (u.handlers 1).count = 1 ∧ (u.handlers 1).last = 2 ∧
      irqHandler u 1 = .error .badAccess) ∧
    ∃ u, hookSystem.Steps booted [.request true true 0 1, .fire 1, .fire 1, .complete 0 0 true 1,
        .complete 0 0 true 1] u ∧ (u.handlers 1).count = 1 ∧ (u.handlers 1).index = 2 := by
  refine ⟨⟨_, .cons rfl rfl (.cons rfl rfl (.cons inRange_one rfl (.cons trivial rfl
    (.cons trivial rfl (.one ⟨inRange_one, rfl, rfl⟩ rfl))))), rfl, rfl, rfl⟩,
    ⟨_, .cons rfl rfl (.cons inRange_one rfl (.cons inRange_one rfl (.cons trivial rfl
      (.one trivial rfl)))), rfl, rfl⟩⟩

theorem hook_invariant_example : ∃ u : Kernel, (u.handlers 1).last = 1 ∧ Hooked u ∧
    OnlyAsserts (irqAck u 1 1) := by
  have hr : (hookSystem.restrict fun k c => c.Careful k).Steps booted
      (twoHandlers ++ secondAccepts) _ :=
    .cons ⟨rfl, trivial⟩ rfl (.cons ⟨rfl, trivial⟩ rfl (.cons ⟨inRange_one, trivial⟩ rfl
      (.cons ⟨trivial, .inr (.inr (by decide : (0 : ℤ) < 2))⟩ rfl (.one ⟨trivial, .inl rfl⟩ rfl))))
  obtain ⟨hu, -, hack⟩ := (hook_invariant booted).2 _ _ booted_init hr
  exact ⟨_, rfl, hu, hack 1 1 inRange_one (by decide : (0 : ℤ) < 2)⟩

end Racoon.Irq
