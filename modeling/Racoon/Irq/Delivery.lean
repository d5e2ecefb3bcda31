import Racoon.Irq.Controllers

/-!
# The lines that reach the processor

`request_irq` opens a line for its first handler and `release_irq` closes it after
the last, so that a line arrives exactly while some thread is registered for it.
Without an IO APIC the lines from 8 on depend on line 2 as well, which is open from
the start but closes with the last of its own handlers.
-/

namespace Racoon.Irq
open Lib

structure Platform where
  kernel : Kernel
  hardware : Hardware

/-- The calls with what they write to the controllers. -/
def Platform.exec (s : Platform) : IrqCall → Outcome Platform
  | .request hookMem stubsMem t irq => do
    let (k, rc) ← requestIrq s.kernel hookMem stubsMem t irq
    .ok ⟨k, if rc = 0 ∧ (k.handlers irq).count = 1 then s.hardware.unmask irq.toNat
      else s.hardware⟩
  | .release hookMem stubsMem t irq => do
    let (k, rc) ← releaseIrq s.kernel hookMem stubsMem t irq
    .ok ⟨k, if rc = 0 ∧ (k.handlers irq).count = 0 then s.hardware.mask irq.toNat
      else s.hardware⟩
  | .fire irq => do
    let k ← irqHandler s.kernel irq
    .ok ⟨k, if irq = 0 then s.hardware.ack 0 else s.hardware⟩
  | .complete cpuid t interrupts status => do
    let (k, _) ← irqComplete s.kernel cpuid t interrupts status
    .ok ⟨k, s.hardware⟩

/-- From the boot on, with the chips and the registers in any state before it. -/
def platform : System Platform IrqCall Fault where
  Init s := hookSystem.Init s.kernel ∧
    ∃ h a b, h.pics.irqMask = 0xFFFF - 4 ∧ s.hardware = Hardware.boot h a b
  Guard s c := c.Permitted s.kernel
  step s c := s.exec c

def Attended (k : Kernel) (n : ℕ) : Prop := ∃ t, Registered k n t

variable {k u : Kernel} {irq : ℤ} {t : ℕ}

/-- The hooks with `last` and `index` forgotten, which a careless call may put out of range. -/
def Kernel.rewound (k : Kernel) : Kernel :=
  { k with handlers := fun i => { k.handlers i with last := 0, index := 0 } }

/-- Each hook holds the stubs of the threads registered for its line. -/
def Lined (k : Kernel) : Prop := Hooked k.rewound

/-- The same handlers on every line. -/
structure Alike (k u : Kernel) : Prop where
  count : ∀ i, (u.handlers i).count = (k.handlers i).count
  threads : ∀ i, (u.handlers i).stubs.map IrqStub.tr = (k.handlers i).stubs.map IrqStub.tr
  state : ∀ t, (u.thread t).state = (k.thread t).state
  irq : ∀ t, (u.thread t).irq = (k.thread t).irq

theorem SameLines.alike (h : SameLines k u) : Alike k u :=
  ⟨fun i => by rw [h.handlers], fun i => by rw [h.handlers], h.state, h.irq⟩

namespace Alike

theorem refl (k : Kernel) : Alike k k :=
  ⟨fun _ => rfl, fun _ => rfl, fun _ => rfl, fun _ => rfl⟩

theorem trans {v : Kernel} (h : Alike k u) (h' : Alike u v) : Alike k v :=
  ⟨fun i => (h'.count i).trans (h.count i), fun i => (h'.threads i).trans (h.threads i),
    fun t => (h'.state t).trans (h.state t), fun t => (h'.irq t).trans (h.irq t)⟩

theorem setHook {h : IrqHook} (hc : h.count = (k.handlers irq).count)
    (hs : h.stubs.map IrqStub.tr = (k.handlers irq).stubs.map IrqStub.tr) :
    Alike k (k.setHook irq h) := by
  refine ⟨fun i => ?_, fun i => ?_, fun _ => rfl, fun _ => rfl⟩
  all_goals
    rw [Kernel.handlers_setHook]
    split_ifs with hi
    · subst hi
      assumption
    · rfl

theorem registered_iff (h : Alike k u) (i : ℤ) (t : ℕ) : Registered u i t ↔ Registered k i t := by
  rw [Registered, Registered, h.state, h.irq]

theorem lined (h : Alike k u) (hk : Lined k) : Lined u := by
  refine ⟨fun i hi => ?_, fun t ht => ?_⟩
  · have hl := hk.line i hi
    have hlen : ((u.handlers i).stubs.length : ℤ) = (k.handlers i).stubs.length := by
      rw [← List.length_map (f := IrqStub.tr), h.threads, List.length_map]
    refine ⟨?_, ?_, fun t => ?_, fun hc => ⟨le_rfl, hc⟩, fun hc => ⟨le_rfl, hc.le⟩,
      fun _ => ⟨rfl, rfl⟩⟩
    · exact (h.count i).trans (hl.count.trans hlen.symm)
    · exact (h.threads i).symm ▸ hl.once
    · exact (h.threads i ▸ hl.members t).trans (h.registered_iff i t).symm
  · exact (h.state t).trans (hk.named t (h.irq t ▸ ht))

end Alike

theorem Lined.count_pos_iff (hk : Lined k) {n : ℕ} (hn : n < 24) :
    0 < (k.handlers n).count ↔ Attended k n := by
  have hr : InRange n := ⟨by omega, by unfold IRQ_COUNT; omega⟩
  have hl := hk.line n hr
  refine ⟨fun hc => ?_, fun ⟨t, ht⟩ => hl.count_pos ht⟩
  have hne : (k.handlers n).stubs ≠ [] := by
    intro he
    have hzero := hl.count
    simp only [Kernel.rewound, he, List.length_nil, Nat.cast_zero] at hzero
    omega
  obtain ⟨s, hs⟩ := List.exists_mem_of_ne_nil _ hne
  exact ⟨s.tr, (hl.members s.tr).mp (List.mem_map.mpr ⟨s, hs, rfl⟩)⟩

theorem Lined.count_nonneg (hk : Lined k) {n : ℕ} (hn : n < 24) : 0 ≤ (k.handlers n).count := by
  have hl := hk.line n ⟨by omega, by unfold IRQ_COUNT; omega⟩
  exact hl.count ▸ Int.natCast_nonneg _

theorem irqHandler_alike (h : irqHandler k irq = .ok u) : Alike k u := by
  rw [irqHandler] at h
  split_ifs at h with h0
  · cases h
    exact .refl k
  have hhook : Alike k (k.setHook irq
      { k.handlers irq with raised := (k.handlers irq).raised + 1, index := 0 }) :=
    .setHook rfl rfl
  dsimp only at h
  split_ifs at h with hc
  · cases h
    exact hhook
  · obtain ⟨_, _, h⟩ := bind_eq_ok.mp h
    obtain ⟨_, _, h⟩ := bind_eq_ok.mp h
    exact hhook.trans (fastQueue_sameLines h).alike

theorem settle_alike {cpuid pos status : ℤ} {interrupts : Bool} {r : ℤ × Bool}
    (h : settle k cpuid interrupts irq pos status = .ok (u, r)) : Alike k u := by
  rw [settle] at h
  split_ifs at h with hs
  · cases h
    exact .setHook rfl (map_tr_modify _ _ _ fun _ => rfl)
  · have hdecline : Alike k (declineIrq k irq pos) :=
      .setHook rfl (map_tr_modify _ _ _ fun _ => rfl)
    rw [offerNext] at h
    dsimp only at h
    split_ifs at h with hlt
    · obtain ⟨⟨v, next⟩, hv, h⟩ := bind_eq_ok.mp h
      cases h
      rw [askNext] at hv
      obtain ⟨_, _, hv⟩ := bind_eq_ok.mp hv
      obtain ⟨_, _, hv⟩ := bind_eq_ok.mp hv
      obtain ⟨w, hw, hv⟩ := bind_eq_ok.mp hv
      cases hv
      exact hdecline.trans (fastQueue_sameLines hw).alike
    · cases h
      exact hdecline

theorem irqComplete_alike {cpuid status rc : ℤ} {interrupts : Bool}
    (h : irqComplete k cpuid t interrupts status = .ok (u, rc)) : Alike k u := by
  rw [irqComplete] at h
  split_ifs at h with hr
  · obtain ⟨o, ho, h⟩ := bind_eq_ok.mp h
    cases o with
    | none =>
      cases h
      exact .refl k
    | some pos =>
      obtain ⟨⟨v, r⟩, hv, h⟩ := bind_eq_ok.mp h
      obtain ⟨_, _, h⟩ := bind_eq_ok.mp h
      obtain ⟨w, hw, h⟩ := bind_eq_ok.mp h
      cases h
      exact (settle_alike hv).trans (fastDequeue_sameLines hw).alike
  · cases h
    exact .refl k

theorem rewound_setHook (k : Kernel) (irq : ℤ) (h : IrqHook) :
    (k.setHook irq h).rewound = k.rewound.setHook irq { h with last := 0, index := 0 } := by
  have he : (fun i => { (k.setHook irq h).handlers i with last := 0, index := 0 }) =
      (k.rewound.setHook irq { h with last := 0, index := 0 }).handlers := by
    funext i
    rw [Kernel.handlers_setHook, Kernel.handlers_setHook]
    split_ifs <;> rfl
  rw [Kernel.rewound, he]
  rfl

/-- A change of one hook and of the thread it is made for. -/
theorem Lined.setHook (hk : Lined k) (masked : ℤ → Bool) (hr : InRange irq) {h : IrqHook}
    {tr : Thread} (hold : ∀ i, i ≠ irq → ¬ Registered k i t)
    (hnew : ∀ i, InRange i → i ≠ irq → tr.irq ≠ i) (hnamed : InRange tr.irq → tr.state = THREAD_IRQ)
    (hcount : h.count = h.stubs.length) (honce : (h.stubs.map IrqStub.tr).Nodup)
    (hmem : ∀ x, x ∈ h.stubs.map IrqStub.tr ↔
      if x = t then tr.state = THREAD_IRQ ∧ tr.irq = irq else Registered k irq x) :
    Lined ((({ k with masked := masked }).setHook irq h).setThread t tr) := by
  have hl : Line { h with last := 0, index := 0 } fun x =>
      if x = t then tr.state = THREAD_IRQ ∧ tr.irq = irq else Registered k.rewound irq x :=
    ⟨hcount, honce, hmem, fun hc => ⟨le_rfl, hc⟩, fun hc => ⟨le_rfl, hc.le⟩, fun _ => ⟨rfl, rfl⟩⟩
  have hu := (hooked_setHook_iff hk masked hr _ hold hnew hnamed).mpr hl
  have he := rewound_setHook { k with masked := masked } irq h
  rw [Lined]
  change Hooked ((({ k with masked := masked }).setHook irq h).rewound.setThread t tr)
  rw [he]
  exact hu

theorem requestIrq_lined {hookMem stubsMem : Bool} {rc : ℤ} (hk : Lined k)
    (ht : (k.thread t).state = THREAD_SUSPENDED)
    (h : requestIrq k hookMem stubsMem t irq = .ok (u, rc)) :
    u = k ∧ rc = -1 ∨ InRange irq ∧ rc = 0 ∧ Lined u ∧
      ∀ i, (u.handlers i).count = (k.handlers i).count + if i = irq then 1 else 0 := by
  rw [requestIrq] at h
  by_cases hr : InRange irq
  swap
  · rw [if_pos hr] at h
    cases h
    exact .inl ⟨rfl, rfl⟩
  rw [if_neg (not_not.mpr hr), if_neg (not_not.mpr ht)] at h
  cases hookMem with
  | false =>
    cases h
    exact .inl ⟨rfl, rfl⟩
  | true =>
    cases stubsMem with
    | false =>
      cases h
      exact .inl ⟨rfl, rfl⟩
    | true =>
      have hl := hk.line irq hr
      have hc : (k.handlers irq).count = (k.handlers irq).stubs.length := hl.count
      have hno : ∀ i, ¬ Registered k i t := fun i hi => by
        have hstate := hi.1.symm.trans ht
        cases hstate
      simp only [Bool.true_eq_false, if_false, copyStubs_eq hc, ok_bind] at h
      cases h
      refine .inr ⟨hr, rfl, hk.setHook _ hr (fun i _ => hno i) (fun i _ hi => hi.symm)
        (fun _ => rfl) (by simp [hc]) ?_ fun x => ?_, fun i => ?_⟩
      · rw [List.map_append, List.nodup_append]
        refine ⟨hl.once, List.nodup_singleton _, fun x hx y hy he => hno irq ?_⟩
        obtain rfl : y = t := List.mem_singleton.mp hy
        exact (hl.members y).mp (he ▸ hx)
      · have hx := hl.members x
        rw [List.map_append, List.mem_append]
        by_cases he : x = t
        · simp [he]
        · rw [if_neg he]
          exact (or_iff_left (by simp [he])).trans hx
      · simp only [Kernel.setThread, Kernel.handlers_setHook]
        by_cases hi : i = irq
        · rw [if_pos hi, if_pos hi, hi]
        · rw [if_neg hi, if_neg hi, add_zero]

theorem releaseIrq_lined {hookMem stubsMem : Bool} {rc : ℤ} (hk : Lined k) (hr : InRange irq)
    (ht : Registered k irq t) (h : releaseIrq k hookMem stubsMem t irq = .ok (u, rc)) :
    u = k ∧ rc = -1 ∨ rc = 0 ∧ Lined u ∧
      ∀ i, (u.handlers i).count = (k.handlers i).count - if i = irq then 1 else 0 := by
  rw [releaseIrq, if_neg (not_not.mpr hr)] at h
  split_ifs at h with hm hs
  · cases h
    exact .inl ⟨rfl, rfl⟩
  · cases h
    exact .inl ⟨rfl, rfl⟩
  · have hl := hk.line irq hr
    have hw : withoutStub k t irq = .ok (1, (k.handlers irq).stubs.filter fun s => s.tr ≠ t) :=
      withoutStub_eq (k := k.rewound) hl ht
    obtain ⟨-, hlen⟩ := hl.filter_length ht
    simp only [hw, ok_bind, one_ne_zero, if_false, assert_of] at h
    cases h
    refine .inr ⟨rfl, hk.setHook _ hr (fun i hi hreg => hi ?_) (fun i hi _ he => ?_)
      (fun hin => ?_) hlen.symm ?_ fun x => ?_, fun i => ?_⟩
    · exact hreg.2.symm.trans ht.2
    · have he : -1 = i := he
      rw [← he] at hi
      exact absurd hi (by decide)
    · have hin : InRange (-1) := hin
      exact absurd hin (by decide)
    · exact hl.once.sublist (List.filter_sublist.map _)
    · have hx := hl.members x
      rw [List.mem_map] at hx ⊢
      by_cases he : x = t
      · subst he
        rw [if_pos rfl]
        refine iff_of_false ?_ fun h => (by decide : THREAD_SUSPENDED ≠ THREAD_IRQ) h.1
        rintro ⟨s, hs, he⟩
        rw [List.mem_filter] at hs
        exact absurd he (by simpa using hs.2)
      · rw [if_neg he]
        refine Iff.trans (exists_congr fun s => ?_) hx
        rw [List.mem_filter]
        constructor
        · rintro ⟨hs, hst⟩
          exact ⟨hs.1, hst⟩
        · rintro ⟨hs, hst⟩
          exact ⟨⟨hs, by simpa [hst] using he⟩, hst⟩
    · simp only [Kernel.setThread, Kernel.handlers_setHook]
      by_cases hi : i = irq
      · rw [if_pos hi, if_pos hi, hi]
      · rw [if_neg hi, if_neg hi, sub_zero]

/-- The masks agree with the handlers, but for line 2 of the 8259 as long as it has never had one:
`opened` says that it has. -/
structure Follows (s : Platform) (opened : Prop) : Prop where
  lined : Lined s.kernel
  cascade : 0 < (s.kernel.handlers 2).count → opened
  masks : ∃ m, s.hardware.Masks m ∧ ∀ n < 24, s.hardware.usingIOAPIC = true ∨ n < 16 →
    (m n = true ↔ (s.kernel.handlers n).count = 0 ∧
      (s.hardware.usingIOAPIC = true ∨ n ≠ 2 ∨ opened))

namespace Follows
variable {s v : Platform} {opened : Prop} {h : Hardware} {m m' : ℕ → Bool}

theorem init (hs : platform.Init s) : Follows s False := by
  obtain ⟨hinit, h, a, b, hmask, hh⟩ := hs
  have hzero : ∀ n < 24, (s.kernel.handlers (n : ℕ)).count = 0 := fun n hn => by
    rw [hinit.1 n ⟨by omega, by unfold IRQ_COUNT; omega⟩]
  have hlined : Lined s.kernel := by
    have hk := hooked_init hinit
    refine ⟨fun i hi => ?_, hk.named⟩
    have hl := hk.line i hi
    exact ⟨hl.count, hl.once, hl.members, fun hc => ⟨le_rfl, hc⟩, fun hc => ⟨le_rfl, hc.le⟩,
      fun _ => ⟨rfl, rfl⟩⟩
  refine ⟨hlined, fun hpos => ?_, _, hh ▸ Hardware.Masks.boot h hmask a b, fun n hn hline => ?_⟩
  · have htwo := hzero 2 (by omega)
    rw [Nat.cast_ofNat] at htwo
    omega
  · rw [hh] at hline ⊢
    simp only [Bool.or_eq_true, decide_eq_true_eq, hzero n hn, true_and]
    constructor
    · exact Or.imp_right fun hne => .inl hne.2
    · rintro (hio | hne | hno)
      · exact .inl hio
      · exact hline.imp_right fun h16 => ⟨h16, hne⟩
      · exact hno.elim

/-- New handlers of one line with a mask that agrees with them. -/
theorem update (hu : Lined u)
    (hcount : ∀ i, i ≠ irq → (u.handlers i).count = (s.kernel.handlers i).count)
    (hio : h.usingIOAPIC = s.hardware.usingIOAPIC)
    (hold : ∀ n < 24, s.hardware.usingIOAPIC = true ∨ n < 16 →
      (m n = true ↔ (s.kernel.handlers n).count = 0 ∧
        (s.hardware.usingIOAPIC = true ∨ n ≠ 2 ∨ opened)))
    (hm : h.Masks m') (hother : ∀ n : ℕ, (n : ℤ) ≠ irq → m' n = m n)
    (hself : s.hardware.usingIOAPIC = true ∨ irq.toNat < 16 →
      (m' irq.toNat = true ↔ (u.handlers irq).count = 0))
    (hclosed : (u.handlers irq).count = 0 → irq = 2 → opened) :
    Follows ⟨u, h⟩ (opened ∨ 0 < (u.handlers 2).count) := by
  refine ⟨hu, .inr, m', hm, fun n hn hline => ?_⟩
  dsimp only at hline ⊢
  rw [hio] at hline ⊢
  by_cases hi : (n : ℤ) = irq
  · obtain rfl : irq.toNat = n := by omega
    rw [hself hline, hi]
    refine ⟨fun hz => ⟨hz, .inr ?_⟩, And.left⟩
    by_cases htwo : irq.toNat = 2
    · exact .inr (.inl (hclosed hz (by omega)))
    · exact .inl htwo
  · rw [hother n hi, hold n hn hline, hcount n hi]
    refine and_congr_right fun hz => or_congr_right (or_congr_right' fun htwo => ?_)
    obtain rfl : n = 2 := not_not.mp htwo
    have hz' : (u.handlers 2).count = 0 := (hcount 2 hi).trans hz
    rw [hz', or_iff_left (lt_irrefl 0)]

theorem of_alike (hs : Follows s opened) (hu : Alike s.kernel u) :
    Follows ⟨u, s.hardware⟩ (opened ∨ 0 < (u.handlers 2).count) := by
  obtain ⟨m, hm, hold⟩ := hs.masks
  refine ⟨hu.lined hs.lined, .inr, m, hm, fun n hn hline => ?_⟩
  have hflag : opened ∨ 0 < (u.handlers 2).count ↔ opened := by
    rw [hu.count 2]
    exact or_iff_left_of_imp hs.cascade
  dsimp only
  rw [hold n hn hline, hu.count n, hflag]

theorem step {c : IrqCall} (hs : Follows s opened) (hc : c.Permitted s.kernel)
    (he : s.exec c = .ok v) : Follows v (opened ∨ 0 < (v.kernel.handlers 2).count) ∧
      v.hardware.usingIOAPIC = s.hardware.usingIOAPIC := by
  obtain ⟨m, hm, hold⟩ := hs.masks
  cases c with
  | request hookMem stubsMem t irq =>
    obtain ⟨⟨k, rc⟩, hk, he⟩ := bind_eq_ok.mp he
    cases he
    rcases requestIrq_lined hs.lined hc hk with ⟨rfl, rfl⟩ | ⟨hr, rfl, hlined, hcount⟩
    · exact ⟨hs.of_alike (.refl _), rfl⟩
    obtain ⟨n, rfl⟩ := Int.eq_ofNat_of_zero_le hr.1
    have hn : n < 24 := by have := hr.2; unfold IRQ_COUNT at this; omega
    have hnonneg := hs.lined.count_nonneg hn
    have hnew := hcount n
    rw [if_pos rfl] at hnew
    have hrest : ∀ i : ℤ, i ≠ n → (k.handlers i).count = (s.kernel.handlers i).count :=
      fun i hi => by rw [hcount, if_neg hi, add_zero]
    dsimp only
    by_cases hone : (k.handlers n).count = 1
    · rw [if_pos ⟨rfl, hone⟩]
      have hio := (s.hardware.usingIOAPIC_mask n).2
      refine ⟨update hlined hrest hio hold (hm.unmask) (fun i hi => ?_) (fun _ => ?_)
        (fun hz => by omega), hio⟩
      · exact Function.update_of_ne (by simpa using hi) _ _
      · rw [Int.toNat_natCast, Function.update_self]
        exact iff_of_false (by decide) (by omega)
    · rw [if_neg fun h => hone h.2]
      refine ⟨update hlined hrest rfl hold hm (fun _ _ => rfl) (fun hline => ?_)
        (fun hz => by omega), rfl⟩
      rw [Int.toNat_natCast] at hline ⊢
      rw [hold n hn hline]
      exact iff_of_false (fun h => by omega) (by omega)
  | release hookMem stubsMem t irq =>
    obtain ⟨⟨k, rc⟩, hk, he⟩ := bind_eq_ok.mp he
    cases he
    obtain ⟨hr, hreg⟩ := hc
    rcases releaseIrq_lined hs.lined hr hreg hk with ⟨rfl, rfl⟩ | ⟨rfl, hlined, hcount⟩
    · exact ⟨hs.of_alike (.refl _), rfl⟩
    obtain ⟨n, rfl⟩ := Int.eq_ofNat_of_zero_le hr.1
    have hn : n < 24 := by have := hr.2; unfold IRQ_COUNT at this; omega
    have hpos := (hs.lined.count_pos_iff hn).mpr ⟨t, hreg⟩
    have hnew := hcount n
    rw [if_pos rfl] at hnew
    have hrest : ∀ i : ℤ, i ≠ n → (k.handlers i).count = (s.kernel.handlers i).count :=
      fun i hi => by rw [hcount, if_neg hi, sub_zero]
    have htwo : (n : ℤ) = 2 → opened := fun h => hs.cascade (h ▸ hpos)
    dsimp only
    by_cases hzero : (k.handlers n).count = 0
    · rw [if_pos ⟨rfl, hzero⟩]
      have hio := (s.hardware.usingIOAPIC_mask n).1
      refine ⟨update hlined hrest hio hold hm.mask (fun i hi => ?_) (fun _ => ?_)
        (fun _ => htwo), hio⟩
      · exact Function.update_of_ne (by simpa using hi) _ _
      · rw [Int.toNat_natCast, Function.update_self]
        exact iff_of_true rfl hzero
    · rw [if_neg fun h => hzero h.2]
      refine ⟨update hlined hrest rfl hold hm (fun _ _ => rfl) (fun hline => ?_)
        (fun _ => htwo), rfl⟩
      rw [Int.toNat_natCast] at hline ⊢
      rw [hold n hn hline]
      exact iff_of_false (fun h => by omega) hzero
  | fire irq =>
    obtain ⟨k, hk, he⟩ := bind_eq_ok.mp he
    cases he
    rw [Hardware.ack_eq, ite_self]
    exact ⟨hs.of_alike (irqHandler_alike hk), rfl⟩
  | complete cpuid t interrupts status =>
    obtain ⟨⟨k, rc⟩, hk, he⟩ := bind_eq_ok.mp he
    cases he
    exact ⟨hs.of_alike (irqComplete_alike hk), rfl⟩

/-- `opened` for a run: line 2 has had a handler at some point of it. -/
theorem run {cs : List IrqCall} (hs : platform.Init s) (hr : platform.Steps s cs v) :
    Follows v (∃ js w, js <+: cs ∧ platform.Steps s js w ∧ 0 < (w.kernel.handlers 2).count) ∧
      v.hardware.usingIOAPIC = s.hardware.usingIOAPIC := by
  induction hr with
  | nil =>
    have h0 := init hs
    refine ⟨?_, rfl⟩
    have hflag : (∃ js w, js <+: [] ∧ platform.Steps s js w ∧ 0 < (w.kernel.handlers 2).count) ↔
        False := by
      refine iff_of_false ?_ id
      rintro ⟨js, w, hjs, hw, hpos⟩
      obtain rfl := List.prefix_nil.mp hjs
      obtain rfl := hw.of_nil
      exact h0.cascade hpos
    rwa [hflag]
  | @snoc u v cs c hu hg he ih =>
    obtain ⟨hv, hio⟩ := ih.1.step hg he
    refine ⟨?_, hio.trans ih.2⟩
    have hflag : (∃ js w, js <+: cs ++ [c] ∧ platform.Steps s js w ∧
        0 < (w.kernel.handlers 2).count) ↔
        (∃ js w, js <+: cs ∧ platform.Steps s js w ∧ 0 < (w.kernel.handlers 2).count) ∨
          0 < (v.kernel.handlers 2).count := by
      constructor
      · rintro ⟨js, w, hjs, hw, hpos⟩
        rcases List.prefix_concat_iff.mp hjs with rfl | hjs
        · exact .inr (hw.unique (hu.snoc hg he) ▸ hpos)
        · exact .inl ⟨js, w, hjs, hw, hpos⟩
      · rintro (⟨js, w, hjs, hw, hpos⟩ | hpos)
        · exact ⟨js, w, hjs.trans (List.prefix_append cs [c]), hw, hpos⟩
        · exact ⟨_, v, List.prefix_refl _, hu.snoc hg he, hpos⟩
    rwa [hflag]

end Follows

/-- A machine with two 8259 and nothing hooked. -/
def twoChips : Platform where
  kernel := booted
  hardware := Hardware.boot ⟨false, ⟨0xFFFF - 4, ⟨0, 0, 0, 0⟩, ⟨0, 0, 0, 0⟩⟩, ⟨0, fun _ => 0⟩⟩ 0 0

theorem twoChips_init : platform.Init twoChips := ⟨booted_init, _, 0, 0, rfl, rfl⟩

end Racoon.Irq
