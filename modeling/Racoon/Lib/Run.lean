import Mathlib.Tactic

/-!
# Guarded systems and their runs

A system answers an input, when its guard lets the input through, by a next
state or by a fault. Everything the environment may choose (the outcome of an
allocation, the thread that moves next) is part of the input, so that a run is
a list of inputs and the step is a function. An invariant is proved once for
the initial states and once for a step; the run rules carry it to every state
reached and show that no permitted step faults.
-/

namespace Racoon.Lib

structure System (σ ι ε : Type*) where
  Init : σ → Prop
  Guard : σ → ι → Prop
  step : σ → ι → Except ε σ

namespace System
variable {σ ι ε : Type*} (S : System σ ι ε)

/-- `Steps s is t`: the inputs `is`, each permitted when it comes, lead from `s` to `t`. -/
inductive Steps : σ → List ι → σ → Prop
  | nil (s : σ) : Steps s [] s
  | snoc {s t u : σ} {is : List ι} {i : ι} :
      Steps s is t → S.Guard t i → S.step t i = .ok u → Steps s (is ++ [i]) u

def Reach (t : σ) : Prop := ∃ s is, S.Init s ∧ S.Steps s is t

/-- What one step must do for `P` to hold along every run: a permitted input does not fault
in a state of `P` and leads to a state of `P`. -/
def Preserves (P : σ → Prop) : Prop :=
  ∀ s i, P s → S.Guard s i → ∃ t, S.step s i = .ok t ∧ P t

variable {S}

theorem Reach.of_init {s : σ} (h : S.Init s) : S.Reach s := ⟨s, [], h, .nil s⟩

theorem Reach.step {s t : σ} {i : ι} (h : S.Reach s) (hg : S.Guard s i)
    (hs : S.step s i = .ok t) : S.Reach t := by
  obtain ⟨s₀, is, h₀, hr⟩ := h
  exact ⟨s₀, is ++ [i], h₀, hr.snoc hg hs⟩

theorem Steps.one {s t : σ} {i : ι} (hg : S.Guard s i) (hs : S.step s i = .ok t) :
    S.Steps s [i] t :=
  Steps.snoc (.nil s) hg hs

theorem Steps.trans {s t u : σ} {is js : List ι} (h : S.Steps s is t) (h' : S.Steps t js u) :
    S.Steps s (is ++ js) u := by
  induction h' with
  | nil => simpa using h
  | snoc _ hg hs ih => simpa only [List.append_assoc] using ih.snoc hg hs

theorem Steps.cons {s t u : σ} {i : ι} {is : List ι} (hg : S.Guard s i) (hs : S.step s i = .ok t)
    (h : S.Steps t is u) : S.Steps s (i :: is) u :=
  (Steps.one hg hs).trans h

theorem Steps.of_nil {s t : σ} (h : S.Steps s [] t) : t = s := by
  generalize hjs : ([] : List ι) = js at h
  cases h with
  | nil => rfl
  | snoc => simp at hjs

theorem Steps.of_snoc {s u : σ} {is : List ι} {i : ι} (h : S.Steps s (is ++ [i]) u) :
    ∃ t, S.Steps s is t ∧ S.Guard t i ∧ S.step t i = .ok u := by
  generalize hjs : is ++ [i] = js at h
  cases h with
  | nil => simp at hjs
  | snoc h hg hs =>
    obtain ⟨rfl, hi⟩ := List.append_inj' hjs rfl
    cases hi
    exact ⟨_, h, hg, hs⟩

theorem Steps.of_append {s u : σ} {is js : List ι} (h : S.Steps s (is ++ js) u) :
    ∃ t, S.Steps s is t ∧ S.Steps t js u := by
  induction js using List.reverseRecOn generalizing u with
  | nil => exact ⟨u, List.append_nil is ▸ h, .nil u⟩
  | append_singleton js i ih =>
    rw [← List.append_assoc] at h
    obtain ⟨v, hv, hg, hs⟩ := h.of_snoc
    obtain ⟨t, ht, htv⟩ := ih hv
    exact ⟨t, ht, htv.snoc hg hs⟩

/-- The inputs determine the state. -/
theorem Steps.unique {s t u : σ} {is : List ι} (h : S.Steps s is t) (h' : S.Steps s is u) :
    t = u := by
  induction h generalizing u with
  | nil => exact h'.of_nil.symm
  | snoc _ _ hs ih =>
    obtain ⟨v, hv, -, hu⟩ := h'.of_snoc
    rw [← ih hv, hs] at hu
    exact Except.ok.inj hu

theorem Steps.invariant {P : σ → Prop} (hP : ∀ s i t, P s → S.Guard s i → S.step s i = .ok t → P t)
    {s t : σ} {is : List ι} (h : S.Steps s is t) (hs : P s) : P t := by
  induction h with
  | nil => exact hs
  | snoc _ hg ht ih => exact hP _ _ _ ih hg ht

theorem Steps.preserves {P : σ → Prop} (hP : S.Preserves P) {s t : σ} {is : List ι}
    (h : S.Steps s is t) (hs : P s) : P t := by
  refine h.invariant (fun s i t hs hg ht => ?_) hs
  obtain ⟨u, hu, hPu⟩ := hP s i hs hg
  rw [ht] at hu
  cases hu
  exact hPu

/-- Inputs that are permitted whenever they come make a run. -/
theorem Preserves.steps {P : σ → Prop} (hP : S.Preserves P) {s : σ} (hs : P s) {is : List ι}
    (hg : ∀ t, ∀ i ∈ is, P t → S.Guard t i) : ∃ t, S.Steps s is t := by
  induction is generalizing s with
  | nil => exact ⟨s, .nil s⟩
  | cons i is ih =>
    have hi := hg s i List.mem_cons_self hs
    obtain ⟨u, hu, hPu⟩ := hP s i hs hi
    obtain ⟨t, ht⟩ := ih hPu fun t j hj => hg t j (List.mem_cons_of_mem i hj)
    exact ⟨t, .cons hi hu ht⟩

theorem Reach.invariant {P : σ → Prop} (h₀ : ∀ s, S.Init s → P s) (hP : S.Preserves P) {t : σ}
    (h : S.Reach t) : P t := by
  obtain ⟨s, is, hs, hr⟩ := h
  exact hr.preserves hP (h₀ s hs)

/-- The runs of `S` all of whose steps meet `C`. -/
def restrict (S : System σ ι ε) (C : σ → ι → Prop) : System σ ι ε where
  Init := S.Init
  Guard s i := S.Guard s i ∧ C s i
  step := S.step

theorem Steps.of_restrict {C : σ → ι → Prop} {s t : σ} {is : List ι}
    (h : (S.restrict C).Steps s is t) : S.Steps s is t := by
  induction h with
  | nil => exact .nil s
  | snoc _ hg hs ih => exact ih.snoc hg.1 hs

theorem Reach.of_restrict {C : σ → ι → Prop} {t : σ} (h : (S.restrict C).Reach t) : S.Reach t := by
  obtain ⟨s, is, h₀, hr⟩ := h
  exact ⟨s, is, h₀, hr.of_restrict⟩

/-- A property holds at every point of a run exactly if each input of it meets `C`, when `C` says
which inputs the property survives. -/
theorem Steps.restrict_iff {C : σ → ι → Prop} {I : σ → Prop} {P : σ → List ι → Prop} {s t : σ}
    {is : List ι} (h : S.Steps s is t) (hI : I s) (hP : P s [])
    (hstep : ∀ u v js i, I u → S.Guard u i → S.step u i = .ok v →
      I v ∧ (P u js → (P v (js ++ [i]) ↔ C u i))) :
    (∀ js u, js <+: is → S.Steps s js u → P u js) ↔ (S.restrict C).Steps s is t := by
  have hinv : ∀ {js u}, S.Steps s js u → I u :=
    fun h => h.invariant (fun u i v hu hg hs => (hstep u v [] i hu hg hs).1) hI
  constructor
  · intro hall
    induction h with
    | nil => exact .nil s
    | @snoc u v is i hu hg hs ih =>
      have hPu := hall is u (List.prefix_append is [i]) hu
      have hPv := hall (is ++ [i]) v (List.prefix_refl _) (hu.snoc hg hs)
      have hC := ((hstep u v is i (hinv hu) hg hs).2 hPu).mp hPv
      exact (ih fun js w hjs => hall js w (hjs.trans (List.prefix_append is [i]))).snoc ⟨hg, hC⟩ hs
  · intro hr
    clear h
    induction hr with
    | nil =>
      intro js u hjs hu
      obtain rfl := List.prefix_nil.mp hjs
      rw [hu.of_nil]
      exact hP
    | @snoc u v is i hu hg hs ih =>
      intro js w hjs hw
      rcases List.prefix_concat_iff.mp hjs with rfl | hjs
      · obtain ⟨u', hu', -, hs'⟩ := hw.of_snoc
        obtain rfl := hu.of_restrict.unique hu'
        exact ((hstep u w is i (hinv hu') hg.1 hs').2 (ih is u (List.prefix_refl is) hu')).mpr hg.2
      · exact ih js w hjs hw

/-- The property holds at every point of the run. -/
def Along (S : System σ ι ε) (P : σ → Prop) (s : σ) (is : List ι) : Prop :=
  ∀ js u, js <+: is → S.Steps s js u → P u

theorem Along.nil {P : σ → Prop} {s : σ} (h : P s) : S.Along P s [] := by
  intro js u hjs hu
  obtain rfl := List.prefix_nil.mp hjs
  rwa [hu.of_nil]

theorem Along.snoc {P : σ → Prop} {s t u : σ} {is : List ι} {i : ι} (h : S.Along P s is)
    (ht : S.Steps s is t) (hu : S.step t i = .ok u) (hP : P u) : S.Along P s (is ++ [i]) := by
  intro js v hjs hv
  rcases List.prefix_concat_iff.mp hjs with rfl | hjs
  · obtain ⟨t', ht', -, hv⟩ := hv.of_snoc
    rw [← ht.unique ht', hu] at hv
    cases hv
    exact hP
  · exact h js v hjs hv

/-- A potential that no input raises and each marked one lowers: a run with more marked inputs than
that passes through the goal. -/
theorem Steps.reaches {P G : σ → Prop} {C : ι → Prop} {marked : ι → Bool} {potential : σ → ℕ}
    (hstep : ∀ s i t, P s → S.Guard s i → C i → S.step s i = .ok t →
      G t ∨ P t ∧ potential t + (if marked i then 1 else 0) ≤ potential s)
    {s t : σ} {is : List ι} (h : S.Steps s is t) (hs : P s) (hC : ∀ i ∈ is, C i)
    (hn : potential s < is.countP marked) : ∃ js u, js <+: is ∧ S.Steps s js u ∧ G u := by
  have hrun : (∃ js u, js <+: is ∧ S.Steps s js u ∧ G u) ∨
      P t ∧ potential t + is.countP marked ≤ potential s := by
    clear hn
    induction h with
    | nil => exact .inr ⟨hs, le_rfl⟩
    | @snoc t u is i ht hg hu ih =>
      have hC' := List.forall_mem_append.mp hC
      rcases ih hC'.1 with ⟨js, v, hjs, hv, hG⟩ | ⟨hP, hle⟩
      · exact .inl ⟨js, v, hjs.trans (List.prefix_append _ _), hv, hG⟩
      · rcases hstep t i u hP hg (hC'.2 i (List.mem_singleton_self i)) hu with hG | ⟨hP', hle'⟩
        · exact .inl ⟨_, u, List.prefix_refl _, ht.snoc hg hu, hG⟩
        · refine .inr ⟨hP', ?_⟩
          rw [List.countP_append, List.countP_singleton]
          omega
  rcases hrun with hgoal | ⟨-, hle⟩
  · exact hgoal
  · omega

/-- The inputs, each answered by the specification, lead from `a` to `b`. -/
inductive Performs {α : Type*} (spec : α → ι → α → Prop) : α → List ι → α → Prop
  | nil (a : α) : Performs spec a [] a
  | snoc {a b c : α} {is : List ι} {i : ι} :
      Performs spec a is b → spec b i c → Performs spec a (is ++ [i]) c

/-- What each step does for its abstract state, a run does for its own. -/
theorem Steps.simulates {α : Type*} {spec : α → ι → α → Prop} {R : σ → α → Prop}
    (hstep : ∀ s a i, R s a → S.Guard s i → ∃ t b, S.step s i = .ok t ∧ spec a i b ∧ R t b)
    {s t : σ} {a : α} {is : List ι} (h : S.Steps s is t) (hR : R s a) :
    ∃ b, Performs spec a is b ∧ R t b := by
  induction h with
  | nil => exact ⟨a, .nil a, hR⟩
  | snoc _ hg ht ih =>
    obtain ⟨b, hb, hR⟩ := ih
    obtain ⟨u, c, hu, hc, hR⟩ := hstep _ b _ hR hg
    rw [ht] at hu
    cases hu
    exact ⟨c, hb.snoc hc, hR⟩

end System
end Racoon.Lib
