import Racoon.Env.EnvSyscall

/-!
# Setting a variable when memory runs out

`set_environment` under every outcome of its `kmalloc` and `krealloc`. A call that
fails should leave the process with the variables it had and the memory with the
blocks it had. It does so unless the array of the process could not grow: its
pointer is then overwritten with `NULL`. That is so for the `realloc` of
`mm/liballoc.c`, which gives the old array back, and for one that keeps it.
-/

namespace Racoon.Env
open Strings

/-- `krealloc` when a refused request leaves the old block as it is. -/
def kreallocKeeping (k : Kalloc) (m : Memory) (ptr : Option ℕ) (size : ℕ) :
    Outcome (Option ℕ × Memory) :=
  if size = 0 then
    match ptr with
    | none => .ok (none, m)
    | some a => do
      let m ← kfree m a
      .ok (none, m)
  else
    match ptr with
    | none => kmalloc k m size (.environ k.litterInfo)
    | some a => do
      let b ← deref (m.block a)
      if size ≤ b.room then .ok (some a, m.shrink a size)
      else do
        let (p, m) ← kmalloc k m size (moved k.litterInfo b)
        match p with
        | none => .ok (none, m)
        | some p => do
          let m ← kfree m a
          .ok (some p, m)

/-- The variables, their data and their order are those from before, and no block is lost or given
back that should not be: the process owns its blocks, and the others are as they were. -/
structure Unharmed (m : Memory) (proc : Process) (es : List EnvironInfo) (m' : Memory)
    (proc' : Process) : Prop where
  kept : ∃ es', Represents m' proc' es' ∧ es'.map (view m') = es.map (view m) ∧
    ∀ x, m'.block x ≠ none ↔ x ∈ owned proc' es' ∨ m.block x ≠ none ∧ x ∉ owned proc es
  count : proc'.environmentCount = proc.environmentCount
  others : ∀ x, m.block x ≠ none → x ∉ owned proc es → m'.block x = m.block x

/-- The call returns, also from every `kfree`, and a failure changes nothing. -/
def FailsAtomically (m : Memory) (proc : Process) (es : List EnvironInfo)
    (call : Outcome (ℤ × Process × Memory)) : Prop :=
  ∃ rc proc' m', call = .ok (rc, proc', m') ∧ (rc ≠ SMK_OK → Unharmed m proc es m' proc')

/-- A variable is to be added, its data has got a block and the longer array is refused. -/
structure ArrayLost (k : Kalloc) (m : Memory) (proc : Process) (es : List EnvironInfo)
    (name : Option CString) (data : Option Buffer) (size : ℕ) : Prop where
  given : data ≠ none
  nonempty : size ≠ 0
  absent : ∃ n, name = some n ∧ ∀ e ∈ es, key e.name ≠ key n
  refused : ArrayRefused k m proc size

theorem kreallocKeeping_some (k : Kalloc) {m : Memory} {a size : ℕ} {b : Block} (h : size ≠ 0)
    (hb : m.block a = some b) :
    kreallocKeeping k m (some a) size =
      if size ≤ b.room then .ok (some a, m.shrink a size)
      else (do
        let (p, m) ← kmalloc k m size (moved k.litterInfo b)
        match p with
        | none => .ok (none, m)
        | some p => do
          let m ← kfree m a
          .ok (some p, m)) := by
  rw [kreallocKeeping, if_neg h]
  dsimp only
  rw [hb, deref_some, ok_bind]

theorem krealloc_block {k : Kalloc} {m : Memory} {a size : ℕ} {r : Option ℕ × Memory}
    (h0 : size ≠ 0) (h : krealloc k m (some a) size = .ok r) : ∃ b, m.block a = some b := by
  rw [krealloc, if_neg h0] at h
  obtain ⟨b, hb, -⟩ := bind_eq_ok.mp h
  exact ⟨b, deref_eq_ok.mp hb⟩

/-- A request that `krealloc` grants is granted with the same result. -/
theorem kreallocKeeping_of_krealloc {k : Kalloc} {m m' : Memory} {ptr : Option ℕ} {size a : ℕ}
    (h : krealloc k m ptr size = .ok (some a, m')) :
    kreallocKeeping k m ptr size = .ok (some a, m') := by
  by_cases h0 : size = 0
  · subst h0
    cases ptr <;> exact h
  cases ptr with
  | none => simpa only [krealloc, kreallocKeeping, if_neg h0] using h
  | some b =>
    obtain ⟨B, hb⟩ := krealloc_block h0 h
    rw [krealloc_some k h0 hb] at h
    rw [kreallocKeeping_some k h0 hb]
    by_cases hle : size ≤ B.room
    · rw [if_pos hle] at h ⊢
      exact h
    · rw [if_neg hle] at h ⊢
      obtain ⟨⟨p, m₁⟩, hk, h⟩ := bind_eq_ok.mp h
      obtain ⟨m₂, hf, h⟩ := bind_eq_ok.mp h
      cases h
      rw [hk, ok_bind]
      dsimp only
      rw [hf, ok_bind]

theorem kmalloc_none {k : Kalloc} {m m' : Memory} {size : ℕ} {c : Contents}
    (h : kmalloc k m size c = .ok (none, m')) : m' = m.refuse := by
  rw [kmalloc] at h
  split at h <;> cases h
  rfl

/-- What the two leave when they refuse to make the array of a process longer. -/
theorem krealloc_none {k : Kalloc} {m m' : Memory} {ptr : Option ℕ} {size : ℕ} (h0 : size ≠ 0)
    (h : krealloc k m ptr size = .ok (none, m')) :
    (∀ x, m'.block x = if ptr = some x then none else m.block x) ∧
      kreallocKeeping k m ptr size = .ok (none, m.refuse) := by
  cases ptr with
  | none =>
    rw [krealloc_null k m h0] at h
    obtain rfl := kmalloc_none h
    refine ⟨fun x => by rw [if_neg (by simp), Memory.block_refuse], ?_⟩
    rw [kreallocKeeping, if_neg h0]
    exact h
  | some a =>
    obtain ⟨B, hb⟩ := krealloc_block h0 h
    rw [krealloc_some k h0 hb] at h
    rw [kreallocKeeping_some k h0 hb]
    by_cases hle : size ≤ B.room
    · rw [if_pos hle] at h
      cases h
    · rw [if_neg hle] at h ⊢
      obtain ⟨⟨p, m₁⟩, hk, h⟩ := bind_eq_ok.mp h
      obtain ⟨m₂, hf, h⟩ := bind_eq_ok.mp h
      cases h
      obtain rfl := kmalloc_none hk
      obtain ⟨-, -, hf⟩ := bind_eq_ok.mp hf
      cases hf
      refine ⟨fun x => ?_, by rw [hk, ok_bind]⟩
      rw [Memory.block_free, Memory.block_refuse]
      simp only [Option.some.injEq, eq_comm]

section Failures
variable {k : Kalloc} {m : Memory} {proc : Process} {es : List EnvironInfo}

theorem Unharmed.of_block {m' : Memory} (h : Represents m proc es)
    (hb : ∀ x, m'.block x = m.block x) : Unharmed m proc es m' proc where
  kept := by
    have hown : ∀ x ∈ owned proc es, m'.block x = m.block x := fun x _ => hb x
    refine ⟨es, h.congr hown, Represents.views_congr hown, fun x => ?_⟩
    rw [hb]
    by_cases hx : x ∈ owned proc es
    · simp [hx, h.allocated hx]
    · simp [hx]
  count := rfl
  others x _ _ := hb x

/-- The call of `krealloc` for the longer array, once the data has its block. -/
theorem krealloc_array (h : Represents m proc es) {p size : ℕ} (hfit : m.Fits p size) :
    ∃ q m₂, krealloc k (m.alloc hfit (.bytes k.litter)) proc.environment
      (arrayBytes (proc.environmentCount + 1)) = .ok (q, m₂) := by
  have h₁ : Represents (m.alloc hfit (.bytes k.litter)) proc es := h.congr fun x hx => by
    have hxp : x ≠ p := fun he => h.allocated hx (he ▸ hfit.fresh)
    rw [Memory.block_alloc, if_neg hxp]
  obtain ⟨q, m₂, hq, -⟩ := krealloc_grow k h₁ (Nat.le_succ es.length) (Nat.succ_pos _)
  rw [h.count, h.arrayBytes_eq le_rfl]
  exact ⟨q, m₂, hq⟩

/-- `krealloc` is called only to add a variable whose data has got its block. -/
theorem setEnvironmentWith_congr (h : Represents m proc es) {name : Option CString}
    {data : Option Buffer} {size : ℕ} (hl : ¬ ArrayLost k m proc es name data size) :
    setEnvironmentWith kreallocKeeping k m proc name data size =
      setEnvironment k m proc name data size := by
  rw [setEnvironment]
  cases data with
  | none => rfl
  | some data =>
    cases name with
    | none => rfl
    | some name =>
      by_cases hs : size = 0
      · simp only [setEnvironmentWith, if_pos hs]
      simp only [setEnvironmentWith, if_neg hs]
      by_cases hp : ∃ e ∈ es, key e.name = key name
      · obtain ⟨i, hi, hlt, hf, he⟩ := find_present h hp
        rw [hf, ok_bind, ok_bind, if_pos hlt, if_pos hlt]
      · push Not at hp
        rw [find_absent h hp, ok_bind, ok_bind, if_neg (lt_irrefl _), if_neg (lt_irrefl _)]
        rcases kmalloc_cases k m size (.bytes k.litter) with hk | ⟨p, hfit, hk⟩
        · rw [hk, ok_bind, ok_bind]
        · rw [hk, ok_bind, ok_bind]
          dsimp only
          obtain ⟨q, m₂, hq⟩ := krealloc_array h hfit
          cases q with
          | none => exact absurd ⟨by simp, hs, ⟨name, rfl, hp⟩, p, _, m₂, hk, hq⟩ hl
          | some a => rw [kreallocKeeping_of_krealloc hq, hq]

theorem setEnvironment_atomic (h : Represents m proc es) {name : Option CString}
    {data : Option Buffer} {size : ℕ} (hl : ¬ ArrayLost k m proc es name data size) :
    FailsAtomically m proc es (setEnvironment k m proc name data size) := by
  have hsame : Unharmed m proc es m proc := .of_block h fun _ => rfl
  cases data with
  | none => exact ⟨SMK_BAD_PARAMS, proc, m, rfl, fun _ => hsame⟩
  | some data =>
    cases name with
    | none => exact ⟨SMK_BAD_PARAMS, proc, m, rfl, fun _ => hsame⟩
    | some name =>
      by_cases hs : size = 0
      · exact ⟨SMK_REQUESTED_NOTHING, proc, m,
          by rw [setEnvironment, setEnvironmentWith, if_pos hs], fun _ => hsame⟩
      have hpos := Nat.pos_of_ne_zero hs
      rcases kmalloc_cases k m size (.bytes k.litter) with hk | ⟨p, hfit, hk⟩
      · exact ⟨SMK_NOMEM, proc, m.refuse, setEnvironment_refused h hpos hk name data,
          fun _ => .of_block h fun _ => rfl⟩
      · obtain ⟨rc, proc', m', es', hcall, -⟩ := setEnvironment_spec k h name data hpos
        refine ⟨rc, proc', m', hcall, fun hrc => absurd ?_ hrc⟩
        refine setEnvironment_rc h hpos hk ?_ hcall
        by_cases hp : ∃ e ∈ es, key e.name = key name
        · exact .inl hp
        · push Not at hp
          obtain ⟨q, m₂, hq⟩ := krealloc_array h hfit
          cases q with
          | none => exact absurd ⟨by simp, hs, ⟨name, rfl, hp⟩, p, _, m₂, hk, hq⟩ hl
          | some a => exact .inr ⟨a, m₂, hq⟩

/-- What the process and the memory are after the array has been refused. -/
theorem setEnvironment_arrayLost (h : Represents m proc es) {name : Option CString}
    {data : Option Buffer} {size : ℕ} (hl : ArrayLost k m proc es name data size) :
    ∃ m' m'', setEnvironment k m proc name data size = .ok (SMK_NOMEM, ⟨none, 0⟩, m') ∧
      setEnvironmentWith kreallocKeeping k m proc name data size =
        .ok (SMK_NOMEM, ⟨none, 0⟩, m'') ∧
      (∀ x, m'.block x = if proc.environment = some x then none else m.block x) ∧
      ∀ x, m''.block x = m.block x := by
  obtain ⟨hgiven, hs, ⟨name, rfl, ha⟩, p, m₁, m₂, hk, hr⟩ := hl
  obtain ⟨data, rfl⟩ := Option.ne_none_iff_exists'.mp hgiven
  have hpos := Nat.pos_of_ne_zero hs
  rcases kmalloc_cases k m size (.bytes k.litter) with hk' | ⟨q, hfit, hk'⟩
  · rw [hk] at hk'
    cases hk'
  rw [hk] at hk'
  cases hk'
  have h0 : arrayBytes (proc.environmentCount + 1) ≠ 0 := by
    rw [h.count, h.arrayBytes_eq le_rfl]
    exact (Nat.mul_pos (Nat.succ_pos _) (by decide)).ne'
  obtain ⟨hb, hr'⟩ := krealloc_none h0 hr
  have hpenv : proc.environment ≠ some p := fun he =>
    h.allocated (x := p) (by simp [owned, he]) hfit.fresh
  have hp₁ : (m.alloc hfit (.bytes k.litter)).refuse.block p ≠ none := by
    rw [Memory.block_refuse, Memory.block_alloc, if_pos rfl]
    simp
  have hp₂ : m₂.block p ≠ none := by
    rw [hb, if_neg hpenv]
    exact hp₁
  refine ⟨m₂.free p, (m.alloc hfit (.bytes k.litter)).refuse.free p, ?_, ?_, fun x => ?_,
    fun x => ?_⟩
  · rw [setEnvironment_lost h hpos hk hr ha data, kfree_eq hp₂, ok_bind]
  · simp only [setEnvironmentWith, if_neg hs]
    rw [find_absent h ha, ok_bind, if_neg (lt_irrefl _), hk, ok_bind]
    dsimp only
    rw [hr', ok_bind]
    dsimp only
    rw [if_pos rfl, kfree_eq hp₁, ok_bind]
  · rw [Memory.block_free, hb, Memory.block_alloc]
    by_cases hx : x = p
    · rw [if_pos hx, hx, if_neg hpenv, hfit.fresh]
    · rw [if_neg hx, if_neg hx]
  · rw [Memory.block_free, Memory.block_refuse, Memory.block_alloc]
    by_cases hx : x = p
    · rw [if_pos hx, hx, hfit.fresh]
    · rw [if_neg hx, if_neg hx]

theorem failsAtomically_lost {m' : Memory} {call : Outcome (ℤ × Process × Memory)}
    (hcall : call = .ok (SMK_NOMEM, ⟨none, 0⟩, m')) :
    FailsAtomically m proc es call ↔ Unharmed m proc es m' ⟨none, 0⟩ := by
  constructor
  · rintro ⟨rc, proc', m₁, h, hu⟩
    rw [hcall] at h
    cases h
    exact hu (by decide)
  · exact fun hu => ⟨_, _, _, hcall, fun _ => hu⟩

/-- Nothing is lost with the array of a process without variables, when its block is gone. -/
theorem Unharmed.of_nil {m' : Memory} (h : Represents m proc [])
    (hb : ∀ x, m'.block x = if proc.environment = some x then none else m.block x) :
    Unharmed m proc [] m' ⟨none, 0⟩ where
  kept := by
    refine ⟨[], .nil m', rfl, fun x => ?_⟩
    rw [hb]
    by_cases hx : proc.environment = some x <;> simp [owned, hx]
  count := h.count.symm
  others x _ hx := by
    rw [hb, if_neg fun he => hx (by simp [owned, he])]

/-- A failing `set_environment` changes nothing, unless the process has an array, the variable is a
new one, its data has got a block and the longer array is refused. -/
theorem setEnvironment_atomic_iff (h : Represents m proc es) (name : Option CString)
    (data : Option Buffer) (size : ℕ) :
    (FailsAtomically m proc es (setEnvironmentWith kreallocKeeping k m proc name data size) ↔
      ¬ (proc.environment ≠ none ∧ ArrayLost k m proc es name data size)) ∧
    (FailsAtomically m proc es (setEnvironment k m proc name data size) ↔
      ¬ (proc.environmentCount ≠ 0 ∧ ArrayLost k m proc es name data size)) := by
  by_cases hl : ArrayLost k m proc es name data size
  · obtain ⟨m', m'', hcall, hcall', hb, hb'⟩ := setEnvironment_arrayLost h hl
    rw [failsAtomically_lost hcall, failsAtomically_lost hcall']
    refine ⟨⟨fun hu hn => ?_, fun hn => ?_⟩, ⟨fun hu hn => hn.1 hu.count.symm, fun hn => ?_⟩⟩
    · -- the array is still there and nobody has it
      obtain ⟨a, ha⟩ := Option.ne_none_iff_exists'.mp hn.1
      obtain ⟨es', hR, -, hblocks⟩ := hu.kept
      have hown : a ∈ owned proc es := by simp [owned, ha]
      obtain rfl := hR.empty rfl
      have hkept : m''.block a ≠ none := by
        rw [hb']
        exact h.allocated hown
      rcases (hblocks a).mp hkept with hx | hx
      · simp [owned] at hx
      · exact hx.2 hown
    · have henv : proc.environment = none := not_not.mp fun he => hn ⟨he, hl⟩
      obtain rfl := h.empty henv
      refine .of_nil h fun x => ?_
      rw [hb', if_neg (by simp [henv])]
    · have hcount : proc.environmentCount = 0 := not_not.mp fun he => hn ⟨he, hl⟩
      obtain rfl := List.length_eq_zero_iff.mp (h.count.symm.trans hcount)
      exact .of_nil h hb
  · have hatomic := setEnvironment_atomic h hl
    rw [setEnvironmentWith_congr h hl]
    exact ⟨iff_of_true hatomic fun hn => hl hn.2, iff_of_true hatomic fun hn => hl hn.2⟩

end Failures

def letterB : CString := fun i => if i = 0 then 66 else 0

open Classical in
/-- There is room for a small request, and none for an array of two entries. -/
noncomputable def oneSlot : Kalloc where
  slot m size := if h : m.Fits 0x3000 size ∧ size ≤ 32 then some ⟨0x3000, h.1⟩ else none
  litter _ := 0
  litterInfo _ := ⟨fun _ => 0, 0, 0⟩

theorem fits_oneVariable : oneVariable.Fits 0x3000 4 := by
  have hb : ∀ b B, oneVariable.block b = some B → b + B.room ≤ 0x3000 := by
    intro b B hB
    simp only [oneVariable] at hB
    split_ifs at hB with h₁ h₂ <;> cases hB <;> subst b <;> decide
  exact ⟨rfl, by decide, fun b B hB _ => hb b B hB, fun b B hB hlt => by
    have := hb b B hB
    omega⟩

theorem arrayLost_oneVariable : ArrayLost oneSlot oneVariable ⟨some 0x2000, 1⟩ [variableA]
    (some letterB) (some fun _ => 2) 4 where
  given := by simp
  nonempty := by decide
  absent := by
    refine ⟨letterB, rfl, fun e he hk => ?_⟩
    obtain rfl := List.mem_singleton.mp he
    exact absurd (congrArg List.head? hk) (by decide)
  refused := by
    have hk : kmalloc oneSlot oneVariable 4 (.bytes oneSlot.litter) =
        .ok (some 0x3000, oneVariable.alloc fits_oneVariable (.bytes oneSlot.litter)) := by
      simp [kmalloc, oneSlot, fits_oneVariable]
    have hb : (oneVariable.alloc fits_oneVariable (.bytes oneSlot.litter)).block 0x2000 =
        some ⟨1032, .environ fun _ => variableA⟩ := rfl
    have hr : ∀ m c, kmalloc oneSlot m 2064 c = .ok (none, m.refuse) := fun m c => by
      simp [kmalloc, oneSlot]
    refine ⟨0x3000, _,
      (oneVariable.alloc fits_oneVariable (.bytes oneSlot.litter)).refuse.free 0x2000, hk, ?_⟩
    change krealloc oneSlot _ (some 0x2000) 2064 = _
    rw [krealloc_some oneSlot (by decide) hb, if_neg (by decide), hr, ok_bind]
    dsimp only
    rw [kfree_eq (by rw [Memory.block_refuse, hb]; simp), ok_bind]

/-- The variable `A` is lost, and its array with it, when `B` is to be added. -/
theorem variables_lost_when_refused : Represents oneVariable ⟨some 0x2000, 1⟩ [variableA] ∧
    ¬ FailsAtomically oneVariable ⟨some 0x2000, 1⟩ [variableA]
      (setEnvironmentWith kreallocKeeping oneSlot oneVariable ⟨some 0x2000, 1⟩ (some letterB)
        (some fun _ => 2) 4) := by
  obtain ⟨m', m'', -, hcall, -⟩ := setEnvironment_arrayLost represents_oneVariable
    arrayLost_oneVariable
  refine ⟨represents_oneVariable, fun h => ?_⟩
  have hu := (failsAtomically_lost hcall).mp h
  exact absurd hu.count (by decide)

theorem setEnvironment_atomic_noSlots : FailsAtomically oneVariable ⟨some 0x2000, 1⟩ [variableA]
    (setEnvironmentWith kreallocKeeping noSlots oneVariable ⟨some 0x2000, 1⟩ (some letterB)
      (some fun _ => 2) 4) := by
  refine (setEnvironment_atomic_iff represents_oneVariable _ _ _).1.mpr fun hn => ?_
  obtain ⟨p, m₁, m₂, hk, -⟩ := hn.2.refused
  cases hk

end Racoon.Env
