import Racoon.Irq.HookInvariant

/-!
# `release_irq` for a thread that is not registered

The blocks that `release_irq` gets from `kmalloc` and gives to `kfree`, beside
what it does to the hooks. It asks for one stub less than there are before it has
looked for the thread, takes the only handler for the caller's if it is of the
caller's process, and frees the new hook where the stubs should be freed.
-/

namespace Racoon.Irq

/-- The new hook and its stubs, and those that they replace. -/
inductive Block
  | hook
  | stubs
  | oldHook
  | oldStubs
  deriving DecidableEq

structure Released where
  kernel : Kernel
  rc : ℤ
  granted : List Block
  freed : List Block

def releaseIrqBlocks (k : Kernel) (hookMem stubsMem : Bool) (t : ℕ) (irq : ℤ) : Outcome Released :=
  if ¬ InRange irq then .ok ⟨k, -1, [], []⟩
  else if hookMem = false then .ok ⟨k, -1, [], []⟩
  else
    let old := k.handlers irq
    let count := old.count - 1
    if count ≠ 0 ∧ stubsMem = false then .ok ⟨k, -1, [.hook], [.hook]⟩
    else do
      let granted := if count = 0 then [Block.hook] else [.hook, .stubs]
      let (found, stubs) ← withoutStub k t irq
      if found = 0 then
        -- `if ( hook->stubs != NULL ) kfree( hook );`
        .ok ⟨k, -1, granted, if count = 0 then [.hook] else [.hook, .hook]⟩
      else do
        assert (found = 1)
        let hook : IrqHook :=
          { raised := old.raised
            index := if old.index ≥ count ∧ old.index > 0 then old.index - 1 else old.index
            last := if old.last ≥ count ∧ old.last > 0 then old.last - -1 else old.last
            count := count
            stubs := stubs }
        let masked := if hook.count = 0 then Function.update k.masked irq true else k.masked
        .ok ⟨(({ k with masked := masked }).setHook irq hook).setThread t
          { k.thread t with state := THREAD_SUSPENDED, irq := -1 }, 0, granted,
          if old.stubs = [] then [.oldHook] else [.oldStubs, .oldHook]⟩

/-- Without its blocks the call is `releaseIrq`. -/
theorem releaseIrqBlocks_releaseIrq (k : Kernel) (hookMem stubsMem : Bool) (t : ℕ) (irq : ℤ) :
    (do
      let r ← releaseIrqBlocks k hookMem stubsMem t irq
      .ok (r.kernel, r.rc)) = releaseIrq k hookMem stubsMem t irq := by
  rw [releaseIrqBlocks, releaseIrq]
  by_cases hr : InRange irq
  swap
  · simp only [hr, not_false_eq_true, if_true, ok_bind]
  rw [if_neg (not_not.mpr hr), if_neg (not_not.mpr hr)]
  by_cases hh : hookMem = false
  · simp only [hh, if_true, ok_bind]
  rw [if_neg hh, if_neg hh]
  by_cases hs : (k.handlers irq).count - 1 ≠ 0 ∧ stubsMem = false
  · simp only [if_pos hs, ok_bind]
  simp only [if_neg hs]
  cases withoutStub k t irq with
  | error e => rfl
  | ok r =>
    obtain ⟨found, stubs⟩ := r
    simp only [ok_bind]
    by_cases hf : found = 0
    · simp only [if_pos hf, ok_bind]
    · simp only [if_neg hf]
      by_cases h1 : found = 1
      · simp only [assert_of h1, ok_bind]
      · rw [assert, if_neg h1]
        rfl

/-- A line whose handlers are counted and do not include `t`. -/
structure Stranger (k : Kernel) (irq : ℤ) (t : ℕ) : Prop where
  count : (k.handlers irq).count = (k.handlers irq).stubs.length
  absent : ∀ s ∈ (k.handlers irq).stubs, s.tr ≠ t

theorem Line.stranger {k : Kernel} {irq : ℤ} {reg : ℕ → Prop} {t : ℕ}
    (h : Line (k.handlers irq) reg) (ht : ¬ reg t) : Stranger k irq t where
  count := h.count
  absent _ hs he := ht ((h.members t).mp (he ▸ List.mem_map_of_mem hs))

/-- The call has refused and all that it got from `kmalloc` it has freed, each block once. -/
def Refused (k : Kernel) (x : Outcome Released) : Prop :=
  ∃ r, x = .ok r ∧ r.kernel = k ∧ r.rc = -1 ∧ r.granted.Nodup ∧ r.freed.Perm r.granted

theorem Refused.of_ok {k : Kernel} {bs : List Block} (h : bs.Nodup) :
    Refused k (.ok ⟨k, -1, bs, bs⟩) :=
  ⟨_, rfl, rfl, rfl, h, .refl bs⟩

theorem not_refused_error {k : Kernel} {e : Fault} : ¬ Refused k (.error e) := by
  rintro ⟨r, hr, -⟩
  cases hr

/-- The first stub too many is written beyond the array. -/
theorem shiftStubs_overflow {t room : ℕ} {l : List IrqStub} (h : ∀ s ∈ l, s.tr ≠ t) (found : ℕ)
    {copied : List IrqStub} (hroom : copied.length ≤ room)
    (hlen : room < copied.length + l.length) :
    shiftStubs t room l found copied = .error .badAccess := by
  induction l generalizing copied with
  | nil =>
    rw [List.length_nil] at hlen
    omega
  | cons s rest ih =>
    rw [shiftStubs, if_neg (h s List.mem_cons_self)]
    by_cases hin : copied.length < room
    · rw [if_pos hin]
      refine ih (fun x hx => h x (List.mem_cons_of_mem s hx)) ?_ ?_
      · rw [List.length_append, List.length_singleton]
        exact hin
      · rw [List.length_append, List.length_singleton]
        rw [List.length_cons] at hlen
        omega
    · rw [if_neg hin]

namespace Stranger
variable {k : Kernel} {irq : ℤ} {t : ℕ}

/-- No handler at all: there is nothing to copy into the stubs. -/
theorem withoutStub_none (h : Stranger k irq t) (hc : (k.handlers irq).count = 0) :
    withoutStub k t irq = .ok (0, []) := by
  have hnil : (k.handlers irq).stubs = [] := by
    rw [← List.length_eq_zero_iff]
    have := h.count
    omega
  rw [withoutStub]
  simp only [hc, hnil]
  rfl

/-- The only handler is taken for `t` if it is of the same process. -/
theorem withoutStub_one (h : Stranger k irq t) (hc : (k.handlers irq).count = 1) :
    ∃ s, (k.handlers irq).stubs = [s] ∧ withoutStub k t irq =
      .ok (if (k.thread s.tr).process = (k.thread t).process then 1 else 0, []) := by
  obtain ⟨s, hs⟩ : ∃ s, (k.handlers irq).stubs = [s] := by
    rw [← List.length_eq_one_iff]
    have := h.count
    omega
  refine ⟨s, hs, ?_⟩
  rw [withoutStub, if_pos (by omega), hs]
  rfl

/-- Of several handlers none is left out, and the last one has no room. -/
theorem withoutStub_many (h : Stranger k irq t) (hc : 1 < (k.handlers irq).count) :
    withoutStub k t irq = .error .badAccess := by
  have hlen := h.count
  rw [withoutStub, if_neg (by omega), copyStubs_eq h.count, ok_bind]
  refine shiftStubs_overflow h.absent 0 (Nat.zero_le _) ?_
  rw [List.length_nil]
  omega

end Stranger

/-- A stranger is refused without trace if the memory for the hook, or for the stubs of a line with
no handler or several, is not granted, and on a line with one handler if it is of another
process. -/
theorem stranger_refused_iff {k : Kernel} {irq : ℤ} {t : ℕ} (h : InRange irq → Stranger k irq t)
    (hookMem stubsMem : Bool) :
    Refused k (releaseIrqBlocks k hookMem stubsMem t irq) ↔
      ¬ InRange irq ∨ hookMem = false ∨
      ((k.handlers irq).count ≠ 1 ∧ stubsMem = false) ∨
      ((k.handlers irq).count = 1 ∧
        ∀ s ∈ (k.handlers irq).stubs, (k.thread s.tr).process ≠ (k.thread t).process) := by
  rw [releaseIrqBlocks]
  by_cases hr : InRange irq
  swap
  · rw [if_pos hr]
    exact iff_of_true (.of_ok List.nodup_nil) (.inl hr)
  rw [if_neg (not_not.mpr hr)]
  by_cases hh : hookMem = false
  · rw [if_pos hh]
    exact iff_of_true (.of_ok List.nodup_nil) (.inr (.inl hh))
  rw [if_neg hh]
  have hst := h hr
  dsimp only
  by_cases hs : (k.handlers irq).count - 1 ≠ 0 ∧ stubsMem = false
  · rw [if_pos hs]
    exact iff_of_true (.of_ok (List.nodup_singleton _))
      (.inr (.inr (.inl ⟨by have := hs.1; omega, hs.2⟩)))
  rw [if_neg hs]
  by_cases hone : (k.handlers irq).count = 1
  · obtain ⟨s, hstubs, hw⟩ := hst.withoutStub_one hone
    have hzero : (k.handlers irq).count - 1 = 0 := by omega
    rw [hw, ok_bind, hstubs]
    simp only [hzero, if_true, List.mem_singleton, forall_eq]
    by_cases hp : (k.thread s.tr).process = (k.thread t).process
    · -- the handler of another thread is released
      simp only [if_pos hp, one_ne_zero, if_false, assert_of, ok_bind]
      refine iff_of_false ?_ (by simp [hr, hh, hone, hp])
      rintro ⟨r, hok, -, hrc, -⟩
      cases hok
      cases hrc
    · simp only [if_neg hp, if_true]
      exact iff_of_true (.of_ok (List.nodup_singleton _)) (by simp [hone, hp])
  · have hne : (k.handlers irq).count - 1 ≠ 0 := by omega
    have hmem : stubsMem ≠ false := fun hm => hs ⟨hne, hm⟩
    refine iff_of_false ?_ (by simp [hr, hh, hone, hmem])
    by_cases hnone : (k.handlers irq).count = 0
    · -- the hook is freed twice and the stubs are not freed
      rw [hst.withoutStub_none hnone, ok_bind]
      simp only [if_true, if_neg hne]
      rintro ⟨r, hok, -, -, -, hperm⟩
      cases hok
      have hcount := hperm.count_eq Block.stubs
      cases hcount
    · have hlen := hst.count
      rw [hst.withoutStub_many (by omega)]
      exact not_refused_error

/-- Line 1 has thread 1 as its only handler. The threads 1 and 2 are of one process and thread 3 is
of another. -/
def oneHandler : Kernel where
  cpuCount := 1
  handlers irq := if irq = 1 then ⟨0, 0, 0, 1, [⟨1, 0, 0⟩]⟩ else ⟨0, 0, 0, 0, []⟩
  masked irq := decide (irq ≠ 1)
  thread t :=
    if t = 1 then ⟨1, 7, THREAD_IRQ, 1, 0, -1, 0⟩
    else ⟨t, if t = 2 then 7 else 8, THREAD_SUSPENDED, -1, 0, -1, 0⟩
  sched _ := ⟨fun _ => 0, 0, 0⟩

theorem oneHandler_stranger {t : ℕ} (ht : t ≠ 1) : Stranger oneHandler 1 t where
  count := rfl
  absent s hs := by
    obtain rfl : s = ⟨1, 0, 0⟩ := List.mem_singleton.mp hs
    exact ht.symm

theorem stranger_refused_oneHandler :
    Refused oneHandler (releaseIrqBlocks oneHandler true true 3 1) :=
  (stranger_refused_iff (fun _ => oneHandler_stranger (by decide)) true true).mpr
    (.inr (.inr (.inr ⟨rfl, fun s hs => by
      obtain rfl : s = ⟨1, 0, 0⟩ := List.mem_singleton.mp hs
      decide⟩)))

/-- Thread 2 is not registered and releases the handler of thread 1. -/
theorem stranger_releases : Stranger oneHandler 1 2 ∧
    ¬ Refused oneHandler (releaseIrqBlocks oneHandler true true 2 1) := by
  refine ⟨oneHandler_stranger (by decide), ?_⟩
  rintro ⟨r, hok, -, hrc, -⟩
  cases hok
  cases hrc

end Racoon.Irq
