import Racoon.Ipc.PortTable

/-!
# Masks of ports

`set_port_flags`, `get_port_flags` and the two calls that save and restore the flags
of all ports of a thread. The flags of a port are 32 bits; -1 in a call of
`set_port_flags` means every port of the thread, while a port that is named may be
anybody's. A restored port may have changed hands in between.
-/

namespace Racoon.Ipc
open Lib

structure PortPair where
  port : ℤ
  flags : ℕ

/-- `flags` in an `int`. -/
def getPortFlags (proc : Process) (port : ℤ) : ℤ :=
  if InRange port then
    if (proc.block port).tid = -1 then -1 else int32 (proc.block port).flags
  else -1

def Process.setFlags (proc : Process) (port : ℤ) (flags : ℕ) : Process :=
  proc.setBlock port { proc.block port with flags := flags }

/-- The loop of `set_port_flags` over the ports of the thread. -/
def setAllFrom (ports : ℕ → ℤ) (flags : ℕ) : ℕ → ℕ → Process → Process
  | _, 0, proc => proc
  | i, left + 1, proc =>
    if ports i = -1 then proc
    else setAllFrom ports flags (i + 1) left (proc.setFlags (ports i) flags)

def setPortFlags (proc : Process) (tr : ℕ) (port : ℤ) (flags : ℕ) : Outcome (Process × ℤ) := do
  let a ← deref (proc.threads tr)
  if port < -1 ∨ MAX_PORTS ≤ port then .ok (proc, -1)
  else
    let proc := proc.setThread tr { a with lastPortMessage := -1, lastPortPulse := -1 }
    if 0 ≤ port then
      if (proc.block port).tid = -1 then .ok (proc, -1) else .ok (proc.setFlags port flags, 0)
    else .ok (setAllFrom a.ports flags 0 MAX_PORTS proc, 0)

/-- The loop of `bulk_get_ports`. Of the pair that ends the list only the port is written. -/
def getFrom (proc : Process) (ports : ℕ → ℤ) : ℕ → ℕ → (ℕ → PortPair) → ℕ → PortPair
  | _, 0, pairs => pairs
  | i, left + 1, pairs =>
    if ports i = -1 then Function.update pairs i { pairs i with port := -1 }
    else getFrom proc ports (i + 1) left
      (Function.update pairs i ⟨ports i, (getPortFlags proc (ports i) % 2 ^ 32).toNat⟩)

def bulkGetPorts (proc : Process) (tr : ℕ) (data : ℕ → PortPair) : Outcome (ℕ → PortPair) := do
  let a ← deref (proc.threads tr)
  .ok (getFrom proc a.ports 0 MAX_PORTS data)

/-- The loop of `bulk_set_ports`. -/
def setFrom (tr : ℕ) (pairs : ℕ → PortPair) : ℕ → ℕ → Process → Outcome Process
  | _, 0, proc => .ok proc
  | i, left + 1, proc =>
    if (pairs i).port = -1 then .ok proc
    else do
      let (proc, _) ← setPortFlags proc tr (pairs i).port (pairs i).flags
      setFrom tr pairs (i + 1) left proc

def bulkSetPorts (proc : Process) (tr : ℕ) (pairs : ℕ → PortPair) : Outcome Process :=
  setFrom tr pairs 0 MAX_PORTS proc

/-! ### What stays -/

/-- Only flags of ports and the thread's hints for its scans have changed. -/
structure Remasked (tr : ℕ) (proc proc' : Process) : Prop where
  htable : proc'.threadsHtable = proc.threadsHtable
  heap : proc'.heap = proc.heap
  hints : ∃ x y, proc'.threads tr =
    (proc.threads tr).map fun a => { a with lastPortMessage := x, lastPortPulse := y }
  others : ∀ t, t ≠ tr → proc'.threads t = proc.threads t
  block : ∀ p, InRange p → ∃ flags, proc'.block p = { proc.block p with flags := flags }

variable {proc proc' proc'' : Process} {tr : ℕ} {a : Thread} {port : ℤ} {flags : ℕ}

namespace Remasked

theorem refl (tr : ℕ) (proc : Process) : Remasked tr proc proc := by
  refine ⟨rfl, rfl, ?_, fun _ _ => rfl, fun _ _ => ⟨_, rfl⟩⟩
  cases proc.threads tr with
  | none => exact ⟨0, 0, rfl⟩
  | some a => exact ⟨a.lastPortMessage, a.lastPortPulse, rfl⟩

theorem trans (h : Remasked tr proc proc') (h' : Remasked tr proc' proc'') :
    Remasked tr proc proc'' := by
  refine ⟨h'.htable.trans h.htable, h'.heap.trans h.heap, ?_,
    fun t ht => (h'.others t ht).trans (h.others t ht), fun p hp => ?_⟩
  · obtain ⟨x, y, hxy⟩ := h.hints
    obtain ⟨x', y', hxy'⟩ := h'.hints
    refine ⟨x', y', ?_⟩
    rw [hxy', hxy, Option.map_map]
    rfl
  · obtain ⟨flags, hf⟩ := h.block p hp
    obtain ⟨flags', hf'⟩ := h'.block p hp
    exact ⟨flags', by rw [hf', hf]⟩

theorem setFlags (tr : ℕ) (proc : Process) (hr : InRange port) (flags : ℕ) :
    Remasked tr proc (proc.setFlags port flags) := by
  refine ⟨rfl, rfl, (refl tr proc).hints, fun _ _ => rfl, fun p hp => ?_⟩
  rw [Process.setFlags, block_setBlock proc hr hp]
  split_ifs with h
  · rw [h]
    exact ⟨flags, rfl⟩
  · exact ⟨_, rfl⟩

theorem setHints (ha : proc.threads tr = some a) (x y : ℤ) :
    Remasked tr proc (proc.setThread tr { a with lastPortMessage := x, lastPortPulse := y }) := by
  refine ⟨rfl, rfl, ⟨x, y, ?_⟩, fun t ht => Function.update_of_ne ht _ _, fun _ _ => ⟨_, rfl⟩⟩
  rw [ha]
  exact Function.update_self _ _ _

theorem thread (h : Remasked tr proc proc') (ha : proc.threads tr = some a) :
    ∃ b, proc'.threads tr = some b ∧ b.tid = a.tid ∧ b.ports = a.ports := by
  obtain ⟨x, y, hxy⟩ := h.hints
  rw [ha] at hxy
  exact ⟨_, hxy, rfl, rfl⟩

/-- A thread of either process is one of the other, with its `tid` and its ports. -/
theorem same (h : Remasked tr proc proc') (t : ℕ) :
    (proc'.threads t).map (fun a => (a.tid, a.ports)) =
      (proc.threads t).map fun a => (a.tid, a.ports) := by
  by_cases ht : t = tr
  · subst ht
    obtain ⟨x, y, hxy⟩ := h.hints
    rw [hxy, Option.map_map]
    rfl
  · rw [h.others t ht]

theorem thread_back (h : Remasked tr proc proc') {t : ℕ} {b : Thread}
    (hb : proc'.threads t = some b) :
    ∃ a, proc.threads t = some a ∧ a.tid = b.tid ∧ a.ports = b.ports := by
  have ht := h.same t
  rw [hb, Option.map_some] at ht
  obtain ⟨a, ha, he⟩ := Option.map_eq_some_iff.mp ht.symm
  exact ⟨a, ha, congrArg Prod.fst he, congrArg Prod.snd he⟩

theorem thread_to (h : Remasked tr proc proc') {t : ℕ} (ha : proc.threads t = some a) :
    ∃ b, proc'.threads t = some b ∧ b.tid = a.tid := by
  have ht := h.same t
  rw [ha, Option.map_some] at ht
  obtain ⟨b, hb, he⟩ := Option.map_eq_some_iff.mp ht
  exact ⟨b, hb, congrArg Prod.fst he⟩

theorem tid (h : Remasked tr proc proc') (hr : InRange port) :
    (proc'.block port).tid = (proc.block port).tid := by
  obtain ⟨flags, hf⟩ := h.block port hr
  rw [hf]

/-- The port table does not depend on them. -/
theorem agree (h : Remasked tr proc proc') (hp : Agree proc) : Agree proc' := by
  have hT : Threads proc' := hp.threads.congr h.htable fun t => by
    have ht := congrArg (Option.map Prod.fst) (h.same t)
    rwa [Option.map_map, Option.map_map] at ht
  refine ⟨hT, fun t b hb => ?_, fun p hr hclosed => ?_, fun p hr hopen => ?_, fun p hr hopen => ?_⟩
  · obtain ⟨a, ha, htid, hports⟩ := h.thread_back hb
    obtain ⟨owned, hpacked, hnodup, hmem⟩ := hp.table.lists t a ha
    refine ⟨owned, hports ▸ hpacked, hnodup, fun p => (hmem p).trans ?_⟩
    rw [htid]
    exact and_congr_right fun hr => by rw [h.tid hr]
  · obtain ⟨flags, hf⟩ := h.block p hr
    rw [hf] at hclosed ⊢
    exact hp.table.closed p hr hclosed
  · obtain ⟨flags, hf⟩ := h.block p hr
    rw [hf] at hopen ⊢
    exact hp.table.opened p hr hopen
  · rw [h.tid hr] at hopen ⊢
    obtain ⟨t, a, ha, hat⟩ := hp.table.owned p hr hopen
    obtain ⟨b, hb, hbt⟩ := h.thread_to ha
    exact ⟨t, b, hb, hbt.trans hat⟩

end Remasked

/-! ### The calls -/

theorem InRange.ne (h : InRange port) : port ≠ -1 := fun he => by
  rw [he] at h
  cases h.1

theorem flags_setFlags (hr : InRange port) {p : ℤ} (hp : InRange p) :
    ((proc.setFlags port flags).block p).flags =
      if p = port then flags else (proc.block p).flags := by
  rw [Process.setFlags, block_setBlock proc hr hp]
  split_ifs <;> rfl

theorem setAllFrom_eq (tr : ℕ) (proc : Process) (flags : ℕ) {ports : ℕ → ℤ} {i left : ℕ}
    {rest : List ℤ}
    (hp : PackedFrom ports i rest) (hr : ∀ p ∈ rest, InRange p) (hl : rest.length ≤ left) :
    Remasked tr proc (setAllFrom ports flags i left proc) ∧ ∀ p, InRange p →
      ((setAllFrom ports flags i left proc).block p).flags =
        if p ∈ rest then flags else (proc.block p).flags := by
  induction rest generalizing i left proc with
  | nil =>
    have hend : ports i = -1 := hp 0
    have hstop : setAllFrom ports flags i left proc = proc := by
      cases left with
      | zero => rfl
      | succ left => rw [setAllFrom, if_pos hend]
    rw [hstop]
    exact ⟨.refl tr proc, fun p _ => (if_neg List.not_mem_nil).symm⟩
  | cons x rest ih =>
    cases left with
    | zero => cases hl
    | succ left =>
      have hx : ports i = x := hp 0
      have hrx := hr x List.mem_cons_self
      rw [setAllFrom, hx, if_neg hrx.ne]
      obtain ⟨hm, hf⟩ := ih (proc.setFlags x flags) hp.tail
        (fun p h => hr p (List.mem_cons_of_mem x h)) (Nat.le_of_succ_le_succ hl)
      refine ⟨(Remasked.setFlags tr proc hrx flags).trans hm, fun p h => ?_⟩
      rw [hf p h, flags_setFlags hrx h]
      by_cases hpx : p = x
      · simp [hpx]
      · simp [hpx]

/-- A port that is named may be any that is open. -/
theorem setPortFlags_eq (ha : proc.threads tr = some a) (hr : InRange port) (flags : ℕ) :
    ∃ q rc, setPortFlags proc tr port flags = .ok (q, rc) ∧ Remasked tr proc q ∧ ∀ p, InRange p →
      (q.block p).flags =
        if p = port ∧ (proc.block p).tid ≠ -1 then flags else (proc.block p).flags := by
  obtain ⟨h₀, h⟩ := hr
  have hhints := Remasked.setHints ha (-1) (-1)
  rw [setPortFlags, ha, deref_some, ok_bind, if_neg (by omega)]
  dsimp only
  rw [if_pos h₀]
  by_cases hclosed : (proc.block port).tid = -1
  · refine ⟨_, _, if_pos hclosed, hhints, fun p _ => ?_⟩
    rw [if_neg]
    · rfl
    · rintro ⟨rfl, hopen⟩
      exact hopen hclosed
  · refine ⟨_, _, if_neg hclosed, hhints.trans (.setFlags tr _ ⟨h₀, h⟩ flags), fun p hp => ?_⟩
    rw [flags_setFlags ⟨h₀, h⟩ hp]
    refine if_congr (iff_self_and.mpr ?_) rfl rfl
    rintro rfl
    exact hclosed

/-- For -1 the ports are those of the thread. -/
theorem setPortFlags_all (h : Agree proc) (ha : proc.threads tr = some a) (flags : ℕ) :
    ∃ q, setPortFlags proc tr (-1) flags = .ok (q, 0) ∧ Remasked tr proc q ∧ ∀ p, InRange p →
      (q.block p).flags =
        if (proc.block p).tid = a.tid then flags else (proc.block p).flags := by
  obtain ⟨owned, hl⟩ := h.table.lists tr a ha
  obtain ⟨hpacked, -, hmem⟩ := id hl
  rw [setPortFlags, ha, deref_some, ok_bind, if_neg (by decide)]
  obtain ⟨hm, hf⟩ := setAllFrom_eq tr
    (proc.setThread tr { a with lastPortMessage := -1, lastPortPulse := -1 }) flags
    (packed_iff.mp hpacked) (fun p hp => ((hmem p).mp hp).1) hl.length_le
  refine ⟨_, rfl, (Remasked.setHints ha (-1) (-1)).trans hm, fun p hp => (hf p hp).trans ?_⟩
  exact if_congr ((hmem p).trans (and_iff_right hp)) rfl rfl

theorem setPortFlags_remasked (h : Agree proc) (ha : proc.threads tr = some a) (port : ℤ)
    (flags : ℕ) : ∃ q rc, setPortFlags proc tr port flags = .ok (q, rc) ∧ Remasked tr proc q := by
  by_cases hr : InRange port
  · obtain ⟨q, rc, hq, hm, -⟩ := setPortFlags_eq ha hr flags
    exact ⟨q, rc, hq, hm⟩
  by_cases hall : port = -1
  · obtain ⟨q, hq, hm, -⟩ := setPortFlags_all h ha flags
    exact ⟨q, 0, hall ▸ hq, hm⟩
  · refine ⟨proc, -1, ?_, .refl tr proc⟩
    have hout : port < -1 ∨ MAX_PORTS ≤ port := by
      by_contra hc
      exact hr ⟨by omega, by omega⟩
    rw [setPortFlags, ha, deref_some, ok_bind, if_pos hout]

theorem setFrom_remasked (h : Agree proc) (ha : proc.threads tr = some a) (pairs : ℕ → PortPair)
    (i left : ℕ) : ∃ q, setFrom tr pairs i left proc = .ok q ∧ Remasked tr proc q := by
  induction left generalizing i proc a with
  | zero => exact ⟨proc, rfl, .refl tr proc⟩
  | succ left ih =>
    rw [setFrom]
    by_cases hend : (pairs i).port = -1
    · rw [if_pos hend]
      exact ⟨proc, rfl, .refl tr proc⟩
    · obtain ⟨q, rc, hq, hm⟩ := setPortFlags_remasked h ha (pairs i).port (pairs i).flags
      obtain ⟨b, hb, -, -⟩ := hm.thread ha
      obtain ⟨q', hq', hm'⟩ := ih (hm.agree h) hb (i + 1)
      rw [if_neg hend, hq, ok_bind]
      exact ⟨q', hq', hm.trans hm'⟩

/-! ### Saving and restoring -/

/-- The pairs from `i` on are the ports of `rest` with their flags `f`, and then the list ends. -/
def SavedFrom (f : ℤ → ℕ) (pairs : ℕ → PortPair) : ℕ → ℕ → List ℤ → Prop
  | i, left, [] => left = 0 ∨ (pairs i).port = -1
  | i, left, p :: rest => 0 < left ∧ pairs i = ⟨p, f p⟩ ∧ SavedFrom f pairs (i + 1) (left - 1) rest

theorem getPortFlags_mod (hr : InRange port) (hopen : (proc.block port).tid ≠ -1) :
    (getPortFlags proc port % 2 ^ 32).toNat = (proc.block port).flags % 2 ^ 32 := by
  rw [getPortFlags, if_pos hr, if_neg hopen]
  have hmod : int32 (proc.block port).flags % 2 ^ 32 = (proc.block port).flags % 2 ^ 32 :=
    Int.bmod_emod
  omega

theorem getFrom_of_lt {ports : ℕ → ℤ} {i j left : ℕ} {pairs : ℕ → PortPair} (h : j < i) :
    getFrom proc ports i left pairs j = pairs j := by
  induction left generalizing i pairs with
  | zero => rfl
  | succ left ih =>
    rw [getFrom]
    split_ifs
    · exact Function.update_of_ne h.ne _ _
    · rw [ih (Nat.lt_succ_of_lt h), Function.update_of_ne h.ne]

theorem getFrom_saved (proc : Process) {ports : ℕ → ℤ} {i left : ℕ} {rest : List ℤ}
    (hp : PackedFrom ports i rest) (hr : ∀ p ∈ rest, InRange p ∧ (proc.block p).tid ≠ -1)
    (hl : rest.length ≤ left) (pairs : ℕ → PortPair) :
    SavedFrom (fun p => (proc.block p).flags % 2 ^ 32) (getFrom proc ports i left pairs) i left
      rest := by
  induction rest generalizing i left pairs with
  | nil =>
    cases left with
    | zero => exact .inl rfl
    | succ left =>
      have hend : ports i = -1 := hp 0
      refine .inr ?_
      rw [getFrom, if_pos hend, Function.update_self]
  | cons x rest ih =>
    cases left with
    | zero => cases hl
    | succ left =>
      have hx : ports i = x := hp 0
      obtain ⟨hrx, hopen⟩ := hr x List.mem_cons_self
      rw [getFrom, hx, if_neg hrx.ne]
      refine ⟨Nat.succ_pos left, ?_, ih hp.tail (fun p h => hr p (List.mem_cons_of_mem x h))
        (Nat.le_of_succ_le_succ hl) _⟩
      rw [getFrom_of_lt (Nat.lt_succ_self i), Function.update_self, getPortFlags_mod hrx hopen]

theorem setFrom_saved {f : ℤ → ℕ} {pairs : ℕ → PortPair} {i left : ℕ} {rest : List ℤ}
    (hs : SavedFrom f pairs i left rest) (hr : ∀ p ∈ rest, InRange p) (hn : rest.Nodup)
    (ha : proc.threads tr = some a) : ∃ q, setFrom tr pairs i left proc = .ok q ∧
      Remasked tr proc q ∧ ∀ p, InRange p → (q.block p).flags =
        if p ∈ rest ∧ (proc.block p).tid ≠ -1 then f p else (proc.block p).flags := by
  induction rest generalizing i left proc a with
  | nil =>
    have hstop : setFrom tr pairs i left proc = .ok proc := by
      rcases hs with rfl | hend
      · rfl
      · cases left with
        | zero => rfl
        | succ left => rw [setFrom, if_pos hend]
    exact ⟨proc, hstop, .refl tr proc, fun p _ => by rw [if_neg fun hc => List.not_mem_nil hc.1]⟩
  | cons x rest ih =>
    obtain ⟨hpos, hpair, hrest⟩ := hs
    obtain ⟨left, rfl⟩ := Nat.exists_eq_add_one_of_ne_zero hpos.ne'
    have hrx := hr x List.mem_cons_self
    obtain ⟨hnot, hn⟩ := List.nodup_cons.mp hn
    obtain ⟨q, rc, hq, hm, hf⟩ := setPortFlags_eq ha hrx (f x)
    obtain ⟨b, hb, -, -⟩ := hm.thread ha
    obtain ⟨q', hq', hm', hf'⟩ := ih hrest (fun p h => hr p (List.mem_cons_of_mem x h)) hn hb
    refine ⟨q', ?_, hm.trans hm', fun p hp => ?_⟩
    · rw [setFrom, hpair, if_neg hrx.ne, hq, ok_bind]
      exact hq'
    · rw [hf' p hp, hm.tid hp, hf p hp]
      by_cases hpx : p = x
      · subst hpx
        simp [hnot]
      · simp [hpx]

/-! ### Runs -/

inductive MaskCall
  | port (c : PortCall)
  | setFlags (tr : ℕ) (port : ℤ) (flags : ℕ)
  | restore (tr : ℕ) (pairs : ℕ → PortPair)

def MaskCall.exec (proc : Process) : MaskCall → Outcome Process
  | .port c => c.exec proc
  | .setFlags tr port flags => do
    let (proc, _) ← setPortFlags proc tr port flags
    .ok proc
  | .restore tr pairs => bulkSetPorts proc tr pairs

def maskSystem : System Process MaskCall Fault where
  Init := portSystem.Init
  Guard proc c := match c with
    | .port c => c.Permitted proc ∧ c.Named proc
    | .setFlags tr _ _ | .restore tr _ => ∃ a, proc.threads tr = some a
  step proc c := c.exec proc

theorem maskSystem_preserves : maskSystem.Preserves Agree := by
  intro s c h hg
  cases c with
  | port c => exact h.exec hg.1 hg.2
  | setFlags tr port flags =>
    obtain ⟨a, ha⟩ := hg
    obtain ⟨q, rc, hq, hm⟩ := setPortFlags_remasked h ha port flags
    exact ⟨q, by simp [maskSystem, MaskCall.exec, hq], hm.agree h⟩
  | restore tr pairs =>
    obtain ⟨a, ha⟩ := hg
    obtain ⟨q, hq, hm⟩ := setFrom_remasked h ha pairs 0 MAX_PORTS
    exact ⟨q, hq, hm.agree h⟩

/-- What a thread saves and restores later are the flags of its own ports, on those that are open
then, whoever has them; nothing else changes but the hints of the scans. With -1 it sets the flags
of its own ports. -/
theorem masks_restored {s t : Process} (hs : maskSystem.Reach s) {a b : Thread}
    (ha : s.threads tr = some a) (hb : t.threads tr = some b) (data : ℕ → PortPair) :
    (∃ pairs u, bulkGetPorts s tr data = .ok pairs ∧ bulkSetPorts t tr pairs = .ok u ∧
      Remasked tr t u ∧ ∀ p, InRange p → (u.block p).flags =
        if (s.block p).tid = a.tid ∧ (t.block p).tid ≠ -1 then (s.block p).flags % 2 ^ 32
        else (t.block p).flags) ∧
    ∀ flags, ∃ u, setPortFlags s tr (-1) flags = .ok (u, 0) ∧ Remasked tr s u ∧ ∀ p, InRange p →
      (u.block p).flags = if (s.block p).tid = a.tid then flags else (s.block p).flags := by
  have hinit : ∀ s, maskSystem.Init s → Agree s := fun _ => Agree.init
  have h : Agree s := hs.invariant hinit maskSystem_preserves
  refine ⟨?_, setPortFlags_all h ha⟩
  obtain ⟨owned, hl⟩ := h.table.lists tr a ha
  obtain ⟨hpacked, hnodup, hmem⟩ := id hl
  have hsaved := getFrom_saved s (packed_iff.mp hpacked) (fun p hp => by
    obtain ⟨hr, htid⟩ := (hmem p).mp hp
    exact ⟨hr, htid ▸ h.threads.tid_ne tr a ha⟩) hl.length_le data
  obtain ⟨u, hu, hm, hf⟩ := setFrom_saved hsaved (fun p hp => ((hmem p).mp hp).1) hnodup hb
  refine ⟨_, u, ?_, hu, hm, fun p hp => (hf p hp).trans ?_⟩
  · rw [bulkGetPorts, ha, deref_some, ok_bind]
  · exact if_congr (and_congr_left' ((hmem p).trans (and_iff_right hp))) rfl rfl

/-- A masked port, unmasked with all others and masked again by restoring. -/
theorem masks_restored_port : ∃ s t u pairs, maskSystem.Reach s ∧ maskSystem.Reach t ∧
    (s.block 5).flags = IPC_MASKED ∧ (t.block 5).flags = 0 ∧
    bulkGetPorts s 1 (fun _ => ⟨0, 0⟩) = .ok pairs ∧ bulkSetPorts t 1 pairs = .ok u ∧
    (u.block 5).flags = IPC_MASKED := by
  have h₁ := (System.Reach.of_init (S := maskSystem) (lone_init 114)).step
    (i := MaskCall.port (.create 1 5 1 true true))
    ⟨⟨_, rfl⟩, fun a ha _ _ => by
      cases ha
      exact ⟨some 1, rfl, fun h => absurd h.1 (by decide)⟩⟩ rfl
  have h₂ := h₁.step (i := MaskCall.setFlags 1 5 IPC_MASKED) ⟨_, rfl⟩ rfl
  have h₃ := h₂.step (i := MaskCall.setFlags 1 (-1) 0) ⟨_, rfl⟩ rfl
  have hrestored := fun {t} (_ : maskSystem.Reach t) {b} (hb : t.threads 1 = some b) =>
    @masks_restored 1 _ t h₂ _ b rfl hb fun _ => ⟨0, 0⟩
  obtain ⟨⟨pairs, u, hget, hset, -, hflags⟩, -⟩ := hrestored h₃ rfl
  exact ⟨_, _, u, pairs, h₂, h₃, rfl, rfl, hget, hset, (hflags 5 (by decide)).trans rfl⟩

end Racoon.Ipc
