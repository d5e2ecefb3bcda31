import Racoon.Scheduler.RunQueue

/-!
# The order of turns when a thread leaves

The scheduler runs the thread at `position` and steps on, round the run queue.
Both removers step `position` back by one whichever entry they have removed,
which is right only for an entry before it. The arithmetic is unsigned: at
position 0 the step back wraps to `2^32 - 1`, of which the remainder by the new
count is seldom 0.
-/

namespace Racoon.Scheduler
open Lib
variable {τ : Type}

/-- What the next `n` selection steps pick. -/
def selections : ℕ → SchedulerInfo τ → List (Option τ)
  | 0, _ => []
  | n + 1, si => (select si).2 :: selections n (select si).1

/-- A round of the run queue gives each entry one turn. -/
def SchedulerInfo.round (si : SchedulerInfo τ) : List (Option τ) := selections si.schedCount si

variable {si si' : SchedulerInfo τ} {members : List τ} {tr : τ}

namespace Intact

theorem position_lt (h : Intact si members) (hne : members ≠ []) :
    si.position < members.length := by
  have hp := h.position
  rw [h.count_eq, if_neg fun hz => hne (List.eq_nil_of_length_eq_zero hz)] at hp
  exact hp

theorem select_eq (h : Intact si members) (hne : members ≠ []) :
    (Scheduler.select si).2 = members[si.position]? := by
  have hp := h.position_lt hne
  have he := congrArg (·[si.position]?) h.entries
  simp only [getElem?_taken, h.count_eq, if_pos hp, List.getElem?_map] at he
  rw [List.getElem?_eq_getElem hp] at he ⊢
  simpa [Scheduler.select, h.count_eq, hne] using he

theorem selections_eq (h : Intact si members) (hne : members ≠ []) (n : ℕ) :
    selections n si =
      (List.range n).map fun i => members[(si.position + i) % members.length]? := by
  induction n generalizing si with
  | zero => rfl
  | succ n ih =>
    have hp := h.position_lt hne
    have hstep : (Scheduler.select si).1.position = (si.position + 1) % members.length := by
      simp [Scheduler.select, h.count_eq, hne]
    rw [selections, ih h.select, h.select_eq hne, List.range_succ_eq_map, List.map_cons,
      List.map_map, Nat.add_zero, Nat.mod_eq_of_lt hp, hstep]
    congr 2
    funext i
    simp only [Function.comp, Nat.mod_add_mod, Nat.add_assoc, Nat.add_comm 1 i]

/-- A round visits every member once, from the one at `position` on. -/
theorem round_eq (h : Intact si members) (hne : members ≠ []) :
    si.round = (members.rotate si.position).map some := by
  rw [SchedulerInfo.round, h.selections_eq hne, h.count_eq]
  apply List.ext_getElem?
  intro i
  rw [List.getElem?_map, List.getElem?_map]
  by_cases hi : i < members.length
  · have hm : (i + si.position) % members.length < members.length :=
      Nat.mod_lt _ (List.length_pos_iff.mpr hne)
    rw [List.getElem?_range hi, List.getElem?_rotate hi, List.getElem?_eq_getElem hm]
    simp only [Option.map_some, Nat.add_comm si.position i, List.getElem?_eq_getElem hm]
  · rw [List.getElem?_eq_none (by simpa using hi), List.getElem?_eq_none (by simpa using hi)]
    rfl

end Intact

variable [DecidableEq τ]

/-- The thread that comes next once `tr` is gone: the one that would have come next, or its
cyclic successor. -/
def heir (si : SchedulerInfo τ) (members : List τ) (tr : τ) : Option τ :=
  if (select si).2 = some tr then members[(si.position + 1) % members.length]? else (select si).2

/-- Removing `tr` has kept the order of turns: the right thread comes next, and in the round
that follows each thread but `tr` comes in its place of the round before. -/
structure TurnsKept (si : SchedulerInfo τ) (members : List τ) (tr : τ) (si' : SchedulerInfo τ) :
    Prop where
  next : (select si').2 = heir si members tr
  round : si'.round = si.round.erase (some tr)

/-- The entry of `tr` comes before the position, or the step back from position 0 ends at the
first entry again; with two threads only one is left. -/
def StepsBack (si : SchedulerInfo τ) (members : List τ) (tr : τ) : Prop :=
  members.idxOf tr < si.position ∨ members.length = 2 ∨
    si.position = 0 ∧ members.length - 1 ∣ 2 ^ 32 - 1

omit [DecidableEq τ] in
theorem closeGap_position (h : Intact si members) (hn : 2 ≤ members.length)
    (hw : si.position < 2 ^ 32) (pos : ℕ) : (closeGap si pos).position =
      if si.position = 0 then (2 ^ 32 - 1) % (members.length - 1) else si.position - 1 := by
  have hp := h.position_lt fun hnil => by simp [hnil] at hn
  have hcount : si.schedCount - 1 = members.length - 1 := by rw [h.count_eq]
  simp only [closeGap, hcount]
  rw [if_neg (by omega)]
  split_ifs with hz
  · rw [hz]
    rfl
  · rw [sub32_of_le hw (Nat.pos_of_ne_zero hz), Nat.mod_eq_of_lt (by omega)]

namespace Intact

theorem select_eq_iff (h : Intact si members) (htr : tr ∈ members) :
    (Scheduler.select si).2 = some tr ↔ si.position = members.idxOf tr := by
  have hne := List.ne_nil_of_mem htr
  rw [h.select_eq hne]
  have hr : members[members.idxOf tr]? = some tr := List.getElem?_idxOf htr
  refine ⟨fun he => ?_, fun he => he ▸ hr⟩
  exact (List.getElem?_inj (h.position_lt hne) h.nodup).mp (he.trans hr.symm)

/-- The place among the members of the thread that should come next. -/
theorem heir_eq (h : Intact si members) (htr : tr ∈ members) : heir si members tr =
    members[if si.position = members.idxOf tr then (si.position + 1) % members.length
      else si.position]? := by
  have hsel := h.select_eq_iff htr
  unfold heir
  split_ifs with hs hp hp
  · rfl
  · exact absurd (hsel.mp hs) hp
  · exact absurd (hsel.mpr hp) hs
  · exact h.select_eq (List.ne_nil_of_mem htr)

theorem erase_ne_nil (hn : 2 ≤ members.length) (htr : tr ∈ members) : members.erase tr ≠ [] := by
  have hlen := List.length_erase_of_mem htr
  exact fun hnil => by simp [hnil] at hlen; omega

/-- The place among the members, before the removal, of the thread that does come next. -/
theorem select_erase (h' : Intact si' (members.erase tr)) (hn : 2 ≤ members.length)
    (htr : tr ∈ members) : (Scheduler.select si').2 =
      members[if si'.position < members.idxOf tr then si'.position else si'.position + 1]? := by
  rw [h'.select_eq (erase_ne_nil hn htr), List.erase_eq_eraseIdx_of_idxOf rfl,
    List.getElem?_eraseIdx]
  split_ifs <;> rfl

theorem next_iff (h : Intact si members) (hn : 2 ≤ members.length) (hw : si.position < 2 ^ 32)
    (htr : tr ∈ members) (h' : Intact si' (members.erase tr))
    (hpos : si'.position = (Scheduler.closeGap si (find si tr)).position) :
    (Scheduler.select si').2 = heir si members tr ↔ StepsBack si members tr := by
  have hp := h.position_lt (List.ne_nil_of_mem htr)
  have hr := List.idxOf_lt_length_of_mem htr
  have hmod : (2 ^ 32 - 1) % (members.length - 1) < members.length - 1 :=
    Nat.mod_lt _ (by omega)
  have hsucc : (si.position + 1) % members.length =
      if si.position + 1 = members.length then 0 else si.position + 1 := by
    split_ifs with hl
    · rw [hl, Nat.mod_self]
    · exact Nat.mod_eq_of_lt (by omega)
  have hone : members.length = 2 → (2 ^ 32 - 1) % (members.length - 1) = 0 := fun hl => by
    rw [hl, Nat.mod_one]
  rw [select_erase h' hn htr, h.heir_eq htr, StepsBack, Nat.dvd_iff_mod_eq_zero, hpos,
    closeGap_position h hn hw, hsucc]
  generalize (2 ^ 32 - 1) % (members.length - 1) = m at hmod hone ⊢
  refine ⟨fun he => ?_, fun hc => congrArg (members[·]?) ?_⟩
  · have hidx := (List.getElem?_inj (by split_ifs <;> omega) h.nodup).mp he
    split_ifs at hidx <;> omega
  · split_ifs <;> omega

/-- Erasing an entry of the part that a rotation puts last. -/
theorem rotate_erase {p : ℕ} (hn : members.Nodup) (hp : p ≤ members.length)
    (htr : members.idxOf tr < p) :
    (members.erase tr).rotate (p - 1) = (members.rotate p).erase tr := by
  have hmem : tr ∈ members.take p := by
    refine List.mem_iff_getElem?.mpr ⟨members.idxOf tr, ?_⟩
    rw [List.getElem?_take_of_lt htr]
    exact List.getElem?_idxOf (List.idxOf_lt_length_iff.mp (by omega))
  have hnot : tr ∉ members.drop p := fun hd => List.disjoint_take_drop hn le_rfl hmem hd
  have hlen : ((members.take p).erase tr).length = p - 1 := by
    rw [List.length_erase_of_mem hmem, List.length_take_of_le hp]
  have herase : members.erase tr = (members.take p).erase tr ++ members.drop p := by
    conv_lhs => rw [← List.take_append_drop p members]
    exact List.erase_append_left _ hmem
  rw [List.rotate_eq_drop_append_take hp, List.erase_append_right _ hnot, herase, ← hlen,
    List.rotate_append_length_eq]

/-- With the right thread next, the order of the queue does the rest. -/
theorem round_of_stepsBack (h : Intact si members) (hn : 2 ≤ members.length)
    (hw : si.position < 2 ^ 32) (htr : tr ∈ members) (h' : Intact si' (members.erase tr))
    (hpos : si'.position = (Scheduler.closeGap si (find si tr)).position)
    (hc : StepsBack si members tr) : si'.round = si.round.erase (some tr) := by
  have hne := List.ne_nil_of_mem htr
  have hp := h.position_lt hne
  rw [closeGap_position h hn hw] at hpos
  rw [h'.round_eq (erase_ne_nil hn htr), h.round_eq hne, ← List.map_erase (Option.some_injective τ)]
  congr 1
  rcases hc with hlt | htwo | ⟨hzero, hdvd⟩
  · rw [if_neg (by omega)] at hpos
    rw [hpos, rotate_erase h.nodup hp.le hlt]
  · obtain ⟨other, hother⟩ := List.length_eq_one_iff.mp
      ((List.length_erase_of_mem htr).trans (by rw [htwo]))
    have hperm := (List.rotate_perm members si.position).erase tr
    rw [hother] at hperm ⊢
    rw [List.rotate_singleton, List.perm_singleton.mp hperm]
  · rw [if_pos hzero, Nat.mod_eq_zero_of_dvd hdvd] at hpos
    rw [hpos, hzero, List.rotate_zero, List.rotate_zero]

theorem turnsKept_iff (h : Intact si members) (hn : 2 ≤ members.length)
    (hw : si.position < 2 ^ 32) (htr : tr ∈ members) (h' : Intact si' (members.erase tr))
    (hpos : si'.position = (Scheduler.closeGap si (find si tr)).position) :
    TurnsKept si members tr si' ↔ StepsBack si members tr :=
  ⟨fun hk => (h.next_iff hn hw htr h' hpos).mp hk.next, fun hc =>
    ⟨(h.next_iff hn hw htr h' hpos).mpr hc, h.round_of_stepsBack hn hw htr h' hpos hc⟩⟩

end Intact

/-- Either remover keeps the order of turns exactly when its step back is right. -/
theorem removal_keeps_turns {c : Cpu τ} (h : Intact c.si members) (hn : 2 ≤ members.length)
    (hw : c.si.position < 2 ^ 32) (htr : tr ∈ members) :
    (∀ current, some tr ≠ current → ∃ si', subDequeue current c.si tr = .ok si' ∧
      (TurnsKept c.si members tr si' ↔ StepsBack c.si members tr)) ∧
    (c.si.requestingThread = some tr → 0 ≤ c.si.requestingState → ∃ d, removeLast c = .ok d ∧
      (TurnsKept c.si members tr d.si ↔ StepsBack c.si members tr)) := by
  have hfind := mt (h.find_eq_count_iff tr).mp (not_not.mpr htr)
  have hgap := h.closeGap htr
  refine ⟨fun current hcur => ⟨_, ?_, h.turnsKept_iff hn hw htr hgap rfl⟩, fun hreq hstate => ?_⟩
  · simp only [subDequeue, assert_of hcur, assert_of hfind, ok_bind]
  · have hlast : honourLast c = Cpu.clearRequest ⟨closeGap c.si (find c.si tr),
        Function.update c.threads tr
          { c.threads tr with state := c.si.requestingState, cpu := -1 }⟩ := by
      simp only [honourLast, hreq, if_pos hstate, honourRequest, if_neg hfind]
    refine ⟨honourLast c, ?_, ?_⟩
    · rw [removeLast, hlast]
      rfl
    · rw [hlast]
      exact h.turnsKept_iff hn hw htr (Intact.clearRequest (c := ⟨_, _⟩) hgap) rfl

/-- Three threads, of which the first has just run. -/
def threeQueued : SchedulerInfo ℕ :=
  { loadScheduler 0 (fun _ => ⟨none, 0, 0, 0⟩) with
    schedQueue := fun i => if i < 3 then some i else none
    schedCount := 3
    position := 1 }

theorem threeQueued_intact : Intact threeQueued [0, 1, 2] :=
  ⟨by decide, by decide, rfl, by decide⟩

theorem removal_keeps_turns_threeQueued : ∃ si', subDequeue none threeQueued 0 = .ok si' ∧
    (TurnsKept threeQueued [0, 1, 2] 0 si' ↔ StepsBack threeQueued [0, 1, 2] 0) :=
  (removal_keeps_turns (c := ⟨threeQueued, fun _ => ⟨1, 0, 0⟩⟩) threeQueued_intact (by decide)
    (by decide) (by decide)).1 none nofun

/-- Thread 1 was next. When thread 2 leaves, thread 0 gets a second turn in its place. -/
theorem turn_lost : ∃ si', subDequeue (some 0) threeQueued 2 = .ok si' ∧
    (select si').2 = some 0 ∧ heir threeQueued [0, 1, 2] 2 = some 1 ∧
      ¬TurnsKept threeQueued [0, 1, 2] 2 si' :=
  ⟨_, rfl, by decide, by decide, fun h => absurd h.next (by decide)⟩

end Racoon.Scheduler
