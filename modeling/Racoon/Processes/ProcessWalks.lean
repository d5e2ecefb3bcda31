import Racoon.Processes.ProcessTrees

/-!
# Walks over the processes

What `checkout_process`, `find_process` and `process_foreach` see is the registry:
the process with a pid, the first in the list with a name, and every process once
in the order of the list. Of several processes with one name it is the first one of
all that is found, or else the newest.
-/

namespace Racoon.ProcessTable
open Lib Lib.Lineage Families Gc HashTables RwLocks Strings
open Listing (SMK_NAME_LENGTH)

/-- What `process_get_list` and its like read of a process. -/
def view (p : Gc.Process) : Listing.Process := ⟨p.key.name, p.key.pid.toNat, p.state.toNat⟩

/-- The processes of a list of addresses. -/
def views (k : Kernel) (l : List ℕ) : List Listing.Process :=
  l.filterMap fun a => (k.processes a).map view

variable {s : Processes} {r : Registry} {l xs : List ℕ} {k : Kernel} {a : Option ℕ} {left : ℕ}
  {ms : List (Member ℤ CString)}

theorem views_cons {p : Gc.Process} {x : ℕ} (hp : k.processes x = some p) (xs : List ℕ) :
    views k (x :: xs) = view p :: views k xs := by
  rw [views, List.filterMap_cons, hp, Option.map_some]
  rfl

theorem load_of_key {key : Identifiers.ProcessKey} {x : ℕ} (h : Tied s r l) (hx : x ∈ l)
    (hkey : keyAt s.kernel x = some key) : ∃ p v, s.kernel.processes x = some p ∧ p.key = key ∧
      s.kernel.processTree x = some v := by
  obtain ⟨p, hp, rfl⟩ := Option.map_eq_some_iff.mp hkey
  obtain ⟨v, hv⟩ := mem_nodes.mp (h.in_nodes hx)
  exact ⟨p, v, hp, rfl, hv⟩

/-- By induction on the rest of the list. -/
theorem Tied.findFrom (h : Tied s r l) (name : CString) (hsub : ∀ x ∈ xs, x ∈ l)
    (hl : Linked (via Ties.next s.kernel.processTree) (via Ties.prev s.kernel.processTree) a xs
      none)
    (hms : xs.map (member s.kernel.processTree (keyAt s.kernel)) = ms.map some)
    (hleft : xs.length ≤ left) : ProcessTable.findFrom s.kernel name left xs.head? =
      .ok (((ms.find? fun m => kstrncmp name m.label SMK_NAME_LENGTH = 0).map
        Member.id).getD (-1)) := by
  induction xs generalizing left a ms with
  | nil =>
    rw [List.map_eq_nil_iff.mp hms.symm]
    cases left <;> rfl
  | cons x xs ih =>
    obtain ⟨left, rfl⟩ : ∃ n, left = n + 1 := Nat.exists_eq_add_one_of_ne_zero (by
      rw [List.length_cons] at hleft
      omega)
    obtain ⟨key, hkey⟩ := h.present x (hsub x List.mem_cons_self)
    obtain ⟨p, v, hp, rfl, hv⟩ := load_of_key h (hsub x List.mem_cons_self) hkey
    obtain ⟨m, ms, rfl, hm, hms'⟩ := List.map_eq_cons_iff.mp hms.symm
    rw [member, hkey, Option.map_some, Option.some.injEq] at hm
    subst hm
    rw [List.head?_cons, ProcessTable.findFrom, hp, deref_some, ok_bind]
    by_cases hname : kstrncmp name p.key.name SMK_NAME_LENGTH = 0
    · rw [if_pos hname, List.find?_cons_of_pos (by simpa using hname)]
      rfl
    · have hnext : v.next = xs.head? := by
        have := hl.2.1
        rwa [via_of hv, Option.or_none] at this
      rw [if_neg hname, load_some hv, ok_bind, hnext, List.find?_cons_of_neg (by simpa using hname)]
      exact ih (fun y hy => hsub y (List.mem_cons_of_mem _ hy)) hl.2.2 hms'.symm
        (Nat.le_of_succ_le_succ hleft)

theorem Tied.foreachFrom {σ : Type} (callback : σ → Listing.Process → Outcome (ℤ × σ))
    (h : Tied s r l) (hsub : ∀ x ∈ xs, x ∈ l)
    (hl : Linked (via Ties.next s.kernel.processTree) (via Ties.prev s.kernel.processTree) a xs
      none)
    (hleft : xs.length ≤ left) (ans : ℤ) (x : σ) :
    ProcessTable.foreachFrom (fun x p => callback x (view p)) s.kernel left xs.head? ans x =
      Listing.foreachFrom callback (views s.kernel xs) ans x := by
  induction xs generalizing left a ans x with
  | nil => cases left <;> rfl
  | cons y xs ih =>
    obtain ⟨left, rfl⟩ : ∃ n, left = n + 1 := Nat.exists_eq_add_one_of_ne_zero (by
      rw [List.length_cons] at hleft
      omega)
    obtain ⟨key, hkey⟩ := h.present y (hsub y List.mem_cons_self)
    obtain ⟨p, v, hp, rfl, hv⟩ := load_of_key h (hsub y List.mem_cons_self) hkey
    have hnext : v.next = xs.head? := by
      have := hl.2.1
      rwa [via_of hv, Option.or_none] at this
    rw [List.head?_cons, ProcessTable.foreachFrom, hp, deref_some, ok_bind, views_cons hp,
      Listing.foreachFrom]
    cases callback x (view p) with
    | error e => rfl
    | ok ax =>
      obtain ⟨ans', x'⟩ := ax
      rw [ok_bind, ok_bind]
      dsimp only
      by_cases hans : ans' ≠ 0
      · rw [if_pos hans, if_pos hans]
      · rw [if_neg hans, if_neg hans, load_some hv, ok_bind, hnext]
        exact ih (fun z hz => hsub z (List.mem_cons_of_mem _ hz)) hl.2.2
          (Nat.le_of_succ_le_succ hleft) ans' x'

/-- The names and pids that are read on the way are the ones of the registry. -/
theorem Tied.views (h : Tied s r l) :
    (ProcessTable.views s.kernel l).map (fun p => (p.name, p.pid)) =
      r.listed.map fun m => (m.label, m.id.toNat) := by
  have hall : ∀ (xs : List ℕ) (ms : List (Member ℤ CString)), (∀ x ∈ xs, x ∈ l) →
      xs.map (member s.kernel.processTree (keyAt s.kernel)) = ms.map some →
      (ProcessTable.views s.kernel xs).map (fun p => (p.name, p.pid)) =
        ms.map fun m => (m.label, m.id.toNat) := by
    intro xs
    induction xs with
    | nil =>
      intro ms _ hms
      rw [List.map_eq_nil_iff.mp hms.symm]
      rfl
    | cons x xs ih =>
      intro ms hsub hms
      obtain ⟨key, hkey⟩ := h.present x (hsub x List.mem_cons_self)
      obtain ⟨p, v, hp, rfl, -⟩ := load_of_key h (hsub x List.mem_cons_self) hkey
      obtain ⟨m, ms, rfl, hm, hms'⟩ := List.map_eq_cons_iff.mp hms.symm
      rw [member, hkey, Option.map_some, Option.some.injEq] at hm
      subst hm
      rw [views_cons hp, List.map_cons, List.map_cons,
        ih ms (fun y hy => hsub y (List.mem_cons_of_mem _ hy)) hms'.symm]
      rfl
  exact hall l r.listed (fun _ hx => hx) h.members

/-- After any run, what is found by pid, found by name and walked over is the registry. -/
theorem process_walks_agree {s₀ : Processes} {is : List (Setting × Call)}
    (h₀ : processSystem.Init s₀) (h : processSystem.Steps s₀ is s) : ∃ r ps,
    System.Performs Call.Spec ⟨[], fun _ => none⟩ is r ∧
    ps.map (fun p : Listing.Process => (p.name, p.pid)) =
      r.listed.map (fun m => (m.label, m.id.toNat)) ∧
    (∀ pid, Fits pid → (s.kernel.findProcess pid = .ok none ∧ ∀ m ∈ r.listed, m.id ≠ pid) ∨
      ∃ a p m, s.kernel.findProcess pid = .ok (some a) ∧ s.kernel.processes a = some p ∧
        m ∈ r.listed ∧ m.id = pid ∧ p.key = ⟨m.id, m.label⟩) ∧
    ∀ bound, r.listed.length ≤ bound →
      (∀ name, findProcess bound s name = .ok (s, ((r.listed.find? fun m =>
        kstrncmp name m.label SMK_NAME_LENGTH = 0).map Member.id).getD (-1))) ∧
      ∀ (σ : Type) (callback : σ → Listing.Process → Outcome (ℤ × σ)) flags x,
        processForeach bound (fun x p => callback x (view p)) flags s x =
          Listing.processForeach callback flags s.kernel.processLock ps x >>= fun y =>
            .ok (⟨{ s.kernel with processLock := y.2.2 }, s.root⟩, y.1, y.2.1) := by
  obtain ⟨k, rfl, hp, ht⟩ := h₀
  obtain ⟨r, hr, l, hl⟩ := h.simulates (R := Represents) (fun _ _ _ hR hg => by
    obtain ⟨l, hl⟩ := hR
    exact hl.step hg) ⟨[], Tied.init hp ht⟩
  have hlen : l.length = r.listed.length := by
    have := congrArg List.length hl.members
    rwa [List.length_map, List.length_map] at this
  refine ⟨r, ProcessTable.views s.kernel l, hr, hl.views, fun pid hpid => ?_, fun bound hbound =>
    ⟨fun name => ?_, fun σ callback flags x => ?_⟩⟩
  · rcases hl.find hpid with ⟨hf, hno⟩ | ⟨a, ha, key, hkey, hkpid, hf⟩
    · exact .inl ⟨hf, fun m hm he => hno (he ▸ List.mem_map_of_mem hm)⟩
    · obtain ⟨p, hp, rfl⟩ := Option.map_eq_some_iff.mp hkey
      have hmem := List.mem_map_of_mem (f := member s.kernel.processTree (keyAt s.kernel)) ha
      rw [hl.members, member, hkey, Option.map_some] at hmem
      obtain ⟨m, hm, he⟩ := List.mem_map.mp hmem
      cases he
      exact .inr ⟨a, p, _, hf, hp, hm, hkpid, rfl⟩
  · obtain ⟨hreaders, hwriters, hrequest⟩ := hl.lock
    rw [findProcess, rwlockGetReadAccess_eq_ok.mpr ⟨⟨hwriters, hrequest⟩, rfl⟩, ok_bind, hl.root,
      hl.findFrom name (fun _ hx => hx) hl.listed.2 hl.members (hlen.trans_le hbound), ok_bind,
      rwlockRelease_read hreaders hwriters, ← hl.root]
  · rw [processForeach, Listing.processForeach]
    cases Listing.foreachAccess flags s.kernel.processLock with
    | error e => rfl
    | ok lock =>
      rw [ok_bind, ok_bind, hl.root, hl.foreachFrom callback (fun _ hx => hx) hl.listed.2
        (hlen.trans_le hbound)]
      cases Listing.foreachFrom callback (ProcessTable.views s.kernel l) 0 x with
      | error e => rfl
      | ok ax => rfl

/-- The second process is found by its name. -/
theorem process_walks_agree_twoProcesses : ∃ s r,
    processSystem.Steps (initProcesses noProcesses) twoProcesses s ∧
    System.Performs Call.Spec ⟨[], fun _ => none⟩ twoProcesses r ∧
    ((r.listed.find? fun m => kstrncmp Env.nameB m.label SMK_NAME_LENGTH = 0).map
      Member.id).getD (-1) = 2 ∧
    findProcess (r.listed.length + 2) s Env.nameB = .ok (s, 2) := by
  obtain ⟨s, hs, hfind⟩ := twoProcesses_run
  obtain ⟨r, ps, hr, -, -, hwalks⟩ := process_walks_agree noProcesses_init hs
  have hname := (hwalks (r.listed.length + 2) (Nat.le_add_right _ 2)).1 Env.nameB
  obtain ⟨s', hs'⟩ := hfind r.listed.length
  have heq := Except.ok.inj (hname.symm.trans hs')
  have hpid := (Prod.mk.inj heq).2
  exact ⟨s, r, hs, hr, hpid, hpid ▸ hname⟩

end Racoon.ProcessTable
