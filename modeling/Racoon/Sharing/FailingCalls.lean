import Racoon.Sharing.AccessControl
import Racoon.Sharing.LockedCalls

/-!
# Calls that fail

A call that answers -1 is meant to leave everything as it was. Two returns do
not: the one of `shmem_revoke` for want of a scratch pad skips
`enable_interrupts`, and the one of `shmem_request` for want of room leaves the
entry that the call has made for a promiscuous region.
-/

namespace Racoon.Sharing.Locked
open Paging Strings
open PhysicalMemory (Physmem memoryAlloc memoryFree)

/-- Lists, entries, maps, free pages and the interrupt flag are as they were, and no lock is
held. -/
structure NoTrace (s s' : State) : Prop where
  table : s'.kernel.table = s.kernel.table
  infos : s'.kernel.infos = s.kernel.infos
  maps : s'.kernel.maps = s.kernel.maps
  pages : s'.pm.free = s.pm.free
  held : s'.held = []
  interrupts : s'.kernel.interrupts = s.kernel.interrupts

section Refusals
variable {kernel : Kernel} {pm : Physmem} {s' : State} {id pid owner : ℤ}
  {kmalloc : Option (ℕ × Physmem)} {chain : ℤ → List ℕ}

theorem grant_refused {flags : ℕ}
    (he : shmemGrant ⟨kernel, pm, []⟩ kmalloc owner id pid flags = .ok (s', -1)) :
    s' = ⟨kernel, pm, []⟩ := by
  obtain ⟨-, hsame, -⟩ | ⟨sh, -, he⟩ := withRegion_eq_ok he
  · exact hsame
  · split_ifs at he with howner
    · exact (leave_eq_ok.mp he).1
    obtain ⟨found, -, he⟩ := bind_eq_ok.mp he
    cases found with
    | some p => exact (leave_eq_ok.mp he).1
    | none =>
      cases kmalloc with
      | none => exact (leave_eq_ok.mp he).1
      | some allocated =>
        obtain ⟨k, -, he⟩ := bind_eq_ok.mp he
        exact absurd (leave_eq_ok.mp he).2 (by norm_num)

theorem release_refused {memory : ℕ → ℕ}
    (he : shmemRelease ⟨kernel, pm, []⟩ memory pid id = .ok (s', -1)) :
    s' = ⟨kernel, pm, []⟩ := by
  obtain ⟨-, hsame, -⟩ | ⟨sh, -, he⟩ := withRegion_eq_ok he
  · exact hsame
  · obtain ⟨found, -, he⟩ := bind_eq_ok.mp he
    cases found with
    | none => exact (leave_eq_ok.mp he).1
    | some p =>
      obtain ⟨info, -, he⟩ := bind_eq_ok.mp he
      dsimp only at he
      split_ifs at he with husage
      · obtain ⟨map, -, he⟩ := bind_eq_ok.mp he
        obtain ⟨map', -, he⟩ := bind_eq_ok.mp he
        exact absurd (leave_eq_ok.mp he).2 (by norm_num)
      · exact absurd (leave_eq_ok.mp he).2 (by norm_num)

theorem dropInfo_answer {sh : Shmem} {p : ℕ} {rc : ℤ}
    (he : dropInfo (within kernel pm id) id sh p = .ok (s', rc)) : rc = 0 := by
  obtain ⟨⟨k, rc'⟩, hunlink, he⟩ := bind_eq_ok.mp he
  obtain ⟨info, -, hunlink⟩ := bind_eq_ok.mp hunlink
  obtain ⟨infos, -, hunlink⟩ := bind_eq_ok.mp hunlink
  cases hunlink
  exact (leave_eq_ok.mp he).2

/-- The owner revokes the region from a process that uses it, with no memory for a scratch pad. -/
def Unpadded (kernel : Kernel) (pm : Physmem) (chain : ℤ → List ℕ) (owner pid id : ℤ) : Prop :=
  ∃ sh e pm', kernel.table id = some sh ∧ owner = sh.pid ∧
    (registry kernel chain).entry id pid = some e ∧ 0 < e.usage ∧
    memoryAlloc pm (asSize sh.physicalPages) = .ok (pm', 0)

theorem revoke_refused (hl : Listed kernel chain)
    (he : shmemRevoke ⟨kernel, pm, []⟩ owner pid id = .ok (s', -1)) :
    ¬ Unpadded kernel pm chain owner pid id ∧ s' = ⟨kernel, pm, []⟩ ∨
    Unpadded kernel pm chain owner pid id ∧ ∃ n pm', memoryAlloc pm n = .ok (pm', 0) ∧
      s' = ⟨{ kernel with interrupts := false }, pm', []⟩ := by
  obtain ⟨ht, hsame, -⟩ | ⟨sh, ht, he⟩ := withRegion_eq_ok he
  · refine .inl ⟨fun ⟨sh, e, pm', hsh, _⟩ => ?_, hsame⟩
    rw [ht] at hsh
    cases hsh
  · dsimp only at he
    by_cases howner : owner ≠ sh.pid
    · rw [if_pos howner] at he
      refine .inl ⟨fun ⟨sh', e, pm', hsh, hown, _⟩ => ?_, (leave_eq_ok.mp he).1⟩
      rw [ht] at hsh
      cases hsh
      exact howner hown
    have hkernel : (within kernel pm id).kernel = kernel := rfl
    rw [if_neg howner, hkernel] at he
    rcases hl.find ht pid with ⟨hf, hnone⟩ | ⟨p, v, hf, hp, hv, -, hentry⟩
    · rw [hf, ok_bind] at he
      refine .inl ⟨fun ⟨sh', e, pm', _, _, hentry, _⟩ => ?_, (leave_eq_ok.mp he).1⟩
      rw [hnone] at hentry
      cases hentry
    · rw [hf, ok_bind] at he
      dsimp only at he
      rw [load_some hv, ok_bind] at he
      by_cases husage : 0 < v.usage
      · rw [if_pos husage] at he
        obtain ⟨⟨pm', data⟩, halloc, he⟩ := bind_eq_ok.mp he
        dsimp only at he
        by_cases hdata : data = 0
        · subst hdata
          rw [if_pos rfl] at he
          exact .inr ⟨⟨sh, v.entry, pm', ht, not_not.mp howner, hentry, husage, halloc⟩, _, pm',
            halloc, (leave_eq_ok.mp he).1⟩
        · rw [if_neg hdata] at he
          obtain ⟨map, -, he⟩ := bind_eq_ok.mp he
          obtain ⟨⟨pm₁, map'⟩, -, he⟩ := bind_eq_ok.mp he
          dsimp only at he
          split_ifs at he with henabled
          · exact absurd (dropInfo_answer he) (by norm_num)
          · exact absurd (dropInfo_answer he) (by norm_num)
      · rw [if_neg husage] at he
        exact absurd (dropInfo_answer he) (by norm_num)

theorem pageProvide_refused {memory : ℕ → ℕ} {pm' : Physmem} {d d' : PageDirectory}
    {physical start finish pages type : ℕ}
    (he : pageProvide memory pm d physical start finish pages type = .ok (pm', d', 0)) :
    pm' = pm ∧ d' = d ∧ pageFindFree memory d start finish pages = .ok 0 := by
  obtain ⟨location, hfind, he⟩ := bind_eq_ok.mp he
  by_cases hloc : location = 0
  · rw [if_pos hloc] at he
    cases he
    exact ⟨rfl, rfl, hloc ▸ hfind⟩
  · rw [if_neg hloc] at he
    obtain ⟨⟨pm₁, d₁⟩, -, he⟩ := bind_eq_ok.mp he
    cases he
    exact absurd rfl hloc

theorem countRequest_answer {p : ℕ} {access : Option Access}
    (he : countRequest (within kernel pm id) id p = .ok (s', access)) : access ≠ none := by
  obtain ⟨⟨k, access'⟩, hcount, he⟩ := bind_eq_ok.mp he
  obtain ⟨info, -, hcount⟩ := bind_eq_ok.mp hcount
  cases hcount
  rw [(leave_eq_ok.mp he).2]
  exact Option.some_ne_none _

theorem mapRequest_refused {memory : ℕ → ℕ} {sh : Shmem} {p : ℕ} {v : ShmemInfo}
    (hv : kernel.infos p = some v)
    (he : mapRequest (within kernel pm id) memory pid id sh p = .ok (s', none)) :
    v.virtualPages < 0 ∧ ∃ d, kernel.maps pid = some d ∧
      pageFindFree memory d sK_BASE sK_CEILING (asSize sh.physicalPages) = .ok 0 ∧
      s' = ⟨(kernel.setMap pid d).setInfo p (some { v with virtualLocation := 0 }), pm, []⟩ := by
  have hkernel : (within kernel pm id).kernel = kernel := rfl
  rw [mapRequest, hkernel, load_some hv, ok_bind] at he
  by_cases hpages : v.virtualPages < 0
  · rw [if_pos hpages] at he
    obtain ⟨d, hd, he⟩ := bind_eq_ok.mp he
    obtain ⟨⟨pm', d', location⟩, hprovide, he⟩ := bind_eq_ok.mp he
    dsimp only at he
    by_cases hloc : location = 0
    · rw [if_pos hloc] at he
      have hs := (leave_eq_ok.mp he).1
      rw [hloc] at hprovide hs
      obtain ⟨rfl, rfl, hfind⟩ := pageProvide_refused hprovide
      exact ⟨hpages, d', deref_eq_ok.mp hd, hfind, hs⟩
    · rw [if_neg hloc] at he
      exact absurd rfl (countRequest_answer he)
  · rw [if_neg hpages] at he
    exact absurd rfl (countRequest_answer he)

/-- A process that has no entry asks for a promiscuous region, which there is no room to map. -/
def Roomless (kernel : Kernel) (chain : ℤ → List ℕ) (kmalloc : Option (ℕ × Physmem))
    (memory : ℕ → ℕ) (pid id : ℤ) : Prop :=
  ∃ sh d, kernel.table id = some sh ∧ (registry kernel chain).entry id pid = none ∧
    Promiscuous sh ∧ kmalloc ≠ none ∧ kernel.maps pid = some d ∧
    pageFindFree memory d sK_BASE sK_CEILING (asSize sh.physicalPages) = .ok 0

theorem request_refused {memory : ℕ → ℕ} (hl : Listed kernel chain)
    (hm : ∀ p pm', kmalloc = some (p, pm') → kernel.infos p = none ∧ p < walkBound)
    (he : shmemRequest ⟨kernel, pm, []⟩ kmalloc memory pid id = .ok (s', none)) :
    ¬ Roomless kernel chain kmalloc memory pid id ∧ (s' = ⟨kernel, pm, []⟩ ∨
      ∃ p v d, kernel.infos p = some v ∧ (registry kernel chain).entry id pid = some v.entry ∧
        v.virtualPages < 0 ∧ kernel.maps pid = some d ∧
        s' = ⟨(kernel.setMap pid d).setInfo p (some { v with virtualLocation := 0 }), pm, []⟩) ∨
    Roomless kernel chain kmalloc memory pid id ∧ s'.kernel.table ≠ kernel.table := by
  obtain ⟨ht, hsame, -⟩ | ⟨sh, ht, he⟩ := withRegion_eq_ok he
  · refine .inl ⟨?_, .inl hsame⟩
    rintro ⟨sh, d, hsh, -⟩
    rw [ht] at hsh
    cases hsh
  · have hkernel : (within kernel pm id).kernel = kernel := rfl
    rw [hkernel] at he
    rcases hl.find ht pid with ⟨hf, hnone⟩ | ⟨p, v, hf, hp, hv, rfl, hentry⟩
    · rw [hf, ok_bind] at he
      dsimp only at he
      by_cases hprom : sh.flags &&& SHMEM_PROMISCUOUS = SHMEM_PROMISCUOUS
      · rw [if_pos hprom] at he
        cases kmalloc with
        | none =>
          refine .inl ⟨?_, .inl (leave_eq_ok.mp he).1⟩
          rintro ⟨-, -, -, -, -, hk, -⟩
          exact hk rfl
        | some allocated =>
          obtain ⟨p, pm'⟩ := allocated
          obtain ⟨hfresh, hbound⟩ := hm p pm' rfl
          obtain ⟨k₁, hinsert, ⟨v, hv, rfl, -⟩, hmaps, -⟩ :=
            hl.insertInfo ht hfresh hbound hnone (sh.flags &&& SHMEM_MASK)
          dsimp only at he
          rw [hinsert, ok_bind] at he
          obtain ⟨-, d, hd, hfind, rfl⟩ := mapRequest_refused hv he
          rw [hmaps] at hd
          refine .inr ⟨⟨sh, d, ht, hnone, hprom, by simp, hd, hfind⟩, fun htable => ?_⟩
          -- the new entry is the head of the list
          obtain ⟨infos, -, hinsert⟩ := bind_eq_ok.mp hinsert
          cases hinsert
          have hhead := congrFun htable id
          simp only [Kernel.setInfo, Kernel.setMap, Kernel.setRegion, Function.update_self, ht,
            Option.some.injEq] at hhead
          have hlist : sh.list = some p := congrArg Shmem.list hhead.symm
          rw [hl.head id sh ht] at hlist
          obtain ⟨w, hw⟩ := (hl.ordered id).alive p (List.mem_of_head? hlist)
          rw [hfresh] at hw
          cases hw
      · rw [if_neg hprom] at he
        refine .inl ⟨?_, .inl (leave_eq_ok.mp he).1⟩
        rintro ⟨sh', -, hsh, -, hpr, -⟩
        rw [ht] at hsh
        cases hsh
        exact hprom hpr
    · rw [hf, ok_bind] at he
      obtain ⟨hpages, d, hd, -, hs⟩ := mapRequest_refused hv he
      refine .inl ⟨?_, .inr ⟨p, v, d, hv, hentry, hpages, hd, hs⟩⟩
      rintro ⟨-, -, -, hnone, -⟩
      rw [hentry] at hnone
      cases hnone

end Refusals

/-- An entry that is not mapped has no location, and no region has a negative number of pages. -/
structure Tidy (r : Registry) : Prop where
  sized : ∀ id sh, r.region id = some sh → 0 ≤ sh.physicalPages
  vacant : ∀ id pid e, r.entry id pid = some e → e.pages < 0 → e.location = 0

namespace Tidy
variable {r r' : Registry} {id pid : ℤ}

theorem setEntry (h : Tidy r) {o : Option Entry}
    (ho : ∀ e, o = some e → e.pages < 0 → e.location = 0) :
    Tidy (r.setEntry id pid o) := by
  refine ⟨h.sized, fun i x e he => ?_⟩
  rw [Registry.entry_setEntry] at he
  split_ifs at he with hi
  · exact ho e he
  · exact h.vacant i x e he

theorem setMap (h : Tidy r) (m : Option PageDirectory) : Tidy (r.setMap pid m) :=
    ⟨h.sized, h.vacant⟩

theorem setRegion (h : Tidy r) {o : Option Shmem} (ho : ∀ sh, o = some sh → 0 ≤ sh.physicalPages) :
    Tidy (r.setRegion id o) := by
  refine ⟨fun i sh hi => ?_, fun i x e he => ?_⟩
  · rw [Registry.region_setRegion] at hi
    split_ifs at hi with hid
    · exact ho sh hi
    · exact h.sized i sh hi
  · rw [Registry.entry_setRegion] at he
    by_cases hid : i = id
    · rw [if_pos hid] at he
      cases he
    · rw [if_neg hid] at he
      exact h.vacant i x e he

theorem newRegion (h : Tidy r) {pages : ℤ} (hpages : 0 < pages) (insert : Bool)
    (litter name : CString) (flags location internal : ℕ) : Tidy (if insert then
      r.setRegion id (some (newRegion litter name pid pages flags location internal id))
      else r) := by
  cases insert with
  | false => exact h
  | true =>
    refine h.setRegion fun sh hsh => ?_
    cases hsh
    exact hpages.le

theorem step (h : Tidy r) {c : ShmemCall} {a : Answer} (hs : Step r c r' a) : Tidy r' := by
  cases hs with
  | refuse => exact h
  | create hpages => exact h.newRegion hpages _ _ _ _ _ _
  | createDirect hpages => exact h.newRegion hpages _ _ _ _ _ _
  | grant => exact h.setEntry fun e he _ => by cases he; rfl
  | revokeIdle => exact h.setEntry fun e he => by cases he
  | revoke => exact (h.setMap _).setEntry fun e he => by cases he
  | @request _ _ _ _ _ sh e _ _ _ hr hent hserved =>
    refine (h.setMap _).setEntry fun e' he' hpages => ?_
    cases he'
    cases hserved with
    | count hcount => exact absurd hpages (not_lt.mpr hcount)
    | map => exact absurd hpages (not_lt.mpr (h.sized _ _ hr))
    | noRoom => rfl
  | @release _ id pid _ e _ he =>
    refine h.setEntry fun e' he' => ?_
    cases he'
    exact h.vacant id pid e he
  | unmap => exact (h.setMap _).setEntry fun e he _ => by cases he; rfl
  | @delete _ _ id =>
    have hgone : Tidy (r.setRegion id none) := h.setRegion fun sh hsh => by cases hsh
    exact ⟨hgone.sized, hgone.vacant⟩
  | exit => exact h.setMap _

end Tidy

/-- The states of the region table that runs of the calls come to. -/
theorem tidy_run {s t : Kernel × History} {cs : List ShmemCall} (h₀ : accessSystem.Init s)
    (hr : accessSystem.Steps s cs t) :
    ∃ chain, Listed t.1 chain ∧ Tidy (registry t.1 chain) := by
  apply hr.invariant (P := fun s => ∃ chain, Listed s.1 chain ∧ Tidy (registry s.1 chain))
  · rintro s c t ⟨chain, hl, htidy⟩ hg ht
    obtain ⟨⟨k, a⟩, hk, ht⟩ := bind_eq_ok.mp ht
    cases ht
    obtain ⟨chain', hl', hs⟩ := hl.exec hg hk
    exact ⟨chain', hl', htidy.step hs⟩
  · refine ⟨_, listed_init h₀.1 h₀.2, fun id sh h => ?_, fun id pid e h => ?_⟩
    · rw [region_registry, h₀.1] at h
      cases h
    · cases h

section Settled
variable {kernel : Kernel} {pm : Physmem} {chain : ℤ → List ℕ} {s' : State}

theorem free_of_null (h : pm.Counted) {n : ℕ} {pm' : Physmem}
    (he : memoryAlloc pm n = .ok (pm', 0)) : pm'.free = pm.free := by
  obtain ⟨u, hn, -⟩ := bind_eq_ok.mp he
  obtain ⟨pm₁, ptr, halloc, hspec, -, hpages, -⟩ :=
    PhysicalMemory.memoryAlloc_spec h (assert_eq_ok.mp hn)
  rw [he] at halloc
  cases halloc
  rcases hspec with ⟨-, hbitmap, -⟩ | ⟨b, -, hnull, -⟩
  · rw [Physmem.free, Physmem.free, hbitmap, hpages]
  · exact absurd rfl hnull

def Call.kmalloc : Call → Option (ℕ × Physmem)
  | grant kmalloc _ _ _ _ => kmalloc
  | request kmalloc _ _ _ => kmalloc
  | _ => none

/-- `kmalloc` returns memory that is not in use. -/
def Call.Permitted (kernel : Kernel) (c : Call) : Prop :=
  ∀ p pm', c.kmalloc = some (p, pm') → kernel.infos p = none ∧ p < walkBound

/-- The two returns that do not undo what the call has done. -/
def Call.LeavesTrace (kernel : Kernel) (pm : Physmem) (chain : ℤ → List ℕ) : Call → Prop
  | revoke owner pid id => kernel.interrupts = true ∧ Unpadded kernel pm chain owner pid id
  | request kmalloc memory pid id => Roomless kernel chain kmalloc memory pid id
  | _ => False

theorem NoTrace.refl : NoTrace ⟨kernel, pm, []⟩ ⟨kernel, pm, []⟩ := ⟨rfl, rfl, rfl, rfl, rfl, rfl⟩

/-- A call that answers -1 leaves no trace, but for `shmem_revoke` with interrupts enabled where
there is no memory for a scratch pad, and `shmem_request` where an entry was made for a promiscuous
region that there is no room for. -/
theorem failing_calls_leave_no_trace_iff (hl : Listed kernel chain)
    (ht : Tidy (registry kernel chain)) (hp : pm.Counted) {c : Call} (hm : c.Permitted kernel)
    (he : c.exec ⟨kernel, pm, []⟩ = .ok (s', -1)) :
    NoTrace ⟨kernel, pm, []⟩ s' ↔ ¬ c.LeavesTrace kernel pm chain := by
  cases c with
  | grant kmalloc owner id pid flags =>
    obtain rfl := grant_refused he
    exact ⟨fun _ h => h, fun _ => .refl⟩
  | release memory pid id =>
    obtain rfl := release_refused he
    exact ⟨fun _ h => h, fun _ => .refl⟩
  | delete owner id =>
    obtain rfl := delete_refused he
    exact ⟨fun _ h => h, fun _ => .refl⟩
  | revoke owner pid id =>
    rcases revoke_refused hl he with ⟨hno, rfl⟩ | ⟨hun, n, pm', halloc, rfl⟩
    · exact ⟨fun _ h => hno h.2, fun _ => .refl⟩
    · constructor
      · intro h hi
        exact absurd (h.interrupts.trans hi.1) Bool.false_ne_true
      · intro h
        have hoff : kernel.interrupts = false := Bool.eq_false_iff.mpr fun hi => h ⟨hi, hun⟩
        exact ⟨rfl, rfl, rfl, free_of_null hp halloc, rfl, hoff.symm⟩
  | request kmalloc memory pid id =>
    obtain ⟨⟨s₁, access⟩, hreq, he⟩ := bind_eq_ok.mp he
    cases access with
    | some a => cases he
    | none =>
      cases he
      rcases request_refused hl hm hreq with ⟨hno, rfl | ⟨p, v, d, hv, hentry, hpages, hd, rfl⟩⟩ |
        ⟨hroom, htable⟩
      · exact ⟨fun _ h => hno h, fun _ => .refl⟩
      · have hloc : v.virtualLocation = 0 := ht.vacant _ _ _ hentry hpages
        refine ⟨fun _ h => hno h, fun _ => ⟨rfl, ?_, ?_, rfl, rfl, rfl⟩⟩
        · rw [← hloc]
          exact Function.update_eq_self_iff.mpr hv.symm
        · exact Function.update_eq_self_iff.mpr hd.symm
      · exact ⟨fun h => absurd h.table htable, fun h => absurd hroom h⟩

end Settled

def noMemory : Physmem := ⟨fun _ => 0, 0, 0, 0, 0, by norm_num⟩

/-- The process 2 uses a page of process 1. -/
theorem requested_run (interrupts : Bool) : ∃ t, accessSystem.Steps
    ({ twoProcesses with interrupts := interrupts }, noHistory)
    [createPage, grantTo 2, requestBy 2] t ∧ t.1.interrupts = interrupts ∧
    ∃ s', (Call.revoke 1 2 0).exec ⟨t.1, noMemory, []⟩ = .ok (s', -1) ∧
      s'.kernel.interrupts = false := by
  refine ⟨_, .cons ⟨⟨by decide, by decide⟩, fun p hp => by cases hp⟩ rfl
    (.cons ⟨trivial, fun p hp => by cases hp; exact ⟨rfl, by decide⟩⟩ rfl
      (.one ⟨trivial, fun p hp => by cases hp⟩ rfl)), rfl, _, rfl, rfl⟩

/-- With the interrupts off already, the return for want of a scratch pad leaves no trace. -/
theorem failing_calls_leave_no_trace_iff_revoke : ∃ (t : Kernel × History) (s' : State),
    accessSystem.Steps ({ twoProcesses with interrupts := false }, noHistory)
      [createPage, grantTo 2, requestBy 2] t ∧
    (Call.revoke 1 2 0).exec ⟨t.1, noMemory, []⟩ = .ok (s', -1) ∧
    NoTrace ⟨t.1, noMemory, []⟩ s' := by
  obtain ⟨t, hr, hoff, s', he, -⟩ := requested_run false
  obtain ⟨chain, hl, ht⟩ := tidy_run ⟨fun _ => rfl, rfl⟩ hr
  have hcounted : noMemory.Counted := ⟨rfl, fun b hb => absurd hb (Nat.not_lt_zero b)⟩
  have hkept : ¬ (Call.revoke 1 2 0).LeavesTrace t.1 noMemory chain := fun h =>
    absurd (hoff.symm.trans h.1) Bool.false_ne_true
  exact ⟨t, s', hr, he, (failing_calls_leave_no_trace_iff hl ht hcounted
    (fun p pm' hp => by cases hp) he).mpr hkept⟩

theorem revoke_leaves_interrupts_off : ∃ (t : Kernel × History) (s' : State),
    accessSystem.Steps (twoProcesses, noHistory) [createPage, grantTo 2, requestBy 2] t ∧
    (Call.revoke 1 2 0).exec ⟨t.1, noMemory, []⟩ = .ok (s', -1) ∧
    ¬ NoTrace ⟨t.1, noMemory, []⟩ s' := by
  obtain ⟨t, hr, hon, s', he, hoff⟩ := requested_run true
  refine ⟨t, s', hr, he, fun h => ?_⟩
  exact absurd (hoff.symm.trans (h.interrupts.trans hon)) Bool.false_ne_true

end Racoon.Sharing.Locked
