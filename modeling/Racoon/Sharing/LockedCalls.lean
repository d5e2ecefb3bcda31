import Racoon.Mm.Physmem
import Racoon.Sharing.Deletion

/-!
# The calls with their locks

The calls of `shmem.c` once more, with the locks that a thread holds, with the
interrupt flag of its CPU, and with the physical pages that `memory_alloc` takes.
Without all that they are the calls of the kernel.

Locks that other threads hold only make the thread wait, and are left out. So are
the pages that `kfree` gives back, which no failing call does.
-/

namespace Racoon.Sharing.Locked
open Paging Strings
open PhysicalMemory (Physmem memoryAlloc memoryFree)

inductive Lock
  | shmemLock
  | region (id : ℤ)
  deriving DecidableEq

structure State where
  kernel : Kernel
  pm : Physmem
  /-- The locks that the thread holds. -/
  held : List Lock

/-- Access to read or to write; a lock that the thread holds itself never gets free. -/
def getAccess (held : List Lock) (l : Lock) : Outcome (List Lock) :=
  if l ∈ held then .error .diverges else .ok (l :: held)

def release (held : List Lock) (l : Lock) : Outcome (List Lock) :=
  if l ∈ held then .ok (held.erase l) else .error .assertion

def State.getAccess (s : State) (l : Lock) : Outcome State := do
  let held ← Locked.getAccess s.held l
  .ok { s with held := held }

def State.release (s : State) (l : Lock) : Outcome State := do
  let held ← Locked.release s.held l
  .ok { s with held := held }

def State.setInterrupts (s : State) (enabled : Bool) : State :=
  { s with kernel := { s.kernel with interrupts := enabled } }

/-- The two locks are given back before every return from within a region. -/
def State.leave {α : Type} (s : State) (id : ℤ) (answer : α) : Outcome (State × α) := do
  let s ← s.release (.region id)
  let s ← s.release .shmemLock
  .ok (s, answer)

/-- The way in, which is that of four calls; `refusal` is their answer -1. -/
def withRegion {α : Type} (s : State) (id : ℤ) (refusal : α)
    (body : State → Shmem → Outcome (State × α)) : Outcome (State × α) := do
  let s ← s.getAccess .shmemLock
  match s.kernel.table id with
  | none => do
    let s ← s.release .shmemLock
    .ok (s, refusal)
  | some sh => do
    let s ← s.getAccess (.region id)
    body s sh

/-- `page_direct_map` asks `memory_alloc` for each table that is missing, and clears it. -/
def ensureTable (flags : ℕ) (pm : Physmem) (d : PageDirectory) (address : ℕ) :
    Outcome (Physmem × PageDirectory) :=
  if pageTablePresent d address then .ok (pm, d)
  else do
    let (pm, table) ← memoryAlloc pm 1
    if table = 0 then .error .badAccess
    else .ok (pm, d.setPde (pageTableOf address) (.table ⟨table, flags, fun _ => 0⟩))

def directMapFrom (flags : ℕ) :
    ℕ → ℕ → ℕ → Physmem → PageDirectory → Outcome (Physmem × PageDirectory)
  | 0, _, _, pm, d => .ok (pm, d)
  | left + 1, phys, index, pm, d => do
    let (pm, d) ← ensureTable flags pm d index
    let d ← d.setEntry index (entryWord phys flags)
    directMapFrom flags left (add32 phys PAGE_SIZE) (add32 index PAGE_SIZE) pm d

def pageDirectMap (pm : Physmem) (d : PageDirectory) (physical start : ℕ) (pages : ℤ)
    (type : ℕ) : Outcome (Physmem × PageDirectory) :=
  directMapFrom (convertPagingTypes type) (asSize pages) physical start pm d

def pageProvide (memory : ℕ → ℕ) (pm : Physmem) (d : PageDirectory)
    (physical start finish pages type : ℕ) : Outcome (Physmem × PageDirectory × ℕ) := do
  let location ← pageFindFree memory d start finish pages
  if location = 0 then .ok (pm, d, 0)
  else do
    let (pm, d) ← pageDirectMap pm d physical location pages type
    .ok (pm, d, location)

/-- What `kmalloc` returns is its address and the pages there are after it; it fails only where
`memory_alloc` has none for the heap. -/
def shmemGrant (s : State) (kmalloc : Option (ℕ × Physmem)) (owner id pid : ℤ) (flags : ℕ) :
    Outcome (State × ℤ) :=
  withRegion s id (-1) fun s sh =>
    if owner ≠ sh.pid then s.leave id (-1)
    else do
      let found ← findInfo s.kernel.infos pid walkBound sh.list
      match found, kmalloc with
      | some _, _ => s.leave id (-1)
      | none, none => s.leave id (-1)
      | none, some (p, pm) => do
        let kernel ← insertInfo s.kernel id sh p (newInfo pid (flags &&& SHMEM_MASK))
        State.leave { s with kernel := kernel, pm := pm } id 0

/-- The end of `shmem_revoke`. -/
def dropInfo (s : State) (id : ℤ) (sh : Shmem) (p : ℕ) : Outcome (State × ℤ) := do
  let (kernel, rc) ← unlinkInfo s.kernel id sh p
  State.leave { s with kernel := kernel } id rc

def shmemRevoke (s : State) (owner pid id : ℤ) : Outcome (State × ℤ) :=
  withRegion s id (-1) fun s sh =>
    if owner ≠ sh.pid then s.leave id (-1)
    else do
      let found ← findInfo s.kernel.infos pid walkBound sh.list
      match found with
      | none => s.leave id (-1)
      | some p => do
        let info ← load s.kernel.infos (some p)
        if 0 < info.usage then do
          let enabled := s.kernel.interrupts
          let s := s.setInterrupts false
          let (pm, data) ← memoryAlloc s.pm (asSize sh.physicalPages)
          let s := { s with pm := pm }
          -- an early return, with the interrupts off
          if data = 0 then s.leave id (-1)
          else do
            let map ← deref (s.kernel.maps pid)
            let (pm, map) ← pageDirectMap s.pm map data info.virtualLocation info.virtualPages
              (mapType info.flags)
            let s := { s with kernel := s.kernel.setMap pid map, pm := pm }
            let s := if enabled then s.setInterrupts true else s
            dropInfo s id sh p
        else dropInfo s id sh p

def countRequest (s : State) (id : ℤ) (p : ℕ) : Outcome (State × Option Access) := do
  let (kernel, access) ← Sharing.countRequest s.kernel p
  State.leave { s with kernel := kernel } id access

def mapRequest (s : State) (memory : ℕ → ℕ) (pid id : ℤ) (sh : Shmem) (p : ℕ) :
    Outcome (State × Option Access) := do
  let info ← load s.kernel.infos (some p)
  if info.virtualPages < 0 then do
    let map ← deref (s.kernel.maps pid)
    let (pm, map, location) ← pageProvide memory s.pm map sh.physicalLocation sK_BASE sK_CEILING
      (asSize sh.physicalPages) (mapType info.flags)
    let info := { info with virtualLocation := location }
    let kernel := s.kernel.setMap pid map
    if location = 0 then
      State.leave { s with kernel := kernel.setInfo p (some info), pm := pm } id none
    else
      let info := { info with virtualPages := sh.physicalPages }
      countRequest { s with kernel := kernel.setInfo p (some info), pm := pm } id p
  else countRequest s id p

def shmemRequest (s : State) (kmalloc : Option (ℕ × Physmem)) (memory : ℕ → ℕ) (pid id : ℤ) :
    Outcome (State × Option Access) :=
  withRegion s id none fun s sh => do
    let found ← findInfo s.kernel.infos pid walkBound sh.list
    match found with
    | some p => mapRequest s memory pid id sh p
    | none =>
      if sh.flags &&& SHMEM_PROMISCUOUS = SHMEM_PROMISCUOUS then
        match kmalloc with
        | none => s.leave id none
        | some (p, pm) => do
          let kernel ← insertInfo s.kernel id sh p (newInfo pid (sh.flags &&& SHMEM_MASK))
          mapRequest { s with kernel := kernel, pm := pm } memory pid id sh p
      else s.leave id none

def shmemRelease (s : State) (memory : ℕ → ℕ) (pid id : ℤ) : Outcome (State × ℤ) :=
  withRegion s id (-1) fun s sh => do
    let found ← findInfo s.kernel.infos pid walkBound sh.list
    match found with
    | none => s.leave id (-1)
    | some p => do
      let info ← load s.kernel.infos (some p)
      let info := { info with usage := int32 (info.usage - 1) }
      if info.usage = 0 then do
        let map ← deref (s.kernel.maps pid)
        let map ← pageRelease memory map info.virtualLocation info.virtualPages
        let info := { info with virtualLocation := 0, virtualPages := -1 }
        State.leave { s with kernel := (s.kernel.setMap pid map).setInfo p (some info) } id 0
      else State.leave { s with kernel := s.kernel.setInfo p (some info) } id 0

/-- The first loop of `shmem_delete` for one entry. -/
def checkoutInfo (s : State) (sh : Shmem) (p : ℕ) (info : ShmemInfo) (usage : ℤ) :
    Outcome (State × ℤ) :=
  if 0 < info.usage then
    match s.kernel.maps info.pid with
    | none => .ok ({ s with kernel := s.kernel.setInfo p (some { info with tmp := none }) }, usage)
    | some _ => do
      let (pm, scratch) ← memoryAlloc s.pm (asSize sh.physicalPages)
      let tmp2 := if scratch = 0 then none else some scratch
      let info := { info with tmp := some info.pid, tmp2 := tmp2 }
      .ok ({ s with kernel := s.kernel.setInfo p (some info), pm := pm }, usage + 1)
  else .ok (s, usage)

def checkoutFrom (sh : Shmem) : ℕ → Option ℕ → State → ℤ → Outcome (State × ℤ)
  | _, none, s, usage => .ok (s, usage)
  | 0, some _, _, _ => .error .diverges
  | left + 1, some p, s, usage => do
    let info ← load s.kernel.infos (some p)
    let (s, usage) ← checkoutInfo s sh p info usage
    checkoutFrom sh left info.next s usage

/-- The second loop for one entry. -/
def detachInfo (sh : Shmem) (s : State) (info : ShmemInfo) : Outcome State :=
  match info.tmp, info.tmp2 with
  | some pid, some data => do
    let map ← deref (s.kernel.maps pid)
    let (pm, map) ← pageDirectMap s.pm map data info.virtualLocation sh.physicalPages
      (mapType info.flags)
    .ok { s with kernel := s.kernel.setMap pid map, pm := pm }
  | _, _ => .ok s

def detachFrom (sh : Shmem) : ℕ → Option ℕ → State → Outcome State
  | _, none, s => .ok s
  | 0, some _, _ => .error .diverges
  | left + 1, some p, s => do
    let info ← load s.kernel.infos (some p)
    let s ← detachInfo sh s info
    detachFrom sh left info.next s

def detachUsers (sh : Shmem) (s : State) (usage : ℤ) : Outcome State :=
  if 0 < usage then do
    let enabled := s.kernel.interrupts
    let s ← detachFrom sh walkBound sh.list (s.setInterrupts false)
    .ok (if enabled then s.setInterrupts true else s)
  else .ok s

/-- What `shmem_delete` does once the region is out of the table and nothing is locked. -/
def destroyRegion (s : State) (sh : Shmem) : Outcome (State × ℤ) := do
  let (s, usage) ← checkoutFrom sh walkBound sh.list s 0
  let s ← detachUsers sh s usage
  let kernel ← discardFrom walkBound sh.list s.kernel
  if sh.internal ≠ 0 then do
    let pm ← memoryFree s.pm (asSize sh.physicalPages) sh.physicalLocation
    let freed := (sh.physicalPages, sh.physicalLocation) :: kernel.freed
    .ok ({ s with kernel := { kernel with freed := freed }, pm := pm }, 0)
  else .ok ({ s with kernel := kernel }, 0)

def shmemDelete (s : State) (owner id : ℤ) : Outcome (State × ℤ) := do
  let s ← s.getAccess .shmemLock
  match s.kernel.table id with
  | none => do
    let s ← s.release .shmemLock
    .ok (s, -1)
  | some sh =>
    if owner ≠ sh.pid then do
      let s ← s.release .shmemLock
      .ok (s, -1)
    else do
      let s ← State.release { s with kernel := s.kernel.setRegion id none } .shmemLock
      destroyRegion s sh

inductive Call
  | grant (kmalloc : Option (ℕ × Physmem)) (owner id pid : ℤ) (flags : ℕ)
  | revoke (owner pid id : ℤ)
  | request (kmalloc : Option (ℕ × Physmem)) (memory : ℕ → ℕ) (pid id : ℤ)
  | release (memory : ℕ → ℕ) (pid id : ℤ)
  | delete (owner id : ℤ)

def Call.exec (s : State) : Call → Outcome (State × ℤ)
  | grant kmalloc owner id pid flags => shmemGrant s kmalloc owner id pid flags
  | revoke owner pid id => shmemRevoke s owner pid id
  | request kmalloc memory pid id => do
    let (s, access) ← shmemRequest s kmalloc memory pid id
    .ok (s, if access.isSome then 0 else -1)
  | release memory pid id => shmemRelease s memory pid id
  | delete owner id => shmemDelete s owner id

/-- Within a region, with the two locks. -/
def within (kernel : Kernel) (pm : Physmem) (id : ℤ) : State :=
  ⟨kernel, pm, [.region id, .shmemLock]⟩

section Ways
variable {α : Type} {kernel : Kernel} {pm : Physmem} {id : ℤ}

theorem leave_eq_ok {a b : α} {s' : State} :
    State.leave (within kernel pm id) id a = .ok (s', b) ↔ s' = ⟨kernel, pm, []⟩ ∧ b = a := by
  have hleave : State.leave (within kernel pm id) id a = .ok (⟨kernel, pm, []⟩, a) := by
    simp [State.leave, State.release, release, within]
  rw [hleave]
  constructor
  · intro h
    cases h
    exact ⟨rfl, rfl⟩
  · rintro ⟨rfl, rfl⟩
    rfl

theorem withRegion_eq (id : ℤ) (refusal : α) (body : State → Shmem → Outcome (State × α)) :
    withRegion ⟨kernel, pm, []⟩ id refusal body =
      match kernel.table id with
      | none => .ok (⟨kernel, pm, []⟩, refusal)
      | some sh => body (within kernel pm id) sh := by
  have hget : State.getAccess ⟨kernel, pm, []⟩ .shmemLock = .ok ⟨kernel, pm, [.shmemLock]⟩ := rfl
  rw [withRegion, hget, ok_bind]
  dsimp only
  cases kernel.table id with
  | none => simp [State.release, release]
  | some sh => simp [State.getAccess, getAccess, within]

/-- A call within a region begins with the search for the region, or ends with it. -/
theorem withRegion_eq_ok {refusal a : α} {body : State → Shmem → Outcome (State × α)} {s' : State}
    (he : withRegion ⟨kernel, pm, []⟩ id refusal body = .ok (s', a)) :
    kernel.table id = none ∧ s' = ⟨kernel, pm, []⟩ ∧ a = refusal ∨
    ∃ sh, kernel.table id = some sh ∧ body (within kernel pm id) sh = .ok (s', a) := by
  rw [withRegion_eq] at he
  cases ht : kernel.table id with
  | none =>
    rw [ht] at he
    cases he
    exact .inl ⟨rfl, rfl, rfl⟩
  | some sh =>
    rw [ht] at he
    exact .inr ⟨sh, rfl, he⟩

end Ways

section Erasure
variable {flags : ℕ} {d d' e : PageDirectory} {pm pm' : Physmem}

theorem setEntry_absent {address word i : ℕ} (h : d.setEntry address word = .ok e)
    (hi : e.pde i = .absent) : d.pde i = .absent := by
  unfold PageDirectory.setEntry at h
  cases ht : d.pde (pageTableOf address) with
  | absent =>
    rw [ht] at h
    cases h
  | large =>
    rw [ht] at h
    cases h
  | table t =>
    rw [ht] at h
    cases h
    simp only [PageDirectory.setPde, Function.update_apply] at hi
    split_ifs at hi
    exact hi

theorem setPde_absent {i j : ℕ} {t : PageTable} (h : (d.setPde i (.table t)).pde j = .absent) :
    j ≠ i ∧ d.pde j = .absent := by
  simp only [PageDirectory.setPde, Function.update_apply] at h
  split_ifs at h with hj
  exact ⟨hj, h⟩

/-- The answers of `memory_alloc`, which matter only for the tables that are missing. -/
theorem directMapFrom_erase {left phys index : ℕ}
    (he : directMapFrom flags left phys index pm d = .ok (pm', d')) :
    ∃ tables : ℕ → Option ℕ, ∀ tables', (∀ i, d.pde i = .absent → tables' i = tables i) →
      Paging.directMapFrom tables' flags left phys index d = .ok d' := by
  induction left generalizing phys index pm d with
  | zero =>
    cases he
    exact ⟨fun _ => none, fun _ _ => rfl⟩
  | succ left ih =>
    obtain ⟨⟨pm₁, d₁⟩, hensure, he⟩ := bind_eq_ok.mp he
    obtain ⟨d₂, hset, he⟩ := bind_eq_ok.mp he
    obtain ⟨tables, htail⟩ := ih he
    by_cases hpresent : pageTablePresent d index = true
    · rw [ensureTable, if_pos hpresent] at hensure
      cases hensure
      refine ⟨tables, fun tables' hagree => ?_⟩
      rw [Paging.directMapFrom, Paging.ensureTable, if_pos hpresent, ok_bind, hset, ok_bind]
      exact htail tables' fun i hi => hagree i (setEntry_absent hset hi)
    · rw [ensureTable, if_neg hpresent] at hensure
      obtain ⟨⟨pm₂, table⟩, -, hensure⟩ := bind_eq_ok.mp hensure
      dsimp only at hensure
      split_ifs at hensure with htable
      cases hensure
      have habsent : d.pde (pageTableOf index) = .absent := by
        unfold pageTablePresent at hpresent
        split at hpresent
        · assumption
        · exact absurd rfl hpresent
      refine ⟨Function.update tables (pageTableOf index) (some table), fun tables' hagree => ?_⟩
      have hindex := (hagree _ habsent).trans (Function.update_self ..)
      rw [Paging.directMapFrom, Paging.ensureTable, if_neg hpresent, hindex, deref_some, ok_bind,
        ok_bind, hset, ok_bind]
      refine htail tables' fun i hi => ?_
      obtain ⟨hne, hi⟩ := setPde_absent (setEntry_absent hset hi)
      rw [hagree i hi, Function.update_of_ne hne]

theorem pageDirectMap_erase {physical start type : ℕ} {pages : ℤ}
    (he : pageDirectMap pm d physical start pages type = .ok (pm', d')) :
    ∃ tables, Paging.pageDirectMap tables d physical start pages type = .ok d' := by
  obtain ⟨tables, htables⟩ := directMapFrom_erase he
  exact ⟨tables, htables tables fun _ _ => rfl⟩

theorem pageProvide_erase {memory : ℕ → ℕ} {physical start finish pages type location : ℕ}
    (he : pageProvide memory pm d physical start finish pages type = .ok (pm', d', location)) :
    ∃ tables, Paging.pageProvide memory tables d physical start finish pages type =
      .ok (d', location) := by
  obtain ⟨loc, hfind, he⟩ := bind_eq_ok.mp he
  by_cases hloc : loc = 0
  · rw [if_pos hloc] at he
    cases he
    exact ⟨fun _ => none, by rw [Paging.pageProvide, hfind, ok_bind, if_pos hloc]⟩
  · rw [if_neg hloc] at he
    obtain ⟨⟨pm₁, d₁⟩, hmap, he⟩ := bind_eq_ok.mp he
    cases he
    obtain ⟨tables, htables⟩ := pageDirectMap_erase hmap
    exact ⟨tables, by rw [Paging.pageProvide, hfind, ok_bind, if_neg hloc, htables]; rfl⟩

variable {kernel : Kernel} {s' : State} {id pid owner rc : ℤ} {kmalloc : Option (ℕ × Physmem)}

theorem grant_erase {mask : ℕ}
    (he : shmemGrant ⟨kernel, pm, []⟩ kmalloc owner id pid mask = .ok (s', rc)) :
    Sharing.shmemGrant kernel (kmalloc.map Prod.fst) owner id pid mask = .ok (s'.kernel, rc) := by
  unfold Sharing.shmemGrant
  obtain ⟨ht, rfl, rfl⟩ | ⟨sh, ht, he⟩ := withRegion_eq_ok he
  · rw [ht]
  · rw [ht]
    dsimp only at he ⊢
    by_cases howner : owner ≠ sh.pid
    · rw [if_pos howner] at he ⊢
      obtain ⟨rfl, rfl⟩ := leave_eq_ok.mp he
      rfl
    rw [if_neg howner] at he ⊢
    obtain ⟨found, hfind, he⟩ := bind_eq_ok.mp he
    have hfind : findInfo kernel.infos pid walkBound sh.list = .ok found := hfind
    rw [hfind, ok_bind]
    cases found with
    | some p =>
      obtain ⟨rfl, rfl⟩ := leave_eq_ok.mp he
      rfl
    | none =>
      cases kmalloc with
      | none =>
        obtain ⟨rfl, rfl⟩ := leave_eq_ok.mp he
        rfl
      | some allocated =>
        obtain ⟨k, hinsert, he⟩ := bind_eq_ok.mp he
        obtain ⟨rfl, rfl⟩ := leave_eq_ok.mp he
        have hinsert : insertInfo kernel id sh allocated.1 (newInfo pid (mask &&& SHMEM_MASK)) =
          .ok k := hinsert
        dsimp only [Option.map_some]
        rw [hinsert, ok_bind]

theorem release_erase {memory : ℕ → ℕ}
    (he : shmemRelease ⟨kernel, pm, []⟩ memory pid id = .ok (s', rc)) :
    Sharing.shmemRelease kernel memory pid id = .ok (s'.kernel, rc) := by
  unfold Sharing.shmemRelease
  obtain ⟨ht, rfl, rfl⟩ | ⟨sh, ht, he⟩ := withRegion_eq_ok he
  · rw [ht]
  · rw [ht]
    dsimp only at he ⊢
    obtain ⟨found, hfind, he⟩ := bind_eq_ok.mp he
    have hfind : findInfo kernel.infos pid walkBound sh.list = .ok found := hfind
    rw [hfind, ok_bind]
    cases found with
    | none =>
      obtain ⟨rfl, rfl⟩ := leave_eq_ok.mp he
      rfl
    | some p =>
      obtain ⟨info, hinfo, he⟩ := bind_eq_ok.mp he
      have hinfo : load kernel.infos (some p) = .ok info := hinfo
      dsimp only at he ⊢
      rw [hinfo, ok_bind]
      by_cases husage : int32 (info.usage - 1) = 0
      · rw [if_pos husage] at he ⊢
        obtain ⟨map, hmap, he⟩ := bind_eq_ok.mp he
        obtain ⟨map', hrelease, he⟩ := bind_eq_ok.mp he
        obtain ⟨rfl, rfl⟩ := leave_eq_ok.mp he
        have hmap : deref (kernel.maps pid) = .ok map := hmap
        rw [hmap, ok_bind, hrelease]
        rfl
      · rw [if_neg husage] at he ⊢
        obtain ⟨rfl, rfl⟩ := leave_eq_ok.mp he
        rfl

theorem dropInfo_erase {sh : Shmem} {p : ℕ}
    (he : dropInfo (within kernel pm id) id sh p = .ok (s', rc)) :
    unlinkInfo kernel id sh p = .ok (s'.kernel, rc) := by
  obtain ⟨⟨k, rc'⟩, hunlink, he⟩ := bind_eq_ok.mp he
  obtain ⟨rfl, rfl⟩ := leave_eq_ok.mp he
  exact hunlink

theorem restored (kernel : Kernel) (pm : Physmem) (held : List Lock) :
    (if kernel.interrupts = true then
      State.setInterrupts ⟨{ kernel with interrupts := false }, pm, held⟩ true
    else ⟨{ kernel with interrupts := false }, pm, held⟩) = ⟨kernel, pm, held⟩ := by
  cases hi : kernel.interrupts <;> simp [State.setInterrupts, ← hi]

theorem revoke_erase (he : shmemRevoke ⟨kernel, pm, []⟩ owner pid id = .ok (s', rc)) :
    ∃ data tables, Sharing.shmemRevoke kernel data tables owner pid id = .ok (s'.kernel, rc) := by
  unfold Sharing.shmemRevoke
  obtain ⟨ht, rfl, rfl⟩ | ⟨sh, ht, he⟩ := withRegion_eq_ok he
  · rw [ht]
    exact ⟨none, fun _ => none, rfl⟩
  · rw [ht]
    dsimp only at he ⊢
    by_cases howner : owner ≠ sh.pid
    · rw [if_pos howner] at he
      obtain ⟨rfl, rfl⟩ := leave_eq_ok.mp he
      exact ⟨none, fun _ => none, if_pos howner⟩
    rw [if_neg howner] at he
    simp only [if_neg howner]
    obtain ⟨found, hfind, he⟩ := bind_eq_ok.mp he
    have hfind : findInfo kernel.infos pid walkBound sh.list = .ok found := hfind
    simp only [hfind, ok_bind]
    cases found with
    | none =>
      obtain ⟨rfl, rfl⟩ := leave_eq_ok.mp he
      exact ⟨none, fun _ => none, rfl⟩
    | some p =>
      obtain ⟨info, hinfo, he⟩ := bind_eq_ok.mp he
      have hinfo : load kernel.infos (some p) = .ok info := hinfo
      simp only [hinfo, ok_bind]
      by_cases husage : 0 < info.usage
      · rw [if_pos husage] at he
        simp only [if_pos husage]
        obtain ⟨⟨pm', data⟩, -, he⟩ := bind_eq_ok.mp he
        dsimp only at he
        by_cases hdata : data = 0
        · rw [if_pos hdata] at he
          obtain ⟨rfl, rfl⟩ := leave_eq_ok.mp he
          exact ⟨none, fun _ => none, rfl⟩
        · rw [if_neg hdata] at he
          obtain ⟨map, hmap, he⟩ := bind_eq_ok.mp he
          obtain ⟨⟨pm₁, map'⟩, hdirect, he⟩ := bind_eq_ok.mp he
          have hmap : deref (kernel.maps pid) = .ok map := hmap
          obtain ⟨tables, htables⟩ := pageDirectMap_erase hdirect
          refine ⟨some data, tables, ?_⟩
          dsimp only
          rw [hmap, ok_bind, htables, ok_bind]
          have hrestored := restored (kernel.setMap pid map') pm₁ (within kernel pm id).held
          have he : dropInfo (if (kernel.setMap pid map').interrupts = true then _ else _) id sh p =
            .ok (s', rc) := he
          exact dropInfo_erase ((congrArg (dropInfo · id sh p) hrestored).symm.trans he)
      · rw [if_neg husage] at he
        simp only [if_neg husage]
        exact ⟨none, fun _ => none, dropInfo_erase he⟩

theorem countRequest_erase {p : ℕ} {access : Option Access}
    (he : countRequest (within kernel pm id) id p = .ok (s', access)) :
    Sharing.countRequest kernel p = .ok (s'.kernel, access) := by
  obtain ⟨⟨k, access'⟩, hcount, he⟩ := bind_eq_ok.mp he
  obtain ⟨rfl, rfl⟩ := leave_eq_ok.mp he
  exact hcount

theorem mapRequest_erase {memory : ℕ → ℕ} {sh : Shmem} {p : ℕ} {access : Option Access}
    (he : mapRequest (within kernel pm id) memory pid id sh p = .ok (s', access)) :
    ∃ tables, Sharing.mapRequest kernel memory tables pid sh p = .ok (s'.kernel, access) := by
  obtain ⟨info, hinfo, he⟩ := bind_eq_ok.mp he
  have hinfo : load kernel.infos (some p) = .ok info := hinfo
  unfold Sharing.mapRequest
  simp only [hinfo, ok_bind]
  by_cases hpages : info.virtualPages < 0
  · rw [if_pos hpages] at he
    simp only [if_pos hpages]
    obtain ⟨d, hd, he⟩ := bind_eq_ok.mp he
    obtain ⟨⟨pm', d', location⟩, hprovide, he⟩ := bind_eq_ok.mp he
    obtain ⟨tables, htables⟩ := pageProvide_erase hprovide
    have hd : deref (kernel.maps pid) = .ok d := hd
    refine ⟨tables, ?_⟩
    have htables : Paging.pageProvide memory tables d sh.physicalLocation sK_BASE sK_CEILING
      (sh.physicalPages % 2 ^ 32).toNat (mapType info.flags) = .ok (d', location) := htables
    rw [hd, ok_bind, htables, ok_bind]
    dsimp only at he ⊢
    by_cases hloc : location = 0
    · rw [if_pos hloc] at he ⊢
      obtain ⟨rfl, rfl⟩ := leave_eq_ok.mp he
      rfl
    · rw [if_neg hloc] at he ⊢
      exact countRequest_erase he
  · rw [if_neg hpages] at he
    simp only [if_neg hpages]
    exact ⟨fun _ => none, countRequest_erase he⟩

theorem request_erase {memory : ℕ → ℕ} {access : Option Access}
    (he : shmemRequest ⟨kernel, pm, []⟩ kmalloc memory pid id = .ok (s', access)) :
    ∃ tables, Sharing.shmemRequest kernel (kmalloc.map Prod.fst) memory tables pid id =
      .ok (s'.kernel, access) := by
  unfold Sharing.shmemRequest
  obtain ⟨ht, rfl, rfl⟩ | ⟨sh, ht, he⟩ := withRegion_eq_ok he
  · rw [ht]
    exact ⟨fun _ => none, rfl⟩
  · rw [ht]
    dsimp only at he ⊢
    obtain ⟨found, hfind, he⟩ := bind_eq_ok.mp he
    have hfind : findInfo kernel.infos pid walkBound sh.list = .ok found := hfind
    simp only [hfind, ok_bind]
    cases found with
    | some p => exact mapRequest_erase he
    | none =>
      dsimp only at he ⊢
      by_cases hprom : sh.flags &&& SHMEM_PROMISCUOUS = SHMEM_PROMISCUOUS
      · rw [if_pos hprom] at he
        simp only [if_pos hprom]
        cases kmalloc with
        | none =>
          obtain ⟨rfl, rfl⟩ := leave_eq_ok.mp he
          exact ⟨fun _ => none, rfl⟩
        | some allocated =>
          obtain ⟨k, hinsert, he⟩ := bind_eq_ok.mp he
          have hinsert : insertInfo kernel id sh allocated.1
            (newInfo pid (sh.flags &&& SHMEM_MASK)) = .ok k := hinsert
          dsimp only [Option.map_some]
          simp only [hinsert, ok_bind]
          exact mapRequest_erase he
      · rw [if_neg hprom] at he
        simp only [if_neg hprom]
        obtain ⟨rfl, rfl⟩ := leave_eq_ok.mp he
        exact ⟨fun _ => none, rfl⟩

theorem destroyRegion_answer {s : State} {sh : Shmem} {rc : ℤ}
    (he : destroyRegion s sh = .ok (s', rc)) : rc = 0 := by
  obtain ⟨⟨s₁, usage⟩, -, he⟩ := bind_eq_ok.mp he
  obtain ⟨s₂, -, he⟩ := bind_eq_ok.mp he
  obtain ⟨k, -, he⟩ := bind_eq_ok.mp he
  split_ifs at he
  · obtain ⟨pm', -, he⟩ := bind_eq_ok.mp he
    cases he
    rfl
  · cases he
    rfl

theorem delete_refused (he : shmemDelete ⟨kernel, pm, []⟩ owner id = .ok (s', -1)) :
    s' = ⟨kernel, pm, []⟩ := by
  have hget : State.getAccess ⟨kernel, pm, []⟩ .shmemLock = .ok ⟨kernel, pm, [.shmemLock]⟩ := rfl
  have hrelease : State.release ⟨kernel, pm, [.shmemLock]⟩ .shmemLock = .ok ⟨kernel, pm, []⟩ := rfl
  rw [shmemDelete, hget, ok_bind] at he
  dsimp only at he
  cases ht : kernel.table id with
  | none =>
    rw [ht] at he
    dsimp only at he
    rw [hrelease] at he
    cases he
    rfl
  | some sh =>
    rw [ht] at he
    dsimp only at he
    split_ifs at he with howner
    · rw [hrelease] at he
      cases he
      rfl
    · obtain ⟨s₁, -, he⟩ := bind_eq_ok.mp he
      exact absurd (destroyRegion_answer he) (by norm_num)

/-- A deletion that is refused. What it does otherwise is the subject of the kernel's own model. -/
theorem delete_erase (he : shmemDelete ⟨kernel, pm, []⟩ owner id = .ok (s', -1))
    (scratch : ℤ → Option ℕ) (tables : ℤ → ℕ → Option ℕ) :
    Sharing.shmemDelete kernel scratch tables owner id = .ok (s'.kernel, -1) := by
  rw [delete_refused he]
  obtain ⟨s₁, hget, he⟩ := bind_eq_ok.mp he
  obtain rfl : s₁ = ⟨kernel, pm, [.shmemLock]⟩ := by
    cases hget
    rfl
  unfold Sharing.shmemDelete
  dsimp only at he
  cases ht : kernel.table id with
  | none => rfl
  | some sh =>
    rw [ht] at he
    dsimp only at he ⊢
    by_cases howner : owner ≠ sh.pid
    · rw [if_pos howner]
    · rw [if_neg howner] at he
      obtain ⟨s₂, -, he⟩ := bind_eq_ok.mp he
      exact absurd (destroyRegion_answer he) (by norm_num)

/-- The call without its locks. -/
inductive Call.Erases : Call → ShmemCall → Prop
  | grant (kmalloc : Option (ℕ × Physmem)) (owner id pid : ℤ) (flags : ℕ) :
    Erases (.grant kmalloc owner id pid flags) (.grant (kmalloc.map Prod.fst) owner id pid flags)
  | revoke (owner pid id : ℤ) (data : Option ℕ) (tables : ℕ → Option ℕ) :
    Erases (.revoke owner pid id) (.revoke data tables owner pid id)
  | request (kmalloc : Option (ℕ × Physmem)) (memory : ℕ → ℕ) (pid id : ℤ) (tables : ℕ → Option ℕ) :
    Erases (.request kmalloc memory pid id)
      (.request (kmalloc.map Prod.fst) memory tables pid id)
  | release (memory : ℕ → ℕ) (pid id : ℤ) : Erases (.release memory pid id) (.release memory pid id)
  | delete (owner id : ℤ) (scratch : ℤ → Option ℕ) (tables : ℤ → ℕ → Option ℕ) :
    Erases (.delete owner id) (.delete scratch tables owner id)

/-- A call that fails does to the kernel what the call without its locks does. -/
theorem Call.erase {c : Call} (he : c.exec ⟨kernel, pm, []⟩ = .ok (s', -1)) :
    ∃ c' a, c.Erases c' ∧ c'.exec kernel = .ok (s'.kernel, a) ∧ a.rc = -1 := by
  have hanswer : ∀ {x : Outcome (Kernel × ℤ)}, x = .ok (s'.kernel, -1) →
      ∃ a, answer x = .ok (s'.kernel, a) ∧ a.rc = -1 := by
    rintro x rfl
    exact ⟨_, rfl, rfl⟩
  cases c with
  | grant kmalloc owner id pid flags =>
    obtain ⟨a, ha, hrc⟩ := hanswer (grant_erase he)
    exact ⟨_, a, .grant .., ha, hrc⟩
  | revoke owner pid id =>
    obtain ⟨data, tables, hrun⟩ := revoke_erase he
    obtain ⟨a, ha, hrc⟩ := hanswer hrun
    exact ⟨_, a, .revoke owner pid id data tables, ha, hrc⟩
  | request kmalloc memory pid id =>
    obtain ⟨⟨s₁, access⟩, hreq, he⟩ := bind_eq_ok.mp he
    obtain ⟨tables, hrun⟩ := request_erase hreq
    obtain ⟨rfl, hrc⟩ := Prod.mk.inj (Except.ok.inj he)
    refine ⟨_, ⟨if access.isSome then 0 else -1, access⟩,
      .request kmalloc memory pid id tables, ?_, hrc⟩
    rw [ShmemCall.exec, hrun]
    rfl
  | release memory pid id =>
    obtain ⟨a, ha, hrc⟩ := hanswer (release_erase he)
    exact ⟨_, a, .release .., ha, hrc⟩
  | delete owner id =>
    obtain ⟨a, ha, hrc⟩ := hanswer (delete_erase he (fun _ => none) fun _ _ => none)
    exact ⟨_, a, .delete .., ha, hrc⟩

end Erasure

end Racoon.Sharing.Locked
