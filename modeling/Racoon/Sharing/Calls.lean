import Racoon.Sharing.Registry

/-!
# The calls on the registry

`Listed k chain` says that the list of each region is the chain of nodes that
`chain` gives for it, and `registry k chain` is the registry that the lists
stand for.
-/

namespace Racoon.Sharing
open Lib Paging Strings

def Shmem.bare (sh : Shmem) : Shmem := { sh with list := none }

structure Listed (k : Kernel) (chain : ℤ → List ℕ) : Prop where
  head : ∀ id sh, k.table id = some sh → sh.list = (chain id).head?
  gone : ∀ id, k.table id = none → chain id = []
  ordered : ∀ id, Chain k.infos (chain id)
  apart : ∀ id id' p, p ∈ chain id → p ∈ chain id' → id = id'
  nextId : 0 ≤ k.shmemId

def registry (k : Kernel) (chain : ℤ → List ℕ) : Registry where
  region id := (k.table id).map Shmem.bare
  entry id := entries k.infos (chain id)
  maps := k.maps

/-- Sizes and addresses are within their types. -/
def ShmemCall.Typed : ShmemCall → Prop
  | create memory _ _ _ _ _ pages _ => pages < 2 ^ 31 ∧ ∀ p, memory = some p → p < 2 ^ 32
  | createDirect _ _ _ _ _ pages _ location _ => pages < 2 ^ 31 ∧ location < 2 ^ 32
  | revoke data _ _ _ _ => ∀ p, data = some p → p < 2 ^ 32
  | delete scratch _ _ _ => ∀ pid p, scratch pid = some p → p < 2 ^ 32
  | _ => True

/-- The memory for a new entry. -/
def ShmemCall.allocated : ShmemCall → Option ℕ
  | grant kmalloc _ _ _ _ => kmalloc
  | request kmalloc _ _ _ _ => kmalloc
  | _ => none

/-- What the environment of a call sees to: `kmalloc` returns memory that is not in use. -/
def ShmemCall.Permitted (k : Kernel) (c : ShmemCall) : Prop :=
  c.Typed ∧ ∀ p, c.allocated = some p → k.infos p = none ∧ p < walkBound

variable {k k' : Kernel} {chain : ℤ → List ℕ} {id pid : ℤ} {sh : Shmem} {p : ℕ} {v : ShmemInfo}

theorem infos_setInfo (k : Kernel) (p : ℕ) (i : Option ShmemInfo) (q : ℕ) :
    (k.setInfo p i).infos q = if q = p then i else k.infos q :=
  Function.update_apply ..

theorem region_registry : (registry k chain).region id = (k.table id).map Shmem.bare := rfl

theorem Listed.congr (h : Listed k chain) (ht : k'.table = k.table) (hi : k'.infos = k.infos)
    (hn : 0 ≤ k'.shmemId) : Listed k' chain := by
  refine ⟨?_, ?_, ?_, h.apart, hn⟩
  · rw [ht]
    exact h.head
  · rw [ht]
    exact h.gone
  · rw [hi]
    exact h.ordered

theorem listed_init (ht : ∀ id, k.table id = none) (hn : k.shmemId = 0) :
    Listed k fun _ => [] := by
  refine ⟨fun id sh h => ?_, fun _ _ => rfl, fun _ => chain_nil _, by simp, hn.ge⟩
  rw [ht] at h
  cases h

/-- A region whose list has changed. -/
def Kernel.relist (k : Kernel) (infos : Heap) (id : ℤ) (sh : Shmem) (list : Option ℕ) : Kernel :=
  { k with infos := infos }.setRegion id (some { sh with list := list })

/-- Another chain for one region. -/
theorem Listed.replace (h : Listed k chain) (hsh : k.table id = some sh) {infos : Heap}
    {l : List ℕ} (hl : Chain infos l) (hin : ∀ p ∈ l, ∀ i ≠ id, p ∉ chain i)
    (hother : ∀ i ≠ id, ∀ q ∈ chain i, infos q = k.infos q) {e : Option Entry}
    (he : entries infos l = Function.update (entries k.infos (chain id)) pid e) :
    Listed (k.relist infos id sh l.head?) (Function.update chain id l) ∧
      registry (k.relist infos id sh l.head?) (Function.update chain id l) =
        (registry k chain).setEntry id pid e := by
  have ht : (k.relist infos id sh l.head?).table =
      Function.update k.table id (some { sh with list := l.head? }) := rfl
  refine ⟨⟨fun i s hs => ?_, fun i hi => ?_, fun i => ?_, fun i j q hq hq' => ?_, h.nextId⟩, ?_⟩
  · rw [ht] at hs
    by_cases hi : i = id
    · subst hi
      rw [Function.update_self] at hs ⊢
      cases hs
      rfl
    · rw [Function.update_of_ne hi] at hs ⊢
      exact h.head i s hs
  · rw [ht] at hi
    by_cases hid : i = id
    · subst hid
      simp at hi
    · rw [Function.update_of_ne hid] at hi ⊢
      exact h.gone i hi
  · by_cases hi : i = id
    · subst hi
      rwa [Function.update_self]
    · rw [Function.update_of_ne hi]
      exact ((h.ordered i).congr (hother i hi)).1
  · by_cases hi : i = id <;> by_cases hj : j = id
    · rw [hi, hj]
    · rw [hi, Function.update_self] at hq
      rw [Function.update_of_ne hj] at hq'
      exact absurd hq' (hin q hq j hj)
    · rw [hj, Function.update_self] at hq'
      rw [Function.update_of_ne hi] at hq
      exact absurd hq (hin q hq' i hi)
    · rw [Function.update_of_ne hi] at hq
      rw [Function.update_of_ne hj] at hq'
      exact h.apart i j q hq hq'
  · simp only [registry, Registry.setEntry, Registry.mk.injEq]
    refine ⟨?_, ?_, rfl⟩
    · funext i
      rw [ht]
      by_cases hi : i = id
      · subst hi
        simp [hsh, Shmem.bare]
      · rw [Function.update_of_ne hi]
    · funext i
      by_cases hi : i = id
      · subst hi
        rw [Function.update_self, Function.update_self]
        exact he
      · rw [Function.update_of_ne hi, Function.update_of_ne hi]
        exact ((h.ordered i).congr (hother i hi)).2

/-- An assignment to an entry. -/
theorem Listed.setInfo (h : Listed k chain) (hp : p ∈ chain id) (hv : k.infos p = some v)
    {w : ShmemInfo} (hpid : w.pid = v.pid) (hnext : w.next = v.next) (hprev : w.prev = v.prev)
    (htmp : w.tmp = none) :
    Listed (k.setInfo p (some w)) chain ∧ registry (k.setInfo p (some w)) chain =
      (registry k chain).setEntry id v.pid (some w.entry) := by
  obtain ⟨sh, hsh⟩ : ∃ sh, k.table id = some sh := by
    cases ht : k.table id with
    | none =>
      rw [h.gone id ht] at hp
      simp at hp
    | some sh => exact ⟨sh, rfl⟩
  obtain ⟨hc, he⟩ := (h.ordered id).set hp hv hpid hnext hprev htmp
  have hother : ∀ i ≠ id, ∀ q ∈ chain i, Function.update k.infos p (some w) q = k.infos q := by
    intro i hi q hq
    rw [Function.update_of_ne]
    rintro rfl
    exact hi (h.apart i id q hq hp)
  have hr := h.replace hsh hc (fun q hq i hi hq' => hi (h.apart i id q hq' hq)) hother he
  have hk : k.relist (Function.update k.infos p (some w)) id sh (chain id).head? =
      k.setInfo p (some w) := by
    simp only [Kernel.relist, Kernel.setRegion, Kernel.setInfo, Kernel.mk.injEq, and_true]
    rw [← h.head id sh hsh, Function.update_eq_self_iff.mpr hsh.symm]
  rwa [Function.update_eq_self, hk] at hr

/-- A new entry. -/
theorem Listed.insertInfo (h : Listed k chain) (hsh : k.table id = some sh) (hp : k.infos p = none)
    (hb : p < walkBound) (hn : (registry k chain).entry id pid = none) (flags : ℕ) :
    ∃ k', insertInfo k id sh p (newInfo pid flags) = .ok k' ∧
      (∃ v, k'.infos p = some v ∧ v.pid = pid ∧ v.entry = freshEntry flags) ∧
      k'.maps = k.maps ∧ Listed k' (Function.update chain id (p :: chain id)) ∧
      registry k' (Function.update chain id (p :: chain id)) =
        (registry k chain).setEntry id pid (some (freshEntry flags)) := by
  have hfresh : ∀ i, p ∉ chain i := fun i hi => by
    obtain ⟨w, hw⟩ := (h.ordered i).alive p hi
    rw [hp] at hw
    cases hw
  obtain ⟨infos', hrun, hc, he, hself, hother⟩ :=
    (h.ordered id).push (v := newInfo pid flags) hp hb hn rfl rfl rfl
  have hrun' : Sharing.insertInfo k id sh p (newInfo pid flags) =
      .ok (k.relist infos' id sh (some p)) := by
    rw [Sharing.insertInfo, h.head id sh hsh, hrun, ok_bind, Kernel.relist]
  refine ⟨_, hrun', ?_, rfl, ?_⟩
  · exact ⟨_, hself, rfl, rfl⟩
  · apply h.replace hsh hc (fun q hq i hi hq' => ?_) (fun i hi q hq => ?_) he
    · rcases List.mem_cons.mp hq with rfl | hq
      · exact hfresh i hq'
      · exact hi (h.apart i id q hq' hq)
    · apply hother
      intro hq'
      rcases List.mem_cons.mp hq' with rfl | hq'
      · exact hfresh i hq
      · exact hi (h.apart i id q hq hq')

/-- An entry goes. -/
theorem Listed.unlinkInfo (h : Listed k chain) (hsh : k.table id = some sh) (hp : p ∈ chain id)
    (hv : k.infos p = some v) :
    ∃ k' l, unlinkInfo k id sh p = .ok (k', 0) ∧ Listed k' (Function.update chain id l) ∧
      registry k' (Function.update chain id l) = (registry k chain).setEntry id v.pid none := by
  obtain ⟨xs, ys, hl⟩ := List.append_of_mem hp
  have hc := h.ordered id
  rw [hl] at hc
  obtain ⟨infos', hrun, hc', he, hother, hhead⟩ := hc.erase hv
  refine ⟨_, xs ++ ys, by rw [Sharing.unlinkInfo, load_some hv, ok_bind, hrun, ok_bind], ?_⟩
  have hsub : ∀ q ∈ xs ++ ys, q ∈ chain id := fun q hq => by
    rw [hl]
    rcases List.mem_append.mp hq with hq | hq <;> simp [hq]
  rw [h.head id sh hsh, hl, hhead]
  apply h.replace hsh hc' (fun q hq i hi hq' => hi (h.apart i id q hq' (hsub q hq)))
    (fun i hi q hq => ?_) (hl ▸ he)
  apply hother
  rw [← hl]
  exact fun hq' => hi (h.apart i id q hq hq')

/-- The search that each call begins with. -/
theorem Listed.find (h : Listed k chain) (hsh : k.table id = some sh) (pid : ℤ) :
    findInfo k.infos pid walkBound sh.list = .ok none ∧ (registry k chain).entry id pid = none ∨
    ∃ p v, findInfo k.infos pid walkBound sh.list = .ok (some p) ∧ p ∈ chain id ∧
      k.infos p = some v ∧ v.pid = pid ∧ (registry k chain).entry id pid = some v.entry := by
  have hc := h.ordered id
  rw [h.head id sh hsh, hc.findInfo_eq]
  cases hf : (chain id).find? (belongs k.infos pid) with
  | none =>
    refine .inl ⟨rfl, hc.entries_eq_none.mpr fun p hp v hv hpid => ?_⟩
    exact List.find?_eq_none.mp hf p hp (belongs_iff.mpr ⟨v, hv, hpid⟩)
  | some p =>
    obtain ⟨v, hv, hpid⟩ := belongs_iff.mp (List.find?_some hf)
    have hp := List.mem_of_find?_eq_some hf
    exact .inr ⟨p, v, rfl, hp, hv, hpid, hpid ▸ hc.entries_eq hp hv⟩

theorem nextId_nonneg (id : ℤ) : 0 ≤ nextId id := by
  unfold nextId
  split_ifs <;> omega

theorem freeId_eq {table : ℤ → Option Shmem} {left : ℕ} {start i n : ℤ} (h₀ : 0 ≤ start)
    (h : freeId table left start = .ok (i, n)) : 0 ≤ i ∧ table i = none ∧ 0 ≤ n := by
  induction left generalizing start with
  | zero => cases h
  | succ left ih =>
    rw [freeId] at h
    cases ht : table start with
    | none =>
      rw [ht] at h
      cases h
      exact ⟨h₀, ht, nextId_nonneg _⟩
    | some sh =>
      rw [ht] at h
      exact ih (nextId_nonneg _) h

/-- A call of the kernel is a step on the registry. -/
def Simulates (k : Kernel) (chain : ℤ → List ℕ) (c : ShmemCall) (k' : Kernel) (a : Answer) :
    Prop :=
  ∃ chain', Listed k' chain' ∧ Step (registry k chain) c (registry k' chain') a

theorem Listed.refuse (h : Listed k chain) (c : ShmemCall) : Simulates k chain c k ⟨-1, none⟩ :=
  ⟨chain, h, .refuse c⟩

theorem Listed.setNew (h : Listed k chain) (ht : k.table id = none) (hs : sh.list = none)
    {next : ℤ} (hn : 0 ≤ next) :
    Listed { k.setRegion id (some sh) with shmemId := next } chain ∧
      registry { k.setRegion id (some sh) with shmemId := next } chain =
        (registry k chain).setRegion id (some sh) := by
  have hnil := h.gone id ht
  refine ⟨⟨fun i s hi => ?_, fun i hi => ?_, h.ordered, h.apart, hn⟩, ?_⟩
  · simp only [Kernel.setRegion] at hi
    by_cases hid : i = id
    · subst hid
      rw [Function.update_self] at hi
      cases hi
      rw [hnil, hs, List.head?_nil]
    · rw [Function.update_of_ne hid] at hi
      exact h.head i s hi
  · simp only [Kernel.setRegion] at hi
    by_cases hid : i = id
    · rw [hid, hnil]
    · rw [Function.update_of_ne hid] at hi
      exact h.gone i hi
  · simp only [registry, Registry.setRegion, Kernel.setRegion, Registry.mk.injEq, and_true]
    constructor
    · funext i
      by_cases hid : i = id
      · subst hid
        have hb : sh.bare = sh := by rw [Shmem.bare, ← hs]
        simp [hb]
      · rw [Function.update_of_ne hid, Function.update_of_ne hid]
    · funext i
      by_cases hid : i = id
      · subst hid
        rw [Function.update_self, hnil]
        rfl
      · rw [Function.update_of_ne hid]

theorem Listed.createDirect (h : Listed k chain) {kmalloc insert : Bool} {litter name : CString}
    {pid pages rc : ℤ} {flags location internal : ℕ}
    (he : shmemCreateDirect k kmalloc insert litter name pid pages flags location internal =
      .ok (k', rc)) : rc = -1 ∧ k' = k ∨
    0 ≤ rc ∧ 0 < pages ∧ (registry k chain).region rc = none ∧ Listed k' chain ∧
      registry k' chain = if insert then (registry k chain).setRegion rc
          (some (newRegion litter name pid pages flags location internal rc))
        else registry k chain := by
  rw [shmemCreateDirect] at he
  by_cases h₁ : pages ≤ 0
  · rw [if_pos h₁] at he
    cases he
    exact .inl ⟨rfl, rfl⟩
  by_cases h₂ : name 0 = 0
  · rw [if_neg h₁, if_pos h₂] at he
    cases he
    exact .inl ⟨rfl, rfl⟩
  by_cases h₃ : kmalloc = false
  · rw [if_neg h₁, if_neg h₂, if_pos h₃] at he
    cases he
    exact .inl ⟨rfl, rfl⟩
  rw [if_neg h₁, if_neg h₂, if_neg h₃] at he
  obtain ⟨⟨i, next⟩, hi, he⟩ := bind_eq_ok.mp he
  obtain ⟨h₀, ht, hn⟩ := freeId_eq h.nextId hi
  have hr : (registry k chain).region i = none := by rw [region_registry, ht, Option.map_none]
  cases insert with
  | false =>
    cases he
    exact .inr ⟨h₀, not_le.mp h₁, hr, h.congr rfl rfl hn, rfl⟩
  | true =>
    cases he
    exact .inr ⟨h₀, not_le.mp h₁, hr, h.setNew ht rfl hn⟩

theorem Listed.grant (h : Listed k chain) {kmalloc : Option ℕ} {owner rc : ℤ} {flags : ℕ}
    (hm : ∀ p, kmalloc = some p → k.infos p = none ∧ p < walkBound)
    (he : shmemGrant k kmalloc owner id pid flags = .ok (k', rc)) :
    Simulates k chain (.grant kmalloc owner id pid flags) k' ⟨rc, none⟩ := by
  rw [shmemGrant] at he
  cases ht : k.table id with
  | none =>
    rw [ht] at he
    cases he
    exact h.refuse _
  | some sh =>
    rw [ht] at he
    dsimp only at he
    split_ifs at he with howner
    · cases he
      exact h.refuse _
    · obtain ⟨hf, hnone⟩ | ⟨p, v, hf, -⟩ := h.find ht pid
      · rw [hf, ok_bind] at he
        cases kmalloc with
        | none =>
          cases he
          exact h.refuse _
        | some p =>
          obtain ⟨hp, hb⟩ := hm p rfl
          obtain ⟨k₁, hk₁, -, -, hl, hr⟩ := h.insertInfo ht hp hb hnone (flags &&& SHMEM_MASK)
          dsimp only at he
          rw [hk₁, ok_bind] at he
          cases he
          refine ⟨_, hl, ?_⟩
          have howner : owner = sh.bare.pid := not_not.mp howner
          rw [hr, howner]
          exact .grant (by rw [region_registry, ht, Option.map_some]) hnone
      · rw [hf, ok_bind] at he
        cases he
        exact h.refuse _

theorem Listed.countRequest (h : Listed k chain) {access : Option Access} (hp : p ∈ chain id)
    (hv : k.infos p = some v) (he : countRequest k p = .ok (k', access)) :
    Listed k' chain ∧ registry k' chain = (registry k chain).setEntry id v.pid
        (some { v.entry with usage := int32 (v.usage + 1) }) ∧
      access = some ⟨v.virtualLocation, v.virtualPages, v.flags⟩ := by
  have htmp := (h.ordered id).idle p hp v hv
  rw [Sharing.countRequest, load_some hv, ok_bind] at he
  cases he
  obtain ⟨hl, hr⟩ := h.setInfo hp hv (w := { v with usage := int32 (v.usage + 1) }) rfl rfl rfl
    htmp
  exact ⟨hl, hr, rfl⟩

theorem Listed.mapRequest (h : Listed k chain) {memory : ℕ → ℕ} {tables : ℕ → Option ℕ}
    {access : Option Access} (hp : p ∈ chain id) (hv : k.infos p = some v)
    (he : mapRequest k memory tables v.pid sh p = .ok (k', access)) :
    ∃ e m, Served memory tables sh.physicalLocation sh.physicalPages v.entry (k.maps v.pid) e m
        access ∧ Listed k' chain ∧
      registry k' chain = ((registry k chain).setMap v.pid m).setEntry id v.pid (some e) := by
  have htmp := (h.ordered id).idle p hp v hv
  rw [Sharing.mapRequest, load_some hv, ok_bind] at he
  by_cases hpages : v.virtualPages < 0
  · rw [if_pos hpages] at he
    obtain ⟨d, hd, he⟩ := bind_eq_ok.mp he
    obtain ⟨⟨d', location⟩, hprov, he⟩ := bind_eq_ok.mp he
    have hd := deref_eq_ok.mp hd
    have hk : Listed (k.setMap v.pid d') chain := h.congr rfl rfl h.nextId
    dsimp only at he
    by_cases hloc : location = 0
    · rw [if_pos hloc] at he
      cases he
      obtain ⟨hl, hr⟩ := hk.setInfo hp hv (w := { v with virtualLocation := location }) rfl rfl rfl
        htmp
      subst hloc
      exact ⟨_, _, .noRoom hpages hd hprov, hl, hr⟩
    · rw [if_neg hloc] at he
      obtain ⟨hl, hr⟩ := hk.setInfo hp hv
        (w := { v with virtualLocation := location, virtualPages := sh.physicalPages }) rfl rfl rfl
        htmp
      obtain ⟨hl', hr', rfl⟩ := hl.countRequest hp ((infos_setInfo ..).trans (if_pos rfl)) he
      refine ⟨_, _, .map hpages hd hprov hloc, hl', ?_⟩
      rw [hr', hr, Registry.setEntry_setEntry]
      rfl
  · rw [if_neg hpages] at he
    obtain ⟨hl, hr, rfl⟩ := h.countRequest hp hv he
    refine ⟨_, _, .count (not_lt.mp hpages), hl, ?_⟩
    have hsame : (registry k chain).setMap v.pid (k.maps v.pid) = registry k chain := by
      rw [Registry.setMap, registry, Function.update_eq_self]
    rw [hr, hsame]
    rfl

theorem Listed.request (h : Listed k chain) {kmalloc : Option ℕ} {memory : ℕ → ℕ}
    {tables : ℕ → Option ℕ} {access : Option Access}
    (hm : ∀ p, kmalloc = some p → k.infos p = none ∧ p < walkBound)
    (he : shmemRequest k kmalloc memory tables pid id = .ok (k', access)) :
    Simulates k chain (.request kmalloc memory tables pid id) k'
      ⟨if access.isSome then 0 else -1, access⟩ := by
  rw [shmemRequest] at he
  cases ht : k.table id with
  | none =>
    rw [ht] at he
    cases he
    exact h.refuse _
  | some sh =>
    rw [ht] at he
    have hregion : (registry k chain).region id = some sh.bare := by
      rw [region_registry, ht, Option.map_some]
    obtain ⟨hf, hnone⟩ | ⟨p, v, hf, hp, hv, rfl, hentry⟩ := h.find ht pid
    · dsimp only at he
      rw [hf, ok_bind] at he
      dsimp only at he
      by_cases hprom : sh.flags &&& SHMEM_PROMISCUOUS = SHMEM_PROMISCUOUS
      · rw [if_pos hprom] at he
        cases kmalloc with
        | none =>
          cases he
          exact h.refuse _
        | some p =>
          obtain ⟨hp, hb⟩ := hm p rfl
          obtain ⟨k₁, hk₁, ⟨v, hv, rfl, hfresh⟩, hmaps, hl, hr⟩ :=
            h.insertInfo ht hp hb hnone (sh.flags &&& SHMEM_MASK)
          dsimp only at he
          rw [hk₁, ok_bind] at he
          have hp : p ∈ Function.update chain id (p :: chain id) id := by
            rw [Function.update_self]
            exact List.mem_cons_self ..
          obtain ⟨e, m, hserved, hl', hr'⟩ := hl.mapRequest hp hv he
          rw [hmaps] at hserved
          refine ⟨_, hl', ?_⟩
          rw [hr', hr, Registry.setMap_setEntry, Registry.setEntry_setEntry]
          exact .request hregion (.inr ⟨hnone, hprom, hfresh⟩) hserved
      · rw [if_neg hprom] at he
        cases he
        exact h.refuse _
    · dsimp only at he
      rw [hf, ok_bind] at he
      obtain ⟨e, m, hserved, hl, hr⟩ := h.mapRequest hp hv he
      exact ⟨chain, hl, hr ▸ .request hregion (.inl hentry) hserved⟩

theorem Listed.revoke (h : Listed k chain) {data : Option ℕ} {tables : ℕ → Option ℕ}
    {owner rc : ℤ} (he : shmemRevoke k data tables owner pid id = .ok (k', rc)) :
    Simulates k chain (.revoke data tables owner pid id) k' ⟨rc, none⟩ := by
  rw [shmemRevoke] at he
  cases ht : k.table id with
  | none =>
    rw [ht] at he
    cases he
    exact h.refuse _
  | some sh =>
    rw [ht] at he
    dsimp only at he
    split_ifs at he with howner
    · cases he
      exact h.refuse _
    · have howner : owner = sh.bare.pid := not_not.mp howner
      have hregion : (registry k chain).region id = some sh.bare := by
        rw [region_registry, ht, Option.map_some]
      obtain ⟨hf, hnone⟩ | ⟨p, v, hf, hp, hv, rfl, hentry⟩ := h.find ht pid
      · rw [hf, ok_bind] at he
        cases he
        exact h.refuse _
      · rw [hf, ok_bind] at he
        dsimp only at he
        rw [load_some hv, ok_bind] at he
        by_cases husage : 0 < v.usage
        · rw [if_pos husage] at he
          cases data with
          | none =>
            cases he
            exact ⟨chain, h.congr rfl rfl h.nextId, .refuse _⟩
          | some data =>
            obtain ⟨d, hd, he⟩ := bind_eq_ok.mp he
            obtain ⟨d', hmap, he⟩ := bind_eq_ok.mp he
            have hk : Listed (k.setMap v.pid d') chain := h.congr rfl rfl h.nextId
            obtain ⟨k₁, l, hrun, hl, hr⟩ := hk.unlinkInfo ht hp hv
            rw [hrun] at he
            cases he
            refine ⟨_, hl, ?_⟩
            rw [hr, howner]
            exact .revoke hregion hentry husage (deref_eq_ok.mp hd) hmap
        · rw [if_neg husage] at he
          obtain ⟨k₁, l, hrun, hl, hr⟩ := h.unlinkInfo ht hp hv
          rw [hrun] at he
          cases he
          refine ⟨_, hl, ?_⟩
          rw [hr, howner]
          exact .revokeIdle hregion hentry (not_lt.mp husage)

theorem Listed.release (h : Listed k chain) {memory : ℕ → ℕ} {rc : ℤ}
    (he : shmemRelease k memory pid id = .ok (k', rc)) :
    Simulates k chain (.release memory pid id) k' ⟨rc, none⟩ := by
  rw [shmemRelease] at he
  cases ht : k.table id with
  | none =>
    rw [ht] at he
    cases he
    exact h.refuse _
  | some sh =>
    rw [ht] at he
    dsimp only at he
    obtain ⟨hf, hnone⟩ | ⟨p, v, hf, hp, hv, rfl, hentry⟩ := h.find ht pid
    · rw [hf, ok_bind] at he
      cases he
      exact h.refuse _
    · have htmp := (h.ordered id).idle p hp v hv
      have hregion : (registry k chain).region id = some sh.bare := by
        rw [region_registry, ht, Option.map_some]
      rw [hf, ok_bind] at he
      dsimp only at he
      rw [load_some hv, ok_bind] at he
      by_cases husage : int32 (v.usage - 1) = 0
      · rw [if_pos husage] at he
        obtain ⟨d, hd, he⟩ := bind_eq_ok.mp he
        obtain ⟨d', hrel, he⟩ := bind_eq_ok.mp he
        have hk : Listed (k.setMap v.pid d') chain := h.congr rfl rfl h.nextId
        cases he
        obtain ⟨hl, hr⟩ := hk.setInfo hp hv (w := { v with
          usage := int32 (v.usage - 1), virtualLocation := 0, virtualPages := -1 }) rfl rfl rfl htmp
        refine ⟨chain, hl, ?_⟩
        have hw : ShmemInfo.entry { v with
            usage := int32 (v.usage - 1), virtualLocation := 0, virtualPages := -1 } =
            ⟨0, -1, v.entry.flags, 0⟩ := by
          simp [ShmemInfo.entry, husage]
        rw [hr, hw]
        exact .unmap hregion hentry husage (deref_eq_ok.mp hd) hrel
      · rw [if_neg husage] at he
        cases he
        obtain ⟨hl, hr⟩ := h.setInfo hp hv (w := { v with usage := int32 (v.usage - 1) }) rfl rfl
          rfl htmp
        exact ⟨chain, hl, hr ▸ .release hregion hentry husage⟩

end Racoon.Sharing
