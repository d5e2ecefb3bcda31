import Racoon.Sharing.Calls

/-!
# Deleting a region

`shmem_delete` walks the list of the region three times: it checks out the
processes that still use the region, gives each of them a scratch pad, and frees
the entries. With that every call of the kernel is a step on the registry.
-/

namespace Racoon.Sharing
open Lib Paging

/-- The nodes that a walk along `next` comes by. -/
def Path (infos : Heap) : List ℕ → Prop
  | [] => True
  | p :: rest => (∃ v, infos p = some v ∧ v.next = rest.head?) ∧ Path infos rest

variable {infos infos' : Heap} {l : List ℕ} {k k' : Kernel} {chain : ℤ → List ℕ} {id pid : ℤ}
  {sh : Shmem}

theorem Path.congr (h : Path infos l)
    (he : ∀ p ∈ l, (infos' p).map ShmemInfo.next = (infos p).map ShmemInfo.next) :
    Path infos' l := by
  induction l with
  | nil => trivial
  | cons p rest ih =>
    obtain ⟨⟨v, hv, hnext⟩, hrest⟩ := h
    have hp := he p (by simp)
    rw [hv, Option.map_some, Option.map_eq_some_iff] at hp
    obtain ⟨w, hw, hwv⟩ := hp
    exact ⟨⟨w, hw, hwv.trans hnext⟩, ih hrest fun q hq => he q (by simp [hq])⟩

theorem Chain.path (h : Chain infos l) : Path infos l := by
  suffices hw : ∀ l prev, (∀ p ∈ l, ∃ v, infos p = some v) →
      Linked (via ShmemInfo.next infos) (via ShmemInfo.prev infos) prev l none → Path infos l from
    hw l none h.alive h.linked
  intro l
  induction l with
  | nil => exact fun _ _ _ => trivial
  | cons p rest ih =>
    intro prev halive hlinked
    obtain ⟨v, hv⟩ := halive p (by simp)
    obtain ⟨-, hnext, hrest⟩ := hlinked
    rw [via_of hv, Option.or_none] at hnext
    exact ⟨⟨v, hv, hnext⟩, ih (some p) (fun q hq => halive q (by simp [hq])) hrest⟩

/-- An entry after the first loop. -/
def checked (maps : ℤ → Option PageDirectory) (scratch : ℤ → Option ℕ) (v : ShmemInfo) :
    ShmemInfo :=
  if 0 < v.usage then
    match maps v.pid with
    | none => { v with tmp := none }
    | some _ => { v with tmp := some v.pid, tmp2 := scratch v.pid }
  else v

theorem checked_next (maps : ℤ → Option PageDirectory) (scratch : ℤ → Option ℕ) (v : ShmemInfo) :
    (checked maps scratch v).next = v.next := by
  unfold checked
  split_ifs
  · cases maps v.pid <;> rfl
  · rfl

theorem checkoutInfo_eq {p : ℕ} {v : ShmemInfo} (scratch : ℤ → Option ℕ) (hv : k.infos p = some v)
    (usage : ℤ) : ∃ n : ℤ, 0 ≤ n ∧ (n = 0 → 0 < v.usage → k.maps v.pid = none) ∧
      checkoutInfo k (scratch v.pid) p v usage =
        (k.setInfo p (some (checked k.maps scratch v)), usage + n) := by
  unfold checkoutInfo checked
  by_cases hu : 0 < v.usage
  · cases hm : k.maps v.pid with
    | none => exact ⟨0, le_rfl, fun _ _ => rfl, by simp [hu]⟩
    | some d => exact ⟨1, by omega, fun h => by omega, by simp [hu]⟩
  · refine ⟨0, le_rfl, fun _ h => absurd h hu, ?_⟩
    simp only [hu, if_false, add_zero, Kernel.setInfo]
    rw [Function.update_eq_self_iff.mpr hv.symm]

theorem checkoutFrom_eq (scratch : ℤ → Option ℕ) {left : ℕ} (hlen : l.length ≤ left)
    (hnd : l.Nodup) (hp : Path k.infos l) (usage : ℤ) : ∃ (infos : Heap) (n : ℤ), 0 ≤ n ∧
      checkoutFrom scratch left l.head? k usage = .ok ({ k with infos := infos }, usage + n) ∧
      (n = 0 → ∀ p ∈ l, ∀ v, k.infos p = some v → 0 < v.usage → k.maps v.pid = none) ∧
      ∀ q, infos q =
        if q ∈ l then (k.infos q).map (checked k.maps scratch) else k.infos q := by
  induction l generalizing left k usage with
  | nil =>
    refine ⟨k.infos, 0, le_rfl, ?_, by simp, by simp⟩
    cases left <;> simp [checkoutFrom]
  | cons p rest ih =>
    obtain ⟨left, rfl⟩ : ∃ m, left = m + 1 := ⟨left - 1, by simp at hlen; omega⟩
    obtain ⟨hpr, hnd⟩ := List.nodup_cons.mp hnd
    obtain ⟨⟨v, hv, hnext⟩, hrest⟩ := hp
    obtain ⟨n, hn, hzero, hcheck⟩ := checkoutInfo_eq scratch hv usage
    have hrest' : Path (k.setInfo p (some (checked k.maps scratch v))).infos rest := by
      apply hrest.congr
      intro q hq
      rw [infos_setInfo, if_neg]
      rintro rfl
      exact hpr hq
    obtain ⟨infos₁, m, hm, hrun, hall, hat⟩ :=
      ih (by simpa using hlen) hnd hrest' (usage + n)
    refine ⟨infos₁, n + m, by omega, ?_, ?_, fun q => ?_⟩
    · rw [List.head?_cons, checkoutFrom, load_some hv, ok_bind, hcheck, hnext]
      dsimp only
      rw [hrun, add_assoc]
      rfl
    · intro h0 q hq w hw husage
      rcases List.mem_cons.mp hq with rfl | hq
      · rw [hv] at hw
        cases hw
        exact hzero (by omega) husage
      · refine hall (by omega) q hq w ?_ husage
        have hqp : q ≠ p := fun he => hpr (he ▸ hq)
        rw [infos_setInfo, if_neg hqp, hw]
    · rw [hat, infos_setInfo]
      by_cases hqp : q = p
      · subst hqp
        simp [hpr, hv]
      · simp [hqp, Kernel.setInfo]

/-- What the second loop does to the directory of the process of an entry. -/
def Padded (tables : ℤ → ℕ → Option ℕ) (sh : Shmem) (v : ShmemInfo)
    (m m' : Option PageDirectory) : Prop :=
  (v.tmp = none ∨ v.tmp2 = none) ∧ m' = m ∨
  ∃ data d d', v.tmp = some v.pid ∧ v.tmp2 = some data ∧ m = some d ∧ m' = some d' ∧
    pageDirectMap (tables v.pid) d data v.virtualLocation sh.physicalPages (mapType v.flags) =
      .ok d'

theorem detachInfo_eq {tables : ℤ → ℕ → Option ℕ} {v : ShmemInfo}
    (ht : v.tmp = none ∨ v.tmp = some v.pid) (h : detachInfo tables sh k v = .ok k') :
    ∃ m, k' = { k with maps := Function.update k.maps v.pid m } ∧
      Padded tables sh v (k.maps v.pid) m := by
  have hsame : k = { k with maps := Function.update k.maps v.pid (k.maps v.pid) } := by
    rw [Function.update_eq_self]
  rw [detachInfo] at h
  rcases ht with ht | ht
  · rw [ht] at h
    cases h
    exact ⟨_, hsame, .inl ⟨.inl ht, rfl⟩⟩
  · rw [ht] at h
    cases ht₂ : v.tmp2 with
    | none =>
      rw [ht₂] at h
      cases h
      exact ⟨_, hsame, .inl ⟨.inr ht₂, rfl⟩⟩
    | some data =>
      rw [ht₂] at h
      obtain ⟨d, hd, h⟩ := bind_eq_ok.mp h
      obtain ⟨d', hd', h⟩ := bind_eq_ok.mp h
      cases h
      exact ⟨_, rfl, .inr ⟨data, d, d', ht, ht₂, deref_eq_ok.mp hd, rfl, hd'⟩⟩

theorem detachFrom_eq {tables : ℤ → ℕ → Option ℕ} {left : ℕ} (hlen : l.length ≤ left)
    (hnd : l.Nodup) (hp : Path k.infos l)
    (hsingle : ∀ p ∈ l, ∀ q ∈ l, ∀ v w, k.infos p = some v → k.infos q = some w → v.pid = w.pid →
      p = q)
    (htmp : ∀ p ∈ l, ∀ v, k.infos p = some v → v.tmp = none ∨ v.tmp = some v.pid)
    (h : detachFrom tables sh left l.head? k = .ok k') : ∃ maps, k' = { k with maps := maps } ∧
      (∀ p ∈ l, ∀ v, k.infos p = some v → Padded tables sh v (k.maps v.pid) (maps v.pid)) ∧
      ∀ x, (∀ p ∈ l, ∀ v, k.infos p = some v → v.pid ≠ x) → maps x = k.maps x := by
  induction l generalizing left k with
  | nil =>
    have hk : k' = k := by
      cases left <;> cases h <;> rfl
    exact ⟨k.maps, hk, by simp, fun _ _ => rfl⟩
  | cons p rest ih =>
    obtain ⟨left, rfl⟩ : ∃ m, left = m + 1 := ⟨left - 1, by simp at hlen; omega⟩
    obtain ⟨hpr, hnd⟩ := List.nodup_cons.mp hnd
    obtain ⟨⟨v, hv, hnext⟩, hrest⟩ := hp
    rw [List.head?_cons, detachFrom, load_some hv, ok_bind, hnext] at h
    obtain ⟨k₁, hk₁, h⟩ := bind_eq_ok.mp h
    obtain ⟨m, rfl, hpad⟩ := detachInfo_eq (htmp p (by simp) v hv) hk₁
    obtain ⟨maps, rfl, hall, hother⟩ := ih
      (k := { k with maps := Function.update k.maps v.pid m }) (by simpa using hlen) hnd hrest
      (fun q hq r hr => hsingle q (by simp [hq]) r (by simp [hr]))
      (fun q hq => htmp q (by simp [hq])) h
    dsimp only at hall hother
    have hne : ∀ q ∈ rest, ∀ w, k.infos q = some w → w.pid ≠ v.pid := by
      intro q hq w hw he
      exact hpr (hsingle q (by simp [hq]) p (by simp) w v hw hv he ▸ hq)
    refine ⟨maps, rfl, fun q hq w hw => ?_, fun x hx => ?_⟩
    · rcases List.mem_cons.mp hq with rfl | hq
      · rw [hv] at hw
        cases hw
        have hm := hother v.pid hne
        rw [Function.update_self] at hm
        rwa [hm]
      · have := hall q hq w hw
        rwa [Function.update_of_ne (hne q hq w hw)] at this
    · rw [hother x fun q hq => hx q (by simp [hq]), Function.update_of_ne]
      exact (hx p (by simp) v hv).symm

theorem discardFrom_eq {left : ℕ} (hlen : l.length ≤ left) (hnd : l.Nodup) (hp : Path k.infos l) :
    ∃ infos, discardFrom left l.head? k = .ok { k with infos := infos } ∧
      ∀ q, infos q = if q ∈ l then none else k.infos q := by
  induction l generalizing left k with
  | nil =>
    refine ⟨k.infos, ?_, by simp⟩
    cases left <;> rfl
  | cons p rest ih =>
    obtain ⟨left, rfl⟩ : ∃ m, left = m + 1 := ⟨left - 1, by simp at hlen; omega⟩
    obtain ⟨hpr, hnd⟩ := List.nodup_cons.mp hnd
    obtain ⟨⟨v, hv, hnext⟩, hrest⟩ := hp
    have hrest' : Path (k.setInfo p none).infos rest := by
      apply hrest.congr
      intro q hq
      rw [infos_setInfo, if_neg]
      rintro rfl
      exact hpr hq
    obtain ⟨infos₁, hrun, hat⟩ := ih (by simpa using hlen) hnd hrest'
    refine ⟨infos₁, ?_, fun q => ?_⟩
    · rw [List.head?_cons, discardFrom, load_some hv, ok_bind, hnext, hrun]
      rfl
    · rw [hat, infos_setInfo]
      by_cases hqp : q = p
      · subst hqp
        simp
      · simp [hqp]

theorem checked_cases (maps : ℤ → Option PageDirectory) (scratch : ℤ → Option ℕ) (v : ShmemInfo)
    (h : v.tmp = none) : (checked maps scratch v).pid = v.pid ∧
      (checked maps scratch v).entry = v.entry ∧
      ((checked maps scratch v).tmp = none ∧ (0 < v.usage → maps v.pid = none) ∨
        (checked maps scratch v).tmp = some v.pid ∧ 0 < v.usage ∧
          (checked maps scratch v).tmp2 = scratch v.pid) := by
  unfold checked
  split_ifs with hu
  · cases hm : maps v.pid with
    | none => exact ⟨rfl, rfl, .inl ⟨rfl, fun _ => rfl⟩⟩
    | some d => exact ⟨rfl, rfl, .inr ⟨rfl, hu, rfl⟩⟩
  · exact ⟨rfl, rfl, .inl ⟨h, fun h => absurd h hu⟩⟩

/-- The first two loops together. -/
theorem detach_eq {scratch : ℤ → Option ℕ} {tables : ℤ → ℕ → Option ℕ} {usage : ℤ}
    {k₁ k₂ : Kernel} (hc : Chain k.infos l) (hl : sh.list = l.head?)
    (h₁ : checkoutFrom scratch walkBound sh.list k 0 = .ok (k₁, usage))
    (h₂ : detachUsers tables sh k₁ usage = .ok k₂) :
    ∃ infos maps, k₂ = { k with infos := infos, maps := maps } ∧ Path infos l ∧
      (∀ q, q ∉ l → infos q = k.infos q) ∧ ∀ pid, Detached (scratch pid) (tables pid)
        sh.physicalPages (entries k.infos l pid) (k.maps pid) (maps pid) := by
  obtain ⟨infos, n, hn, hrun, hzero, hat⟩ := checkoutFrom_eq scratch hc.length_le hc.nodup hc.path 0
  rw [hl, hrun, zero_add] at h₁
  cases h₁
  have hpath : Path infos l := by
    apply hc.path.congr
    intro q hq
    rw [hat, if_pos hq, Option.map_map]
    congr 1
    funext v
    exact checked_next _ _ _
  have hout : ∀ q, q ∉ l → infos q = k.infos q := fun q hq => by rw [hat, if_neg hq]
  have hafter : ∀ p ∈ l, ∀ w, infos p = some w →
      ∃ v, k.infos p = some v ∧ w = checked k.maps scratch v := by
    intro p hp w hw
    rw [hat, if_pos hp, Option.map_eq_some_iff] at hw
    obtain ⟨v, hv, rfl⟩ := hw
    exact ⟨v, hv, rfl⟩
  by_cases hu : 0 < usage
  · rw [detachUsers, if_pos hu, hl] at h₂
    obtain ⟨maps, rfl, hall, hother⟩ := detachFrom_eq (k := { k with infos := infos })
      hc.length_le hc.nodup hpath
      (fun p hp q hq w₁ w₂ hw₁ hw₂ he => by
        obtain ⟨v₁, hv₁, rfl⟩ := hafter p hp w₁ hw₁
        obtain ⟨v₂, hv₂, rfl⟩ := hafter q hq w₂ hw₂
        have he₁ := (checked_cases k.maps scratch v₁ (hc.idle p hp v₁ hv₁)).1
        have he₂ := (checked_cases k.maps scratch v₂ (hc.idle q hq v₂ hv₂)).1
        exact hc.single p hp q hq v₁ v₂ hv₁ hv₂ (he₁.symm.trans (he.trans he₂)))
      (fun p hp w hw => by
        obtain ⟨v, hv, rfl⟩ := hafter p hp w hw
        obtain ⟨hpid, -, ht⟩ := checked_cases k.maps scratch v (hc.idle p hp v hv)
        rw [hpid]
        exact ht.imp And.left And.left) h₂
    refine ⟨infos, maps, rfl, hpath, hout, fun pid => ?_⟩
    cases he : entries k.infos l pid with
    | none =>
      refine .inl ⟨hother pid fun p hp w hw => ?_, by simp⟩
      obtain ⟨v, hv, rfl⟩ := hafter p hp w hw
      rw [(checked_cases k.maps scratch v (hc.idle p hp v hv)).1]
      exact hc.entries_eq_none.mp he p hp v hv
    | some e =>
      obtain ⟨p, hp, v, hv, rfl, rfl⟩ := hc.entries_eq_some.mp he
      obtain ⟨hpid, hentry, ht⟩ := checked_cases k.maps scratch v (hc.idle p hp v hv)
      have hpad := hall p hp (checked k.maps scratch v)
        ((hat p).trans (by rw [if_pos hp, hv, Option.map_some]))
      rw [hpid] at hpad
      rcases hpad with ⟨hnone, hm⟩ | ⟨data, d, d', htmp, htmp₂, hd, hd', hrun⟩
      · refine .inl ⟨hm, fun en data hen husage hne hscr => ?_⟩
        cases hen
        rcases ht with ⟨-, hdead⟩ | ⟨hsome, -, hpad₂⟩
        · exact hne (hdead husage)
        · rcases hnone with h0 | h0
          · rw [hsome] at h0
            cases h0
          · rw [hpad₂, hscr] at h0
            cases h0
      · rcases ht with ⟨hnone, -⟩ | ⟨-, husage, hpad₂⟩
        · rw [hnone] at htmp
          cases htmp
        · rw [hpid] at hrun
          refine .inr ⟨v.entry, d, d', data, rfl, husage, hd, hd', hpad₂.symm.trans htmp₂, ?_⟩
          rw [← hentry]
          exact hrun
  · rw [detachUsers, if_neg hu] at h₂
    cases h₂
    refine ⟨infos, k.maps, rfl, hpath, hout, fun pid => .inl ⟨rfl, ?_⟩⟩
    intro e data he husage hlive
    obtain ⟨p, hp, v, hv, rfl, rfl⟩ := hc.entries_eq_some.mp he
    exact absurd (hzero (by omega) p hp v hv husage) hlive

/-- A deletion by the owner: the region is gone, its entries are freed and the processes that used
it are detached. -/
theorem Listed.delete_eq (h : Listed k chain) (ht : k.table id = some sh)
    {scratch : ℤ → Option ℕ} {tables : ℤ → ℕ → Option ℕ} {rc : ℤ}
    (he : shmemDelete k scratch tables sh.pid id = .ok (k', rc)) :
    ∃ infos maps, rc = 0 ∧ k' = { k.setRegion id none with
        infos := infos
        maps := maps
        freed := if sh.internal ≠ 0 then (sh.physicalPages, sh.physicalLocation) :: k.freed
          else k.freed } ∧
      (∀ i ≠ id, ∀ q ∈ chain i, infos q = k.infos q) ∧
      ∀ pid, Detached (scratch pid) (tables pid) sh.physicalPages
        ((registry k chain).entry id pid) (k.maps pid) (maps pid) := by
  have hc := h.ordered id
  rw [shmemDelete, ht] at he
  dsimp only at he
  rw [if_neg (not_not.mpr rfl)] at he
  obtain ⟨⟨k₁, usage⟩, h₁, he⟩ := bind_eq_ok.mp he
  obtain ⟨k₂, h₂, he⟩ := bind_eq_ok.mp he
  obtain ⟨infos, maps, rfl, hpath, hout, hdet⟩ :=
    detach_eq (k := k.setRegion id none) hc (h.head id sh ht) h₁ h₂
  obtain ⟨infos', hrun, hat⟩ := discardFrom_eq hc.length_le hc.nodup hpath
    (k := { k.setRegion id none with infos := infos, maps := maps })
  rw [h.head id sh ht, hrun, ok_bind] at he
  refine ⟨infos', maps, ?_, ?_, fun i hi q hq => ?_, hdet⟩
  · split_ifs at he <;> cases he <;> rfl
  · split_ifs at he ⊢ <;> cases he <;> rfl
  · have hq' : q ∉ chain id := fun hq' => hi (h.apart i id q hq hq')
    rw [hat, if_neg hq']
    exact hout q hq'

theorem Listed.delete (h : Listed k chain) {scratch : ℤ → Option ℕ} {tables : ℤ → ℕ → Option ℕ}
    {owner rc : ℤ} (he : shmemDelete k scratch tables owner id = .ok (k', rc)) :
    Simulates k chain (.delete scratch tables owner id) k' ⟨rc, none⟩ := by
  cases ht : k.table id with
  | none =>
    rw [shmemDelete, ht] at he
    cases he
    exact h.refuse _
  | some sh =>
    by_cases howner : owner ≠ sh.pid
    · rw [shmemDelete, ht] at he
      dsimp only at he
      rw [if_pos howner] at he
      cases he
      exact h.refuse _
    · have howner : owner = sh.pid := not_not.mp howner
      subst howner
      have hregion : (registry k chain).region id = some sh.bare := by
        rw [region_registry, ht, Option.map_some]
      obtain ⟨infos, maps, rfl, rfl, hother, hdet⟩ := h.delete_eq ht he
      refine ⟨Function.update chain id [], ?_, ?_⟩
      · refine ⟨fun i s hi => ?_, fun i hi => ?_, fun i => ?_, fun i j q hq hq' => ?_, h.nextId⟩
        · have hid : i ≠ id := fun he => by simp [Kernel.setRegion, he] at hi
          rw [Function.update_of_ne hid]
          exact h.head i s (by simpa [Kernel.setRegion, hid] using hi)
        · by_cases hid : i = id
          · rw [hid, Function.update_self]
          · rw [Function.update_of_ne hid]
            exact h.gone i (by simpa [Kernel.setRegion, hid] using hi)
        · by_cases hid : i = id
          · rw [hid, Function.update_self]
            exact chain_nil _
          · rw [Function.update_of_ne hid]
            exact ((h.ordered i).congr (hother i hid)).1
        · have hi : i ≠ id := fun he => by simp [he] at hq
          have hj : j ≠ id := fun he => by simp [he] at hq'
          rw [Function.update_of_ne hi] at hq
          rw [Function.update_of_ne hj] at hq'
          exact h.apart i j q hq hq'
      · have hr : registry { k.setRegion id none with
              infos := infos
              maps := maps
              freed := if sh.internal ≠ 0 then (sh.physicalPages, sh.physicalLocation) :: k.freed
                else k.freed } (Function.update chain id []) =
            { (registry k chain).setRegion id none with maps := maps } := by
          simp only [registry, Registry.setRegion, Kernel.setRegion, Registry.mk.injEq, and_true]
          constructor
          · funext i
            by_cases hid : i = id
            · simp [hid]
            · simp [hid]
          · funext i
            by_cases hid : i = id
            · rw [hid, Function.update_self, Function.update_self]
              rfl
            · rw [Function.update_of_ne hid, Function.update_of_ne hid]
              exact ((h.ordered i).congr (hother i hid)).2
        rw [hr]
        exact @Step.delete _ scratch tables id sh.bare maps hregion hdet

/-- Every call, from lists in order, is a step on the registry and leaves the lists in order. -/
theorem Listed.exec (h : Listed k chain) {c : ShmemCall} {a : Answer} (hc : c.Permitted k)
    (he : c.exec k = .ok (k', a)) : Simulates k chain c k' a := by
  cases c with
  | create memory kmalloc insert litter name pid pages flags =>
    obtain ⟨⟨k₁, rc⟩, hk₁, he⟩ := bind_eq_ok.mp he
    cases he
    cases memory with
    | none =>
      cases hk₁
      exact h.refuse _
    | some location =>
      obtain ⟨⟨k₂, id⟩, hk₂, hk₁⟩ := bind_eq_ok.mp hk₁
      cases hk₁
      obtain ⟨rfl, rfl⟩ | ⟨h₀, hpages, hn, hl, hr⟩ := h.createDirect hk₂
      · exact ⟨chain, h.congr rfl rfl h.nextId, .refuse _⟩
      · rw [if_neg (not_lt.mpr h₀)]
        exact ⟨chain, hl, hr ▸ .create hpages h₀ hn⟩
  | createDirect kmalloc insert litter name pid pages flags location internal =>
    obtain ⟨⟨k₁, rc⟩, hk₁, he⟩ := bind_eq_ok.mp he
    cases he
    obtain ⟨rfl, rfl⟩ | ⟨h₀, hpages, hn, hl, hr⟩ := h.createDirect hk₁
    · exact h.refuse _
    · exact ⟨chain, hl, hr ▸ .createDirect hpages h₀ hn⟩
  | grant kmalloc owner id pid flags =>
    obtain ⟨⟨k₁, rc⟩, hk₁, he⟩ := bind_eq_ok.mp he
    cases he
    exact h.grant hc.2 hk₁
  | revoke data tables owner pid id =>
    obtain ⟨⟨k₁, rc⟩, hk₁, he⟩ := bind_eq_ok.mp he
    cases he
    exact h.revoke hk₁
  | request kmalloc memory tables pid id =>
    obtain ⟨⟨k₁, access⟩, hk₁, he⟩ := bind_eq_ok.mp he
    cases he
    exact h.request hc.2 hk₁
  | release memory pid id =>
    obtain ⟨⟨k₁, rc⟩, hk₁, he⟩ := bind_eq_ok.mp he
    cases he
    exact h.release hk₁
  | delete scratch tables owner id =>
    obtain ⟨⟨k₁, rc⟩, hk₁, he⟩ := bind_eq_ok.mp he
    cases he
    exact h.delete hk₁
  | exit pid =>
    cases he
    exact ⟨chain, h.congr rfl rfl h.nextId, .exit⟩

end Racoon.Sharing
