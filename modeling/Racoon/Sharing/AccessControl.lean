import Racoon.Sharing.Usage

/-!
# Who may use a region

Membership in the list of a region is the only record of the right to use it.
`History` keeps beside the kernel who created each region, with which flags, and
whom the owner has let in and not thrown out again. In every run a request is
answered only in accordance with it, and only the owner governs a region.
-/

namespace Racoon.Sharing
open Lib Paging Strings

structure History where
  owner : ℤ → ℤ
  flags : ℤ → ℕ
  granted : ℤ → ℤ → Bool

namespace History

/-- A region begins, with nobody let in. -/
def begin (h : History) (id owner : ℤ) (flags : ℕ) : History where
  owner := Function.update h.owner id owner
  flags := Function.update h.flags id flags
  granted := Function.update h.granted id fun _ => false

def setGranted (h : History) (id pid : ℤ) (b : Bool) : History :=
  { h with granted := Function.update h.granted id (Function.update (h.granted id) pid b) }

def record (h : History) (c : ShmemCall) (a : Answer) : History :=
  match c with
  | .create _ _ _ _ _ pid _ flags => if 0 ≤ a.rc then h.begin a.rc pid flags else h
  | .createDirect _ _ _ _ pid _ flags _ _ => if 0 ≤ a.rc then h.begin a.rc pid flags else h
  | .grant _ _ id pid _ => if a.rc = 0 then h.setGranted id pid true else h
  | .revoke _ _ _ pid id => if a.rc = 0 then h.setGranted id pid false else h
  | _ => h

theorem begin_of_ne (h : History) {id i : ℤ} (owner : ℤ) (flags : ℕ) (hi : i ≠ id) :
    (h.begin id owner flags).owner i = h.owner i ∧
      (h.begin id owner flags).flags i = h.flags i ∧
      (h.begin id owner flags).granted i = h.granted i := by
  simp [begin, hi]

theorem record_refuse (h : History) (c : ShmemCall) : h.record c ⟨-1, none⟩ = h := by
  cases c <;> simp [record]

theorem granted_setGranted (h : History) (id pid : ℤ) (b : Bool) (i x : ℤ) :
    (h.setGranted id pid b).granted i x = if i = id ∧ x = pid then b else h.granted i x := by
  simp only [setGranted, Function.update_apply]
  by_cases hi : i = id
  · subst hi
    simp [Function.update_apply]
  · simp [hi]

end History

def CreatedPromiscuous (h : History) (id : ℤ) : Prop :=
  h.flags id &&& SHMEM_PROMISCUOUS = SHMEM_PROMISCUOUS

/-- The entries are those that the history allows. -/
structure Lawful (r : Registry) (h : History) : Prop where
  owner : ∀ id sh, r.region id = some sh → sh.pid = h.owner id
  flags : ∀ id sh, r.region id = some sh → sh.flags = h.flags id &&& SHMEM_MASK
  entry : ∀ id sh pid e, r.region id = some sh → r.entry id pid = some e →
    CreatedPromiscuous h id ∨ h.granted id pid = true

variable {r r' : Registry} {h : History}

theorem Lawful.promiscuous (hl : Lawful r h) {id : ℤ} {sh : Shmem} (hr : r.region id = some sh)
    (hp : Promiscuous sh) : CreatedPromiscuous h id := by
  rw [Promiscuous, hl.flags id sh hr, Nat.and_assoc] at hp
  exact hp

/-- Who may act on an entry may use the region. -/
theorem Lawful.entitled (hl : Lawful r h) {id pid : ℤ} {sh : Shmem} {e : Entry}
    (hr : r.region id = some sh) (he : Entitled r id pid sh e) :
    CreatedPromiscuous h id ∨ h.granted id pid = true := by
  rcases he with he | ⟨-, hp, -⟩
  · exact hl.entry id sh pid e hr he
  · exact .inl (hl.promiscuous hr hp)

/-- Nothing is asked of a history about a region that there is not. -/
theorem Lawful.begin (hl : Lawful r h) {id : ℤ} (owner : ℤ) (flags : ℕ)
    (hr : r.region id = none) : Lawful r (h.begin id owner flags) := by
  have hne : ∀ i sh, r.region i = some sh → i ≠ id := fun i sh hi he => by
    rw [he, hr] at hi
    cases hi
  constructor
  · intro i sh hi
    rw [(h.begin_of_ne owner flags (hne i sh hi)).1]
    exact hl.owner i sh hi
  · intro i sh hi
    rw [(h.begin_of_ne owner flags (hne i sh hi)).2.1]
    exact hl.flags i sh hi
  · intro i sh pid e hi he
    obtain ⟨-, hf, hg⟩ := h.begin_of_ne owner flags (hne i sh hi)
    rw [CreatedPromiscuous, hf, hg]
    exact hl.entry i sh pid e hi he

theorem Lawful.setRegion (hl : Lawful r h) {id : ℤ} {sh : Shmem} (ho : sh.pid = h.owner id)
    (hf : sh.flags = h.flags id &&& SHMEM_MASK) : Lawful (r.setRegion id (some sh)) h := by
  constructor
  · intro i s hi
    rw [Registry.region_setRegion] at hi
    split_ifs at hi with hid
    · cases hi
      rw [hid, ho]
    · exact hl.owner i s hi
  · intro i s hi
    rw [Registry.region_setRegion] at hi
    split_ifs at hi with hid
    · cases hi
      rw [hid, hf]
    · exact hl.flags i s hi
  · intro i s pid e hi he
    rw [Registry.region_setRegion] at hi
    rw [Registry.entry_setRegion] at he
    by_cases hid : i = id
    · rw [if_pos hid] at he
      cases he
    · rw [if_neg hid] at hi he
      exact hl.entry i s pid e hi he

theorem Lawful.removeRegion (hl : Lawful r h) {id : ℤ} {maps : ℤ → Option PageDirectory} :
    Lawful { r.setRegion id none with maps := maps } h := by
  have hother : ∀ i s, (r.setRegion id none).region i = some s → i ≠ id ∧ r.region i = some s := by
    intro i s hi
    rw [Registry.region_setRegion] at hi
    split_ifs at hi with hid
    exact ⟨hid, hi⟩
  refine ⟨fun i s hi => hl.owner i s (hother i s hi).2,
    fun i s hi => hl.flags i s (hother i s hi).2, fun i s pid e hi he => ?_⟩
  obtain ⟨hid, hi⟩ := hother i s hi
  rw [Registry.entry_setRegion, if_neg hid] at he
  exact hl.entry i s pid e hi he

theorem Lawful.newRegion (hl : Lawful r h) {insert : Bool} {litter name : CString}
    {pid pages id : ℤ} {flags location internal : ℕ} (hr : r.region id = none) :
    Lawful (if insert then
        r.setRegion id (some (newRegion litter name pid pages flags location internal id)) else r)
      (h.begin id pid flags) := by
  cases insert with
  | false => exact hl.begin pid flags hr
  | true =>
    apply (hl.begin pid flags hr).setRegion
    · simp [History.begin, Sharing.newRegion]
    · simp [History.begin, Sharing.newRegion]

/-- An entry that the history allows, or none. -/
theorem Lawful.setEntry (hl : Lawful r h) {id pid : ℤ} {o : Option Entry}
    (ho : o ≠ none → CreatedPromiscuous h id ∨ h.granted id pid = true) :
    Lawful (r.setEntry id pid o) h := by
  refine ⟨hl.owner, hl.flags, fun i sh x e hi he => ?_⟩
  rw [Registry.entry_setEntry] at he
  split_ifs at he with hix
  · rw [hix.1, hix.2]
    exact ho (by rw [he]; simp)
  · exact hl.entry i sh x e hi he

theorem Lawful.setMap (hl : Lawful r h) (pid : ℤ) (m : Option PageDirectory) :
    Lawful (r.setMap pid m) h :=
  ⟨hl.owner, hl.flags, hl.entry⟩

/-- The history may change for a process that has no entry. -/
theorem Lawful.setGranted (hl : Lawful r h) {id pid : ℤ} {b : Bool}
    (hn : b = false → r.entry id pid = none) : Lawful r (h.setGranted id pid b) := by
  refine ⟨hl.owner, hl.flags, fun i sh x e hi he => ?_⟩
  rw [History.granted_setGranted]
  split_ifs with hix
  · cases b with
    | true => exact .inr rfl
    | false =>
      rw [hix.1, hix.2, hn rfl] at he
      cases he
  · exact hl.entry i sh x e hi he

theorem Lawful.step (hl : Lawful r h) {c : ShmemCall} {a : Answer} (hs : Step r c r' a) :
    Lawful r' (h.record c a) := by
  cases hs with
  | refuse => rwa [History.record_refuse]
  | create hpages hid hr =>
    rw [History.record, if_pos hid]
    exact hl.newRegion hr
  | createDirect hpages hid hr =>
    rw [History.record, if_pos hid]
    exact hl.newRegion hr
  | @grant kmalloc id pid flags sh hr hn =>
    apply (hl.setGranted (b := true) (by simp)).setEntry
    intro _
    rw [History.granted_setGranted, if_pos ⟨rfl, rfl⟩]
    exact .inr rfl
  | revokeIdle hr he hu =>
    apply (hl.setEntry (o := none) (by simp)).setGranted
    intro _
    rw [Registry.entry_setEntry, if_pos ⟨rfl, rfl⟩]
  | revoke hr he hu hm hd =>
    apply ((hl.setMap _ _).setEntry (o := none) (by simp)).setGranted
    intro _
    rw [Registry.entry_setEntry, if_pos ⟨rfl, rfl⟩]
  | request hr he hserved =>
    apply (hl.setMap _ _).setEntry
    exact fun _ => hl.entitled hr he
  | release hr he hu =>
    apply hl.setEntry
    exact fun _ => hl.entry _ _ _ _ hr he
  | unmap hr he hu hm hd =>
    apply (hl.setMap _ _).setEntry
    exact fun _ => hl.entry _ _ _ _ hr he
  | delete hr hd => exact hl.removeRegion
  | exit => exact hl.setMap _ _

def accessSystem : System (Kernel × History) ShmemCall Fault where
  Init s := (∀ id, s.1.table id = none) ∧ s.1.shmemId = 0
  Guard s c := c.Permitted s.1
  step s c := do
    let (k, a) ← c.exec s.1
    .ok (k, s.2.record c a)

theorem lawful_run {s t : Kernel × History} {cs : List ShmemCall} (h₀ : accessSystem.Init s)
    (hr : accessSystem.Steps s cs t) :
    ∃ chain, Listed t.1 chain ∧ Lawful (registry t.1 chain) t.2 := by
  apply hr.invariant (P := fun s => ∃ chain, Listed s.1 chain ∧ Lawful (registry s.1 chain) s.2)
  · rintro s c t ⟨chain, hl, hlaw⟩ hg ht
    obtain ⟨⟨k, a⟩, hk, ht⟩ := bind_eq_ok.mp ht
    cases ht
    obtain ⟨chain', hl', hs⟩ := hl.exec hg hk
    exact ⟨chain', hl', hlaw.step hs⟩
  · refine ⟨_, listed_init h₀.1 h₀.2, ?_⟩
    have hn : ∀ id, (registry s.1 fun _ => []).region id = none := fun id => by
      rw [region_registry, h₀.1, Option.map_none]
    constructor
    · intro id sh h
      rw [hn] at h
      cases h
    · intro id sh h
      rw [hn] at h
      cases h
    · intro id sh pid e h
      rw [hn] at h
      cases h

/-- The calls that govern a region: who makes one, for which region. -/
def ShmemCall.governor : ShmemCall → Option (ℤ × ℤ)
  | grant _ owner id _ _ => some (owner, id)
  | revoke _ _ owner _ id => some (owner, id)
  | delete _ _ owner id => some (owner, id)
  | _ => none

theorem Lawful.governor (hl : Lawful r h) {c : ShmemCall} {a : Answer} {owner id : ℤ}
    (hs : Step r c r' a) (ha : a.rc = 0) (hc : c.governor = some (owner, id)) :
    r.region id ≠ none ∧ owner = h.owner id := by
  cases hs with
  | refuse => cases ha
  | create => cases hc
  | createDirect => cases hc
  | request => cases hc
  | release => cases hc
  | unmap => cases hc
  | exit => cases hc
  | grant hr =>
    cases hc
    exact ⟨by simp [hr], hl.owner _ _ hr⟩
  | revokeIdle hr =>
    cases hc
    exact ⟨by simp [hr], hl.owner _ _ hr⟩
  | revoke hr =>
    cases hc
    exact ⟨by simp [hr], hl.owner _ _ hr⟩
  | delete hr =>
    cases hc
    exact ⟨by simp [hr], hl.owner _ _ hr⟩

theorem Lawful.request (hl : Lawful r h) {kmalloc : Option ℕ} {memory : ℕ → ℕ}
    {tables : ℕ → Option ℕ} {pid id : ℤ} {a : Answer}
    (hs : Step r (.request kmalloc memory tables pid id) r' a) (ha : a.rc = 0) :
    r.region id ≠ none ∧ (CreatedPromiscuous h id ∨ h.granted id pid = true) := by
  cases hs with
  | refuse => cases ha
  | request hr he => exact ⟨by simp [hr], hl.entitled hr he⟩

/-- In every run the lists are in order, a request is answered with 0 only for those who may use
the region, and of the calls that govern a region only those of its creator are. -/
theorem access_control {s t : Kernel × History} {cs : List ShmemCall} (h₀ : accessSystem.Init s)
    (hr : accessSystem.Steps s cs t) :
    (∃ chain, Listed t.1 chain) ∧
    ∀ (c : ShmemCall) k a, c.Permitted t.1 → c.exec t.1 = .ok (k, a) → a.rc = 0 →
      (∀ kmalloc memory tables pid id, c = .request kmalloc memory tables pid id →
        t.1.table id ≠ none ∧ (CreatedPromiscuous t.2 id ∨ t.2.granted id pid = true)) ∧
      ∀ owner id, c.governor = some (owner, id) →
        t.1.table id ≠ none ∧ owner = t.2.owner id := by
  obtain ⟨chain, hl, hlaw⟩ := lawful_run h₀ hr
  refine ⟨⟨chain, hl⟩, fun c k a hc he ha => ?_⟩
  obtain ⟨chain', -, hs⟩ := hl.exec hc he
  have htable : ∀ id, (registry t.1 chain).region id ≠ none → t.1.table id ≠ none := by
    intro id hn ht
    rw [region_registry, ht, Option.map_none] at hn
    exact hn rfl
  constructor
  · rintro kmalloc memory tables pid id rfl
    obtain ⟨hn, hg⟩ := hlaw.request hs ha
    exact ⟨htable id hn, hg⟩
  · intro owner id hc
    obtain ⟨hn, ho⟩ := hlaw.governor hs ha hc
    exact ⟨htable id hn, ho⟩

def noHistory : History := ⟨fun _ => 0, fun _ => 0, fun _ _ => false⟩

theorem access_control_example : ∃ (t : Kernel × History) (k : Kernel) (a : Answer),
    (requestBy 2).exec t.1 = .ok (k, a) ∧ a.rc = 0 ∧
    (CreatedPromiscuous t.2 0 ∨ t.2.granted 0 2 = true) := by
  have hr : accessSystem.Steps (twoProcesses, noHistory) [createPage, grantTo 2] _ :=
    .cons ⟨⟨by decide, by decide⟩, fun p hp => by cases hp⟩ rfl
      (.one ⟨trivial, fun p hp => by cases hp; exact ⟨rfl, by decide⟩⟩ rfl)
  obtain ⟨-, h⟩ := access_control ⟨fun _ => rfl, rfl⟩ hr
  exact ⟨_, _, _, rfl, rfl, ((h (requestBy 2) _ _ ⟨trivial, fun p hp => by cases hp⟩ rfl rfl).1
    _ _ _ _ _ rfl).2⟩

end Racoon.Sharing
