import Racoon.Sharing.Usage

/-!
# What a deleted region leaves mapped

`Through` keeps beside the kernel the region through which each page of each
process was last given out by a request. The frames of an internal region go
back to the pool with its deletion, whatever becomes of the processes that use
it. In runs of careful calls nothing leads to them any more exactly when every
living user gets a scratch pad.
-/

namespace Racoon.Sharing
open Lib Paging Strings

/-- For each process and page the region that the page was mapped for. -/
abbrev Through := ℤ → ℕ → Option ℤ

namespace Through

def gain (w : Through) (pid id : ℤ) (a : Access) : Through := fun x p =>
  if x = pid ∧ a.location / PAGE_SIZE ≤ p ∧ p < a.location / PAGE_SIZE + a.pages.toNat then some id
  else w x p

/-- The id is that of another region now. -/
def forget (w : Through) (id : ℤ) : Through := fun x p => if w x p = some id then none else w x p

def record (w : Through) (c : ShmemCall) (a : Answer) : Through :=
  match c with
  | .create .. => if 0 ≤ a.rc then w.forget a.rc else w
  | .createDirect .. => if 0 ≤ a.rc then w.forget a.rc else w
  | .request _ _ _ pid id =>
    match a.access with
    | some access => w.gain pid id access
    | none => w
  | _ => w

theorem record_refuse (w : Through) (c : ShmemCall) : w.record c ⟨-1, none⟩ = w := by
  cases c <;> simp [record]

theorem forget_eq_some {w : Through} {id x i : ℤ} {p : ℕ} :
    w.forget id x p = some i ↔ w x p = some i ∧ i ≠ id := by
  rw [forget]
  split_ifs with h
  · simp only [false_iff, not_and, not_not]
    intro hi
    rw [h] at hi
    exact (Option.some.inj hi).symm
  · refine ⟨fun hi => ⟨hi, ?_⟩, fun hi => hi.1⟩
    rintro rfl
    exact h hi

end Through

/-- The frames of an area of physical memory. -/
def Frames (location : ℕ) (pages : ℤ) (f : ℕ) : Prop :=
  ∃ i < pages.toNat, f = frameOf (add32 location (i * PAGE_SIZE))

/-- The address is translated to one of the frames of the region. -/
def Reaches (d : PageDirectory) (sh : Shmem) (a : ℕ) : Prop :=
  ∃ f, translate d a = some f ∧ Frames sh.physicalLocation sh.physicalPages (frameOf f)

/-- A word by which a page would lead to one of the frames of the region. -/
def LeadsInto (word : ℕ) (sh : Shmem) : Prop :=
  present word = true ∧ Frames sh.physicalLocation sh.physicalPages (frameOf word)

/-- `memory_alloc` returns no frames of a region that it has allocated. -/
def Unused (table : ℤ → Option Shmem) (data : ℕ) (pages : ℤ) : Prop :=
  ∀ i s, table i = some s → s.internal ≠ 0 → ∀ f, Frames data pages f →
    ¬ Frames s.physicalLocation s.physicalPages f

def ShmemCall.Fresh (table : ℤ → Option Shmem) : ShmemCall → Prop
  | revoke data _ _ _ id => ∀ p sh, data = some p → table id = some sh →
      Unused table p sh.physicalPages
  | delete scratch _ _ id => ∀ pid p sh, scratch pid = some p → table id = some sh →
      Unused table p sh.physicalPages
  | _ => True

theorem fresh_registry {k : Kernel} {chain : ℤ → List ℕ} {c : ShmemCall} (h : c.Fresh k.table) :
    c.Fresh (registry k chain).region := by
  have hregion : ∀ id sh, (registry k chain).region id = some sh → ∃ s, k.table id = some s ∧
      s.bare = sh := fun id sh hr => by
    rwa [region_registry, Option.map_eq_some_iff] at hr
  have hunused : ∀ p n, Unused k.table p n → Unused (registry k chain).region p n := by
    intro p n hu i s hs
    obtain ⟨s', hs', rfl⟩ := hregion i s hs
    exact hu i s' hs'
  cases c with
  | revoke data tables owner pid id =>
    intro p sh hp hr
    obtain ⟨s, hs, rfl⟩ := hregion id sh hr
    exact hunused _ _ (h p s hp hs)
  | delete scratch tables owner id =>
    intro pid p sh hp hr
    obtain ⟨s, hs, rfl⟩ := hregion id sh hr
    exact hunused _ _ (h pid p s hp hs)
  | _ => trivial

/-- The page is mapped for an entry in use. -/
def Used (o : Option Entry) (p : ℕ) : Prop := ∃ e, o = some e ∧ 0 < e.usage ∧ e.Covers p

theorem not_used_none (p : ℕ) : ¬ Used none p := by
  rintro ⟨e, he, -⟩
  cases he

theorem not_used_of_usage {e : Entry} (hu : e.usage = 0) (p : ℕ) : ¬ Used (some e) p := by
  rintro ⟨e', he, hpos, -⟩
  cases he
  omega

theorem used_some {e : Entry} {p : ℕ} (hu : 0 < e.usage) : Used (some e) p ↔ e.Covers p := by
  refine ⟨?_, fun hc => ⟨e, rfl, hu, hc⟩⟩
  rintro ⟨e', he, -, hc⟩
  cases he
  exact hc

/-- What leads to a frame of an internal region is a page of an entry in use. -/
structure Tracked (r : Registry) (w : Through) : Prop where
  user : ∀ pid p id, w pid p = some id → 0x80000 ≤ p ∧ p < 0xFE000
  used : ∀ id pid p, Used (r.entry id pid) p → w pid p = some id
  stale : ∀ id sh pid d p, r.region id = some sh → sh.internal ≠ 0 → r.maps pid = some d →
    w pid p = some id → ¬ Used (r.entry id pid) p → ¬ LeadsInto (d.word p) sh

variable {r r' : Registry} {w : Through} {id pid : ℤ} {sh : Shmem} {e : Entry}

/-- A scratch pad does not lead to a region. -/
theorem not_leadsInto {data i flags : ℕ} {n : ℤ} (hi : i < n.toNat)
    (hfresh : Unused r.region data n) (hr : r.region id = some sh) (hint : sh.internal ≠ 0) :
    ¬ LeadsInto (entryWord (add32 data (i * PAGE_SIZE)) (convertPagingTypes flags)) sh := by
  rintro ⟨-, hf⟩
  rw [frameOf_entryWord _ (convertPagingTypes_lt flags)] at hf
  exact hfresh id sh hr hint _ ⟨i, hi, rfl⟩ hf

namespace Tracked

theorem setEntry (h : Tracked r w) {o : Option Entry}
    (ho : ∀ p, Used o p ↔ Used (r.entry id pid) p) : Tracked (r.setEntry id pid o) w := by
  have hsame : ∀ i x p, Used ((r.setEntry id pid o).entry i x) p ↔ Used (r.entry i x) p := by
    intro i x p
    rw [Registry.entry_setEntry]
    split_ifs with hix
    · rw [hix.1, hix.2]
      exact ho p
    · rfl
  refine ⟨h.user, fun i x p hu => h.used i x p ((hsame i x p).mp hu), ?_⟩
  intro i s x d p hr hi hd hw hu
  exact h.stale i s x d p hr hi hd hw fun hu' => hu ((hsame i x p).mpr hu')

/-- An entry that was not in use and is not in use. -/
theorem setIdle (h : Tracked r w) {o : Option Entry} (hold : ∀ p, ¬ Used (r.entry id pid) p)
    (hnew : ∀ p, ¬ Used o p) : Tracked (r.setEntry id pid o) w :=
  h.setEntry fun p => iff_of_false (hnew p) (hold p)

theorem forget (h : Tracked r w) (hm : Mapped r) (hr : r.region id = none) :
    Tracked r (w.forget id) := by
  constructor
  · intro x p i hw
    exact h.user x p i (Through.forget_eq_some.mp hw).1
  · intro i x p hu
    refine Through.forget_eq_some.mpr ⟨h.used i x p hu, ?_⟩
    rintro rfl
    rw [hm.absent i hr] at hu
    exact not_used_none p hu
  · intro i s x d p hs hi hd hw
    exact h.stale i s x d p hs hi hd (Through.forget_eq_some.mp hw).1

/-- A new region, through which nothing is mapped yet. -/
theorem setRegion (h : Tracked r w) (hw : ∀ x p, w x p ≠ some id) (o : Option Shmem) :
    Tracked (r.setRegion id o) w := by
  refine ⟨h.user, fun i x p hu => ?_, fun i s x d p hs hi hd hwp hu => ?_⟩
  · rw [Registry.entry_setRegion] at hu
    by_cases hid : i = id
    · rw [if_pos hid] at hu
      exact absurd hu (not_used_none p)
    · rw [if_neg hid] at hu
      exact h.used i x p hu
  · have hid : i ≠ id := fun hid => hw x p (hid ▸ hwp)
    rw [Registry.region_setRegion, if_neg hid] at hs
    rw [Registry.entry_setRegion, if_neg hid] at hu
    exact h.stale i s x d p hs hi hd hwp hu

theorem newRegion (h : Tracked r w) (hm : Mapped r) (hr : r.region id = none) (insert : Bool)
    (s : Shmem) : Tracked (if insert then r.setRegion id (some s) else r) (w.forget id) := by
  cases insert with
  | false => exact h.forget hm hr
  | true => exact (h.forget hm hr).setRegion (fun x p hw => (Through.forget_eq_some.mp hw).2 rfl) _

/-- What takes the place of the region where an entry covers it does not lead to the region. -/
theorem remap (h : Tracked r w) {d d' : PageDirectory} (hd : r.maps pid = some d)
    (hw : ∀ p, ¬ Used (r.entry id pid) p → d'.word p = d.word p)
    (hdead : ∀ s p, r.region id = some s → s.internal ≠ 0 → Used (r.entry id pid) p →
      ¬ LeadsInto (d'.word p) s)
    {o : Option Entry} (ho : ∀ p, ¬ Used o p) :
    Tracked ((r.setMap pid (some d')).setEntry id pid o) w := by
  refine ⟨h.user, fun i x p hu => ?_, fun i s x d₁ p hs hi hd₁ hwp hu => ?_⟩
  · rw [Registry.entry_setEntry] at hu
    split_ifs at hu with hix
    · exact absurd hu (ho p)
    · exact h.used i x p hu
  · have hd₁ : (r.setMap pid (some d')).maps x = some d₁ := hd₁
    have hs : r.region i = some s := hs
    rw [Registry.maps_setMap] at hd₁
    rw [Registry.entry_setEntry] at hu
    by_cases hx : x = pid
    · rw [if_pos hx] at hd₁
      cases hd₁
      subst hx
      by_cases hi' : i = id
      · subst hi'
        by_cases hold : Used (r.entry i x) p
        · exact hdead s p hs hi hold
        · rw [hw p hold]
          exact h.stale i s x d p hs hi hd hwp hold
      · have hold : ¬ Used (r.entry id x) p := fun hold => by
          have := h.used id x p hold
          rw [hwp] at this
          exact hi' (Option.some.inj this)
        rw [if_neg fun hix => hi' hix.1] at hu
        rw [hw p hold]
        exact h.stale i s x d p hs hi hd hwp hu
    · rw [if_neg hx] at hd₁
      rw [if_neg fun hix => hx hix.2] at hu
      exact h.stale i s x d₁ p hs hi hd₁ hwp hu

/-- The deletion of another region changes only what was mapped for that. -/
theorem delete (h : Tracked r w) (hm : Mapped r) {scratch : ℤ → Option ℕ}
    {tables : ℤ → ℕ → Option ℕ} (ht : ∀ pid p, scratch pid = some p → p < 2 ^ 32)
    (hr : r.region id = some sh) {maps : ℤ → Option PageDirectory}
    (hdet : ∀ pid, Detached (scratch pid) (tables pid) sh.physicalPages (r.entry id pid)
      (r.maps pid) (maps pid)) :
    Tracked { r.setRegion id none with maps := maps } w := by
  refine ⟨h.user, fun i x p hu => ?_, fun i s x d' p hs hi hd' hwp hu => ?_⟩
  · rw [Registry.entry_setRegion] at hu
    by_cases hid : i = id
    · rw [if_pos hid] at hu
      exact absurd hu (not_used_none p)
    · rw [if_neg hid] at hu
      exact h.used i x p hu
  · have hd' : maps x = some d' := hd'
    rw [Registry.region_setRegion] at hs
    rw [Registry.entry_setRegion] at hu
    split_ifs at hs with hid
    rw [if_neg hid] at hu
    have hdet := hdet x
    rw [hd'] at hdet
    obtain ⟨-, d, hd, rfl | ⟨e, he, hpos, hw⟩⟩ := hm.detached hr hdet (ht x)
    · exact h.stale i s x d' p hs hi hd hwp hu
    · rw [hw p]
      · exact h.stale i s x d p hs hi hd hwp hu
      · intro hc
        have hid' := h.used id x p ⟨e, he, hpos, hc⟩
        rw [hwp] at hid'
        exact hid (Option.some.inj hid')

/-- A request on an entry that is in use gives its pages out again. -/
theorem gain_used (h : Tracked r w) (he : r.entry id pid = some e) (hu : 0 < e.usage) :
    w.gain pid id ⟨e.location, e.pages, e.flags⟩ = w := by
  funext x p
  rw [Through.gain]
  split_ifs with hx
  · rw [hx.1]
    exact (h.used id pid p ⟨e, he, hu, hx.2⟩).symm
  · rfl

/-- Pages on which nothing is mapped are mapped for an entry that had none. -/
theorem gain (h : Tracked r w) {d d' : PageDirectory} {e' : Entry} (hd : r.maps pid = some d)
    (hold : ∀ p, ¬ Used (r.entry id pid) p) (hu' : 0 < e'.usage)
    (huser : ∀ p, e'.Covers p → 0x80000 ≤ p ∧ p < 0xFE000)
    (hw : ∀ p, ¬ e'.Covers p → d'.word p = d.word p)
    (hapart : ∀ i p, i ≠ id → Used (r.entry i pid) p → ¬ e'.Covers p) :
    Tracked ((r.setMap pid (some d')).setEntry id pid (some e'))
      (w.gain pid id ⟨e'.location, e'.pages, e'.flags⟩) := by
  have hgain : ∀ x p, w.gain pid id ⟨e'.location, e'.pages, e'.flags⟩ x p =
      if x = pid ∧ e'.Covers p then some id else w x p := fun x p => rfl
  refine ⟨fun x p i hwp => ?_, fun i x p hu => ?_, fun i s x d₁ p hs hi hd₁ hwp hu => ?_⟩
  · rw [hgain] at hwp
    split_ifs at hwp with hx
    · exact huser p hx.2
    · exact h.user x p i hwp
  · rw [Registry.entry_setEntry] at hu
    rw [hgain]
    split_ifs at hu with hix
    · rw [if_pos ⟨hix.2, (used_some hu').mp hu⟩, hix.1]
    · have hu : Used (r.entry i x) p := hu
      rw [if_neg]
      · exact h.used i x p hu
      · rintro ⟨rfl, hc⟩
        exact hapart i p (fun hi => hix ⟨hi, rfl⟩) hu hc
  · have hd₁ : (r.setMap pid (some d')).maps x = some d₁ := hd₁
    have hs : r.region i = some s := hs
    rw [Registry.maps_setMap] at hd₁
    rw [Registry.entry_setEntry] at hu
    rw [hgain] at hwp
    by_cases hx : x = pid
    · subst hx
      rw [if_pos rfl] at hd₁
      cases hd₁
      by_cases hc : e'.Covers p
      · rw [if_pos ⟨rfl, hc⟩] at hwp
        cases hwp
        rw [if_pos ⟨rfl, rfl⟩] at hu
        exact absurd ((used_some hu').mpr hc) hu
      · rw [if_neg fun h => hc h.2] at hwp
        rw [hw p hc]
        apply h.stale i s x d p hs hi hd hwp
        by_cases hi' : i = id
        · rw [hi']
          exact hold p
        · rwa [if_neg fun h => hi' h.1] at hu
    · rw [if_neg hx] at hd₁
      rw [if_neg fun h => hx h.1] at hwp
      rw [if_neg fun h => hx h.2] at hu
      exact h.stale i s x d₁ p hs hi hd₁ hwp hu

theorem request (h : Tracked r w) (hm : Mapped r) (hr : r.region id = some sh)
    (he : Entitled r id pid sh e) (hc : ∀ e, r.entry id pid = some e → e.usage ≠ 2 ^ 31 - 1)
    {kmalloc : Option ℕ} {memory : ℕ → ℕ} {tables : ℕ → Option ℕ} {e' : Entry}
    {m : Option PageDirectory} {access : Option Access} {rc : ℤ}
    (hs : Served memory tables sh.physicalLocation sh.physicalPages e (r.maps pid) e' m access) :
    Tracked ((r.setMap pid m).setEntry id pid (some e'))
      (w.record (.request kmalloc memory tables pid id) ⟨rc, access⟩) := by
  obtain ⟨hneg, hpos⟩ := hm.usage_of_pages hr he
  have hidle : e.pages < 0 → ∀ p, ¬ Used (r.entry id pid) p := by
    intro hp p hu
    rcases he with he | ⟨hn, -⟩
    · rw [he] at hu
      exact not_used_of_usage (hneg hp).1 p hu
    · rw [hn] at hu
      exact not_used_none p hu
  cases hs with
  | count hp =>
    obtain ⟨he, hu⟩ := hpos hp
    have hrange := hm.range id pid e he
    have hne := hc e he
    have hsame : r.setMap pid (r.maps pid) = r := by
      rw [Registry.setMap, Function.update_eq_self]
    rw [hsame, int32_of_le (by omega) (by omega)]
    show Tracked _ (w.gain pid id _)
    rw [h.gain_used he hu]
    apply h.setEntry
    intro p
    rw [he, used_some hu, used_some (by show 0 < e.usage + 1; omega)]
    rfl
  | @map d d' location hp hd hrun hloc =>
    obtain ⟨-, -, -, hnew⟩ := hm.provide hr hd hrun
    obtain ⟨hplaced, -, hw, hapart⟩ := hnew hloc (int32 (e.usage + 1))
    have hone : int32 (e.usage + 1) = 1 := by
      rw [(hneg hp).1]
      rfl
    rw [hone] at hplaced hw hapart ⊢
    apply h.gain hd (hidle hp) one_pos _ hw
    · rintro i p - ⟨e₁, he₁, hu₁, hc₁⟩ hc'
      exact hapart i e₁ he₁ hu₁ p hc' hc₁
    · intro p hcov
      obtain ⟨h₁, h₂⟩ := (hplaced.covers_iff p).mp hcov
      have := hplaced.user.floor
      have := hplaced.user.ceiling
      omega
  | noRoom hp hd hrun =>
    obtain ⟨-, -, hsame, -⟩ := hm.provide hr hd hrun
    rw [hsame rfl, ← hd]
    have hsame : r.setMap pid (r.maps pid) = r := by
      rw [Registry.setMap, Function.update_eq_self]
    rw [hsame]
    exact h.setIdle (hidle hp) (not_used_of_usage (hneg hp).1)

theorem step (h : Tracked r w) (hm : Mapped r) {c : ShmemCall} {a : Answer} (ht : c.Typed)
    (hc : CarefulOn r c) (hf : c.Fresh r.region) (hs : Step r c r' a) :
    Tracked r' (w.record c a) := by
  cases hs with
  | refuse => rwa [Through.record_refuse]
  | create hpages hid hr =>
    rw [Through.record, if_pos hid]
    exact h.newRegion hm hr _ _
  | createDirect hpages hid hr =>
    rw [Through.record, if_pos hid]
    exact h.newRegion hm hr _ _
  | grant hr hn =>
    apply h.setIdle
    · rw [hn]
      exact not_used_none
    · exact not_used_of_usage rfl
  | @revokeIdle data tables id pid sh e hr he hu =>
    apply h.setIdle _ not_used_none
    rw [he]
    exact not_used_of_usage (le_antisymm hu (hm.range id pid e he).1)
  | @revoke data tables id pid sh e d d' hr he hu hd hrun =>
    have hplaced := hm.placed id pid sh e hr he hu
    obtain ⟨hpos, hlt, -⟩ := hm.region id sh hr
    rw [hplaced.pages] at hrun
    obtain ⟨-, hw, hnew⟩ :=
      hplaced.directMap (hm.split pid d hd) ⟨hpos, hlt⟩ (ht data rfl) hrun
    apply h.remap hd _ _ not_used_none
    · intro p hp
      rw [he, used_some hu] at hp
      exact hw p hp
    · intro s p hs hi hp
      rw [he, used_some hu] at hp
      rw [hnew p hp]
      have hc := (hplaced.covers_iff p).mp hp
      exact not_leadsInto (by omega) (hf data sh rfl hr) hs hi
  | request hr he hserved => exact h.request hm hr he hc hserved
  | @release memory id pid sh e hr he hne =>
    have hrange := hm.range id pid e he
    have hu := hc e he
    rw [int32_of_le (by omega) (by omega)] at hne ⊢
    apply h.setEntry
    intro p
    have hnew : 0 < e.usage - 1 := by omega
    rw [he, used_some hnew, used_some (by omega)]
    rfl
  | @unmap memory id pid sh e d d' hr he hzero hd hrun =>
    have hrange := hm.range id pid e he
    have hu := hc e he
    rw [int32_of_le (by omega) (by omega)] at hzero
    have hplaced := hm.placed id pid sh e hr he (by omega)
    obtain ⟨-, hw, hnone⟩ := hplaced.release (hm.split pid d hd) hrun
    apply h.remap hd _ _ (not_used_of_usage rfl)
    · intro p hp
      rw [he, used_some (by omega)] at hp
      exact hw p hp
    · intro s p hs hi hp hl
      rw [he, used_some (by omega)] at hp
      rw [LeadsInto, hnone p hp] at hl
      cases hl.1
  | @delete scratch tables id sh maps hr hdet => exact h.delete hm ht hr hdet
  | @exit pid =>
    refine ⟨h.user, h.used, fun i s x d p hs hi hd hwp hu => ?_⟩
    have hd : (r.setMap pid none).maps x = some d := hd
    rw [Registry.maps_setMap] at hd
    split_ifs at hd
    exact h.stale i s x d p hs hi hd hwp hu

/-- After a deletion nothing leads to the region exactly when each living user has its pad. -/
theorem deleted_iff (h : Tracked r w) (hm : Mapped r) {scratch : ℤ → Option ℕ}
    {tables : ℤ → ℕ → Option ℕ} (ht : ∀ pid p, scratch pid = some p → p < 2 ^ 32)
    (hf : ∀ pid p, scratch pid = some p → Unused r.region p sh.physicalPages)
    (hr : r.region id = some sh) (hint : sh.internal ≠ 0) {maps : ℤ → Option PageDirectory}
    (hdet : ∀ pid, Detached (scratch pid) (tables pid) sh.physicalPages (r.entry id pid)
      (r.maps pid) (maps pid)) :
    (∀ pid e, r.entry id pid = some e → 0 < e.usage → r.maps pid ≠ none → scratch pid ≠ none) ↔
      ∀ pid d p, maps pid = some d → w pid p = some id → ¬ LeadsInto (d.word p) sh := by
  obtain ⟨hpos, hlt, -⟩ := hm.region id sh hr
  constructor
  · intro hall pid d' p hd' hwp
    obtain ⟨hsame, hno⟩ | ⟨e, d, d₁, data, he, hu, hd, hd₁, hscr, hrun⟩ := hdet pid
    · rw [hd'] at hsame
      apply h.stale id sh pid d' p hr hint hsame.symm hwp
      rintro ⟨e, he, hu, -⟩
      have hlive : r.maps pid ≠ none := by simp [← hsame]
      obtain ⟨data, hdata⟩ := Option.ne_none_iff_exists'.mp (hall pid e he hu hlive)
      exact hno e data he hu hlive hdata
    · rw [hd'] at hd₁
      cases hd₁
      have hplaced := hm.placed id pid sh e hr he hu
      obtain ⟨-, hw, hnew⟩ :=
        hplaced.directMap (hm.split pid d hd) ⟨hpos, hlt⟩ (ht pid data hscr) hrun
      by_cases hc : e.Covers p
      · rw [hnew p hc]
        have hc := (hplaced.covers_iff p).mp hc
        exact not_leadsInto (by omega) (hf pid data hscr) hr hint
      · rw [hw p hc]
        apply h.stale id sh pid d p hr hint hd hwp
        rwa [he, used_some hu]
  · intro hall pid e he hu hlive hscr
    obtain ⟨d, hd⟩ := Option.ne_none_iff_exists'.mp hlive
    obtain ⟨hsame, -⟩ | ⟨-, -, -, data, -, -, -, -, hscr', -⟩ := hdet pid
    · have hplaced := hm.placed id pid sh e hr he hu
      have hc : e.Covers (e.location / PAGE_SIZE) :=
        (hplaced.covers_iff _).mpr ⟨le_rfl, by omega⟩
      apply hall pid d _ (hsame.trans hd) (h.used id pid _ ⟨e, he, hu, hc⟩)
      have hw := hm.held id pid sh e d hr he hu hd 0 (by omega)
      rw [Nat.add_zero] at hw
      rw [LeadsInto, hw, frameOf_entryWord _ (convertPagingTypes_lt _)]
      exact ⟨present_entryWord _ _, 0, by omega, rfl⟩
    · rw [hscr] at hscr'
      cases hscr'

end Tracked

/-- On the pages of the user an address leads where the word of its page leads. -/
theorem reaches_iff {d : PageDirectory} (hd : Split d) {a : ℕ}
    (ha : 0x80000 ≤ a / PAGE_SIZE ∧ a / PAGE_SIZE < 0xFE000) :
    Reaches d sh a ↔ LeadsInto (d.word (a / PAGE_SIZE)) sh := by
  have htable : pageTableOf a = a / PAGE_SIZE / 1024 := by
    unfold pageTableOf PAGE_SIZE at *
    omega
  have hentry : pageEntryOf a = a / PAGE_SIZE % 1024 := rfl
  have hframe : ∀ w, frameOf (frameOf w + a % PAGE_SIZE) = frameOf w := by
    intro w
    unfold frameOf PAGE_SIZE
    omega
  rw [Reaches, LeadsInto, Paging.translate, PageDirectory.word, htable, hentry]
  cases ht : d.pde (a / PAGE_SIZE / 1024) with
  | absent => simp [present]
  | large => exact absurd ht (hd.not_large ha.1 ha.2)
  | table t =>
    by_cases hp : present (t.entry (a / PAGE_SIZE % 1024)) = true
    · simp [hp, hframe]
    · simp [hp]

def detachSystem : System (Kernel × Through) ShmemCall Fault where
  Init s := Booted s.1 ∧ s.2 = fun _ _ => none
  Guard s c := c.Permitted s.1 ∧ c.Fresh s.1.table
  step s c := do
    let (k, a) ← c.exec s.1
    .ok (k, s.2.record c a)

theorem tracked_run {s t : Kernel × Through} {cs : List ShmemCall} (h₀ : detachSystem.Init s)
    (hr : (detachSystem.restrict fun s c => c.Careful s.1).Steps s cs t) :
    ∃ chain, Listed t.1 chain ∧ Mapped (registry t.1 chain) ∧ Tracked (registry t.1 chain) t.2 := by
  apply hr.invariant (P := fun s => ∃ chain, Listed s.1 chain ∧ Mapped (registry s.1 chain) ∧
    Tracked (registry s.1 chain) s.2)
  · rintro s c t ⟨chain, hl, hm, hw⟩ ⟨⟨hg, hf⟩, hc⟩ ht
    obtain ⟨⟨k, a⟩, hk, ht⟩ := bind_eq_ok.mp ht
    cases ht
    obtain ⟨chain', hl', hs⟩ := hl.exec hg hk
    have hc := hl.carefulOn hc
    exact ⟨chain', hl', hm.step hg.1 hc hs, hw.step hm hg.1 hc (fresh_registry hf) hs⟩
  · refine ⟨_, listed_init h₀.1.1 h₀.1.2.1, h₀.1.mapped, ?_, ?_, ?_⟩
    · intro pid p id hw
      rw [h₀.2] at hw
      cases hw
    · exact fun id pid p hu => absurd hu (not_used_none p)
    · intro id sh pid d p hr
      rw [region_registry, h₀.1.1 id] at hr
      cases hr

/-- The scratch pads that a deletion needs: one for each living process that uses the region. -/
def PadsFor (k : Kernel) (id : ℤ) (scratch : ℤ → Option ℕ) : Prop :=
  ∀ pid u, usageOf k id pid = some u → 0 < u → k.maps pid ≠ none → scratch pid ≠ none

/-- No living process translates an address to a frame of the region through it. -/
def Gone (k : Kernel) (w : Through) (id : ℤ) (sh : Shmem) : Prop :=
  ∀ pid d a, k.maps pid = some d → w pid (a / PAGE_SIZE) = some id → ¬ Reaches d sh a

/-- After careful calls, a deletion frees an internal region, and nothing leads to its frames
exactly when there was a scratch pad for each living user. -/
theorem delete_detaches {s t : Kernel × Through} {cs : List ShmemCall}
    (h₀ : detachSystem.Init s)
    (hr : (detachSystem.restrict fun s c => c.Careful s.1).Steps s cs t)
    {scratch : ℤ → Option ℕ} {tables : ℤ → ℕ → Option ℕ} {owner id : ℤ} {sh : Shmem} {k : Kernel}
    (ht : t.1.table id = some sh) (hint : sh.internal ≠ 0)
    (hg : detachSystem.Guard t (.delete scratch tables owner id))
    (hk : shmemDelete t.1 scratch tables owner id = .ok (k, 0)) :
    k.freed = (sh.physicalPages, sh.physicalLocation) :: t.1.freed ∧
      (PadsFor t.1 id scratch ↔ Gone k t.2 id sh) := by
  obtain ⟨chain, hl, hm, hw⟩ := tracked_run h₀ hr
  have howner : owner = sh.pid := by
    by_contra hne
    rw [shmemDelete, ht] at hk
    dsimp only at hk
    rw [if_pos hne] at hk
    cases hk
  subst howner
  obtain ⟨infos, maps, -, rfl, -, hdet⟩ := hl.delete_eq ht hk
  refine ⟨if_pos hint, ?_⟩
  have hreg : (registry t.1 chain).region id = some sh.bare := by
    rw [region_registry, ht, Option.map_some]
  have hf : ShmemCall.Fresh (registry t.1 chain).region (.delete scratch tables sh.pid id) :=
    fresh_registry hg.2
  have hfresh : ∀ pid p, scratch pid = some p →
      Unused (registry t.1 chain).region p sh.physicalPages :=
    fun pid p hp => hf pid p sh.bare hp hreg
  have hiff : (∀ pid e, (registry t.1 chain).entry id pid = some e → 0 < e.usage →
        (registry t.1 chain).maps pid ≠ none → scratch pid ≠ none) ↔
      ∀ pid d p, maps pid = some d → t.2 pid p = some id → ¬ LeadsInto (d.word p) sh :=
    @Tracked.deleted_iff _ _ id sh.bare hw hm scratch tables hg.1.1 hfresh hreg hint maps hdet
  have hpads : PadsFor t.1 id scratch ↔ ∀ pid e, (registry t.1 chain).entry id pid = some e →
      0 < e.usage → (registry t.1 chain).maps pid ≠ none → scratch pid ≠ none := by
    simp only [PadsFor, hl.usageOf, Option.map_eq_some_iff]
    refine forall_congr' fun pid => ⟨fun h e he => h e.usage ⟨e, he, rfl⟩, ?_⟩
    rintro h u ⟨e, he, rfl⟩
    exact h e he
  rw [hpads, hiff]
  have hsplit : ∀ pid d, maps pid = some d → Split d := by
    intro pid d hd
    have hdet := hdet pid
    rw [hd] at hdet
    exact (hm.detached hreg hdet (hg.1.1 pid)).1
  constructor
  · intro h pid d a hd hwa
    rw [reaches_iff (hsplit pid d hd) (hw.user _ _ _ hwa)]
    exact h pid d _ hd hwa
  · intro h pid d p hd hwp
    have hdiv : p * PAGE_SIZE / PAGE_SIZE = p := Nat.mul_div_cancel p (by decide)
    have hgone := h pid d (p * PAGE_SIZE) hd
    rw [hdiv] at hgone
    have := hgone hwp
    rwa [reaches_iff (hsplit pid d hd) (by rw [hdiv]; exact hw.user _ _ _ hwp), hdiv] at this

/-- Process 1 creates a region of one page, for which the page at 1 MB is allocated. -/
def createInternal : ShmemCall :=
  .create (some 0x100000) true true (fun _ => 0) (fun _ => 1) 1 1 SHMEM_RDWR

/-- Process 1 deletes region 0. -/
def deleteWith (scratch : ℤ → Option ℕ) : ShmemCall := .delete scratch (fun _ _ => none) 1 0

/-- The frame at 1 MB is free again, and process 2 still has it at 2 GB. -/
def LeftMapped (k : Kernel) (w : Through) : Prop :=
  k.freed = [(1, 0x100000)] ∧ w 2 0x80000 = some 0 ∧
    ∃ d, k.maps 2 = some d ∧ translate d 0x80000000 = some 0x100000

theorem createInternal_guard (w : Through) : detachSystem.Guard (twoProcesses, w) createInternal :=
  ⟨⟨⟨by decide, fun p hp => by cases hp; decide⟩, fun p hp => by cases hp⟩, trivial⟩

theorem grantTo_guard {k : Kernel} (w : Through) (hk : k.infos 0x1000 = none) :
    detachSystem.Guard (k, w) (grantTo 2) :=
  ⟨⟨trivial, fun p hp => by cases hp; exact ⟨hk, by decide⟩⟩, trivial⟩

/-- Region 0 is all there is, a page at 1 MB. -/
structure OnePage (table : ℤ → Option Shmem) (sh : Shmem) : Prop where
  first : table 0 = some sh
  only : ∀ i ≠ 0, table i = none
  internal : sh.internal ≠ 0
  location : sh.physicalLocation = 0x100000
  pages : sh.physicalPages = 1

theorem onePage_update {sh sh' : Shmem} (hi : sh.internal ≠ 0)
    (hloc : sh.physicalLocation = 0x100000) (hpages : sh.physicalPages = 1) :
    OnePage (Function.update (Function.update (fun _ => none) 0 (some sh')) 0 (some sh)) sh where
  first := Function.update_self ..
  only i hi := by rw [Function.update_of_ne hi, Function.update_of_ne hi]
  internal := hi
  location := hloc
  pages := hpages

/-- The pad at 4 MB is not the page at 1 MB. -/
theorem OnePage.guard {t : Kernel × Through} {sh : Shmem} (h : OnePage t.1.table sh) :
    detachSystem.Guard t (deleteWith fun _ => some 0x400000) := by
  refine ⟨⟨fun pid p hp => ?_, fun p hp => by cases hp⟩, fun pid p s hp hs => ?_⟩
  · cases hp
    decide
  · cases hp
    rw [h.first] at hs
    cases hs
    rw [h.pages]
    rintro i s hs - f ⟨j, hj, rfl⟩ ⟨j', hj', hf⟩
    by_cases hi : i = 0
    · rw [hi, h.first] at hs
      cases hs
      rw [h.pages] at hj'
      have hj : j = 0 := by omega
      have hj' : j' = 0 := by omega
      rw [h.location, hj, hj'] at hf
      exact absurd hf (by decide)
    · rw [h.only i hi] at hs
      cases hs

/-- A deletion frees the page while a process still has it: without memory for a scratch pad, or
when a release below zero has hidden that the process uses it. -/
theorem deletion_leaves_mapped :
    (∃ t k, detachSystem.Steps (twoProcesses, fun _ _ => none)
        [createInternal, grantTo 2, requestBy 2] t ∧
      detachSystem.Guard t (deleteWith fun _ => none) ∧
      shmemDelete t.1 (fun _ => none) (fun _ _ => none) 1 0 = .ok (k, 0) ∧ LeftMapped k t.2) ∧
    ∃ t k, detachSystem.Steps (twoProcesses, fun _ _ => none)
        [createInternal, grantTo 2, releaseBy 2, requestBy 2] t ∧
      detachSystem.Guard t (deleteWith fun _ => some 0x400000) ∧
      shmemDelete t.1 (fun _ => some 0x400000) (fun _ _ => none) 1 0 = .ok (k, 0) ∧
      LeftMapped k t.2 := by
  constructor
  · refine ⟨_, _, .cons (createInternal_guard _) rfl (.cons (grantTo_guard _ rfl) rfl
      (.one ⟨requestBy_permitted _ 2, trivial⟩ rfl)), ⟨⟨?_, ?_⟩, ?_⟩, rfl, rfl, rfl, _, rfl, rfl⟩
    · exact fun pid p hp => by cases hp
    · exact fun p hp => by cases hp
    · exact fun pid p sh hp => by cases hp
  · exact ⟨_, _, .cons (createInternal_guard _) rfl (.cons (grantTo_guard _ rfl) rfl
      (.cons ⟨releaseBy_permitted _ 2, trivial⟩ rfl (.one ⟨requestBy_permitted _ 2, trivial⟩ rfl))),
      OnePage.guard (onePage_update (by decide) rfl rfl), rfl, rfl, rfl, _, rfl, rfl⟩

/-- With memory for the scratch pad the page is gone from the map of its user. -/
theorem delete_detaches_example : ∃ (t : Kernel × Through) (sh : Shmem) (k : Kernel),
    shmemDelete t.1 (fun _ => some 0x400000) (fun _ _ => none) 1 0 = .ok (k, 0) ∧
    usageOf t.1 0 2 = some 1 ∧ k.freed = [(1, 0x100000)] ∧
    (PadsFor t.1 0 (fun _ => some 0x400000) ↔ Gone k t.2 0 sh) := by
  have hrun : ∃ t, (detachSystem.restrict fun s c => c.Careful s.1).Steps
      (twoProcesses, fun _ _ => none) [createInternal, grantTo 2, requestBy 2] t ∧
      ∃ sh k, OnePage t.1.table sh ∧ t.1.freed = [] ∧ usageOf t.1 0 2 = some 1 ∧
        shmemDelete t.1 (fun _ => some 0x400000) (fun _ _ => none) 1 0 = .ok (k, 0) :=
    ⟨_, .cons ⟨createInternal_guard _, trivial⟩ rfl (.cons ⟨grantTo_guard _ rfl, trivial⟩ rfl
      (.one ⟨⟨requestBy_permitted _ 2, trivial⟩, fun h => absurd (Option.some.inj h) (by decide)⟩
        rfl)), _, _, onePage_update (by decide) rfl rfl, rfl, rfl, rfl⟩
  obtain ⟨t, hr, sh, k, hpage, hfreed, hu, hk⟩ := hrun
  obtain ⟨hfreed', hiff⟩ := delete_detaches ⟨twoProcesses_booted, rfl⟩ hr hpage.first
    hpage.internal hpage.guard hk
  rw [hfreed, hpage.pages, hpage.location] at hfreed'
  exact ⟨t, sh, k, hk, hu, hfreed', hiff⟩

end Racoon.Sharing
