import Racoon.Lib.Run
import Racoon.Paging.Mappings
import Racoon.Sharing.Deletion

/-!
# Requests and releases

The count of an entry is the number of requests less the number of releases of
its process, and the region is mapped for the process exactly while the count is
positive, as long as nobody releases what is not requested: `shmem_release` takes
one off any count, and a count below zero puts a region into the map of a
process with the count at zero.
-/

namespace Racoon.Sharing
open Lib Paging Strings

/-- The pages that an entry says are mapped. -/
def Entry.Covers (e : Entry) (p : ℕ) : Prop :=
  e.location / PAGE_SIZE ≤ p ∧ p < e.location / PAGE_SIZE + e.pages.toNat

instance (e : Entry) (p : ℕ) : Decidable (e.Covers p) := inferInstanceAs (Decidable (_ ∧ _))

/-- The frames of the region are where the entry says. -/
def HeldBy (d : PageDirectory) (sh : Shmem) (e : Entry) : Prop :=
  Holds d e.location sh.physicalPages.toNat sh.physicalLocation
    (convertPagingTypes (mapType e.flags))

/-- An entry in use. -/
structure Placed (sh : Shmem) (e : Entry) : Prop where
  pages : e.pages = sh.physicalPages
  aligned : e.location % PAGE_SIZE = 0
  user : UserPages (e.location / PAGE_SIZE) sh.physicalPages.toNat

def Idle (e : Entry) : Prop := e.location = 0 ∧ e.pages = -1

/-- The regions are mapped for the processes that use them. -/
structure Mapped (r : Registry) : Prop where
  region : ∀ id sh, r.region id = some sh →
    0 < sh.physicalPages ∧ sh.physicalPages < 2 ^ 31 ∧ sh.physicalLocation < 2 ^ 32
  absent : ∀ id, r.region id = none → ∀ pid, r.entry id pid = none
  split : ∀ pid d, r.maps pid = some d → Split d
  range : ∀ id pid e, r.entry id pid = some e → 0 ≤ e.usage ∧ e.usage < 2 ^ 31
  idle : ∀ id pid e, r.entry id pid = some e → e.usage = 0 → Idle e
  placed : ∀ id pid sh e, r.region id = some sh → r.entry id pid = some e → 0 < e.usage →
    Placed sh e
  held : ∀ id pid sh e d, r.region id = some sh → r.entry id pid = some e → 0 < e.usage →
    r.maps pid = some d → HeldBy d sh e
  apart : ∀ id id' pid e e', r.entry id pid = some e → r.entry id' pid = some e' → 0 < e.usage →
    0 < e'.usage → id ≠ id' → ∀ p, e.Covers p → ¬ e'.Covers p

variable {r r' : Registry} {id pid : ℤ} {sh : Shmem} {e : Entry}

theorem heldBy_congr {d d' : PageDirectory} (hp : e.pages = sh.physicalPages) (h : HeldBy d sh e)
    (hw : ∀ p, e.Covers p → d'.word p = d.word p) : HeldBy d' sh e := by
  intro i hi
  rw [hw _ ⟨by omega, by rw [hp]; omega⟩]
  exact h i hi

/-- What an entry covers is present. -/
theorem HeldBy.present {d : PageDirectory} (hp : e.pages = sh.physicalPages) (h : HeldBy d sh e)
    {p : ℕ} (hc : e.Covers p) : present (d.word p) = true := by
  obtain ⟨h₁, h₂⟩ := hc
  rw [hp] at h₂
  have hw := h (p - e.location / PAGE_SIZE) (by omega)
  rw [Nat.add_sub_cancel' h₁] at hw
  rw [hw, present_entryWord]

namespace Mapped

/-- Maps that agree on the pages in use. -/
theorem setMaps (h : Mapped r) {maps : ℤ → Option PageDirectory}
    (hm : ∀ pid d', maps pid = some d' → Split d' ∧ ∃ d, r.maps pid = some d ∧
      ∀ id e, r.entry id pid = some e → 0 < e.usage → ∀ p, e.Covers p → d'.word p = d.word p) :
    Mapped { r with maps := maps } where
  region := h.region
  absent := h.absent
  split pid d hd := (hm pid d hd).1
  range := h.range
  idle := h.idle
  placed := h.placed
  held id pid sh e d hr he hu hd := by
    obtain ⟨-, d₀, hd₀, hw⟩ := hm pid d hd
    exact heldBy_congr (h.placed id pid sh e hr he hu).pages (h.held id pid sh e d₀ hr he hu hd₀)
      (hw id e he hu)
  apart := h.apart

theorem setMap (h : Mapped r) {d d' : PageDirectory} (hd : r.maps pid = some d) (hs : Split d')
    (hw : ∀ id e, r.entry id pid = some e → 0 < e.usage → ∀ p, e.Covers p →
      d'.word p = d.word p) : Mapped (r.setMap pid (some d')) := by
  apply h.setMaps
  intro x d₁ hx
  by_cases hxp : x = pid
  · subst hxp
    rw [Function.update_self] at hx
    cases hx
    exact ⟨hs, d, hd, hw⟩
  · rw [Function.update_of_ne hxp] at hx
    exact ⟨h.split x d₁ hx, d₁, hx, fun _ _ _ _ _ _ => rfl⟩

theorem exit (h : Mapped r) (pid : ℤ) : Mapped (r.setMap pid none) := by
  apply h.setMaps
  intro x d₁ hx
  by_cases hxp : x = pid
  · rw [hxp, Function.update_self] at hx
    cases hx
  · rw [Function.update_of_ne hxp] at hx
    exact ⟨h.split x d₁ hx, d₁, hx, fun _ _ _ _ _ _ => rfl⟩

theorem removeEntry (h : Mapped r) (id pid : ℤ) : Mapped (r.setEntry id pid none) := by
  have hold : ∀ i x e, (r.setEntry id pid none).entry i x = some e → r.entry i x = some e := by
    intro i x e he
    rw [Registry.entry_setEntry] at he
    split_ifs at he
    exact he
  refine ⟨h.region, fun i hi x => ?_, h.split, fun i x e he => h.range i x e (hold i x e he),
    fun i x e he => h.idle i x e (hold i x e he),
    fun i x s e hr he => h.placed i x s e hr (hold i x e he),
    fun i x s e d hr he => h.held i x s e d hr (hold i x e he),
    fun i j x e₁ e₂ he₁ he₂ => h.apart i j x e₁ e₂ (hold i x e₁ he₁) (hold j x e₂ he₂)⟩
  rw [Registry.entry_setEntry]
  split_ifs
  · rfl
  · exact h.absent i hi x

theorem setEntry (h : Mapped r) (hr : r.region id = some sh)
    (hrange : 0 ≤ e.usage ∧ e.usage < 2 ^ 31) (hidle : e.usage = 0 → Idle e)
    (hplaced : 0 < e.usage → Placed sh e)
    (hheld : 0 < e.usage → ∀ d, r.maps pid = some d → HeldBy d sh e)
    (hapart : 0 < e.usage → ∀ i e', i ≠ id → r.entry i pid = some e' → 0 < e'.usage →
      ∀ p, e.Covers p → ¬ e'.Covers p) : Mapped (r.setEntry id pid (some e)) := by
  have hcases : ∀ i x e', (r.setEntry id pid (some e)).entry i x = some e' →
      (i = id ∧ x = pid) ∧ e' = e ∨ ¬ (i = id ∧ x = pid) ∧ r.entry i x = some e' := by
    intro i x e' he
    rw [Registry.entry_setEntry] at he
    split_ifs at he with hix
    · cases he
      exact .inl ⟨hix, rfl⟩
    · exact .inr ⟨hix, he⟩
  constructor
  · exact h.region
  · intro i hi x
    have hid : ¬ (i = id ∧ x = pid) := fun hix => by
      rw [hix.1] at hi
      exact absurd (hr.symm.trans hi) (by simp)
    rw [Registry.entry_setEntry, if_neg hid]
    exact h.absent i hi x
  · exact h.split
  · intro i x e' he
    obtain ⟨-, rfl⟩ | ⟨-, he⟩ := hcases i x e' he
    · exact hrange
    · exact h.range i x e' he
  · intro i x e' he hu
    obtain ⟨-, rfl⟩ | ⟨-, he⟩ := hcases i x e' he
    · exact hidle hu
    · exact h.idle i x e' he hu
  · intro i x s e' hs he hu
    obtain ⟨⟨rfl, rfl⟩, rfl⟩ | ⟨-, he⟩ := hcases i x e' he
    · rw [show r.region i = some s from hs] at hr
      cases hr
      exact hplaced hu
    · exact h.placed i x s e' hs he hu
  · intro i x s e' d hs he hu hd
    obtain ⟨⟨rfl, rfl⟩, rfl⟩ | ⟨-, he⟩ := hcases i x e' he
    · rw [show r.region i = some s from hs] at hr
      cases hr
      exact hheld hu d hd
    · exact h.held i x s e' d hs he hu hd
  · intro i j x e₁ e₂ he₁ he₂ hu₁ hu₂ hij p hp₁ hp₂
    obtain ⟨⟨rfl, rfl⟩, rfl⟩ | ⟨-, ho₁⟩ := hcases i x e₁ he₁
    · obtain ⟨⟨rfl, -⟩, -⟩ | ⟨-, ho₂⟩ := hcases j x e₂ he₂
      · exact hij rfl
      · exact hapart hu₁ j e₂ hij.symm ho₂ hu₂ p hp₁ hp₂
    · obtain ⟨⟨rfl, rfl⟩, rfl⟩ | ⟨-, ho₂⟩ := hcases j x e₂ he₂
      · exact hapart hu₂ i e₁ hij ho₁ hu₁ p hp₂ hp₁
      · exact h.apart i j x e₁ e₂ ho₁ ho₂ hu₁ hu₂ hij p hp₁ hp₂

theorem setIdle (h : Mapped r) (hr : r.region id = some sh) (hi : Idle e) (hu : e.usage = 0) :
    Mapped (r.setEntry id pid (some e)) := by
  apply h.setEntry hr
  · rw [hu]
    decide
  · exact fun _ => hi
  all_goals exact fun h => absurd hu h.ne'

theorem setRegion (h : Mapped r) (hsh : 0 < sh.physicalPages ∧ sh.physicalPages < 2 ^ 31 ∧
    sh.physicalLocation < 2 ^ 32) : Mapped (r.setRegion id (some sh)) := by
  have hold : ∀ i x e, (r.setRegion id (some sh)).entry i x = some e →
      i ≠ id ∧ r.entry i x = some e := by
    intro i x e he
    rw [Registry.entry_setRegion] at he
    by_cases hid : i = id
    · rw [if_pos hid] at he
      cases he
    · rw [if_neg hid] at he
      exact ⟨hid, he⟩
  have hregion : ∀ i s, i ≠ id → (r.setRegion id (some sh)).region i = some s →
      r.region i = some s := by
    intro i s hi hs
    rwa [Registry.region_setRegion, if_neg hi] at hs
  constructor
  · intro i s hs
    rw [Registry.region_setRegion] at hs
    split_ifs at hs
    · cases hs
      exact hsh
    · exact h.region i s hs
  · intro i hi x
    rw [Registry.region_setRegion] at hi
    split_ifs at hi with hid
    rw [Registry.entry_setRegion, if_neg hid]
    exact h.absent i hi x
  · exact h.split
  · exact fun i x e he => h.range i x e (hold i x e he).2
  · exact fun i x e he => h.idle i x e (hold i x e he).2
  · intro i x s e hs he
    obtain ⟨hid, he⟩ := hold i x e he
    exact h.placed i x s e (hregion i s hid hs) he
  · intro i x s e d hs he
    obtain ⟨hid, he⟩ := hold i x e he
    exact h.held i x s e d (hregion i s hid hs) he
  · exact fun i j x e₁ e₂ he₁ he₂ => h.apart i j x e₁ e₂ (hold i x e₁ he₁).2 (hold j x e₂ he₂).2

/-- Other entries of the process are not covered by what the entry covers. -/
theorem word_of_covered (h : Mapped r) {d d' : PageDirectory} (he : r.entry id pid = some e)
    (hu : 0 < e.usage) (hw : ∀ p, ¬ e.Covers p → d'.word p = d.word p) :
    ∀ i e', i ≠ id → r.entry i pid = some e' → 0 < e'.usage → ∀ p, e'.Covers p →
      d'.word p = d.word p :=
  fun i e' hi he' hu' p hp =>
    hw p fun hc => h.apart id i pid e e' he he' hu hu' hi.symm p hc hp

/-- A change of the map where an entry covers it, when the entry goes or becomes idle. -/
theorem remap (h : Mapped r) {d d' : PageDirectory} (he : r.entry id pid = some e)
    (hu : 0 < e.usage) (hd : r.maps pid = some d) (hs : Split d')
    (hw : ∀ p, ¬ e.Covers p → d'.word p = d.word p) {o : Option Entry}
    (ho : ∀ e', o = some e' → e'.usage = 0) (hm : Mapped (r.setEntry id pid o)) :
    Mapped ((r.setMap pid (some d')).setEntry id pid o) := by
  rw [← Registry.setMap_setEntry]
  apply hm.setMap hd hs
  intro i e' he' hu' p hp
  rw [Registry.entry_setEntry] at he'
  split_ifs at he' with hi
  · exact absurd (ho e' he') hu'.ne'
  · have hid : i ≠ id := fun hid => hi ⟨hid, rfl⟩
    exact h.word_of_covered he hu hw i e' hid he' hu' p hp

end Mapped

theorem Placed.location_eq (h : Placed sh e) : e.location = e.location / PAGE_SIZE * PAGE_SIZE :=
  (Nat.div_mul_cancel (Nat.dvd_of_mod_eq_zero h.aligned)).symm

theorem Placed.covers_iff (h : Placed sh e) (p : ℕ) : e.Covers p ↔
    e.location / PAGE_SIZE ≤ p ∧ p < e.location / PAGE_SIZE + sh.physicalPages.toNat := by
  rw [Entry.Covers, h.pages]

/-- A scratch pad takes the place of the region, and nothing else changes. -/
theorem Placed.directMap (h : Placed sh e) {tables : ℕ → Option ℕ} {d d' : PageDirectory}
    {data type : ℕ} (hd : Split d) (hb : 0 < sh.physicalPages ∧ sh.physicalPages < 2 ^ 31)
    (hdata : data < 2 ^ 32)
    (hrun : pageDirectMap tables d data e.location sh.physicalPages type = .ok d') :
    Split d' ∧ (∀ p, ¬ e.Covers p → d'.word p = d.word p) ∧
      ∀ p, e.Covers p → d'.word p =
        entryWord (add32 data ((p - e.location / PAGE_SIZE) * PAGE_SIZE))
          (convertPagingTypes type) := by
  have hu := h.user
  have hceil := hu.ceiling
  have hn : sh.physicalPages = (sh.physicalPages.toNat : ℤ) := by omega
  rw [h.location_eq, hn] at hrun
  obtain ⟨hs, -, hw⟩ := pageDirectMap_eq hd (by omega) (by omega) hdata hrun
  refine ⟨hs, fun p hp => ?_, fun p hp => ?_⟩
  · rw [hw, if_neg fun hc => hp ((h.covers_iff p).mpr hc)]
  · rw [hw, if_pos ((h.covers_iff p).mp hp)]

theorem Placed.release (h : Placed sh e) {memory : ℕ → ℕ} {d d' : PageDirectory} (hd : Split d)
    (hrun : pageRelease memory d e.location e.pages = .ok d') :
    Split d' ∧ (∀ p, ¬ e.Covers p → d'.word p = d.word p) ∧
      ∀ p, e.Covers p → present (d'.word p) = false := by
  rw [pageRelease, h.location_eq, h.pages] at hrun
  obtain ⟨hs, hw⟩ := releaseFrom_eq hd h.user hrun
  refine ⟨hs, fun p hp => ?_, fun p hp => ?_⟩
  · rw [hw, if_neg fun hc => hp ((h.covers_iff p).mpr hc.1)]
  · rw [hw]
    split_ifs with hc
    · rfl
    · by_contra hne
      exact hc ⟨(h.covers_iff p).mp hp, by simpa using hne⟩

/-- A new mapping is on pages that no entry in use covers. -/
theorem Mapped.provide (h : Mapped r) {memory : ℕ → ℕ} {tables : ℕ → Option ℕ}
    {d d' : PageDirectory} {location flags : ℕ} (hr : r.region id = some sh)
    (hd : r.maps pid = some d)
    (hrun : pageProvide memory tables d sh.physicalLocation sK_BASE sK_CEILING
      (sh.physicalPages % 2 ^ 32).toNat (mapType flags) = .ok (d', location)) :
    Split d' ∧ (∀ i e', r.entry i pid = some e' → 0 < e'.usage → ∀ p, e'.Covers p →
        d'.word p = d.word p) ∧
      (location = 0 → d' = d) ∧
      (location ≠ 0 → ∀ usage, Placed sh ⟨location, sh.physicalPages, flags, usage⟩ ∧
        HeldBy d' sh ⟨location, sh.physicalPages, flags, usage⟩ ∧
        (∀ p, ¬ Entry.Covers ⟨location, sh.physicalPages, flags, usage⟩ p →
          d'.word p = d.word p) ∧
        ∀ i e', r.entry i pid = some e' → 0 < e'.usage → ∀ p,
          Entry.Covers ⟨location, sh.physicalPages, flags, usage⟩ p → ¬ e'.Covers p) := by
  obtain ⟨hpos, hlt, hphys⟩ := h.region id sh hr
  have hn : (sh.physicalPages % 2 ^ 32).toNat = sh.physicalPages.toNat := by omega
  rw [hn] at hrun
  obtain ⟨hs, ⟨h0, hsame⟩ | ⟨s, hloc, -, huser, hfree, hw⟩⟩ := pageProvide_eq
    (h.split pid d hd) (by omega) (by omega) hphys (by decide) hrun
  · subst hsame
    exact ⟨hs, fun _ _ _ _ _ _ => rfl, fun _ => rfl, fun hne => absurd h0 hne⟩
  · have hdiv : location / PAGE_SIZE = s := by
      rw [hloc]
      exact Nat.mul_div_cancel s (by decide)
    have hpresent : ∀ i e', r.entry i pid = some e' → 0 < e'.usage → ∀ p, e'.Covers p →
        ¬ (s ≤ p ∧ p < s + sh.physicalPages.toNat) := by
      intro i e' he' hu p hp hin
      obtain ⟨sh', hr'⟩ : ∃ sh', r.region i = some sh' := by
        cases hr' : r.region i with
        | none =>
          rw [h.absent i hr'] at he'
          cases he'
        | some sh' => exact ⟨sh', rfl⟩
      have hheld := h.held i pid sh' e' d hr' he' hu hd
      have hp' := hheld.present (h.placed i pid sh' e' hr' he' hu).pages hp
      rw [hfree p hin.1 hin.2] at hp'
      cases hp'
    have hs0 : location ≠ 0 := by
      have := huser.floor
      rw [hloc, PAGE_SIZE]
      omega
    refine ⟨hs, fun i e' he' hu p hp => ?_, fun h0 => absurd h0 hs0, fun _ usage =>
      ⟨⟨rfl, ?_, ?_⟩, ?_, fun p hp => ?_, ?_⟩⟩
    · rw [hw, if_neg (hpresent i e' he' hu p hp)]
    · show location % PAGE_SIZE = 0
      rw [hloc]
      exact Nat.mul_mod_left _ _
    · show UserPages (location / PAGE_SIZE) sh.physicalPages.toNat
      rwa [hdiv]
    · intro i hi
      show d'.word (location / PAGE_SIZE + i) = _
      rw [hdiv, hw, if_pos (by omega), Nat.add_sub_cancel_left]
    · rw [hw, if_neg]
      rwa [Entry.Covers, hdiv] at hp
    · intro i e' he' hu p hp hp'
      obtain ⟨h₁, h₂⟩ := hp
      dsimp only at h₁ h₂
      rw [hdiv] at h₁ h₂
      exact hpresent i e' he' hu p hp' ⟨h₁, h₂⟩

/-- No release of what is not requested, and no count past the last value of an `int`. -/
def CarefulOn (r : Registry) : ShmemCall → Prop
  | .request _ _ _ pid id => ∀ e, r.entry id pid = some e → e.usage ≠ 2 ^ 31 - 1
  | .release _ pid id => ∀ e, r.entry id pid = some e → e.usage ≠ 0
  | _ => True

theorem Placed.congr {e' : Entry} (h : Placed sh e) (hp : e'.pages = e.pages)
    (hl : e'.location = e.location) : Placed sh e' :=
  ⟨hp.trans h.pages, by rw [hl]; exact h.aligned, by rw [hl]; exact h.user⟩

namespace Mapped

/-- Another positive count. -/
theorem setUsage (h : Mapped r) (hr : r.region id = some sh) (he : r.entry id pid = some e)
    (hu : 0 < e.usage) {n : ℤ} (hn : 0 < n) (hb : n < 2 ^ 31) :
    Mapped (r.setEntry id pid (some { e with usage := n })) := by
  apply h.setEntry hr ⟨hn.le, hb⟩
  · exact fun h0 => absurd h0 hn.ne'
  · exact fun _ => (h.placed id pid sh e hr he hu).congr rfl rfl
  · exact fun _ d hd => h.held id pid sh e d hr he hu hd
  · exact fun _ i e' hi he' hu' p hp => h.apart id i pid e e' he he' hu hu' hi.symm p hp

/-- An entry that says nothing is mapped has the count zero. -/
theorem usage_of_pages (h : Mapped r) (hr : r.region id = some sh) (he : Entitled r id pid sh e) :
    (e.pages < 0 → e.usage = 0 ∧ e.pages = -1) ∧
      (0 ≤ e.pages → r.entry id pid = some e ∧ 0 < e.usage) := by
  rcases he with he | ⟨-, -, rfl⟩
  · have hrange := h.range id pid e he
    rcases hrange.1.lt_or_eq with hu | hu
    · have hp := (h.placed id pid sh e hr he hu).pages
      have := (h.region id sh hr).1
      exact ⟨fun hneg => by omega, fun _ => ⟨he, hu⟩⟩
    · have hidle := h.idle id pid e he hu.symm
      exact ⟨fun _ => ⟨hu.symm, hidle.2⟩, fun hpos => by rw [hidle.2] at hpos; omega⟩
  · exact ⟨fun _ => ⟨rfl, rfl⟩, fun hpos => absurd hpos (by simp [freshEntry])⟩

theorem request (h : Mapped r) (hr : r.region id = some sh) (he : Entitled r id pid sh e)
    (hc : ∀ e, r.entry id pid = some e → e.usage ≠ 2 ^ 31 - 1) {memory : ℕ → ℕ}
    {tables : ℕ → Option ℕ} {e' : Entry} {m : Option PageDirectory} {access : Option Access}
    (hs : Served memory tables sh.physicalLocation sh.physicalPages e (r.maps pid) e' m access) :
    Mapped ((r.setMap pid m).setEntry id pid (some e')) := by
  obtain ⟨hneg, hpos⟩ := h.usage_of_pages hr he
  cases hs with
  | count hp =>
    obtain ⟨he, hu⟩ := hpos hp
    have hrange := h.range id pid e he
    have hne := hc e he
    have hsame : r.setMap pid (r.maps pid) = r := by
      rw [Registry.setMap, Function.update_eq_self]
    rw [hsame, int32_of_le (by omega) (by omega)]
    exact h.setUsage hr he hu (by omega) (by omega)
  | @map d d' location hp hd hrun hloc =>
    obtain ⟨hsplit, hw, -, hnew⟩ := h.provide hr hd hrun
    obtain ⟨hplaced, hheld, -, hapart⟩ := hnew hloc (int32 (e.usage + 1))
    have hone : int32 (e.usage + 1) = 1 := by
      rw [(hneg hp).1]
      rfl
    rw [hone] at hplaced hheld hapart ⊢
    apply (h.setMap hd hsplit hw).setEntry hr ⟨zero_le_one, by norm_num⟩
    · exact fun h0 => absurd h0 one_ne_zero
    · exact fun _ => hplaced
    · intro _ d₁ hd₁
      rw [Registry.maps_setMap, if_pos rfl] at hd₁
      cases hd₁
      exact hheld
    · exact fun _ i e' _ he' hu' => hapart i e' he' hu'
  | noRoom hp hd hrun =>
    obtain ⟨hu, hpages⟩ := hneg hp
    obtain ⟨hsplit, hw, -⟩ := h.provide hr hd hrun
    exact (h.setMap hd hsplit hw).setIdle hr ⟨rfl, hpages⟩ hu

theorem removeRegion (h : Mapped r) (id : ℤ) : Mapped (r.setRegion id none) := by
  have hold : ∀ i x e, (r.setRegion id none).entry i x = some e → r.entry i x = some e := by
    intro i x e he
    rw [Registry.entry_setRegion] at he
    by_cases hid : i = id
    · rw [if_pos hid] at he
      cases he
    · rwa [if_neg hid] at he
  have hregion : ∀ i s, (r.setRegion id none).region i = some s → r.region i = some s := by
    intro i s hs
    rw [Registry.region_setRegion] at hs
    split_ifs at hs
    exact hs
  constructor
  · exact fun i s hs => h.region i s (hregion i s hs)
  · intro i hi x
    rw [Registry.region_setRegion] at hi
    rw [Registry.entry_setRegion]
    by_cases hid : i = id
    · rw [if_pos hid]
    · rw [if_neg hid] at hi ⊢
      exact h.absent i hi x
  · exact h.split
  · exact fun i x e he => h.range i x e (hold i x e he)
  · exact fun i x e he => h.idle i x e (hold i x e he)
  · exact fun i x s e hs he => h.placed i x s e (hregion i s hs) (hold i x e he)
  · exact fun i x s e d hs he => h.held i x s e d (hregion i s hs) (hold i x e he)
  · exact fun i j x e₁ e₂ he₁ he₂ => h.apart i j x e₁ e₂ (hold i x e₁ he₁) (hold j x e₂ he₂)

/-- Detaching changes a map only where the region is. -/
theorem detached (h : Mapped r) (hr : r.region id = some sh) {scratch : Option ℕ}
    {tables : ℕ → Option ℕ} {d' : PageDirectory}
    (hdet : Detached scratch tables sh.physicalPages (r.entry id pid) (r.maps pid) (some d'))
    (ht : ∀ p, scratch = some p → p < 2 ^ 32) : Split d' ∧ ∃ d, r.maps pid = some d ∧
      (d' = d ∨ ∃ e, r.entry id pid = some e ∧ 0 < e.usage ∧
        ∀ p, ¬ e.Covers p → d'.word p = d.word p) := by
  rcases hdet with ⟨hsame, -⟩ | ⟨e, d, d₁, data, he, hu, hd, hd₁, hscr, hrun⟩
  · exact ⟨h.split pid d' hsame.symm, d', hsame.symm, .inl rfl⟩
  · cases hd₁
    have hplaced := h.placed id pid sh e hr he hu
    obtain ⟨hpos, hlt, -⟩ := h.region id sh hr
    obtain ⟨hs, hw, -⟩ := hplaced.directMap (h.split pid d hd) ⟨hpos, hlt⟩ (ht data hscr) hrun
    exact ⟨hs, d, hd, .inr ⟨e, he, hu, hw⟩⟩

theorem step (h : Mapped r) {c : ShmemCall} {a : Answer} (ht : c.Typed) (hc : CarefulOn r c)
    (hs : Step r c r' a) : Mapped r' := by
  cases hs with
  | refuse => exact h
  | @create location kmalloc insert litter name pid pages flags id hpages hid hr =>
    split_ifs
    · exact h.setRegion ⟨hpages, ht.1, ht.2 location rfl⟩
    · exact h
  | createDirect hpages hid hr =>
    split_ifs
    · exact h.setRegion ⟨hpages, ht.1, ht.2⟩
    · exact h
  | grant hr hn => exact h.setIdle hr ⟨rfl, rfl⟩ rfl
  | revokeIdle => exact h.removeEntry _ _
  | @revoke data tables id pid sh e d d' hr he hu hd hrun =>
    have hplaced := h.placed id pid sh e hr he hu
    obtain ⟨hpos, hlt, -⟩ := h.region id sh hr
    rw [hplaced.pages] at hrun
    obtain ⟨hs, hw, -⟩ := hplaced.directMap (h.split pid d hd) ⟨hpos, hlt⟩ (ht data rfl) hrun
    exact h.remap he hu hd hs hw (by simp) (h.removeEntry id pid)
  | request hr he hserved => exact h.request hr he hc hserved
  | @release memory id pid sh e hr he hne =>
    have hrange := h.range id pid e he
    have hu := hc e he
    rw [int32_of_le (by omega) (by omega)] at hne ⊢
    exact h.setUsage hr he (by omega) (by omega) (by omega)
  | @unmap memory id pid sh e d d' hr he hzero hd hrun =>
    have hrange := h.range id pid e he
    have hu := hc e he
    rw [int32_of_le (by omega) (by omega)] at hzero
    have hplaced := h.placed id pid sh e hr he (by omega)
    obtain ⟨hs, hw, -⟩ := hplaced.release (h.split pid d hd) hrun
    apply h.remap he (by omega) hd hs hw
    · intro e' he'
      cases he'
      rfl
    · exact h.setIdle hr ⟨rfl, rfl⟩ rfl
  | @delete scratch tables id sh maps hr hdet =>
    apply (h.removeRegion id).setMaps
    intro pid d' hd'
    have hdet' := hdet pid
    rw [hd'] at hdet'
    obtain ⟨hs, d, hd, hsame | ⟨e, he, hu, hw⟩⟩ := h.detached hr hdet' (ht pid)
    · exact ⟨hs, d, hd, fun _ _ _ _ _ _ => by rw [hsame]⟩
    · refine ⟨hs, d, hd, fun i e' he' hu' p hp => ?_⟩
      rw [Registry.entry_setRegion] at he'
      by_cases hi : i = id
      · rw [if_pos hi] at he'
        cases he'
      · rw [if_neg hi] at he'
        exact h.word_of_covered he hu hw i e' hi he' hu' p hp
  | exit => exact h.exit _

end Mapped

/-- For each region and process the requests less the releases since the entry was made. -/
abbrev Uses := ℤ → ℤ → ℤ

def Uses.set (u : Uses) (id pid n : ℤ) : Uses :=
  Function.update u id (Function.update (u id) pid n)

def Uses.record (u : Uses) (c : ShmemCall) (a : Answer) : Uses :=
  match c with
  | .request _ _ _ pid id => if a.rc = 0 then u.set id pid (u id pid + 1) else u
  | .release _ pid id => if a.rc = 0 then u.set id pid (u id pid - 1) else u
  | .revoke _ _ _ pid id => if a.rc = 0 then u.set id pid 0 else u
  | .delete _ _ _ id => if a.rc = 0 then Function.update u id fun _ => 0 else u
  | _ => u

theorem Uses.record_refuse (u : Uses) (c : ShmemCall) : u.record c ⟨-1, none⟩ = u := by
  cases c <;> simp [record]

theorem Uses.set_apply (u : Uses) (id pid n i x : ℤ) :
    u.set id pid n i x = if i = id ∧ x = pid then n else u i x := by
  simp only [set, Function.update_apply]
  by_cases hi : i = id
  · subst hi
    simp [Function.update_apply]
  · simp [hi]

def Counted (r : Registry) (u : Uses) : Prop :=
  ∀ id pid, u id pid = ((r.entry id pid).map Entry.usage).getD 0

theorem Counted.setEntry {u : Uses} (h : Counted r u) {o : Option Entry} {n : ℤ}
    (hn : n = (o.map Entry.usage).getD 0) : Counted (r.setEntry id pid o) (u.set id pid n) := by
  intro i x
  rw [Uses.set_apply, Registry.entry_setEntry]
  split_ifs
  · exact hn
  · exact h i x

/-- An entry that is set without a change of the count. -/
theorem Counted.keepEntry {u : Uses} (h : Counted r u) {o : Option Entry}
    (hn : ((r.entry id pid).map Entry.usage).getD 0 = (o.map Entry.usage).getD 0) :
    Counted (r.setEntry id pid o) u := by
  intro i x
  rw [Registry.entry_setEntry]
  split_ifs with hix
  · rw [hix.1, hix.2, h id pid]
    exact hn
  · exact h i x

theorem Counted.step {u : Uses} (h : Counted r u) (hm : Mapped r) {c : ShmemCall} {a : Answer}
    (hc : CarefulOn r c) (hs : Step r c r' a) : Counted r' (u.record c a) := by
  have hentitled : ∀ id pid sh e, r.region id = some sh → Entitled r id pid sh e →
      u id pid = e.usage := by
    rintro id pid sh e hr (he | ⟨hn, -, rfl⟩)
    · rw [h id pid, he]
      rfl
    · rw [h id pid, hn]
      rfl
  have hregion : ∀ id, r.region id = none → ∀ sh, Counted (r.setRegion id sh) u := by
    intro id hr sh i x
    rw [Registry.entry_setRegion, h i x]
    split_ifs with hid
    · rw [hid, hm.absent id hr]
    · rfl
  cases hs with
  | refuse => rwa [Uses.record_refuse]
  | create hpages hid hr =>
    split_ifs
    · exact hregion _ hr _
    · exact h
  | createDirect hpages hid hr =>
    split_ifs
    · exact hregion _ hr _
    · exact h
  | grant hr hn => exact h.keepEntry (by rw [hn]; rfl)
  | revokeIdle hr he hu =>
    rw [Uses.record, if_pos rfl]
    exact h.setEntry rfl
  | revoke hr he hu hd hrun =>
    rw [Uses.record, if_pos rfl]
    exact Counted.setEntry (r := r.setMap _ _) h rfl
  | @request kmalloc memory tables id pid sh e e' m access hr he hserved =>
    have hu := hentitled id pid sh e hr he
    obtain ⟨hneg, hpos⟩ := hm.usage_of_pages hr he
    have hcount : Counted (r.setMap pid m) u := h
    have hnext : int32 (e.usage + 1) = e.usage + 1 := by
      by_cases hp : e.pages < 0
      · rw [(hneg hp).1]
        rfl
      · obtain ⟨he, hlt⟩ := hpos (not_lt.mp hp)
        have hrange := hm.range id pid e he
        have hne := hc e he
        exact int32_of_le (by omega) (by omega)
    have hset : ∀ e', e'.usage = int32 (e.usage + 1) →
        Counted ((r.setMap pid m).setEntry id pid (some e')) (u.set id pid (u id pid + 1)) := by
      intro e' he'
      apply hcount.setEntry
      rw [hu, Option.map_some, he', hnext]
      rfl
    cases hserved with
    | count => exact hset _ rfl
    | map => exact hset _ rfl
    | noRoom =>
      apply hcount.keepEntry
      exact (h id pid).symm.trans hu
  | @release memory id pid sh e hr he hne =>
    have hrange := hm.range id pid e he
    have hu := hc e he
    rw [int32_of_le (by omega) (by omega)]
    rw [Uses.record, if_pos rfl, h id pid, he]
    exact h.setEntry rfl
  | @unmap memory id pid sh e d d' hr he hzero hd hrun =>
    have hrange := hm.range id pid e he
    have hu := hc e he
    rw [int32_of_le (by omega) (by omega)] at hzero
    rw [Uses.record, if_pos rfl, h id pid, he]
    exact Counted.setEntry (r := r.setMap _ _) h hzero
  | delete hr hdet =>
    rw [Uses.record, if_pos rfl]
    intro i x
    simp only [Registry.entry_setRegion, Function.update_apply]
    split_ifs
    · rfl
    · exact h i x
  | exit => exact h

/-- The count of the entry of a process, if it has one. -/
def usageOf (k : Kernel) (id pid : ℤ) : Option ℤ :=
  match k.table id with
  | none => none
  | some sh =>
    match findInfo k.infos pid walkBound sh.list with
    | .ok (some p) => (k.infos p).map ShmemInfo.usage
    | _ => none

theorem Listed.usageOf {k : Kernel} {chain : ℤ → List ℕ} (h : Listed k chain) (id pid : ℤ) :
    usageOf k id pid = ((registry k chain).entry id pid).map Entry.usage := by
  rw [Sharing.usageOf]
  cases ht : k.table id with
  | none =>
    have hn : (registry k chain).entry id pid = none := by
      show entries k.infos (chain id) pid = none
      rw [h.gone id ht]
      rfl
    rw [hn]
    rfl
  | some sh =>
    obtain ⟨hf, hn⟩ | ⟨p, v, hf, -, hv, -, he⟩ := h.find ht pid
    · rw [hn]
      simp only [hf]
      rfl
    · rw [he]
      simp only [hf, hv]
      rfl

/-- No release of what is not requested, and no count past the last value of an `int`. -/
def ShmemCall.Careful (k : Kernel) : ShmemCall → Prop
  | request _ _ _ pid id => usageOf k id pid ≠ some (2 ^ 31 - 1)
  | release _ pid id => usageOf k id pid ≠ some 0
  | _ => True

theorem Listed.carefulOn {k : Kernel} {chain : ℤ → List ℕ} (h : Listed k chain) {c : ShmemCall}
    (hc : c.Careful k) : CarefulOn (registry k chain) c := by
  cases c with
  | request kmalloc memory tables pid id =>
    intro e he hu
    apply hc
    rw [h.usageOf, he, Option.map_some, hu]
  | release memory pid id =>
    intro e he hu
    apply hc
    rw [h.usageOf, he, Option.map_some, hu]
  | _ => trivial

/-- No regions, and directories as `new_page_directory` makes them but for what the processes have
mapped. -/
def Booted (k : Kernel) : Prop :=
  (∀ id, k.table id = none) ∧ k.shmemId = 0 ∧ ∀ pid d, k.maps pid = some d → Split d

theorem Booted.mapped {k : Kernel} (h : Booted k) : Mapped (registry k fun _ => []) := by
  have hn : ∀ id, (registry k fun _ => []).region id = none := fun id => by
    rw [region_registry, h.1, Option.map_none]
  have he : ∀ id pid e, (registry k fun _ => []).entry id pid ≠ some e := fun id pid e he => by
    cases he
  constructor
  · intro id sh hr
    rw [hn] at hr
    cases hr
  · exact fun _ _ _ => rfl
  · exact h.2.2
  · exact fun id pid e h => absurd h (he id pid e)
  · exact fun id pid e h => absurd h (he id pid e)
  · exact fun id pid sh e _ h => absurd h (he id pid e)
  · exact fun id pid sh e d _ h => absurd h (he id pid e)
  · exact fun id id' pid e e' h => absurd h (he id pid e)

def usageSystem : System (Kernel × Uses) ShmemCall Fault where
  Init s := Booted s.1 ∧ s.2 = fun _ _ => 0
  Guard s c := c.Permitted s.1
  step s c := do
    let (k, a) ← c.exec s.1
    .ok (k, s.2.record c a)

def CountsRight (k : Kernel) (u : Uses) : Prop :=
  ∃ chain, Listed k chain ∧ ∀ id sh, k.table id = some sh → ∀ p ∈ chain id, ∀ v,
    k.infos p = some v → 0 ≤ v.usage ∧ v.usage = u id v.pid ∧ (0 ≤ v.virtualPages ↔ 0 < v.usage) ∧
    ∀ d, k.maps v.pid = some d →
      (Holds d v.virtualLocation sh.physicalPages.toNat sh.physicalLocation
        (convertPagingTypes (mapType v.flags)) ↔ 0 < v.usage)

theorem Mapped.countsRight {k : Kernel} {chain : ℤ → List ℕ} {u : Uses} (hl : Listed k chain)
    (hm : Mapped (registry k chain)) (hc : Counted (registry k chain) u) : CountsRight k u := by
  refine ⟨chain, hl, fun id sh ht p hp v hv => ?_⟩
  have he : (registry k chain).entry id v.pid = some v.entry := (hl.ordered id).entries_eq hp hv
  have hr : (registry k chain).region id = some sh.bare := by
    rw [region_registry, ht, Option.map_some]
  have hrange := hm.range id v.pid v.entry he
  have hpos := (hm.region id sh.bare hr).1
  have hcount := hc id v.pid
  rw [he] at hcount
  refine ⟨hrange.1, hcount.symm, ?_⟩
  rcases hrange.1.lt_or_eq with hu | hu
  · have hplaced := hm.placed id v.pid sh.bare v.entry hr he hu
    have hpages : v.virtualPages = sh.physicalPages := hplaced.pages
    have hpos : 0 < sh.physicalPages := hpos
    exact ⟨iff_of_true (by omega) hu, fun d hd =>
      iff_of_true (hm.held id v.pid sh.bare v.entry d hr he hu hd) hu⟩
  · obtain ⟨hloc, hpages⟩ := hm.idle id v.pid v.entry he hu.symm
    have hpages : v.virtualPages = -1 := hpages
    have hloc : v.virtualLocation = 0 := hloc
    have hu : v.usage = 0 := hu.symm
    refine ⟨iff_of_false (by omega) (by omega),
      fun d hd => iff_of_false (fun hheld => ?_) (by omega)⟩
    have hpos : 0 < sh.physicalPages := hpos
    have hw := hheld 0 (by omega)
    have hlarge : d.pde 0 = .large := (hm.split v.pid d hd 0 (by norm_num)).mpr (.inl (by norm_num))
    have hzero : d.word (v.virtualLocation / PAGE_SIZE + 0) = 0 := by
      rw [hloc, PageDirectory.word]
      simp [hlarge]
    have hp := present_entryWord (add32 sh.physicalLocation (0 * PAGE_SIZE))
      (convertPagingTypes (mapType v.flags))
    rw [← hw, hzero] at hp
    cases hp

theorem CountsRight.usage_nonneg {k : Kernel} {u : Uses} (h : CountsRight k u) {n : ℤ}
    (hn : usageOf k id pid = some n) : 0 ≤ n := by
  obtain ⟨chain, hl, hright⟩ := h
  rw [hl.usageOf, Option.map_eq_some_iff] at hn
  obtain ⟨e, he, rfl⟩ := hn
  obtain ⟨p, hp, v, hv, -, rfl⟩ := (hl.ordered id).entries_eq_some.mp he
  cases ht : k.table id with
  | none =>
    rw [hl.gone id ht] at hp
    cases hp
  | some sh => exact (hright id sh ht p hp v hv).1

theorem counted_run {s t : Kernel × Uses} {cs : List ShmemCall} (h₀ : usageSystem.Init s)
    (hr : (usageSystem.restrict fun s c => c.Careful s.1).Steps s cs t) :
    ∃ chain, Listed t.1 chain ∧ Mapped (registry t.1 chain) ∧ Counted (registry t.1 chain) t.2 := by
  apply hr.invariant (P := fun s => ∃ chain, Listed s.1 chain ∧ Mapped (registry s.1 chain) ∧
    Counted (registry s.1 chain) s.2)
  · rintro s c t ⟨chain, hl, hm, hu⟩ ⟨hg, hc⟩ ht
    obtain ⟨⟨k, a⟩, hk, ht⟩ := bind_eq_ok.mp ht
    cases ht
    obtain ⟨chain', hl', hs⟩ := hl.exec hg hk
    have hc := hl.carefulOn hc
    exact ⟨chain', hl', hm.step hg.1 hc hs, hu.step hm hc hs⟩
  · refine ⟨_, listed_init h₀.1.1 h₀.1.2.1, h₀.1.mapped, fun id pid => ?_⟩
    rw [h₀.2]
    rfl

/-- Two processes with nothing mapped, and no regions. -/
def twoProcesses : Kernel where
  table _ := none
  shmemId := 0
  infos _ := none
  maps pid := if pid = 1 ∨ pid = 2 then some (newPageDirectory 0x200000) else none
  interrupts := true
  freed := []

theorem twoProcesses_booted : Booted twoProcesses := by
  refine ⟨fun _ => rfl, rfl, fun pid d hd => ?_⟩
  simp only [twoProcesses] at hd
  split_ifs at hd
  cases hd
  exact split_new _

/-- Process 1 creates a region of one page at 1 MB. -/
def createPage : ShmemCall :=
  .createDirect true true (fun _ => 0) (fun _ => 1) 1 1 SHMEM_RDWR 0x100000 0

def grantTo (pid : ℤ) : ShmemCall := .grant (some 0x1000) 1 0 pid SHMEM_RDWR

def requestBy (pid : ℤ) : ShmemCall :=
  .request none (fun _ => 0) (fun _ => some 0x300000) pid 0

def releaseBy (pid : ℤ) : ShmemCall := .release (fun _ => 0) pid 0

theorem createPage_permitted (k : Kernel) : createPage.Permitted k :=
  ⟨⟨by decide, by decide⟩, fun p hp => by cases hp⟩

theorem requestBy_permitted (k : Kernel) (pid : ℤ) : (requestBy pid).Permitted k :=
  ⟨trivial, fun p hp => by cases hp⟩

theorem releaseBy_permitted (k : Kernel) (pid : ℤ) : (releaseBy pid).Permitted k :=
  ⟨trivial, fun p hp => by cases hp⟩

end Racoon.Sharing
