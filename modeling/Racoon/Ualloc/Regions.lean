import Racoon.Mm.PhysmemPages
import Racoon.Mm.PhysmemLedger
import Racoon.Paging.Locality
import Racoon.Ualloc.Growth
import Racoon.Ualloc.Records

/-!
# The regions of a process

A record of `user_alloc` or `user_map` says where a region is mapped, and to what. What
the four functions keep is that the regions are mapped as their records say, do not
overlap, and take up pages that were free in the directory `d₀` from which the process
set out. The blocks of the records that `user_free` gives back and the page tables made
for them are all the physical pages in use above those of `pm₀`.
-/

namespace Racoon.Ualloc
open Lib Paging
open PhysicalMemory (Physmem Above memoryAlloc)
open Sharing (sK_BASE sK_CEILING walkBound)
open Env (SMK_OK SMK_NOMEM SMK_NOT_FOUND SMK_REQUESTED_NOTHING)

/-- The page belongs to the region of the record. What `user_ensure` records has none. -/
def Record.Covers (r : Record) (p : ℕ) : Prop :=
  r.virt ≠ 0 ∧ r.virt / PAGE_SIZE ≤ p ∧ p < r.virt / PAGE_SIZE + r.pages

/-- The region is mapped as its record says. -/
structure Record.Mapped (d : PageDirectory) (r : Record) : Prop where
  aligned : r.virt % PAGE_SIZE = 0
  user : UserPages (r.virt / PAGE_SIZE) r.pages
  pos : 0 < r.pages
  phys : r.phys % PAGE_SIZE = 0
  word : ∀ k < r.pages, d.word (r.virt / PAGE_SIZE + k) =
    entryWord (add32 r.phys (k * PAGE_SIZE)) (convertPagingTypes userType)

/-- The block that `user_free` gives back. -/
def Record.block (r : Record) : PhysicalMemory.Block := (r.phys, r.pages)

def blocksOf (l : List (ℕ × Record)) : List PhysicalMemory.Block :=
  (l.filter fun x => x.2.released).map fun x => x.2.block

/-- The page of a table that was not there in `d₀`. -/
def TablePage (d₀ d : PageDirectory) (x : PhysicalMemory.Block) : Prop :=
  x.2 = 1 ∧ ∃ i t, d.pde i = .table t ∧ t.frame = x.1 ∧ d₀.pde i = .absent

/-- The directory differs from `d₀` in tables, to each of which belongs a page. -/
structure Tabled (pm₀ pm : Physmem) (d₀ d : PageDirectory)
    (held tables : List PhysicalMemory.Block) : Prop where
  ledger : Above pm₀ ⟨pm, held ++ tables⟩
  table : ∀ x ∈ tables, TablePage d₀ d x
  absent : ∀ i, d.pde i = .absent → d₀.pde i = .absent

/-- The state of a process with these records, when the pages `created` have been mapped since. -/
structure Kept (pm₀ : Physmem) (d₀ : PageDirectory) (created : Set ℕ) (s : State)
    (l : List (ℕ × Record)) (tables : List PhysicalMemory.Block) : Prop where
  listed : Listed s.mems s.alloc l
  split : Split s.map
  kinds : ∀ x ∈ l, x.2.virt = 0 ∧ x.2.pages ≤ 0x80000 ∨ x.2.Mapped s.map
  apart : l.Pairwise fun x y => ∀ p, x.2.Covers p → ¬ y.2.Covers p
  known : ∀ x ∈ l, ∀ p, x.2.Covers p → p ∈ created
  new : ∀ p ∈ created, present (d₀.word p) = false
  others : ∀ p, (∀ x ∈ l, ¬ x.2.Covers p) → s.map.word p = d₀.word p ∨
    p ∈ created ∧ present (s.map.word p) = false
  tabled : Tabled pm₀ s.pm d₀ s.map (blocksOf l) tables
  aligned : pm₀.memoryOffset % PAGE_SIZE = 0

section Tables
variable {pm₀ pm pm' : Physmem} {d₀ d e : PageDirectory} {held tables : List PhysicalMemory.Block}
  {memory : ℕ → ℕ} {flags a : ℕ}

/-- Writing an entry leaves the tables where they are. -/
theorem setEntry_frame {word i : ℕ} (h : d.setEntry a word = .ok e) :
    (e.pde i = .absent ↔ d.pde i = .absent) ∧
      ∀ t, d.pde i = .table t → ∃ t', e.pde i = .table t' ∧ t'.frame = t.frame := by
  rw [PageDirectory.setEntry] at h
  cases hp : d.pde (pageTableOf a) with
  | absent =>
    rw [hp] at h
    cases h
  | large =>
    rw [hp] at h
    cases h
  | table t =>
    rw [hp] at h
    cases h
    by_cases hi : i = pageTableOf a
    · subst hi
      simp [PageDirectory.setPde, hp]
    · simp only [PageDirectory.setPde, Function.update_of_ne hi, true_and]
      exact fun t ht => ⟨t, ht, rfl⟩

theorem Tabled.setEntry {word : ℕ} (h : Tabled pm₀ pm d₀ d held tables)
    (he : d.setEntry a word = .ok e) : Tabled pm₀ pm d₀ e held tables where
  ledger := h.ledger
  table x hx := by
    obtain ⟨hone, i, t, ht, hframe, habsent⟩ := h.table x hx
    obtain ⟨t', ht', hframe'⟩ := (setEntry_frame he).2 t ht
    exact ⟨hone, i, t', ht', hframe'.trans hframe, habsent⟩
  absent i hi := h.absent i ((setEntry_frame he).1.mp hi)

/-- A table that is made has a page of its own. -/
theorem Tabled.ensureTable (h : Tabled pm₀ pm d₀ d held tables)
    (he : Sharing.Locked.ensureTable flags pm d a = .ok (pm', e)) :
    ∃ tables', Tabled pm₀ pm' d₀ e held tables' := by
  obtain ⟨-, rfl, rfl⟩ | ⟨hpde, table, hz, halloc, rfl⟩ := ensureTable_cases he
  · exact ⟨tables, h⟩
  · have hledger := h.ledger.alloc le_rfl halloc
    rw [if_neg hz] at hledger
    have hother : ∀ i t, d.pde i = .table t → i ≠ pageTableOf a := by
      rintro i t ht rfl
      rw [hpde] at ht
      cases ht
    refine ⟨(table, 1) :: tables, hledger.perm List.perm_middle.symm, fun x hx => ?_,
      fun i hi => ?_⟩
    · rcases List.mem_cons.mp hx with rfl | hx
      · exact ⟨rfl, _, _, Function.update_self .., rfl, h.absent _ hpde⟩
      · obtain ⟨hone, i, t, ht, hframe, habsent⟩ := h.table x hx
        exact ⟨hone, i, t, (Function.update_of_ne (hother i t ht) ..).trans ht, hframe, habsent⟩
    · by_cases hia : i = pageTableOf a
      · subst hia
        simp [PageDirectory.setPde] at hi
      · exact h.absent i ((Function.update_of_ne hia ..).symm.trans hi)

theorem Tabled.directMapFrom {left phys index : ℕ} (h : Tabled pm₀ pm d₀ d held tables)
    (he : Sharing.Locked.directMapFrom flags left phys index pm d = .ok (pm', e)) :
    ∃ tables', Tabled pm₀ pm' d₀ e held tables' := by
  induction left generalizing phys index pm d tables with
  | zero =>
    cases he
    exact ⟨tables, h⟩
  | succ left ih =>
    obtain ⟨⟨pm₁, d₁⟩, htable, he⟩ := bind_eq_ok.mp he
    obtain ⟨d₂, hset, he⟩ := bind_eq_ok.mp he
    obtain ⟨tables₁, h₁⟩ := h.ensureTable htable
    exact ih (h₁.setEntry hset) he

theorem Tabled.pageProvide {physical start finish pages type location : ℕ}
    (h : Tabled pm₀ pm d₀ d held tables)
    (he : Sharing.Locked.pageProvide memory pm d physical start finish pages type =
      .ok (pm', e, location)) :
    (location = 0 → pm' = pm) ∧ ∃ tables', (location = 0 → tables' = tables) ∧
      Tabled pm₀ pm' d₀ e held tables' := by
  obtain ⟨found, -, he⟩ := bind_eq_ok.mp he
  by_cases hz : found = 0
  · rw [if_pos hz] at he
    cases he
    exact ⟨fun _ => rfl, tables, fun _ => rfl, h⟩
  · rw [if_neg hz] at he
    obtain ⟨⟨pm₁, d₁⟩, hmap, he⟩ := bind_eq_ok.mp he
    cases he
    obtain ⟨tables', h'⟩ := h.directMapFrom hmap
    exact ⟨fun h0 => absurd h0 hz, tables', fun h0 => absurd h0 hz, h'⟩

theorem Tabled.releaseFrom {left index : ℕ} (h : Tabled pm₀ pm d₀ d held tables)
    (he : releaseFrom memory left index d = .ok e) : Tabled pm₀ pm d₀ e held tables := by
  induction left generalizing index d with
  | zero =>
    cases he
    exact h
  | succ left ih =>
    obtain ⟨d₁, hclear, he⟩ := bind_eq_ok.mp he
    refine ih ?_ he
    rw [clearEntry] at hclear
    by_cases hp : pageEntryPresent memory d index = true
    · rw [if_pos hp] at hclear
      exact h.setEntry hclear
    · rw [if_neg hp] at hclear
      cases hclear
      exact h

end Tables

/-! ### A region comes and goes -/

/-- The region of the record is mapped where there was nothing. -/
structure Adds (d e : PageDirectory) (r : Record) : Prop where
  split : Split e
  mapped : r.Mapped e
  free : ∀ p, r.Covers p → present (d.word p) = false
  others : ∀ p, ¬ r.Covers p → e.word p = d.word p

/-- The region is unmapped. -/
structure Removes (d e : PageDirectory) (r : Record) : Prop where
  split : Split e
  gone : ∀ p, r.Covers p → present (e.word p) = false
  others : ∀ p, ¬ r.Covers p → e.word p = d.word p

section Regions
variable {pm₀ pm pm' : Physmem} {d₀ d e : PageDirectory} {created : Set ℕ} {s t : State}
  {l xs ys : List (ℕ × Record)} {tables tables' : List PhysicalMemory.Block} {memory : ℕ → ℕ}
  {r : Record} {p : ℕ}

/-- A region of the user does not begin at 0. -/
theorem Record.Mapped.virt_ne (h : r.Mapped d) : r.virt ≠ 0 := by
  intro hz
  have hfloor := h.user.floor
  rw [hz, Nat.zero_div] at hfloor
  omega

theorem Record.Mapped.covers (h : r.Mapped d) {k : ℕ} (hk : k < r.pages) :
    r.Covers (r.virt / PAGE_SIZE + k) :=
  ⟨h.virt_ne, Nat.le_add_right _ _, Nat.add_lt_add_left hk _⟩

theorem Record.Mapped.present (h : r.Mapped d) (hp : r.Covers p) : present (d.word p) = true := by
  obtain ⟨-, hle, hlt⟩ := hp
  have hword := h.word (p - r.virt / PAGE_SIZE) (by omega)
  rw [Nat.add_sub_cancel' hle] at hword
  rw [hword]
  exact present_entryWord _ _

theorem Record.Mapped.congr (h : r.Mapped d) (he : ∀ p, r.Covers p → e.word p = d.word p) :
    r.Mapped e where
  aligned := h.aligned
  user := h.user
  pos := h.pos
  phys := h.phys
  word k hk := (he _ (h.covers hk)).trans (h.word k hk)

theorem Record.not_covers_of_zero (h : r.virt = 0) (p : ℕ) : ¬ r.Covers p := fun hp => hp.1 h

namespace Kept

theorem mapped (h : Kept pm₀ d₀ created s l tables) {x : ℕ × Record} (hx : x ∈ l)
    (hv : x.2.virt ≠ 0) : x.2.Mapped s.map :=
  (h.kinds x hx).resolve_left fun hz => hv hz.1

theorem present (h : Kept pm₀ d₀ created s l tables) {x : ℕ × Record} (hx : x ∈ l)
    (hp : x.2.Covers p) : Paging.present (s.map.word p) = true :=
  (h.mapped hx hp.1).present hp

/-- A new record is at the head of the list. -/
theorem add (h : Kept pm₀ d₀ created s l tables) {q : ℕ} (ha : Adds s.map t.map r)
    (hl : Listed t.mems t.alloc ((q, r) :: l))
    (ht : Tabled pm₀ t.pm d₀ t.map (blocksOf ((q, r) :: l)) tables') :
    Kept pm₀ d₀ (created ∪ {p | r.Covers p}) t ((q, r) :: l) tables' := by
  have hapart : ∀ x ∈ l, ∀ p, r.Covers p → ¬ x.2.Covers p := by
    intro x hx p hp hxp
    have hpres := h.present hx hxp
    rw [ha.free p hp] at hpres
    cases hpres
  refine ⟨hl, ha.split, ?_, List.pairwise_cons.mpr ⟨hapart, h.apart⟩, ?_, ?_, ?_, ht,
    h.aligned⟩
  · intro x hx
    rcases List.mem_cons.mp hx with rfl | hx
    · exact .inr ha.mapped
    · refine (h.kinds x hx).imp_right fun hm => hm.congr fun p hp => ha.others p fun hr => ?_
      exact hapart x hx p hr hp
  · intro x hx p hp
    rcases List.mem_cons.mp hx with rfl | hx
    · exact .inr hp
    · exact .inl (h.known x hx p hp)
  · rintro p (hp | hp)
    · exact h.new p hp
    · rcases h.others p fun y hy => hapart y hy p hp with hword | ⟨hmem, -⟩
      · rw [← hword, ha.free p hp]
      · exact h.new p hmem
  · intro p hp
    rw [ha.others p (hp (q, r) List.mem_cons_self)]
    exact (h.others p fun x hx => hp x (List.mem_cons_of_mem _ hx)).imp_right (And.imp_left .inl)

/-- The region of a record is no other's. -/
theorem apart_mid {q : ℕ} (h : Kept pm₀ d₀ created s l tables) (hl : l = xs ++ (q, r) :: ys) :
    (xs ++ ys).Pairwise (fun x y => ∀ p, x.2.Covers p → ¬ y.2.Covers p) ∧
      ∀ x ∈ xs ++ ys, ∀ p, r.Covers p → ¬ x.2.Covers p := by
  have hpair := h.apart
  rw [hl, List.perm_middle.pairwise_iff fun hxy p hy hx => hxy p hx hy] at hpair
  obtain ⟨hr, hrest⟩ := List.pairwise_cons.mp hpair
  exact ⟨hrest, hr⟩

/-- A record leaves the list. -/
theorem remove {q : ℕ} (h : Kept pm₀ d₀ created s l tables) (hl : l = xs ++ (q, r) :: ys)
    (hr : Removes s.map t.map r) (hlist : Listed t.mems t.alloc (xs ++ ys))
    (ht : Tabled pm₀ t.pm d₀ t.map (blocksOf (xs ++ ys)) tables') :
    Kept pm₀ d₀ created t (xs ++ ys) tables' := by
  obtain ⟨hpair, hapart⟩ := h.apart_mid hl
  have hsub : ∀ x ∈ xs ++ ys, x ∈ l := by
    intro x hx
    rw [hl]
    exact List.perm_middle.mem_iff.mpr (List.mem_cons_of_mem _ hx)
  refine ⟨hlist, hr.split, fun x hx => ?_, hpair, fun x hx => h.known x (hsub x hx), h.new,
    fun p hp => ?_, ht, h.aligned⟩
  · refine (h.kinds x (hsub x hx)).imp_right fun hm => hm.congr fun p hp => hr.others p fun hc => ?_
    exact hapart x hx p hc hp
  · by_cases hc : r.Covers p
    · have hmem : (q, r) ∈ l := by
        rw [hl]
        exact List.mem_append_right _ List.mem_cons_self
      exact .inr ⟨h.known _ hmem p hc, hr.gone p hc⟩
    · rw [hr.others p hc]
      refine h.others p fun x hx => ?_
      rw [hl, List.perm_middle.mem_iff] at hx
      rcases List.mem_cons.mp hx with rfl | hx
      · exact hc
      · exact hp x hx

end Kept

end Regions

end Racoon.Ualloc
