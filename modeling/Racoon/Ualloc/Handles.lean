import Racoon.Lib.Run
import Racoon.Ualloc.Ensuring
import Racoon.Ualloc.RegionCalls

/-!
# Handles to user memory

What `user_alloc` and `user_map` hand out is looked up later as a virtual address.
`user_map` hands out the address at which it has mapped the pages, and its record, the
page tables and the handle then agree until the region is freed, if there was room below
the ceiling and `kmalloc` had memory for the record; it answers `SMK_OK` as well where there
was none, and without a record the list of all regions is lost. `user_alloc` hands out the
physical address.
-/

namespace Racoon.Ualloc
open Lib Paging
open PhysicalMemory (Above memoryAlloc)
open Sharing (sK_BASE sK_CEILING walkBound)
open Env (SMK_OK)

/-- A pointer that was handed out, with the block of memory that it is for. -/
structure Handle where
  ptr : ℕ
  pages : ℕ
  phys : ℕ
  deriving DecidableEq

/-- The pages of the handle lie in the range of the user, were not mapped when the process set out
with `d₀`, are mapped to the block, and the handle is good for the calls that take one. -/
structure Handle.Good (d₀ : PageDirectory) (s : State) (h : Handle) : Prop where
  floor : sK_BASE ≤ h.ptr
  ceiling : h.ptr + h.pages * PAGE_SIZE ≤ sK_CEILING
  own : ∀ k < h.pages, d₀.lookup (h.ptr + k * PAGE_SIZE) = none
  mapped : ∀ k < h.pages, ∀ o < PAGE_SIZE,
    Paging.translate s.map (h.ptr + k * PAGE_SIZE + o) = some (add32 h.phys (k * PAGE_SIZE) + o)
  size : userSize s h.ptr = .ok (SMK_OK, some (h.pages * PAGE_SIZE))
  location : userLocation s h.ptr = .ok (SMK_OK, some h.phys)
  freed : ∀ memory, ∃ t, userFree s memory h.ptr = .ok (t, SMK_OK) ∧
    Unmaps s.map t.map h.ptr h.pages

def Handle.Apart (x y : Handle) : Prop :=
  x.ptr + x.pages * PAGE_SIZE ≤ y.ptr ∨ y.ptr + y.pages * PAGE_SIZE ≤ x.ptr

/-- The handles that have not been freed. -/
structure HandlesGood (d₀ : PageDirectory) (s : State) (hs : List Handle) : Prop where
  good : ∀ h ∈ hs, h.Good d₀ s
  apart : hs.Pairwise Handle.Apart

inductive Call
  | alloc (kmalloc : Option ℕ) (memory : ℕ → ℕ) (pages : ℕ)
  | map (kmalloc : Option ℕ) (memory : ℕ → ℕ) (ptr pages : ℕ)
  | free (memory : ℕ → ℕ) (ptr : ℕ)

/-- The block that `memory_alloc` gave last. -/
def State.block (s : State) : ℕ := (s.taken.head?.map Prod.fst).getD 0

def Call.exec (s : State) (hs : List Handle) : Call → Outcome (State × List Handle)
  | .alloc kmalloc memory pages => do
    let (s, rc, p) ← userAlloc s kmalloc memory pages
    .ok (s, if rc = SMK_OK then ⟨p.getD 0, pages, s.block⟩ :: hs else hs)
  | .map kmalloc memory ptr pages => do
    let (s, rc, p) ← userMap s kmalloc memory ptr pages
    .ok (s, if rc = SMK_OK then ⟨p.getD 0, pages, ptr⟩ :: hs else hs)
  | .free memory ptr => do
    let (s, rc) ← userFree s memory ptr
    .ok (s, if rc = SMK_OK then hs.eraseP fun h => h.ptr = ptr else hs)

/-- `kmalloc` returns memory that is not in use, and the arguments have 32 bits. -/
def Call.Permitted (s : State) : Call → Prop
  | .alloc kmalloc _ pages => (∀ p, kmalloc = some p → s.mems p = none ∧ p < walkBound) ∧
    pages < 2 ^ 32
  | .map kmalloc _ ptr pages => (∀ p, kmalloc = some p → s.mems p = none ∧ p < walkBound) ∧
    ptr < 2 ^ 32 ∧ pages < 2 ^ 32
  | .free _ _ => True

/-- A process as it is loaded: the records that `user_ensure` has left are for the address 0, and
their blocks are in use. -/
structure Loaded (s : State) (l : List (ℕ × Record)) : Prop where
  listed : Listed s.mems s.alloc l
  split : Split s.map
  zero : ∀ x ∈ l, x.2.virt = 0 ∧ x.2.pages ≤ 0x80000
  ledger : ∃ pm₀, pm₀.memoryOffset % PAGE_SIZE = 0 ∧ Above pm₀ ⟨s.pm, blocksOf l⟩

/-- Any run of the three functions, with the handles that were handed out. -/
def handleSystem : System (State × List Handle) Call Fault where
  Init s := (∃ l, Loaded s.1 l) ∧ s.2 = []
  Guard s c := c.Permitted s.1
  step s c := c.exec s.1 s.2

/-- From each page of the user's range on, one of so many pages is present. -/
def NoRoom (memory : ℕ → ℕ) (d : PageDirectory) (pages : ℕ) : Prop :=
  ∀ p, sK_BASE ≤ p * PAGE_SIZE → p * PAGE_SIZE < sK_CEILING →
    ∃ i < pages, pageEntryPresent memory d (add32 (p * PAGE_SIZE) (i * PAGE_SIZE)) = true

/-- The lowest free range of so many pages that the user's range has begins there. -/
def LowestFit (d : PageDirectory) (pages a : ℕ) : Prop :=
  FitsAt d sK_BASE sK_CEILING pages a ∧ ∀ b, FitsAt d sK_BASE sK_CEILING pages b → a ≤ b

/-- `user_alloc` fails, or its block has the very address that the region will have; `user_map`
refuses, or there is room in the user's range and memory for the record. -/
def Call.Safe (s : State) : Call → Prop
  | .alloc kmalloc memory pages => pages = 0 ∨ kmalloc = none ∨ NoRoom memory s.map pages ∨
    ∀ pm location, memoryAlloc s.pm pages = .ok (pm, location) → location ≠ 0 →
      LowestFit s.map pages location
  | .map kmalloc _ ptr pages => pages = 0 ∨ ptr % PAGE_SIZE ≠ 0 ∨
    kmalloc ≠ none ∧ ∃ a, FitsAt s.map sK_BASE sK_CEILING pages a
  | .free _ _ => True

/-! ### Records and handles -/

/-- The handle that a record stands for; what `user_ensure` has recorded has none. -/
def Record.handle (r : Record) : Option Handle :=
  if r.virt = 0 then none else some ⟨r.virt, r.pages, r.phys⟩

def handlesOf (l : List (ℕ × Record)) : List Handle := l.filterMap fun x => x.2.handle

/-- The records are those of the handles, and their regions lie below the ceiling. -/
structure Handled (d₀ : PageDirectory) (s : State) (hs : List Handle) (l : List (ℕ × Record)) :
    Prop where
  kept : ∃ pm₀ created tables, Kept pm₀ d₀ created s l tables
  below : ∀ x ∈ l, x.2.virt ≠ 0 → x.2.virt + x.2.pages * PAGE_SIZE ≤ sK_CEILING
  handles : hs = handlesOf l

section Steps
variable {d₀ : PageDirectory} {s t : State} {hs : List Handle} {l xs ys : List (ℕ × Record)}
  {memory : ℕ → ℕ} {r : Record} {q pages found : ℕ}

/-- Where a region is found there was room. -/
theorem NoRoom.not_found {d e : PageDirectory} (h : NoRoom memory d r.pages) (ha : Adds d e r) :
    pageFindFree memory d sK_BASE sK_CEILING r.pages ≠ .ok r.virt := by
  intro hfind
  obtain ⟨hlt, halign, hfree⟩ := findFreeFrom_eq (Nat.mul_mod_left _ _) hfind ha.mapped.virt_ne
  have hpage := page_of_aligned halign
  have hfloor := ha.mapped.user.floor
  have hbase : sK_BASE ≤ r.virt / PAGE_SIZE * PAGE_SIZE := by
    unfold sK_BASE
    unfold PAGE_SIZE at *
    omega
  obtain ⟨i, hi, hpres⟩ := h (r.virt / PAGE_SIZE) hbase (hpage ▸ hlt)
  rw [← hpage, hfree i hi] at hpres
  cases hpres

theorem handlesOf_cons (x : ℕ × Record) (l : List (ℕ × Record)) :
    handlesOf (x :: l) = x.2.handle.toList ++ handlesOf l := by
  rw [handlesOf, List.filterMap_cons]
  cases x.2.handle <;> rfl

theorem handle_of_ne (hv : r.virt ≠ 0) : r.handle = some ⟨r.virt, r.pages, r.phys⟩ := if_neg hv

theorem mem_handlesOf {h : Handle} : h ∈ handlesOf l ↔
    ∃ x ∈ l, x.2.virt ≠ 0 ∧ h = ⟨x.2.virt, x.2.pages, x.2.phys⟩ := by
  simp only [handlesOf, List.mem_filterMap, Record.handle]
  refine exists_congr fun x => and_congr_right fun _ => ?_
  split_ifs with hv
  · simp [hv]
  · simp [hv, eq_comm]

/-- A handle that is freed is that of the record that leaves the list. -/
theorem handlesOf_erase (hfirst : ∀ x ∈ xs, x.2.virt ≠ r.virt) :
    (handlesOf (xs ++ (q, r) :: ys)).eraseP (fun h => h.ptr = r.virt) = handlesOf (xs ++ ys) := by
  induction xs with
  | nil =>
    rw [List.nil_append, List.nil_append, handlesOf_cons]
    by_cases hv : r.virt = 0
    · rw [Record.handle, if_pos hv]
      refine List.eraseP_of_forall_not fun h hh => ?_
      obtain ⟨x, -, hx, rfl⟩ := mem_handlesOf.mp hh
      simpa [hv] using hx
    · rw [handle_of_ne hv]
      simp
  | cons x xs ih =>
    rw [List.cons_append, List.cons_append, handlesOf_cons, handlesOf_cons,
      ← ih fun y hy => hfirst y (List.mem_cons_of_mem x hy)]
    refine List.eraseP_append_right _ fun h hh => ?_
    have hx := hfirst x List.mem_cons_self
    rw [Record.handle] at hh
    split_ifs at hh with hv
    · cases hh
    · obtain rfl := Option.mem_toList.mp hh |> Option.some.inj
      simpa using hx

/-- Regions that share no page lie one after the other. -/
theorem apart_of_covers {d : PageDirectory} {x y : Record} (hx : x.Mapped d) (hy : y.Mapped d)
    (h : ∀ p, x.Covers p → ¬ y.Covers p) :
    Handle.Apart ⟨x.virt, x.pages, x.phys⟩ ⟨y.virt, y.pages, y.phys⟩ := by
  by_contra hn
  rw [Handle.Apart, not_or] at hn
  have hposx := hx.pos
  have hposy := hy.pos
  have halignx := hx.aligned
  have haligny := hy.aligned
  unfold PAGE_SIZE at *
  dsimp only at hn
  by_cases hle : x.virt ≤ y.virt
  · refine h (y.virt / PAGE_SIZE) ⟨hx.virt_ne, ?_, ?_⟩ ⟨hy.virt_ne, le_rfl, by omega⟩ <;>
      unfold PAGE_SIZE <;> omega
  · refine h (x.virt / PAGE_SIZE) ⟨hx.virt_ne, le_rfl, by omega⟩ ⟨hy.virt_ne, ?_, ?_⟩ <;>
      unfold PAGE_SIZE <;> omega

namespace Handled

theorem apart (h : Handled d₀ s hs l) : hs.Pairwise Handle.Apart := by
  obtain ⟨pm₀, created, tables, hkept⟩ := h.kept
  rw [h.handles, handlesOf, List.pairwise_filterMap]
  refine hkept.apart.imp_of_mem fun {x y} hx hy hxy a ha b hb => ?_
  rw [Record.handle] at ha hb
  split_ifs at ha hb with hvx hvy
  · cases ha
    cases hb
    exact apart_of_covers (hkept.mapped hx hvx) (hkept.mapped hy hvy) hxy

/-- The record with the address of a region is that of the region. -/
theorem find (h : Handled d₀ s hs l) {x : ℕ × Record} (hx : x ∈ l) (hv : x.2.virt ≠ 0) :
    l.find? (fun y => y.2.virt = x.2.virt) = some x := by
  obtain ⟨pm₀, created, tables, hkept⟩ := h.kept
  cases hfind : l.find? fun y => y.2.virt = x.2.virt with
  | none => simpa using List.find?_eq_none.mp hfind x hx
  | some y =>
    have hvirt : y.2.virt = x.2.virt := by simpa using List.find?_some hfind
    have hy := List.mem_of_find?_eq_some hfind
    by_contra hne
    have hsymm : Std.Symm fun x y : ℕ × Record => ∀ p, x.2.Covers p → ¬ y.2.Covers p :=
      ⟨fun _ _ hxy p hp hq => hxy p hq hp⟩
    have hxy := hkept.apart.forall hy hx fun he => hne (by rw [he])
    have hposx := (hkept.mapped hx hv).pos
    have hposy := (hkept.mapped hy (hvirt ▸ hv)).pos
    refine hxy (x.2.virt / PAGE_SIZE) ⟨hvirt ▸ hv, (congrArg (· / PAGE_SIZE) hvirt).le, ?_⟩
      ⟨hv, le_rfl, by omega⟩
    rw [hvirt]
    omega

theorem good (h : Handled d₀ s hs l) (h₀ : UserTables d₀) : HandlesGood d₀ s hs := by
  refine ⟨fun a ha => ?_, h.apart⟩
  rw [h.handles, mem_handlesOf] at ha
  obtain ⟨x, hx, hv, rfl⟩ := ha
  obtain ⟨pm₀, created, tables, hkept⟩ := h.kept
  have hm := hkept.mapped hx hv
  have hfloor := hm.user.floor
  have hceil := hm.user.ceiling
  have hpage := page_of_aligned hm.aligned
  have hfind := h.find hx hv
  obtain ⟨v, hv', hr⟩ := hkept.listed.alive x hx
  have hload : s.find x.2.virt = .ok (some x.1) := by
    rw [find_eq hkept.listed, hfind]
    rfl
  refine ⟨?_, h.below x hx hv, fun k hk => ?_, fun k hk o ho => ?_, ?_, ?_, fun memory => ?_⟩
  · dsimp only
    rw [hpage]
    unfold sK_BASE PAGE_SIZE
    unfold PAGE_SIZE at hfloor
    omega
  · dsimp only at hk ⊢
    have hlook := lookup_user h₀ (p := x.2.virt / PAGE_SIZE + k) (by omega)
      (by decide : 0 < PAGE_SIZE)
    rw [hkept.new _ (hkept.known x hx _ (hm.covers hk)), if_neg (by decide), Nat.add_mul, ← hpage,
      Nat.add_zero] at hlook
    exact hlook
  · dsimp only at hk ⊢
    have haligned : frameOf (add32 x.2.phys (k * PAGE_SIZE)) = add32 x.2.phys (k * PAGE_SIZE) :=
      (page_of_aligned (add32_aligned hm.phys (Nat.mul_mod_left _ _))).symm
    have htrans := translate_user (by omega) ho (hm.present (hm.covers hk))
    rwa [hm.word k hk, frameOf_entryWord _ (convertPagingTypes_lt userType), haligned, Nat.add_mul,
      ← hpage] at htrans
  · have hpages : x.2.pages * PAGE_SIZE % 2 ^ 32 = x.2.pages * PAGE_SIZE := by
      unfold PAGE_SIZE
      omega
    rw [userSize, hload, ok_bind]
    dsimp only
    rw [load_some hv', ok_bind, ← hpages, ← hr]
  · rw [userLocation, hload, ok_bind]
    dsimp only
    rw [load_some hv', ok_bind, ← hr]
  · obtain ⟨-, xs, ys, hl, hfirst⟩ := List.find?_eq_some_iff_append.mp hfind
    obtain ⟨t, hrun, hun, -⟩ := hkept.free_mapped (q := x.1) (r := x.2) hl
      (fun y hy => by simpa using hfirst y hy) hv memory
    exact ⟨t, hrun, hun⟩

theorem add (h : Handled d₀ s hs l) (hv : r.virt ≠ 0)
    (hbelow : r.virt + r.pages * PAGE_SIZE ≤ sK_CEILING)
    (hkept : ∃ pm₀ created tables, Kept pm₀ d₀ created t ((q, r) :: l) tables) :
    Handled d₀ t (⟨r.virt, r.pages, r.phys⟩ :: hs) ((q, r) :: l) := by
  refine ⟨hkept, fun x hx hne => ?_, ?_⟩
  · rcases List.mem_cons.mp hx with rfl | hx
    · exact hbelow
    · exact h.below x hx hne
  · rw [handlesOf_cons, handle_of_ne hv, h.handles]
    rfl

/-- A fit that is there is found, and lies below the ceiling. -/
theorem found_fit {a : ℕ} (h : Handled d₀ s hs l) (hpages : pages ≠ 0)
    (hfit : FitsAt s.map sK_BASE sK_CEILING pages a)
    (hfind : pageFindFree memory s.map sK_BASE sK_CEILING pages = .ok found) :
    found ≠ 0 ∧ found ≤ a ∧ FitsAt s.map sK_BASE sK_CEILING pages found := by
  obtain ⟨pm₀, created, tables, hkept⟩ := h.kept
  obtain ⟨location, hfirst⟩ := findsFirst_of_fit memory hkept.split.userTables (by decide)
    (by decide) (Nat.pos_of_ne_zero hpages) ⟨a, hfit⟩
  have hreturns := hfirst.returns
  rw [hfind] at hreturns
  cases hreturns
  obtain ⟨hne, hle⟩ := hfirst.lowest a hfit
  exact ⟨hne, hle, hfirst.fits hne⟩

theorem step {c : Call} {hs' : List Handle} (h : Handled d₀ s hs l) (hc : c.Permitted s)
    (hsafe : c.Safe s) (he : c.exec s hs = .ok (t, hs')) : ∃ l', Handled d₀ t hs' l' := by
  obtain ⟨pm₀, created, tables, hkept⟩ := h.kept
  cases c with
  | alloc kmalloc memory pages =>
    obtain ⟨⟨s₁, rc, answer⟩, hrun, he⟩ := bind_eq_ok.mp he
    cases he
    obtain ⟨hrc, -, hkept', -⟩ | ⟨q, location, found, rfl, rfl, rfl, hpages, hfind, hblock,
      ⟨pm₁, halloc⟩, hz, hadds, ⟨tables', hkept'⟩, -⟩ := hkept.userAlloc hc.1 hc.2 hrun
    · rw [if_neg hrc]
      exact ⟨l, ⟨pm₀, created, tables, hkept'⟩, h.below, h.handles⟩
    · rcases hsafe with hp | hk | hroom | hlow
      · exact absurd hp hpages
      · cases hk
      · exact (hroom.not_found hadds hfind).elim
      · obtain ⟨hfit, hleast⟩ := hlow pm₁ location halloc hz
        obtain ⟨hne, hle, hfits⟩ := h.found_fit hpages hfit hfind
        obtain rfl : found = location := le_antisymm hle (hleast found hfits)
        rw [if_pos rfl, State.block, hblock]
        exact ⟨_, h.add hne hfits.ceiling ⟨pm₀, _, tables', hkept'⟩⟩
  | map kmalloc memory ptr pages =>
    obtain ⟨⟨s₁, rc, answer⟩, hrun, he⟩ := bind_eq_ok.mp he
    cases he
    obtain ⟨rfl, ⟨hrc, -⟩ | ⟨hpages, halign, hfind⟩⟩ | ⟨found, rfl, rfl, hpages, hfind, hadds,
      hrecord⟩ := hkept.userMap hc.1 hc.2.1 hc.2.2 hrun
    · rw [if_neg hrc]
      exact ⟨l, h⟩
    · rcases hsafe with hp | hp | ⟨-, a, hfit⟩
      · exact absurd hp hpages
      · exact absurd halign hp
      · exact absurd rfl (h.found_fit hpages hfit hfind).1
    · rcases hsafe with hp | hp | ⟨hsome, a, hfit⟩
      · exact absurd hp hpages
      · exact absurd (hadds.mapped.phys) hp
      · obtain ⟨q, hq⟩ := Option.ne_none_iff_exists'.mp hsome
        obtain ⟨tables', hkept'⟩ := hrecord q hq
        obtain ⟨hne, -, hfits⟩ := h.found_fit hpages hfit hfind
        rw [if_pos rfl]
        exact ⟨_, h.add hne hfits.ceiling ⟨pm₀, _, tables', hkept'⟩⟩
  | free memory ptr =>
    obtain ⟨⟨s₁, rc⟩, hrun, he⟩ := bind_eq_ok.mp he
    cases he
    obtain ⟨hrc, rfl, -⟩ | ⟨xs, q, r, ys, rfl, rfl, hfirst, rfl, -, hkept', -⟩ :=
      hkept.userFree hrun
    · rw [if_neg hrc]
      exact ⟨l, h⟩
    · rw [if_pos rfl, h.handles, handlesOf_erase hfirst]
      refine ⟨xs ++ ys, ⟨pm₀, created, tables, hkept'⟩, fun x hx => h.below x ?_, rfl⟩
      exact List.perm_middle.mem_iff.mpr (List.mem_cons_of_mem _ hx)

end Handled

theorem Loaded.handled {l : List (ℕ × Record)} (h : Loaded s l) : Handled s.map s [] l := by
  obtain ⟨pm₀, halign, hledger⟩ := h.ledger
  have hcovers : ∀ x ∈ l, ∀ p, ¬ x.2.Covers p := fun x hx p =>
    Record.not_covers_of_zero (h.zero x hx).1 p
  refine ⟨⟨pm₀, ∅, [], h.listed, h.split, fun x hx => .inl (h.zero x hx), ?_, ?_, by simp, ?_, ?_,
    halign⟩, ?_, ?_⟩
  · exact List.pairwise_of_forall_mem_list fun x hx y _ p hp => absurd hp (hcovers x hx p)
  · exact fun x hx p hp => absurd hp (hcovers x hx p)
  · exact fun p _ => .inl rfl
  · exact ⟨by rwa [List.append_nil], by simp, fun _ hi => hi⟩
  · exact fun x hx hv => absurd (h.zero x hx).1 hv
  · refine (List.eq_nil_iff_forall_not_mem.mpr fun a ha => ?_).symm
    obtain ⟨x, hx, hv, -⟩ := mem_handlesOf.mp ha
    exact hv (h.zero x hx).1

end Steps

theorem loaded_newProcess : Loaded newProcess [] :=
  ⟨listed_nil _, split_new 0, by simp, PhysicalMemory.eightPages 0, by decide,
    .start (PhysicalMemory.eightPages_counted 0)⟩

end Racoon.Ualloc
