import Racoon.Ualloc.Handles

/-!
# What a process gives back

`user_release_all` frees the regions of a process one after another. What `user_alloc`
has made is then gone without a trace but for page tables. The record of a region of
`user_map` is not freed with it, and of what `user_ensure` has made the frames are not,
since its records are for the address 0.
-/

namespace Racoon.Ualloc.Return
open Lib Paging
open PhysicalMemory (Physmem Above Covers)
open Sharing (sK_BASE sK_CEILING walkBound)
open Env (SMK_OK)

inductive Call
  | alloc (kmalloc : Option ℕ) (memory : ℕ → ℕ) (pages : ℕ)
  | map (kmalloc : Option ℕ) (memory : ℕ → ℕ) (ptr pages : ℕ)
  | free (memory : ℕ → ℕ) (ptr : ℕ)
  | ensure (kmalloc : ℕ → Option ℕ) (memory : ℕ → ℕ) (ptr pages : ℕ)

def Call.exec (s : State) : Call → Outcome State
  | .alloc kmalloc memory pages => do
    let (s, _) ← userAlloc s kmalloc memory pages
    .ok s
  | .map kmalloc memory ptr pages => do
    let (s, _) ← userMap s kmalloc memory ptr pages
    .ok s
  | .free memory ptr => do
    let (s, _) ← userFree s memory ptr
    .ok s
  | .ensure kmalloc memory ptr pages => do
    let (s, _) ← userEnsure s kmalloc memory ptr pages
    .ok s

/-- `kmalloc` returns memory that is not in use, and the arguments have 32 bits. -/
def Call.Permitted (s : State) : Call → Prop
  | .alloc kmalloc _ pages => (∀ p, kmalloc = some p → s.mems p = none ∧ p < walkBound) ∧
    pages < 2 ^ 32
  | .map kmalloc _ ptr pages => (∀ p, kmalloc = some p → s.mems p = none ∧ p < walkBound) ∧
    ptr < 2 ^ 32 ∧ pages < 2 ^ 32
  | .free _ _ => True
  | .ensure kmalloc _ ptr pages => (∀ a p, kmalloc a = some p → s.mems p = none ∧ p < walkBound) ∧
    ptr < 2 ^ 32 ∧ pages < 2 ^ 32

/-- A process without regions, before anything is logged. -/
structure Fresh (s : State) : Prop where
  alloc : s.alloc = none
  split : Split s.map
  counted : s.pm.Counted
  aligned : s.pm.memoryOffset % PAGE_SIZE = 0
  taken : s.taken = []
  freed : s.freed = []
  kmalloced : s.kmalloced = []
  kfreed : s.kfreed = []

/-- The pages that are mapped in `e` but not in `d`. -/
def mappedIn (d e : PageDirectory) : Set ℕ :=
  {p | present (d.word p) = false ∧ present (e.word p) = true}

/-- Any run of the four functions, with the pages that have been mapped in it. -/
def memorySystem : System (State × Set ℕ) Call Fault where
  Init s := Fresh s.1 ∧ s.2 = ∅
  Guard s c := c.Permitted s.1
  step s c := do
    let t ← c.exec s.1
    .ok (t, s.2 ∪ mappedIn s.1.map t.map)

/-- What there is of the memory of the process when all of it is released: the pages in use are
those of before and page tables, what was allocated has been freed, once, and the pages mapped in
the run are mapped no longer, where no other entry has changed. -/
structure Returned (s : State) (created : Set ℕ) (t : State) : Prop where
  tables : ∃ tables : List PhysicalMemory.Block, (∀ x ∈ tables, TablePage s.map t.map x) ∧
    ∀ b, t.pm.isSet b = true ↔ s.pm.isSet b = true ∨ ∃ x ∈ tables, Covers s.pm x b
  records : t.kfreed.Perm t.kmalloced
  blocks : t.freed.Perm t.taken
  unmapped : ∀ p ∈ created, present (t.map.word p) = false
  entries : ∀ p, p ∉ created → t.map.word p = s.map.word p
  large : ∀ i < 1024, t.map.pde i = .large ↔ s.map.pde i = .large

/-- `user_release_all` returns, and everything has been given back. -/
def GivesBack (s₀ : State) (s : State × Set ℕ) : Prop :=
  ∀ memory, ∃ t, userReleaseAll s.1 memory = .ok (t, 0) ∧ Returned s₀ s.2 t

/-- `user_map` is refused or finds no room, and `user_ensure` finds that all pages are present. -/
def Call.Safe (s : State) : Call → Prop
  | .alloc _ _ _ => True
  | .map _ memory ptr pages => pages = 0 ∨ ptr % PAGE_SIZE ≠ 0 ∨ NoRoom memory s.map pages
  | .free _ _ => True
  | .ensure _ memory ptr pages => ∀ i < pages,
    ptr + i * PAGE_SIZE < add32 ptr (pages * PAGE_SIZE) →
      pagePresent memory s.map (pageAt ptr i) = true

/-- The records are all for blocks that are given back, and nothing else was allocated. -/
structure Balanced (s₀ : State) (created : Set ℕ) (s : State) (l : List (ℕ × Record))
    (tables : List PhysicalMemory.Block) : Prop where
  kept : Kept s₀.pm s₀.map created s l tables
  logged : Logged s l
  released : ∀ x ∈ l, x.2.virt ≠ 0 ∧ x.2.released = true

section Steps
variable {s₀ s t : State} {created : Set ℕ} {l : List (ℕ × Record)}
  {tables : List PhysicalMemory.Block} {r : Record} {d e : PageDirectory}

theorem mappedIn_adds (h : Adds d e r) : mappedIn d e = {p | r.Covers p} := by
  ext p
  constructor
  · rintro ⟨hnone, hpres⟩
    by_contra hp
    rw [h.others p hp, hnone] at hpres
    cases hpres
  · exact fun hp => ⟨h.free p hp, h.mapped.present hp⟩

theorem mappedIn_removes (h : Removes d e r) : mappedIn d e = ∅ := by
  refine Set.eq_empty_iff_forall_notMem.mpr ?_
  rintro p ⟨hnone, hpres⟩
  by_cases hp : r.Covers p
  · rw [h.gone p hp] at hpres
    cases hpres
  · rw [h.others p hp, hnone] at hpres
    cases hpres

theorem mappedIn_self (d : PageDirectory) : mappedIn d d = ∅ := by
  refine Set.eq_empty_iff_forall_notMem.mpr ?_
  rintro p ⟨hnone, hpres⟩
  rw [hnone] at hpres
  cases hpres

theorem Fresh.balanced (h : Fresh s) : Balanced s ∅ s [] [] := by
  have hlist : Listed s.mems s.alloc [] := by
    rw [h.alloc]
    exact listed_nil s.mems
  refine ⟨⟨hlist, h.split, by simp, List.Pairwise.nil, by simp, by simp, fun p _ => .inl rfl,
    ⟨.start h.counted, by simp, fun _ hi => hi⟩, h.aligned⟩, ⟨?_, ?_⟩, by simp⟩
  · rw [h.kmalloced, h.kfreed, List.map_nil, List.append_nil]
  · rw [h.taken, h.freed]
    exact List.Perm.refl []

namespace Balanced

/-- A call that does not change the map makes no pages. -/
theorem same (h : Balanced s₀ created s l tables) (hmap : t.map = s.map)
    (hkept : Kept s₀.pm s₀.map created t l tables) (hlog : Logged t l) :
    ∃ l' tables', Balanced s₀ (created ∪ mappedIn s.map t.map) t l' tables' := by
  rw [hmap, mappedIn_self, Set.union_empty]
  exact ⟨l, tables, hkept, hlog, h.released⟩

theorem step {c : Call} (h : Balanced s₀ created s l tables) (hc : c.Permitted s)
    (hsafe : c.Safe s) (he : c.exec s = .ok t) :
    ∃ l' tables', Balanced s₀ (created ∪ mappedIn s.map t.map) t l' tables' := by
  cases c with
  | alloc kmalloc memory pages =>
    obtain ⟨⟨s₁, rc, answer⟩, hrun, he⟩ := bind_eq_ok.mp he
    cases he
    obtain ⟨-, hmap, hkept, hlog⟩ | ⟨q, location, found, -, -, -, -, -, -, -, -, hadds,
      ⟨tables', hkept⟩, hlog⟩ := h.kept.userAlloc hc.1 hc.2 hrun
    · exact h.same hmap hkept (hlog h.logged)
    · rw [mappedIn_adds hadds]
      refine ⟨_, tables', hkept, hlog h.logged, fun x hx => ?_⟩
      rcases List.mem_cons.mp hx with rfl | hx
      · exact ⟨hadds.mapped.virt_ne, released_alloc pages location found⟩
      · exact h.released x hx
  | map kmalloc memory ptr pages =>
    obtain ⟨⟨s₁, rc, answer⟩, hrun, he⟩ := bind_eq_ok.mp he
    cases he
    obtain ⟨rfl, -⟩ | ⟨found, -, -, hpages, hfind, hadds, -⟩ :=
      h.kept.userMap hc.1 hc.2.1 hc.2.2 hrun
    · exact h.same rfl h.kept h.logged
    · rcases hsafe with hp | hp | hroom
      · exact absurd hp hpages
      · exact absurd hadds.mapped.phys hp
      · exact (hroom.not_found hadds hfind).elim
  | free memory ptr =>
    obtain ⟨⟨s₁, rc⟩, hrun, he⟩ := bind_eq_ok.mp he
    cases he
    obtain ⟨-, rfl, -⟩ | ⟨xs, q, r, ys, rfl, -, -, -, hremoves, hkept, hlog⟩ :=
      h.kept.userFree hrun
    · exact h.same rfl h.kept h.logged
    · have hrel := h.released (q, r) (List.mem_append_right xs List.mem_cons_self)
      rw [mappedIn_removes hremoves, Set.union_empty]
      refine ⟨xs ++ ys, tables, hkept, hlog h.logged hrel.2, fun x hx => h.released x ?_⟩
      exact List.perm_middle.mem_iff.mpr (List.mem_cons_of_mem _ hx)
  | ensure kmalloc memory ptr pages =>
    obtain ⟨⟨s₁, rc⟩, hrun, he⟩ := bind_eq_ok.mp he
    cases he
    rw [userEnsure_present kmalloc hsafe] at hrun
    cases hrun
    exact h.same rfl h.kept h.logged

/-- By induction on the records, each of which is the head of the list in its turn. -/
theorem releaseAll (h : Balanced s₀ created s l tables) (memory : ℕ → ℕ → ℕ) {left : ℕ}
    (hleft : l.length ≤ left) :
    ∃ t, releaseAllFrom memory left s = .ok t ∧ Balanced s₀ created t [] tables := by
  induction l generalizing s left with
  | nil =>
    have halloc : s.alloc = none := h.kept.listed.head
    refine ⟨s, ?_, h⟩
    unfold releaseAllFrom
    rw [halloc]
  | cons x ys ih =>
    obtain ⟨q, r⟩ := x
    obtain ⟨left, rfl⟩ : ∃ n, left = n + 1 := ⟨left - 1, by simp at hleft; omega⟩
    have halloc : s.alloc = some q := h.kept.listed.head
    obtain ⟨v, hv, hr⟩ := h.kept.listed.alive (q, r) List.mem_cons_self
    obtain ⟨hvirt, hrel⟩ := h.released (q, r) List.mem_cons_self
    have hhead : (q, r) :: ys = [] ++ (q, r) :: ys := rfl
    obtain ⟨s₁, hrun, -, -, hkept, hlog⟩ := h.kept.free_mapped hhead (by simp) hvirt (memory left)
    obtain ⟨t, hrest, ht⟩ := ih (s := s₁) ⟨hkept, hlog h.logged hrel,
      fun x hx => h.released x (List.mem_cons_of_mem _ hx)⟩ (by simpa using hleft)
    refine ⟨t, ?_, ht⟩
    have hvirt' : v.virt = r.virt := congrArg Record.virt hr
    unfold releaseAllFrom
    rw [halloc]
    dsimp only
    rw [load_some hv, ok_bind, hvirt', hrun, ok_bind]
    exact hrest

theorem givesBack (h : Balanced s₀ created s l tables) (h₀ : Split s₀.map) :
    GivesBack s₀ (s, created) := by
  intro memory
  obtain ⟨t, hrun, ht⟩ := h.releaseAll memory h.kept.listed.length_le
  have halloc : t.alloc = none := ht.kept.listed.head
  refine ⟨t, ?_, ⟨tables, ht.kept.tabled.table, ht.kept.tabled.ledger.used⟩, ?_, ?_, fun p hp => ?_,
    fun p hp => ?_, fun i hi => (ht.kept.split i hi).trans (h₀ i hi).symm⟩
  · rw [userReleaseAll, hrun, ok_bind, assert_of halloc, ok_bind]
  · have hperm := ht.logged.records
    rw [List.map_nil, List.append_nil] at hperm
    exact hperm.symm
  · have hperm := ht.logged.blocks
    rw [blocksOf, List.filter_nil, List.map_nil, List.append_nil] at hperm
    exact hperm.symm
  · rcases ht.kept.others p (by simp) with hword | ⟨-, hnone⟩
    · rw [hword, ht.kept.new p hp]
    · exact hnone
  · exact (ht.kept.others p (by simp)).resolve_right fun hc => hp hc.1

end Balanced

end Steps

/-- A run in which `user_map` and `user_ensure` map nothing gives back what it has taken. -/
theorem user_memory_given_back {s₀ t : State × Set ℕ} {cs : List Call} (h₀ : memorySystem.Init s₀)
    (h : (memorySystem.restrict fun s c => c.Safe s.1).Steps s₀ cs t) : GivesBack s₀.1 t := by
  obtain ⟨hfresh, hnone⟩ := h₀
  have hinv : ∃ l tables, Balanced s₀.1 t.2 t.1 l tables := by
    refine h.invariant (P := fun s => ∃ l tables, Balanced s₀.1 s.2 s.1 l tables) ?_ ?_
    · rintro ⟨s, created⟩ c ⟨u, created'⟩ ⟨l, tables, hb⟩ hg hstep
      obtain ⟨t, hrun, hstep⟩ := bind_eq_ok.mp hstep
      cases hstep
      exact hb.step hg.1 hg.2 hrun
    · rw [hnone]
      exact ⟨[], [], hfresh.balanced⟩
  obtain ⟨l, tables, hb⟩ := hinv
  exact hb.givesBack hfresh.split

theorem fresh_newProcess : Fresh newProcess :=
  ⟨rfl, split_new 0, PhysicalMemory.eightPages_counted 0, by decide, rfl, rfl, rfl, rfl⟩

/-- One page is asked for, and another one is to be mapped that does not begin with a page. -/
theorem user_memory_given_back_newProcess : ∃ t : State × Set ℕ,
    t.1.taken = [(0x1000, 1)] ∧ GivesBack newProcess t := by
  obtain ⟨⟨s, t⟩, hrun, hlog⟩ : ∃ r : (State × Set ℕ) × State × Set ℕ,
      (do
        let s ← memorySystem.step (newProcess, ∅) (.alloc (some 8) (fun _ => 0) 1)
        let t ← memorySystem.step s (.map none (fun _ => 0) 4 1)
        .ok (s, t)) = .ok r ∧ r.2.1.taken = [(0x1000, 1)] :=
    exists_ok_of (by decide +kernel)
  obtain ⟨s, hfirst, hrun⟩ := bind_eq_ok.mp hrun
  obtain ⟨t, hsecond, hrun⟩ := bind_eq_ok.mp hrun
  cases hrun
  have hsteps : (memorySystem.restrict fun s c => c.Safe s.1).Steps (newProcess, ∅)
      [.alloc (some 8) (fun _ => 0) 1, .map none (fun _ => 0) 4 1] t := by
    refine .cons ⟨⟨fun p hp => ?_, by decide⟩, trivial⟩ hfirst
      (.one ⟨⟨by simp, by decide, by decide⟩, .inr (.inl (by decide))⟩ hsecond)
    cases hp
    exact ⟨rfl, by decide⟩
  exact ⟨t, hlog, user_memory_given_back ⟨fresh_newProcess, rfl⟩ hsteps⟩

/-- The record of a region of `user_map` is never freed. -/
theorem mapped_record_kept : ∃ t, memorySystem.Init (newProcess, ∅) ∧
    memorySystem.Steps (newProcess, ∅) [.map (some 8) (fun _ => 0) 0x100000 1] t ∧
    ¬ GivesBack newProcess t := by
  obtain ⟨⟨t, u, rc⟩, hrun, hlog⟩ : ∃ r : (State × Set ℕ) × State × ℤ,
      (do
        let t ← memorySystem.step (newProcess, ∅) (.map (some 8) (fun _ => 0) 0x100000 1)
        let u ← userReleaseAll t.1 fun _ _ => 0
        .ok (t, u)) = .ok r ∧ (r.2.1.kmalloced, r.2.1.kfreed) = ([8], []) :=
    exists_ok_of (by decide +kernel)
  obtain ⟨t, hstep, hrun⟩ := bind_eq_ok.mp hrun
  obtain ⟨u, hrelease, hrun⟩ := bind_eq_ok.mp hrun
  cases hrun
  obtain ⟨hmade, hfreed⟩ := Prod.mk.inj hlog
  refine ⟨t, ⟨fresh_newProcess, rfl⟩, .one ⟨fun p hp => ?_, by decide, by decide⟩ hstep,
    fun hback => ?_⟩
  · cases hp
    exact ⟨rfl, by decide⟩
  · obtain ⟨v, hv, hreturned⟩ := hback fun _ _ => 0
    rw [hrelease] at hv
    cases hv
    have hperm := hreturned.records.length_eq
    rw [hmade, hfreed] at hperm
    cases hperm

end Racoon.Ualloc.Return
