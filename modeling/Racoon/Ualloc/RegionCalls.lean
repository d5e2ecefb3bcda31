import Racoon.Paging.FirstFit
import Racoon.Ualloc.Regions

/-!
# The calls on regions

`user_alloc` and `user_map` either leave the map of the process alone or add one region
to it, and `user_free` takes one away. Where a record is freed when it should be, the
logs of what was allocated and freed agree with the records.
-/

namespace Racoon.Ualloc
open Lib Paging
open PhysicalMemory (Physmem Above memoryAlloc)
open Sharing (sK_BASE sK_CEILING walkBound)
open Env (SMK_OK SMK_NOMEM SMK_NOT_FOUND SMK_REQUESTED_NOTHING)

/-- What was allocated and not freed is the records, with their blocks. -/
structure Logged (s : State) (l : List (ℕ × Record)) : Prop where
  records : s.kmalloced.Perm (s.kfreed ++ l.map Prod.fst)
  blocks : s.taken.Perm (s.freed ++ blocksOf l)

variable {pm₀ pm pm' : Physmem} {d₀ d e : PageDirectory} {created : Set ℕ} {s t : State}
  {l xs ys : List (ℕ × Record)} {tables tables' : List PhysicalMemory.Block} {memory : ℕ → ℕ}
  {r : Record} {p q pages phys found : ℕ} {rc : ℤ} {kmalloc : Option ℕ}

theorem blocksOf_cons (x : ℕ × Record) (l : List (ℕ × Record)) :
    blocksOf (x :: l) = if x.2.released then x.2.block :: blocksOf l else blocksOf l := by
  rw [blocksOf, List.filter_cons]
  split_ifs <;> rfl

theorem blocksOf_perm (xs ys : List (ℕ × Record)) (x : ℕ × Record) :
    (blocksOf (xs ++ x :: ys)).Perm (blocksOf (x :: (xs ++ ys))) :=
  (List.perm_middle.filter _).map _

/-- A mapping that `page_provide` makes is a new region. -/
theorem adds_of_provide (hd : Split d) (hphys : phys % PAGE_SIZE = 0) (hphys' : phys < 2 ^ 32)
    (hn : 0 < pages) (hn' : pages < 2 ^ 32) (flags : ℕ)
    (he : Sharing.Locked.pageProvide memory pm d phys sK_BASE sK_CEILING pages userType =
      .ok (pm', e, found)) :
    found = 0 ∧ e = d ∨ found ≠ 0 ∧ Adds d e ⟨pages, flags, 0, phys, found⟩ := by
  obtain ⟨tables, he⟩ := Sharing.Locked.pageProvide_erase he
  obtain ⟨hsplit, ⟨rfl, rfl⟩ | ⟨v, rfl, -, huser, hfree, hword⟩⟩ :=
    pageProvide_eq hd hn hn' hphys' (by decide) he
  · exact .inl ⟨rfl, rfl⟩
  · have hpage : v * PAGE_SIZE / PAGE_SIZE = v := Nat.mul_div_cancel v (by decide)
    have hne : v * PAGE_SIZE ≠ 0 := by
      have hfloor := huser.floor
      unfold PAGE_SIZE
      omega
    refine .inr ⟨hne, hsplit, ⟨Nat.mul_mod_left _ _, ?_, hn, hphys, fun k hk => ?_⟩, ?_, ?_⟩
    · rwa [hpage]
    · dsimp only at hk ⊢
      rw [hpage, hword, if_pos (by omega), Nat.add_sub_cancel_left]
    · rintro p ⟨-, hle, hlt⟩
      dsimp only at hle hlt
      rw [hpage] at hle hlt
      exact hfree p hle hlt
    · intro p hp
      rw [hword, if_neg]
      rintro ⟨hle, hlt⟩
      refine hp ⟨hne, ?_, ?_⟩ <;> dsimp only <;> rw [hpage] <;> assumption

/-- What `page_provide` answers is what `page_find_free` has found. -/
theorem pageProvide_find {physical start finish type : ℕ}
    (he : Sharing.Locked.pageProvide memory pm d physical start finish pages type =
      .ok (pm', e, found)) : pageFindFree memory d start finish pages = .ok found := by
  obtain ⟨location, hfind, he⟩ := bind_eq_ok.mp he
  by_cases hz : location = 0
  · rw [if_pos hz] at he
    cases he
    rw [hfind, hz]
  · rw [if_neg hz] at he
    obtain ⟨⟨pm₁, d₁⟩, -, he⟩ := bind_eq_ok.mp he
    cases he
    exact hfind

/-- Blocks begin with a page. -/
theorem Kept.alloc_aligned (h : Kept pm₀ d₀ created s l tables) (hn : 1 ≤ pages)
    (he : memoryAlloc s.pm pages = .ok (pm', phys)) : phys % PAGE_SIZE = 0 ∧ phys < 2 ^ 32 := by
  obtain ⟨pm₁, ptr, hrun, hspec, -⟩ :=
    PhysicalMemory.memoryAlloc_spec h.tabled.ledger.sound.counted hn
  dsimp only at hrun hspec
  rw [he] at hrun
  cases hrun
  rcases hspec with ⟨rfl, -⟩ | ⟨b, rfl, -⟩
  · exact ⟨rfl, by decide⟩
  · refine ⟨PhysicalMemory.pageAddr_aligned ?_ b, add32_lt _ _⟩
    have hoffset : s.pm.memoryOffset = pm₀.memoryOffset := h.tabled.ledger.memoryOffset
    rw [hoffset]
    exact h.aligned

/-- The block at the head of the ledger is given back. -/
theorem memoryFree_head {x : PhysicalMemory.Block} {held : List PhysicalMemory.Block}
    (h : Above pm₀ ⟨s.pm, x :: held⟩) (he : s.memoryFree x = .ok t) :
    Above pm₀ ⟨t.pm, held⟩ ∧ t = { s with pm := t.pm, freed := x :: s.freed } := by
  obtain ⟨pm₁, hrun, hledger⟩ := h.free List.mem_cons_self
  rw [State.memoryFree, hrun, ok_bind] at he
  cases he
  rw [List.erase_cons_head] at hledger
  exact ⟨hledger, rfl⟩

theorem insert_listed (he : s.insert q r = .ok t) (h : Listed s.mems s.alloc l)
    (hq : s.mems q = none) (hb : q < walkBound) :
    Listed t.mems t.alloc ((q, r) :: l) ∧ t = { s with mems := t.mems, alloc := t.alloc } := by
  obtain ⟨mems', hrun, hlist⟩ := insert_eq h hq hb r
  rw [he] at hrun
  cases hrun
  exact ⟨hlist, rfl⟩

theorem released_alloc (pages phys found : ℕ) :
    (⟨pages, 0, 0, phys, found⟩ : Record).released = true := by
  simp [Record.released]

theorem released_map (pages phys found : ℕ) :
    (⟨pages, UALLOC_NORELEASE, 0, phys, found⟩ : Record).released = false := by
  simp [Record.released, UALLOC_NORELEASE]

/-- A region that `user_alloc` makes, or none. -/
theorem Kept.userAlloc {answer : Option ℕ} (h : Kept pm₀ d₀ created s l tables)
    (hk : ∀ q, kmalloc = some q → s.mems q = none ∧ q < walkBound) (hpages : pages < 2 ^ 32)
    (he : userAlloc s kmalloc memory pages = .ok (t, rc, answer)) :
    (rc ≠ SMK_OK ∧ t.map = s.map ∧ Kept pm₀ d₀ created t l tables ∧
        (Logged s l → Logged t l)) ∨
      ∃ q location found, rc = SMK_OK ∧ answer = some location ∧ kmalloc = some q ∧
        pages ≠ 0 ∧ pageFindFree memory s.map sK_BASE sK_CEILING pages = .ok found ∧
        t.taken.head? = some (location, pages) ∧
        (∃ pm₁, memoryAlloc s.pm pages = .ok (pm₁, location)) ∧ location ≠ 0 ∧
        Adds s.map t.map ⟨pages, 0, 0, location, found⟩ ∧
        (∃ tables', Kept pm₀ d₀
          (created ∪ {p | Record.Covers ⟨pages, 0, 0, location, found⟩ p}) t
          ((q, ⟨pages, 0, 0, location, found⟩) :: l) tables') ∧
        (Logged s l → Logged t ((q, ⟨pages, 0, 0, location, found⟩) :: l)) := by
  rw [Ualloc.userAlloc] at he
  by_cases hp : pages = 0
  · rw [if_pos hp] at he
    cases he
    exact .inl ⟨by decide, rfl, h, id⟩
  rw [if_neg hp] at he
  obtain ⟨⟨pm₁, location⟩, halloc, he⟩ := bind_eq_ok.mp he
  obtain ⟨halign, hlt⟩ := h.alloc_aligned (Nat.pos_of_ne_zero hp) halloc
  have hledger := h.tabled.ledger.alloc (Nat.pos_of_ne_zero hp) halloc
  dsimp only at he
  by_cases hz : location = 0
  · rw [if_pos hz] at he hledger
    cases he
    exact .inl ⟨by decide, rfl, { h with tabled := { h.tabled with ledger := hledger } },
      fun hlog =>
      ⟨hlog.records, hlog.blocks⟩⟩
  rw [if_neg hz] at he hledger
  cases kmalloc with
  | none =>
    obtain ⟨s₁, hfree, he⟩ := bind_eq_ok.mp he
    cases he
    obtain ⟨hledger', ht⟩ := memoryFree_head (s := s.takes pm₁ (location, pages)) hledger hfree
    rw [ht]
    refine .inl ⟨by decide, rfl, { h with tabled := { h.tabled with ledger := hledger' } },
      fun hlog => ⟨hlog.records, hlog.blocks.cons _⟩⟩
  | some q =>
    obtain ⟨hfresh, hbound⟩ := hk q rfl
    obtain ⟨⟨pm₂, map, found⟩, hprovide, he⟩ := bind_eq_ok.mp he
    have htabled : Tabled pm₀ pm₁ d₀ s.map ((location, pages) :: blocksOf l) tables :=
      { h.tabled with ledger := hledger }
    obtain ⟨hsame, tables', hsame', htabled'⟩ := htabled.pageProvide hprovide
    dsimp only at he
    obtain ⟨rfl, rfl⟩ | ⟨hne, hadds⟩ := adds_of_provide h.split halign hlt
      (Nat.pos_of_ne_zero hp) hpages 0 hprovide
    · rw [if_pos rfl] at he
      obtain ⟨s₁, hfree, he⟩ := bind_eq_ok.mp he
      cases he
      obtain ⟨hledger', ht⟩ := memoryFree_head htabled'.ledger hfree
      rw [hsame' rfl] at hledger'
      rw [ht]
      refine .inl ⟨by decide, rfl, ?_, fun hlog => ⟨hlog.records.cons _, hlog.blocks.cons _⟩⟩
      exact { h with
        listed := h.listed.kfree (h.listed.fresh hfresh)
        tabled := { h.tabled with ledger := hledger' } }
    · rw [if_neg hne] at he
      obtain ⟨s₁, hinsert, he⟩ := bind_eq_ok.mp he
      cases he
      obtain ⟨hlist, ht⟩ := insert_listed hinsert h.listed hfresh hbound
      have hblocks : blocksOf ((q, (⟨pages, 0, 0, location, found⟩ : Record)) :: l) =
          (location, pages) :: blocksOf l := by
        rw [blocksOf_cons, if_pos (released_alloc pages location found), Record.block]
      rw [ht]
      refine .inr ⟨q, location, found, rfl, rfl, rfl, hp, pageProvide_find hprovide, rfl,
        ⟨pm₁, halloc⟩, hz, hadds, ⟨tables', h.add hadds hlist ?_⟩, fun hlog => ⟨?_, ?_⟩⟩
      · rw [hblocks]
        exact htabled'
      · exact (hlog.records.cons q).trans List.perm_middle.symm
      · rw [hblocks]
        exact (hlog.blocks.cons _).trans List.perm_middle.symm

theorem insertNull_map (h : s.insertNull = .ok t) : t.map = s.map := by
  obtain ⟨mems, -, h⟩ := bind_eq_ok.mp h
  cases h
  rfl

/-- A region that `user_map` makes, or none, at which it may be `SMK_OK` all the same. The region
is recorded if `kmalloc` answers. -/
theorem Kept.userMap {ptr : ℕ} {answer : Option ℕ} (h : Kept pm₀ d₀ created s l tables)
    (hk : ∀ q, kmalloc = some q → s.mems q = none ∧ q < walkBound) (hptr : ptr < 2 ^ 32)
    (hpages : pages < 2 ^ 32) (he : userMap s kmalloc memory ptr pages = .ok (t, rc, answer)) :
    (t = s ∧ (rc ≠ SMK_OK ∧ (pages = 0 ∨ ptr % PAGE_SIZE ≠ 0) ∨
        pages ≠ 0 ∧ ptr % PAGE_SIZE = 0 ∧
          pageFindFree memory s.map sK_BASE sK_CEILING pages = .ok 0)) ∨
      ∃ found, rc = SMK_OK ∧ answer = some found ∧ pages ≠ 0 ∧
        pageFindFree memory s.map sK_BASE sK_CEILING pages = .ok found ∧
        Adds s.map t.map ⟨pages, UALLOC_NORELEASE, 0, ptr, found⟩ ∧
        ∀ q, kmalloc = some q → ∃ tables', Kept pm₀ d₀
          (created ∪ {p | Record.Covers ⟨pages, UALLOC_NORELEASE, 0, ptr, found⟩ p}) t
          ((q, ⟨pages, UALLOC_NORELEASE, 0, ptr, found⟩) :: l) tables' := by
  rw [Ualloc.userMap] at he
  by_cases hp : pages = 0
  · rw [if_pos hp] at he
    cases he
    exact .inl ⟨rfl, .inl ⟨by decide, .inl hp⟩⟩
  rw [if_neg hp] at he
  by_cases halign : ptr % PAGE_SIZE ≠ 0
  · rw [if_pos halign] at he
    cases he
    exact .inl ⟨rfl, .inl ⟨by decide, .inr halign⟩⟩
  rw [if_neg halign] at he
  obtain ⟨⟨pm₁, map, found⟩, hprovide, he⟩ := bind_eq_ok.mp he
  obtain ⟨hsame, tables', -, htabled⟩ := h.tabled.pageProvide hprovide
  have hfind := pageProvide_find hprovide
  dsimp only at he
  obtain ⟨rfl, rfl⟩ | ⟨hne, hadds⟩ := adds_of_provide h.split (not_not.mp halign) hptr
    (Nat.pos_of_ne_zero hp) hpages UALLOC_NORELEASE hprovide
  · rw [if_neg (by simp), hsame rfl] at he
    cases he
    exact .inl ⟨rfl, .inr ⟨hp, not_not.mp halign, hfind⟩⟩
  · rw [if_pos hne] at he
    obtain ⟨s₁, hinsert, he⟩ := bind_eq_ok.mp he
    cases he
    cases kmalloc with
    | none =>
      have hmap := insertNull_map hinsert
      exact .inr ⟨found, rfl, rfl, hp, hfind, hmap ▸ hadds, nofun⟩
    | some q =>
      obtain ⟨hfresh, hbound⟩ := hk q rfl
      obtain ⟨hlist, ht⟩ := insert_listed hinsert h.listed hfresh hbound
      have hblocks : blocksOf ((q, (⟨pages, UALLOC_NORELEASE, 0, ptr, found⟩ : Record)) :: l) =
          blocksOf l := by
        rw [blocksOf_cons, if_neg (by rw [released_map]; decide)]
      rw [ht]
      refine .inr ⟨found, rfl, rfl, hp, hfind, hadds, fun q' hq => ?_⟩
      cases hq
      refine ⟨tables', h.add hadds hlist ?_⟩
      rw [hblocks]
      exact htabled

/-- A record has left the list and its block has been given back; its region is unmapped next. -/
theorem Kept.forget (h : Kept pm₀ d₀ created s l tables) (hl : l = xs ++ (q, r) :: ys)
    (hfirst : ∀ x ∈ xs, x.2.virt ≠ r.virt) :
    ∃ s₁ : State, s₁.map = s.map ∧ Listed s₁.mems s₁.alloc (xs ++ ys) ∧
      Tabled pm₀ s₁.pm d₀ s.map (blocksOf (xs ++ ys)) tables ∧
      (Logged s l → r.released = true → Logged s₁ (xs ++ ys)) ∧
      ∀ memory, userFree s memory r.virt =
        pageRelease memory s.map r.virt (int32 r.pages) >>= fun map =>
          .ok ({ s₁ with map := map }, SMK_OK) := by
  have hfind : s.find r.virt = .ok (some q) := by
    rw [find_eq h.listed, hl, List.find?_append, List.find?_eq_none.mpr fun x hx => by
      simpa using hfirst x hx]
    simp
  obtain ⟨mems', head', hunlink, hlist, v, hv, rfl⟩ := unlink_eq h.listed hl
  have hqlist : ∀ x ∈ xs ++ ys, x.1 ≠ q := by
    have hnodup := h.listed.nodup
    rw [hl, List.map_append, List.map_cons, List.nodup_middle, List.nodup_cons,
      ← List.map_append] at hnodup
    rintro x hx rfl
    exact hnodup.1 (List.mem_map.mpr ⟨x, hx, rfl⟩)
  have hperm := blocksOf_perm xs ys (q, v.toRecord)
  rw [← hl, blocksOf_cons] at hperm
  dsimp only at hperm
  by_cases hrel : v.toRecord.released = true
  · rw [if_pos hrel] at hperm
    obtain ⟨pm₁, hfree, hledger⟩ := (h.tabled.ledger.perm (hperm.append_right tables)).free
      List.mem_cons_self
    have hledger : Above pm₀ ⟨pm₁, blocksOf (xs ++ ys) ++ tables⟩ := by
      rwa [List.cons_append, List.erase_cons_head] at hledger
    let s₁ : State := { s with
      pm := pm₁
      mems := Function.update mems' q none
      alloc := head'
      freed := v.toRecord.block :: s.freed
      kfreed := q :: s.kfreed }
    have htabled : Tabled pm₀ pm₁ d₀ s.map (blocksOf (xs ++ ys)) tables :=
      { h.tabled with ledger := hledger }
    refine ⟨s₁, rfl, ?_, htabled, fun hlog _ => ⟨?_, ?_⟩, fun memory => ?_⟩
    · exact hlist.congr fun x hx => Function.update_of_ne (hqlist x hx) _ _
    · refine hlog.records.trans ?_
      rw [hl, List.map_append, List.map_cons, List.map_append]
      refine (List.perm_middle.append_left _).trans ?_
      exact List.perm_middle
    · refine hlog.blocks.trans ?_
      exact (hperm.append_left _).trans List.perm_middle
    · have hfree' : State.memoryFree { s with mems := mems', alloc := head' } (v.phys, v.pages) =
          .ok { s with
            pm := pm₁
            mems := mems'
            alloc := head'
            freed := v.toRecord.block :: s.freed } := by
        rw [State.memoryFree]
        exact congrArg (· >>= _) hfree
      rw [userFree, hfind, ok_bind]
      dsimp only
      rw [hunlink, ok_bind, load_some hv, ok_bind, if_pos hrel, hfree', ok_bind]
      simp only [if_pos hrel]
      rfl
  · rw [if_neg hrel] at hperm
    have htabled : Tabled pm₀ s.pm d₀ s.map (blocksOf (xs ++ ys)) tables :=
      { h.tabled with ledger := h.tabled.ledger.perm (hperm.append_right tables) }
    refine ⟨{ s with mems := mems', alloc := head' }, rfl, hlist, htabled,
      fun _ hc => absurd hc hrel, fun memory => ?_⟩
    rw [userFree, hfind, ok_bind]
    dsimp only
    rw [hunlink, ok_bind, load_some hv, ok_bind, if_neg hrel, ok_bind]
    simp only [if_neg hrel]

/-- The release of a region unmaps it. -/
theorem removes_release (hd : Split d) (hm : r.Mapped d) (memory : ℕ → ℕ) :
    ∃ e, pageRelease memory d r.virt (int32 r.pages) = .ok e ∧ Removes d e r ∧
      Unmaps d e r.virt r.pages := by
  have hceil : r.pages ≤ 0xFE000 := (Nat.le_add_left _ _).trans hm.user.ceiling
  have hcount : (int32 r.pages).toNat = r.pages := by
    rw [int32_of_le (by omega) (by omega), Int.toNat_natCast]
  have hpage := page_of_aligned hm.aligned
  obtain ⟨e, hrun, hconf, hgone⟩ := releaseFrom_user memory hd.userTables hm.user
  have hsplit := (releaseFrom_eq hd hm.user hrun).1
  have hun := hconf.unmaps hd.userTables hm.user hgone
  rw [← hpage] at hrun hun
  refine ⟨e, by rw [pageRelease, hcount, hrun], ⟨hsplit, ?_, ?_⟩, hun⟩
  · rintro p ⟨-, hle, hlt⟩
    have hnone := hgone (p - r.virt / PAGE_SIZE) (by omega)
    rwa [Nat.add_sub_cancel' hle] at hnone
  · intro p hp
    refine hconf.word p ?_
    by_contra hin
    exact hp ⟨hm.virt_ne, by omega, by omega⟩

/-- For a region at 0 only entries of the kernel are looked at. -/
theorem removes_zero (hd : Split d) (hz : r.virt = 0) (hpages : r.pages ≤ 0x80000)
    (he : pageRelease memory d r.virt (int32 r.pages) = .ok e) : Removes d e r := by
  have hcount : (int32 r.pages).toNat = r.pages := by
    rw [int32_of_le (by omega) (by omega), Int.toNat_natCast]
  rw [pageRelease, hcount, hz, ← Nat.zero_mul PAGE_SIZE] at he
  rw [releaseFrom_kernel hd (by omega) he]
  exact ⟨hd, fun p hp => absurd hp (Record.not_covers_of_zero hz p), fun _ _ => rfl⟩

theorem Tabled.pageRelease {start : ℕ} {n : ℤ} {held : List PhysicalMemory.Block}
    (h : Tabled pm₀ pm d₀ d held tables) (he : pageRelease memory d start n = .ok e) :
    Tabled pm₀ pm d₀ e held tables :=
  h.releaseFrom he

/-- A region that is mapped can be freed. -/
theorem Kept.free_mapped (h : Kept pm₀ d₀ created s l tables) (hl : l = xs ++ (q, r) :: ys)
    (hfirst : ∀ x ∈ xs, x.2.virt ≠ r.virt) (hv : r.virt ≠ 0) (memory : ℕ → ℕ) :
    ∃ t, userFree s memory r.virt = .ok (t, SMK_OK) ∧ Unmaps s.map t.map r.virt r.pages ∧
      Removes s.map t.map r ∧ Kept pm₀ d₀ created t (xs ++ ys) tables ∧
      (Logged s l → r.released = true → Logged t (xs ++ ys)) := by
  have hmem : (q, r) ∈ l := by
    rw [hl]
    exact List.mem_append_right xs List.mem_cons_self
  obtain ⟨s₁, hmap, hlist, htabled, hlog, hrun⟩ := h.forget hl hfirst
  obtain ⟨e, hrel, hremoves, hun⟩ := removes_release h.split (h.mapped hmem hv) memory
  refine ⟨{ s₁ with map := e }, by rw [hrun, hrel, ok_bind], hun, hremoves, ?_, fun h₁ h₂ => ?_⟩
  · exact h.remove (t := { s₁ with map := e }) hl hremoves hlist (htabled.pageRelease hrel)
  · obtain ⟨hrec, hblocks⟩ := hlog h₁ h₂
    exact ⟨hrec, hblocks⟩

/-- `user_free` takes the first record with the address. -/
theorem Kept.userFree {ptr : ℕ} (h : Kept pm₀ d₀ created s l tables)
    (he : userFree s memory ptr = .ok (t, rc)) :
    (rc ≠ SMK_OK ∧ t = s ∧ ∀ x ∈ l, x.2.virt ≠ ptr) ∨
      ∃ xs q r ys, l = xs ++ (q, r) :: ys ∧ r.virt = ptr ∧ (∀ x ∈ xs, x.2.virt ≠ ptr) ∧
        rc = SMK_OK ∧ Removes s.map t.map r ∧ Kept pm₀ d₀ created t (xs ++ ys) tables ∧
        (Logged s l → r.released = true → Logged t (xs ++ ys)) := by
  cases hfind : l.find? fun x => x.2.virt = ptr with
  | none =>
    rw [Ualloc.userFree, find_eq h.listed, hfind] at he
    cases he
    refine .inl ⟨by decide, rfl, fun x hx => ?_⟩
    simpa using List.find?_eq_none.mp hfind x hx
  | some x =>
    obtain ⟨hptr, xs, ys, hl, hfirst⟩ := List.find?_eq_some_iff_append.mp hfind
    obtain ⟨q, r⟩ := x
    have hptr : r.virt = ptr := by simpa using hptr
    have hfirst : ∀ x ∈ xs, x.2.virt ≠ r.virt := by
      intro x hx
      rw [hptr]
      simpa using hfirst x hx
    rw [← hptr] at he ⊢
    by_cases hv : r.virt = 0
    · have hmem : (q, r) ∈ l := by
        rw [hl]
        exact List.mem_append_right xs List.mem_cons_self
      have hpages := (h.kinds _ hmem).resolve_right fun hm => hm.virt_ne hv
      obtain ⟨s₁, hmap, hlist, htabled, hlog, hrun⟩ := h.forget hl hfirst
      rw [hrun] at he
      obtain ⟨e, hrel, he⟩ := bind_eq_ok.mp he
      cases he
      have hremoves := removes_zero h.split hv hpages.2 hrel
      refine .inr ⟨xs, q, r, ys, hl, rfl, hfirst, rfl, hremoves, ?_, fun h₁ h₂ => ?_⟩
      · exact h.remove (t := { s₁ with map := e }) hl hremoves hlist (htabled.pageRelease hrel)
      · obtain ⟨hrec, hblocks⟩ := hlog h₁ h₂
        exact ⟨hrec, hblocks⟩
    · obtain ⟨t', hrun, -, hremoves, hkept, hlog⟩ := h.free_mapped hl hfirst hv memory
      rw [he] at hrun
      cases hrun
      exact .inr ⟨xs, q, r, ys, hl, rfl, hfirst, rfl, hremoves, hkept, hlog⟩

end Racoon.Ualloc
