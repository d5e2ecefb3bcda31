import Racoon.Mm.SlabRuns

/-!
# The memory of a cache

Whether a slab is of one block or of two is decided by the flags of the call that
grows the cache, and at its end by the flags of the cache. Where the two agree at
every growth, what was obtained is given back; where they do not, a block is lost
or an address is given back that never was obtained.
-/

namespace Racoon.SlabAllocator
open Lib

/-- A request that grows the cache says of `KV_OFF_SLAB` what the cache says. -/
def Request.Agrees (s : Run) : Request → Prop
  | .alloc kmalloc retry kmflag => Grows kmalloc retry s.kmem kmflag →
      hasFlag kmflag kvOffSlab = hasFlag s.kmem.cache.cflags kvOffSlab
  | .free _ => True
  | .shrink => True

/-- What `kmem_cache_destroy` is going to give back. -/
def owed (k : Kmem) (l : List Place) : List ℕ := k.cp :: l.flatMap (Place.freed k.cache)

theorem Place.freed_perm {c : KmemCache} {x : Place} (h : x.off = hasFlag c.cflags kvOffSlab) :
    (x.freed c).Perm ((x.blocks c).map Prod.fst) := by
  unfold Place.freed Place.blocks
  rw [h]
  split_ifs
  · exact List.Perm.swap ..
  · exact .refl _

/-- A sound cache that has obtained what it is going to give back. -/
structure Tallied (k : Kmem) (live : Finset ℕ) (l : List Place) : Prop where
  sound : Sound k live l
  agree : ∀ x ∈ l, x.off = hasFlag k.cache.cflags kvOffSlab
  obtained : replay blockMark ∅ k.trace = some (owed k l).toFinset

section Blocks
variable {k : Kmem} {live : Finset ℕ} {l : List Place}

theorem owed_perm (ha : ∀ x ∈ l, x.off = hasFlag k.cache.cflags kvOffSlab) :
    (owed k l).Perm (((k.cp, sizeofCache) :: l.flatMap (Place.blocks k.cache)).map Prod.fst) := by
  rw [List.map_cons, List.map_flatMap]
  exact (List.Perm.flatMap_left l fun x hx => Place.freed_perm (ha x hx)).cons _

theorem Sound.blocks_pos (hk : Sound k live l) {b : Block}
    (hb : b ∈ (k.cp, sizeofCache) :: l.flatMap (Place.blocks k.cache)) : 0 < b.2 := by
  rcases List.mem_cons.mp hb with rfl | hb
  · exact Nat.zero_lt_succ _
  · obtain ⟨x, -, hx⟩ := List.mem_flatMap.mp hb
    exact (Place.mem_blocks hk.fits hx).1

theorem Sound.owed_nodup (hk : Sound k live l)
    (ha : ∀ x ∈ l, x.off = hasFlag k.cache.cflags kvOffSlab) : (owed k l).Nodup := by
  refine (owed_perm ha).nodup_iff.mpr (List.pairwise_map.mpr ?_)
  refine hk.held_blocks.apart.imp_of_mem fun {b d} hb hd hbd he => ?_
  have hbpos := hk.blocks_pos hb
  exact hbd.start_ne (hk.blocks_pos hd) le_rfl (by omega) he.symm

/-- What is owed begins a block. -/
theorem Sound.owed_held (hk : Sound k live l)
    (ha : ∀ x ∈ l, x.off = hasFlag k.cache.cflags kvOffSlab) {a : ℕ}
    (h : a ∈ (owed k l).toFinset) : ∃ b ∈ k.blocks, b.1 = a ∧ 0 < b.2 := by
  have hmem := (owed_perm ha).mem_iff.mp (List.mem_toFinset.mp h)
  obtain ⟨b, hb, rfl⟩ := List.mem_map.mp hmem
  exact ⟨b, hk.blocks.subset hb, rfl, hk.blocks_pos hb⟩

end Blocks

section Events
variable {c : KmemCache} {x : Place} {S : Finset ℕ}

theorem replay_allocs (hd : ((x.blocks c).map Prod.fst).Nodup)
    (hS : ∀ a ∈ (x.blocks c).map Prod.fst, a ∉ S) :
    replay blockMark S (x.allocs c) = some (S ∪ ((x.blocks c).map Prod.fst).toFinset) :=
  replay_opened (fun _ => rfl) hd hS

theorem blockMark_constructed {kmflag : ℕ} :
    ∀ e ∈ constructed c kmflag x.ptr 0 c.objects, blockMark e = .other := by
  intro e he
  unfold constructed at he
  split_ifs at he
  · obtain ⟨j, -, rfl⟩ := List.mem_map.mp he
    rfl
  · cases he

theorem replay_freed (hd : (x.freed c).Nodup) (hS : ∀ a ∈ x.freed c, a ∈ S) :
    replay blockMark S (x.dropped c) = some (S \ (x.freed c).toFinset) := by
  refine replay_trans (replay_other fun e he => ?_) (replay_closed_each (fun _ => rfl) hd hS)
  split_ifs at he
  · obtain ⟨p, -, rfl⟩ := List.mem_map.mp he
    rfl
  · cases he

end Events

/-- Some of the slabs are destroyed. -/
theorem Tallied.drop {k : Kmem} {live : Finset ℕ} {l ds rest : List Place} (hk : Tallied k live l)
    (hl : (ds ++ rest).Perm l) :
    replay blockMark (owed k l).toFinset (ds.flatMap (Place.dropped k.cache)) =
      some (owed k rest).toFinset := by
  have hperm : (ds.flatMap (Place.freed k.cache) ++ owed k rest).Perm (owed k l) := by
    refine List.perm_middle.trans (List.Perm.cons _ ?_)
    rw [← List.flatMap_append]
    exact hl.flatMap_right _
  have hnd := hperm.nodup_iff.mpr (hk.sound.owed_nodup hk.agree)
  have hds := (List.nodup_append.mp hnd).1
  rw [← List.toFinset_eq_of_perm _ _ hperm, ← toFinset_append_sdiff hnd]
  refine replay_flatMap_closed (fun x hx S hS => ?_) hds fun a ha => ?_
  · exact replay_freed ((List.nodup_flatMap.mp hds).1 x hx) hS
  · exact List.mem_toFinset.mpr (List.mem_append_left _ ha)

theorem Tallied.destroy {k : Kmem} {live : Finset ℕ} {l : List Place} (hk : Tallied k live l) :
    ∃ k', kmemCacheDestroy k = .ok k' ∧ replay blockMark ∅ k'.trace = some ∅ := by
  obtain ⟨k', hr, he⟩ := hk.sound.destroy
  have hslabs := hk.drop (show (l ++ []).Perm l by rw [List.append_nil])
  refine ⟨k', hr, ?_⟩
  rw [he.trace]
  refine replay_trans hk.obtained (replay_trans hslabs ?_)
  simp [replay, blockMark, owed]

section Step
variable {s : Run} {l : List Place} {q : Request}

theorem Tallied.serve (hs : Tallied s.kmem s.live l) (hq : q.Permitted s) (ha : q.Agrees s) :
    ∃ t l', q.exec s = .ok t ∧ Tallied t.kmem t.live l' := by
  obtain ⟨t, l', es, hexec, ht, he, hserved⟩ := Request.serve hs.sound hq
  have hflags : hasFlag t.kmem.cache.cflags kvOffSlab = hasFlag s.kmem.cache.cflags kvOffSlab :=
    congrArg (hasFlag · kvOffSlab) (cflags_congr he.params)
  have howed : ∀ l, owed t.kmem l = owed s.kmem l := fun l => by
    have hfreed : Place.freed t.kmem.cache = Place.freed s.kmem.cache :=
      show Place.freed t.kmem.cache.params = Place.freed s.kmem.cache.params from he.params ▸ rfl
    rw [owed, owed, he.cp, hfreed]
  suffices hstep : (∀ x ∈ l', x.off = hasFlag t.kmem.cache.cflags kvOffSlab) ∧
      replay blockMark (owed s.kmem l).toFinset es = some (owed t.kmem l').toFinset by
    refine ⟨t, l', hexec, ht, hstep.1, ?_⟩
    rw [he.trace]
    exact replay_trans hs.obtained hstep.2
  have hheld := fun a => @Sound.owed_held _ _ _ hs.sound hs.agree a
  cases hserved with
  | kept hperm hev =>
    have hsame : (owed t.kmem l').toFinset = (owed s.kmem l).toFinset := by
      rw [howed]
      exact List.toFinset_eq_of_perm _ _ ((hperm.flatMap_right _).cons _)
    refine ⟨fun x hx => hflags ▸ hs.agree x (hperm.mem_iff.mp hx), ?_⟩
    rw [hsame]
    exact hev.memory _ hheld
  | @grown kmalloc retry kmflag x evs hgrows hoff hev =>
    have hx : x.off = hasFlag s.kmem.cache.cflags kvOffSlab := hoff.trans (ha hgrows)
    have hagree : ∀ y ∈ x :: l, y.off = hasFlag t.kmem.cache.cflags kvOffSlab :=
      List.forall_mem_cons.mpr ⟨hflags ▸ hx, fun y hy => hflags ▸ hs.agree y hy⟩
    have hstarts := Place.freed_perm hx
    have hperm : (owed t.kmem (x :: l)).Perm
        (owed s.kmem l ++ (x.blocks s.kmem.cache).map Prod.fst) := by
      rw [howed, owed, List.flatMap_cons]
      exact ((hstarts.append_right _).trans List.perm_append_comm).cons _
    have hnd := hperm.nodup_iff.mp (ht.owed_nodup hagree)
    obtain ⟨-, hd, hdis⟩ := List.nodup_append.mp hnd
    refine ⟨hagree, ?_⟩
    rw [List.toFinset_eq_of_perm _ _ hperm, List.toFinset_append]
    refine replay_trans (hev.memory _ hheld) (replay_trans (replay_allocs hd fun a hmem hin => ?_)
      (replay_other blockMark_constructed))
    exact hdis a (List.mem_toFinset.mp hin) a hmem rfl
  | shrunk =>
    refine ⟨fun x hx => hflags ▸ hs.agree x (List.mem_filter.mp hx).1, ?_⟩
    rw [howed]
    refine hs.drop ?_
    simpa using List.filter_append_perm (fun x => decide (positionOf s.kmem.slab x.addr = 0)) l

end Step

theorem tallied_preserved (k₀ : Kmem) :
    ((cacheSystem k₀).restrict fun s q => q.Agrees s).Preserves
      fun s => ∃ l, Tallied s.kmem s.live l := by
  rintro s q ⟨l, hl⟩ ⟨hq, ha⟩
  obtain ⟨t, l', hexec, ht⟩ := hl.serve hq ha
  exact ⟨t, hexec, l', ht⟩

/-- Every block is given back once and nothing else is, where no request that grows the cache
disagrees with it. -/
theorem memory_given_back {objects size align cflags : ℕ} {constructor destructor reclaim : Bool}
    {kmalloc₀ : Kmalloc} {k₀ : Kmem} (hG : Grants addressTop kmalloc₀) (hsize : 0 < size)
    (hobjects : 0 < objects)
    (hfit : sizeofSlab + objects * sizeofCtl + meantSlabobjSize objects size align cflags < 2 ^ 32)
    (hk : kmemCacheCreate kmalloc₀ objects size align constructor destructor reclaim cflags =
      some k₀) {qs : List Request} {s : Run}
    (h : ((cacheSystem k₀).restrict fun s q => q.Agrees s).Steps ⟨k₀, ∅⟩ qs s) :
    ∃ k, kmemCacheDestroy s.kmem = .ok k ∧ replay blockMark ∅ k.trace = some ∅ := by
  obtain ⟨hsound, htrace, -⟩ := sound_of_create hG hsize hobjects hfit hk
  have hinit : Tallied k₀ ∅ [] := ⟨hsound, nofun, by rw [htrace]; rfl⟩
  obtain ⟨l, hl⟩ := h.preserves (tallied_preserved k₀) ⟨[], hinit⟩
  exact hl.destroy

def offSlabCache : Kmem := (kmemCacheCreate bump 2 8 4 true true false kvOffSlab).get rfl

/-- A slab of two blocks in a cache without the flag loses one of them; a slab of one block in a
cache with the flag has an address inside the block given back. -/
theorem memory_not_given_back :
    (∃ s k, (cacheSystem smallCache).Steps ⟨smallCache, ∅⟩ [.alloc bump bump kvOffSlab] s ∧
      kmemCacheDestroy s.kmem = .ok k ∧ replay blockMark ∅ k.trace = some {149}) ∧
    ∃ s k, (cacheSystem offSlabCache).Steps ⟨offSlabCache, ∅⟩ [.alloc bump bump 0] s ∧
      kmemCacheDestroy s.kmem = .ok k ∧ replay blockMark ∅ k.trace = none :=
  ⟨⟨_, _, .one ⟨bump_grants, bump_grants⟩ rfl, rfl, by decide⟩,
    ⟨_, _, .one ⟨bump_grants, bump_grants⟩ rfl, rfl, by decide⟩⟩

theorem memory_given_back_oneSlab : ∃ (s : Run) (k : Kmem), kmemCacheDestroy s.kmem = .ok k ∧
    replay blockMark ∅ k.trace = some ∅ ∧ s.live.card = 1 := by
  have h : ((cacheSystem smallCache).restrict fun s q => q.Agrees s).Steps ⟨smallCache, ∅⟩
      [.alloc bump bump 0] _ :=
    .one ⟨⟨bump_grants, bump_grants⟩, fun _ => rfl⟩ rfl
  obtain ⟨k, hr, hall⟩ := memory_given_back bump_grants (by decide) (by decide) (by decide)
    (rfl : kmemCacheCreate bump 2 8 4 true true false kvRedZone = some smallCache) h
  exact ⟨_, k, hr, hall, rfl⟩

end Racoon.SlabAllocator
