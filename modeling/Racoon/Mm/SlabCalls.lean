import Racoon.Mm.SlabSpaces

/-!
# The calls of a cache

What `kmem_cache_alloc`, `kmem_cache_shrink` and `kmem_cache_destroy` do to a
sound cache: the slabs that come and go, and the events in the trace. The flags
of a slab and those of the cache need not agree.
-/

namespace Racoon.SlabAllocator
open Lib

/-- What one call of `kmem_cache_alloc` may do: it gives an object of the slabs that are there or of
a new one, or it is refused. -/
inductive AllocEnds (kmalloc retry : Kmalloc) (kmflag : ℕ) (k : Kmem) (live : Finset ℕ)
    (l : List Place) : Kmem → Option ℕ → Prop
  | given {k' : Kmem} {p : ℕ} {l' : List Place} (free : p ∉ live)
      (sound : Sound k' (insert p live) l') (perm : l'.Perm l) (effect : Effect k k' []) :
      AllocEnds kmalloc retry kmflag k live l k' (some p)
  | grown {k' : Kmem} {p : ℕ} {x : Place} {evs : List Event}
      (full : k.cache.totalObjects = k.cache.usedObjects)
      (grows : hasFlag k.cache.cflags kvNogrow = false)
      (supplied : Supplies kmalloc k.blocks k.cache (hasFlag kmflag kvOffSlab) ∨
        k.cache.reclaim = true ∧ Supplies retry k.blocks k.cache (hasFlag kmflag kvOffSlab))
      (free : p ∉ live) (sound : Sound k' (insert p live) (x :: l))
      (off : x.off = hasFlag kmflag kvOffSlab) (fruitless : Fruitless k.blocks evs)
      (effect : Effect k k' (evs ++
        (x.allocs k.cache ++ constructed k.cache kmflag x.ptr 0 k.cache.objects))) :
      AllocEnds kmalloc retry kmflag k live l k' (some p)
  | refused {k' : Kmem} {evs : List Event} (full : k.cache.totalObjects = k.cache.usedObjects)
      (denied : hasFlag k.cache.cflags kvNogrow = true ∨
        ¬ Supplies kmalloc k.blocks k.cache (hasFlag kmflag kvOffSlab))
      (sound : Sound k' live l) (fruitless : Fruitless k.blocks evs) (effect : Effect k k' evs) :
      AllocEnds kmalloc retry kmflag k live l k' none

/-- What the growing with its second attempt may do. -/
inductive GrowEnds (kmalloc retry : Kmalloc) (kmflag : ℕ) (k : Kmem) (live : Finset ℕ)
    (l : List Place) : Kmem → Option ℕ → Prop
  | grown {k' : Kmem} {x : Place} {evs : List Event}
      (supplied : Supplies kmalloc k.blocks k.cache (hasFlag kmflag kvOffSlab) ∨
        k.cache.reclaim = true ∧ Supplies retry k.blocks k.cache (hasFlag kmflag kvOffSlab))
      (sound : Sound k' live (x :: l)) (off : x.off = hasFlag kmflag kvOffSlab)
      (room : positionOf k'.slab x.addr = 0) (fruitless : Fruitless k.blocks evs)
      (effect : Effect k k' (evs ++
        (x.allocs k.cache ++ constructed k.cache kmflag x.ptr 0 k.cache.objects))) :
      GrowEnds kmalloc retry kmflag k live l k' (some x.addr)
  | refused {k' : Kmem} {evs : List Event}
      (denied : ¬ Supplies kmalloc k.blocks k.cache (hasFlag kmflag kvOffSlab))
      (sound : Sound k' live l) (fruitless : Fruitless k.blocks evs) (effect : Effect k k' evs) :
      GrowEnds kmalloc retry kmflag k live l k' none

namespace Sound
variable {k : Kmem} {live : Finset ℕ} {l : List Place} {x y : Place} {i : ℕ} {h : Slab}
  {kmalloc retry : Kmalloc}

theorem grow_refused (hk : Sound k live l) (hG : Grants addressTop kmalloc) {kmflag : ℕ}
    (hno : ¬ Supplies kmalloc k.blocks k.cache (hasFlag kmflag kvOffSlab)) :
    ∃ k' evs, kmemCacheGrow kmalloc k kmflag = .ok (k', none) ∧ Sound k' live l ∧
      k'.cache = k.cache ∧ k'.blocks = k.blocks ∧ Effect k k' evs ∧ Fruitless k.blocks evs := by
  rcases hk.newSlab hG kmflag with ⟨-, k', evs, hnew, hrest⟩ | ⟨hyes, -⟩
  · exact ⟨k', evs, by rw [kmemCacheGrow, hnew], hrest⟩
  · exact (hno hyes).elim

theorem grow_granted (hk : Sound k live l) (hG : Grants addressTop kmalloc) {kmflag : ℕ}
    (hyes : Supplies kmalloc k.blocks k.cache (hasFlag kmflag kvOffSlab)) :
    ∃ k' x, kmemCacheGrow kmalloc k kmflag = .ok (k', some x.addr) ∧ Sound k' live (x :: l) ∧
      x.off = hasFlag kmflag kvOffSlab ∧ positionOf k'.slab x.addr = 0 ∧
      Effect k k' (x.allocs k.cache ++ constructed k.cache kmflag x.ptr 0 k.cache.objects) := by
  rcases hk.newSlab hG kmflag with ⟨hno, -⟩ | ⟨-, x, hoff, hin, hall, hnew⟩
  · exact (hno hyes).elim
  · obtain ⟨k', hgrow, hk', he, hpos⟩ := hk.kmemCacheGrow_granted hin hall hnew
    exact ⟨k', x, hgrow, hk', hoff, hpos, he⟩

theorem growOrReclaim_ends (hk : Sound k live l) (hG : Grants addressTop kmalloc)
    (hG' : Grants addressTop retry) (kmflag : ℕ) :
    ∃ k' r, growOrReclaim kmalloc retry k kmflag = .ok (k', r) ∧
      GrowEnds kmalloc retry kmflag k live l k' r := by
  by_cases hyes : Supplies kmalloc k.blocks k.cache (hasFlag kmflag kvOffSlab)
  · obtain ⟨k', x, hgrow, hk', hoff, hpos, he⟩ := hk.grow_granted hG hyes
    exact ⟨k', some x.addr, by simp [growOrReclaim, hgrow],
      .grown (.inl hyes) hk' hoff hpos (.nil _) he⟩
  · obtain ⟨k₁, evs, hgrow, hk₁, hc, hb, he, hev⟩ := hk.grow_refused hG hyes
    cases hreclaim : k.cache.reclaim with
    | false =>
      exact ⟨k₁, none, by simp [growOrReclaim, hgrow, hc, hreclaim], .refused hyes hk₁ hev he⟩
    | true =>
      -- the hook runs, and the growing is tried once more
      have hk₂ : Sound (k₁.note .reclaim) live l := hk₁.frame rfl rfl rfl rfl fun _ _ => rfl
      have he₂ : Effect k (k₁.note .reclaim) (evs ++ [.reclaim]) := he.trans ⟨rfl, rfl, rfl⟩
      have hev₂ : Fruitless k.blocks (evs ++ [.reclaim]) := hev.append
        ⟨fun e he => List.mem_singleton.mp he ▸ rfl, fun _ _ => rfl⟩
      have hsecond : growOrReclaim kmalloc retry k kmflag =
          kmemCacheGrow retry (k₁.note .reclaim) kmflag := by
        simp [growOrReclaim, hgrow, hc, hreclaim]
      by_cases hyes' : Supplies retry k.blocks k.cache (hasFlag kmflag kvOffSlab)
      · obtain ⟨k', x, hgrow', hk', hoff, hpos, he'⟩ := hk₂.grow_granted hG'
          (show Supplies retry k₁.blocks k₁.cache _ from hb ▸ hc ▸ hyes')
        refine ⟨k', some x.addr, hsecond.trans hgrow', .grown (.inr ⟨hreclaim, hyes'⟩) hk' hoff hpos
          hev₂ (he₂.trans ?_)⟩
        exact hc ▸ he'
      · obtain ⟨k', evs', hgrow', hk', -, -, he', hev'⟩ := hk₂.grow_refused hG'
          (show ¬ Supplies retry k₁.blocks k₁.cache _ from hb ▸ hc ▸ hyes')
        exact ⟨k', none, hsecond.trans hgrow', .refused hyes hk' (hev₂.append (hb ▸ hev'))
          (he₂.trans he')⟩

theorem alloc (hk : Sound k live l) (hG : Grants addressTop kmalloc)
    (hG' : Grants addressTop retry) (kmflag : ℕ) :
    ∃ k' r, kmemCacheAllocRetry kmalloc retry k kmflag = .ok (k', r) ∧
      AllocEnds kmalloc retry kmflag k live l k' r := by
  by_cases hfirst : ∃ x, l.head? = some x ∧ positionOf k.slab x.addr ≠ k.cache.objects
  · obtain ⟨x, hx, hroom⟩ := hfirst
    obtain ⟨l, rfl⟩ : ∃ l', l = x :: l' := ⟨l.tail, (List.cons_head?_tail hx).symm⟩
    obtain ⟨k', p, hr, hp, hk', he⟩ := hk.allocWithin_room hroom kmalloc retry kmflag 1
    exact ⟨k', some p, hr, .given hp hk' (.refl _) he⟩
  · push Not at hfirst
    have hnone := hk.firstFree_full hfirst
    unfold kmemCacheAllocRetry
    by_cases htotal : k.cache.totalObjects = k.cache.usedObjects
    · cases hgrow : hasFlag k.cache.cflags kvNogrow with
      | true =>
        exact ⟨k, none, by simp [allocWithin, hnone, htotal, hgrow],
          .refused htotal (.inl hgrow) hk (.nil _) (.refl k)⟩
      | false =>
        obtain ⟨k₁, r, hgrown, hends⟩ := hk.growOrReclaim_ends hG hG' kmflag
        cases hends with
        | refused hno hk₁ hev he =>
          exact ⟨k₁, none, by simp [allocWithin, hnone, htotal, hgrow, hgrown],
            .refused htotal (.inr hno) hk₁ hev he⟩
        | @grown x evs hsup hk₁ hoff hpos hev he =>
          have hroom : positionOf k₁.slab x.addr ≠ k₁.cache.objects := by
            have := hk₁.fits.objects
            omega
          obtain ⟨k', p, ht, hp, hk', he'⟩ := hk₁.allocWithin_room hroom kmalloc retry kmflag 0
          refine ⟨k', some p, ?_, .grown htotal hgrow hsup hp hk' hoff hev
            (by simpa using he.trans he')⟩
          rw [allocWithin, hnone, ok_bind]
          dsimp only
          rw [if_pos htotal, hgrow, if_neg Bool.false_ne_true, hgrown]
          exact ht
    · obtain ⟨s, hs⟩ : ∃ s, l.find? (fun y => positionOf k.slab y.addr ≠ k.cache.objects) =
          some s := by
        rw [← Option.isSome_iff_exists, List.find?_isSome]
        by_contra hno
        push Not at hno
        exact htotal (hk.total_eq_used_iff.mpr fun y hy => by simpa using hno y hy)
      obtain ⟨hroom, xs, ys, rfl, hxs⟩ := List.find?_eq_some_iff_append.mp hs
      have hroom : positionOf k.slab s.addr ≠ k.cache.objects := by simpa using hroom
      have hxs : ∀ y ∈ xs, positionOf k.slab y.addr = k.cache.objects := by simpa using hxs
      cases xs with
      | nil => exact absurd (hfirst s rfl) hroom
      | cons x xs =>
        obtain ⟨k₁, hr, hk₁, he, hobj, hpos⟩ :=
          hk.moveToFront_eq (fun y hy => hxs y (by simp [hy])) hroom
        obtain ⟨k', p, ht, hp, hk', he'⟩ :=
          hk₁.allocWithin_room (by rw [hpos, hobj]; exact hroom) kmalloc retry kmflag 0
        refine ⟨k', some p, ?_, .given hp hk' (@List.perm_middle _ s (x :: xs) ys).symm
          (he.trans he')⟩
        rw [allocWithin, hnone, ok_bind]
        dsimp only
        rw [if_neg htotal, hr]
        exact ht

end Sound

def Place.slots (c : KmemCache) (x : Place) : List ℕ := (List.range c.objects).map (slotAt c x.ptr)

/-- What `kmem_destroy_slab` gives to `FREE`: the flags of the cache decide. -/
def Place.freed (c : KmemCache) (x : Place) : List ℕ :=
  if hasFlag c.cflags kvOffSlab then [x.ptr, x.addr] else [x.addr]

/-- The events when a slab is destroyed. -/
def Place.dropped (c : KmemCache) (x : Place) : List Event :=
  (if c.destructor then (x.slots c).map .destruct else []) ++ (x.freed c).map .free

section Params
variable {c c' : KmemCache}

theorem KmemCache.Fits.congr (hc : c.Fits) (h : c'.params = c.params) : c'.Fits := by
  have hp : c'.params.Fits := h ▸ ⟨hc.1, hc.2, hc.3, hc.4, hc.5⟩
  exact ⟨hp.1, hp.2, hp.3, hp.4, hp.5⟩

theorem cflags_congr (h : c'.params = c.params) : c'.cflags = c.cflags :=
  show c'.params.cflags = c.params.cflags from h ▸ rfl

theorem slabOffset_congr (h : c'.params = c.params) (p : ℕ) : slabOffset c' p = slabOffset c p :=
  show slabOffset c'.params p = slabOffset c.params p from h ▸ rfl

theorem intSlabobjSize_congr (h : c'.params = c.params) : c'.intSlabobjSize = c.intSlabobjSize :=
  show c'.params.intSlabobjSize = c.params.intSlabobjSize from h ▸ rfl

theorem Place.dropped_congr (h : c'.params = c.params) (x : Place) :
    x.dropped c' = x.dropped c :=
  show x.dropped c'.params = x.dropped c.params from h ▸ rfl

end Params

def Kmem.freeAll (k : Kmem) (as : List ℕ) : Kmem := as.foldl Kmem.free k

namespace Kmem
variable {k : Kmem} {as : List ℕ} {a : ℕ}

theorem freeAll_slab (ha : a ∉ as) : (k.freeAll as).slab a = k.slab a := by
  induction as generalizing k with
  | nil => rfl
  | cons b as ih =>
    rw [List.mem_cons, not_or] at ha
    exact (ih ha.2).trans (Function.update_of_ne ha.1 _ _)

theorem freeAll_effect (k : Kmem) (as : List ℕ) : Effect k (k.freeAll as) (as.map .free) := by
  induction as generalizing k with
  | nil => exact .refl k
  | cons b as ih =>
    have hfree : Effect k (k.free b) [.free b] := ⟨rfl, rfl, rfl⟩
    exact hfree.trans (ih (k.free b))

end Kmem

theorem destructObjects_eq {k : Kmem} {a : ℕ} {h : Slab} {c : KmemCache} {p left i : ℕ}
    (hf : c.Fits) (hin : p + c.intSlabobjSize ≤ addressTop) (hc : k.cache = c)
    (hh : k.slab a = some h) (hp : h.ptr = p) (ho : h.offset = slabOffset c p)
    (hi : i + left ≤ c.objects) :
    destructObjects a i left k = .ok { k with
      trace := k.trace ++ (List.range' i left).map fun j => .destruct (slotAt c p j) } := by
  induction left generalizing i k with
  | zero => rw [destructObjects, List.range'_zero, List.map_nil, List.append_nil]
  | succ left ih =>
    have hptr : getObjectPtr k a i = .ok (slotAt c p i) := by
      subst hc
      exact getObjectPtr_eq hf.roomy hin hh hp ho (by omega)
    have hrest := ih (k := k.note (.destruct (slotAt c p i))) (i := i + 1) hc hh (by omega)
    rw [destructObjects, hptr, ok_bind, hrest, List.range'_succ, List.map_cons, List.append_cons]
    rfl

/-- A slab is destroyed: its destructors run, then its blocks are given back. -/
theorem destroySlab_eq {k : Kmem} {x : Place} {h : Slab} (hf : k.cache.Fits)
    (hin : x.ptr + k.cache.intSlabobjSize ≤ addressTop) (hh : k.slab x.addr = some h)
    (hp : h.ptr = x.ptr) (ho : h.offset = slabOffset k.cache x.ptr) :
    ∃ bare : Kmem, kmemDestroySlab k x.addr = .ok (bare.freeAll (x.freed k.cache)) ∧ bare = { k with
      cache.totalObjects := k.cache.totalObjects - k.cache.objects
      trace := k.trace ++ if k.cache.destructor then (x.slots k.cache).map .destruct else [] } := by
  obtain ⟨trace, htrace⟩ : ∃ trace, trace = k.trace ++
      if k.cache.destructor then (x.slots k.cache).map .destruct else [] := ⟨_, rfl⟩
  have hd : callDestructor k x.addr = .ok { k with trace := trace } := by
    unfold callDestructor
    split_ifs at htrace ⊢
    · rw [destructObjects_eq hf hin rfl hh hp ho (Nat.zero_add _).le, htrace, Place.slots,
        List.map_map, List.range_eq_range']
      rfl
    · rw [htrace, List.append_nil]
  refine ⟨_, ?_, rfl⟩
  rw [← htrace, kmemDestroySlab, hd, ok_bind, freeSlab, Place.freed]
  split_ifs
  · rw [load_some hh, ok_bind, ok_bind, hp]
    rfl
  · rfl

namespace Sound
variable {k : Kmem} {live : Finset ℕ} {l xs ys : List Place} {x y : Place} {h : Slab}

/-- A block that is not one of the cache and of its slabs may go. -/
theorem release (hk : Sound k live l) {p : ℕ}
    (hp : ∀ b ∈ (k.cp, sizeofCache) :: l.flatMap (Place.blocks k.cache), b.1 ≠ p) :
    Sound (k.free p) live l := by
  refine hk.frame_blocks rfl rfl (hk.allocated.sublist List.eraseP_sublist)
    (subperm_eraseP hk.blocks hp) fun x hx => ?_
  obtain ⟨b, hb, hbx, -⟩ := x.addr_block k.cache
  have hne := hp b (List.mem_cons_of_mem _ (List.mem_flatMap.mpr ⟨x, hx, hb⟩))
  exact Function.update_of_ne (fun he => hne (hbx.trans he)) _ _

theorem releaseAll (hk : Sound k live l) {as : List ℕ}
    (has : ∀ p ∈ as, ∀ b ∈ (k.cp, sizeofCache) :: l.flatMap (Place.blocks k.cache), b.1 ≠ p) :
    Sound (k.freeAll as) live l := by
  induction as generalizing k with
  | nil => exact hk
  | cons a as ih =>
    exact ih (hk.release (has a List.mem_cons_self)) fun p hp => has p (List.mem_cons_of_mem a hp)

/-- Where a slab begins and where its objects begin no other block begins. -/
theorem freed_ne (hk : Sound k live (xs ++ x :: ys)) {p : ℕ} (hp : p ∈ x.freed k.cache) {b : Block}
    (hb : b ∈ (k.cp, sizeofCache) :: (xs ++ ys).flatMap (Place.blocks k.cache)) : b.1 ≠ p := by
  have hperm : (x.blocks k.cache ++
      ((k.cp, sizeofCache) :: (xs ++ ys).flatMap (Place.blocks k.cache))).Perm
      ((k.cp, sizeofCache) :: (xs ++ x :: ys).flatMap (Place.blocks k.cache)) := by
    refine List.perm_middle.trans (List.Perm.cons _ ?_)
    exact (List.perm_middle.symm.flatMap_right (Place.blocks k.cache))
  have happ := (List.pairwise_append.mp (hk.held_blocks.subperm hperm.subperm).apart).2.2
  have hpos : 0 < b.2 := by
    rcases List.mem_cons.mp hb with rfl | hb
    · exact Nat.zero_lt_succ _
    · obtain ⟨y, -, hy⟩ := List.mem_flatMap.mp hb
      exact (Place.mem_blocks hk.fits hy).1
  obtain ⟨d, hd, hle, hlt⟩ : ∃ d ∈ x.blocks k.cache, d.1 ≤ p ∧ p < d.1 + d.2 := by
    have hor : p = x.addr ∨ p = x.ptr := by
      unfold Place.freed at hp
      split_ifs at hp
      · simpa [or_comm] using hp
      · simpa using Or.inl hp
    rcases hor with rfl | rfl
    · obtain ⟨d, hd, hdx, hdpos⟩ := x.addr_block k.cache
      exact ⟨d, hd, hdx.le, by omega⟩
    · obtain ⟨d, hd, hle, hend⟩ := Place.space_block (hk.inline x (by simp))
      have hroom := (slotAt_bounds (p := x.ptr) hk.fits.roomy hk.fits.objects).2
      have hlo := (slotAt_bounds (p := x.ptr) hk.fits.roomy hk.fits.objects).1
      have hsize := hk.fits.size
      exact ⟨d, hd, hle, by omega⟩
  exact (happ d hd b hb).start_ne hpos hle hlt

theorem unlink (hk : Sound k live (xs ++ x :: ys)) (hh : k.slab x.addr = some h) :
    ∃ slab₁ slab, k.setPrevIf h.next h.prev = .ok { k with slab := slab₁ } ∧
      Kmem.setNextIf { k with slab := slab₁ } h.prev h.next = .ok { k with slab := slab } ∧
      Relinked k.slab slab ∧
      Linked (via Slab.next slab) (via Slab.prev slab) none ((xs ++ ys).map Place.addr) none ∧
      (if k.cache.slabs = some x.addr then h.next else k.cache.slabs) =
        ((xs ++ ys).map Place.addr).head? := by
  have hex : ∀ a ∈ (xs ++ x :: ys).map Place.addr, ∃ g, k.slab a = some g := fun a ha => by
    obtain ⟨y, hy, rfl⟩ := List.mem_map.mp ha
    obtain ⟨g, hg, -⟩ := hk.slab y hy
    exact ⟨g, hg⟩
  have hmap : (xs ++ x :: ys).map Place.addr =
      xs.map Place.addr ++ x.addr :: ys.map Place.addr := by
    simp
  have hnd := hk.nodup
  have hlinked := hk.linked
  rw [hmap] at hex hnd hlinked
  obtain ⟨hnext, hprev⟩ := hk.chained.next_eq rfl hh
  obtain ⟨slab₁, h₁, r₁, n₁, p₁⟩ := setPrevIf_relinks (k := k) (p := h.next) (fun a ha => hex a (by
    rw [hnext] at ha
    exact List.mem_append_right _ (List.mem_cons_of_mem _ (List.mem_of_mem_head? ha)))) h.prev
  obtain ⟨slab₂, h₂, r₂, p₂, n₂⟩ := setNextIf_relinks (k := { k with slab := slab₁ })
    (p := h.prev) (fun a ha => r₁.exists (hex a (by
      rw [hprev] at ha
      exact List.mem_append_left _ (List.mem_of_getLast? ha)))) h.next
  refine ⟨slab₁, slab₂, h₁, h₂, r₁.trans r₂, ?_, ?_⟩
  · rw [List.map_append]
    refine Linked.unlink (x := x.addr) hlinked hnd (fun a _ => ?_) fun a _ => ?_
    · rw [n₂, n₁, hnext, hprev, Option.or_none]
    · rw [p₂, p₁, hnext, hprev, Option.or_none]
  · rw [hk.first, hmap]
    cases xs with
    | nil => rw [List.map_nil, List.nil_append, List.head?_cons, if_pos rfl, hnext, List.nil_append]
    | cons y xs =>
      have hyx : y.addr ≠ x.addr := fun e => (List.nodup_cons.mp hnd).1 (by simp [e])
      simp [hyx]

/-- Without a slab that has no live object the others are as sound as before. -/
theorem without (hk : Sound k live (xs ++ x :: ys)) (hh : k.slab x.addr = some h)
    (hpos : h.position = 0) {slab : ℕ → Option Slab} (hr : Relinked k.slab slab)
    (hlinked : Linked (via Slab.next slab) (via Slab.prev slab) none ((xs ++ ys).map Place.addr)
      none) :
    Sound { k with
      slab := slab
      cache.slabs := ((xs ++ ys).map Place.addr).head?
      cache.totalObjects := k.cache.totalObjects - k.cache.objects } live (xs ++ ys) := by
  have hsub : (xs ++ ys).Sublist (xs ++ x :: ys) := by simp
  have hpositions : ∀ y ∈ xs ++ ys,
      positionOf slab y.addr = positionOf k.slab y.addr := fun y hy => by
    obtain ⟨g, hg, -⟩ := hk.slab y (hsub.subset hy)
    exact hr.positionOf_eq ⟨g, hg⟩
  have hs := hk.held (show x ∈ xs ++ x :: ys by simp) hh
  refine ⟨⟨hk.fits.1, hk.fits.2, hk.fits.3, hk.fits.4, hk.fits.5⟩, rfl, hlinked, hk.allocated,
    fun y hy => hk.inline y (hsub.subset hy), ?_, fun y hy => ?_, fun p hp => ?_, hk.used, ?_, ?_⟩
  · exact ((hsub.flatMap _).cons_cons _).subperm.trans hk.blocks
  · obtain ⟨g, hg, hs⟩ := hr.holds (hk.slab y (hsub.subset hy))
    exact ⟨g, hg, hs.1, hs.2, hs.3, hs.4⟩
  · obtain ⟨y, hy, i, hi, rfl⟩ := hk.owned p hp
    refine ⟨y, ?_, i, hi, rfl⟩
    have hyx : y ≠ x := by
      rintro rfl
      exact hs.stack.position_eq_zero_iff.mp hpos i hi hp
    simp only [List.mem_append, List.mem_cons] at hy ⊢
    tauto
  · have hsum := hk.positions
    rw [List.map_congr_left hpositions, List.map_append, List.sum_append]
    rw [List.map_append, List.sum_append, List.map_cons, List.sum_cons, positionOf_eq hh, hpos]
      at hsum
    dsimp only
    omega
  · dsimp only
    rw [hk.total]
    simp only [List.length_append, List.length_cons, Nat.mul_add, Nat.mul_one]
    omega

theorem dropSlab_eq (hk : Sound k live (xs ++ x :: ys)) (hh : k.slab x.addr = some h)
    (hpos : h.position = 0) :
    ∃ k', dropSlab k x.addr h = .ok k' ∧ Sound k' live (xs ++ ys) ∧
      Effect k k' (x.dropped k.cache) ∧
      ∀ y ∈ xs ++ ys, positionOf k'.slab y.addr = positionOf k.slab y.addr := by
  obtain ⟨slab₁, slab, h₁, h₂, hr, hlinked, hslabs⟩ := hk.unlink hh
  have hsub : (xs ++ ys).Sublist (xs ++ x :: ys) := by simp
  have hs := hk.held (show x ∈ xs ++ x :: ys by simp) hh
  obtain ⟨n, p, hh₂⟩ := hr x.addr h hh
  obtain ⟨bare, hdestroy, hbare⟩ := destroySlab_eq
    (k := { k with slab := slab, cache.slabs := ((xs ++ ys).map Place.addr).head? })
    ⟨hk.fits.1, hk.fits.2, hk.fits.3, hk.fits.4, hk.fits.5⟩ (hk.inside (by simp)).2 hh₂ hs.ptr
    hs.offset
  have hsound : Sound bare live (xs ++ ys) :=
    hbare ▸ (hk.without hh hpos hr hlinked).frame rfl rfl rfl rfl fun _ _ => rfl
  have hfreed : ∀ p ∈ x.freed k.cache,
      ∀ b ∈ (k.cp, sizeofCache) :: (xs ++ ys).flatMap (Place.blocks k.cache), b.1 ≠ p :=
    fun p hp b hb => hk.freed_ne hp hb
  have hapart : ∀ p ∈ x.freed k.cache,
      ∀ b ∈ (bare.cp, sizeofCache) :: (xs ++ ys).flatMap (Place.blocks bare.cache), b.1 ≠ p :=
    hbare ▸ hfreed
  refine ⟨_, ?_, hsound.releaseAll hapart, ?_, fun y hy => ?_⟩
  · refine Eq.trans ?_ hdestroy
    rw [dropSlab, h₁, ok_bind, h₂, ok_bind]
    dsimp only
    rw [← hslabs]
    congr 1
    split_ifs <;> rfl
  · exact Effect.trans (hbare ▸ ⟨rfl, rfl, rfl⟩) (bare.freeAll_effect _)
  · obtain ⟨g, hg, -⟩ := hk.slab y (hsub.subset hy)
    obtain ⟨b, hb, hby, -⟩ := y.addr_block k.cache
    have hnot : y.addr ∉ x.freed k.cache := fun hyx =>
      hfreed _ hyx b (List.mem_cons_of_mem _ (List.mem_flatMap.mpr ⟨y, hy, hb⟩)) hby
    rw [← hr.positionOf_eq ⟨g, hg⟩, positionOf, Kmem.freeAll_slab hnot, hbare, positionOf]

/-- The slabs with no live object go, the others stay as they are. -/
theorem shrinkFrom_eq (xs : List Place) (hk : Sound k live (xs ++ l)) {left : ℕ}
    (hleft : l.length < left) :
    ∃ k', shrinkFrom left (l.map Place.addr).head? k = .ok k' ∧
      Sound k' live (xs ++ l.filter fun x => positionOf k.slab x.addr ≠ 0) ∧
      Effect k k' ((l.filter fun x => positionOf k.slab x.addr = 0).flatMap
        (Place.dropped k.cache)) := by
  induction l generalizing k xs left with
  | nil =>
    refine ⟨k, ?_, by simpa using hk, .refl k⟩
    rw [List.map_nil, List.head?_nil]
    unfold shrinkFrom
    rfl
  | cons x l ih =>
    obtain ⟨left, rfl⟩ := Nat.exists_eq_add_one_of_ne_zero (show left ≠ 0 by omega)
    obtain ⟨h, hh, -⟩ := hk.slab x (by simp)
    have hnext := (hk.chained.next_eq rfl hh).1
    rw [List.map_cons, List.head?_cons, shrinkFrom, load_some hh, ok_bind, hnext]
    by_cases hpos : h.position = 0
    · obtain ⟨k₁, hr, hk₁, he, hsame⟩ := hk.dropSlab_eq hh hpos
      obtain ⟨k', hr', hk', he'⟩ := ih _ hk₁ (by simpa using hleft)
      have hsame' : ∀ y ∈ l, positionOf k₁.slab y.addr = positionOf k.slab y.addr :=
        fun y hy => hsame y (List.mem_append_right xs hy)
      refine ⟨k', by rw [if_pos hpos, hr, ok_bind, hr'], ?_, ?_⟩
      · rw [List.filter_cons_of_neg (by simpa [positionOf_eq hh] using hpos)]
        rwa [List.filter_congr fun y hy => by rw [hsame' y hy]] at hk'
      · rw [List.filter_cons_of_pos (by simpa [positionOf_eq hh] using hpos), List.flatMap_cons]
        rw [List.filter_congr fun y hy => by rw [hsame' y hy],
          funext (Place.dropped_congr he.params)] at he'
        exact he.trans he'
    · obtain ⟨k', hr, hk', he⟩ := @ih k (xs ++ [x]) (by simpa using hk) left (by simpa using hleft)
      refine ⟨k', by rw [if_neg hpos, hr], ?_, ?_⟩
      · rw [List.filter_cons_of_pos (by simpa [positionOf_eq hh] using hpos)]
        simpa using hk'
      · rwa [List.filter_cons_of_neg (by simpa [positionOf_eq hh] using hpos)]

theorem shrink (hk : Sound k live l) :
    ∃ k', kmemCacheShrink k = .ok k' ∧
      Sound k' live (l.filter fun x => positionOf k.slab x.addr ≠ 0) ∧
      Effect k k' ((l.filter fun x => positionOf k.slab x.addr = 0).flatMap
        (Place.dropped k.cache)) := by
  have hlen := hk.length_le
  rw [kmemCacheShrink, hk.first]
  exact shrinkFrom_eq [] hk (by unfold slabBound; omega)

theorem position_ne_zero_iff (hk : Sound k live l) (hx : x ∈ l) :
    positionOf k.slab x.addr ≠ 0 ↔ ∃ i < k.cache.objects, slotAt k.cache x.ptr i ∈ live := by
  obtain ⟨h, hh, hs⟩ := hk.slab x hx
  rw [positionOf_eq hh, ne_eq, hs.stack.position_eq_zero_iff]
  push Not
  rfl

/-- All slabs behind those that are gone are destroyed, whatever is live. -/
theorem destroyFrom_eq (hk : Sound k live (xs ++ ys)) {k₁ : Kmem}
    (hc : k₁.cache.params = k.cache.params) (hslab : ∀ y ∈ ys, k₁.slab y.addr = k.slab y.addr)
    {left : ℕ} (hleft : ys.length < left) :
    ∃ k', destroyFrom left (ys.map Place.addr).head? k₁ = .ok k' ∧
      Effect k₁ k' (ys.flatMap (Place.dropped k.cache)) := by
  induction ys generalizing k₁ xs left with
  | nil =>
    refine ⟨k₁, ?_, .refl k₁⟩
    rw [List.map_nil, List.head?_nil]
    unfold destroyFrom
    rfl
  | cons x ys ih =>
    obtain ⟨left, rfl⟩ := Nat.exists_eq_add_one_of_ne_zero (show left ≠ 0 by omega)
    have hx : x ∈ xs ++ x :: ys := by simp
    obtain ⟨h, hh, hs⟩ := hk.slab x hx
    have hh₁ : k₁.slab x.addr = some h := (hslab x List.mem_cons_self).trans hh
    have hin : x.ptr + k₁.cache.intSlabobjSize ≤ addressTop :=
      intSlabobjSize_congr hc ▸ (hk.inside hx).2
    obtain ⟨bare, hdestroy, hbare⟩ := destroySlab_eq (hk.fits.congr hc) hin hh₁ hs.ptr
      (hs.offset.trans (slabOffset_congr hc _).symm)
    have hfirst : Effect k₁ (bare.freeAll (x.freed k₁.cache)) (x.dropped k.cache) := by
      rw [← Place.dropped_congr hc]
      exact Effect.trans (hbare ▸ ⟨rfl, rfl, rfl⟩) (bare.freeAll_effect _)
    have hkeep : ∀ y ∈ ys, (bare.freeAll (x.freed k₁.cache)).slab y.addr = k.slab y.addr :=
        fun y hy => by
      obtain ⟨b, hb, hby, -⟩ := y.addr_block k.cache
      have hnot : y.addr ∉ x.freed k₁.cache := fun hyx => by
        have hyx : y.addr ∈ x.freed k.cache := by
          have : x.freed k₁.cache.params = x.freed k.cache.params := hc ▸ rfl
          exact this ▸ hyx
        exact hk.freed_ne hyx (List.mem_cons_of_mem _
          (List.mem_flatMap.mpr ⟨y, List.mem_append_right xs hy, hb⟩)) hby
      rw [Kmem.freeAll_slab hnot, hbare]
      exact hslab y (List.mem_cons_of_mem x hy)
    obtain ⟨k', hrest, he⟩ := @ih (xs ++ [x]) (by simpa using hk) _ (hfirst.params.trans hc) hkeep
      left (by simpa using hleft)
    refine ⟨k', ?_, hfirst.trans he⟩
    rw [List.map_cons, List.head?_cons, destroyFrom, load_some hh₁, ok_bind, hdestroy, ok_bind,
      (hk.chained.next_eq rfl hh).1, hrest]

theorem destroy (hk : Sound k live l) :
    ∃ k', kmemCacheDestroy k = .ok k' ∧
      Effect k k' (l.flatMap (Place.dropped k.cache) ++ [.free k.cp]) := by
  have hlen := hk.length_le
  obtain ⟨k', hr, he⟩ := destroyFrom_eq (show Sound k live ([] ++ l) from hk) rfl (fun _ _ => rfl)
    (show l.length < slabBound k.cache by unfold slabBound; omega)
  refine ⟨k'.free k'.cp, ?_, he.trans (he.cp ▸ ⟨rfl, rfl, rfl⟩)⟩
  rw [kmemCacheDestroy, hk.first, hr]
  rfl

end Sound

/-- A new cache is empty, and its sizes fit when none of them wraps. -/
theorem sound_of_create {objects size align cflags : ℕ} {constructor destructor reclaim : Bool}
    {kmalloc : Kmalloc} (hG : Grants addressTop kmalloc) (hsize : 0 < size) (hobjects : 0 < objects)
    (hfit : sizeofSlab + objects * sizeofCtl + meantSlabobjSize objects size align cflags < 2 ^ 32)
    {k : Kmem}
    (hk : kmemCacheCreate kmalloc objects size align constructor destructor reclaim cflags =
      some k) : Sound k ∅ [] ∧ k.trace = [.alloc sizeofCache (some k.cp)] ∧
        k.cache.cflags = cflags ∧ k.cache.constructor = constructor ∧
        k.cache.destructor = destructor ∧ k.cache.reclaim = reclaim := by
  have hcreated := created_of_create hk
  unfold kmemCacheCreate at hk
  dsimp only at hk
  cases hcp : kmalloc [] sizeofCache with
  | none => simp [hcp] at hk
  | some cp =>
    rw [hcp, Option.some_inj] at hk
    subst hk
    refine ⟨⟨hcreated.fits hsize hobjects hfit, rfl, trivial, ?_, nofun, ?_, nofun, nofun, rfl, rfl,
      rfl⟩, rfl, rfl, rfl, rfl, rfl⟩
    · exact Allocated.grant ⟨fun b hb => absurd hb List.not_mem_nil, .nil⟩ hG hcp
    · exact List.Subperm.refl _

end Racoon.SlabAllocator
