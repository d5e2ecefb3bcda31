import Racoon.Mm.Slabs

/-!
# Runs of a cache

A client asks for objects with any flags, gives them back and shrinks the cache.
What `ALLOC` answers is part of a request, before and after the `reclaim` hook.
Each request is described by what it does to the slabs and by its events.
-/

namespace Racoon.SlabAllocator
open Lib

inductive Request
  | alloc (kmalloc retry : Kmalloc) (kmflag : ℕ)
  | free (obj : ℕ)
  | shrink

def Request.exec (s : Run) : Request → Outcome Run
  | .alloc kmalloc retry kmflag => do
    let r ← kmemCacheAllocRetry kmalloc retry s.kmem kmflag
    .ok ⟨r.1, r.2.elim s.live fun p => insert p s.live⟩
  | .free obj => do
    let k ← kmemCacheFree s.kmem obj
    .ok ⟨k, s.live.erase obj⟩
  | .shrink => do
    let k ← kmemCacheShrink s.kmem
    .ok ⟨k, s.live⟩

/-- What is given back is live, or it is nothing that a slab holds. -/
def Request.Permitted (s : Run) : Request → Prop
  | .alloc kmalloc retry _ => Grants addressTop kmalloc ∧ Grants addressTop retry
  | .free obj => obj ∈ s.live ∨ obj = 0 ∨ getObjectSlab s.kmem obj = .ok none
  | .shrink => True

def cacheSystem (k₀ : Kmem) : System Run Request Fault where
  Init s := s = ⟨k₀, ∅⟩
  Guard s q := q.Permitted s
  step s q := q.exec s

/-- `kmem_cache_alloc` grows the cache. -/
def Grows (kmalloc retry : Kmalloc) (k : Kmem) (kmflag : ℕ) : Prop :=
  k.cache.totalObjects = k.cache.usedObjects ∧ hasFlag k.cache.cflags kvNogrow = false ∧
    (Supplies kmalloc k.blocks k.cache (hasFlag kmflag kvOffSlab) ∨
      k.cache.reclaim = true ∧ Supplies retry k.blocks k.cache (hasFlag kmflag kvOffSlab))

/-- What a request does to the slabs `l`, and the events of it. -/
inductive Served (s : Run) (l : List Place) : Request → List Place → List Event → Prop
  | kept {q : Request} {l' : List Place} {evs : List Event} (perm : l'.Perm l)
      (fruitless : Fruitless s.kmem.blocks evs) : Served s l q l' evs
  | grown {kmalloc retry : Kmalloc} {kmflag : ℕ} {x : Place} {evs : List Event}
      (grows : Grows kmalloc retry s.kmem kmflag) (off : x.off = hasFlag kmflag kvOffSlab)
      (fruitless : Fruitless s.kmem.blocks evs) :
      Served s l (.alloc kmalloc retry kmflag) (x :: l) (evs ++ (x.allocs s.kmem.cache ++
        constructed s.kmem.cache kmflag x.ptr 0 s.kmem.cache.objects))
  | shrunk : Served s l .shrink (l.filter fun x => positionOf s.kmem.slab x.addr ≠ 0)
      ((l.filter fun x => positionOf s.kmem.slab x.addr = 0).flatMap (Place.dropped s.kmem.cache))

theorem Sound.free_other {k : Kmem} {live : Finset ℕ} {l : List Place} (hk : Sound k live l) {p : ℕ}
    (hp : p = 0 ∨ getObjectSlab k p = .ok none) : p ∉ live ∧ kmemCacheFree k p = .ok k := by
  refine ⟨fun hlive => ?_, ?_⟩
  · obtain ⟨x, hx, i, hi, rfl⟩ := hk.owned p hlive
    have hpos := hk.slotAt_pos hx hi
    rcases hp with hp | hp
    · omega
    · rw [hk.chained.getObjectSlab_eq hk.fits.roomy hx hi] at hp
      cases hp
  · unfold kmemCacheFree
    split_ifs with h0
    · rfl
    · rw [hp.resolve_left h0, ok_bind]

theorem Request.serve {s : Run} {l : List Place} (hs : Sound s.kmem s.live l) {q : Request}
    (hq : q.Permitted s) :
    ∃ t l' evs, q.exec s = .ok t ∧ Sound t.kmem t.live l' ∧ Effect s.kmem t.kmem evs ∧
      Served s l q l' evs := by
  cases q with
  | alloc kmalloc retry kmflag =>
    obtain ⟨k', r, hr, hends⟩ := hs.alloc hq.1 hq.2 kmflag
    refine ⟨⟨k', r.elim s.live fun p => insert p s.live⟩, ?_⟩
    have hexec : Request.exec s (.alloc kmalloc retry kmflag) =
        .ok ⟨k', r.elim s.live fun p => insert p s.live⟩ := bind_eq_ok.mpr ⟨_, hr, rfl⟩
    cases hends with
    | given hp hs' hperm he => exact ⟨_, _, hexec, hs', he, .kept hperm (.nil _)⟩
    | grown hfull hgrow hsup hp hs' hoff hev he =>
      exact ⟨_, _, hexec, hs', he, .grown ⟨hfull, hgrow, hsup⟩ hoff hev⟩
    | refused hfull hdenied hs' hev he => exact ⟨_, _, hexec, hs', he, .kept (.refl l) hev⟩
  | free obj =>
    rcases hq with hq | hq
    · obtain ⟨k', hr, hs', he⟩ := hs.free hq
      exact ⟨⟨k', s.live.erase obj⟩, l, [], bind_eq_ok.mpr ⟨_, hr, rfl⟩, hs', he,
        .kept (.refl l) (.nil _)⟩
    · obtain ⟨hlive, hr⟩ := hs.free_other hq
      refine ⟨⟨s.kmem, s.live.erase obj⟩, l, [], bind_eq_ok.mpr ⟨_, hr, rfl⟩, ?_, .refl _,
        .kept (.refl l) (.nil _)⟩
      rw [Finset.erase_eq_of_notMem hlive]
      exact hs
  | shrink =>
    obtain ⟨k', hr, hs', he⟩ := hs.shrink
    exact ⟨⟨k', s.live⟩, _, _, bind_eq_ok.mpr ⟨_, hr, rfl⟩, hs', he, .shrunk⟩

end Racoon.SlabAllocator
