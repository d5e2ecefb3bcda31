import Racoon.Mm.SlabCalls
import Racoon.Lib.Run

/-!
# Object conservation in the slab allocator

`Conserved k live l` says what the cache means when no slab is kept off its
header and no hook reclaims memory: its slabs are the chain `l`, the index stack
of each holds the objects of the slab that are not live, and the counters count.
It is read off from the state of a cache in general.
-/

namespace Racoon.SlabAllocator
open Lib

/-- One slab: the stack of its free objects and the marks around all of them. -/
structure SlabHolds (c : KmemCache) (word : ℕ → Option ℕ) (live : Finset ℕ) (a : ℕ) (h : Slab) :
    Prop where
  ptr : h.ptr = objectsAt c a
  offset : h.offset = slabOffset c (objectsAt c a)
  stack : FreeStack h.ctl h.position c.objects fun i => objAt c a i ∈ live
  marked : hasFlag c.cflags kvRedZone = true → ∀ i < c.objects,
    word (objAt c a i - sizeofRedzone) = some redZoneData ∧
    word (objAt c a i + c.size) = some redZoneData

structure Conserved (k : Kmem) (live : Finset ℕ) (l : List ℕ) : Prop where
  fits : k.cache.Fits
  onSlab : hasFlag k.cache.cflags kvOffSlab = false
  noHook : k.cache.reclaim = false
  nodup : l.Nodup
  first : k.cache.slabs = l.head?
  linked : Linked (via Slab.next k.slab) (via Slab.prev k.slab) none l none
  allocated : Allocated addressTop k.blocks
  block : ∀ a ∈ l, (a, slabBytes k.cache) ∈ k.blocks
  slab : ∀ a ∈ l, ∃ h, k.slab a = some h ∧ SlabHolds k.cache k.word live a h
  owned : ∀ p ∈ live, ∃ a ∈ l, ∃ i < k.cache.objects, p = objAt k.cache a i
  used : k.cache.usedObjects = live.card
  positions : (l.map (positionOf k.slab)).sum = k.cache.usedObjects
  total : k.cache.totalObjects = k.cache.objects * l.length

/-- A sound cache whose slabs are all of one block. -/
structure Plain (k : Kmem) (live : Finset ℕ) (l : List Place) : Prop where
  sound : Sound k live l
  onSlab : hasFlag k.cache.cflags kvOffSlab = false
  noHook : k.cache.reclaim = false
  one : ∀ x ∈ l, x.off = false

theorem SpaceHolds.slabHolds {c : KmemCache} {word : ℕ → Option ℕ} {live : Finset ℕ} {a : ℕ}
    {h : Slab} (hs : SpaceHolds c word live (objectsAt c a) h) : SlabHolds c word live a h :=
  ⟨hs.ptr, hs.offset, hs.stack, hs.marked⟩

namespace Plain
variable {k k' : Kmem} {live live' : Finset ℕ} {l l' : List Place} {x : Place} {evs : List Event}

theorem of_effect (hk : Plain k live l) (hs : Sound k' live' l') (he : Effect k k' evs)
    (hl : ∀ x ∈ l', x.off = false) : Plain k' live' l' where
  sound := hs
  onSlab := (congrArg (hasFlag · kvOffSlab) (cflags_congr he.params)).trans hk.onSlab
  noHook := (congrArg KmemCache.reclaim he.params).trans hk.noHook
  one := hl

theorem ptr_eq (hk : Plain k live l) (hx : x ∈ l) : x.ptr = objectsAt k.cache x.addr :=
  hk.sound.inline x hx (hk.one x hx)

theorem conserved (hk : Plain k live l) : Conserved k live (l.map Place.addr) where
  fits := hk.sound.fits
  onSlab := hk.onSlab
  noHook := hk.noHook
  nodup := hk.sound.nodup
  first := hk.sound.first
  linked := hk.sound.linked
  allocated := hk.sound.allocated
  block := List.forall_mem_map.mpr fun x hx => by
    refine hk.sound.blocks.subset (List.mem_cons_of_mem _ (List.mem_flatMap.mpr ⟨x, hx, ?_⟩))
    simp [Place.blocks, hk.one x hx]
  slab := List.forall_mem_map.mpr fun x hx => by
    obtain ⟨h, hh, hs⟩ := hk.sound.slab x hx
    exact ⟨h, hh, (hk.ptr_eq hx ▸ hs).slabHolds⟩
  owned p hp := by
    obtain ⟨x, hx, i, hi, rfl⟩ := hk.sound.owned p hp
    exact ⟨x.addr, List.mem_map_of_mem hx, i, hi, by rw [hk.ptr_eq hx, objAt_eq]⟩
  used := hk.sound.used
  positions := by
    rw [List.map_map]
    exact hk.sound.positions
  total := by
    rw [List.length_map]
    exact hk.sound.total

end Plain

/-- What `kmem_cache_alloc` may answer. -/
def Conserved.AllocSpec (kmalloc : Kmalloc) (k : Kmem) (live : Finset ℕ) (l : List ℕ) (k' : Kmem) :
    Option ℕ → Prop
  | some p => p ∉ live ∧ ∃ l', Conserved k' (insert p live) l'
  | none => Conserved k' live l ∧ (∀ a ∈ l, positionOf k.slab a = k.cache.objects) ∧
      (hasFlag k.cache.cflags kvNogrow = true ∨ kmalloc k.blocks (slabBytes k.cache) = none)

namespace Plain
variable {k : Kmem} {live : Finset ℕ} {l : List Place} {x : Place}

theorem alloc (hk : Plain k live l) {kmalloc : Kmalloc} (hG : Grants addressTop kmalloc)
    {kmflag : ℕ} (hflag : hasFlag kmflag kvOffSlab = false) :
    ∃ k' r, kmemCacheAlloc kmalloc k kmflag = .ok (k', r) ∧
      Conserved.AllocSpec kmalloc k live (l.map Place.addr) k' r ∧
      ∃ l', Plain k' (r.elim live fun p => insert p live) l' := by
  obtain ⟨k', r, hr, hends⟩ := hk.sound.alloc hG hG kmflag
  refine ⟨k', r, hr, ?_⟩
  cases hends with
  | given hp hs hperm he =>
    have hk' := hk.of_effect hs he fun x hx => hk.one x (hperm.mem_iff.mp hx)
    exact ⟨⟨hp, _, hk'.conserved⟩, _, hk'⟩
  | grown hfull hgrow hsup hp hs hoff hev he =>
    have hk' := hk.of_effect hs he (List.forall_mem_cons.mpr ⟨hoff.trans hflag, hk.one⟩)
    exact ⟨⟨hp, _, hk'.conserved⟩, _, hk'⟩
  | refused hfull hdenied hs hev he =>
    have hk' := hk.of_effect hs he hk.one
    refine ⟨⟨hk'.conserved, List.forall_mem_map.mpr (hk.sound.total_eq_used_iff.mp hfull),
      hdenied.imp_right fun hno => ?_⟩, l, hk'⟩
    rw [hflag] at hno
    exact Option.eq_none_iff_forall_ne_some.mpr fun a ha => hno ⟨a, ha⟩

theorem free (hk : Plain k live l) {p : ℕ} (hp : p ∈ live) :
    ∃ k', kmemCacheFree k p = .ok k' ∧ Plain k' (live.erase p) l := by
  obtain ⟨k', hr, hs, he⟩ := hk.sound.free hp
  exact ⟨k', hr, hk.of_effect hs he hk.one⟩

theorem shrink (hk : Plain k live l) :
    ∃ k', kmemCacheShrink k = .ok k' ∧
      Plain k' live (l.filter fun x => positionOf k.slab x.addr ≠ 0) := by
  obtain ⟨k', hr, hs, he⟩ := hk.sound.shrink
  exact ⟨k', hr, hk.of_effect hs he fun x hx => hk.one x (List.mem_filter.mp hx).1⟩

theorem of_create {objects size align cflags : ℕ} {constructor destructor : Bool}
    {kmalloc : Kmalloc} (hG : Grants addressTop kmalloc) (hsize : 0 < size) (hobjects : 0 < objects)
    (hfit : sizeofSlab + objects * sizeofCtl + meantSlabobjSize objects size align cflags < 2 ^ 32)
    (hoff : hasFlag cflags kvOffSlab = false)
    (hk : kmemCacheCreate kmalloc objects size align constructor destructor false cflags = some k) :
    Plain k ∅ [] := by
  obtain ⟨hs, -, hcflags, -, -, hreclaim⟩ := sound_of_create hG hsize hobjects hfit hk
  exact ⟨hs, hcflags ▸ hoff, hreclaim, nofun⟩

end Plain

/-- The cache with the objects that were handed out and not given back. -/
structure Run where
  kmem : Kmem
  live : Finset ℕ

inductive Call
  | alloc (kmalloc : Kmalloc) (kmflag : ℕ)
  | free (obj : ℕ)
  | shrink

def Call.exec (s : Run) : Call → Outcome Run
  | .alloc kmalloc kmflag => do
    let r ← kmemCacheAlloc kmalloc s.kmem kmflag
    .ok ⟨r.1, r.2.elim s.live fun p => insert p s.live⟩
  | .free obj => do
    let k ← kmemCacheFree s.kmem obj
    .ok ⟨k, s.live.erase obj⟩
  | .shrink => do
    let k ← kmemCacheShrink s.kmem
    .ok ⟨k, s.live⟩

def Call.Permitted (s : Run) : Call → Prop
  | .alloc kmalloc kmflag => Grants addressTop kmalloc ∧ hasFlag kmflag kvOffSlab = false
  | .free obj => obj ∈ s.live
  | .shrink => True

def kmemSystem (k₀ : Kmem) : System Run Call Fault where
  Init s := s = ⟨k₀, ∅⟩
  Guard s c := c.Permitted s
  step s c := c.exec s

theorem plain_preserved (k₀ : Kmem) :
    (kmemSystem k₀).Preserves fun s => ∃ l, Plain s.kmem s.live l := by
  rintro s c ⟨l, hl⟩ hc
  cases c with
  | alloc kmalloc kmflag =>
    obtain ⟨k', r, hr, -, l', hl'⟩ := hl.alloc hc.1 hc.2
    exact ⟨_, bind_eq_ok.mpr ⟨_, hr, rfl⟩, l', hl'⟩
  | free obj =>
    obtain ⟨k', hr, hk'⟩ := hl.free hc
    exact ⟨_, bind_eq_ok.mpr ⟨_, hr, rfl⟩, l, hk'⟩
  | shrink =>
    obtain ⟨k', hr, hk'⟩ := hl.shrink
    exact ⟨_, bind_eq_ok.mpr ⟨_, hr, rfl⟩, _, hk'⟩

/-- Objects are conserved along every run of a cache, and what the next call does is known. The
objects have at least one byte, and the size of a slab does not wrap: nothing checks either when a
cache is created. -/
theorem slab_object_conservation {objects size align cflags : ℕ} {constructor destructor : Bool}
    {kmalloc₀ : Kmalloc} {k₀ : Kmem} (hG : Grants addressTop kmalloc₀) (hsize : 0 < size)
    (hobjects : 0 < objects)
    (hfit : sizeofSlab + objects * sizeofCtl + meantSlabobjSize objects size align cflags < 2 ^ 32)
    (hoff : hasFlag cflags kvOffSlab = false)
    (hk : kmemCacheCreate kmalloc₀ objects size align constructor destructor false cflags = some k₀)
    {cs : List Call} {s : Run} (h : (kmemSystem k₀).Steps ⟨k₀, ∅⟩ cs s) :
    ∃ l, Conserved s.kmem s.live l ∧
      (∀ kmalloc kmflag, Grants addressTop kmalloc → hasFlag kmflag kvOffSlab = false →
        ∃ k r, kmemCacheAlloc kmalloc s.kmem kmflag = .ok (k, r) ∧
          Conserved.AllocSpec kmalloc s.kmem s.live l k r) ∧
      (∀ p ∈ s.live, ∃ k, kmemCacheFree s.kmem p = .ok k ∧ Conserved k (s.live.erase p) l) ∧
      ∃ k l', kmemCacheShrink s.kmem = .ok k ∧ Conserved k s.live l' ∧ l'.Sublist l ∧
        ∀ a, a ∈ l' ↔ a ∈ l ∧ ∃ i < s.kmem.cache.objects, objAt s.kmem.cache a i ∈ s.live := by
  obtain ⟨l, hl⟩ := h.preserves (plain_preserved k₀)
    ⟨[], Plain.of_create hG hsize hobjects hfit hoff hk⟩
  refine ⟨l.map Place.addr, hl.conserved, fun kmalloc kmflag hk hf => ?_, fun p hp => ?_, ?_⟩
  · obtain ⟨k, r, hr, hspec, -⟩ := hl.alloc hk hf
    exact ⟨k, r, hr, hspec⟩
  · obtain ⟨k, hr, hk'⟩ := hl.free hp
    exact ⟨k, hr, hk'.conserved⟩
  · obtain ⟨k, hr, hk'⟩ := hl.shrink
    refine ⟨k, _, hr, hk'.conserved, List.filter_sublist.map _, fun a => ?_⟩
    simp only [List.mem_map, List.mem_filter, decide_eq_true_eq]
    constructor
    · rintro ⟨x, ⟨hx, hpos⟩, rfl⟩
      rw [hl.sound.position_ne_zero_iff hx, hl.ptr_eq hx] at hpos
      exact ⟨⟨x, hx, rfl⟩, hpos⟩
    · rintro ⟨⟨x, hx, rfl⟩, hlive⟩
      refine ⟨x, ⟨hx, ?_⟩, rfl⟩
      rw [hl.sound.position_ne_zero_iff hx, hl.ptr_eq hx]
      exact hlive

/-- An allocator that puts each block behind all live ones. -/
def bump : Kmalloc := fun blocks size =>
  let a := blocks.foldr (fun b a => max (b.1 + b.2) a) 1
  if a + size ≤ addressTop then some a else none

theorem bump_grants : Grants addressTop bump := by
  intro blocks size a h
  have hmax : 0 < blocks.foldr (fun b a => max (b.1 + b.2) a) 1 ∧
      ∀ b ∈ blocks, b.1 + b.2 ≤ blocks.foldr (fun b a => max (b.1 + b.2) a) 1 := by
    clear h
    induction blocks with
    | nil => exact ⟨Nat.one_pos, nofun⟩
    | cons b blocks ih =>
      refine ⟨lt_max_of_lt_right ih.1, List.forall_mem_cons.mpr ⟨le_max_left _ _, fun c hc => ?_⟩⟩
      exact (ih.2 c hc).trans (le_max_right _ _)
  unfold bump at h
  dsimp only at h
  split_ifs at h with htop
  cases h
  exact ⟨⟨hmax.1, htop⟩, fun b hb => .inr (hmax.2 b hb)⟩

def smallCache : Kmem := (kmemCacheCreate bump 2 8 4 true true false kvRedZone).get rfl

theorem slab_object_conservation_oneLive : ∃ s : Run, ∃ l, Conserved s.kmem s.live l ∧
    s.kmem.cache.usedObjects = 1 ∧ s.kmem.cache.totalObjects = 2 := by
  have h : (kmemSystem smallCache).Steps ⟨smallCache, ∅⟩ [.alloc bump 0, .shrink] _ :=
    .cons ⟨bump_grants, rfl⟩ rfl (.one trivial rfl)
  obtain ⟨l, hl, -⟩ := slab_object_conservation bump_grants (by decide) (by decide) (by decide) rfl
    (rfl : kmemCacheCreate bump 2 8 4 true true false kvRedZone = some smallCache) h
  exact ⟨_, l, hl, rfl, rfl⟩

/-- A cache whose sizes may be out of bounds. -/
def looseCache (objects size align : ℕ) (hooks : Bool) : Kmem :=
  (kmemCacheCreate bump objects size align hooks hooks false 0).get rfl

/-- Objects of no bytes are all at one address, and a live one is handed out again. Where the space
for the objects is computed as 0, no object lies in it, and what is given back stays in use. -/
theorem objects_not_conserved :
    (∃ s k p, (kmemSystem (looseCache 2 0 0 false)).Steps ⟨looseCache 2 0 0 false, ∅⟩
        [.alloc bump 0] s ∧
      p ∈ s.live ∧ kmemCacheAlloc bump s.kmem 0 = .ok (k, some p)) ∧
    ∃ s p, (kmemSystem (looseCache 2 (2 ^ 31) 0 false)).Steps ⟨looseCache 2 (2 ^ 31) 0 false, ∅⟩
        [.alloc bump 0, .free p] s ∧
      s.live = ∅ ∧ s.kmem.cache.usedObjects = 1 := by
  constructor
  · exact ⟨_, _, 149, .one ⟨bump_grants, rfl⟩ rfl, by decide, rfl⟩
  · have hlive : 149 ∈ insert 149 (∅ : Finset ℕ) := Finset.mem_insert_self 149 ∅
    exact ⟨_, 149, .cons ⟨bump_grants, rfl⟩ rfl (.one hlive rfl), by decide, rfl⟩

end Racoon.SlabAllocator
