import Racoon.Mm.KmemCache

/-!
# The cached kernel allocator

`mm/kalloc.c`: twelve caches of `mm/kmem_cache.c` behind `kmalloc`, `kfree` and `krealloc`. Once
they are installed, the `ALLOC` and `FREE` of the caches are these functions themselves, so that
a cache that grows calls the allocator again. The caches share one memory; an operation of one of
them that asks for no memory is the one of `KmemCache.lean` on the cache and that memory.
-/

namespace Racoon.Kalloc
open Lib SlabAllocator

def ALIGNMENT : ℕ := 4
def CACHE_UNIT : ℕ := 32
def MAX_CACHES : ℕ := 12
def KMEM_OBJECTS : ℕ := 1024

/-- The addresses of the caches, what they hold, and the memory. -/
structure State where
  caches : ℕ → ℕ
  cache : ℕ → KmemCache
  slab : ℕ → Option Slab
  word : ℕ → Option ℕ

namespace State

/-- The cache `num` with the memory. -/
def kmem (k : State) (num : ℕ) : Kmem := ⟨k.caches num, k.cache num, k.slab, k.word, [], []⟩

/-- What an operation on the cache `num` leaves. -/
def set (k : State) (num : ℕ) (m : Kmem) : State :=
  { k with cache := Function.update k.cache num m.cache, slab := m.slab, word := m.word }

end State

/-- The loop of `get_cache_num`, with `left` caches to go. -/
def cacheNumFrom (size : ℕ) : ℕ → ℕ → ℕ → Option ℕ
  | 0, _, _ => none
  | left + 1, i, unit => if size ≤ unit then some i else cacheNumFrom size left (i + 1) (unit * 2)

/-- The result -1 is `none`. -/
def getCacheNum (size : ℕ) : Option ℕ := cacheNumFrom size MAX_CACHES 0 CACHE_UNIT

def kmemCacheContains (k : Kmem) (obj : ℕ) : Outcome Bool := do
  assert (obj ≠ 0)
  if hasFlag k.cache.cflags kvOwnership then do
    let owner ← getObjectOwnerPtr k.cache obj
    .ok (k.word owner == some k.cp)
  else do
    let slab ← getObjectSlab k obj
    .ok slab.isSome

/-- The loop of `get_cache_location`. -/
def cacheLocationFrom (k : State) (ptr : ℕ) : ℕ → ℕ → Outcome (Option ℕ)
  | 0, _ => .ok none
  | left + 1, i => do
    if ← kmemCacheContains (k.kmem i) ptr then .ok (some i)
    else cacheLocationFrom k ptr left (i + 1)

def getCacheLocation (k : State) (ptr : ℕ) : Outcome (Option ℕ) :=
  cacheLocationFrom k ptr MAX_CACHES 0

/-- `assert( num >= 0 )` -/
def assertFound : Option ℕ → Outcome ℕ
  | some num => .ok num
  | none => .error .assertion

def lKfree (k : State) (ptr : ℕ) : Outcome State := do
  assert (ptr ≠ 0)
  let num ← assertFound (← getCacheLocation k ptr)
  let m ← kmemCacheFree (k.kmem num) ptr
  .ok (k.set num m)

/-- The macro `FREE` on a slab's memory. A header in the block is gone with it. -/
def freeBlock (k : State) (ptr : ℕ) : Outcome State := do
  let k ← lKfree k ptr
  .ok { k with slab := Function.update k.slab ptr none }

/-- `kmem_destroy_slab` -/
def destroySlab (num slab : ℕ) (k : State) : Outcome State := do
  let m ← callDestructor (k.kmem num) slab
  let k := k.set num m
  let h ← load k.slab (some slab)
  let k ← if hasFlag (k.cache num).cflags kvOffSlab then freeBlock k h.ptr else .ok k
  let k ← freeBlock k slab
  let c := k.cache num
  .ok (k.set num { k.kmem num with
    cache := { c with totalObjects := c.totalObjects - c.objects } })

/-- A slab is taken out of the list of `kmem_cache_shrink`. -/
def unlinkSlab (m : Kmem) (slab : ℕ) (h : Slab) : Outcome Kmem := do
  let m ← m.setPrevIf h.next h.prev
  let m ← m.setNextIf h.prev h.next
  .ok (if m.cache.slabs = some slab then { m with cache.slabs := h.next } else m)

/-- The loop of `kmem_cache_shrink`. -/
def shrinkFrom (num : ℕ) : ℕ → Option ℕ → State → Outcome State
  | _, none, k => .ok k
  | 0, some _, _ => .error .diverges
  | left + 1, some slab, k => do
    let h ← load k.slab (some slab)
    if h.position = 0 then do
      let m ← unlinkSlab (k.kmem num) slab h
      let k ← destroySlab num slab (k.set num m)
      shrinkFrom num left h.next k
    else shrinkFrom num left h.next k

/-- The loop of `reclaim`. -/
def reclaimFrom : ℕ → ℕ → State → Outcome State
  | 0, _, k => .ok k
  | left + 1, i, k => do
    let k ← shrinkFrom i (slabBound (k.cache i)) (k.cache i).slabs k
    reclaimFrom left (i + 1) k

def reclaim (k : State) : Outcome State := reclaimFrom MAX_CACHES 0 k

section Growing
variable (kmalloc : State → ℕ → Outcome (State × Option ℕ))

/-- The size that `kmem_new_slab` asks for when the header stays with the objects. -/
def slabSize (c : KmemCache) : ℕ := add32 (manSpace c) c.intSlabobjSize

/-- `kmem_new_slab`, with the `kmalloc` that `ALLOC` calls. -/
def newSlab (num kmflag : ℕ) (k : State) : Outcome (State × Option ℕ) :=
  if hasFlag kmflag kvOffSlab then do
    match ← kmalloc k (manSpace (k.cache num)) with
    | (k, none) => .ok (k, none)
    | (k, some slab) =>
      match ← kmalloc k (k.cache num).intSlabobjSize with
      | (k, none) => do
        let k ← freeBlock k slab
        .ok (k, none)
      | (k, some ptr) =>
        let header := newHeader (k.cache num) ptr
        .ok ({ k with slab := Function.update k.slab slab (some header) }, some slab)
  else do
    match ← kmalloc k (slabSize (k.cache num)) with
    | (k, none) => .ok (k, none)
    | (k, some slab) =>
      let ptr := add32 (add32 slab sizeofSlab) ((k.cache num).objects * sizeofCtl)
      let header := newHeader (k.cache num) ptr
      .ok ({ k with slab := Function.update k.slab slab (some header) }, some slab)

/-- `kmem_cache_grow` -/
def cacheGrow (num kmflag : ℕ) (k : State) : Outcome (State × Option ℕ) := do
  match ← newSlab kmalloc num kmflag k with
  | (k, none) => .ok (k, none)
  | (k, some slab) =>
    let m ← kmemInitSlab (k.kmem num) slab kmflag
    let m ← m.setNext (some slab) m.cache.slabs
    let m ← m.setPrevIf m.cache.slabs (some slab)
    .ok (k.set num { m with cache.slabs := some slab }, some slab)

/-- The growing, tried once more after the `reclaim` hook. -/
def growOrReclaim (num kmflag : ℕ) (k : State) : Outcome (State × Option ℕ) := do
  match ← cacheGrow kmalloc num kmflag k with
  | (k, some slab) => .ok (k, some slab)
  | (k, none) =>
    if (k.cache num).reclaim then do
      let k ← reclaim k
      cacheGrow kmalloc num kmflag k
    else .ok (k, none)

/-- `kmem_cache_alloc`, with at most `depth` calls of itself. -/
def cacheAlloc (num kmflag : ℕ) : ℕ → State → Outcome (State × Option ℕ)
  | 0, _ => .error .diverges
  | depth + 1, k => do
    match ← firstFree (k.kmem num) with
    | some (slab, h) =>
      let (m, obj) ← takeObject (k.kmem num) slab h
      .ok (k.set num m, obj)
    | none =>
      if (k.cache num).totalObjects = (k.cache num).usedObjects then
        if hasFlag (k.cache num).cflags kvNogrow then .ok (k, none)
        else
          match ← growOrReclaim kmalloc num kmflag k with
          | (k, none) => .ok (k, none)
          | (k, some _) => cacheAlloc num kmflag depth k
      else do
        let m ← moveToFront (k.kmem num)
        cacheAlloc num kmflag depth (k.set num m)

end Growing

/-- `l_kmalloc`, with at most `depth` calls of itself below each other. -/
def lKmalloc : ℕ → State → ℕ → Outcome (State × Option ℕ)
  | 0, _, _ => .error .diverges
  | depth + 1, k, size => do
    assert (0 < size)
    let num ← assertFound (getCacheNum size)
    cacheAlloc (lKmalloc depth) num 0 (depth + 1) k

def lKrealloc (depth : ℕ) (k : State) (ptr : Option ℕ) (size : ℕ) :
    Outcome (State × Option ℕ) :=
  match ptr with
  | none => lKmalloc depth k size
  | some ptr =>
    if size = 0 then do
      let k ← lKfree k ptr
      .ok (k, none)
    else do
      let num ← assertFound (← getCacheLocation k ptr)
      if (k.cache num).size < size then do
        let (k, newPtr) ← lKmalloc depth k size
        -- the old contents are copied, which a null pointer does not survive
        let newPtr ← deref newPtr
        let k ← lKfree k ptr
        .ok (k, some newPtr)
      else .ok (k, some ptr)

/-- The loop of `init_kalloc`; the allocator that was installed before answers for cache `i` as
`malloc i`. -/
def createFrom (malloc : ℕ → Option ℕ) : ℕ → ℕ → ℕ → State → Outcome State
  | 0, _, _, k => .ok k
  | left + 1, i, unit, k =>
    match kmemCacheCreate (fun _ _ => malloc i) KMEM_OBJECTS unit ALIGNMENT false false true 0 with
    | none => .error .assertion
    | some m =>
      createFrom malloc left (i + 1) (unit * 2)
        { k with caches := Function.update k.caches i m.cp
                 cache := Function.update k.cache i m.cache }

def initKalloc (malloc : ℕ → Option ℕ) (k : State) : Outcome State :=
  createFrom malloc MAX_CACHES 0 CACHE_UNIT k

end Racoon.Kalloc
