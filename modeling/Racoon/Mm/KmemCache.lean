import Racoon.Machine
import Racoon.Lib.Blocks

/-!
# The slab allocator of `mm/kmem_cache.c`

A cache hands out objects of one size. It takes memory in slabs: a header, then
a stack of free object indices, then the objects with their red zones and owner
words. Slabs are known by their address. The hooks are code outside the cache;
the trace records when they run and what is asked of `ALLOC` and `FREE`.

The two counters are of type `int`. Each object takes an entry of four bytes in
its slab, so that neither can leave the range of an `int`.
-/

namespace Racoon.SlabAllocator
open Lib

def kvNogrow : ℕ := 0x02
def kvRedZone : ℕ := 0x04
def kvOffSlab : ℕ := 0x08
def kvOwnership : ℕ := 0x20
def redZoneData : ℕ := 0xdeadc007

/-- `(flags & flag) == flag` -/
def hasFlag (flags flag : ℕ) : Bool := flags &&& flag = flag

/-- `kmem_slab_t` with the index array behind it. -/
structure Slab where
  position : ℕ
  offset : ℕ
  ptr : ℕ
  next : Option ℕ
  prev : Option ℕ
  ctl : ℕ → ℕ

/-- `kmem_cache_t`. Of the hooks only their presence matters. -/
structure KmemCache where
  size : ℕ
  align : ℕ
  objects : ℕ
  intSize : ℕ
  intSlabobjSize : ℕ
  constructor : Bool
  destructor : Bool
  reclaim : Bool
  cflags : ℕ
  totalObjects : ℕ
  usedObjects : ℕ
  slabs : Option ℕ

inductive Event
  | alloc (size : ℕ) (ptr : Option ℕ)
  | free (ptr : ℕ)
  | construct (obj kmflag : ℕ)
  | destruct (obj : ℕ)
  | reclaim

/-- The cache at address `cp` with the memory it works on. -/
structure Kmem where
  cp : ℕ
  cache : KmemCache
  slab : ℕ → Option Slab
  word : ℕ → Option ℕ
  blocks : List Block
  trace : List Event

abbrev Kmalloc := List Block → ℕ → Option ℕ

/-- The end of memory: a pointer just past a block is still a pointer. -/
def addressTop : ℕ := 2 ^ 32 - 1

def sizeofCache : ℕ := 120
def sizeofSlab : ℕ := 20
def sizeofCtl : ℕ := 4
def sizeofRedzone : ℕ := 4
def sizeofOwner : ℕ := 4

namespace Kmem

def note (k : Kmem) (e : Event) : Kmem := { k with trace := k.trace ++ [e] }

/-- The macro `ALLOC`. -/
def alloc (kmalloc : Kmalloc) (k : Kmem) (size : ℕ) : Kmem × Option ℕ :=
  match kmalloc k.blocks size with
  | none => (k.note (.alloc size none), none)
  | some a => ({ k with blocks := (a, size) :: k.blocks }.note (.alloc size (some a)), some a)

/-- The macro `FREE`. A header in the block is gone with it. -/
def free (k : Kmem) (ptr : ℕ) : Kmem :=
  { k with
    blocks := k.blocks.eraseP (·.1 = ptr)
    slab := Function.update k.slab ptr none }.note (.free ptr)

/-- A header is written into a block. -/
def put (k : Kmem) (slab : ℕ) (h : Slab) : Kmem :=
  { k with slab := Function.update k.slab slab (some h) }

def setSlab (k : Kmem) (p : Option ℕ) (f : Slab → Slab) : Outcome Kmem := do
  let slab ← modify k.slab p f
  .ok { k with slab := slab }

def setNext (k : Kmem) (p v : Option ℕ) : Outcome Kmem := k.setSlab p fun h => { h with next := v }

def setPrev (k : Kmem) (p v : Option ℕ) : Outcome Kmem := k.setSlab p fun h => { h with prev := v }

/-- `if ( p != NULL ) p->next = v;` -/
def setNextIf (k : Kmem) (p v : Option ℕ) : Outcome Kmem :=
  if p.isSome then k.setNext p v else .ok k

/-- `if ( p != NULL ) p->prev = v;` -/
def setPrevIf (k : Kmem) (p v : Option ℕ) : Outcome Kmem :=
  if p.isSome then k.setPrev p v else .ok k

/-- The index array has `objects` entries. -/
def writeCtl (k : Kmem) (slab i v : ℕ) : Outcome Kmem :=
  if i < k.cache.objects then
    k.setSlab (some slab) fun h => { h with ctl := Function.update h.ctl i v }
  else .error .badAccess

end Kmem

def readCtl (c : KmemCache) (h : Slab) (i : ℕ) : Outcome ℕ :=
  if i < c.objects then .ok (h.ctl i) else .error .badAccess

def getObjectPtr (k : Kmem) (slab index : ℕ) : Outcome ℕ := do
  assert (index < k.cache.objects)
  let h ← load k.slab (some slab)
  .ok (add32 (add32 h.ptr h.offset) (index * k.cache.intSize))

def getObjectIndex (k : Kmem) (slab obj : ℕ) : Outcome ℕ := do
  assert (obj ≠ 0)
  let h ← load k.slab (some slab)
  let distance := sub32 (sub32 obj h.ptr) h.offset
  if k.cache.intSize = 0 then .error .divideError
  else do
    assert (distance % k.cache.intSize = 0)
    .ok (distance / k.cache.intSize)

/-- The loop of `get_object_slab`. -/
def findSlab (k : Kmem) (obj : ℕ) : ℕ → Option ℕ → Outcome (Option ℕ)
  | _, none => .ok none
  | 0, some _ => .error .diverges
  | left + 1, some tmp => do
    let h ← load k.slab (some tmp)
    if h.ptr ≤ obj ∧ obj < add32 h.ptr k.cache.intSlabobjSize then .ok (some tmp)
    else findSlab k obj left h.next

/-- A bound on the number of slabs: each counts at least one object. -/
def slabBound (c : KmemCache) : ℕ := c.totalObjects + 1

def getObjectSlab (k : Kmem) (obj : ℕ) : Outcome (Option ℕ) := do
  assert (obj ≠ 0)
  findSlab k obj (slabBound k.cache) k.cache.slabs

inductive Side
  | left
  | right

def getObjectRedzone (c : KmemCache) (obj : ℕ) (side : Side) : Outcome ℕ := do
  assert (obj ≠ 0)
  assert (hasFlag c.cflags kvRedZone = true)
  match side with
  | .left => .ok (sub32 obj sizeofRedzone)
  | .right => .ok (add32 obj c.size)

def getObjectOwnerPtr (c : KmemCache) (obj : ℕ) : Outcome ℕ := do
  assert (obj ≠ 0)
  assert (hasFlag c.cflags kvOwnership = true)
  if hasFlag c.cflags kvRedZone then do
    let tmp ← getObjectRedzone c obj .left
    .ok (sub32 tmp sizeofOwner)
  else .ok (sub32 obj sizeofOwner)

def manSpace (c : KmemCache) : ℕ := add32 sizeofSlab (c.objects * sizeofCtl)

/-- `slab->offset` of a slab whose objects start at `ptr`. -/
def slabOffset (c : KmemCache) (ptr : ℕ) : ℕ :=
  let offset := if hasFlag c.cflags kvRedZone then sizeofRedzone else 0
  let offset := if hasFlag c.cflags kvOwnership then add32 offset sizeofOwner else offset
  if 1 < c.align ∧ add32 ptr offset % c.align ≠ 0 then
    add32 offset (c.align - add32 ptr offset % c.align)
  else offset

/-- The header as `kmem_new_slab` leaves it: the position and the index array are unset. -/
def newHeader (c : KmemCache) (ptr : ℕ) : Slab :=
  ⟨0, slabOffset c ptr, ptr, none, none, fun _ => 0⟩

def kmemNewSlab (kmalloc : Kmalloc) (k : Kmem) (kmflag : ℕ) : Kmem × Option ℕ :=
  if hasFlag kmflag kvOffSlab then
    match k.alloc kmalloc (manSpace k.cache) with
    | (k, none) => (k, none)
    | (k, some slab) =>
      match k.alloc kmalloc k.cache.intSlabobjSize with
      | (k, none) => (k.free slab, none)
      | (k, some ptr) => (k.put slab (newHeader k.cache ptr), some slab)
  else
    match k.alloc kmalloc (add32 (manSpace k.cache) k.cache.intSlabobjSize) with
    | (k, none) => (k, none)
    | (k, some slab) =>
      let ptr := add32 (add32 slab sizeofSlab) (k.cache.objects * sizeofCtl)
      (k.put slab (newHeader k.cache ptr), some slab)

def writeRedzones (k : Kmem) (obj : ℕ) : Outcome Kmem :=
  if hasFlag k.cache.cflags kvRedZone then do
    let left ← getObjectRedzone k.cache obj .left
    let right ← getObjectRedzone k.cache obj .right
    .ok { k with word := store32 (store32 k.word left redZoneData) right redZoneData }
  else .ok k

def writeOwner (k : Kmem) (obj : ℕ) : Outcome Kmem :=
  if hasFlag k.cache.cflags kvOwnership then do
    let owner ← getObjectOwnerPtr k.cache obj
    .ok { k with word := store32 k.word owner k.cp }
  else .ok k

/-- The loop of `kmem_init_slab`, from object `i` on. -/
def initObjects (kmflag slab : ℕ) : ℕ → ℕ → Kmem → Outcome Kmem
  | _, 0, k => .ok k
  | i, left + 1, k => do
    let obj ← getObjectPtr k slab i
    let k := if k.cache.constructor then k.note (.construct obj kmflag) else k
    let k ← writeRedzones k obj
    let k ← writeOwner k obj
    let k ← k.writeCtl slab i i
    initObjects kmflag slab (i + 1) left k

def kmemInitSlab (k : Kmem) (slab kmflag : ℕ) : Outcome Kmem := do
  let k ← initObjects kmflag slab 0 k.cache.objects k
  let k := { k with cache.totalObjects := k.cache.totalObjects + k.cache.objects }
  k.setSlab (some slab) fun h => { h with position := 0 }

/-- The loop of `kmem_destroy_slab`, from object `i` on. -/
def destructObjects (slab : ℕ) : ℕ → ℕ → Kmem → Outcome Kmem
  | _, 0, k => .ok k
  | i, left + 1, k => do
    let obj ← getObjectPtr k slab i
    destructObjects slab (i + 1) left (k.note (.destruct obj))

def freeSlab (k : Kmem) (slab : ℕ) : Outcome Kmem :=
  if hasFlag k.cache.cflags kvOffSlab then do
    let h ← load k.slab (some slab)
    .ok ((k.free h.ptr).free slab)
  else .ok (k.free slab)

def callDestructor (k : Kmem) (slab : ℕ) : Outcome Kmem :=
  if k.cache.destructor then destructObjects slab 0 k.cache.objects k else .ok k

def kmemDestroySlab (k : Kmem) (slab : ℕ) : Outcome Kmem := do
  let k ← callDestructor k slab
  let k ← freeSlab k slab
  .ok { k with cache.totalObjects := k.cache.totalObjects - k.cache.objects }

/-- `int_size`, the space of one object in its slab. -/
def internalSize (size align cflags : ℕ) : ℕ :=
  let intSize := if hasFlag cflags kvRedZone then add32 size (2 * sizeofRedzone) else size
  let intSize := if hasFlag cflags kvOwnership then add32 intSize sizeofOwner else intSize
  if 1 < align ∧ intSize % align ≠ 0 then add32 intSize (align - intSize % align) else intSize

/-- `int_slabobj_size`, the space of all objects of a slab. -/
def internalSlabobjSize (intSize objects align cflags : ℕ) : ℕ :=
  let space := add32 (intSize * objects) align
  if hasFlag cflags kvRedZone then add32 space sizeofRedzone else space

/-- `objects` is `KMEM_OBJECTS`. -/
def kmemCacheCreate (kmalloc : Kmalloc) (objects size align : ℕ)
    (constructor destructor reclaim : Bool) (cflags : ℕ) : Option Kmem :=
  let intSize := internalSize size align cflags
  match kmalloc [] sizeofCache with
  | none => none
  | some cp => some
    { cp := cp
      cache := ⟨size, align, objects, intSize, internalSlabobjSize intSize objects align cflags,
        constructor, destructor, reclaim, cflags, 0, 0, none⟩
      slab := fun _ => none
      word := fun _ => none
      blocks := [(cp, sizeofCache)]
      trace := [.alloc sizeofCache (some cp)] }

def kmemCacheGrow (kmalloc : Kmalloc) (k : Kmem) (kmflag : ℕ) : Outcome (Kmem × Option ℕ) :=
  match kmemNewSlab kmalloc k kmflag with
  | (k, none) => .ok (k, none)
  | (k, some slab) => do
    let k ← kmemInitSlab k slab kmflag
    let k ← k.setNext (some slab) k.cache.slabs
    let k ← k.setPrevIf k.cache.slabs (some slab)
    .ok ({ k with cache.slabs := some slab }, some slab)

/-- The first slab, if it has an object to give. -/
def firstFree (k : Kmem) : Outcome (Option (ℕ × Slab)) :=
  match k.cache.slabs with
  | none => .ok none
  | some slab => do
    let h ← load k.slab (some slab)
    .ok (if h.position ≠ k.cache.objects then some (slab, h) else none)

def takeObject (k : Kmem) (slab : ℕ) (h : Slab) : Outcome (Kmem × Option ℕ) := do
  let index ← readCtl k.cache h h.position
  let k ← k.setSlab (some slab) fun h => { h with position := h.position + 1 }
  let obj ← getObjectPtr k slab index
  .ok ({ k with cache.usedObjects := k.cache.usedObjects + 1 }, some obj)

/-- The growing, tried once more after the `reclaim` hook, when `ALLOC` answers as `retry`. -/
def growOrReclaim (kmalloc retry : Kmalloc) (k : Kmem) (kmflag : ℕ) :
    Outcome (Kmem × Option ℕ) := do
  let (k, slab) ← kmemCacheGrow kmalloc k kmflag
  if slab.isNone ∧ k.cache.reclaim then kmemCacheGrow retry (k.note .reclaim) kmflag
  else .ok (k, slab)

/-- The search for a slab that is not used up. -/
def findRoom (k : Kmem) : ℕ → Option ℕ → Outcome ℕ
  | _, none => .error .assertion
  | 0, some _ => .error .diverges
  | left + 1, some slab => do
    let h ← load k.slab (some slab)
    if h.position = k.cache.objects then findRoom k left h.next else .ok slab

def moveToFront (k : Kmem) : Outcome Kmem := do
  let first ← load k.slab k.cache.slabs
  let slab ← findRoom k (slabBound k.cache) first.next
  assert (some slab ≠ k.cache.slabs)
  let h ← load k.slab (some slab)
  let k ← k.setPrevIf h.next h.prev
  let k ← k.setNext h.prev h.next
  let k ← k.setPrev k.cache.slabs (some slab)
  let k ← k.setNext (some slab) k.cache.slabs
  let k ← k.setPrev (some slab) none
  .ok { k with cache.slabs := some slab }

/-- `kmem_cache_alloc` with at most `depth` calls nested. -/
def allocWithin (kmalloc retry : Kmalloc) (kmflag : ℕ) : ℕ → Kmem → Outcome (Kmem × Option ℕ)
  | 0, _ => .error .diverges
  | depth + 1, k => do
    match ← firstFree k with
    | some (slab, h) => takeObject k slab h
    | none =>
      if k.cache.totalObjects = k.cache.usedObjects then
        if hasFlag k.cache.cflags kvNogrow then .ok (k, none)
        else do
          match ← growOrReclaim kmalloc retry k kmflag with
          | (k, none) => .ok (k, none)
          | (k, some _) => allocWithin kmalloc retry kmflag depth k
      else do
        let k ← moveToFront k
        allocWithin kmalloc retry kmflag depth k

/-- `kmem_cache_alloc`, where the hook may change what `ALLOC` answers. -/
def kmemCacheAllocRetry (kmalloc retry : Kmalloc) (k : Kmem) (kmflag : ℕ) :
    Outcome (Kmem × Option ℕ) :=
  allocWithin kmalloc retry kmflag 2 k

def kmemCacheAlloc (kmalloc : Kmalloc) (k : Kmem) (kmflag : ℕ) : Outcome (Kmem × Option ℕ) :=
  kmemCacheAllocRetry kmalloc kmalloc k kmflag

def checkRedzones (k : Kmem) (obj : ℕ) : Outcome Unit :=
  if hasFlag k.cache.cflags kvRedZone then do
    let left ← getObjectRedzone k.cache obj .left
    assert (k.word left = some redZoneData)
    let right ← getObjectRedzone k.cache obj .right
    assert (k.word right = some redZoneData)
  else .ok ()

def kmemCacheFree (k : Kmem) (obj : ℕ) : Outcome Kmem :=
  if obj = 0 then .ok k
  else do
    match ← getObjectSlab k obj with
    | none => .ok k
    | some slab => do
      checkRedzones k obj
      let h ← load k.slab (some slab)
      let index ← getObjectIndex k slab obj
      let k ← k.setSlab (some slab) fun h => { h with position := sub32 h.position 1 }
      let k ← k.writeCtl slab (sub32 h.position 1) index
      .ok { k with cache.usedObjects := k.cache.usedObjects - 1 }

/-- The body of the `if` in `kmem_cache_shrink`. -/
def dropSlab (k : Kmem) (slab : ℕ) (h : Slab) : Outcome Kmem := do
  let k ← k.setPrevIf h.next h.prev
  let k ← k.setNextIf h.prev h.next
  let k := if k.cache.slabs = some slab then { k with cache.slabs := h.next } else k
  kmemDestroySlab k slab

/-- The loop of `kmem_cache_shrink`. -/
def shrinkFrom : ℕ → Option ℕ → Kmem → Outcome Kmem
  | _, none, k => .ok k
  | 0, some _, _ => .error .diverges
  | left + 1, some slab, k => do
    let h ← load k.slab (some slab)
    if h.position = 0 then do
      let k ← dropSlab k slab h
      shrinkFrom left h.next k
    else shrinkFrom left h.next k

def kmemCacheShrink (k : Kmem) : Outcome Kmem :=
  shrinkFrom (slabBound k.cache) k.cache.slabs k

/-- The loop of `kmem_cache_destroy`. -/
def destroyFrom : ℕ → Option ℕ → Kmem → Outcome Kmem
  | _, none, k => .ok k
  | 0, some _, _ => .error .diverges
  | left + 1, some slab, k => do
    let h ← load k.slab (some slab)
    let k ← kmemDestroySlab k slab
    destroyFrom left h.next k

def kmemCacheDestroy (k : Kmem) : Outcome Kmem := do
  let k ← destroyFrom (slabBound k.cache) k.cache.slabs k
  .ok (k.free k.cp)

end Racoon.SlabAllocator
