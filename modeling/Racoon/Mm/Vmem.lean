import Racoon.Machine

/-!
# The arenas of `mm/vmem.c`

An arena hands out ranges of its spans. Boundary tags describe the ranges, free
or allocated; they form one list in the order of their addresses. Each span has
a table of its allocated ranges by their start, and the free ranges of a size
class are in the list that `free_cache` keeps for the class. Tags and spans are
known by their addresses; those of new ones are the answers of `kmalloc`.

`σ` is the state of the arena below, which the hooks `afunc` and `ffunc` work
on. As a `void *`, a result of 0 is `NULL`.
-/

namespace Racoon.Arenas

def vmemBestfit : ℕ := 1
def vmemInstant : ℕ := 2
def vmemSearch : ℕ := 4

/-- `(vmflag & flag) == flag` -/
def hasFlag (vmflag flag : ℕ) : Bool := vmflag &&& flag = flag

inductive Allocation
  | free
  | allocated
  deriving DecidableEq

/-- `vmem_bt_t` -/
structure Bt where
  addr : ℕ
  size : ℕ
  sourceAddr : ℕ
  allocated : Allocation
  next : Option ℕ
  prev : Option ℕ
  flNext : Option ℕ
  flPrev : Option ℕ

/-- `vmem_span_t`. The block that `kmalloc` gave for `hash` has `hashBytes` bytes. -/
structure Span where
  addr : ℕ
  size : ℕ
  slots : ℕ
  hash : ℕ → Option ℕ
  hashBytes : ℕ
  next : Option ℕ

/-- `vmem_t` with the heap of its tags and spans. -/
structure Vmem (σ : Type) where
  quantum : ℕ
  cacheMax : ℕ
  cacheBits : ℕ
  afunc : σ → ℕ → ℕ → Outcome (σ × ℕ)
  ffunc : σ → ℕ → ℕ → Outcome σ
  source : Option σ
  tags : Option ℕ
  spans : Option ℕ
  freeCache : ℕ → Option ℕ
  tag : ℕ → Option Bt
  span : ℕ → Option Span

/-- No list of nodes at distinct addresses is longer. -/
def walkBound : ℕ := 2 ^ 32

def sizeofPointer : ℕ := 4

namespace Vmem
variable {σ : Type}

def setTag (v : Vmem σ) (bt : Option ℕ) (f : Bt → Bt) : Outcome (Vmem σ) := do
  let tag ← modify v.tag bt f
  .ok { v with tag := tag }

/-- `if ( bt != NULL ) ...` -/
def setTagIf (v : Vmem σ) (bt : Option ℕ) (f : Bt → Bt) : Outcome (Vmem σ) :=
  if bt.isSome then v.setTag bt f else .ok v

def putTag (v : Vmem σ) (bt : ℕ) (g : Bt) : Vmem σ :=
  { v with tag := Function.update v.tag bt (some g) }

/-- `kfree( bt )` -/
def freeTag (v : Vmem σ) (bt : ℕ) : Vmem σ :=
  { v with tag := Function.update v.tag bt none }

def setSpan (v : Vmem σ) (span : Option ℕ) (f : Span → Span) : Outcome (Vmem σ) := do
  let span ← modify v.span span f
  .ok { v with span := span }

def readCache (v : Vmem σ) (pos : ℕ) : Outcome (Option ℕ) :=
  if pos < v.cacheBits then .ok (v.freeCache pos) else .error .badAccess

def writeCache (v : Vmem σ) (pos : ℕ) (bt : Option ℕ) : Outcome (Vmem σ) :=
  if pos < v.cacheBits then .ok { v with freeCache := Function.update v.freeCache pos bt }
  else .error .badAccess

end Vmem

def readHash (sp : Span) (i : ℕ) : Outcome (Option ℕ) :=
  if i * sizeofPointer + sizeofPointer ≤ sp.hashBytes then .ok (sp.hash i) else .error .badAccess

def writeHash {σ : Type} (v : Vmem σ) (span i : ℕ) (bt : Option ℕ) : Outcome (Vmem σ) := do
  let sp ← load v.span (some span)
  if i * sizeofPointer + sizeofPointer ≤ sp.hashBytes then
    v.setSpan (some span) fun sp => { sp with hash := Function.update sp.hash i bt }
  else .error .badAccess

/-- `bsrl` leaves -1 for 0, which the assertion refuses. -/
def highbit (value : ℕ) : Outcome ℕ := do
  assert (value ≠ 0)
  .ok (Nat.log2 value)

section
variable {σ : Type}

/-- The loop of `vmem_getspan`. -/
def getspanFrom (v : Vmem σ) (res : ℕ) : ℕ → Option ℕ → Outcome (Option ℕ)
  | _, none => .ok none
  | 0, some _ => .error .diverges
  | left + 1, some span => do
    let sp ← load v.span (some span)
    if sp.addr ≤ res ∧ res < add32 sp.addr sp.size then .ok (some span)
    else getspanFrom v res left sp.next

def vmemGetspan (v : Vmem σ) (res : ℕ) : Outcome (Option ℕ) := getspanFrom v res walkBound v.spans

/-- The answer -1 is `none`. -/
def cacheNum (v : Vmem σ) (size : ℕ) : Outcome (Option ℕ) := do
  let pos ← highbit (size / v.quantum)
  .ok (if v.cacheBits ≤ pos then none else some pos)

def addFreelist (v : Vmem σ) (bt : ℕ) : Outcome (Vmem σ) := do
  let g ← load v.tag (some bt)
  let pos ← highbit (g.size / v.quantum)
  assert (g.flNext = none)
  assert (g.flPrev = none)
  let first ← v.readCache pos
  let v ← v.setTagIf first fun g => { g with flPrev := some bt }
  let v ← v.setTag (some bt) fun g => { g with flPrev := none, flNext := first }
  v.writeCache pos (some bt)

/-- `if ( vmem->free_cache[pos] == bt ) vmem->free_cache[pos] = bt->fl_next;` -/
def skipFirst (v : Vmem σ) (pos bt : ℕ) (next : Option ℕ) : Outcome (Vmem σ) := do
  let first ← v.readCache pos
  if first = some bt then v.writeCache pos next else .ok v

def remFreelist (v : Vmem σ) (bt : ℕ) : Outcome (Vmem σ) := do
  let g ← load v.tag (some bt)
  match ← cacheNum v g.size with
  | none => .error .assertion
  | some pos => do
    let v ← skipFirst v pos bt g.flNext
    let v ← v.setTagIf g.flPrev fun p => { p with flNext := g.flNext }
    let v ← v.setTagIf g.flNext fun n => { n with flPrev := g.flPrev }
    v.setTag (some bt) fun g => { g with flNext := none, flPrev := none }

/-- `if ( cache_num( vmem, bt->size ) >= 0 ) rem_freelist( vmem, bt );` -/
def uncache (v : Vmem σ) (bt : ℕ) : Outcome (Vmem σ) := do
  let g ← load v.tag (some bt)
  match ← cacheNum v g.size with
  | none => .ok v
  | some _ => remFreelist v bt

/-- `if ( cache_num( vmem, bt->size ) >= 0 ) add_freelist( vmem, bt );` -/
def encache (v : Vmem σ) (bt : ℕ) : Outcome (Vmem σ) := do
  let g ← load v.tag (some bt)
  match ← cacheNum v g.size with
  | none => .ok v
  | some _ => addFreelist v bt

/-- `tmp` is the answer of `kmalloc`. The tag of the required size is on the right. -/
def vmemAlSplittag (tmp : Option ℕ) (v : Vmem σ) (bt size : ℕ) :
    Outcome (Vmem σ × Option ℕ) :=
  match tmp with
  | none => .ok (v, none)
  | some tmp => do
    let g ← load v.tag (some bt)
    assert (g.allocated = .free)
    let rest := sub32 g.size size
    let v ← v.setTag (some bt) fun g => { g with size := rest }
    let v := v.putTag tmp ⟨add32 g.addr rest, size, 0, .free, g.next, some bt, none, none⟩
    let v ← v.setTagIf g.next fun n => { n with prev := some tmp }
    let v ← v.setTag (some bt) fun g => { g with next := some tmp }
    .ok (v, some tmp)

/-- `if ( (best_bt == NULL) || (bt->size < best_bt->size) ) best_bt = bt;` -/
def better (v : Vmem σ) (bt size : ℕ) : Option ℕ → Outcome ℕ
  | none => .ok bt
  | some best => do
    let g ← load v.tag (some best)
    .ok (if size < g.size then bt else best)

/-- The loop over a list of tags that both searches run: `link` is the pointer they follow, and
the search in a free list asserts that all tags in it are free. -/
def scanFrom (v : Vmem σ) (link : Bt → Option ℕ) (freeList : Bool) (rsize : ℕ) (bestfit : Bool) :
    ℕ → Option ℕ → Option ℕ → Outcome (Option ℕ)
  | _, none, best => .ok best
  | 0, some _, _ => .error .diverges
  | left + 1, some bt, best => do
    let g ← load v.tag (some bt)
    assert (freeList = true → g.allocated = .free)
    if g.allocated = .free ∧ rsize ≤ g.size then
      if bestfit then do
        let best ← better v bt g.size best
        scanFrom v link freeList rsize bestfit left (link g) (some best)
      else .ok (some bt)
    else scanFrom v link freeList rsize bestfit left (link g) best

def vmemAllocSearch (v : Vmem σ) (rsize vmflag : ℕ) : Outcome (Option ℕ) :=
  scanFrom v Bt.next false rsize (hasFlag vmflag vmemBestfit) walkBound v.tags none

/-- The loop over the size classes. A tag is returned at once without `VMEM_BESTFIT`, and by the
`break` with it. -/
def classesFrom (v : Vmem σ) (rsize : ℕ) (bestfit : Bool) : ℕ → ℕ → Outcome (Option ℕ)
  | 0, _ => .ok none
  | left + 1, pos => do
    let first ← v.readCache pos
    match ← scanFrom v Bt.flNext true rsize bestfit walkBound first none with
    | some bt => .ok (some bt)
    | none => classesFrom v rsize bestfit left (pos + 1)

def vmemAllocQuantum (v : Vmem σ) (rsize vmflag : ℕ) : Outcome (Option ℕ) := do
  let pos ← highbit (rsize / v.quantum)
  let pos := if hasFlag vmflag vmemInstant then pos + 1 else pos
  classesFrom v rsize (hasFlag vmflag vmemBestfit) (v.cacheBits - pos) pos

def findTag (v : Vmem σ) (size vmflag : ℕ) : Outcome (Option ℕ) :=
  if hasFlag vmflag vmemSearch then vmemAllocSearch v size vmflag
  else do
    match ← vmemAllocQuantum v size vmflag with
    | none => vmemAllocSearch v size vmflag
    | some bt => .ok (some bt)

/-- The tag leaves its free list, and gives up what is too much. -/
def carve (tmp : Option ℕ) (v : Vmem σ) (bt size : ℕ) : Outcome (Vmem σ × Option ℕ) := do
  let g ← load v.tag (some bt)
  assert (g.allocated = .free)
  let v ← uncache v bt
  if v.quantum ≤ sub32 g.size size then do
    let (v, tmp) ← vmemAlSplittag tmp v bt size
    let v ← encache v bt
    .ok (v, tmp)
  else .ok (v, some bt)

/-- The tag becomes allocated, and its span's table names it. -/
def claim (v : Vmem σ) (bt : Option ℕ) : Outcome (Vmem σ × Bt) := do
  let v ← v.setTag bt fun g => { g with allocated := .allocated }
  let g ← load v.tag bt
  match ← vmemGetspan v g.addr with
  | none => .error .assertion
  | some span => do
    let sp ← load v.span (some span)
    let i := sub32 g.addr sp.addr / v.quantum
    let slot ← readHash sp i
    assert (slot = none)
    let v ← writeHash v span i bt
    .ok (v, g)

def mergeLeft (v : Vmem σ) (sp : Span) (bt : ℕ) : Outcome (Vmem σ × ℕ) := do
  let g ← load v.tag (some bt)
  match g.prev with
  | none => .ok (v, bt)
  | some prev => do
    let p ← load v.tag (some prev)
    if p.allocated = .free ∧ sp.addr ≤ p.addr then do
      let v ← uncache v prev
      let v ← v.setTag (some prev) fun p => { p with size := add32 p.size g.size, next := g.next }
      let v ← v.setTagIf g.next fun n => { n with prev := some prev }
      .ok (v.freeTag bt, prev)
    else .ok (v, bt)

def mergeRight (v : Vmem σ) (sp : Span) (bt : ℕ) : Outcome (Vmem σ) := do
  let g ← load v.tag (some bt)
  match g.next with
  | none => .ok v
  | some next => do
    let n ← load v.tag (some next)
    if n.allocated = .free ∧ n.addr < add32 sp.addr sp.size then do
      let v ← uncache v next
      let v ← v.setTag (some bt) fun g => { g with size := add32 g.size n.size, next := n.next }
      let v ← v.setTagIf n.next fun m => { m with prev := some bt }
      .ok (v.freeTag next)
    else .ok v

/-- The range goes back to the arena below, if there is one. -/
def releaseSource (v : Vmem σ) (g : Bt) : Outcome (Vmem σ) :=
  match v.source with
  | none => .ok v
  | some source =>
    if g.sourceAddr = 0 then .ok v
    else do
      let source ← v.ffunc source g.sourceAddr g.size
      .ok { v with source := some source }

/-- The parameter `size` of `vmem_free` is not used. -/
def vmemFree (v : Vmem σ) (addr : ℕ) : Outcome (Vmem σ × ℕ) := do
  match ← vmemGetspan v addr with
  | none => .ok (v, 0)
  | some span => do
    let sp ← load v.span (some span)
    let i := sub32 addr sp.addr / v.quantum
    match ← readHash sp i with
    | none => .ok (v, 0)
    | some bt => do
      let g ← load v.tag (some bt)
      let v ← releaseSource v g
      let v ← writeHash v span i none
      assert (g.allocated = .allocated)
      let v ← v.setTag (some bt) fun g => { g with allocated := .free }
      let (v, bt) ← mergeLeft v sp bt
      let v ← mergeRight v sp bt
      let v ← encache v bt
      .ok (v, addr)

/-- The range is backed by one of the arena below, if there is one. -/
def acquireSource (v : Vmem σ) (bt : Option ℕ) (g : Bt) (vmflag : ℕ) : Outcome (Vmem σ × ℕ) :=
  match v.source with
  | none => .ok (v, g.addr)
  | some source => do
    let (source, sourceAddr) ← v.afunc source g.size vmflag
    let v ← { v with source := some source }.setTag bt fun g => { g with sourceAddr := sourceAddr }
    if sourceAddr = 0 then do
      let (v, _) ← vmemFree v g.addr
      .ok (v, 0)
    else .ok (v, g.addr)

def roundUp (quantum rsize : ℕ) : ℕ :=
  if rsize % quantum ≠ 0 then add32 rsize (quantum - rsize % quantum) else rsize

def vmemAlloc (tmp : Option ℕ) (v : Vmem σ) (rsize vmflag : ℕ) : Outcome (Vmem σ × ℕ) :=
  if rsize = 0 then .ok (v, 0)
  else do
    let size := roundUp v.quantum rsize
    match ← findTag v size vmflag with
    | none => .ok (v, 0)
    | some bt => do
      let (v, bt) ← carve tmp v bt size
      let (v, g) ← claim v bt
      acquireSource v bt g vmflag

/-- The loop that finds the node behind which to insert. -/
def insertFrom {ν : Type} (heap : ℕ → Option ν) (addrOf : ν → ℕ) (link : ν → Option ℕ) (addr : ℕ) :
    ℕ → Option ℕ → Option ℕ → Outcome (Option ℕ)
  | _, none, insert => .ok insert
  | 0, some _, _ => .error .diverges
  | left + 1, some x, insert => do
    let n ← load heap (some x)
    if addr ≤ addrOf n then .ok insert
    else insertFrom heap addrOf link addr left (link n) (some x)

def insertSpan (v : Vmem σ) (insert : Option ℕ) (span : ℕ) (sp : Span) : Outcome (Vmem σ) :=
  match insert with
  | none => .ok { v with
      span := Function.update v.span span (some { sp with next := v.spans })
      spans := some span }
  | some before => do
    let b ← load v.span (some before)
    { v with span := Function.update v.span span (some { sp with next := b.next }) }.setSpan
      (some before) fun b => { b with next := some span }

/-- The pointers of a new tag. -/
def placeTag (v : Vmem σ) (insert : Option ℕ) (bt : ℕ) (g : Bt) : Outcome (Vmem σ × Bt) :=
  match insert with
  | none =>
    .ok ({ v with tags := some bt }, { g with next := v.tags, prev := none })
  | some before => do
    let b ← load v.tag (some before)
    .ok (v, { g with next := b.next, prev := some before })

def insertTag (v : Vmem σ) (insert : Option ℕ) (bt : ℕ) (g : Bt) : Outcome (Vmem σ) := do
  let (v, g) ← placeTag v insert bt g
  let v := v.putTag bt g
  let v ← v.setTagIf g.prev fun p => { p with next := some bt }
  v.setTagIf g.next fun n => { n with prev := some bt }

/-- The answers of `kmalloc` are `span`, `hash` (granted or not) and `bt`. -/
def vmemAdd (span : Option ℕ) (hash : Bool) (bt : Option ℕ) (v : Vmem σ) (addr size : ℕ) :
    Outcome (Vmem σ × ℕ) := do
  assert (0 < size)
  assert (size % v.quantum = 0)
  assert (addr < add32 addr size)
  let beforeSpan ← insertFrom v.span Span.addr Span.next addr walkBound v.spans none
  match span with
  | none => .ok (v, 0)
  | some span =>
    let slots := size / v.quantum
    if hash = false then .ok (v, 0)
    else do
      let before ← insertFrom v.tag Bt.addr Bt.next addr walkBound v.tags none
      match bt with
      | none => .ok (v, 0)
      | some bt => do
        let hashBytes := slots * sizeofPointer % 2 ^ 32
        let v ← insertSpan v beforeSpan span ⟨addr, size, slots, fun _ => none, hashBytes, none⟩
        let v ← insertTag v before bt ⟨addr, size, 0, .free, none, none, none, none⟩
        let v ← encache v bt
        .ok (v, addr)

/-- `vmem_create` up to the initial range, which it adds with `vmem_add`. -/
def vmemCreate (quantum qcacheMax : ℕ) (afunc : σ → ℕ → ℕ → Outcome (σ × ℕ))
    (ffunc : σ → ℕ → ℕ → Outcome σ) (source : Option σ) : Outcome (Vmem σ) :=
  if quantum = 0 then .error .divideError
  else do
    let bits ← highbit (qcacheMax / quantum)
    .ok
      { quantum := quantum
        cacheMax := qcacheMax
        cacheBits := bits + 1
        afunc := afunc
        ffunc := ffunc
        source := source
        tags := none
        spans := none
        freeCache := fun _ => none
        tag := fun _ => none
        span := fun _ => none }

end
end Racoon.Arenas
