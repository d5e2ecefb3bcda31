import Racoon.Mm.Kalloc

/-!
# The first request of the cached allocator

Every slab holds 1024 objects with its header and an index array, so that the request of a cache
that has to grow is far larger than its own objects. The one of the smallest cache goes to the
largest; the one of any other cache is larger than every cache. A cache is empty when it is
created, so the first `kmalloc` ends at an assertion.
-/

namespace Racoon.Kalloc
open Lib SlabAllocator

/-- A cache as `init_kalloc` creates it. -/
def newCache (unit : ℕ) : KmemCache :=
  let intSize := internalSize unit ALIGNMENT 0
  ⟨unit, ALIGNMENT, KMEM_OBJECTS, intSize, internalSlabobjSize intSize KMEM_OBJECTS ALIGNMENT 0,
    false, false, true, 0, 0, 0, none⟩

/-- What `init_kalloc` leaves. -/
def Installed (k : State) : Prop :=
  ∀ num < MAX_CACHES, k.cache num = newCache (CACHE_UNIT * 2 ^ num)

inductive Call
  | kmalloc (size : ℕ)
  | kfree (ptr : ℕ)
  | krealloc (ptr : Option ℕ) (size : ℕ)

/-- The allocator with the blocks that its callers hold. -/
structure Session where
  kalloc : State
  live : List Block

/-- The largest cache unit. -/
def largestUnit : ℕ := CACHE_UNIT * 2 ^ (MAX_CACHES - 1)

/-- Requests that some cache is made for, and pointers that are live. -/
def Permitted (live : List Block) : Call → Prop
  | .kmalloc size => 0 < size ∧ size ≤ largestUnit
  | .kfree ptr => ∃ size, (ptr, size) ∈ live
  | .krealloc none size => 0 < size ∧ size ≤ largestUnit
  | .krealloc (some ptr) size => size ≤ largestUnit ∧ ∃ held, (ptr, held) ∈ live

/-- The blocks held once a pointer was asked for and answered. -/
def held (live : List Block) (size : ℕ) : Option ℕ → List Block
  | none => live
  | some ptr => (ptr, size) :: live

def call (depth : ℕ) (s : Session) : Call → Outcome (Session × Option ℕ)
  | .kmalloc size => do
    let (k, ptr) ← lKmalloc depth s.kalloc size
    .ok (⟨k, held s.live size ptr⟩, ptr)
  | .kfree ptr => do
    let k ← lKfree s.kalloc ptr
    .ok (⟨k, s.live.eraseP (·.1 = ptr)⟩, none)
  | .krealloc ptr size => do
    let (k, newPtr) ← lKrealloc depth s.kalloc ptr size
    .ok (⟨k, held (s.live.eraseP (some ·.1 = ptr)) size newPtr⟩, newPtr)

/-- What `kmalloc` may answer: no block, or one of the size apart from all that are live. -/
def Answers (live : List Block) : Call → Option ℕ → Prop
  | .kmalloc size, some ptr =>
    Block.Inside (2 ^ 32) (ptr, size) ∧ ∀ b ∈ live, Block.Apart (ptr, size) b
  | _, _ => True

/-- The calls return one after the other, as long as they are permitted. -/
def Serves (depth : ℕ) : Session → List Call → Prop
  | _, [] => True
  | s, c :: cs => Permitted s.live c →
      ∃ s' ptr, call depth s c = .ok (s', ptr) ∧ Answers s.live c ptr ∧ Serves depth s' cs

section Requests
variable {k : State} {num size depth unit : ℕ} {e : Fault}

theorem cacheNumFrom_lt {left i : ℕ} (h : cacheNumFrom size left i unit = some num) :
    num < i + left := by
  induction left generalizing i unit with
  | zero => cases h
  | succ left ih =>
    rw [cacheNumFrom] at h
    split at h
    · cases h
      omega
    · have := ih h
      omega

theorem getCacheNum_lt (h : getCacheNum size = some num) : num < MAX_CACHES :=
  (cacheNumFrom_lt h).trans_eq (Nat.zero_add _)

/-- What a cache asks for when it grows: the smallest one asks the largest, any other one asks for
more than there is. -/
theorem getCacheNum_slabSize (h : num < MAX_CACHES) :
    getCacheNum (slabSize (newCache (CACHE_UNIT * 2 ^ num))) =
      if num = 0 then some 11 else none := by
  unfold MAX_CACHES at h
  interval_cases num <;> decide +kernel

theorem slabSize_pos (h : num < MAX_CACHES) :
    0 < slabSize (newCache (CACHE_UNIT * 2 ^ num)) := by
  unfold MAX_CACHES at h
  interval_cases num <;> decide +kernel

theorem newSlab_of_error {kmalloc : State → ℕ → Outcome (State × Option ℕ)}
    (h : kmalloc k (slabSize (k.cache num)) = .error e) :
    newSlab kmalloc num 0 k = .error e := by
  have hon : hasFlag 0 kvOffSlab = false := by decide
  rw [newSlab, hon, h]
  rfl

/-- An empty cache can only grow, so the failure of its request is its own. -/
theorem cacheAlloc_of_error {kmalloc : State → ℕ → Outcome (State × Option ℕ)}
    (hk : k.cache num = newCache unit)
    (h : kmalloc k (slabSize (k.cache num)) = .error e) :
    cacheAlloc kmalloc num 0 (depth + 1) k = .error e := by
  have hempty : firstFree (k.kmem num) = .ok none := by
    unfold firstFree State.kmem
    rw [hk]
    rfl
  have hcounts : (k.cache num).totalObjects = (k.cache num).usedObjects := by
    rw [hk]
    rfl
  have hgrows : hasFlag (k.cache num).cflags kvNogrow = false := by
    rw [hk]
    exact (by decide : hasFlag 0 kvNogrow = false)
  have hfails : growOrReclaim kmalloc num 0 k = .error e := by
    rw [growOrReclaim, cacheGrow, newSlab_of_error h]
    rfl
  rw [cacheAlloc, hempty, ok_bind]
  dsimp only
  rw [if_pos hcounts, hgrows, hfails]
  rfl

theorem lKmalloc_of_none (h : getCacheNum size = none) :
    lKmalloc (depth + 1) k size = .error .assertion := by
  rw [lKmalloc, h]
  by_cases hsize : 0 < size
  · rw [assert_of hsize, ok_bind]
    rfl
  · rw [assert, if_neg hsize]
    rfl

theorem lKmalloc_of_error (hk : Installed k) (hsize : 0 < size) (hnum : getCacheNum size = some num)
    (h : lKmalloc depth k (slabSize (newCache (CACHE_UNIT * 2 ^ num))) = .error e) :
    lKmalloc (depth + 1) k size = .error e := by
  have hcache := hk num (getCacheNum_lt hnum)
  rw [lKmalloc, assert_of hsize, ok_bind, hnum, assertFound, ok_bind]
  refine cacheAlloc_of_error hcache ?_
  rw [hcache]
  exact h

/-- Two calls inside the first are enough to reach the assertion. -/
theorem lKmalloc_fails (hk : Installed k) (hsize : 0 < size) :
    lKmalloc (depth + 3) k size = .error .assertion := by
  cases hnum : getCacheNum size with
  | none => exact lKmalloc_of_none hnum
  | some num =>
    have hlt := getCacheNum_lt hnum
    refine lKmalloc_of_error hk hsize hnum ?_
    have hnext := getCacheNum_slabSize hlt
    by_cases hzero : num = 0
    · rw [if_pos hzero] at hnext
      refine lKmalloc_of_error hk (slabSize_pos hlt) hnext (lKmalloc_of_none ?_)
      exact getCacheNum_slabSize (by decide)
    · rw [if_neg hzero] at hnext
      exact lKmalloc_of_none hnext

/-- However deep the calls may go, none returns. -/
theorem lKmalloc_not_ok (hk : Installed k) (depth size : ℕ) :
    ∃ e, lKmalloc depth k size = .error e := by
  induction depth generalizing size with
  | zero => exact ⟨.diverges, rfl⟩
  | succ depth ih =>
    cases hnum : getCacheNum size with
    | none => exact ⟨.assertion, lKmalloc_of_none hnum⟩
    | some num =>
      by_cases hsize : 0 < size
      · obtain ⟨e, he⟩ := ih (slabSize (newCache (CACHE_UNIT * 2 ^ num)))
        exact ⟨e, lKmalloc_of_error hk hsize hnum he⟩
      · refine ⟨.assertion, ?_⟩
        rw [lKmalloc, assert, if_neg hsize]
        rfl

/-- A call that a caller without blocks may make is a request. -/
theorem Permitted.request {c : Call} (h : Permitted [] c) :
    ∃ size, 0 < size ∧ (c = .kmalloc size ∨ c = .krealloc none size) := by
  cases c with
  | kmalloc size => exact ⟨size, h.1, .inl rfl⟩
  | kfree ptr => simp [Permitted] at h
  | krealloc ptr size =>
    cases ptr with
    | none => exact ⟨size, h.1, .inr rfl⟩
    | some ptr => simp [Permitted] at h

theorem call_of_error {s : Session} {c : Call} (hc : c = .kmalloc size ∨ c = .krealloc none size)
    (h : lKmalloc depth s.kalloc size = .error e) : call depth s c = .error e := by
  rcases hc with rfl | rfl
  · rw [call, h]
    rfl
  · rw [call, lKrealloc, h]
    rfl

end Requests

section Creation
variable {malloc : ℕ → Option ℕ} {k k' : State}

theorem kmemCacheCreate_cache {kmalloc : Kmalloc} {unit : ℕ} {m : Kmem}
    (h : kmemCacheCreate kmalloc KMEM_OBJECTS unit ALIGNMENT false false true 0 = some m) :
    m.cache = newCache unit := by
  unfold kmemCacheCreate at h
  dsimp only at h
  split at h
  · cases h
  · cases h
    rfl

/-- The loop creates the caches from `i` on and leaves the others. -/
theorem createFrom_cache {left i unit : ℕ} (h : createFrom malloc left i unit k = .ok k') :
    (∀ j < i, k'.cache j = k.cache j) ∧
      ∀ j < left, k'.cache (i + j) = newCache (unit * 2 ^ j) := by
  induction left generalizing i unit k with
  | zero =>
    cases h
    exact ⟨fun _ _ => rfl, fun _ hj => absurd hj (Nat.not_lt_zero _)⟩
  | succ left ih =>
    rw [createFrom] at h
    split at h
    · cases h
    · rename_i m hcreate
      obtain ⟨hbefore, hrest⟩ := ih h
      refine ⟨fun j hj => (hbefore j (by omega)).trans (Function.update_of_ne (by omega) _ _),
        fun j hj => ?_⟩
      cases j with
      | zero =>
        rw [Nat.add_zero, hbefore i (by omega), pow_zero, mul_one]
        exact (Function.update_self ..).trans (kmemCacheCreate_cache hcreate)
      | succ j =>
        have hj := hrest j (by omega)
        rw [show i + 1 + j = i + (j + 1) by omega] at hj
        rw [hj, mul_assoc, ← pow_succ']

theorem initKalloc_installed (h : initKalloc malloc k = .ok k') : Installed k' := by
  intro num hnum
  have hcache := (createFrom_cache h).2 num hnum
  rwa [Nat.zero_add] at hcache

end Creation

/-- A sequence of calls is served only if it has no call in it that callers may make: the first one
ends at an assertion, whatever its size. -/
theorem kalloc_serves_iff {malloc : ℕ → Option ℕ} {k₀ k : State}
    (h : initKalloc malloc k₀ = .ok k) :
    (∀ cs, (∃ depth, Serves depth ⟨k, []⟩ cs) ↔ ∀ c ∈ cs.head?, ¬ Permitted [] c) ∧
      ∀ c, Permitted [] c → ∀ depth, call (depth + 3) ⟨k, []⟩ c = .error .assertion := by
  have hk := initKalloc_installed h
  refine ⟨fun cs => ⟨fun ⟨depth, hserves⟩ c hc hpermitted => ?_, fun hnone => ?_⟩,
    fun c hpermitted depth => ?_⟩
  · cases cs with
    | nil => cases hc
    | cons c' cs =>
      cases hc
      obtain ⟨size, hsize, hcall⟩ := hpermitted.request
      obtain ⟨e, he⟩ := lKmalloc_not_ok hk depth size
      obtain ⟨s', ptr, hok, -⟩ := hserves hpermitted
      rw [call_of_error hcall he] at hok
      cases hok
  · cases cs with
    | nil => exact ⟨0, trivial⟩
    | cons c cs => exact ⟨0, fun hpermitted => absurd hpermitted (hnone c rfl)⟩
  · obtain ⟨size, hsize, hcall⟩ := hpermitted.request
    exact call_of_error hcall (lKmalloc_fails hk hsize)

/-- Blocks for the twelve caches from the allocator that was there before. -/
def cacheBlock (i : ℕ) : Option ℕ := some (0x100000 + 0x80 * i)

def unset : State := ⟨fun _ => 0, fun _ => newCache 0, fun _ => none, fun _ => none⟩

theorem initKalloc_unset : ∃ k, initKalloc cacheBlock unset = .ok k := ⟨_, rfl⟩

theorem kalloc_serves_iff_kmalloc : ∃ k, initKalloc cacheBlock unset = .ok k ∧
    ((∃ depth, Serves depth ⟨k, []⟩ [.kmalloc 24]) ↔
      ∀ c ∈ [Call.kmalloc 24].head?, ¬ Permitted [] c) := by
  obtain ⟨k, hk⟩ := initKalloc_unset
  exact ⟨k, hk, (kalloc_serves_iff hk).1 [.kmalloc 24]⟩

theorem first_kmalloc_not_served : ∃ k, initKalloc cacheBlock unset = .ok k ∧
    ¬ ∃ depth, Serves depth ⟨k, []⟩ [.kmalloc 24] := by
  obtain ⟨k, hk⟩ := initKalloc_unset
  refine ⟨k, hk, ?_⟩
  rintro ⟨depth, hserves⟩
  obtain ⟨s', ptr, hok, -⟩ := hserves (by decide : 0 < 24 ∧ 24 ≤ largestUnit)
  obtain ⟨e, he⟩ := lKmalloc_not_ok (initKalloc_installed hk) depth 24
  rw [call_of_error (.inl rfl) he] at hok
  cases hok

end Racoon.Kalloc
