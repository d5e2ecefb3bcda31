import Racoon.Mm.KmemCache
import Racoon.Lib.DoublyLinked

/-!
# Where the objects of a slab lie

The objects of a slab with their red zones and owner words fit into the space
that `kmem_cache_create` has computed, wherever that space begins, and from the
address of an object the slab and the index are found again.
-/

namespace Racoon.SlabAllocator
open Lib

def red (c : KmemCache) : ℕ := if hasFlag c.cflags kvRedZone then sizeofRedzone else 0

def own (c : KmemCache) : ℕ := if hasFlag c.cflags kvOwnership then sizeofOwner else 0

/-- What the sizes of a cache satisfy when their computation did not wrap. -/
structure KmemCache.Fits (c : KmemCache) : Prop where
  size : 0 < c.size
  objects : 0 < c.objects
  intSize : c.size + 2 * red c + own c ≤ c.intSize
  slabobj : c.objects * c.intSize + c.align + red c ≤ c.intSlabobjSize
  total : sizeofSlab + c.objects * sizeofCtl + c.intSlabobjSize < 2 ^ 32

/-- The same for the object space alone. -/
structure KmemCache.Roomy (c : KmemCache) : Prop where
  size : 0 < c.size
  intSize : c.size + 2 * red c + own c ≤ c.intSize
  slabobj : c.objects * c.intSize + c.align + red c ≤ c.intSlabobjSize
  total : c.intSlabobjSize < 2 ^ 32

theorem KmemCache.Fits.roomy {c : KmemCache} (hc : c.Fits) : c.Roomy :=
  ⟨hc.size, hc.intSize, hc.slabobj, by have := hc.total; omega⟩

def objectsAt (c : KmemCache) (slab : ℕ) : ℕ := slab + (sizeofSlab + c.objects * sizeofCtl)

def slabBytes (c : KmemCache) : ℕ := sizeofSlab + c.objects * sizeofCtl + c.intSlabobjSize

def objAt (c : KmemCache) (slab i : ℕ) : ℕ :=
  objectsAt c slab + slabOffset c (objectsAt c slab) + i * c.intSize

/-- Object `i` of a slab whose object space begins at `ptr`. -/
def slotAt (c : KmemCache) (ptr i : ℕ) : ℕ := ptr + slabOffset c ptr + i * c.intSize

theorem objAt_eq (c : KmemCache) (a i : ℕ) : objAt c a i = slotAt c (objectsAt c a) i := rfl

section Geometry
variable {c : KmemCache} {p i j : ℕ}

/-- The distance of the first object from the beginning before it is aligned. -/
theorem marks_eq (c : KmemCache) : (if hasFlag c.cflags kvOwnership then
    add32 (if hasFlag c.cflags kvRedZone then sizeofRedzone else 0) sizeofOwner
    else if hasFlag c.cflags kvRedZone then sizeofRedzone else 0) = red c + own c := by
  unfold red own
  split_ifs <;> rfl

theorem KmemCache.Roomy.align_lt (hc : c.Roomy) (ho : 0 < c.objects) :
    red c + own c + c.align < 2 ^ 32 := by
  have hle : c.intSize ≤ c.objects * c.intSize := Nat.le_mul_of_pos_left _ ho
  have hint := hc.intSize
  have hspace := hc.slabobj
  have htotal := hc.total
  omega

theorem slabOffset_bounds (hc : c.Roomy) (ho : 0 < c.objects) (p : ℕ) :
    red c + own c ≤ slabOffset c p ∧ slabOffset c p ≤ red c + own c + c.align := by
  have halign := hc.align_lt ho
  simp only [slabOffset, marks_eq]
  split_ifs with h
  · have hlt := Nat.mod_lt (add32 p (red c + own c)) (show c.align > 0 by omega)
    rw [add32_of_lt (by omega)]
    omega
  · omega

theorem mul_intSize_le (hi : i < j) : i * c.intSize + c.intSize ≤ j * c.intSize := by
  rw [← Nat.succ_mul]
  exact Nat.mul_le_mul_right _ hi

theorem slotAt_lt (hij : i < j) : slotAt c p i + c.intSize ≤ slotAt c p j := by
  have := mul_intSize_le (c := c) hij
  unfold slotAt
  omega

theorem slotAt_bounds (hc : c.Roomy) (hi : i < c.objects) :
    p + red c + own c ≤ slotAt c p i ∧
    slotAt c p i + c.size + red c ≤ p + c.intSlabobjSize := by
  obtain ⟨hlo, hhi⟩ := slabOffset_bounds hc (Nat.zero_lt_of_lt hi) p
  have := mul_intSize_le (c := c) hi
  have := hc.intSize
  have := hc.slabobj
  unfold slotAt
  omega

theorem slotAt_ne (hc : c.Roomy) (hij : i ≠ j) : slotAt c p i ≠ slotAt c p j := by
  have := hc.size
  have := hc.intSize
  rcases Nat.lt_or_gt_of_ne hij with h | h
  · have := slotAt_lt (c := c) (p := p) h
    omega
  · have := slotAt_lt (c := c) (p := p) h
    omega

/-- Objects of two spaces that lie apart are different. -/
theorem slotAt_apart (hc : c.Roomy) {q : ℕ}
    (hap : Block.Apart (p, c.intSlabobjSize) (q, c.intSlabobjSize)) (hi : i < c.objects)
    (hj : j < c.objects) : slotAt c p i ≠ slotAt c q j := by
  have := slotAt_bounds (p := p) hc hi
  have := slotAt_bounds (p := q) hc hj
  have := hc.size
  unfold Block.Apart at hap
  dsimp only at hap
  omega

end Geometry

/-- `int_size` as it is meant, in exact arithmetic. -/
def meantIntSize (size align cflags : ℕ) : ℕ :=
  let space := size + (if hasFlag cflags kvRedZone then 2 * sizeofRedzone else 0) +
    if hasFlag cflags kvOwnership then sizeofOwner else 0
  if 1 < align ∧ space % align ≠ 0 then space + (align - space % align) else space

def meantSlabobjSize (objects size align cflags : ℕ) : ℕ :=
  meantIntSize size align cflags * objects + align +
    if hasFlag cflags kvRedZone then sizeofRedzone else 0

section Sizes
variable {objects size align cflags : ℕ}

theorem meantIntSize_ge (size align cflags : ℕ) :
    size + (if hasFlag cflags kvRedZone then 2 * sizeofRedzone else 0) +
      (if hasFlag cflags kvOwnership then sizeofOwner else 0) ≤ meantIntSize size align cflags := by
  unfold meantIntSize
  dsimp only
  split_ifs <;> omega

theorem dvd_meantIntSize (h : 1 < align) : align ∣ meantIntSize size align cflags := by
  unfold meantIntSize
  dsimp only
  generalize size + (if hasFlag cflags kvRedZone then 2 * sizeofRedzone else 0) +
    (if hasFlag cflags kvOwnership then sizeofOwner else 0) = space
  split_ifs with hmod
  · have hlt := Nat.mod_lt space (show align > 0 by omega)
    have hdiv := Nat.div_add_mod space align
    refine ⟨space / align + 1, ?_⟩
    rw [Nat.mul_succ]
    omega
  · exact Nat.dvd_of_mod_eq_zero (by simpa [h] using hmod)

theorem internalSize_eq (h : meantIntSize size align cflags < 2 ^ 32) :
    internalSize size align cflags = meantIntSize size align cflags := by
  have hge := meantIntSize_ge size align cflags
  have hred : (if hasFlag cflags kvRedZone then add32 size (2 * sizeofRedzone) else size) =
      size + if hasFlag cflags kvRedZone then 2 * sizeofRedzone else 0 := by
    split_ifs at hge ⊢
    all_goals first | rfl | exact add32_of_lt (by omega)
  have hown : ∀ x, x = size + (if hasFlag cflags kvRedZone then 2 * sizeofRedzone else 0) →
      (if hasFlag cflags kvOwnership then add32 x sizeofOwner else x) =
        x + if hasFlag cflags kvOwnership then sizeofOwner else 0 := by
    rintro x rfl
    split_ifs at hge ⊢
    all_goals first | rfl | exact add32_of_lt (by omega)
  unfold internalSize
  simp only [hred, hown _ rfl]
  unfold meantIntSize at h ⊢
  dsimp only at h ⊢
  split_ifs at h ⊢
  all_goals first | rfl | exact add32_of_lt h

theorem internalSlabobjSize_eq {intSize : ℕ}
    (h : intSize * objects + align + (if hasFlag cflags kvRedZone then sizeofRedzone else 0) <
      2 ^ 32) :
    internalSlabobjSize intSize objects align cflags = intSize * objects + align +
      if hasFlag cflags kvRedZone then sizeofRedzone else 0 := by
  have hspace : add32 (intSize * objects) align = intSize * objects + align :=
    add32_of_lt (by omega)
  unfold internalSlabobjSize
  dsimp only
  rw [hspace]
  split_ifs at h ⊢
  all_goals first | rfl | exact add32_of_lt h

end Sizes

/-- The two sizes are those that `kmem_cache_create` computes. -/
structure KmemCache.Created (c : KmemCache) : Prop where
  intSize : c.intSize = internalSize c.size c.align c.cflags
  slabobj : c.intSlabobjSize = internalSlabobjSize c.intSize c.objects c.align c.cflags

theorem created_of_create {kmalloc : Kmalloc} {objects size align cflags : ℕ}
    {constructor destructor reclaim : Bool} {k : Kmem}
    (hk : kmemCacheCreate kmalloc objects size align constructor destructor reclaim cflags =
      some k) : k.cache.Created := by
  unfold kmemCacheCreate at hk
  dsimp only at hk
  cases hcp : kmalloc [] sizeofCache with
  | none => simp [hcp] at hk
  | some cp =>
    rw [hcp, Option.some_inj] at hk
    subst hk
    exact ⟨rfl, rfl⟩

namespace KmemCache.Created
variable {c : KmemCache}

/-- The sizes are exact when none of them wraps. -/
theorem meant (hc : c.Created) (ho : 0 < c.objects)
    (hfit : meantSlabobjSize c.objects c.size c.align c.cflags < 2 ^ 32) :
    c.intSize = meantIntSize c.size c.align c.cflags ∧
      c.intSlabobjSize = meantSlabobjSize c.objects c.size c.align c.cflags := by
  have hmul : meantIntSize c.size c.align c.cflags ≤
      meantIntSize c.size c.align c.cflags * c.objects := Nat.le_mul_of_pos_right _ ho
  unfold meantSlabobjSize at hfit
  have hint : c.intSize = meantIntSize c.size c.align c.cflags :=
    hc.intSize.trans (internalSize_eq (by omega))
  refine ⟨hint, ?_⟩
  rw [hc.slabobj, hint]
  exact internalSlabobjSize_eq (by omega)

theorem roomy (hc : c.Created) (hsize : 0 < c.size) (ho : 0 < c.objects)
    (hfit : meantSlabobjSize c.objects c.size c.align c.cflags < 2 ^ 32) : c.Roomy := by
  obtain ⟨hint, hspace⟩ := hc.meant ho hfit
  have hge := meantIntSize_ge c.size c.align c.cflags
  refine ⟨hsize, ?_, ?_, by omega⟩
  · rw [hint]
    unfold red own
    split_ifs at hge ⊢ <;> omega
  · rw [hspace, hint, meantSlabobjSize, Nat.mul_comm]
    rfl

theorem fits (hc : c.Created) (hsize : 0 < c.size) (ho : 0 < c.objects)
    (hfit : sizeofSlab + c.objects * sizeofCtl +
      meantSlabobjSize c.objects c.size c.align c.cflags < 2 ^ 32) : c.Fits := by
  obtain ⟨hint, hspace⟩ := hc.meant ho (by omega)
  have hr := hc.roomy hsize ho (by omega)
  exact ⟨hr.size, ho, hr.intSize, hr.slabobj, hspace ▸ hfit⟩

/-- Every object is aligned, as the first one is and the distances are. -/
theorem aligned (hc : c.Created) (ho : 0 < c.objects) (hr : c.Roomy)
    (hfit : meantSlabobjSize c.objects c.size c.align c.cflags < 2 ^ 32) (halign : 1 < c.align)
    {ptr : ℕ} (hptr : ptr + c.intSlabobjSize < 2 ^ 32) (i : ℕ) : c.align ∣ slotAt c ptr i := by
  have hint : c.align ∣ c.intSize := (hc.meant ho hfit).1 ▸ dvd_meantIntSize halign
  have hbase : c.align ∣ ptr + slabOffset c ptr := by
    have hlt := hr.align_lt ho
    have hspace := hr.slabobj
    have hmul : c.intSize ≤ c.objects * c.intSize := Nat.le_mul_of_pos_left _ ho
    have hle := hr.intSize
    have hadd : add32 ptr (red c + own c) = ptr + (red c + own c) := add32_of_lt (by omega)
    simp only [slabOffset, marks_eq, hadd]
    generalize red c + own c = off at *
    split_ifs with hmod
    · have hmod' := Nat.mod_lt (ptr + off) (show c.align > 0 by omega)
      have hdiv := Nat.div_add_mod (ptr + off) c.align
      rw [add32_of_lt (by omega)]
      refine ⟨(ptr + off) / c.align + 1, ?_⟩
      rw [Nat.mul_succ]
      omega
    · exact Nat.dvd_of_mod_eq_zero (by simpa [halign] using hmod)
  exact dvd_add hbase (hint.mul_left i)

end KmemCache.Created

/-- Where a slab lies: its header, its objects, and whether these are two blocks. -/
structure Place where
  addr : ℕ
  ptr : ℕ
  off : Bool

/-- The object space of a slab. -/
def Place.space (c : KmemCache) (x : Place) : Block := (x.ptr, c.intSlabobjSize)

/-- The slabs of a cache as `kmem_new_slab` leaves them, in the order of the list. -/
structure Chained (k : Kmem) (l : List Place) : Prop where
  first : k.cache.slabs = (l.map Place.addr).head?
  linked : Linked (via Slab.next k.slab) (via Slab.prev k.slab) none (l.map Place.addr) none
  header : ∀ x ∈ l, ∃ h, k.slab x.addr = some h ∧ h.ptr = x.ptr ∧
    h.offset = slabOffset k.cache x.ptr
  inside : ∀ x ∈ l, (x.space k.cache).Inside addressTop
  apart : l.Pairwise fun x y => (x.space k.cache).Apart (y.space k.cache)
  total : k.cache.totalObjects = k.cache.objects * l.length

section Objects
variable {k : Kmem} {a ptr i : ℕ} {h : Slab}

theorem getObjectPtr_eq (hc : k.cache.Roomy) (hptr : ptr + k.cache.intSlabobjSize ≤ addressTop)
    (hh : k.slab a = some h) (hp : h.ptr = ptr) (ho : h.offset = slabOffset k.cache ptr)
    (hi : i < k.cache.objects) : getObjectPtr k a i = .ok (slotAt k.cache ptr i) := by
  have hb := (slotAt_bounds (p := ptr) hc hi).2
  have hsize := hc.size
  unfold slotAt at hb
  unfold addressTop at hptr
  simp only [getObjectPtr, assert_of hi, load_some hh, ok_bind, hp, ho]
  have hadd : add32 ptr (slabOffset k.cache ptr) = ptr + slabOffset k.cache ptr :=
    add32_of_lt (by omega)
  rw [hadd, add32_of_lt (by omega)]
  rfl

theorem getObjectIndex_eq (hc : k.cache.Roomy) (hpos : 0 < ptr)
    (hptr : ptr + k.cache.intSlabobjSize ≤ addressTop) (hh : k.slab a = some h)
    (hp : h.ptr = ptr) (ho : h.offset = slabOffset k.cache ptr) (hi : i < k.cache.objects) :
    getObjectIndex k a (slotAt k.cache ptr i) = .ok i := by
  have hhi := (slotAt_bounds (p := ptr) hc hi).2
  have hsize := hc.size
  have hint := hc.intSize
  unfold addressTop at hptr
  have hobj : slotAt k.cache ptr i = ptr + slabOffset k.cache ptr + i * k.cache.intSize := rfl
  have hdist : sub32 (sub32 (slotAt k.cache ptr i) h.ptr) h.offset = i * k.cache.intSize := by
    have hsub : sub32 (slotAt k.cache ptr i) ptr = slotAt k.cache ptr i - ptr :=
      sub32_of_le (by omega) (by omega)
    rw [hp, ho, hsub, sub32_of_le (by omega) (by omega)]
    omega
  rw [getObjectIndex, assert_of (by omega), ok_bind, load_some hh, ok_bind]
  dsimp only
  rw [hdist, if_neg (by omega), assert_of (Nat.mul_mod_left _ _), ok_bind,
    Nat.mul_div_cancel _ (by omega)]

end Objects

section Marks
variable {c : KmemCache} {obj : ℕ}

theorem getObjectRedzone_left (hr : hasFlag c.cflags kvRedZone = true) (hpos : red c < obj)
    (htop : obj ≤ addressTop) : getObjectRedzone c obj .left = .ok (obj - sizeofRedzone) := by
  have hred : red c = 4 := if_pos hr
  unfold addressTop at htop
  rw [getObjectRedzone, assert_of (by omega), ok_bind, assert_of hr, ok_bind]
  exact congrArg Except.ok (sub32_of_le (by omega) (by unfold sizeofRedzone; omega))

theorem getObjectRedzone_right (hr : hasFlag c.cflags kvRedZone = true) (hpos : 0 < obj)
    (htop : obj + c.size ≤ addressTop) :
    getObjectRedzone c obj .right = .ok (obj + c.size) := by
  unfold addressTop at htop
  rw [getObjectRedzone, assert_of (by omega), ok_bind, assert_of hr, ok_bind]
  exact congrArg Except.ok (add32_of_lt (by omega))

theorem getObjectOwnerPtr_eq (ho : hasFlag c.cflags kvOwnership = true)
    (hpos : red c + own c < obj) (htop : obj ≤ addressTop) :
    getObjectOwnerPtr c obj = .ok (obj - red c - sizeofOwner) := by
  have hown : own c = 4 := if_pos ho
  rw [getObjectOwnerPtr, assert_of (by omega), ok_bind, assert_of ho, ok_bind]
  unfold addressTop at htop
  split_ifs with hr
  · have hred : red c = 4 := if_pos hr
    rw [getObjectRedzone_left hr (by omega) (by unfold addressTop; omega), ok_bind, hred]
    exact congrArg Except.ok (sub32_of_le (by unfold sizeofRedzone; omega)
      (by unfold sizeofRedzone sizeofOwner; omega))
  · have hred : red c = 0 := if_neg hr
    rw [hred]
    exact congrArg Except.ok (sub32_of_le (by omega) (by unfold sizeofOwner; omega))

end Marks

namespace Chained
variable {k : Kmem} {l : List Place} {x : Place} {i : ℕ}

theorem next_eq (hk : Chained k l) {xs ys : List Place} (hl : xs ++ x :: ys = l) {h : Slab}
    (hh : k.slab x.addr = some h) :
    h.next = (ys.map Place.addr).head? ∧ h.prev = (xs.map Place.addr).getLast? := by
  have hlinked := hk.linked
  rw [← hl, List.map_append, List.map_cons] at hlinked
  obtain ⟨hp, hn⟩ := hlinked.at_mid
  rw [via_of hh] at hp hn
  exact ⟨by simpa using hn, by simpa using hp⟩

/-- The search meets slabs that lie apart from the object, then its own. -/
theorem findSlab_eq (hk : Chained k l) (hc : k.cache.Roomy) (hi : i < k.cache.objects)
    {ps xs ys : List Place} (hl : ps ++ (xs ++ x :: ys) = l) {left : ℕ}
    (hleft : xs.length < left) :
    findSlab k (slotAt k.cache x.ptr i) left ((xs ++ x :: ys).map Place.addr).head? =
      .ok (some x.addr) := by
  have hobj := slotAt_bounds (p := x.ptr) hc hi
  have hsize := hc.size
  have hend : ∀ y ∈ l, add32 y.ptr k.cache.intSlabobjSize = y.ptr + k.cache.intSlabobjSize :=
    fun y hy => add32_of_lt (by
      have hin : y.ptr + k.cache.intSlabobjSize ≤ addressTop := (hk.inside y hy).2
      unfold addressTop at hin
      omega)
  induction xs generalizing ps left with
  | nil =>
    obtain ⟨left, rfl⟩ := Nat.exists_eq_add_one_of_ne_zero (show left ≠ 0 by omega)
    have hx : x ∈ l := by simp [← hl]
    obtain ⟨h, hh, hp, -⟩ := hk.header x hx
    simp only [List.nil_append, List.map_cons, List.head?_cons, findSlab, load_some hh, ok_bind, hp,
      hend x hx]
    exact if_pos ⟨by omega, by omega⟩
  | cons y xs ih =>
    obtain ⟨left, rfl⟩ := Nat.exists_eq_add_one_of_ne_zero (show left ≠ 0 by omega)
    have hy : y ∈ l := by simp [← hl]
    obtain ⟨h, hh, hp, -⟩ := hk.header y hy
    have hap : (y.space k.cache).Apart (x.space k.cache) := by
      have hpair := (List.pairwise_append.mp (hl ▸ hk.apart)).2.1
      exact (List.pairwise_cons.mp hpair).1 x (by simp)
    unfold Block.Apart Place.space at hap
    dsimp only at hap
    rw [List.cons_append, List.map_cons, List.head?_cons, findSlab, load_some hh, ok_bind, hp,
      hend y hy, if_neg (by omega), (hk.next_eq hl hh).1]
    exact @ih (ps ++ [y]) (by simp [← hl]) left (by simpa using hleft)

theorem getObjectSlab_eq (hk : Chained k l) (hc : k.cache.Roomy) (hx : x ∈ l)
    (hi : i < k.cache.objects) : getObjectSlab k (slotAt k.cache x.ptr i) = .ok (some x.addr) := by
  obtain ⟨xs, ys, rfl⟩ := List.append_of_mem hx
  have hpos : 0 < x.ptr := (hk.inside x hx).1
  have hobj := (slotAt_bounds (p := x.ptr) hc hi).1
  have hlen : (xs ++ x :: ys).length ≤ k.cache.totalObjects := by
    rw [hk.total]
    exact Nat.le_mul_of_pos_left _ (Nat.zero_lt_of_lt hi)
  rw [getObjectSlab, assert_of (by omega), ok_bind, hk.first]
  refine hk.findSlab_eq hc hi (show [] ++ _ = _ from rfl) ?_
  unfold slabBound
  simp at hlen
  omega

end Chained

/-- The bytes that belong to an object: its owner word, its red zones and the object itself. -/
def extent (c : KmemCache) (obj : ℕ) : Block :=
  (obj - red c - own c, own c + red c + c.size + red c)

/-- What `get_object_ptr` has to answer for an object of the space at `ptr`. -/
structure WellPlaced (c : KmemCache) (ptr obj : ℕ) : Prop where
  lower : ptr ≤ obj - red c - own c ∧ red c + own c ≤ obj
  upper : obj + c.size + red c ≤ ptr + c.intSlabobjSize
  redzones : hasFlag c.cflags kvRedZone = true →
    getObjectRedzone c obj .left = .ok (obj - sizeofRedzone) ∧
      getObjectRedzone c obj .right = .ok (obj + c.size)
  owner : hasFlag c.cflags kvOwnership = true →
    getObjectOwnerPtr c obj = .ok (obj - red c - sizeofOwner)
  aligned : 1 < c.align → c.align ∣ obj

/-- The objects of a slab fit into its space, apart and aligned, and are found again. -/
theorem slab_layout {k : Kmem} {l : List Place} {x : Place} (hk : Chained k l) (hx : x ∈ l)
    (hc : k.cache.Created) (hsize : 0 < k.cache.size)
    (hfit : meantSlabobjSize k.cache.objects k.cache.size k.cache.align k.cache.cflags < 2 ^ 32) :
    ∃ obj : ℕ → ℕ, (∀ i < k.cache.objects, getObjectPtr k x.addr i = .ok (obj i) ∧
      WellPlaced k.cache x.ptr (obj i) ∧ getObjectSlab k (obj i) = .ok (some x.addr) ∧
      getObjectIndex k x.addr (obj i) = .ok i) ∧
    ∀ i < k.cache.objects, ∀ j < k.cache.objects, i ≠ j →
      (extent k.cache (obj i)).Apart (extent k.cache (obj j)) := by
  obtain ⟨hpos, hin⟩ := hk.inside x hx
  obtain ⟨h, hh, hp, hoff⟩ := hk.header x hx
  unfold Place.space at hpos hin
  dsimp only at hpos hin
  refine ⟨slotAt k.cache x.ptr, fun i hi => ?_, fun i hi j hj hij => ?_⟩
  · have hr := hc.roomy hsize (Nat.zero_lt_of_lt hi) hfit
    obtain ⟨hlo, hhi⟩ := slotAt_bounds (p := x.ptr) hr hi
    have htop := hin
    unfold addressTop at htop
    refine ⟨getObjectPtr_eq hr hin hh hp hoff hi, ⟨⟨by omega, by omega⟩, hhi, fun hred => ⟨?_, ?_⟩,
      fun hown => ?_, fun halign => ?_⟩, hk.getObjectSlab_eq hr hx hi,
      getObjectIndex_eq hr hpos hin hh hp hoff hi⟩
    · exact getObjectRedzone_left hred (by omega) (by omega)
    · exact getObjectRedzone_right hred (by omega) (by omega)
    · exact getObjectOwnerPtr_eq hown (by omega) (by omega)
    · exact hc.aligned (Nat.zero_lt_of_lt hi) hr hfit halign (by omega) i
  · have hr := hc.roomy hsize (Nat.zero_lt_of_lt hi) hfit
    have hi' := (slotAt_bounds (p := x.ptr) hr hi).1
    have hj' := (slotAt_bounds (p := x.ptr) hr hj).1
    have hint := hr.intSize
    unfold Block.Apart extent
    dsimp only
    rcases Nat.lt_or_gt_of_ne hij with hlt | hlt
    · have := slotAt_lt (c := k.cache) (p := x.ptr) hlt
      omega
    · have := slotAt_lt (c := k.cache) (p := x.ptr) hlt
      omega

/-- Two objects of eight bytes with all marks, in a space that is not aligned. -/
def oneSlab : Kmem where
  cp := 1
  cache := ⟨8, 8, 2, 24, 60, false, false, false, kvRedZone + kvOwnership, 2, 0, some 1000⟩
  slab a := if a = 1000 then some ⟨0, 15, 2001, none, none, id⟩ else none
  word _ := none
  blocks := []
  trace := []

theorem oneSlab_chained : Chained oneSlab [⟨1000, 2001, true⟩] where
  first := rfl
  linked := ⟨rfl, rfl, trivial⟩
  header x hx := List.mem_singleton.mp hx ▸ ⟨_, rfl, rfl, rfl⟩
  inside x hx := List.mem_singleton.mp hx ▸ ⟨by decide, by decide⟩
  apart := List.pairwise_singleton _ _
  total := rfl

theorem slab_layout_oneSlab : ∃ obj : ℕ → ℕ, getObjectPtr oneSlab 1000 1 = .ok (obj 1) ∧
    getObjectSlab oneSlab (obj 1) = .ok (some 1000) ∧ 8 ∣ obj 1 := by
  obtain ⟨obj, hobj, -⟩ := slab_layout oneSlab_chained (List.mem_singleton_self _) ⟨rfl, rfl⟩
    (by decide) (by decide)
  obtain ⟨hptr, hplaced, hslab, -⟩ := hobj 1 (by decide)
  exact ⟨obj, hptr, hslab, hplaced.aligned (by decide)⟩

end Racoon.SlabAllocator
