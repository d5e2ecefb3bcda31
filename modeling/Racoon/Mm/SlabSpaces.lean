import Racoon.Mm.SlabLayout
import Racoon.Lib.FreeStack
import Racoon.Lib.Pairing

/-!
# The state of a cache

`Sound k live l` says what a cache means, whatever the flags of its slabs are:
the slabs are the chain of the places `l`, each with the blocks it was given, the
index stack of each holds the objects of the slab that are not live, and the
counters count. Each operation is described by the places and the live objects
after it, and by the events that it adds to the trace.
-/

namespace Racoon.SlabAllocator
open Lib

theorem Kmem.setSlab_eq {k : Kmem} {a : ℕ} {h : Slab} (hh : k.slab a = some h) (f : Slab → Slab) :
    k.setSlab (some a) f = .ok { k with slab := Function.update k.slab a (some (f h)) } := by
  rw [Kmem.setSlab, modify_some hh]
  rfl

theorem Kmem.writeCtl_eq {k : Kmem} {a i : ℕ} {h : Slab} (hh : k.slab a = some h)
    (hi : i < k.cache.objects) (v : ℕ) : k.writeCtl a i v = .ok { k with
      slab := Function.update k.slab a (some { h with ctl := Function.update h.ctl i v }) } := by
  rw [Kmem.writeCtl, if_pos hi, Kmem.setSlab_eq hh]

/-- A header with its index array. -/
def manBytes (c : KmemCache) : ℕ := sizeofSlab + c.objects * sizeofCtl

/-- The blocks of a slab, in the order in which they are asked for. -/
def Place.blocks (c : KmemCache) (x : Place) : List Block :=
  if x.off then [(x.addr, manBytes c), (x.ptr, c.intSlabobjSize)] else [(x.addr, slabBytes c)]

/-- Behind its header and index array the objects of a slab of one block begin. -/
def Place.Inline (c : KmemCache) (x : Place) : Prop := x.off = false → x.ptr = objectsAt c x.addr

/-- One slab: the stack of its free objects and the marks around all of them. -/
structure SpaceHolds (c : KmemCache) (word : ℕ → Option ℕ) (live : Finset ℕ) (p : ℕ) (h : Slab) :
    Prop where
  ptr : h.ptr = p
  offset : h.offset = slabOffset c p
  stack : FreeStack h.ctl h.position c.objects fun i => slotAt c p i ∈ live
  marked : hasFlag c.cflags kvRedZone = true → ∀ i < c.objects,
    word (slotAt c p i - sizeofRedzone) = some redZoneData ∧
    word (slotAt c p i + c.size) = some redZoneData

def positionOf (slab : ℕ → Option Slab) (a : ℕ) : ℕ := ((slab a).map Slab.position).getD 0

structure Sound (k : Kmem) (live : Finset ℕ) (l : List Place) : Prop where
  fits : k.cache.Fits
  first : k.cache.slabs = (l.map Place.addr).head?
  linked : Linked (via Slab.next k.slab) (via Slab.prev k.slab) none (l.map Place.addr) none
  allocated : Allocated addressTop k.blocks
  inline : ∀ x ∈ l, x.Inline k.cache
  blocks : ((k.cp, sizeofCache) :: l.flatMap (Place.blocks k.cache)).Subperm k.blocks
  slab : ∀ x ∈ l, ∃ h, k.slab x.addr = some h ∧ SpaceHolds k.cache k.word live x.ptr h
  owned : ∀ p ∈ live, ∃ x ∈ l, ∃ i < k.cache.objects, p = slotAt k.cache x.ptr i
  used : k.cache.usedObjects = live.card
  positions : (l.map fun x => positionOf k.slab x.addr).sum = k.cache.usedObjects
  total : k.cache.totalObjects = k.cache.objects * l.length

theorem SpaceHolds.congr {c : KmemCache} {word word' : ℕ → Option ℕ} {live live' : Finset ℕ}
    {p : ℕ} {h : Slab} (hs : SpaceHolds c word live p h)
    (hw : hasFlag c.cflags kvRedZone = true → ∀ q, p ≤ q → q + 4 ≤ p + c.intSlabobjSize →
      word' q = word q)
    (hc : c.Fits) (hl : ∀ i < c.objects, slotAt c p i ∈ live ↔ slotAt c p i ∈ live') :
    SpaceHolds c word' live' p h where
  ptr := hs.ptr
  offset := hs.offset
  stack := hs.stack.congr hl
  marked hr i hi := by
    obtain ⟨hlo, hhi⟩ := slotAt_bounds (p := p) hc.roomy hi
    have hred : red c = 4 := if_pos hr
    have hsize := hc.size
    rw [hw hr _ (by unfold sizeofRedzone; omega) (by unfold sizeofRedzone; omega),
      hw hr _ (by omega) (by omega)]
    exact hs.marked hr i hi

theorem positionOf_eq {slab : ℕ → Option Slab} {a : ℕ} {h : Slab} (hh : slab a = some h) :
    positionOf slab a = h.position := by
  simp [positionOf, hh]

theorem sum_map_change {l : List ℕ} {a : ℕ} {f f' : ℕ → ℕ} (hd : l.Nodup) (ha : a ∈ l)
    (hf : ∀ b, b ≠ a → f' b = f b) : (l.map f').sum + f a = (l.map f).sum + f' a := by
  have hp := List.perm_cons_erase ha
  have herase : (l.erase a).map f' = (l.erase a).map f :=
    List.map_congr_left fun b hb => hf b ((List.Nodup.mem_erase_iff hd).mp hb).1
  rw [(hp.map f').sum_eq, (hp.map f).sum_eq, List.map_cons, List.map_cons, List.sum_cons,
    List.sum_cons, herase]
  omega

theorem sum_map_eq_iff {l : List ℕ} {f : ℕ → ℕ} {n : ℕ} (hf : ∀ a ∈ l, f a ≤ n) :
    (l.map f).sum = n * l.length ↔ ∀ a ∈ l, f a = n := by
  constructor
  · intro h
    induction l with
    | nil => nofun
    | cons b l ih =>
      have hl : ∀ x ∈ l.map f, x ≤ n := by
        simpa using fun a ha => hf a (List.mem_cons_of_mem b ha)
      have hle := List.sum_le_card_nsmul (l.map f) n hl
      rw [List.length_map, smul_eq_mul, Nat.mul_comm] at hle
      have hb := hf b (by simp)
      rw [List.map_cons, List.sum_cons, List.length_cons, Nat.mul_succ] at h
      exact List.forall_mem_cons.mpr ⟨by omega, ih (fun a ha => hf a (by simp [ha])) (by omega)⟩
  · intro h
    rw [List.map_congr_left h]
    simp [Nat.mul_comm]

section Blocks
variable {c : KmemCache} {x y : Place} {l : List Place} {b : Block}

theorem Place.mem_blocks (hc : c.Fits) (hb : b ∈ x.blocks c) :
    0 < b.2 ∧ (b.1 = x.addr ∨ b.1 = x.ptr) := by
  have hr := hc.slabobj
  have hint := hc.intSize
  have hsize := hc.size
  have hmul : c.intSize ≤ c.objects * c.intSize := Nat.le_mul_of_pos_left _ hc.objects
  unfold Place.blocks at hb
  split_ifs at hb
  · rcases List.mem_cons.mp hb with rfl | hb
    · exact ⟨by unfold manBytes sizeofSlab; omega, .inl rfl⟩
    · obtain rfl := List.mem_singleton.mp hb
      exact ⟨by dsimp only; omega, .inr rfl⟩
  · obtain rfl := List.mem_singleton.mp hb
    exact ⟨by unfold slabBytes sizeofSlab; omega, .inl rfl⟩

theorem Place.addr_block (c : KmemCache) (x : Place) :
    ∃ b ∈ x.blocks c, b.1 = x.addr ∧ 0 < b.2 := by
  unfold Place.blocks
  split_ifs
  · exact ⟨_, List.mem_cons_self, rfl, by unfold manBytes sizeofSlab; omega⟩
  · exact ⟨_, List.mem_cons_self, rfl, by unfold slabBytes sizeofSlab; omega⟩

theorem Place.space_block (hx : x.Inline c) :
    ∃ b ∈ x.blocks c, b.1 ≤ x.ptr ∧ x.ptr + c.intSlabobjSize ≤ b.1 + b.2 := by
  unfold Place.blocks
  split_ifs with hoff
  · exact ⟨_, List.mem_cons_of_mem _ List.mem_cons_self, le_rfl, le_rfl⟩
  · refine ⟨_, List.mem_cons_self, ?_⟩
    rw [hx (by simpa using hoff)]
    unfold objectsAt slabBytes
    dsimp only
    omega

end Blocks

namespace Sound
variable {k : Kmem} {live : Finset ℕ} {l : List Place} {x y : Place}

theorem held_blocks (hk : Sound k live l) :
    Allocated addressTop ((k.cp, sizeofCache) :: l.flatMap (Place.blocks k.cache)) :=
  hk.allocated.subperm hk.blocks

theorem places (hk : Sound k live l) : Allocated addressTop (l.flatMap (Place.blocks k.cache)) :=
  hk.held_blocks.sublist (List.sublist_cons_self _ _)

theorem apart_blocks (hk : Sound k live l) :
    l.Pairwise fun x y => ∀ b ∈ x.blocks k.cache, ∀ d ∈ y.blocks k.cache, b.Apart d :=
  (List.pairwise_flatMap.mp hk.places.apart).2

theorem nodup (hk : Sound k live l) : (l.map Place.addr).Nodup := by
  refine List.pairwise_map.mpr (hk.apart_blocks.imp fun {x y} hxy he => ?_)
  obtain ⟨b, hb, hbx, hbpos⟩ := x.addr_block k.cache
  obtain ⟨d, hd, hdy, hdpos⟩ := y.addr_block k.cache
  exact (hxy b hb d hd).start_ne hdpos hbx.le (by omega) (hdy.trans he.symm)

theorem inside (hk : Sound k live l) (hx : x ∈ l) : (x.space k.cache).Inside addressTop := by
  obtain ⟨b, hb, hle, hend⟩ := Place.space_block (hk.inline x hx)
  have hin := hk.places.inside b (List.mem_flatMap.mpr ⟨x, hx, hb⟩)
  exact ⟨lt_of_lt_of_le hin.1 hle, hend.trans hin.2⟩

theorem apart (hk : Sound k live l) :
    l.Pairwise fun x y => (x.space k.cache).Apart (y.space k.cache) := by
  refine hk.apart_blocks.imp_of_mem fun {x y} hx hy hxy => ?_
  obtain ⟨b, hb, hble, hbend⟩ := Place.space_block (hk.inline x hx)
  obtain ⟨d, hd, hdle, hdend⟩ := Place.space_block (hk.inline y hy)
  have hap := hxy b hb d hd
  unfold Block.Apart Place.space at *
  dsimp only
  omega

theorem chained (hk : Sound k live l) : Chained k l where
  first := hk.first
  linked := hk.linked
  header x hx := by
    obtain ⟨h, hh, hs⟩ := hk.slab x hx
    exact ⟨h, hh, hs.ptr, hs.offset⟩
  inside x hx := hk.inside hx
  apart := hk.apart
  total := hk.total

theorem apart_of_ne (hk : Sound k live l) (hx : x ∈ l) (hy : y ∈ l) (hne : x.addr ≠ y.addr) :
    (x.space k.cache).Apart (y.space k.cache) := by
  have hsymm : Std.Symm fun x y : Place => (x.space k.cache).Apart (y.space k.cache) :=
    ⟨fun _ _ => Or.symm⟩
  exact hk.apart.forall hx hy fun he => hne (congrArg Place.addr he)

theorem place_inj (hk : Sound k live l) (hx : x ∈ l) (hy : y ∈ l) (he : x.addr = y.addr) :
    x = y := List.inj_on_of_nodup_map hk.nodup hx hy he

theorem slotAt_inj (hk : Sound k live l) (hx : x ∈ l) (hy : y ∈ l) {i j : ℕ}
    (hi : i < k.cache.objects) (hj : j < k.cache.objects)
    (he : slotAt k.cache x.ptr i = slotAt k.cache y.ptr j) : x.addr = y.addr ∧ i = j := by
  have hxy : x.addr = y.addr := by
    by_contra hne
    exact slotAt_apart hk.fits.roomy (hk.apart_of_ne hx hy hne) hi hj he
  obtain rfl := hk.place_inj hx hy hxy
  exact ⟨rfl, by_contra fun hne => slotAt_ne hk.fits.roomy hne he⟩

/-- The counters stay far below the range of an `int`. -/
theorem total_lt (hk : Sound k live l) : k.cache.totalObjects < 2 ^ 30 := by
  have hsum := hk.places.sum_le
  have hbytes : l.length * (20 + k.cache.objects * 4) ≤
      ((l.flatMap (Place.blocks k.cache)).map Prod.snd).sum := by
    clear hsum hk
    induction l with
    | nil => simp
    | cons x l ih =>
      have hx : 20 + k.cache.objects * 4 ≤ ((x.blocks k.cache).map Prod.snd).sum := by
        unfold Place.blocks
        split_ifs
        · simp [manBytes, sizeofSlab, sizeofCtl]
        · simp [slabBytes, sizeofSlab, sizeofCtl]
      rw [List.flatMap_cons, List.map_append, List.sum_append, List.length_cons, Nat.succ_mul]
      omega
  rw [hk.total]
  unfold addressTop at hsum
  have hmul : l.length * (20 + k.cache.objects * 4) =
      20 * l.length + 4 * (k.cache.objects * l.length) := by ring
  omega

theorem held (hk : Sound k live l) (hx : x ∈ l) {h : Slab} (hh : k.slab x.addr = some h) :
    SpaceHolds k.cache k.word live x.ptr h := by
  obtain ⟨h', hh', hs⟩ := hk.slab x hx
  rw [hh] at hh'
  cases hh'
  exact hs

theorem position_le (hk : Sound k live l) (hx : x ∈ l) :
    positionOf k.slab x.addr ≤ k.cache.objects := by
  obtain ⟨h, hh, hs⟩ := hk.slab x hx
  rw [positionOf_eq hh]
  exact hs.stack.le

theorem slotAt_pos (hk : Sound k live l) (hx : x ∈ l) {i : ℕ} (hi : i < k.cache.objects) :
    0 < slotAt k.cache x.ptr i := by
  have hlo := (slotAt_bounds (p := x.ptr) hk.fits.roomy hi).1
  have hpos : 0 < x.ptr := (hk.inside hx).1
  omega

theorem length_le (hk : Sound k live l) : l.length ≤ k.cache.totalObjects := by
  rw [hk.total]
  exact Nat.le_mul_of_pos_left _ hk.fits.objects

end Sound

/-- What a cache keeps as long as it lives. -/
def KmemCache.params (c : KmemCache) : KmemCache :=
  { c with totalObjects := 0, usedObjects := 0, slabs := none }

/-- A call that has added the events `evs` to the trace. -/
structure Effect (k k' : Kmem) (evs : List Event) : Prop where
  cp : k'.cp = k.cp
  params : k'.cache.params = k.cache.params
  trace : k'.trace = k.trace ++ evs

theorem Effect.refl (k : Kmem) : Effect k k [] := ⟨rfl, rfl, (List.append_nil _).symm⟩

theorem Effect.trans {k k' k'' : Kmem} {evs evs' : List Event} (h : Effect k k' evs)
    (h' : Effect k' k'' evs') : Effect k k'' (evs ++ evs') :=
  ⟨h'.cp.trans h.cp, h'.params.trans h.params, by rw [h'.trace, h.trace, List.append_assoc]⟩

/-- What an event is to the hooks. -/
def hookMark : Event → Mark ℕ
  | .construct obj _ => .opened obj
  | .destruct obj => .closed obj
  | _ => .other

/-- What an event is to `ALLOC` and `FREE`. -/
def blockMark : Event → Mark ℕ
  | .alloc _ (some a) => .opened a
  | .free a => .closed a
  | _ => .other

/-- Attempts to grow that come to nothing, while `blocks` are held. -/
structure Fruitless (blocks : List Block) (evs : List Event) : Prop where
  hooks : ∀ e ∈ evs, hookMark e = .other
  memory : ∀ S, (∀ a ∈ S, ∃ b ∈ blocks, b.1 = a ∧ 0 < b.2) → replay blockMark S evs = some S

theorem Fruitless.nil (blocks : List Block) : Fruitless blocks [] := ⟨nofun, fun _ _ => rfl⟩

theorem Fruitless.append {blocks : List Block} {evs evs' : List Event} (h : Fruitless blocks evs)
    (h' : Fruitless blocks evs') : Fruitless blocks (evs ++ evs') where
  hooks e he := (List.mem_append.mp he).elim (h.hooks e) (h'.hooks e)
  memory S hS := replay_trans (h.memory S hS) (h'.memory S hS)

namespace Sound
variable {k : Kmem} {live : Finset ℕ} {l : List Place} {x y : Place} {i : ℕ} {h : Slab}

/-- Only what the slabs of the chain hold counts. -/
theorem frame_blocks (hk : Sound k live l) {k' : Kmem} (hc : k'.cache = k.cache)
    (hw : k'.word = k.word) (hall : Allocated addressTop k'.blocks)
    (hb : ((k'.cp, sizeofCache) :: l.flatMap (Place.blocks k.cache)).Subperm k'.blocks)
    (hslab : ∀ x ∈ l, k'.slab x.addr = k.slab x.addr) : Sound k' live l where
  fits := hc ▸ hk.fits
  first := hc ▸ hk.first
  linked := by
    refine hk.linked.congr (fun a ha => ?_) fun a ha => ?_
    · obtain ⟨x, hx, rfl⟩ := List.mem_map.mp ha
      simp only [via, hslab x hx]
    · obtain ⟨x, hx, rfl⟩ := List.mem_map.mp ha
      simp only [via, hslab x hx]
  allocated := hall
  inline := hc ▸ hk.inline
  blocks := hc ▸ hb
  slab x hx := by
    rw [hslab x hx, hc, hw]
    exact hk.slab x hx
  owned := hc ▸ hk.owned
  used := hc ▸ hk.used
  positions := by
    rw [hc, ← hk.positions]
    exact congrArg List.sum (List.map_congr_left fun x hx => by simp only [positionOf, hslab x hx])
  total := hc ▸ hk.total

theorem frame (hk : Sound k live l) {k' : Kmem} (hcp : k'.cp = k.cp) (hc : k'.cache = k.cache)
    (hw : k'.word = k.word) (hb : k'.blocks = k.blocks)
    (hslab : ∀ x ∈ l, k'.slab x.addr = k.slab x.addr) : Sound k' live l :=
  hk.frame_blocks hc hw (hb ▸ hk.allocated) (by rw [hcp, hb]; exact hk.blocks) hslab

/-- A slab's header changes, and with it the liveness of one of its objects. -/
theorem change (hk : Sound k live l) (hx : x ∈ l) (hh : k.slab x.addr = some h) (h' : Slab)
    (hlinks : h'.next = h.next ∧ h'.prev = h.prev) (live' : Finset ℕ) (hi : i < k.cache.objects)
    (hlive : ∀ p, p ≠ slotAt k.cache x.ptr i → (p ∈ live ↔ p ∈ live'))
    (hs : SpaceHolds k.cache k.word live' x.ptr h') (used : ℕ) (hused : used = live'.card)
    (hpos : h'.position + k.cache.usedObjects = h.position + used) :
    Sound { k with
      slab := Function.update k.slab x.addr (some h')
      cache.usedObjects := used } live' l where
  fits := ⟨hk.fits.1, hk.fits.2, hk.fits.3, hk.fits.4, hk.fits.5⟩
  first := hk.first
  linked := by
    dsimp only
    rw [via_update_of_eq hh hlinks.1, via_update_of_eq hh hlinks.2]
    exact hk.linked
  allocated := hk.allocated
  inline := hk.inline
  blocks := hk.blocks
  slab y hy := by
    by_cases hyx : y.addr = x.addr
    · obtain rfl := hk.place_inj hy hx hyx
      exact ⟨h', Function.update_self .., ⟨hs.1, hs.2, hs.3, hs.4⟩⟩
    · obtain ⟨g, hg, hgs⟩ := hk.slab y hy
      refine ⟨g, (Function.update_of_ne hyx _ _).trans hg, ?_⟩
      have hsame : SpaceHolds k.cache k.word live' y.ptr g :=
        hgs.congr (fun _ _ _ _ => rfl) hk.fits fun j hj =>
          hlive _ fun he => hyx (hk.slotAt_inj hy hx hj hi he).1
      exact ⟨hsame.1, hsame.2, hsame.3, hsame.4⟩
  owned p hp := by
    by_cases he : p = slotAt k.cache x.ptr i
    · exact ⟨x, hx, i, hi, he⟩
    · exact hk.owned p ((hlive p he).mpr hp)
  used := hused
  positions := by
    have hsum : ((l.map Place.addr).map
          (positionOf (Function.update k.slab x.addr (some h')))).sum + positionOf k.slab x.addr =
        ((l.map Place.addr).map (positionOf k.slab)).sum +
          positionOf (Function.update k.slab x.addr (some h')) x.addr :=
      sum_map_change hk.nodup (List.mem_map_of_mem hx) fun b hb => by
        simp [positionOf, Function.update_of_ne hb]
    have hpositions := hk.positions
    rw [List.map_map, List.map_map] at hsum
    change (l.map fun x => _).sum + _ = (l.map fun x => positionOf k.slab x.addr).sum + _ at hsum
    rw [hpositions, positionOf_eq hh, positionOf_eq (Function.update_self ..)] at hsum
    change (l.map fun y => positionOf (Function.update k.slab x.addr (some h')) y.addr).sum = used
    dsimp only [Function.comp_apply] at hsum
    omega
  total := hk.total

theorem take (hk : Sound k live (x :: l)) (hh : k.slab x.addr = some h)
    (hp : h.position ≠ k.cache.objects) :
    ∃ k' p, takeObject k x.addr h = .ok (k', some p) ∧ p ∉ live ∧
      Sound k' (insert p live) (x :: l) ∧ Effect k k' [] := by
  have hx : x ∈ x :: l := List.mem_cons_self
  have hs := hk.held hx hh
  have hr := hk.fits.roomy
  have hlt : h.position < k.cache.objects := lt_of_le_of_ne hs.stack.le hp
  obtain ⟨hi, hfree⟩ := hs.stack.top hlt
  let taken : Slab := { h with position := h.position + 1 }
  refine ⟨_, slotAt k.cache x.ptr (h.ctl h.position), ?_, hfree,
    hk.change hx hh taken ⟨rfl, rfl⟩ _ hi ?_ ?_ (k.cache.usedObjects + 1) ?_ ?_,
    ⟨rfl, rfl, (List.append_nil _).symm⟩⟩
  · have hptr : getObjectPtr { k with slab := Function.update k.slab x.addr (some taken) } x.addr
        (h.ctl h.position) = .ok (slotAt k.cache x.ptr (h.ctl h.position)) :=
      getObjectPtr_eq hr (hk.inside hx).2 (Function.update_self ..) hs.ptr hs.offset hi
    simp only [takeObject, readCtl, if_pos hlt, ok_bind, Kmem.setSlab, modify_some hh]
    exact bind_eq_ok.mpr ⟨_, hptr, rfl⟩
  · intro p hne
    simp [hne]
  · refine ⟨hs.ptr, hs.offset, (hs.stack.pop hlt).congr fun i hi' => ?_, hs.marked⟩
    rw [Finset.mem_insert, or_comm]
    refine or_congr_left ⟨fun e => by rw [e], fun e => ?_⟩
    exact by_contra fun hne => slotAt_ne hr hne e
  · rw [Finset.card_insert_of_notMem hfree, hk.used]
  · change h.position + 1 + k.cache.usedObjects = h.position + (k.cache.usedObjects + 1)
    omega

theorem checkRedzones_eq (hk : Sound k live l) (hx : x ∈ l) (hi : i < k.cache.objects) :
    checkRedzones k (slotAt k.cache x.ptr i) = .ok () := by
  unfold checkRedzones
  split_ifs with hr
  · have hpos : 0 < x.ptr := (hk.inside hx).1
    have hin : x.ptr + k.cache.intSlabobjSize ≤ addressTop := (hk.inside hx).2
    obtain ⟨hlo, hhi⟩ := slotAt_bounds (p := x.ptr) hk.fits.roomy hi
    obtain ⟨h, hh, hs⟩ := hk.slab x hx
    obtain ⟨hleft, hright⟩ := hs.marked hr i hi
    rw [getObjectRedzone_left hr (by omega) (by omega), ok_bind, assert_of hleft, ok_bind,
      getObjectRedzone_right hr (by omega) (by omega), ok_bind, assert_of hright]
  · rfl

theorem free (hk : Sound k live l) {p : ℕ} (hp : p ∈ live) :
    ∃ k', kmemCacheFree k p = .ok k' ∧ Sound k' (live.erase p) l ∧ Effect k k' [] := by
  obtain ⟨x, hx, i, hi, rfl⟩ := hk.owned p hp
  obtain ⟨h, hh, hs⟩ := hk.slab x hx
  have hne : slotAt k.cache x.ptr i ≠ 0 := (hk.slotAt_pos hx hi).ne'
  have hr := hk.fits.roomy
  have hin : 0 < x.ptr ∧ x.ptr + k.cache.intSlabobjSize ≤ addressTop := hk.inside hx
  have hpos := hs.stack.position_pos hi hp
  have hle := hs.stack.le
  have htotal := hk.fits.total
  have hsub : sub32 h.position 1 = h.position - 1 :=
    sub32_of_le (by unfold sizeofCtl at htotal; omega) hpos
  let freed : Slab :=
    { h with position := h.position - 1, ctl := Function.update h.ctl (h.position - 1) i }
  have hused : k.cache.usedObjects - 1 = (live.erase (slotAt k.cache x.ptr i)).card := by
    rw [Finset.card_erase_of_mem hp, hk.used]
  refine ⟨_, ?_, hk.change hx hh freed ⟨rfl, rfl⟩ _ hi ?_ ?_ _ hused ?_,
    ⟨rfl, rfl, (List.append_nil _).symm⟩⟩
  · rw [kmemCacheFree, if_neg hne, hk.chained.getObjectSlab_eq hr hx hi, ok_bind]
    dsimp only
    rw [hk.checkRedzones_eq hx hi, ok_bind, load_some hh, ok_bind,
      getObjectIndex_eq hr hin.1 hin.2 hh hs.ptr hs.offset hi, ok_bind, Kmem.setSlab_eq hh,
      ok_bind, hsub]
    refine bind_eq_ok.mpr ⟨_, Kmem.writeCtl_eq (Function.update_self ..) ?_ i, ?_⟩
    · change h.position - 1 < k.cache.objects
      omega
    · dsimp only
      rw [Function.update_idem]
  · intro p hne
    simp [hne]
  · refine ⟨hs.ptr, hs.offset, (hs.stack.push hpos hi hp).congr fun j hj => ?_, hs.marked⟩
    rw [Finset.mem_erase, and_comm]
    refine and_congr_left fun _ => not_congr ⟨fun e => by rw [e], fun e => ?_⟩
    exact by_contra fun hne => slotAt_ne hr hne e
  · have := Finset.card_pos.mpr ⟨_, hp⟩
    have := hk.used
    change h.position - 1 + k.cache.usedObjects = h.position + (k.cache.usedObjects - 1)
    omega

end Sound
section NewSlab
variable {k : Kmem} {c : KmemCache} {a p obj : ℕ}

theorem writeRedzones_eq (hc : k.cache = c) (hpos : red c + own c < obj)
    (htop : obj + c.size + red c ≤ addressTop) :
    ∃ word, writeRedzones k obj = .ok { k with word := word } ∧
      (hasFlag c.cflags kvRedZone = true → word (obj - sizeofRedzone) = some redZoneData ∧
        word (obj + c.size) = some redZoneData) ∧
      ∀ q, q + 4 ≤ obj - red c ∨ obj + c.size + red c ≤ q → word q = k.word q := by
  subst hc
  unfold writeRedzones
  split_ifs with hr
  · have hred : red k.cache = 4 := if_pos hr
    rw [getObjectRedzone_left hr (by omega) (by omega), ok_bind,
      getObjectRedzone_right hr (by omega) (by omega), ok_bind]
    refine ⟨_, rfl, fun _ => ⟨?_, store32_self ..⟩, fun q hq => ?_⟩
    · rw [store32_apart _ _ (by unfold sizeofRedzone; omega), store32_self]
    · unfold sizeofRedzone
      rw [store32_apart _ _ (by omega), store32_apart _ _ (by omega)]
  · exact ⟨k.word, rfl, fun h => absurd h hr, fun _ _ => rfl⟩

theorem writeOwner_eq (hc : k.cache = c) (hpos : red c + own c < obj) (htop : obj ≤ addressTop) :
    ∃ word, writeOwner k obj = .ok { k with word := word } ∧
      ∀ q, q + 4 ≤ obj - red c - own c ∨ obj - red c ≤ q → word q = k.word q := by
  subst hc
  unfold writeOwner
  split_ifs with ho
  · have hown : own k.cache = 4 := if_pos ho
    rw [getObjectOwnerPtr_eq ho hpos htop, ok_bind]
    exact ⟨_, rfl, fun q hq => store32_apart _ _ (by unfold sizeofOwner; omega)⟩
  · exact ⟨k.word, rfl, fun _ _ => rfl⟩

/-- What the loop has done to a slab when it stands at object `n`. -/
structure Prepared (c : KmemCache) (p : ℕ) (word word' : ℕ → Option ℕ) (ctl : ℕ → ℕ) (n : ℕ) :
    Prop where
  ctl : ∀ j < n, ctl j = j
  marked : hasFlag c.cflags kvRedZone = true → ∀ j < n,
    word' (slotAt c p j - sizeofRedzone) = some redZoneData ∧
    word' (slotAt c p j + c.size) = some redZoneData
  frame : ∀ q, q + 4 ≤ p ∨ p + c.intSlabobjSize ≤ q → word' q = word q

/-- The calls of the constructor from object `i` on. -/
def constructed (c : KmemCache) (kmflag p i n : ℕ) : List Event :=
  if c.constructor then (List.range' i n).map fun j => .construct (slotAt c p j) kmflag else []

theorem note_constructed (k : Kmem) (kmflag p i : ℕ) :
    (if k.cache.constructor then k.note (.construct (slotAt k.cache p i) kmflag) else k) =
      { k with trace := k.trace ++ constructed k.cache kmflag p i 1 } := by
  unfold constructed
  split_ifs
  · rfl
  · rw [List.append_nil]

theorem constructed_append (c : KmemCache) (kmflag p i n : ℕ) :
    constructed c kmflag p i 1 ++ constructed c kmflag p (i + 1) n =
      constructed c kmflag p i (n + 1) := by
  unfold constructed
  split_ifs <;> rfl

theorem initObjects_eq (hf : c.Fits) (hp₀ : 0 < p) (hin : p + c.intSlabobjSize ≤ addressTop)
    (kmflag : ℕ) {word : ℕ → Option ℕ} {left i : ℕ} {h : Slab} (hc : k.cache = c)
    (hh : k.slab a = some h) (hp : h.ptr = p) (ho : h.offset = slabOffset c p)
    (hi : i + left = c.objects) (hprep : Prepared c p word k.word h.ctl i) :
    ∃ ctl word', initObjects kmflag a i left k = .ok { k with
        slab := Function.update k.slab a (some { h with ctl := ctl })
        word := word'
        trace := k.trace ++ constructed c kmflag p i left } ∧
      Prepared c p word word' ctl c.objects := by
  induction left generalizing i k h with
  | zero =>
    have : i = c.objects := by omega
    refine ⟨h.ctl, k.word, ?_, this ▸ hprep⟩
    have hnone : constructed c kmflag p i 0 = [] := by simp [constructed]
    rw [initObjects, hnone, List.append_nil,
      show some { h with ctl := h.ctl } = k.slab a from hh.symm, Function.update_eq_self]
  | succ left ih =>
    have hlt : i < c.objects := by omega
    have hptr : getObjectPtr k a i = .ok (slotAt c p i) := by
      subst hc
      exact getObjectPtr_eq hf.roomy hin hh hp ho hlt
    obtain ⟨hlo, hhi⟩ := slotAt_bounds (p := p) hf.roomy hlt
    have hpos : red c + own c < slotAt c p i := by omega
    obtain ⟨trace, htrace⟩ : ∃ trace, trace = k.trace ++ constructed c kmflag p i 1 := ⟨_, rfl⟩
    have hnote : (if k.cache.constructor then k.note (.construct (slotAt c p i) kmflag)
        else k) = { k with trace := trace } := by
      rw [htrace, ← hc]
      exact note_constructed k kmflag p i
    obtain ⟨word₁, hw₁, hmarked, hframe₁⟩ :=
      writeRedzones_eq (k := { k with trace := trace }) hc hpos (by omega)
    obtain ⟨word₂, hw₂, hframe₂⟩ :=
      writeOwner_eq (k := { k with trace := trace, word := word₁ }) hc hpos (by omega)
    have hctl := Kmem.writeCtl_eq (k := { k with trace := trace, word := word₂ }) hh
      (hc ▸ hlt) i
    have hsize := hf.size
    have hframe : ∀ q, q + 4 ≤ slotAt c p i - red c - own c ∨ slotAt c p i + c.size + red c ≤ q →
        word₂ q = k.word q :=
      fun q hq => (hframe₂ q (by omega)).trans (hframe₁ q (by omega))
    have hstep : Prepared c p word word₂ (Function.update h.ctl i i) (i + 1) := by
      refine ⟨fun j hj => ?_, fun hr j hj => ?_, fun q hq => ?_⟩
      · by_cases hji : j = i
        · rw [hji, Function.update_self]
        · rw [Function.update_of_ne hji]
          exact hprep.ctl j (by omega)
      · have hred : red c = 4 := if_pos hr
        by_cases hji : j = i
        · subst hji
          obtain ⟨hl, hright⟩ := hmarked hr
          unfold sizeofRedzone at *
          exact ⟨(hframe₂ _ (by omega)).trans hl, (hframe₂ _ (by omega)).trans hright⟩
        · have hlt := slotAt_lt (c := c) (p := p) (show j < i by omega)
          have := hf.intSize
          obtain ⟨hl, hright⟩ := hprep.marked hr j (by omega)
          unfold sizeofRedzone at *
          exact ⟨(hframe _ (by omega)).trans hl, (hframe _ (by omega)).trans hright⟩
      · exact (hframe q (by omega)).trans (hprep.frame q hq)
    obtain ⟨ctl, word', hr, hfinal⟩ := ih (k := { k with
      slab := Function.update k.slab a (some { h with ctl := Function.update h.ctl i i })
      word := word₂
      trace := trace }) hc (Function.update_self ..) hp ho (by omega) hstep
    refine ⟨ctl, word', ?_, hfinal⟩
    rw [initObjects, hptr, ok_bind]
    dsimp only
    rw [hnote, hw₁, ok_bind, hw₂, ok_bind, hctl, ok_bind, hr]
    dsimp only
    rw [Function.update_idem, htrace, List.append_assoc, constructed_append]

theorem initSlab_eq (hf : c.Fits) (hp₀ : 0 < p) (hin : p + c.intSlabobjSize ≤ addressTop)
    (kmflag : ℕ) (hc : k.cache = c) (hh : k.slab a = some (newHeader c p)) :
    ∃ h word, kmemInitSlab k a kmflag = .ok { k with
        cache.totalObjects := c.totalObjects + c.objects
        slab := Function.update k.slab a (some h)
        word := word
        trace := k.trace ++ constructed c kmflag p 0 c.objects } ∧ h.position = 0 ∧ h.prev = none ∧
      (∀ live, (∀ i < c.objects, slotAt c p i ∉ live) → SpaceHolds c word live p h) ∧
      ∀ q, q + 4 ≤ p ∨ p + c.intSlabobjSize ≤ q → word q = k.word q := by
  obtain ⟨ctl, word, hr, hprep⟩ := initObjects_eq hf hp₀ hin kmflag (i := 0) hc hh rfl rfl
    (Nat.zero_add _) ⟨nofun, nofun, fun _ _ => rfl⟩
  refine ⟨{ newHeader c p with ctl := ctl }, word, ?_, rfl, rfl,
    fun live hl => ⟨rfl, rfl, .all_free hprep.ctl hl, hprep.marked⟩, hprep.frame⟩
  rw [kmemInitSlab, hc, hr, ok_bind]
  refine (Kmem.setSlab_eq (Function.update_self ..) _).trans ?_
  dsimp only
  rw [Function.update_idem, hc]
  rfl

theorem manSpace_eq (hc : c.Fits) : manSpace c = manBytes c :=
  add32_of_lt (by have := hc.total; omega)

theorem slabBytes_eq (hc : c.Fits) : add32 (manSpace c) c.intSlabobjSize = slabBytes c := by
  rw [manSpace_eq hc]
  exact add32_of_lt hc.total

end NewSlab

/-- `slab'` differs from `slab` in the links only. -/
def Relinked (slab slab' : ℕ → Option Slab) : Prop :=
  ∀ x h, slab x = some h → ∃ n p, slab' x = some { h with next := n, prev := p }

theorem Relinked.refl (slab : ℕ → Option Slab) : Relinked slab slab :=
  fun _ h hx => ⟨h.next, h.prev, hx⟩

theorem Relinked.trans {s t u : ℕ → Option Slab} (h : Relinked s t) (h' : Relinked t u) :
    Relinked s u := by
  intro x hd hx
  obtain ⟨n, p, hx⟩ := h x hd hx
  obtain ⟨n', p', hx⟩ := h' x _ hx
  exact ⟨n', p', hx⟩

theorem Relinked.exists {s t : ℕ → Option Slab} (h : Relinked s t) {x : ℕ}
    (hx : ∃ g, s x = some g) : ∃ g, t x = some g := by
  obtain ⟨g, hg⟩ := hx
  obtain ⟨n, p, hg⟩ := h x g hg
  exact ⟨_, hg⟩

theorem Relinked.holds {slab slab' : ℕ → Option Slab} (hr : Relinked slab slab') {c : KmemCache}
    {word : ℕ → Option ℕ} {live : Finset ℕ} {a p : ℕ}
    (h : ∃ h, slab a = some h ∧ SpaceHolds c word live p h) :
    ∃ h, slab' a = some h ∧ SpaceHolds c word live p h := by
  obtain ⟨h, hh, hs⟩ := h
  obtain ⟨n, p, hh'⟩ := hr a h hh
  exact ⟨_, hh', hs.1, hs.2, hs.3, hs.4⟩

theorem Relinked.positionOf_eq {slab slab' : ℕ → Option Slab} (hr : Relinked slab slab') {a : ℕ}
    (h : ∃ h, slab a = some h) : positionOf slab' a = positionOf slab a := by
  obtain ⟨h, hh⟩ := h
  obtain ⟨n, p, hh'⟩ := hr a h hh
  simp [positionOf, hh, hh']

section Links
variable {k : Kmem} {x : ℕ}

theorem setNext_relinks (hx : ∃ h, k.slab x = some h) (v : Option ℕ) :
    ∃ slab, k.setNext (some x) v = .ok { k with slab := slab } ∧ Relinked k.slab slab ∧
      via Slab.prev slab = via Slab.prev k.slab ∧
      ∀ y, via Slab.next slab y = if y = x then v else via Slab.next k.slab y := by
  obtain ⟨h, hx⟩ := hx
  refine ⟨_, Kmem.setSlab_eq hx _, fun y g hy => ?_, via_update_of_eq hx rfl, via_update _ _ _ _⟩
  by_cases hyx : y = x
  · subst hyx
    rw [hx] at hy
    cases hy
    exact ⟨v, h.prev, Function.update_self ..⟩
  · exact ⟨g.next, g.prev, (Function.update_of_ne hyx _ _).trans hy⟩

theorem setPrev_relinks (hx : ∃ h, k.slab x = some h) (v : Option ℕ) :
    ∃ slab, k.setPrev (some x) v = .ok { k with slab := slab } ∧ Relinked k.slab slab ∧
      via Slab.next slab = via Slab.next k.slab ∧
      ∀ y, via Slab.prev slab y = if y = x then v else via Slab.prev k.slab y := by
  obtain ⟨h, hx⟩ := hx
  refine ⟨_, Kmem.setSlab_eq hx _, fun y g hy => ?_, via_update_of_eq hx rfl, via_update _ _ _ _⟩
  by_cases hyx : y = x
  · subst hyx
    rw [hx] at hy
    cases hy
    exact ⟨h.next, v, Function.update_self ..⟩
  · exact ⟨g.next, g.prev, (Function.update_of_ne hyx _ _).trans hy⟩

theorem setPrevIf_relinks {p : Option ℕ} (hp : ∀ x, p = some x → ∃ h, k.slab x = some h)
    (v : Option ℕ) :
    ∃ slab, k.setPrevIf p v = .ok { k with slab := slab } ∧
      Relinked k.slab slab ∧ via Slab.next slab = via Slab.next k.slab ∧
      ∀ y, via Slab.prev slab y = if p = some y then v else via Slab.prev k.slab y := by
  cases p with
  | none => exact ⟨k.slab, rfl, .refl _, rfl, fun y => rfl⟩
  | some x =>
    obtain ⟨slab, hr, hs, hn, hv⟩ := setPrev_relinks (hp x rfl) v
    refine ⟨slab, hr, hs, hn, fun y => ?_⟩
    rw [hv]
    simp [eq_comm]

theorem setNextIf_relinks {p : Option ℕ} (hp : ∀ x, p = some x → ∃ h, k.slab x = some h)
    (v : Option ℕ) :
    ∃ slab, k.setNextIf p v = .ok { k with slab := slab } ∧
      Relinked k.slab slab ∧ via Slab.prev slab = via Slab.prev k.slab ∧
      ∀ y, via Slab.next slab y = if p = some y then v else via Slab.next k.slab y := by
  cases p with
  | none => exact ⟨k.slab, rfl, .refl _, rfl, fun y => rfl⟩
  | some x =>
    obtain ⟨slab, hr, hs, hn, hv⟩ := setNext_relinks (hp x rfl) v
    refine ⟨slab, hr, hs, hn, fun y => ?_⟩
    rw [hv]
    simp [eq_comm]

end Links

/-- `ALLOC` has the blocks for a slab. -/
def Supplies (kmalloc : Kmalloc) (blocks : List Block) (c : KmemCache) (off : Bool) : Prop :=
  if off then ∃ a, kmalloc blocks (manBytes c) = some a ∧
    ∃ p, kmalloc ((a, manBytes c) :: blocks) c.intSlabobjSize = some p
  else ∃ a, kmalloc blocks (slabBytes c) = some a

/-- Where a new slab may lie. -/
structure NewPlace (k : Kmem) (l : List Place) (x : Place) : Prop where
  held : ((k.cp, sizeofCache) :: (x :: l).flatMap (Place.blocks k.cache)).Subperm
    ((x.blocks k.cache).reverse ++ k.blocks)
  pos : 0 < x.ptr
  inside : x.ptr + k.cache.intSlabobjSize ≤ addressTop
  apart : ∀ y ∈ l, (x.space k.cache).Apart (y.space k.cache)
  addr : ∀ y ∈ l, y.addr ≠ x.addr

/-- The calls of `ALLOC` for a slab. -/
def Place.allocs (c : KmemCache) (x : Place) : List Event :=
  (x.blocks c).map fun b => .alloc b.2 (some b.1)

namespace Sound
variable {k : Kmem} {live : Finset ℕ} {l : List Place} {x y : Place} {i : ℕ} {h : Slab}
  {kmalloc : Kmalloc}

theorem addr_fresh (hk : Sound k live l) {a n : ℕ} (hn : 0 < n)
    (hap : ∀ b ∈ k.blocks, Block.Apart (a, n) b) : a ∉ l.map Place.addr := by
  intro ha
  obtain ⟨x, hx, rfl⟩ := List.mem_map.mp ha
  obtain ⟨b, hb, hbx, hpos⟩ := x.addr_block k.cache
  have hmem : b ∈ k.blocks := hk.blocks.subset
    (List.mem_cons_of_mem _ (List.mem_flatMap.mpr ⟨x, hx, hb⟩))
  exact (hap b hmem).start_ne hpos le_rfl (by dsimp only; omega) hbx

/-- `kmem_new_slab` asks for the blocks of a slab; what it has got it gives back if the rest is
refused. -/
theorem newSlab (hk : Sound k live l) (hG : Grants addressTop kmalloc) (kmflag : ℕ) :
    (¬ Supplies kmalloc k.blocks k.cache (hasFlag kmflag kvOffSlab) ∧ ∃ k' evs,
        kmemNewSlab kmalloc k kmflag = (k', none) ∧ Sound k' live l ∧ k'.cache = k.cache ∧
        k'.blocks = k.blocks ∧ Effect k k' evs ∧ Fruitless k.blocks evs) ∨
      Supplies kmalloc k.blocks k.cache (hasFlag kmflag kvOffSlab) ∧ ∃ x : Place,
        x.off = hasFlag kmflag kvOffSlab ∧ x.Inline k.cache ∧
        Allocated addressTop ((x.blocks k.cache).reverse ++ k.blocks) ∧
        kmemNewSlab kmalloc k kmflag = ({ k with
          blocks := (x.blocks k.cache).reverse ++ k.blocks
          slab := Function.update k.slab x.addr (some (newHeader k.cache x.ptr))
          trace := k.trace ++ x.allocs k.cache }, some x.addr) := by
  have hrefused : ∀ n, Fruitless k.blocks [.alloc n none] := fun n =>
    ⟨fun e he => List.mem_singleton.mp he ▸ rfl, fun S _ => rfl⟩
  cases hoff : hasFlag kmflag kvOffSlab with
  | false =>
    cases hask : kmalloc k.blocks (slabBytes k.cache) with
    | none =>
      refine .inl ⟨by simp [Supplies, hask], k.note (.alloc (slabBytes k.cache) none),
        [.alloc (slabBytes k.cache) none], ?_, hk.frame rfl rfl rfl rfl fun _ _ => rfl, rfl, rfl,
        ⟨rfl, rfl, rfl⟩, hrefused _⟩
      simp [kmemNewSlab, hoff, slabBytes_eq hk.fits, Kmem.alloc, hask]
    | some a =>
      have hin : a + slabBytes k.cache ≤ addressTop := (hG _ _ _ hask).1.2
      have hptr : add32 (add32 a sizeofSlab) (k.cache.objects * sizeofCtl) =
          objectsAt k.cache a := by
        have hsum : add32 a sizeofSlab = a + sizeofSlab :=
          add32_of_lt (by unfold slabBytes addressTop at hin; omega)
        rw [hsum, add32_of_lt (by unfold slabBytes addressTop at hin; omega)]
        exact Nat.add_assoc ..
      refine .inr ⟨⟨a, hask⟩, ⟨a, objectsAt k.cache a, false⟩, rfl, fun _ => rfl,
        hk.allocated.grant hG hask, ?_⟩
      simp only [kmemNewSlab, hoff, slabBytes_eq hk.fits, Kmem.alloc, hask, Kmem.put, Kmem.note,
        hptr]
      rfl
  | true =>
    cases hask : kmalloc k.blocks (manBytes k.cache) with
    | none =>
      refine .inl ⟨by simp [Supplies, hask], k.note (.alloc (manBytes k.cache) none),
        [.alloc (manBytes k.cache) none], ?_, hk.frame rfl rfl rfl rfl fun _ _ => rfl, rfl, rfl,
        ⟨rfl, rfl, rfl⟩, hrefused _⟩
      simp [kmemNewSlab, hoff, manSpace_eq hk.fits, Kmem.alloc, hask]
    | some a =>
      have hman : 0 < manBytes k.cache := by
        unfold manBytes sizeofSlab
        omega
      have hap := (hG _ _ _ hask).2
      cases hask' : kmalloc ((a, manBytes k.cache) :: k.blocks) k.cache.intSlabobjSize with
      | none =>
        have hno : ¬ Supplies kmalloc k.blocks k.cache true := by
          rintro ⟨b, hb, p, hp⟩
          obtain rfl := Option.some.inj (hask.symm.trans hb)
          cases hask'.symm.trans hp
        refine .inl ⟨hno, { k with
          slab := Function.update k.slab a none
          trace := k.trace ++ [.alloc (manBytes k.cache) (some a),
            .alloc k.cache.intSlabobjSize none, .free a] }, [.alloc (manBytes k.cache) (some a),
            .alloc k.cache.intSlabobjSize none, .free a], ?_,
          hk.frame rfl rfl rfl rfl fun x hx => Function.update_of_ne (fun he : x.addr = a =>
            hk.addr_fresh hman hap (he ▸ List.mem_map_of_mem hx)) _ _,
          rfl, rfl, ⟨rfl, rfl, rfl⟩, fun e he => ?_, fun S hS => ?_⟩
        · simp [kmemNewSlab, hoff, manSpace_eq hk.fits, Kmem.alloc, hask, hask',
            Kmem.note, Kmem.free]
        · simp only [List.mem_cons, List.not_mem_nil, or_false] at he
          rcases he with rfl | rfl | rfl <;> rfl
        · have ha : a ∉ S := fun ha => by
            obtain ⟨b, hb, hba, hpos⟩ := hS a ha
            exact (hap b hb).start_ne hpos le_rfl (by dsimp only; omega) hba
          simp [replay, blockMark, ha]
      | some p =>
        refine .inr ⟨⟨a, hask, p, hask'⟩, ⟨a, p, true⟩, rfl, by simp [Place.Inline],
          (hk.allocated.grant hG hask).grant hG hask', ?_⟩
        simp only [kmemNewSlab, hoff, manSpace_eq hk.fits, Kmem.alloc, hask, hask', Kmem.put,
          Kmem.note, Place.allocs, Place.blocks]
        simp

theorem newPlace (hk : Sound k live l) (hin : x.Inline k.cache)
    (hall : Allocated addressTop ((x.blocks k.cache).reverse ++ k.blocks)) :
    NewPlace k l x := by
  have hsub : ((k.cp, sizeofCache) :: (x :: l).flatMap (Place.blocks k.cache)).Subperm
      ((x.blocks k.cache).reverse ++ k.blocks) := by
    have happ : ((k.cp, sizeofCache) :: (x :: l).flatMap (Place.blocks k.cache)).Perm
        ((x.blocks k.cache).reverse ++
          ((k.cp, sizeofCache) :: l.flatMap (Place.blocks k.cache))) := by
      rw [List.flatMap_cons]
      exact List.perm_middle.symm.trans
        ((List.reverse_perm (x.blocks k.cache)).symm.append_right _)
    exact happ.subperm.trans ((List.Subperm.refl _).append hk.blocks)
  have hplaces := (hall.subperm hsub).sublist (List.sublist_cons_self _ _)
  have hpair := (List.pairwise_cons.mp (List.pairwise_flatMap.mp hplaces.apart).2).1
  obtain ⟨b, hb, hble, hbend⟩ := Place.space_block hin
  have hbin := hplaces.inside b (List.mem_flatMap.mpr ⟨x, List.mem_cons_self, hb⟩)
  refine ⟨hsub, lt_of_lt_of_le hbin.1 hble, hbend.trans hbin.2, fun y hy => ?_, fun y hy he => ?_⟩
  · obtain ⟨d, hd, hdle, hdend⟩ := Place.space_block (hk.inline y hy)
    have hbd := hpair y hy b hb d hd
    unfold Block.Apart Place.space at *
    dsimp only
    omega
  · obtain ⟨d, hd, hdy, hdpos⟩ := y.addr_block k.cache
    obtain ⟨e, he', hex, hepos⟩ := x.addr_block k.cache
    exact (hpair y hy e he' d hd).start_ne hdpos hex.le (by omega) (hdy.trans he)

theorem linkFirst (hk : Sound k live l) {m : Kmem} (hc : m.cache.slabs = k.cache.slabs)
    (hx : m.slab x.addr = some h) (hprev : h.prev = none) (hne : ∀ y ∈ l, y.addr ≠ x.addr)
    (hold : ∀ y ∈ l, m.slab y.addr = k.slab y.addr) :
    ∃ slab₁ slab, m.setNext (some x.addr) m.cache.slabs = .ok { m with slab := slab₁ } ∧
      Kmem.setPrevIf { m with slab := slab₁ } m.cache.slabs (some x.addr) =
        .ok { m with slab := slab } ∧ Relinked m.slab slab ∧
      Linked (via Slab.next slab) (via Slab.prev slab) none ((x :: l).map Place.addr) none := by
  rw [hc]
  obtain ⟨slab₁, hnext, hr₁, hprev₁, hnext₁⟩ := setNext_relinks (k := m) ⟨h, hx⟩ k.cache.slabs
  obtain ⟨slab₂, hback, hr₂, hnext₂, hprev₂⟩ := setPrevIf_relinks (k := { m with slab := slab₁ })
    (p := k.cache.slabs) (fun a ha => by
      have hal : a ∈ l.map Place.addr := List.mem_of_mem_head? (hk.first ▸ ha)
      obtain ⟨y, hy, rfl⟩ := List.mem_map.mp hal
      obtain ⟨g, hg, -⟩ := hk.slab y hy
      exact hr₁.exists ⟨g, (hold y hy).trans hg⟩) (some x.addr)
  refine ⟨slab₁, slab₂, hnext, hback, hr₁.trans hr₂, ?_⟩
  have hnotin : x.addr ∉ l.map Place.addr := fun hx => by
    obtain ⟨y, hy, he⟩ := List.mem_map.mp hx
    exact hne y hy he
  have hlinked : Linked (via Slab.next k.slab) (via Slab.prev k.slab) none
      ([] ++ l.map Place.addr) none := hk.linked
  have hvia : ∀ a ∈ l.map Place.addr, m.slab a = k.slab a := fun a ha => by
    obtain ⟨y, hy, rfl⟩ := List.mem_map.mp ha
    exact hold y hy
  rw [List.map_cons]
  refine hlinked.link hk.nodup ?_ ?_ (fun a ha => ?_) fun a ha => ?_
  · rw [hnext₂, hnext₁, if_pos rfl, hk.first, Option.or_none]
  · rw [hprev₂, hprev₁, if_neg fun e : k.cache.slabs = some x.addr =>
      hnotin (List.mem_of_mem_head? (hk.first ▸ e))]
    exact (via_of hx).trans hprev
  · have hax : ¬ a = x.addr := fun e => hnotin (e ▸ ha)
    rw [hnext₂, hnext₁, if_neg hax]
    simp only [via, hvia a ha]
    rfl
  · rw [hprev₂, hprev₁, hk.first]
    simp only [via, hvia a ha]

theorem kmemCacheGrow_granted (hk : Sound k live l) (hin : x.Inline k.cache)
    (hall : Allocated addressTop ((x.blocks k.cache).reverse ++ k.blocks)) {kmflag : ℕ}
    (hnew : kmemNewSlab kmalloc k kmflag = ({ k with
      blocks := (x.blocks k.cache).reverse ++ k.blocks
      slab := Function.update k.slab x.addr (some (newHeader k.cache x.ptr))
      trace := k.trace ++ x.allocs k.cache }, some x.addr)) :
    ∃ k', kmemCacheGrow kmalloc k kmflag = .ok (k', some x.addr) ∧ Sound k' live (x :: l) ∧
      Effect k k' (x.allocs k.cache ++ constructed k.cache kmflag x.ptr 0 k.cache.objects) ∧
      positionOf k'.slab x.addr = 0 := by
  obtain ⟨hsub, hp₀, hend, hap, hnot⟩ := hk.newPlace hin hall
  obtain ⟨h, word, hinit, hpos, hprev, hholds, hframe⟩ := initSlab_eq hk.fits hp₀ hend kmflag
    (k := { k with
      blocks := (x.blocks k.cache).reverse ++ k.blocks
      slab := Function.update k.slab x.addr (some (newHeader k.cache x.ptr))
      trace := k.trace ++ x.allocs k.cache }) rfl (Function.update_self ..)
  rw [Function.update_idem, List.append_assoc] at hinit
  dsimp only at hinit hframe
  have hold : ∀ y ∈ l, Function.update k.slab x.addr (some h) y.addr = k.slab y.addr :=
    fun y hy => Function.update_of_ne (hnot y hy) _ _
  obtain ⟨slab₁, slab₂, hnext, hback, hr, hlinked⟩ := hk.linkFirst (m := { k with
    blocks := (x.blocks k.cache).reverse ++ k.blocks
    cache.totalObjects := k.cache.totalObjects + k.cache.objects
    slab := Function.update k.slab x.addr (some h)
    word := word
    trace := k.trace ++ (x.allocs k.cache ++ constructed k.cache kmflag x.ptr 0 k.cache.objects) })
    rfl (Function.update_self ..) hprev hnot hold
  have hposx : positionOf slab₂ x.addr = 0 := by
    rw [hr.positionOf_eq ⟨h, Function.update_self ..⟩]
    simp [positionOf, hpos]
  have hposl : ∀ y ∈ l, positionOf slab₂ y.addr = positionOf k.slab y.addr := by
    intro y hy
    obtain ⟨g, hg, -⟩ := hk.slab y hy
    rw [hr.positionOf_eq ⟨g, (hold y hy).trans hg⟩]
    dsimp only
    rw [positionOf, hold y hy, positionOf]
  have hside : ∀ y ∈ l, ∃ g, slab₂ y.addr = some g ∧ SpaceHolds k.cache word live y.ptr g := by
    intro y hy
    obtain ⟨g, hg, hs⟩ := hk.slab y hy
    refine hr.holds ⟨g, (hold y hy).trans hg, hs.congr (fun _ q hq hq' => hframe q ?_) hk.fits
      fun _ _ => Iff.rfl⟩
    have hxy := hap y hy
    unfold Block.Apart Place.space at hxy
    dsimp only at hxy
    omega
  have hmine : ∃ g, slab₂ x.addr = some g ∧ SpaceHolds k.cache word live x.ptr g := by
    refine hr.holds ⟨h, Function.update_self .., hholds live fun i hi hp => ?_⟩
    obtain ⟨y, hy, j, hj, he⟩ := hk.owned _ hp
    exact slotAt_apart hk.fits.roomy (hap y hy) hi hj he
  refine ⟨{ k with
    blocks := (x.blocks k.cache).reverse ++ k.blocks
    cache.totalObjects := k.cache.totalObjects + k.cache.objects
    cache.slabs := some x.addr
    slab := slab₂
    word := word
    trace := k.trace ++ (x.allocs k.cache ++ constructed k.cache kmflag x.ptr 0 k.cache.objects) },
    ?_, ?_, ⟨rfl, rfl, rfl⟩, hposx⟩
  · rw [kmemCacheGrow, hnew]
    dsimp only
    rw [hinit, ok_bind, hnext, ok_bind]
    exact bind_eq_ok.mpr ⟨_, hback, rfl⟩
  · refine ⟨⟨hk.fits.1, hk.fits.2, hk.fits.3, hk.fits.4, hk.fits.5⟩, rfl, hlinked, hall,
      List.forall_mem_cons.mpr ⟨hin, hk.inline⟩, hsub,
      List.forall_mem_cons.mpr ⟨?_, fun y hy => ?_⟩, fun p hp => ?_, hk.used, ?_, ?_⟩
    · obtain ⟨g, hg, hs⟩ := hmine
      exact ⟨g, hg, hs.1, hs.2, hs.3, hs.4⟩
    · obtain ⟨g, hg, hs⟩ := hside y hy
      exact ⟨g, hg, hs.1, hs.2, hs.3, hs.4⟩
    · obtain ⟨y, hy, hp⟩ := hk.owned p hp
      exact ⟨y, List.mem_cons_of_mem _ hy, hp⟩
    · rw [List.map_cons, List.sum_cons, hposx, List.map_congr_left hposl, hk.positions,
        Nat.zero_add]
    · rw [hk.total, List.length_cons, Nat.mul_succ]

theorem relink (hk : Sound k live l) {slab : ℕ → Option Slab} (hr : Relinked k.slab slab)
    {l' : List Place} (hp : l'.Perm l)
    (hlinked : Linked (via Slab.next slab) (via Slab.prev slab) none (l'.map Place.addr) none) :
    Sound { k with slab := slab, cache.slabs := (l'.map Place.addr).head? } live l' where
  fits := ⟨hk.fits.1, hk.fits.2, hk.fits.3, hk.fits.4, hk.fits.5⟩
  first := rfl
  linked := hlinked
  allocated := hk.allocated
  inline y hy := hk.inline y (hp.mem_iff.mp hy)
  blocks := ((hp.flatMap_right _).cons _).subperm.trans hk.blocks
  slab y hy := by
    obtain ⟨g, hg, hs⟩ := hr.holds (hk.slab y (hp.mem_iff.mp hy))
    exact ⟨g, hg, hs.1, hs.2, hs.3, hs.4⟩
  owned p h := by
    obtain ⟨y, hy, h⟩ := hk.owned p h
    exact ⟨y, hp.mem_iff.mpr hy, h⟩
  used := hk.used
  positions := by
    rw [(hp.map _).sum_eq]
    refine Eq.trans (congrArg List.sum (List.map_congr_left fun y hy => ?_)) hk.positions
    obtain ⟨g, hg, -⟩ := hk.slab y hy
    exact hr.positionOf_eq ⟨g, hg⟩
  total := by
    dsimp only
    rw [hk.total, hp.length_eq]

theorem findRoom_eq (hk : Sound k live l) {ps xs ys : List Place}
    (hl : ps ++ (xs ++ x :: ys) = l)
    (hfull : ∀ y ∈ xs, positionOf k.slab y.addr = k.cache.objects)
    (hroom : positionOf k.slab x.addr ≠ k.cache.objects) {left : ℕ} (hleft : xs.length < left) :
    findRoom k left ((xs ++ x :: ys).map Place.addr).head? = .ok x.addr := by
  induction xs generalizing ps left with
  | nil =>
    obtain ⟨left, rfl⟩ := Nat.exists_eq_add_one_of_ne_zero (show left ≠ 0 by omega)
    obtain ⟨h, hh, -⟩ := hk.slab x (by simp [← hl])
    rw [positionOf_eq hh] at hroom
    rw [List.nil_append, List.map_cons, List.head?_cons, findRoom, load_some hh, ok_bind,
      if_neg hroom]
  | cons y xs ih =>
    obtain ⟨left, rfl⟩ := Nat.exists_eq_add_one_of_ne_zero (show left ≠ 0 by omega)
    obtain ⟨h, hh, -⟩ := hk.slab y (by simp [← hl])
    have hy := hfull y (by simp)
    rw [positionOf_eq hh] at hy
    rw [List.cons_append, List.map_cons, List.head?_cons, findRoom, load_some hh, ok_bind,
      if_pos hy, (hk.chained.next_eq hl hh).1]
    exact @ih (ps ++ [y]) (by simp [← hl]) (fun z hz => hfull z (by simp [hz])) left
      (by simpa using hleft)

/-- The first slab behind `x` that has room becomes the first of all. -/
theorem moveToFront_eq {xs ys : List Place} {s : Place}
    (hk : Sound k live (x :: (xs ++ s :: ys)))
    (hfull : ∀ y ∈ xs, positionOf k.slab y.addr = k.cache.objects)
    (hroom : positionOf k.slab s.addr ≠ k.cache.objects) :
    ∃ k', moveToFront k = .ok k' ∧ Sound k' live (s :: x :: (xs ++ ys)) ∧ Effect k k' [] ∧
      k'.cache.objects = k.cache.objects ∧
      positionOf k'.slab s.addr = positionOf k.slab s.addr := by
  have hnd := hk.nodup
  have hl : (x :: xs) ++ s :: ys = x :: (xs ++ s :: ys) := rfl
  have hmap : (x :: (xs ++ s :: ys)).map Place.addr =
      (x :: xs).map Place.addr ++ s.addr :: ys.map Place.addr := by simp
  have hsx : s.addr ≠ x.addr := fun e => (List.nodup_cons.mp hnd).1 (by simp [← e])
  have hex : ∀ a ∈ (x :: (xs ++ s :: ys)).map Place.addr, ∃ g, k.slab a = some g := fun a ha => by
    obtain ⟨y, hy, rfl⟩ := List.mem_map.mp ha
    obtain ⟨g, hg, -⟩ := hk.slab y hy
    exact ⟨g, hg⟩
  obtain ⟨g, hg⟩ := hex x.addr (by simp)
  obtain ⟨h, hh⟩ := hex s.addr (by simp)
  obtain ⟨hnext, hprev⟩ := hk.chained.next_eq hl hh
  obtain ⟨z, hz⟩ : ∃ z, ((x :: xs).map Place.addr).getLast? = some z :=
    ⟨_, List.getLast?_eq_some_getLast (by simp)⟩
  have hzx : z ∈ (x :: (xs ++ s :: ys)).map Place.addr := by
    rw [hmap]
    exact List.mem_append_left _ (List.mem_of_getLast? hz)
  have hfind : findRoom k (slabBound k.cache) g.next = .ok s.addr := by
    rw [(hk.chained.next_eq (show [] ++ x :: (xs ++ s :: ys) = _ from rfl) hg).1]
    refine hk.findRoom_eq (show [x] ++ _ = _ from rfl) hfull hroom ?_
    have := hk.length_le
    simp only [List.length_cons, List.length_append] at this
    unfold slabBound
    omega
  -- the slab is taken out of the chain
  obtain ⟨slab₁, h₁, r₁, n₁, p₁⟩ := setPrevIf_relinks (k := k) (p := h.next) (fun a ha => hex a (by
    rw [hnext] at ha
    rw [hmap]
    exact List.mem_append_right _ (List.mem_cons_of_mem _ (List.mem_of_mem_head? ha)))) h.prev
  obtain ⟨slab₂, h₂, r₂, p₂, n₂⟩ := setNext_relinks (k := { k with slab := slab₁ })
    (r₁.exists (hex z hzx)) h.next
  have hlinked := hk.linked
  rw [hmap] at hlinked hnd
  have hout : Linked (via Slab.next slab₂) (via Slab.prev slab₂) none
      ((x :: xs).map Place.addr ++ ys.map Place.addr) none := by
    refine Linked.unlink (x := s.addr) hlinked hnd (fun a _ => ?_) fun a _ => ?_
    · rw [n₂, n₁, hz, hnext, Option.or_none]
      simp only [Option.some_inj, eq_comm]
    · rw [p₂, p₁, hnext, hprev, Option.or_none]
  -- and put in front of it
  obtain ⟨slab₃, h₃, r₃, n₃, p₃⟩ := setPrev_relinks (k := { k with slab := slab₂ })
    (r₂.exists (r₁.exists (hex x.addr (by simp)))) (some s.addr)
  obtain ⟨slab₄, h₄, r₄, p₄, n₄⟩ := setNext_relinks (k := { k with slab := slab₃ })
    (r₃.exists (r₂.exists (r₁.exists ⟨h, hh⟩))) k.cache.slabs
  obtain ⟨slab₅, h₅, r₅, n₅, p₅⟩ := setPrev_relinks (k := { k with slab := slab₄ })
    (r₄.exists (r₃.exists (r₂.exists (r₁.exists ⟨h, hh⟩)))) none
  have hr : Relinked k.slab slab₅ := (((r₁.trans r₂).trans r₃).trans r₄).trans r₅
  have hperm : (s :: x :: (xs ++ ys)).Perm (x :: (xs ++ s :: ys)) :=
    (@List.perm_middle _ s (x :: xs) ys).symm
  have hnd' := List.nodup_cons.mp ((List.perm_middle).nodup_iff.mp hnd)
  have hfirst : k.cache.slabs = some x.addr := hk.first
  have hin : Linked (via Slab.next slab₅) (via Slab.prev slab₅) none
      ([] ++ s.addr :: ((x :: xs).map Place.addr ++ ys.map Place.addr)) none := by
    have hout : Linked _ _ none ([] ++ ((x :: xs).map Place.addr ++ ys.map Place.addr)) none := hout
    refine hout.link hnd'.2 ?_ ?_ (fun a ha => ?_) fun a ha => ?_
    · rw [n₅, n₄, if_pos rfl, hfirst]
      rfl
    · rw [p₅, if_pos rfl]
      rfl
    · have has : ¬ a = s.addr := fun e => hnd'.1 (e ▸ ha)
      rw [n₅, n₄, if_neg has, n₃]
      rfl
    · have has : ¬ a = s.addr := fun e => hnd'.1 (e ▸ ha)
      rw [p₅, if_neg has, p₄, p₃]
      simp only [List.map_cons, List.cons_append, List.head?_cons, Option.some_inj, eq_comm]
  refine ⟨_, ?_, hk.relink hr hperm (by simpa using hin), ⟨rfl, rfl, (List.append_nil _).symm⟩, rfl,
    hr.positionOf_eq ⟨h, hh⟩⟩
  have hne : some s.addr ≠ k.cache.slabs := by
    rw [hfirst]
    simpa using hsx
  have hload : load k.slab k.cache.slabs = .ok g := hfirst ▸ load_some hg
  rw [moveToFront, hload, ok_bind, hfind, ok_bind, assert_of hne, ok_bind, load_some hh, ok_bind,
    h₁, ok_bind, hprev, hz, h₂, ok_bind]
  refine bind_eq_ok.mpr ⟨_, hfirst ▸ h₃, ?_⟩
  exact bind_eq_ok.mpr ⟨_, h₄, bind_eq_ok.mpr ⟨_, h₅, rfl⟩⟩

/-- The counters tell whether every slab is used up. -/
theorem total_eq_used_iff (hk : Sound k live l) :
    k.cache.totalObjects = k.cache.usedObjects ↔
      ∀ x ∈ l, positionOf k.slab x.addr = k.cache.objects := by
  have hsum := sum_map_eq_iff (l := l.map Place.addr) (f := positionOf k.slab)
    (n := k.cache.objects) fun a ha => by
      obtain ⟨x, hx, rfl⟩ := List.mem_map.mp ha
      exact hk.position_le hx
  rw [List.map_map, List.length_map, List.forall_mem_map] at hsum
  rw [← hsum, hk.total, ← hk.positions]
  exact eq_comm

theorem allocWithin_room (hk : Sound k live (x :: l))
    (hroom : positionOf k.slab x.addr ≠ k.cache.objects) (kmalloc retry : Kmalloc)
    (kmflag depth : ℕ) :
    ∃ k' p, allocWithin kmalloc retry kmflag (depth + 1) k = .ok (k', some p) ∧ p ∉ live ∧
      Sound k' (insert p live) (x :: l) ∧ Effect k k' [] := by
  obtain ⟨h, hh, -⟩ := hk.slab x (by simp)
  rw [positionOf_eq hh] at hroom
  obtain ⟨k', p, hr, hp, hk', he⟩ := hk.take hh hroom
  refine ⟨k', p, ?_, hp, hk', he⟩
  have hfirst : k.cache.slabs = some x.addr := hk.first
  simp only [allocWithin, firstFree, hfirst, load_some hh, ok_bind, ne_eq, hroom, not_false_eq_true,
    if_true, hr]

theorem firstFree_full (hk : Sound k live l)
    (hfull : ∀ x, l.head? = some x → positionOf k.slab x.addr = k.cache.objects) :
    firstFree k = .ok none := by
  unfold firstFree
  rw [hk.first]
  cases l with
  | nil => rfl
  | cons x l =>
    obtain ⟨h, hh, -⟩ := hk.slab x (by simp)
    have := hfull x rfl
    rw [positionOf_eq hh] at this
    simp only [List.map_cons, List.head?_cons, load_some hh, ok_bind, this, ne_eq,
      not_true, if_false]

end Sound
end Racoon.SlabAllocator
