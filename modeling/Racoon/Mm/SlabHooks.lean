import Racoon.Mm.SlabRuns

/-!
# Constructors and destructors

The objects of the slabs are those that are constructed: along every run each is
constructed with its slab and destructed with it. The calls of the two hooks are
read off the trace.
-/

namespace Racoon.SlabAllocator
open Lib

/-- The objects of all slabs. -/
def slots (c : KmemCache) (l : List Place) : Finset ℕ := (l.flatMap (Place.slots c)).toFinset

def constructorCalls (es : List Event) : ℕ := es.countP fun e => (hookMark e).isOpened

def destructorCalls (es : List Event) : ℕ := es.countP fun e => (hookMark e).isClosed

/-- The hooks in `es` when the objects `S` of the slabs become `T`: what is new is constructed
once, what is gone is destructed once. -/
def HooksRun (es : List Event) (S T : Finset ℕ) : Prop := ∀ p,
  es.countP (fun e => hookMark e = .opened p) = (if p ∈ T \ S then 1 else 0) ∧
  es.countP (fun e => hookMark e = .closed p) = if p ∈ S \ T then 1 else 0

section Events
variable {c c' : KmemCache} {x : Place} {l l' : List Place} {S : Finset ℕ}

theorem slots_congr (h : c'.params = c.params) (l : List Place) : slots c' l = slots c l :=
  show slots c'.params l = slots c.params l from h ▸ rfl

theorem slots_cons (c : KmemCache) (x : Place) (l : List Place) :
    slots c (x :: l) = slots c l ∪ (x.slots c).toFinset := by
  rw [slots, List.flatMap_cons, List.toFinset_append, Finset.union_comm]
  rfl

theorem slots_perm (h : l'.Perm l) : slots c l' = slots c l :=
  List.toFinset_eq_of_perm _ _ (h.flatMap_right _)

theorem hookMark_allocs : ∀ e ∈ x.allocs c, hookMark e = .other := by
  intro e he
  obtain ⟨b, -, rfl⟩ := List.mem_map.mp he
  rfl

theorem replay_constructed (hc : c.constructor = true) (kmflag : ℕ) (hd : (x.slots c).Nodup)
    (hS : ∀ p ∈ x.slots c, p ∉ S) :
    replay hookMark S (constructed c kmflag x.ptr 0 c.objects) =
      some (S ∪ (x.slots c).toFinset) := by
  unfold Place.slots at *
  rw [constructed, if_pos hc]
  rw [List.range_eq_range'] at *
  exact replay_opened (fun _ => rfl) hd hS

theorem replay_dropped (hc : c.destructor = true) (hd : (x.slots c).Nodup)
    (hS : ∀ p ∈ x.slots c, p ∈ S) :
    replay hookMark S (x.dropped c) = some (S \ (x.slots c).toFinset) := by
  rw [Place.dropped, if_pos hc]
  refine replay_trans (replay_closed_each (fun _ => rfl) hd hS) (replay_other fun e he => ?_)
  obtain ⟨p, -, rfl⟩ := List.mem_map.mp he
  rfl

theorem not_closed_constructed {kmflag : ℕ} :
    ∀ e ∈ constructed c kmflag x.ptr 0 c.objects, (hookMark e).isClosed = false := by
  intro e he
  unfold constructed at he
  split_ifs at he
  · obtain ⟨j, -, rfl⟩ := List.mem_map.mp he
    rfl
  · cases he

theorem not_opened_dropped : ∀ e ∈ x.dropped c, (hookMark e).isOpened = false := by
  intro e he
  rcases List.mem_append.mp he with he | he
  · split_ifs at he
    · obtain ⟨p, -, rfl⟩ := List.mem_map.mp he
      rfl
    · cases he
  · obtain ⟨p, -, rfl⟩ := List.mem_map.mp he
    rfl

end Events

namespace Sound
variable {k : Kmem} {live : Finset ℕ} {l : List Place}

theorem slots_nodup (hk : Sound k live l) : (l.flatMap (Place.slots k.cache)).Nodup := by
  refine List.nodup_flatMap.mpr ⟨fun x _ => ?_, ?_⟩
  · refine List.nodup_range.map_on fun i _ j _ he => ?_
    exact by_contra fun hne => slotAt_ne hk.fits.roomy hne he
  · refine hk.apart.imp fun {x y} hxy p hpx hpy => ?_
    obtain ⟨i, hi, rfl⟩ := List.mem_map.mp hpx
    obtain ⟨j, hj, he⟩ := List.mem_map.mp hpy
    exact slotAt_apart hk.fits.roomy hxy (List.mem_range.mp hi) (List.mem_range.mp hj) he.symm

theorem live_subset (hk : Sound k live l) : live ⊆ slots k.cache l := by
  intro p hp
  obtain ⟨x, hx, i, hi, rfl⟩ := hk.owned p hp
  refine List.mem_toFinset.mpr (List.mem_flatMap.mpr ⟨x, hx, ?_⟩)
  exact List.mem_map_of_mem (List.mem_range.mpr hi)

theorem card_slots (hk : Sound k live l) : (slots k.cache l).card = k.cache.totalObjects := by
  rw [slots, List.toFinset_card_of_nodup hk.slots_nodup, hk.total, List.length_flatMap]
  simp [Place.slots, Nat.mul_comm]

end Sound

/-- A cache with both hooks whose objects are those that are constructed. -/
structure Paired (k : Kmem) (live : Finset ℕ) (l : List Place) : Prop where
  sound : Sound k live l
  hooks : k.cache.constructor = true ∧ k.cache.destructor = true
  built : replay hookMark ∅ k.trace = some (slots k.cache l)

namespace Paired
variable {k : Kmem} {live : Finset ℕ} {l : List Place}

/-- Calls of the constructor without calls of the destructor are as many as objects. -/
theorem balance (hk : Paired k live l) :
    constructorCalls k.trace = destructorCalls k.trace + k.cache.totalObjects := by
  have hcard := card_of_replay hk.built
  rw [hk.sound.card_slots, Finset.card_empty] at hcard
  exact hcard

/-- The hooks of slabs that are destroyed. -/
theorem drop (hk : Paired k live l) {ds : List Place} (hds : ds.Sublist l) :
    replay hookMark (slots k.cache l) (ds.flatMap (Place.dropped k.cache)) =
        some (slots k.cache l \ slots k.cache ds) ∧
      ∀ e ∈ ds.flatMap (Place.dropped k.cache), (hookMark e).isOpened = false := by
  have hnd : (ds.flatMap (Place.slots k.cache)).Nodup :=
    hk.sound.slots_nodup.sublist (hds.flatMap _)
  refine ⟨replay_flatMap_closed (fun x hx S hS => ?_) hnd fun p hp => ?_, fun e he => ?_⟩
  · exact replay_dropped hk.hooks.2 ((List.nodup_flatMap.mp hnd).1 x hx) hS
  · exact List.mem_toFinset.mpr ((hds.flatMap _).subset hp)
  · obtain ⟨x, -, hx⟩ := List.mem_flatMap.mp he
    exact not_opened_dropped e hx

theorem destroy (hk : Paired k live l) :
    ∃ k' es, kmemCacheDestroy k = .ok k' ∧ k'.trace = k.trace ++ es ∧
      HooksRun es (slots k.cache l) ∅ ∧ replay hookMark ∅ k'.trace = some ∅ := by
  obtain ⟨k', hr, he⟩ := hk.sound.destroy
  obtain ⟨hreplay, hno⟩ := hk.drop (List.Sublist.refl l)
  rw [sdiff_self] at hreplay
  have hall : replay hookMark (slots k.cache l)
      (l.flatMap (Place.dropped k.cache) ++ [.free k.cp]) = some ∅ :=
    replay_trans hreplay rfl
  refine ⟨k', _, hr, he.trace, counts_of_closing hall fun e hmem => ?_, ?_⟩
  · rcases List.mem_append.mp hmem with hmem | hmem
    · exact hno e hmem
    · exact List.mem_singleton.mp hmem ▸ rfl
  · rw [he.trace]
    exact replay_trans hk.built hall

end Paired

section Step
variable {s t : Run} {l l' : List Place} {q : Request} {es : List Event}

/-- The slabs that stay have the objects that do not go. -/
theorem Sound.slots_filter {k : Kmem} {live : Finset ℕ} (hk : Sound k live l) (f : Place → Bool) :
    slots k.cache (l.filter fun x => !f x) = slots k.cache l \ slots k.cache (l.filter f) := by
  have hperm := List.filter_append_perm f l
  have hnd := (hperm.flatMap_right (Place.slots k.cache)).nodup_iff.mpr hk.slots_nodup
  rw [List.flatMap_append] at hnd
  rw [← slots_perm hperm, slots, slots, slots, List.flatMap_append, toFinset_append_sdiff hnd]

/-- What a request asks of the hooks: either nothing is destructed or nothing is constructed. -/
theorem Served.hooks (hs : Paired s.kmem s.live l) (ht : Sound t.kmem t.live l')
    (hc : t.kmem.cache.params = s.kmem.cache.params) (hlive : q = .shrink → t.live = s.live)
    (h : Served s l q l' es) :
    replay hookMark (slots s.kmem.cache l) es = some (slots t.kmem.cache l') ∧
      ((∀ e ∈ es, (hookMark e).isClosed = false) ∨ ∀ e ∈ es, (hookMark e).isOpened = false) ∧
      s.live ⊆ slots t.kmem.cache l' := by
  have hnd := ht.slots_nodup
  have hmine := ht.live_subset
  have hlots : Place.slots t.kmem.cache = Place.slots s.kmem.cache :=
    show Place.slots t.kmem.cache.params = Place.slots s.kmem.cache.params from hc ▸ rfl
  rw [hlots] at hnd
  rw [slots_congr hc] at hmine ⊢
  cases h with
  | kept hperm hev =>
    rw [slots_perm hperm]
    refine ⟨replay_other hev.hooks, .inl fun e he => ?_, hs.sound.live_subset⟩
    rw [hev.hooks e he]
    rfl
  | grown hgrows hoff hev =>
    rw [List.flatMap_cons] at hnd
    obtain ⟨hx, -, hdis⟩ := List.nodup_append.mp hnd
    rw [slots_cons]
    refine ⟨replay_trans (replay_other hev.hooks) (replay_trans (replay_other hookMark_allocs)
      (replay_constructed hs.hooks.1 _ hx fun p hp hp' => ?_)), .inl fun e he => ?_, ?_⟩
    · exact hdis p hp p (List.mem_toFinset.mp hp') rfl
    · rcases List.mem_append.mp he with he | he
      · rw [hev.hooks e he]
        rfl
      · rcases List.mem_append.mp he with he | he
        · rw [hookMark_allocs e he]
          rfl
        · exact not_closed_constructed e he
    · exact hs.sound.live_subset.trans Finset.subset_union_left
  | shrunk =>
    obtain ⟨hreplay, hno⟩ := hs.drop
      (@List.filter_sublist _ (fun x : Place => decide (positionOf s.kmem.slab x.addr = 0)) l)
    refine ⟨?_, .inr hno, hlive rfl ▸ hmine⟩
    rw [hreplay, ← hs.sound.slots_filter]
    simp only [ne_eq, decide_not]

theorem Request.exec_shrink_live (h : Request.exec s .shrink = .ok t) : t.live = s.live := by
  obtain ⟨k, -, ht⟩ := bind_eq_ok.mp h
  cases ht
  rfl

/-- Every request leaves constructed what the slabs hold. -/
theorem Paired.serve (hs : Paired s.kmem s.live l) (hq : q.Permitted s) :
    ∃ t l' es, q.exec s = .ok t ∧ Paired t.kmem t.live l' ∧ t.kmem.trace = s.kmem.trace ++ es ∧
      HooksRun es (slots s.kmem.cache l) (slots t.kmem.cache l') ∧
      s.live ⊆ slots t.kmem.cache l' := by
  obtain ⟨t, l', es, hexec, ht, he, hserved⟩ := Request.serve hs.sound hq
  obtain ⟨hreplay, hone, hlive⟩ := hserved.hooks hs ht he.params fun hshrink =>
    Request.exec_shrink_live (hshrink ▸ hexec)
  refine ⟨t, l', es, hexec, ⟨ht, ?_, ?_⟩, he.trace, ?_, hlive⟩
  · exact ⟨(congrArg KmemCache.constructor he.params).trans hs.hooks.1,
      (congrArg KmemCache.destructor he.params).trans hs.hooks.2⟩
  · rw [he.trace]
    exact replay_trans hs.built hreplay
  · exact hone.elim (counts_of_opening hreplay) (counts_of_closing hreplay)

end Step

theorem paired_preserved (k₀ : Kmem) :
    (cacheSystem k₀).Preserves fun s => ∃ l, Paired s.kmem s.live l := by
  rintro s q ⟨l, hl⟩ hq
  obtain ⟨t, l', es, hexec, ht, -⟩ := hl.serve hq
  exact ⟨t, hexec, l', ht⟩

/-- Constructors and destructors pair up along every run, and when the cache is destroyed, if the
objects have at least one byte and the size of a slab does not wrap. -/
theorem hooks_pair_up {objects size align cflags : ℕ} {reclaim : Bool} {kmalloc₀ : Kmalloc}
    {k₀ : Kmem} (hG : Grants addressTop kmalloc₀) (hsize : 0 < size) (hobjects : 0 < objects)
    (hfit : sizeofSlab + objects * sizeofCtl + meantSlabobjSize objects size align cflags < 2 ^ 32)
    (hk : kmemCacheCreate kmalloc₀ objects size align true true reclaim cflags = some k₀)
    {qs : List Request} {s : Run} (h : (cacheSystem k₀).Steps ⟨k₀, ∅⟩ qs s) :
    ∃ l, Paired s.kmem s.live l ∧ s.live ⊆ slots s.kmem.cache l ∧
      constructorCalls s.kmem.trace =
        destructorCalls s.kmem.trace + s.kmem.cache.totalObjects ∧
      (∀ q : Request, q.Permitted s → ∃ t l' es, q.exec s = .ok t ∧ Paired t.kmem t.live l' ∧
        t.kmem.trace = s.kmem.trace ++ es ∧
        HooksRun es (slots s.kmem.cache l) (slots t.kmem.cache l') ∧
        s.live ∪ t.live ⊆ slots t.kmem.cache l') ∧
      ∃ k es, kmemCacheDestroy s.kmem = .ok k ∧ k.trace = s.kmem.trace ++ es ∧
        HooksRun es (slots s.kmem.cache l) ∅ ∧
        constructorCalls k.trace = destructorCalls k.trace := by
  obtain ⟨hsound, htrace, -, hcon, hde, -⟩ := sound_of_create hG hsize hobjects hfit hk
  have hinit : Paired k₀ ∅ [] := ⟨hsound, ⟨hcon, hde⟩, by rw [htrace]; rfl⟩
  obtain ⟨l, hl⟩ := h.preserves (paired_preserved k₀) ⟨[], hinit⟩
  refine ⟨l, hl, hl.sound.live_subset, hl.balance, fun q hq => ?_, ?_⟩
  · obtain ⟨t, l', es, hexec, ht, htrace, hrun, hlive⟩ := hl.serve hq
    exact ⟨t, l', es, hexec, ht, htrace, hrun, Finset.union_subset hlive ht.sound.live_subset⟩
  · obtain ⟨k, es, hr, htrace, hrun, hall⟩ := hl.destroy
    exact ⟨k, es, hr, htrace, hrun, card_of_replay hall⟩

/-- An object is handed out and given back, and the slab is shrunk away. -/
theorem hooks_pair_up_oneSlab : ∃ s : Run, constructorCalls s.kmem.trace =
    destructorCalls s.kmem.trace + s.kmem.cache.totalObjects ∧
    s.kmem.cache.totalObjects = 0 ∧ constructorCalls s.kmem.trace = 2 := by
  have h : (cacheSystem smallCache).Steps ⟨smallCache, ∅⟩
      [.alloc bump bump 0, .free 156, .shrink] _ :=
    .cons ⟨bump_grants, bump_grants⟩ rfl (.cons (.inl (by decide)) rfl (.one trivial rfl))
  obtain ⟨l, -, -, hbalance, -⟩ := hooks_pair_up bump_grants (by decide) (by decide) (by decide)
    (rfl : kmemCacheCreate bump 2 8 4 true true false kvRedZone = some smallCache) h
  exact ⟨_, hbalance, rfl, rfl⟩

/-- Objects of no bytes are constructed at one address, and to give one back divides by zero. Four
objects of 2^31 bytes lie at two addresses: the one that is handed out was constructed twice. -/
theorem hooks_do_not_pair_up :
    (∃ s p, (cacheSystem (looseCache 2 0 4 true)).Steps ⟨looseCache 2 0 4 true, ∅⟩
        [.alloc bump bump 0] s ∧ s.live = {p} ∧
      s.kmem.trace.countP (fun e => hookMark e = .opened p) = 2 ∧
      kmemCacheFree s.kmem p = .error .divideError) ∧
    ∃ s p, (cacheSystem (looseCache 4 (2 ^ 31) 0 true)).Steps ⟨looseCache 4 (2 ^ 31) 0 true, ∅⟩
        [.alloc bump bump 0] s ∧ s.live = {p} ∧
      s.kmem.trace.countP (fun e => hookMark e = .opened p) = 2 := by
  constructor
  · exact ⟨_, 152, .one ⟨bump_grants, bump_grants⟩ rfl, by decide, by decide, rfl⟩
  · exact ⟨_, 157, .one ⟨bump_grants, bump_grants⟩ rfl, by decide, by decide⟩

end Racoon.SlabAllocator
