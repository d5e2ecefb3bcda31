import Racoon.Lib.Coalesce
import Racoon.Mm.VmemReject
import Racoon.Mm.VmemSource

/-!
# Releasing undoes allocating

What an allocation cut off melts with what was left of the range. Ranges that
are released one by one melt with each other in every order to the same: the
tiling of their span with all of them free, coalesced.
-/

namespace Racoon.Arenas
open Lib
variable {σ : Type} {v w u : Vmem σ} {G G₁ G₂ : List Region} {r : Region} {x y : Range}
  {l m ranges : List Range} {fl fl' : ℕ → List ℕ} {g : Bt} {a t tmp rsize vmflag : ℕ}
  {addrs addrs' : List ℕ}

/-- The fields of a tag that say what and where it is. -/
def Bt.placed (g : Bt) : ℕ × ℕ × Allocation × Option ℕ × Option ℕ :=
  (g.addr, g.size, g.allocated, g.next, g.prev)

/-- The tags are the same in the same order, and so are the spans, their tables and the members of
the free lists. -/
structure SameArena (v w : Vmem σ) : Prop where
  tags : w.tags = v.tags
  spans : w.spans = v.spans
  tag : ∀ t, (w.tag t).map Bt.placed = (v.tag t).map Bt.placed
  tables : SameTables v w

theorem Represents.sameArena (h : Represents v G fl) (h' : Represents w G fl') (hk : Kept v w) :
    SameArena v w := by
  refine ⟨by rw [h'.skeleton.tags, h.skeleton.tags], by rw [h'.skeleton.spans, h.skeleton.spans],
    fun t => ?_, h.sameTables h' hk⟩
  by_cases ht : t ∈ tagsOf G
  · obtain ⟨x, hx, rfl⟩ := List.mem_map.mp ht
    obtain ⟨g, hg, haddr, hsize, hstate⟩ := h.skeleton.get hx
    obtain ⟨g', hg', haddr', hsize', hstate'⟩ := h'.skeleton.get hx
    obtain ⟨G₁, G₂, r, l, m, rfl, hr⟩ := exists_place hx
    obtain ⟨hnext, hprev⟩ := h.skeleton.links hr hg
    obtain ⟨hnext', hprev'⟩ := h'.skeleton.links hr hg'
    rw [hg, hg', Option.map_some, Option.map_some, Bt.placed, Bt.placed, haddr, haddr', hsize,
      hsize', hstate, hstate', hnext, hnext', hprev, hprev']
  · have hnone : ∀ {u : Vmem σ} {fl₁ : ℕ → List ℕ}, Represents u G fl₁ → u.tag t = none :=
      fun hu => Option.eq_none_iff_forall_ne_some.mpr fun g hg => ht (hu.skeleton.only t g hg)
    rw [hnone h, hnone h']

/-- A range released right after its allocation leaves the arena as it was. -/
theorem Represents.free_alloc (h : Represents v G fl) (hsource : v.source = none)
    (hround : RoundsUp v.quantum rsize) (htmp : v.tag tmp = none)
    (heq : vmemAlloc (some tmp) v rsize vmflag = .ok (w, a)) (ha : a ≠ 0 ∨ ¬ Live v 0) :
    ∃ u, vmemFree w a = .ok (u, a) ∧ SameArena v u := by
  have hrefused : ¬ Live v 0 → ∃ u, vmemFree v 0 = .ok (u, 0) ∧ SameArena v u := fun hdead =>
    ⟨v, (vmemFree_refused_iff h hdead).mpr fun t g _ _ hc => absurd hc.1 (Nat.not_lt_zero _),
      h.sameArena h ⟨rfl, rfl, rfl, rfl, rfl, rfl⟩⟩
  rcases Nat.eq_zero_or_pos rsize with rfl | hpos
  · rw [vmemAlloc, if_pos rfl] at heq
    cases heq
    exact hrefused (ha.resolve_left (· rfl))
  obtain ⟨w', a', heq', hkept, hcases⟩ := h.vmemAlloc_eq hsource hpos hround htmp vmflag
  cases heq.symm.trans heq'
  rcases hcases with ⟨rfl, rfl, -⟩ | ⟨G₁, r, G₂, l, x, m, fl', rfl, hr, hchosen, rfl, hw⟩
  · exact hrefused (ha.resolve_left (· rfl))
  obtain ⟨-, g, hg, ⟨hgfree, hfit⟩, -⟩ := hchosen
  have hx : x ∈ rangesOf (G₁ ++ r :: G₂) := mem_rangesOf.mpr ⟨r, by simp, by simp [hr]⟩
  obtain ⟨g', hg', -, hsize, hstate⟩ := h.skeleton.get hx
  cases hg'.symm.trans hg
  obtain ⟨haddr, -, -⟩ := @cutOff_bounds x (roundUp v.quantum rsize) tmp
  obtain ⟨u, ranges, fl'', hfree, hkept', hreleased, hu⟩ := hw.vmemFree_eq
    (hkept.source.trans hsource) (l := l ++ remainder x (roundUp v.quantum rsize)) (m := m)
    (x := { cutOff tmp x (roundUp v.quantum rsize) with state := .allocated })
    (by simp [allocatedIn]) rfl
  have hranges := releasedIn_allocated (by omega) (hstate.symm.trans hgfree)
    (hr ▸ h.separated r (by simp)) hreleased
  subst hranges
  have hback : { r with ranges := l ++ [x] ++ m } = r := by
    have hlist : l ++ [x] ++ m = r.ranges := by simp [hr]
    rw [hlist]
  refine ⟨u, ?_, h.sameArena (hback ▸ hu) (hkept.trans hkept')⟩
  rw [← haddr]
  exact hfree

/-! ### Any order -/

/-- `vmem_free` for each of the addresses, and its answers. -/
def freeAll (v : Vmem σ) : List ℕ → Outcome (Vmem σ × List ℕ)
  | [] => .ok (v, [])
  | a :: addrs => do
    let (v, b) ← vmemFree v a
    let (v, answers) ← freeAll v addrs
    .ok (v, b :: answers)

/-- Two free neighbours become one. -/
def Range.join (x y : Range) : Range := { x with size := x.size + y.size }

def released (addrs : List ℕ) (x : Range) : Range :=
  if x.addr ∈ addrs then { x with state := .free } else x

def melted (ranges : List Range) : List Range :=
  coalesce (fun x => x.state = .free) Range.join ranges

/-- The arena when the ranges at the addresses are free. -/
def settled (addrs : List ℕ) (G : List Region) : List Region :=
  G.map fun r => { r with ranges := melted (r.ranges.map (released addrs)) }

theorem join_free (x y : Range) (hx : x.state = .free) (_ : y.state = .free) :
    (x.join y).state = .free := hx

theorem join_assoc (x y z : Range) (_ : x.state = .free) (_ : y.state = .free)
    (_ : z.state = .free) : x.join (y.join z) = (x.join y).join z := by
  simp only [Range.join, Nat.add_assoc]

theorem released_free (addrs : List ℕ) (x : Range) (hx : x.state = .free) :
    released addrs x = x := by
  unfold released
  split_ifs
  · rw [← hx]
  · rfl

theorem released_append (x : Range) :
    released addrs' (released addrs x) = released (addrs ++ addrs') x := by
  by_cases hx : x.addr ∈ addrs
  · have hfree : released addrs x = { x with state := .free } := if_pos hx
    rw [hfree, released_free addrs' _ rfl, released, if_pos (List.mem_append_left _ hx)]
  · rw [show released addrs x = x from if_neg hx]
    simp only [released, List.mem_append, hx, false_or]

theorem settled_settled : settled addrs' (settled addrs G) = settled (addrs ++ addrs') G := by
  have hmap : released addrs' ∘ released addrs = released (addrs ++ addrs') :=
    funext released_append
  simp only [settled, List.map_map, Function.comp_def]
  refine List.map_congr_left fun r _ => ?_
  rw [melted, melted, coalesce_map_coalesce join_free join_assoc (released_free addrs'),
    List.map_map, hmap, melted]

theorem settled_congr (h : ∀ a, a ∈ addrs ↔ a ∈ addrs') : settled addrs G = settled addrs' G := by
  have hsame : released addrs = released addrs' := funext fun x => by
    simp only [released, h]
  rw [settled, settled, hsame]

/-- Nothing is released, and nothing melts. -/
theorem melted_released (hsep : l.IsChain Separate) (hout : ∀ y ∈ l, y.addr ∉ addrs) :
    melted (l.map (released addrs)) = l := by
  have hsame : l.map (released addrs) = l :=
    (List.map_congr_left fun y hy => if_neg (hout y hy)).trans (List.map_id l)
  rw [hsame]
  exact coalesce_eq_self hsep

theorem settled_nil (h : Separated G) : settled [] G = G := by
  refine (List.map_congr_left fun r hr => ?_).trans (List.map_id G)
  rw [melted_released (h r hr) fun _ _ => List.not_mem_nil]
  rfl

theorem MeltedRight.melt_eq {m' : List Range} (h : MeltedRight x m y m') (hx : x.state = .free) :
    melt (fun x => x.state = .free) Range.join x m = y :: m' := by
  rcases h with ⟨rfl, rfl, hhead⟩ | ⟨z, rfl, hz, rfl⟩
  · exact melt_of_head fun z hz hc => hhead z hz hc.2
  · exact melt_cons hx hz

/-- The range that is released melts with its neighbours as the whole span does. -/
theorem ReleasedIn.eq_melted (h : ReleasedIn l x m ranges) (hl : l.IsChain Separate)
    (hm : m.IsChain Separate) : ranges = melted (l ++ { x with state := .free } :: m) := by
  obtain ⟨l', y, y', m', hleft, hright, rfl⟩ := h
  have hright' := hright.melt_eq (hleft.state rfl)
  obtain ⟨hl', hlast⟩ := hleft.chain hl
  have hfold : l.foldr (melt (fun x => x.state = .free) Range.join)
      (melt (fun x => x.state = .free) Range.join { x with state := .free } m) =
        l'.foldr (melt (fun x => x.state = .free) Range.join)
          (melt (fun x => x.state = .free) Range.join y m) := by
    rcases hleft with ⟨rfl, rfl, -⟩ | ⟨z, rfl, hz, rfl⟩
    · rfl
    · rw [List.foldr_append, List.foldr_cons, List.foldr_nil,
        melt_melt join_free join_assoc hz rfl, Range.join]
  rw [melted, coalesce_append, coalesce_cons, coalesce_eq_self hm, hfold, hright',
    foldr_melt hl' fun z hz _ _ hc => hlast z hz hc.1]
  simp

namespace Represents

theorem live_iff (h : Represents v G fl) :
    Live v a ↔ ∃ x ∈ rangesOf G, x.state = .allocated ∧ x.addr = a := by
  constructor
  · rintro ⟨t, g, hg, hlive, rfl⟩
    obtain ⟨x, hx, rfl⟩ := List.mem_map.mp (h.skeleton.only t g hg)
    obtain ⟨g', hg', haddr, -, hstate⟩ := h.skeleton.get hx
    cases hg'.symm.trans hg
    exact ⟨x, hx, hstate.symm.trans hlive, haddr.symm⟩
  · rintro ⟨x, hx, hstate, rfl⟩
    obtain ⟨g, hg, haddr, -, hgstate⟩ := h.skeleton.get hx
    exact ⟨x.tag, g, hg, hgstate.trans hstate, haddr⟩

theorem vmemFree_settled (h : Represents v G fl) (hsource : v.source = none) (hlive : Live v a) :
    ∃ w fl', vmemFree v a = .ok (w, a) ∧ Kept v w ∧ Represents w (settled [a] G) fl' := by
  obtain ⟨x, hx, hstate, rfl⟩ := h.live_iff.mp hlive
  obtain ⟨G₁, G₂, r, l, m, rfl, hr⟩ := exists_place hx
  obtain ⟨w, ranges, fl', heq, hkept, hreleased, hw⟩ := h.vmemFree_eq hsource hr hstate
  refine ⟨w, fl', heq, hkept, ?_⟩
  have hout : ∀ y : Range, (y ∈ rangesOf G₁ ∨ (y ∈ l ∨ y ∈ m) ∨ y ∈ rangesOf G₂) →
      y.addr ∉ [x.addr] := fun y hy hmem => by
    obtain ⟨hyG, hne⟩ := h.skeleton.side hr hy
    exact hne (congrArg Range.tag
      (h.skeleton.layout.addr_inj hyG hx (List.mem_singleton.mp hmem)))
  have hother : ∀ s : Region, s ∈ G₁ ∨ s ∈ G₂ →
      { s with ranges := melted (s.ranges.map (released [x.addr])) } = s := fun s hs => by
    have hsG : s ∈ G₁ ++ r :: G₂ := by
      rcases hs with hs | hs <;> simp [hs]
    rw [melted_released (h.separated s hsG) fun y hy => hout y (by
      rcases hs with hs | hs
      · exact .inl (mem_rangesOf.mpr ⟨s, hs, hy⟩)
      · exact .inr (.inr (mem_rangesOf.mpr ⟨s, hs, hy⟩)))]
  have hseparated := h.separated r (by simp)
  rw [hr] at hseparated
  obtain ⟨hl, hm, -⟩ := List.isChain_append.mp hseparated
  have hsame : ∀ k : List Range, (∀ y ∈ k, y ∈ l ∨ y ∈ m) → k.map (released [x.addr]) = k :=
    fun k hk => (List.map_congr_left fun y hy => if_neg (hout y (.inr (.inl (hk y hy))))).trans
      (List.map_id k)
  have hmap : r.ranges.map (released [x.addr]) = l ++ { x with state := .free } :: m := by
    rw [hr, List.map_append, List.map_cons, hsame l fun _ => .inl, hsame m fun _ => .inr, released,
      if_pos (List.mem_singleton_self _)]
  have hG : settled [x.addr] (G₁ ++ r :: G₂) = G₁ ++ { r with ranges := ranges } :: G₂ := by
    have hkeep : ∀ H : List Region, (∀ s ∈ H, s ∈ G₁ ∨ s ∈ G₂) → settled [x.addr] H = H :=
      fun H hH => (List.map_congr_left fun s hs => hother s (hH s hs)).trans (List.map_id H)
    have hsplit : settled [x.addr] (G₁ ++ r :: G₂) = settled [x.addr] G₁ ++
        { r with ranges := melted (r.ranges.map (released [x.addr])) } :: settled [x.addr] G₂ := by
      simp [settled]
    rw [hsplit, hkeep G₁ fun _ => .inl, hkeep G₂ fun _ => .inr, hmap,
      hreleased.eq_melted hl hm.tail]
  exact hG ▸ hw

/-- The other live ranges are still there. -/
theorem live_settled (h : Represents v G fl) (h' : Represents w (settled [a] G) fl') {b : ℕ}
    (hb : Live v b) (hne : b ≠ a) : Live w b := by
  obtain ⟨x, hx, hstate, rfl⟩ := h.live_iff.mp hb
  obtain ⟨r, hr, hxr⟩ := mem_rangesOf.mp hx
  have hkept : released [a] x = x := if_neg fun hc => hne (List.mem_singleton.mp hc)
  refine h'.live_iff.mpr ⟨x, mem_rangesOf.mpr ⟨_, List.mem_map_of_mem hr, ?_⟩, hstate, rfl⟩
  refine (mem_coalesce join_free (by simp [hstate])).mpr ?_
  rw [← hkept]
  exact List.mem_map_of_mem hxr

/-- Live ranges are released one by one. -/
theorem freeAll_eq (h : Represents v G fl) (hsource : v.source = none) (hnodup : addrs.Nodup)
    (hlive : ∀ a ∈ addrs, Live v a) :
    ∃ w fl', freeAll v addrs = .ok (w, addrs) ∧ Kept v w ∧
      Represents w (settled addrs G) fl' := by
  induction addrs generalizing v G fl with
  | nil =>
    exact ⟨v, fl, rfl, ⟨rfl, rfl, rfl, rfl, rfl, rfl⟩, (settled_nil h.separated).symm ▸ h⟩
  | cons a addrs ih =>
    obtain ⟨hnot, hnodup⟩ := List.nodup_cons.mp hnodup
    obtain ⟨w, fl₁, hfree, hkept, hw⟩ := h.vmemFree_settled hsource (hlive a (by simp))
    have hrest : ∀ b ∈ addrs, Live w b := fun b hb =>
      h.live_settled hw (hlive b (by simp [hb])) fun e => hnot (e ▸ hb)
    obtain ⟨u, fl₂, hall, hkept', hu⟩ := ih hw (hkept.source.trans hsource) hnodup hrest
    rw [settled_settled] at hu
    refine ⟨u, fl₂, ?_, hkept.trans hkept', hu⟩
    rw [freeAll, hfree, ok_bind]
    dsimp only
    rw [hall, ok_bind]

end Represents

/-- To release right away what an allocation returned restores the arena, and to release any live
ranges leads to the same arena in every order. -/
theorem vmemFree_undoes (h : Represents v G fl) (hsource : v.source = none) :
    (∀ tmp rsize vmflag w a, v.tag tmp = none → RoundsUp v.quantum rsize →
      vmemAlloc (some tmp) v rsize vmflag = .ok (w, a) → (a ≠ 0 ∨ ¬ Live v 0) →
        ∃ u, vmemFree w a = .ok (u, a) ∧ SameArena v u) ∧
    ∀ addrs addrs', addrs.Nodup → (∀ a ∈ addrs, Live v a) → addrs.Perm addrs' →
      ∃ w w', freeAll v addrs = .ok (w, addrs) ∧ freeAll v addrs' = .ok (w', addrs') ∧
        SameArena w w' := by
  refine ⟨fun tmp rsize vmflag w a htmp hround heq ha => h.free_alloc hsource hround htmp heq ha,
    fun addrs addrs' hnodup hlive hperm => ?_⟩
  obtain ⟨w, fl₁, heq, hkept, hw⟩ := h.freeAll_eq hsource hnodup hlive
  obtain ⟨w', fl₂, heq', hkept', hw'⟩ := h.freeAll_eq hsource (hperm.nodup_iff.mp hnodup)
    fun a ha => hlive a (hperm.mem_iff.mpr ha)
  rw [← settled_congr fun a => hperm.mem_iff] at hw'
  exact ⟨w, w', heq, heq', hw.sameArena hw' ⟨hkept'.1.trans hkept.1.symm,
    hkept'.2.trans hkept.2.symm, hkept'.3.trans hkept.3.symm, hkept'.4.trans hkept.4.symm,
    hkept'.5.trans hkept.5.symm, hkept'.6.trans hkept.6.symm⟩⟩

theorem vmemFree_undoes_small :
    (∃ u, vmemFree allocatedRun.arena 0x80001000 = .ok (u, 0x80001000) ∧
      SameArena addedRun.arena u) ∧
    ∃ w w', freeAll allocatedRun.arena [0x80001000] = .ok (w, [0x80001000]) ∧
      freeAll allocatedRun.arena [0x80001000] = .ok (w', [0x80001000]) ∧ SameArena w w' := by
  obtain ⟨hsource, G, fl, hG, -⟩ := addedRun_represents
  obtain ⟨G', fl', hG'⟩ := allocatedRun_represents
  have halloc : ArenaCall.step addedRun (.alloc 2 100 0) = .ok allocatedRun :=
    step_after (by decide)
  obtain ⟨⟨w, a⟩, heq, hw⟩ := bind_eq_ok.mp halloc
  have harena : w = allocatedRun.arena := congrArg ArenaRun.arena (Except.ok.inj hw)
  have ha : (vmemAlloc (some 2) addedRun.arena 100 0).toOption.map Prod.snd = some 0x80001000 := by
    decide
  rw [heq] at ha
  obtain rfl : a = 0x80001000 := Option.some.inj ha
  subst harena
  exact ⟨(vmemFree_undoes hG hsource).1 2 100 0 _ _ rfl
      (fun _ => (by decide : 100 + (4096 - 100 % 4096) < 2 ^ 32)) heq (.inl (by decide)),
    (vmemFree_undoes hG' rfl).2 [0x80001000] [0x80001000] (by simp)
      (fun a ha => allocatedRun_live.mpr (List.mem_singleton.mp ha)) (.refl _)⟩

end Racoon.Arenas
