import Racoon.Mm.Marks

/-!
# Releasing

`vmem_free` takes the range from the table of its span and melts it with its
free neighbours, so that again no two free neighbours are left.
-/

namespace Racoon.Arenas
open Lib
variable {σ : Type} {v : Vmem σ} {G G₁ G₂ : List Region} {r : Region} {x y z : Range}
  {l l' m m' : List Range} {fl : ℕ → List ℕ} {g : Bt} {sp : Span}

def MeltedLeft (l : List Range) (x : Range) (l' : List Range) (y : Range) : Prop :=
  (l' = l ∧ y = x ∧ ∀ z ∈ l.getLast?, z.state ≠ .free) ∨
    ∃ z, l = l' ++ [z] ∧ z.state = .free ∧ y = { z with size := z.size + x.size }

def MeltedRight (x : Range) (m : List Range) (y : Range) (m' : List Range) : Prop :=
  (m' = m ∧ y = x ∧ ∀ z ∈ m.head?, z.state ≠ .free) ∨
    ∃ z, m = z :: m' ∧ z.state = .free ∧ y = { x with size := x.size + z.size }

theorem MeltedLeft.chain (h : MeltedLeft l x l' y) (hl : l.IsChain Separate) :
    l'.IsChain Separate ∧ ∀ z ∈ l'.getLast?, z.state ≠ .free := by
  rcases h with ⟨rfl, -, hlast⟩ | ⟨z, rfl, hz, -⟩
  · exact ⟨hl, hlast⟩
  · obtain ⟨hl, -, hends⟩ := List.isChain_append.mp hl
    exact ⟨hl, fun w hw hfree => hends w hw z (by simp) ⟨hfree, hz⟩⟩

theorem MeltedRight.chain (h : MeltedRight x m y m') (hm : m.IsChain Separate) :
    m'.IsChain Separate ∧ ∀ z ∈ m'.head?, z.state ≠ .free := by
  rcases h with ⟨rfl, -, hhead⟩ | ⟨z, rfl, hz, -⟩
  · exact ⟨hm, hhead⟩
  · obtain ⟨-, hm, hends⟩ := List.isChain_append.mp (show ([z] ++ m').IsChain Separate from hm)
    exact ⟨hm, fun w hw hfree => hends z (by simp) w hw ⟨hz, hfree⟩⟩

theorem MeltedLeft.state (h : MeltedLeft l x l' y) (hx : x.state = .free) : y.state = .free := by
  rcases h with ⟨-, rfl, -⟩ | ⟨z, -, hz, rfl⟩
  · exact hx
  · exact hz

theorem MeltedRight.state (h : MeltedRight x m y m') : y.state = x.state ∧ y.tag = x.tag := by
  rcases h with ⟨-, rfl, -⟩ | ⟨z, -, -, rfl⟩
  · exact ⟨rfl, rfl⟩
  · exact ⟨rfl, rfl⟩

namespace Tracks

theorem congr_except {except except' : List ℕ} (h : Tracks v G fl except)
    (he : ∀ t, t ∈ except ↔ t ∈ except') : Tracks v G fl except' := by
  refine ⟨h.skeleton, h.hash, h.chains, fun c t => ?_⟩
  rw [h.cached c t, he t]

/-- Two free neighbours, both in no free list, become one. -/
theorem melt_eq {except : List ℕ} (h : Tracks v (G₁ ++ r :: G₂) fl except)
    (he : ∀ t, t ∈ except ↔ t ∈ [x.tag, z.tag]) (hr : r.ranges = l ++ z :: x :: m)
    (hz : z.state = .free) (hx : x.state = .free) (hg : v.tag x.tag = some g) :
    ∃ w, (do
        let v ← v.setTag (some z.tag) fun p =>
          { p with size := add32 p.size g.size, next := g.next }
        let v ← v.setTagIf g.next fun n => { n with prev := some z.tag }
        .ok (v.freeTag x.tag)) = Except.ok w ∧ Kept v w ∧
      Tracks w (G₁ ++ { r with ranges := l ++ [{ z with size := z.size + x.size }] ++ m } :: G₂) fl
        [z.tag] := by
  obtain ⟨w, heq, hskel, hlists⟩ := h.skeleton.melt_eq hr hg
  refine ⟨w, heq, hlists.toKept, (cons_iff fun y hy hyx => ?_).mp
    ((h.congr_except he).edit hskel hlists (fun _ ht => ht) (fun _ ht => .inl ht) fun y hy => ?_)⟩
  · -- the tag of the right neighbour was freed
    obtain ⟨g', hg', -⟩ := hskel.get hy
    rw [mem_rangesOf_mid rfl] at hy
    simp only [List.mem_append, List.mem_singleton] at hy
    have hr' : r.ranges = (l ++ [z]) ++ x :: m := by simp [hr]
    have hzx := (h.skeleton.side hr' (y := z) (by simp)).2
    rcases hy with hy | ((hy | rfl) | hy) | hy
    · exact absurd hyx (h.skeleton.side hr' (.inl hy)).2
    · exact absurd hyx (h.skeleton.side hr' (.inr (.inl (.inl (by simp [hy]))))).2
    · exact absurd hyx hzx
    · exact absurd hyx (h.skeleton.side hr' (.inr (.inl (.inr hy)))).2
    · exact absurd hyx (h.skeleton.side hr' (.inr (.inr hy))).2
  · rw [hr]
    simp only [List.mem_append, List.mem_cons, List.not_mem_nil, or_false] at hy ⊢
    constructor
    · rintro ((hy' | rfl) | hy')
      · exact .inl hy'
      · simp [hz] at hy
      · exact .inr (.inr (.inr hy'))
    · rintro (hy' | rfl | rfl | hy')
      · exact .inl (.inl hy')
      · simp [hz] at hy
      · simp [hx] at hy
      · exact .inr hy'

theorem mergeLeft_eq (h : Tracks v (G₁ ++ r :: G₂) fl [x.tag]) (hr : r.ranges = l ++ x :: m)
    (hfree : x.state = .free) (hsp : sp.addr = r.addr) :
    ∃ w l' y fl', mergeLeft v sp x.tag = .ok (w, y.tag) ∧ Kept v w ∧ MeltedLeft l x l' y ∧
      Tracks w (G₁ ++ { r with ranges := l' ++ [y] ++ m } :: G₂) fl' [y.tag] := by
  obtain ⟨g, hg, -⟩ := h.skeleton.get (mem_rangesOf.mpr ⟨r, by simp, by simp [hr]⟩ :
    x ∈ rangesOf (G₁ ++ r :: G₂))
  have hprev := (h.skeleton.links hr hg).2
  have hstay : r = { r with ranges := l ++ [x] ++ m } := by
    cases r
    simp_all
  rw [mergeLeft, load_some hg, ok_bind, hprev]
  rcases l.eq_nil_or_concat with rfl | ⟨l, z, rfl⟩
  · -- the left neighbour, if any, is in another span
    have hdone : MeltedLeft [] x [] x := .inl ⟨rfl, rfl, by simp⟩
    rw [List.map_nil, List.append_nil]
    cases hlast : (tagsOf G₁).getLast? with
    | none => exact ⟨v, [], x, fl, rfl, ⟨rfl, rfl, rfl, rfl, rfl, rfl⟩, hdone, hstay ▸ h⟩
    | some p =>
      obtain ⟨z, hz, rfl⟩ := List.mem_map.mp (List.mem_of_getLast? hlast)
      have hzG := (@mem_rangesOf_mid _ G₂ _ _ _ hr).mpr (.inl hz)
      obtain ⟨gz, hgz, haddr, -⟩ := h.skeleton.get hzG
      have hbefore := h.skeleton.layout.before hz
      have hpos := (h.skeleton.layout.bounds hzG).1
      dsimp only
      rw [load_some hgz, ok_bind, if_neg fun hc => by omega]
      exact ⟨v, [], x, fl, rfl, ⟨rfl, rfl, rfl, rfl, rfl, rfl⟩, hdone, hstay ▸ h⟩
  · rw [List.concat_eq_append] at hr hstay ⊢
    have hr' : r.ranges = l ++ z :: x :: m := by simpa using hr
    have hzr : z ∈ r.ranges := by simp [hr]
    have hz : z ∈ rangesOf (G₁ ++ r :: G₂) := mem_rangesOf.mpr ⟨r, by simp, hzr⟩
    obtain ⟨gz, hgz, haddr, -, hstate⟩ := h.skeleton.get hz
    have hzx := (h.skeleton.side hr (y := z) (by simp)).2
    have hlo := ((h.skeleton.layout.region r (by simp)).bounds hzr).1
    have hlast : (tagsOf G₁ ++ (l ++ [z]).map Range.tag).getLast? = some z.tag := by simp
    rw [hlast]
    dsimp only
    rw [load_some hgz, ok_bind]
    by_cases hzfree : z.state = .free
    · rw [if_pos ⟨hstate.trans hzfree, by omega⟩]
      obtain ⟨cache, next, prev, fl', huncache, h₁⟩ := h.uncache_eq hz hzfree (by simpa using hzx)
      obtain ⟨w, hmelt, hkept, hw⟩ := h₁.melt_eq (by simp [or_comm]) hr' hzfree hfree
        (relink_tag hg)
      refine ⟨w, l, { z with size := z.size + x.size }, fl', ?_, (Kept.relink ..).trans hkept,
        .inr ⟨z, rfl, hzfree, rfl⟩, hw⟩
      rw [huncache, ok_bind]
      obtain ⟨w₁, hset₁, hmelt⟩ := bind_eq_ok.mp hmelt
      obtain ⟨w₂, hset₂, hmelt⟩ := bind_eq_ok.mp hmelt
      refine bind_eq_ok.mpr ⟨w₁, hset₁, bind_eq_ok.mpr ⟨w₂, hset₂, ?_⟩⟩
      cases hmelt
      rfl
    · rw [if_neg fun hc => hzfree (hstate.symm.trans hc.1)]
      refine ⟨v, l ++ [z], x, fl, rfl, ⟨rfl, rfl, rfl, rfl, rfl, rfl⟩,
        .inl ⟨rfl, rfl, fun w hw => ?_⟩, hstay ▸ h⟩
      obtain rfl : z = w := by simpa using hw
      exact hzfree

theorem mergeRight_eq (h : Tracks v (G₁ ++ r :: G₂) fl [x.tag]) (hr : r.ranges = l ++ x :: m)
    (hfree : x.state = .free) (hsp : add32 sp.addr sp.size = r.addr + r.size) :
    ∃ w y m' fl', mergeRight v sp x.tag = .ok w ∧ Kept v w ∧ MeltedRight x m y m' ∧
      Tracks w (G₁ ++ { r with ranges := l ++ [y] ++ m' } :: G₂) fl' [y.tag] := by
  obtain ⟨g, hg, -, hgsize, -⟩ := h.skeleton.get (mem_rangesOf.mpr ⟨r, by simp, by simp [hr]⟩ :
    x ∈ rangesOf (G₁ ++ r :: G₂))
  have hnext := (h.skeleton.links hr hg).1
  have hstay : r = { r with ranges := l ++ [x] ++ m } := by
    cases r
    simp_all
  rw [mergeRight, load_some hg, ok_bind, hnext]
  cases m with
  | nil =>
    -- the right neighbour, if any, is in another span
    have hdone : MeltedRight x [] x [] := .inl ⟨rfl, rfl, by simp⟩
    rw [List.map_nil, List.nil_append]
    cases hhead : (tagsOf G₂).head? with
    | none => exact ⟨v, x, [], fl, rfl, ⟨rfl, rfl, rfl, rfl, rfl, rfl⟩, hdone, hstay ▸ h⟩
    | some n =>
      obtain ⟨z, hz, rfl⟩ := List.mem_map.mp (List.mem_of_mem_head? hhead)
      have hzG := (@mem_rangesOf_mid G₁ _ _ _ _ hr).mpr (.inr (.inr hz))
      obtain ⟨gz, hgz, haddr, -⟩ := h.skeleton.get hzG
      have hbehind := h.skeleton.layout.behind hz
      dsimp only
      rw [load_some hgz, ok_bind, if_neg fun hc => by omega]
      exact ⟨v, x, [], fl, rfl, ⟨rfl, rfl, rfl, rfl, rfl, rfl⟩, hdone, hstay ▸ h⟩
  | cons z m =>
    have hzr : z ∈ r.ranges := by simp [hr]
    have hz : z ∈ rangesOf (G₁ ++ r :: G₂) := mem_rangesOf.mpr ⟨r, by simp, hzr⟩
    obtain ⟨gz, hgz, haddr, -, hstate⟩ := h.skeleton.get hz
    have hzx := (h.skeleton.side hr (y := z) (by simp)).2
    have hbounds := (h.skeleton.layout.region r (by simp)).bounds hzr
    rw [List.map_cons, List.cons_append, List.head?_cons]
    dsimp only
    rw [load_some hgz, ok_bind]
    by_cases hzfree : z.state = .free
    · rw [if_pos ⟨hstate.trans hzfree, by omega⟩]
      obtain ⟨cache, next, prev, fl', huncache, h₁⟩ := h.uncache_eq hz hzfree (by simpa using hzx)
      obtain ⟨w, hmelt, hkept, hw⟩ := h₁.melt_eq (by simp) hr hfree hzfree (relink_tag hgz)
      refine ⟨w, { x with size := x.size + z.size }, m, fl', ?_, (Kept.relink ..).trans hkept,
        .inr ⟨z, rfl, hzfree, rfl⟩, hw⟩
      rw [huncache, ok_bind]
      exact hmelt
    · rw [if_neg fun hc => hzfree (hstate.symm.trans hc.1)]
      refine ⟨v, x, z :: m, fl, rfl, ⟨rfl, rfl, rfl, rfl, rfl, rfl⟩,
        .inl ⟨rfl, rfl, fun w hw => ?_⟩, hstay ▸ h⟩
      obtain rfl : z = w := by simpa using hw
      exact hzfree

end Tracks

/-- The ranges of the region after `x` was released. -/
def ReleasedIn (l : List Range) (x : Range) (m ranges : List Range) : Prop :=
  ∃ l' y y' m', MeltedLeft l { x with state := .free } l' y ∧ MeltedRight y m y' m' ∧
    ranges = l' ++ [y'] ++ m'

/-- The arena below may change. -/
theorem Represents.setSource (h : Represents v G fl) (source : Option σ) :
    Represents { v with source := source } G fl :=
  ⟨⟨⟨h.skeleton.quantum, h.skeleton.layout, h.skeleton.spans, h.skeleton.spanLinks,
    h.skeleton.spanHeld, h.skeleton.tags, h.skeleton.linked, h.skeleton.held, h.skeleton.only⟩,
    h.hash, ⟨h.chains.first, h.chains.outside, h.chains.linked, h.chains.nodup, h.chains.apart,
      h.chains.alive, h.chains.loose⟩, h.cached⟩, h.separated⟩

/-- A live range is released, once the arena below has taken back what backed it. -/
theorem Represents.vmemFree_release (h : Represents v (G₁ ++ r :: G₂) fl) {source : Option σ}
    (hrelease : ∀ g, v.tag x.tag = some g → releaseSource v g = .ok { v with source := source })
    (hr : r.ranges = l ++ x :: m) (hstate : x.state = .allocated) :
    ∃ w ranges fl', vmemFree v x.addr = .ok (w, x.addr) ∧ Kept { v with source := source } w ∧
      ReleasedIn l x m ranges ∧ Represents w (G₁ ++ { r with ranges := ranges } :: G₂) fl' := by
  have hrG : r ∈ G₁ ++ r :: G₂ := by simp
  have hxr : x ∈ r.ranges := by simp [hr]
  have hx : x ∈ rangesOf (G₁ ++ r :: G₂) := mem_rangesOf.mpr ⟨r, hrG, hxr⟩
  have hok := h.skeleton.layout.region r hrG
  obtain ⟨hlo, hpos, hhi, -⟩ := hok.bounds hxr
  obtain ⟨g, hg, -, -, hgstate⟩ := h.skeleton.get hx
  obtain ⟨sp, hsp, hshape⟩ := h.skeleton.spanHeld r hrG
  have hspan : vmemGetspan v x.addr = .ok (some r.span) :=
    h.skeleton.getspan_eq hrG ⟨hlo, by omega⟩
  have hlt := hok.slot_lt hxr
  have hread : readHash sp (slotOf v.quantum r x) = .ok (some x.tag) := by
    rw [h.skeleton.readHash_eq hrG hsp hlt, h.entry_eq hrG hsp hxr, entryOf, if_pos hstate]
  have hsource := h.setSource source
  have hwrite := hsource.skeleton.writeHash_eq hrG hsp hlt none
  have hexcept : Tracks { v with source := source } (G₁ ++ r :: G₂) fl [x.tag] :=
    (Tracks.cons_iff fun y hy hyx => by
      rw [h.skeleton.tag_inj hy hx hyx, hstate]
      simp).mpr hsource.toTracks
  have hmark := hexcept.mark hr hg hsp (by simp) .free
  have hspEnd : add32 sp.addr sp.size = r.addr + r.size := by
    rw [hshape.addr, hshape.size]
    exact add32_of_lt hok.top
  obtain ⟨w₁, l', y, fl₁, hleft, hkept₁, hmelted₁, h₁⟩ := hmark.mergeLeft_eq
    (x := { x with state := .free }) (l := l) (m := m) (by simp) rfl hshape.addr
  have hyfree := hmelted₁.state rfl
  obtain ⟨w₂, y', m', fl₂, hright, hkept₂, hmelted₂, h₂⟩ := h₁.mergeRight_eq (x := y) (l := l')
    (m := m) (by simp) hyfree hspEnd
  obtain ⟨hstate', htag⟩ := hmelted₂.state
  have hy' : y' ∈ rangesOf (G₁ ++ { r with ranges := l' ++ [y'] ++ m' } :: G₂) :=
    (mem_rangesOf_mid rfl).mpr (.inr (.inl (by simp)))
  obtain ⟨cache, next, prev, fl₃, hencache, h₃⟩ :=
    h₂.encache_eq hy' (hstate'.trans hyfree) (by simp)
  have hseparated := h.separated r hrG
  rw [hr] at hseparated
  obtain ⟨hl, hm, -⟩ := List.isChain_append.mp hseparated
  obtain ⟨hl', hlast⟩ := hmelted₁.chain hl
  obtain ⟨hm', hhead⟩ := hmelted₂.chain hm.tail
  have hkept : Kept { v with source := source } w₁ :=
    ⟨hkept₁.1, hkept₁.2, hkept₁.3, hkept₁.4, hkept₁.5, hkept₁.6⟩
  refine ⟨w₂.relink cache next prev, _, fl₃, ?_, (hkept.trans hkept₂).trans (Kept.relink ..),
    ⟨l', y, y', m', hmelted₁, hmelted₂, rfl⟩, h₃, ?_⟩
  · rw [vmemFree, hspan, ok_bind]
    dsimp only
    rw [load_some hsp, ok_bind, h.skeleton.slot_eq hrG hsp hxr, hread, ok_bind]
    dsimp only
    rw [load_some hg, ok_bind, hrelease g hg, ok_bind]
    refine bind_eq_ok.mpr ⟨_, hwrite, ?_⟩
    rw [assert_of (hgstate.trans hstate), ok_bind]
    refine bind_eq_ok.mpr ⟨_, Vmem.setTag_eq
      (show (({ v with source := source } : Vmem σ).putSpan r.span _).tag x.tag = some g from hg) _,
      ?_⟩
    refine bind_eq_ok.mpr ⟨_, hleft, ?_⟩
    refine bind_eq_ok.mpr ⟨_, hright, ?_⟩
    rw [← htag, hencache, ok_bind]
  · refine h.separated.replace (separate_insert hl' hm' (fun z hz hzy => ?_) fun z hz hzy => ?_)
    · exact hlast z hz hzy.1
    · exact hhead z hz hzy.2

/-- Without an arena below, a live range is released. -/
theorem Represents.vmemFree_eq (h : Represents v (G₁ ++ r :: G₂) fl) (hsource : v.source = none)
    (hr : r.ranges = l ++ x :: m) (hstate : x.state = .allocated) :
    ∃ w ranges fl', vmemFree v x.addr = .ok (w, x.addr) ∧ Kept v w ∧ ReleasedIn l x m ranges ∧
      Represents w (G₁ ++ { r with ranges := ranges } :: G₂) fl' := by
  have hv : { v with source := none } = v := by rw [← hsource]
  have hrelease : ∀ g, v.tag x.tag = some g →
      releaseSource v g = .ok { v with source := none } := fun g _ => by
    rw [releaseSource, hsource, hv]
  have hfree := h.vmemFree_release hrelease hr hstate
  rwa [hv] at hfree

end Racoon.Arenas
