import Racoon.Mm.Ranges
import Racoon.Mm.FreeLists
import Racoon.Lib.Blocks
import Racoon.Lib.Run

/-!
# The representation invariant of an arena

`Skeleton v G` says that the lists of spans and tags represent the regions `G`,
`Tracks v G fl except` adds the tables of the spans and the free lists, which a
tag leaves for the time of an operation, and `Represents v G fl` that no two
free neighbours are left. Each step of an operation is an edit of one range or
of two neighbours in the skeleton.
-/

namespace Racoon.Arenas
open Lib
variable {σ : Type}

def Bt.range (t : ℕ) (g : Bt) : Range := ⟨t, g.addr, g.size, g.allocated⟩

/-- The span of a region. Its table has room for all its slots. -/
structure Span.Shape (quantum : ℕ) (sp : Span) (r : Region) : Prop where
  addr : sp.addr = r.addr
  size : sp.size = r.size
  slots : sp.slots = r.size / quantum
  hashBytes : sp.hashBytes = sp.slots * sizeofPointer

/-- The table of a span names the allocated ranges by their start. -/
def HashHolds (quantum : ℕ) (sp : Span) (r : Region) : Prop :=
  ∀ i < sp.slots, ∀ t, sp.hash i = some t ↔
    ∃ x ∈ r.ranges, x.tag = t ∧ x.state = .allocated ∧ x.addr = r.addr + i * quantum

structure Skeleton (v : Vmem σ) (G : List Region) : Prop where
  quantum : 0 < v.quantum
  layout : Layout v.quantum G
  spans : v.spans = (G.map Region.span).head?
  spanLinks : ∃ prev, Linked (via Span.next v.span) prev none (G.map Region.span) none
  spanHeld : ∀ r ∈ G, ∃ sp, v.span r.span = some sp ∧ sp.Shape v.quantum r
  tags : v.tags = (tagsOf G).head?
  linked : Linked (via Bt.next v.tag) (via Bt.prev v.tag) none (tagsOf G) none
  held : ∀ x ∈ rangesOf G, ∃ g, v.tag x.tag = some g ∧ g.range x.tag = x
  only : ∀ t g, v.tag t = some g → t ∈ tagsOf G

/-- The free lists hold the free ranges of their class, apart from those excepted. -/
def CachedBut (v : Vmem σ) (G : List Region) (fl : ℕ → List ℕ) (except : List ℕ) : Prop :=
  ∀ c t, t ∈ fl c ↔ c < v.cacheBits ∧
    ∃ x ∈ rangesOf G, x.tag = t ∧ t ∉ except ∧ x.state = .free ∧ classOf v.quantum x.size = c

/-- The arena between the steps of an operation: the tags `except` are in no free list. -/
structure Tracks (v : Vmem σ) (G : List Region) (fl : ℕ → List ℕ) (except : List ℕ) : Prop where
  skeleton : Skeleton v G
  hash : ∀ r ∈ G, ∀ sp, v.span r.span = some sp → HashHolds v.quantum sp r
  chains : FreeChains v fl
  cached : CachedBut v G fl except

structure Represents (v : Vmem σ) (G : List Region) (fl : ℕ → List ℕ) : Prop
    extends Tracks v G fl [] where
  separated : Separated G

/-- What no operation changes. -/
structure Kept (v w : Vmem σ) : Prop where
  quantum : w.quantum = v.quantum
  cacheMax : w.cacheMax = v.cacheMax
  cacheBits : w.cacheBits = v.cacheBits
  afunc : w.afunc = v.afunc
  ffunc : w.ffunc = v.ffunc
  source : w.source = v.source

theorem Kept.trans {v w u : Vmem σ} (h : Kept v w) (h' : Kept w u) : Kept v u :=
  ⟨h'.1.trans h.1, h'.2.trans h.2, h'.3.trans h.3, h'.4.trans h.4, h'.5.trans h.5, h'.6.trans h.6⟩

theorem Kept.relink (v : Vmem σ) (cache next prev : ℕ → Option ℕ) :
    Kept v (v.relink cache next prev) := ⟨rfl, rfl, rfl, rfl, rfl, rfl⟩

variable {v : Vmem σ} {G G₁ G₂ : List Region} {r : Region} {x y p n : Range} {l m : List Range}
  {fl : ℕ → List ℕ} {g : Bt} {a : ℕ}

theorem range_eq_iff {t : ℕ} : g.range t = x ↔
    t = x.tag ∧ g.addr = x.addr ∧ g.size = x.size ∧ g.allocated = x.state := by
  cases x
  simp [Bt.range]

namespace Skeleton

theorem get (h : Skeleton v G) (hx : x ∈ rangesOf G) :
    ∃ g, v.tag x.tag = some g ∧ g.addr = x.addr ∧ g.size = x.size ∧ g.allocated = x.state := by
  obtain ⟨g, hg, hr⟩ := h.held x hx
  exact ⟨g, hg, (range_eq_iff.mp hr).2⟩

theorem alive (h : Skeleton v G) {t : ℕ} (ht : t ∈ tagsOf G) : ∃ g, v.tag t = some g := by
  obtain ⟨x, hx, rfl⟩ := List.mem_map.mp ht
  obtain ⟨g, hg, -⟩ := h.get hx
  exact ⟨g, hg⟩

/-- A range is known by its tag. -/
theorem tag_inj (h : Skeleton v G) (hx : x ∈ rangesOf G) (hy : y ∈ rangesOf G)
    (he : x.tag = y.tag) : x = y := by
  obtain ⟨g, hg, hxg⟩ := h.held x hx
  obtain ⟨g', hg', hyg⟩ := h.held y hy
  rw [he, hg'] at hg
  cases hg
  rw [← hxg, ← hyg, he]

theorem nodup (h : Skeleton v G) : (tagsOf G).Nodup := by
  refine List.pairwise_map.mpr (h.layout.addr_lt.imp_of_mem fun hx hy hlt he => ?_)
  rw [h.tag_inj hx hy he] at hlt
  exact lt_irrefl _ hlt

theorem length_le (h : Skeleton v G) : (tagsOf G).length ≤ walkBound := by
  rw [tagsOf, List.length_map]
  refine length_le_of_sorted h.layout.addr_lt fun x hx => ?_
  have := h.layout.bounds hx
  unfold walkBound
  omega

theorem region_addr_lt (h : Skeleton v G) : G.Pairwise fun r r' => r.addr < r'.addr :=
  h.layout.order.imp_of_mem fun hr _ hle => by
    have := (h.layout.region _ hr).pos
    omega

theorem regions_length_le (h : Skeleton v G) : G.length ≤ walkBound := by
  refine length_le_of_sorted h.region_addr_lt fun r hr => ?_
  have := (h.layout.region r hr).top
  unfold walkBound
  omega

theorem span_inj (h : Skeleton v G) : (G.map Region.span).Nodup := by
  refine List.pairwise_map.mpr (h.region_addr_lt.imp_of_mem fun hr hr' hlt he => ?_)
  obtain ⟨sp, hsp, hs⟩ := h.spanHeld _ hr
  obtain ⟨sp', hsp', hs'⟩ := h.spanHeld _ hr'
  rw [he, hsp'] at hsp
  cases hsp
  rw [← hs.addr, ← hs'.addr] at hlt
  exact lt_irrefl _ hlt

theorem size_div_ne (h : Skeleton v G) (hx : x ∈ rangesOf G) : x.size / v.quantum ≠ 0 := by
  have hpos := (h.layout.bounds hx).1
  have := Nat.le_of_dvd hpos (h.layout.quantum_dvd hx)
  exact (Nat.div_pos this h.quantum).ne'

/-- The walk over the spans stops in the region of the address. -/
theorem getspanFrom_eq (h : Skeleton v G) (hr : r.addr ≤ a ∧ a < r.addr + r.size) {P : List Region}
    (hG : P ++ (G₁ ++ r :: G₂) = G) {left : ℕ} (hleft : G₁.length < left) :
    getspanFrom v a left ((G₁ ++ r :: G₂).map Region.span).head? = .ok (some r.span) := by
  obtain ⟨prev, hlinks⟩ := h.spanLinks
  have hend : ∀ s ∈ G, add32 s.addr s.size = s.addr + s.size := fun s hs =>
    add32_of_lt (h.layout.region s hs).top
  induction G₁ generalizing P left with
  | nil =>
    obtain ⟨left, rfl⟩ := Nat.exists_eq_add_one_of_ne_zero (show left ≠ 0 by omega)
    have hrG : r ∈ G := by simp [← hG]
    obtain ⟨sp, hsp, hs⟩ := h.spanHeld r hrG
    rw [List.nil_append, List.map_cons, List.head?_cons, getspanFrom, load_some hsp, ok_bind,
      hs.addr, hs.size, hend r hrG, if_pos hr]
  | cons s G₁ ih =>
    obtain ⟨left, rfl⟩ := Nat.exists_eq_add_one_of_ne_zero (show left ≠ 0 by omega)
    have hsG : s ∈ G := by simp [← hG]
    obtain ⟨sp, hsp, hs⟩ := h.spanHeld s hsG
    have horder := hG ▸ h.layout.order
    have hle := (List.pairwise_cons.mp (List.pairwise_append.mp horder).2.1).1 r (by simp)
    rw [← hG, List.map_append, List.cons_append, List.map_cons] at hlinks
    have hnext := hlinks.at_mid.2
    rw [via_of hsp, Option.or_none] at hnext
    rw [List.cons_append, List.map_cons, List.head?_cons, getspanFrom, load_some hsp, ok_bind,
      hs.addr, hs.size, hend s hsG, if_neg (by omega), hnext]
    exact @ih (P ++ [s]) (by simpa using hG) left (by simpa using hleft)

theorem getspan_eq (h : Skeleton v G) (hr : r ∈ G) (ha : r.addr ≤ a ∧ a < r.addr + r.size) :
    vmemGetspan v a = .ok (some r.span) := by
  obtain ⟨G₁, G₂, rfl⟩ := List.append_of_mem hr
  have hlen := h.regions_length_le
  rw [vmemGetspan, h.spans]
  refine h.getspanFrom_eq ha (show [] ++ _ = _ from rfl) ?_
  simp only [List.length_append, List.length_cons] at hlen
  omega

theorem relink (h : Skeleton v G) (cache next prev : ℕ → Option ℕ) :
    Skeleton (v.relink cache next prev) G where
  quantum := h.quantum
  layout := h.layout
  spans := h.spans
  spanLinks := h.spanLinks
  spanHeld := h.spanHeld
  tags := h.tags
  linked := by
    have hvia : ∀ field : Bt → Option ℕ, (∀ g a b, field { g with flNext := a, flPrev := b } =
        field g) → via field (v.relink cache next prev).tag = via field v.tag := by
      intro field hf
      funext y
      simp only [via, Vmem.relink, Option.bind_map, Function.comp_def, hf]
    rw [hvia Bt.next fun _ _ _ => rfl, hvia Bt.prev fun _ _ _ => rfl]
    exact h.linked
  held x hx := by
    obtain ⟨g, hg, hr⟩ := h.held x hx
    exact ⟨_, relink_tag hg, hr⟩
  only t g hg := by
    obtain ⟨g₀, hg₀, -⟩ := Option.map_eq_some_iff.mp hg
    exact h.only t g₀ hg₀

/-- The ranges of one region are replaced, and with them the tags. -/
theorem retag (h : Skeleton v (G₁ ++ r :: G₂)) {w : Vmem σ} {ranges : List Range}
    (hq : w.quantum = v.quantum) (hsp : w.spans = v.spans) (hspan : w.span = v.span)
    (hok : { r with ranges := ranges }.Ok v.quantum)
    (htags : w.tags = (tagsOf (G₁ ++ { r with ranges := ranges } :: G₂)).head?)
    (hlinked : Linked (via Bt.next w.tag) (via Bt.prev w.tag) none
      (tagsOf (G₁ ++ { r with ranges := ranges } :: G₂)) none)
    (hheld : ∀ x ∈ rangesOf (G₁ ++ { r with ranges := ranges } :: G₂),
      ∃ g, w.tag x.tag = some g ∧ g.range x.tag = x)
    (honly : ∀ t g, w.tag t = some g → t ∈ tagsOf (G₁ ++ { r with ranges := ranges } :: G₂)) :
    Skeleton w (G₁ ++ { r with ranges := ranges } :: G₂) where
  quantum := hq ▸ h.quantum
  layout := hq ▸ h.layout.replace hok
  spans := by
    rw [hsp, h.spans]
    simp
  spanLinks := by
    rw [hspan]
    simpa using h.spanLinks
  spanHeld s hs := by
    rw [hq, hspan]
    simp only [List.mem_append, List.mem_cons] at hs
    rcases hs with hs | rfl | hs
    · exact h.spanHeld s (by simp [hs])
    · obtain ⟨sp, hsp, hsh⟩ := h.spanHeld r (by simp)
      exact ⟨sp, hsp, hsh.1, hsh.2, hsh.3, hsh.4⟩
    · exact h.spanHeld s (by simp [hs])
  tags := htags
  linked := hlinked
  held := hheld
  only := honly

end Skeleton

section Chain

/-- The tags with their places in the list of all tags replaced. -/
def Vmem.rechain (v : Vmem σ) (next prev : ℕ → Option ℕ) : Vmem σ :=
  { v with tag := fun x => (v.tag x).map fun g => { g with next := next x, prev := prev x } }

variable {next prev : ℕ → Option ℕ} {t : ℕ}

theorem rechain_tag (h : v.tag t = some g) :
    (v.rechain next prev).tag t = some { g with next := next t, prev := prev t } := by
  simp [Vmem.rechain, h]

theorem rechain_self (v : Vmem σ) : v.rechain (via Bt.next v.tag) (via Bt.prev v.tag) = v := by
  have : (fun x => (v.tag x).map fun g => { g with
      next := via Bt.next v.tag x, prev := via Bt.prev v.tag x }) = v.tag := by
    funext x
    cases h : v.tag x with
    | none => rfl
    | some g => simp [via, h]
  unfold Vmem.rechain
  rw [this]

theorem setTag_rechain_next (h : v.tag t = some g) (a : Option ℕ) :
    (v.rechain next prev).setTag (some t) (fun g => { g with next := a }) =
      .ok (v.rechain (Function.update next t a) prev) := by
  rw [Vmem.setTag, modify_some (rechain_tag h), ok_bind]
  have : Function.update (v.rechain next prev).tag t (some { g with next := a, prev := prev t }) =
      (v.rechain (Function.update next t a) prev).tag := by
    funext y
    by_cases hy : y = t
    · subst hy
      simp [Vmem.rechain, h]
    · simp [Vmem.rechain, hy]
  exact congrArg (fun tag => Except.ok { v.rechain next prev with tag := tag }) this

theorem setTagIf_rechain_prev (next prev : ℕ → Option ℕ) {q : Option ℕ}
    (hq : ∀ t, q = some t → ∃ g, v.tag t = some g)
    (b : Option ℕ) :
    ∃ prev', (v.rechain next prev).setTagIf q (fun g => { g with prev := b }) =
        .ok (v.rechain next prev') ∧ ∀ y, prev' y = if q = some y then b else prev y := by
  cases q with
  | none => exact ⟨prev, rfl, fun _ => rfl⟩
  | some t =>
    obtain ⟨g, hg⟩ := hq t rfl
    refine ⟨Function.update prev t b, ?_, fun y => by simp [Function.update_apply, eq_comm]⟩
    rw [Vmem.setTagIf, Option.isSome_some, if_pos rfl, Vmem.setTag, modify_some (rechain_tag hg),
      ok_bind]
    have : Function.update (v.rechain next prev).tag t (some { g with next := next t, prev := b }) =
        (v.rechain next (Function.update prev t b)).tag := by
      funext y
      by_cases hy : y = t
      · subst hy
        simp [Vmem.rechain, hg]
      · simp [Vmem.rechain, hy]
    exact congrArg (fun tag => Except.ok { v.rechain next prev with tag := tag }) this

theorem setTagIf_rechain_next (next prev : ℕ → Option ℕ) {q : Option ℕ}
    (hq : ∀ t, q = some t → ∃ g, v.tag t = some g)
    (a : Option ℕ) :
    ∃ next', (v.rechain next prev).setTagIf q (fun g => { g with next := a }) =
        .ok (v.rechain next' prev) ∧ ∀ y, next' y = if q = some y then a else next y := by
  cases q with
  | none => exact ⟨next, rfl, fun _ => rfl⟩
  | some t =>
    obtain ⟨g, hg⟩ := hq t rfl
    refine ⟨_, setTag_rechain_next hg a, fun y => ?_⟩
    simp [Function.update_apply, eq_comm]

/-- A new tag between its neighbours. -/
theorem linked_rechain {u : Vmem σ} {xs ys : List ℕ} {new : Bt}
    (hl : Linked (via Bt.next v.tag) (via Bt.prev v.tag) none (xs ++ ys) none)
    (hd : (xs ++ ys).Nodup) (hsame : ∀ y ∈ xs ++ ys, ∃ g g', v.tag y = some g ∧
      u.tag y = some g' ∧ g'.next = g.next ∧ g'.prev = g.prev)
    (ht : t ∉ xs ++ ys) (hnew : u.tag t = some new) (hnn : new.next = ys.head?)
    (hnp : new.prev = xs.getLast?)
    (hn : ∀ y, next y = if xs.getLast? = some y then some t else via Bt.next u.tag y)
    (hp : ∀ y, prev y = if ys.head? = some y then some t else via Bt.prev u.tag y) :
    Linked (via Bt.next (u.rechain next prev).tag) (via Bt.prev (u.rechain next prev).tag) none
      (xs ++ t :: ys) none := by
  refine hl.link hd ?_ ?_ (fun y hy => ?_) fun y hy => ?_
  · rw [via_of (rechain_tag hnew), Option.or_none]
    dsimp only
    rw [hn, if_neg fun e : xs.getLast? = some t => ht (List.mem_append_left _
      (List.mem_of_getLast? e)), via_of hnew, hnn]
  · rw [via_of (rechain_tag hnew), Option.or_none]
    dsimp only
    rw [hp, if_neg fun e : ys.head? = some t => ht (List.mem_append_right _
      (List.mem_of_mem_head? e)), via_of hnew, hnp]
  · obtain ⟨g, g', hg, hg', hgn, -⟩ := hsame y hy
    rw [via_of (rechain_tag hg'), via_of hg]
    dsimp only
    rw [hn, via_of hg', hgn]
  · obtain ⟨g, g', hg, hg', -, hgp⟩ := hsame y hy
    rw [via_of (rechain_tag hg'), via_of hg]
    dsimp only
    rw [hp, via_of hg', hgp]

end Chain

theorem Vmem.putTag_self {t : ℕ} : (v.putTag t g).tag t = some g := Function.update_self ..

/-- What an edit of the tags keeps: everything else, and the links in the free lists. -/
structure SameLists (v w : Vmem σ) : Prop extends Kept v w where
  freeCache : w.freeCache = v.freeCache
  spans : w.spans = v.spans
  span : w.span = v.span
  kept : ∀ t g g', v.tag t = some g → w.tag t = some g' →
    g'.flNext = g.flNext ∧ g'.flPrev = g.flPrev
  fresh : ∀ t g', v.tag t = none → w.tag t = some g' → g'.flNext = none ∧ g'.flPrev = none

theorem SameLists.chains {w : Vmem σ} (h : SameLists v w) (hc : FreeChains v fl)
    (halive : ∀ c, ∀ t ∈ fl c, ∃ g', w.tag t = some g') : FreeChains w fl := by
  refine hc.transfer h.freeCache h.cacheBits (fun c t ht g hg => ?_) fun t g' hg' hout => ?_
  · obtain ⟨g', hg'⟩ := halive c t ht
    exact ⟨g', hg', h.kept t g g' hg hg'⟩
  · cases hg : v.tag t with
    | none => exact h.fresh t g' hg hg'
    | some g =>
      obtain ⟨hn, hp⟩ := h.kept t g g' hg hg'
      rw [hn, hp]
      exact hc.loose t g hg hout

namespace Skeleton

/-- The tags around one of them. -/
theorem links (h : Skeleton v (G₁ ++ r :: G₂)) (hr : r.ranges = l ++ x :: m)
    (hg : v.tag x.tag = some g) :
    g.next = (m.map Range.tag ++ tagsOf G₂).head? ∧
    g.prev = (tagsOf G₁ ++ l.map Range.tag).getLast? := by
  have hl := h.linked
  rw [tagsOf_mid hr, List.map_append, List.map_cons, ← List.append_assoc, List.append_assoc,
    List.cons_append] at hl
  obtain ⟨hp, hn⟩ := hl.at_mid
  rw [via_of hg, Option.or_none] at hp hn
  exact ⟨hn, hp⟩

/-- The other ranges have other tags. -/
theorem side (h : Skeleton v (G₁ ++ r :: G₂)) (hr : r.ranges = l ++ x :: m)
    (hy : y ∈ rangesOf G₁ ∨ (y ∈ l ∨ y ∈ m) ∨ y ∈ rangesOf G₂) :
    y ∈ rangesOf (G₁ ++ r :: G₂) ∧ y.tag ≠ x.tag := by
  have hnd := h.nodup
  have hsplit : tagsOf (G₁ ++ r :: G₂) = (rangesOf G₁ ++ l).map Range.tag ++
      x.tag :: (m ++ rangesOf G₂).map Range.tag := by
    rw [tagsOf_mid hr]
    simp [tagsOf]
  rw [hsplit, List.perm_middle.nodup_iff, List.nodup_cons, ← List.map_append] at hnd
  refine ⟨?_, fun e => hnd.1 (List.mem_map.mpr ⟨y, ?_, e⟩)⟩
  · rw [mem_rangesOf_mid hr]
    simp only [List.mem_append, List.mem_cons]
    grind
  · simp only [List.mem_append]
    grind

theorem splittag_eq (h : Skeleton v (G₁ ++ r :: G₂)) (hr : r.ranges = l ++ x :: m)
    (hfree : x.state = .free) {size tmp : ℕ} (hpos : 0 < size) (hlt : size < x.size)
    (hdvd : v.quantum ∣ size) (htmp : v.tag tmp = none) :
    ∃ w, vmemAlSplittag (some tmp) v x.tag size = .ok (w, some tmp) ∧
      Skeleton w (G₁ ++ { r with ranges := l ++ [{ x with size := x.size - size },
        ⟨tmp, x.addr + (x.size - size), size, .free⟩] ++ m } :: G₂) ∧ SameLists v w := by
  have hxr : x ∈ r.ranges := by simp [hr]
  have hx : x ∈ rangesOf (G₁ ++ r :: G₂) := mem_rangesOf.mpr ⟨r, by simp, hxr⟩
  obtain ⟨g, hg, haddr, hsize, hstate⟩ := h.get hx
  obtain ⟨hnext, hprev⟩ := h.links hr hg
  have hok := h.layout.region r (by simp)
  obtain ⟨-, -, -, htop⟩ := hok.bounds hxr
  have hne : tmp ≠ x.tag := fun e => by simp [← e, htmp] at hg
  have hrest : sub32 g.size size = x.size - size := by
    rw [hsize]
    exact sub32_of_le (by omega) hlt.le
  have hmid : add32 g.addr (x.size - size) = x.addr + (x.size - size) := by
    rw [haddr]
    exact add32_of_lt (by omega)
  have htags := @tagsOf_mid G₁ G₂ _ _ hr
  have hnd := h.nodup
  have hfresh : ∀ t ∈ tagsOf (G₁ ++ r :: G₂), t ≠ tmp := fun t ht e => by
    obtain ⟨g, hg⟩ := h.alive ht
    simp [e, htmp] at hg
  let new : Bt := ⟨x.addr + (x.size - size), size, 0, .free, g.next, some x.tag, none, none⟩
  let u : Vmem σ := ({ v with
    tag := Function.update v.tag x.tag (some { g with size := x.size - size }) }).putTag tmp new
  have hunew : u.tag tmp = some new := Function.update_self ..
  have hux : u.tag x.tag = some { g with size := x.size - size } :=
    (Function.update_of_ne hne.symm _ _).trans (Function.update_self ..)
  have hu : ∀ t, t ≠ tmp → t ≠ x.tag → u.tag t = v.tag t := fun t ht ht' =>
    (Function.update_of_ne ht _ _).trans (Function.update_of_ne ht' _ _)
  have hualive : ∀ t ∈ tagsOf (G₁ ++ r :: G₂), ∃ g, u.tag t = some g := fun t ht => by
    by_cases htx : t = x.tag
    · exact ⟨_, htx ▸ hux⟩
    · rw [hu t (hfresh t ht) htx]
      exact h.alive ht
  obtain ⟨prev, hset, hp⟩ := setTagIf_rechain_prev (v := u) (via Bt.next u.tag)
    (via Bt.prev u.tag) (q := g.next) (fun t ht => hualive t (by
      rw [hnext] at ht
      have := List.mem_of_mem_head? ht
      rw [htags]
      simp only [List.map_append, List.map_cons, List.mem_append, List.mem_cons] at this ⊢
      grind)) (some tmp)
  rw [rechain_self] at hset
  have hset' := @setTag_rechain_next _ _ _ (via Bt.next u.tag) prev _ hux (some tmp)
  have hnew := @tagsOf_mid G₁ G₂ { r with ranges := l ++
    [{ x with size := x.size - size }, ⟨tmp, x.addr + (x.size - size), size, .free⟩] ++ m } _ rfl
  have hids : tagsOf G₁ ++ (l ++ [{ x with size := x.size - size },
      ⟨tmp, x.addr + (x.size - size), size, .free⟩] ++ m).map Range.tag ++ tagsOf G₂ =
      (tagsOf G₁ ++ l.map Range.tag ++ [x.tag]) ++ tmp :: (m.map Range.tag ++ tagsOf G₂) := by
    simp
  have hold : tagsOf (G₁ ++ r :: G₂) =
      (tagsOf G₁ ++ l.map Range.tag ++ [x.tag]) ++ (m.map Range.tag ++ tagsOf G₂) := by
    rw [htags]
    simp
  refine ⟨u.rechain (Function.update (via Bt.next u.tag) x.tag (some tmp)) prev, ?_,
    h.retag rfl rfl rfl ?_ ?_ ?_ (fun y hy => ?_) fun t g' hg' => ?_, ?_⟩
  · rw [vmemAlSplittag, load_some hg, ok_bind, assert_of (hstate.trans hfree), ok_bind, hrest]
    dsimp only
    rw [Vmem.setTag_eq hg, ok_bind, hmid]
    exact bind_eq_ok.mpr ⟨_, hset, bind_eq_ok.mpr ⟨_, hset', rfl⟩⟩
  · refine hok.replace [x] (by simpa using hr) (fun lo hi ht => ?_) fun hw y hy => ?_
    · obtain ⟨rfl, -, ht⟩ := ht
      refine ⟨rfl, by dsimp only; omega, rfl, hpos, ?_⟩
      have : x.addr + (x.size - size) + size = x.addr + x.size := by omega
      rw [this]
      exact ht
    · have hxdvd := hw x (by simp)
      rcases List.mem_pair.mp hy with rfl | rfl
      · exact Nat.dvd_sub hxdvd hdvd
      · exact hdvd
  · rw [hnew, hids]
    refine h.tags.trans ?_
    rw [hold]
    simp
  · rw [hnew, hids]
    refine linked_rechain (hold ▸ h.linked) (hold ▸ hnd) (fun y hy => ?_) (fun ht =>
      hfresh tmp (hold ▸ ht) rfl) hunew hnext ?_ (fun y => ?_) fun y => ?_
    · rw [← hold] at hy
      by_cases hyx : y = x.tag
      · subst hyx
        exact ⟨g, _, hg, hux, rfl, rfl⟩
      · obtain ⟨g', hg'⟩ := h.alive hy
        exact ⟨g', g', hg', (hu y (hfresh y hy) hyx).trans hg', rfl, rfl⟩
    · simp [new]
    · rw [Function.update_apply]
      simp [eq_comm]
    · rw [hp, hnext]
  · rw [mem_rangesOf_mid rfl] at hy
    have hother : y ∈ rangesOf (G₁ ++ r :: G₂) → y.tag ≠ x.tag → ∃ g',
        (u.rechain (Function.update (via Bt.next u.tag) x.tag (some tmp)) prev).tag y.tag =
        some g' ∧
          g'.range y.tag = y := by
      intro hy hne
      obtain ⟨g', hg', hr'⟩ := h.held y hy
      have hyt := hfresh y.tag (List.mem_map_of_mem hy)
      exact ⟨_, rechain_tag ((hu _ hyt hne).trans hg'), hr'⟩
    have hcases : y = { x with size := x.size - size } ∨
        y = ⟨tmp, x.addr + (x.size - size), size, .free⟩ ∨
        y ∈ rangesOf G₁ ∨ (y ∈ l ∨ y ∈ m) ∨ y ∈ rangesOf G₂ := by
      simp only [List.mem_append, List.mem_pair] at hy
      grind
    rcases hcases with rfl | rfl | hy
    · exact ⟨_, rechain_tag hux, range_eq_iff.mpr ⟨rfl, haddr, rfl, hstate⟩⟩
    · exact ⟨_, rechain_tag hunew, rfl⟩
    · obtain ⟨hy, hne⟩ := h.side hr hy
      exact hother hy hne
  · obtain ⟨g₀, hg₀, -⟩ := Option.map_eq_some_iff.mp hg'
    rw [hnew, hids]
    by_cases ht : t = tmp
    · simp [ht]
    · by_cases htx : t = x.tag
      · simp [htx]
      · have := hold ▸ h.only t g₀ ((hu t ht htx) ▸ hg₀)
        simp only [List.mem_append, List.mem_cons] at this ⊢
        grind
  · refine ⟨⟨rfl, rfl, rfl, rfl, rfl, rfl⟩, rfl, rfl, rfl, fun t g₀ g' hg₀ hg' => ?_,
      fun t g' hg₀ hg' => ?_⟩
    · obtain ⟨g₁, hg₁, rfl⟩ := Option.map_eq_some_iff.mp hg'
      have ht : t ≠ tmp := fun e => by simp [e, htmp] at hg₀
      by_cases htx : t = x.tag
      · subst htx
        rw [hux] at hg₁
        rw [hg] at hg₀
        cases hg₁
        cases hg₀
        exact ⟨rfl, rfl⟩
      · rw [hu t ht htx, hg₀] at hg₁
        cases hg₁
        exact ⟨rfl, rfl⟩
    · obtain ⟨g₁, hg₁, rfl⟩ := Option.map_eq_some_iff.mp hg'
      have htx : t ≠ x.tag := fun e => by simp [e, hg] at hg₀
      by_cases ht : t = tmp
      · rw [ht, hunew] at hg₁
        cases hg₁
        exact ⟨rfl, rfl⟩
      · rw [hu t ht htx, hg₀] at hg₁
        cases hg₁

/-- A range melts into its left neighbour, and its tag is freed. -/
theorem melt_eq (h : Skeleton v (G₁ ++ r :: G₂)) (hr : r.ranges = l ++ y :: x :: m)
    (hg : v.tag x.tag = some g) :
    ∃ w, (do
        let v ← v.setTag (some y.tag) fun p =>
          { p with size := add32 p.size g.size, next := g.next }
        let v ← v.setTagIf g.next fun n => { n with prev := some y.tag }
        .ok (v.freeTag x.tag)) = Except.ok w ∧
      Skeleton w (G₁ ++ { r with ranges := l ++ [{ y with size := y.size + x.size }] ++ m } :: G₂) ∧
      SameLists v w := by
  have hr' : r.ranges = (l ++ [y]) ++ x :: m := by simp [hr]
  have hxr : x ∈ r.ranges := by simp [hr]
  have hyr : y ∈ r.ranges := by simp [hr]
  have hx : x ∈ rangesOf (G₁ ++ r :: G₂) := mem_rangesOf.mpr ⟨r, by simp, hxr⟩
  have hy : y ∈ rangesOf (G₁ ++ r :: G₂) := mem_rangesOf.mpr ⟨r, by simp, hyr⟩
  have hxy : y.tag ≠ x.tag := (h.side hr' (.inr (.inl (.inl (by simp))))).2
  obtain ⟨gy, hgy, hyaddr, hysize, hystate⟩ := h.get hy
  have hsize : g.size = x.size := by
    obtain ⟨g', hg', -, hs, -⟩ := h.get hx
    rw [hg] at hg'
    cases hg'
    exact hs
  obtain ⟨hnext, hprev⟩ := h.links hr' hg
  have hok := h.layout.region r (by simp)
  have htiles := hr ▸ hok.tiles
  obtain ⟨-, hypos, hxaddr, hxpos, -⟩ := tiles_mid.mp htiles
  have htop := (hok.bounds hxr).2.2.2
  have hadd : add32 gy.size g.size = y.size + x.size := by
    rw [hysize, hsize]
    exact add32_of_lt (by omega)
  have hold : tagsOf (G₁ ++ r :: G₂) =
      (tagsOf G₁ ++ l.map Range.tag ++ [y.tag]) ++ x.tag :: (m.map Range.tag ++ tagsOf G₂) := by
    rw [tagsOf_mid hr]
    simp
  have hnew : tagsOf (G₁ ++
      { r with ranges := l ++ [{ y with size := y.size + x.size }] ++ m } :: G₂) =
      (tagsOf G₁ ++ l.map Range.tag ++ [y.tag]) ++ (m.map Range.tag ++ tagsOf G₂) := by
    rw [tagsOf_mid rfl]
    simp
  have hnd := hold ▸ h.nodup
  have hxnot : x.tag ∉
      (tagsOf G₁ ++ l.map Range.tag ++ [y.tag]) ++ (m.map Range.tag ++ tagsOf G₂) :=
    fun hm => (List.nodup_cons.mp (List.perm_middle.nodup_iff.mp hnd)).1 hm
  let merged : Bt := { gy with size := y.size + x.size, next := g.next }
  let u : Vmem σ := { v with tag := Function.update v.tag y.tag (some merged) }
  have huy : u.tag y.tag = some merged := Function.update_self ..
  have hu : ∀ t, t ≠ y.tag → u.tag t = v.tag t := fun t ht => Function.update_of_ne ht _ _
  obtain ⟨prev, hset, hp⟩ := setTagIf_rechain_prev (v := u) (via Bt.next u.tag)
    (via Bt.prev u.tag) (q := g.next) (fun t ht => by
      by_cases hty : t = y.tag
      · exact ⟨_, hty ▸ huy⟩
      · rw [hu t hty]
        refine h.alive ?_
        rw [hnext] at ht
        have := List.mem_of_mem_head? ht
        rw [hold]
        simp only [List.mem_append, List.mem_cons] at this ⊢
        grind) (some y.tag)
  rw [rechain_self] at hset
  let w : Vmem σ := (u.rechain (via Bt.next u.tag) prev).freeTag x.tag
  have hw : ∀ t, t ≠ x.tag → ∀ g₀, u.tag t = some g₀ →
      w.tag t = some { g₀ with next := via Bt.next u.tag t, prev := prev t } := fun t ht g₀ hg₀ =>
    (Function.update_of_ne ht _ _).trans (rechain_tag hg₀)
  have hback : ∀ t g', w.tag t = some g' → t ≠ x.tag ∧ ∃ g₀, u.tag t = some g₀ ∧
      g' = { g₀ with next := via Bt.next u.tag t, prev := prev t } := by
    intro t g' hg'
    have ht : t ≠ x.tag := fun e => by
      rw [e] at hg'
      simp [w, Vmem.freeTag] at hg'
    obtain ⟨g₀, hg₀, he⟩ := Option.map_eq_some_iff.mp
      ((Function.update_of_ne ht _ _).symm.trans hg')
    exact ⟨ht, g₀, hg₀, he.symm⟩
  refine ⟨w, ?_, h.retag rfl rfl rfl ?_ ?_ ?_ (fun z hz => ?_) fun t g' hg' => ?_, ?_⟩
  · rw [Vmem.setTag_eq hgy, ok_bind, hadd]
    exact bind_eq_ok.mpr ⟨_, hset, rfl⟩
  · refine hok.replace [y, x] (by simpa using hr) (fun lo hi ht => ?_) fun hw z hz => ?_
    · obtain ⟨rfl, -, -, -, ht⟩ := ht
      refine ⟨rfl, by dsimp only; omega, ?_⟩
      dsimp only
      rw [← Nat.add_assoc]
      exact ht
    · rw [List.mem_singleton] at hz
      subst hz
      exact Nat.dvd_add (hw y (by simp)) (hw x (by simp))
  · rw [hnew]
    refine h.tags.trans ?_
    rw [hold]
    simp
  · rw [hnew]
    refine (hold ▸ h.linked).unlink hnd (fun t ht => ?_) fun t ht => ?_
    · have htx : t ≠ x.tag := fun e => hxnot (e ▸ ht)
      by_cases hty : t = y.tag
      · subst hty
        rw [via_of (hw _ htx _ huy), via_of huy]
        simp [merged, hnext]
      · obtain ⟨g₀, hg₀⟩ := h.alive (t := t) (by
          rw [hold]
          simp only [List.mem_append, List.mem_cons] at ht ⊢
          grind)
        have hug₀ := (hu t hty).trans hg₀
        rw [via_of (hw _ htx _ hug₀), via_of hug₀, via_of hg₀, if_neg]
        simpa using fun e => hty e.symm
    · have htx : t ≠ x.tag := fun e => hxnot (e ▸ ht)
      by_cases hty : t = y.tag
      · subst hty
        rw [via_of (hw _ htx _ huy), via_of hgy]
        dsimp only
        rw [hp, via_of huy, hnext]
        simp [merged]
      · obtain ⟨g₀, hg₀⟩ := h.alive (t := t) (by
          rw [hold]
          simp only [List.mem_append, List.mem_cons] at ht ⊢
          grind)
        have hug₀ := (hu t hty).trans hg₀
        rw [via_of (hw _ htx _ hug₀), via_of hg₀]
        dsimp only
        rw [hp, via_of hug₀, hnext]
        simp
  · rw [mem_rangesOf_mid rfl] at hz
    have hcases : z = { y with size := y.size + x.size } ∨
        z ∈ rangesOf G₁ ∨ (z ∈ l ∨ z ∈ m) ∨ z ∈ rangesOf G₂ := by
      simp only [List.mem_append, List.mem_singleton] at hz
      grind
    rcases hcases with rfl | hz
    · exact ⟨_, hw _ hxy _ huy, range_eq_iff.mpr ⟨rfl, hyaddr, rfl, hystate⟩⟩
    · have hzx := h.side hr' (y := z) (by
        simp only [List.mem_append, List.mem_singleton]
        grind)
      have hzy := h.side hr (y := z) (by
        simp only [List.mem_cons]
        grind)
      obtain ⟨g₀, hg₀, hr₀⟩ := h.held z hzx.1
      exact ⟨_, hw _ hzx.2 _ ((hu _ hzy.2).trans hg₀), hr₀⟩
  · obtain ⟨htx, g₀, hg₀, -⟩ := hback t g' hg'
    rw [hnew]
    by_cases hty : t = y.tag
    · simp [hty]
    · have := hold ▸ h.only t g₀ ((hu t hty) ▸ hg₀)
      simp only [List.mem_append, List.mem_cons] at this ⊢
      grind
  · refine ⟨⟨rfl, rfl, rfl, rfl, rfl, rfl⟩, rfl, rfl, rfl, fun t g₀ g' hg₀ hg' => ?_,
      fun t g' hg₀ hg' => ?_⟩
    · obtain ⟨htx, g₁, hg₁, rfl⟩ := hback t g' hg'
      by_cases hty : t = y.tag
      · subst hty
        rw [huy] at hg₁
        rw [hgy] at hg₀
        cases hg₁
        cases hg₀
        exact ⟨rfl, rfl⟩
      · rw [hu t hty, hg₀] at hg₁
        cases hg₁
        exact ⟨rfl, rfl⟩
    · obtain ⟨htx, g₁, hg₁, -⟩ := hback t g' hg'
      have hty : t ≠ y.tag := fun e => by simp [e, hgy] at hg₀
      rw [hu t hty, hg₀] at hg₁
      cases hg₁

end Skeleton

theorem HashHolds.congr {quantum : ℕ} {sp : Span} {r' : Region} (h : HashHolds quantum sp r)
    (haddr : r'.addr = r.addr)
    (halloc : ∀ x, x.state = .allocated → (x ∈ r'.ranges ↔ x ∈ r.ranges)) :
    HashHolds quantum sp r' := by
  intro i hi t
  rw [h i hi t, haddr]
  refine exists_congr fun x => ?_
  by_cases hx : x.state = .allocated
  · rw [halloc x hx]
  · simp [hx]

/-- A tag that no free range has need not be excepted. -/
theorem CachedBut.cons_iff {except : List ℕ} {t : ℕ}
    (ht : ∀ x ∈ rangesOf G, x.tag = t → x.state ≠ .free) :
    CachedBut v G fl (t :: except) ↔ CachedBut v G fl except := by
  refine forall_congr' fun c => forall_congr' fun t' => ?_
  refine iff_congr Iff.rfl (and_congr_right fun _ => exists_congr fun x => ?_)
  refine and_congr_right fun hx => and_congr_right fun hxt => ?_
  by_cases hfree : x.state = .free
  · have hne : t' ≠ t := fun e => ht x hx (hxt.trans e) hfree
    simp [hne]
  · simp [hfree]

namespace Tracks
variable {except : List ℕ}

theorem cons_iff {t : ℕ} (ht : ∀ x ∈ rangesOf G, x.tag = t → x.state ≠ .free) :
    Tracks v G fl (t :: except) ↔ Tracks v G fl except :=
  ⟨fun h => ⟨h.1, h.2, h.3, (CachedBut.cons_iff ht).mp h.4⟩,
    fun h => ⟨h.1, h.2, h.3, (CachedBut.cons_iff ht).mpr h.4⟩⟩

/-- The list of its class that a free range is in. -/
theorem mem_iff (h : Tracks v G fl except) (hx : x ∈ rangesOf G) (hfree : x.state = .free)
    (hnot : x.tag ∉ except) (c : ℕ) :
    x.tag ∈ fl c ↔ c < v.cacheBits ∧ classOf v.quantum x.size = c := by
  rw [h.cached c x.tag]
  refine and_congr_right fun _ => ⟨fun ⟨y, hy, ht, _, _, hc⟩ => ?_, fun hc => ?_⟩
  · rwa [h.skeleton.tag_inj hx hy ht.symm]
  · exact ⟨x, hx, rfl, hnot, hfree, hc⟩

theorem uncache_eq (h : Tracks v G fl except) (hx : x ∈ rangesOf G) (hfree : x.state = .free)
    (hnot : x.tag ∉ except) :
    ∃ cache next prev fl', uncache v x.tag = .ok (v.relink cache next prev) ∧
      Tracks (v.relink cache next prev) G fl' (x.tag :: except) := by
  obtain ⟨g, hg, -, hsize, -⟩ := h.skeleton.get hx
  obtain ⟨cache, next, prev, fl', heq, hchains, hfl⟩ := Arenas.uncache_eq h.chains hg
    (hsize ▸ h.skeleton.size_div_ne hx) (hsize ▸ h.mem_iff hx hfree hnot)
  refine ⟨cache, next, prev, fl', heq, h.skeleton.relink cache next prev, h.hash, hchains,
    fun c t => ?_⟩
  rw [hfl, h.cached c t, and_assoc]
  refine and_congr_right fun _ => ⟨fun ⟨⟨y, hy, hyt, hex, hrest⟩, hne⟩ => ?_,
    fun ⟨y, hy, hyt, hex, hrest⟩ => ?_⟩
  · exact ⟨y, hy, hyt, List.not_mem_cons_of_ne_of_not_mem hne hex, hrest⟩
  · rw [List.mem_cons, not_or] at hex
    exact ⟨⟨y, hy, hyt, hex.2, hrest⟩, hex.1⟩

theorem encache_eq (h : Tracks v G fl (x.tag :: except)) (hx : x ∈ rangesOf G)
    (hfree : x.state = .free) (hnot : x.tag ∉ except) :
    ∃ cache next prev fl', encache v x.tag = .ok (v.relink cache next prev) ∧
      Tracks (v.relink cache next prev) G fl' except := by
  obtain ⟨g, hg, -, hsize, -⟩ := h.skeleton.get hx
  obtain ⟨cache, next, prev, fl', heq, hchains, hfl⟩ := Arenas.encache_eq h.chains hg
    (hsize ▸ h.skeleton.size_div_ne hx) (fun c hc => by
      obtain ⟨-, y, -, -, hex, -⟩ := (h.cached c x.tag).mp hc
      simp at hex)
  refine ⟨cache, next, prev, fl', heq, h.skeleton.relink cache next prev, h.hash, hchains,
    fun c t => ?_⟩
  rw [hfl, h.cached c t, hsize]
  constructor
  · rintro (⟨hc, y, hy, hyt, hex, hrest⟩ | ⟨rfl, hc, hclass⟩)
    · exact ⟨hc, y, hy, hyt, fun hm => hex (List.mem_cons_of_mem _ hm), hrest⟩
    · exact ⟨hc, x, hx, rfl, hnot, hfree, hclass⟩
  · rintro ⟨hc, y, hy, hyt, hex, hyfree, hclass⟩
    by_cases ht : t = x.tag
    · obtain rfl := h.skeleton.tag_inj hx hy (ht ▸ hyt).symm
      exact .inr ⟨ht, hc, hclass⟩
    · exact .inl ⟨hc, y, hy, hyt, List.not_mem_cons_of_ne_of_not_mem ht hex, hyfree, hclass⟩

/-- An edit of free ranges whose tags are in no list. -/
theorem edit (h : Tracks v (G₁ ++ r :: G₂) fl except) {w : Vmem σ} {ranges : List Range}
    {except' : List ℕ} (hs : Skeleton w (G₁ ++ { r with ranges := ranges } :: G₂))
    (hw : SameLists v w) (hsub : except ⊆ except')
    (hnew : ∀ t ∈ except', t ∈ except ∨ v.tag t = none)
    (hsame : ∀ x, x.tag ∉ except' ∨ x.state = .allocated → (x ∈ ranges ↔ x ∈ r.ranges)) :
    Tracks w (G₁ ++ { r with ranges := ranges } :: G₂) fl except' := by
  have hmem : ∀ x, x.tag ∉ except' → (x ∈ rangesOf (G₁ ++ { r with ranges := ranges } :: G₂) ↔
      x ∈ rangesOf (G₁ ++ r :: G₂)) := fun x hx => by
    rw [mem_rangesOf_mid rfl, mem_rangesOf_mid rfl, hsame x (.inl hx)]
  have hcached : CachedBut w (G₁ ++ { r with ranges := ranges } :: G₂) fl except' := by
    intro c t
    rw [h.cached c t, hw.cacheBits, hw.quantum]
    refine and_congr_right fun _ => ⟨fun ⟨x, hx, hxt, hex, hrest⟩ => ?_,
      fun ⟨x, hx, hxt, hex, hrest⟩ => ?_⟩
    · have hex' : t ∉ except' := fun ht => by
        obtain ⟨g, hg, -⟩ := h.skeleton.get hx
        rcases hnew t ht with ht | ht
        · exact hex ht
        · simp [hxt, ht] at hg
      exact ⟨x, (hmem x (hxt ▸ hex')).mpr hx, hxt, hex', hrest⟩
    · exact ⟨x, (hmem x (hxt ▸ hex)).mp hx, hxt, fun ht => hex (hsub ht), hrest⟩
  refine ⟨hs, fun s hsG sp hsp => ?_, hw.chains h.chains fun c t ht => ?_, hcached⟩
  · rw [hw.span] at hsp
    rw [hw.quantum]
    simp only [List.mem_append, List.mem_cons] at hsG
    rcases hsG with hsG | rfl | hsG
    · exact h.hash s (by simp [hsG]) sp hsp
    · exact (h.hash r (by simp) sp hsp).congr rfl fun x hx => hsame x (.inr hx)
    · exact h.hash s (by simp [hsG]) sp hsp
  · obtain ⟨-, x, hx, rfl, -⟩ := (hcached c t).mp ht
    obtain ⟨g, hg, -⟩ := hs.get hx
    exact ⟨g, hg⟩

end Tracks
end Racoon.Arenas
