import Racoon.Mm.Arena

/-!
# Adding a range

`vmem_add` inserts a span and a free tag where their address belongs. The table
of the span has a slot for each quantum; its size in bytes is computed in 32
bits, so that a range of `2^30` quanta gets no table at all.
-/

namespace Racoon.Arenas
open Lib
variable {σ : Type} {v : Vmem σ} {G G₁ G₂ : List Region} {r : Region} {fl : ℕ → List ℕ}
  {addr size s t : ℕ}

/-- The walk stops behind the nodes with lower addresses. -/
theorem insertFrom_eq {ν : Type} {heap : ℕ → Option ν} {addrOf : ν → ℕ} {link : ν → Option ℕ}
    {prev : ℕ → Option ℕ} {xs ys : List ℕ} {a insert : Option ℕ} {left : ℕ}
    (hl : Linked (via link heap) prev a (xs ++ ys) none)
    (hxs : ∀ x ∈ xs, ∃ n, heap x = some n ∧ addrOf n < addr)
    (hys : ∀ y ∈ ys.head?, ∃ n, heap y = some n ∧ addr ≤ addrOf n)
    (hleft : (xs ++ ys).length ≤ left) :
    insertFrom heap addrOf link addr left (xs ++ ys).head? insert =
    .ok (xs.getLast?.or insert) := by
  induction xs generalizing a insert left with
  | nil =>
    cases ys with
    | nil => cases left <;> rfl
    | cons y ys =>
      obtain ⟨left, rfl⟩ := Nat.exists_eq_add_one_of_ne_zero (show left ≠ 0 by
        rintro rfl
        simp at hleft)
      obtain ⟨n, hn, hle⟩ := hys y rfl
      rw [List.nil_append, List.head?_cons, insertFrom, load_some hn, ok_bind, if_pos hle]
      rfl
  | cons x xs ih =>
    obtain ⟨left, rfl⟩ := Nat.exists_eq_add_one_of_ne_zero (show left ≠ 0 by
      rintro rfl
      simp at hleft)
    obtain ⟨n, hn, hlt⟩ := hxs x (by simp)
    obtain ⟨-, hnext, hl⟩ := (List.cons_append ▸ hl :
      Linked (via link heap) prev a (x :: (xs ++ ys)) none)
    rw [via_of hn, Option.or_none] at hnext
    rw [List.cons_append, List.head?_cons, insertFrom, load_some hn, ok_bind, if_neg (by omega),
      hnext, ih hl (fun x hx => hxs x (by simp [hx])) (by simpa using hleft)]
    cases h : xs.getLast? <;> simp [List.getLast?_cons, h]

theorem insertSpan_eq {xs ys : List ℕ} (sp : Span)
    (hl : ∃ prev, Linked (via Span.next v.span) prev none (xs ++ ys) none)
    (hd : (xs ++ ys).Nodup) (halive : ∀ y ∈ xs ++ ys, ∃ sp, v.span y = some sp)
    (hfirst : v.spans = (xs ++ ys).head?) (hs : v.span s = none) :
    ∃ span next, insertSpan v xs.getLast? s sp =
        .ok { v with span := span, spans := (xs ++ s :: ys).head? } ∧
      (∃ prev, Linked (via Span.next span) prev none (xs ++ s :: ys) none) ∧
      span s = some { sp with next := next } ∧
      ∀ k sp₀, v.span k = some sp₀ → ∃ next, span k = some { sp₀ with next := next } := by
  obtain ⟨prev, hl⟩ := hl
  have hnot : s ∉ xs ++ ys := fun hm => by
    obtain ⟨sp, hsp⟩ := halive s hm
    simp [hs] at hsp
  have hother : ∀ k sp₀, v.span k = some sp₀ → k ≠ s := fun k sp₀ hk e => by simp [e, hs] at hk
  -- the spans have no pointers back, so that the chain is given some
  let prev' : ℕ → Option ℕ := fun y => if y = s then xs.getLast? else
    if ys.head? = some y then some s else prev y
  have hprev : prev' s = xs.getLast?.or none := by simp [prev']
  have hprev' : ∀ y ∈ xs ++ ys, prev' y = if ys.head? = some y then some s else prev y := by
    intro y hy
    exact if_neg fun e : y = s => hnot (e ▸ hy)
  cases hlast : xs.getLast? with
  | none =>
    obtain rfl := List.getLast?_eq_none_iff.mp hlast
    refine ⟨Function.update v.span s (some { sp with next := v.spans }), v.spans, rfl,
      ⟨prev', hl.link hd ?_ hprev (fun y hy => ?_) hprev'⟩, Function.update_self ..,
      fun k sp₀ hk => ?_⟩
    · rw [via_of (Function.update_self ..), hfirst]
      simp
    · rw [via_update, if_neg fun e : y = s => hnot (e ▸ hy)]
      simp
    · exact ⟨sp₀.next, (Function.update_of_ne (hother k sp₀ hk) _ _).trans hk⟩
  | some before =>
    obtain ⟨xs, rfl⟩ := List.getLast?_eq_some_iff.mp hlast
    obtain ⟨b, hb⟩ := halive before (by simp)
    have hbs : before ≠ s := hother before b hb
    have hnext := (@Linked.at_mid _ _ _ _ _ before xs ys (by simpa using hl)).2
    rw [via_of hb, Option.or_none] at hnext
    have hb' : Function.update v.span s (some { sp with next := b.next }) before = some b :=
      (Function.update_of_ne hbs _ _).trans hb
    refine ⟨Function.update (Function.update v.span s (some { sp with next := b.next })) before
      (some { b with next := some s }), b.next, ?_, ⟨prev', hl.link hd ?_ hprev (fun y hy => ?_)
        hprev'⟩, ?_, fun k sp₀ hk => ?_⟩
    · have hhead : (xs ++ [before] ++ s :: ys).head? = v.spans := by
        rw [hfirst]
        simp
      rw [insertSpan, load_some hb, ok_bind, Vmem.setSpan, modify_some hb', hhead]
      rfl
    · rw [via_update, if_neg hbs.symm, via_of (Function.update_self ..), Option.or_none]
      exact hnext
    · rw [via_update, hlast]
      by_cases hy' : y = before
      · simp [hy']
      · rw [if_neg hy', if_neg (by simpa using Ne.symm hy'), via_update,
          if_neg fun e : y = s => hnot (e ▸ hy)]
    · exact (Function.update_of_ne hbs.symm _ _).trans (Function.update_self ..)
    · by_cases hk' : k = before
      · subst hk'
        rw [hb] at hk
        cases hk
        exact ⟨some s, Function.update_self ..⟩
      · exact ⟨sp₀.next, ((Function.update_of_ne hk' _ _).trans
          (Function.update_of_ne (hother k sp₀ hk) _ _)).trans hk⟩

theorem insertTag_eq {xs ys : List ℕ} {g : Bt}
    (hl : Linked (via Bt.next v.tag) (via Bt.prev v.tag) none (xs ++ ys) none)
    (hd : (xs ++ ys).Nodup) (halive : ∀ y ∈ xs ++ ys, ∃ g, v.tag y = some g)
    (hfirst : v.tags = (xs ++ ys).head?) (ht : v.tag t = none) :
    ∃ (tag : ℕ → Option Bt) (next prev : ℕ → Option ℕ), insertTag v xs.getLast? t g =
        .ok { v with tag := tag, tags := (xs ++ t :: ys).head? } ∧
      Linked (via Bt.next tag) (via Bt.prev tag) none (xs ++ t :: ys) none ∧
      tag t = some { g with next := next t, prev := prev t } ∧
      ∀ k, k ≠ t → tag k = (v.tag k).map fun g => { g with next := next k, prev := prev k } := by
  have hnot : t ∉ xs ++ ys := fun hm => by
    obtain ⟨g, hg⟩ := halive t hm
    simp [ht] at hg
  let new : Bt := { g with next := ys.head?, prev := xs.getLast? }
  let u : Vmem σ := Vmem.putTag { v with tags := (xs ++ t :: ys).head? } t new
  have hplace : placeTag v xs.getLast? t g =
      .ok ({ v with tags := (xs ++ t :: ys).head? }, new) := by
    cases hlast : xs.getLast? with
    | none =>
      obtain rfl := List.getLast?_eq_none_iff.mp hlast
      simp [placeTag, new, hfirst]
    | some before =>
      obtain ⟨xs, rfl⟩ := List.getLast?_eq_some_iff.mp hlast
      obtain ⟨b, hb⟩ := halive before (by simp)
      have hnext := (@Linked.at_mid _ _ _ _ _ before xs ys (by simpa using hl)).2
      rw [via_of hb, Option.or_none] at hnext
      have hhead : (xs ++ [before] ++ t :: ys).head? = v.tags := by
        rw [hfirst]
        simp
      rw [placeTag, load_some hb, ok_bind, hhead, hnext]
      simp [new]
  have hu : ∀ k, k ≠ t → u.tag k = v.tag k := fun k hk => Function.update_of_ne hk _ _
  have hualive : ∀ y ∈ xs ++ ys, ∃ g, u.tag y = some g := fun y hy => by
    rw [hu y fun e => hnot (e ▸ hy)]
    exact halive y hy
  obtain ⟨next, hsetn, hn⟩ := setTagIf_rechain_next (v := u) (via Bt.next u.tag)
    (via Bt.prev u.tag) (q := xs.getLast?)
    (fun y hy => hualive y (List.mem_append_left _ (List.mem_of_getLast? hy))) (some t)
  obtain ⟨prev, hsetp, hp⟩ := setTagIf_rechain_prev (v := u) next
    (via Bt.prev u.tag) (q := ys.head?)
    (fun y hy => hualive y (List.mem_append_right _ (List.mem_of_mem_head? hy))) (some t)
  rw [rechain_self] at hsetn
  have hnew := @rechain_tag σ u new next prev t Vmem.putTag_self
  refine ⟨(u.rechain next prev).tag, next, prev, ?_, ?_, hnew, fun k hk => ?_⟩
  · rw [insertTag, hplace, ok_bind]
    exact bind_eq_ok.mpr ⟨_, hsetn, hsetp⟩
  · refine linked_rechain hl hd (fun y hy => ?_) hnot Vmem.putTag_self rfl rfl hn hp
    obtain ⟨g, hg⟩ := halive y hy
    exact ⟨g, g, hg, (hu y fun e => hnot (e ▸ hy)).trans hg, rfl, rfl⟩
  · exact congrArg (Option.map _) (hu k hk)

/-- The region of a range that was just added. -/
def newRegion (s t addr size : ℕ) : Region := ⟨s, addr, size, [⟨t, addr, size, .free⟩]⟩

@[simp] theorem newRegion_ranges :
    (newRegion s t addr size).ranges = [⟨t, addr, size, .free⟩] := rfl

theorem newRegion_ok {quantum : ℕ} (hpos : 0 < size) (hdvd : quantum ∣ size)
    (htop : addr + size < 2 ^ 32) : (newRegion s t addr size).Ok quantum where
  dvd := hdvd
  pos := hpos
  top := htop
  tiles := ⟨rfl, hpos, rfl⟩
  whole x hx := by
    obtain rfl := List.mem_singleton.mp hx
    exact hdvd

/-- The span and the tag are in their lists, and the tag in no free list yet. -/
theorem Tracks.insert_eq (h : Tracks v (G₁ ++ G₂) fl []) (hpos : 0 < size)
    (hdvd : v.quantum ∣ size) (htop : addr + size < 2 ^ 32)
    (h₁ : ∀ s ∈ G₁, s.addr + s.size ≤ addr) (h₂ : ∀ s ∈ G₂, addr + size ≤ s.addr)
    (hs : v.span s = none) (ht : v.tag t = none) {sp : Span} {hash : ℕ}
    (hhash : hash = size / v.quantum * sizeofPointer)
    (hsp : sp = ⟨addr, size, size / v.quantum, fun _ => none, hash, none⟩) :
    ∃ u w, insertSpan v (G₁.map Region.span).getLast? s sp = .ok u ∧
      insertTag u (tagsOf G₁).getLast? t ⟨addr, size, 0, .free, none, none, none, none⟩ = .ok w ∧
      Kept v w ∧ Tracks w (G₁ ++ newRegion s t addr size :: G₂) fl [t] := by
  have hok := newRegion_ok (s := s) (t := t) hpos hdvd htop
  have htags := @tagsOf_append G₁ G₂
  have htags' : tagsOf (G₁ ++ newRegion s t addr size :: G₂) = tagsOf G₁ ++ t :: tagsOf G₂ := by
    rw [tagsOf_mid rfl]
    simp
  have hspans : (G₁ ++ G₂).map Region.span = G₁.map Region.span ++ G₂.map Region.span := by simp
  obtain ⟨span, nextSpan, hspanEq, hspanLinks, hspanNew, hspanOld⟩ := insertSpan_eq (s := s) sp
    (hspans ▸ h.skeleton.spanLinks) (hspans ▸ h.skeleton.span_inj) (fun y hy => by
      rw [← hspans] at hy
      obtain ⟨r, hr, rfl⟩ := List.mem_map.mp hy
      obtain ⟨sp, hsp, -⟩ := h.skeleton.spanHeld r hr
      exact ⟨sp, hsp⟩) (hspans ▸ h.skeleton.spans) hs
  let u : Vmem σ :=
    { v with span := span, spans := (G₁.map Region.span ++ s :: G₂.map Region.span).head? }
  obtain ⟨tag, next, prev, htagEq, htagLinks, htagNew, htagOld⟩ := insertTag_eq (v := u) (t := t)
    (g := ⟨addr, size, 0, .free, none, none, none, none⟩) (htags ▸ h.skeleton.linked)
    (htags ▸ h.skeleton.nodup) (fun y hy => h.skeleton.alive (htags ▸ hy))
    (htags ▸ h.skeleton.tags) ht
  have hold : ∀ k g, v.tag k = some g → tag k = some { g with next := next k, prev := prev k } := by
    intro k g hg
    have hk : k ≠ t := fun e => by simp [e, ht] at hg
    rw [htagOld k hk]
    exact congrArg (Option.map _) hg
  have hback : ∀ k g', tag k = some g' → k = t ∨ ∃ g, v.tag k = some g := by
    intro k g' hg'
    refine or_iff_not_imp_left.mpr fun hk => ?_
    rw [htagOld k hk] at hg'
    obtain ⟨g, hg, -⟩ := Option.map_eq_some_iff.mp hg'
    exact ⟨g, hg⟩
  have hmem : ∀ x, x ∈ rangesOf (G₁ ++ newRegion s t addr size :: G₂) ↔
      x ∈ rangesOf (G₁ ++ G₂) ∨ x = ⟨t, addr, size, .free⟩ := fun x => by
    rw [mem_rangesOf_mid rfl, rangesOf_append, List.mem_append, newRegion_ranges,
      List.mem_singleton]
    tauto
  have hskel : Skeleton { u with tag := tag, tags := (tagsOf G₁ ++ t :: tagsOf G₂).head? }
      (G₁ ++ newRegion s t addr size :: G₂) := by
    refine ⟨h.skeleton.quantum, h.skeleton.layout.insert hok h₁ h₂, ?_, ?_, fun r hr => ?_, ?_, ?_,
      fun x hx => ?_, fun k g' hg' => ?_⟩
    · simp [u, newRegion]
    · simpa [newRegion] using hspanLinks
    · have hcases : r ∈ G₁ ++ G₂ ∨ r = newRegion s t addr size := by
        simp only [List.mem_append, List.mem_cons] at hr ⊢
        tauto
      rcases hcases with hr | rfl
      · obtain ⟨sp₀, hsp₀, hshape⟩ := h.skeleton.spanHeld r hr
        obtain ⟨nx, hnx⟩ := hspanOld _ _ hsp₀
        exact ⟨_, hnx, hshape.1, hshape.2, hshape.3, hshape.4⟩
      · subst hsp
        exact ⟨_, hspanNew, rfl, rfl, rfl, hhash⟩
    · rw [htags']
    · rw [htags']
      exact htagLinks
    · rcases (hmem x).mp hx with hx | rfl
      · obtain ⟨g, hg, hr⟩ := h.skeleton.held x hx
        exact ⟨_, hold _ g hg, hr⟩
      · exact ⟨_, htagNew, rfl⟩
    · rw [htags']
      rcases hback k g' hg' with rfl | ⟨g, hg⟩
      · simp
      · have := htags ▸ h.skeleton.only k g hg
        simp only [List.mem_append, List.mem_cons] at this ⊢
        tauto
  refine ⟨u, _, hspanEq, htagEq, ⟨rfl, rfl, rfl, rfl, rfl, rfl⟩, hskel, fun r hr sp' hsp' => ?_, ?_,
    fun c k => ?_⟩
  · have hcases : r ∈ G₁ ++ G₂ ∨ r = newRegion s t addr size := by
      simp only [List.mem_append, List.mem_cons] at hr ⊢
      tauto
    rcases hcases with hr | rfl
    · obtain ⟨sp₀, hsp₀, -⟩ := h.skeleton.spanHeld r hr
      obtain ⟨nx, hnx⟩ := hspanOld _ _ hsp₀
      cases hnx.symm.trans hsp'
      exact h.hash r hr sp₀ hsp₀
    · cases hspanNew.symm.trans hsp'
      subst hsp
      intro i hi k
      simp [newRegion]
  · refine h.chains.transfer rfl rfl (fun c k _ g hg => ⟨_, hold k g hg, rfl, rfl⟩)
      fun k g' hg' hout => ?_
    rcases hback k g' hg' with rfl | ⟨g, hg⟩
    · cases htagNew.symm.trans hg'
      exact ⟨rfl, rfl⟩
    · cases (hold k g hg).symm.trans hg'
      exact h.chains.loose k g hg hout
  · refine (h.cached c k).trans (and_congr_right fun _ => exists_congr fun x => ?_)
    rw [hmem]
    constructor
    · rintro ⟨hx, rfl, -, hrest⟩
      obtain ⟨g, hg, -⟩ := h.skeleton.get hx
      exact ⟨.inl hx, rfl, fun e => by simp [List.mem_singleton.mp e, ht] at hg, hrest⟩
    · rintro ⟨hx | rfl, rfl, hex, hrest⟩
      · exact ⟨hx, rfl, by simp, hrest⟩
      · simp at hex

theorem Represents.vmemAdd_eq (h : Represents v G fl) (hpos : 0 < size) (hdvd : v.quantum ∣ size)
    (htop : addr + size < 2 ^ 32) (hslots : size / v.quantum < 2 ^ 30)
    (hapart : ∀ r ∈ G, Block.Apart (addr, size) (r.addr, r.size)) (hs : v.span s = none)
    (ht : v.tag t = none) :
    ∃ w G₁ G₂ fl', vmemAdd (some s) true (some t) v addr size = .ok (w, addr) ∧ Kept v w ∧
      G = G₁ ++ G₂ ∧ Represents w (G₁ ++ newRegion s t addr size :: G₂) fl' := by
  obtain ⟨G₁, G₂, rfl, h₁, h₂⟩ := h.skeleton.layout.exists_gap hapart
  have hend : add32 addr size = addr + size := add32_of_lt htop
  have hhash : size / v.quantum * sizeofPointer % 2 ^ 32 = size / v.quantum * sizeofPointer := by
    refine Nat.mod_eq_of_lt ?_
    rw [sizeofPointer]
    omega
  have hlow : ∀ x ∈ rangesOf G₁, x.addr < addr := fun x hx => by
    obtain ⟨r, hr, hx⟩ := mem_rangesOf.mp hx
    obtain ⟨-, hxpos, hhi, -⟩ := (h.skeleton.layout.region r (by simp [hr])).bounds hx
    have := h₁ r hr
    omega
  have hhigh : ∀ x ∈ rangesOf G₂, addr ≤ x.addr := fun x hx => by
    obtain ⟨r, hr, hx⟩ := mem_rangesOf.mp hx
    obtain ⟨hlo, -⟩ := (h.skeleton.layout.region r (by simp [hr])).bounds hx
    have := h₂ r hr
    omega
  have htags := @tagsOf_append G₁ G₂
  have hspans : (G₁ ++ G₂).map Region.span = G₁.map Region.span ++ G₂.map Region.span := by simp
  have hbeforeSpan : insertFrom v.span Span.addr Span.next addr walkBound v.spans none =
      .ok (G₁.map Region.span).getLast? := by
    obtain ⟨prev, hl⟩ := h.skeleton.spanLinks
    have hlen := h.skeleton.regions_length_le
    rw [h.skeleton.spans, hspans, insertFrom_eq (hspans ▸ hl) (fun k hk => ?_) (fun k hk => ?_)
      (by simpa using hlen), Option.or_none]
    · obtain ⟨r, hr, rfl⟩ := List.mem_map.mp hk
      obtain ⟨sp, hsp, hshape⟩ := h.skeleton.spanHeld r (by simp [hr])
      have := (h.skeleton.layout.region r (by simp [hr])).pos
      have := h₁ r hr
      exact ⟨sp, hsp, by rw [hshape.addr]; omega⟩
    · obtain ⟨r, hr, rfl⟩ := List.mem_map.mp (List.mem_of_mem_head? hk)
      obtain ⟨sp, hsp, hshape⟩ := h.skeleton.spanHeld r (by simp [hr])
      have := h₂ r hr
      exact ⟨sp, hsp, by rw [hshape.addr]; omega⟩
  have hbefore : insertFrom v.tag Bt.addr Bt.next addr walkBound v.tags none =
      .ok (tagsOf G₁).getLast? := by
    have hlen := h.skeleton.length_le
    rw [h.skeleton.tags, htags, insertFrom_eq (htags ▸ h.skeleton.linked) (fun k hk => ?_)
      (fun k hk => ?_) (htags ▸ hlen), Option.or_none]
    · obtain ⟨x, hx, rfl⟩ := List.mem_map.mp hk
      obtain ⟨g, hg, haddr, -⟩ := h.skeleton.get (x := x) (by simp [rangesOf_append, hx])
      exact ⟨g, hg, haddr ▸ hlow x hx⟩
    · obtain ⟨x, hx, rfl⟩ := List.mem_map.mp (List.mem_of_mem_head? hk)
      obtain ⟨g, hg, haddr, -⟩ := h.skeleton.get (x := x) (by simp [rangesOf_append, hx])
      exact ⟨g, hg, haddr ▸ hhigh x hx⟩
  obtain ⟨u, w, hspan, htag, hkept, hw⟩ := h.insert_eq hpos hdvd htop h₁ h₂ hs ht hhash rfl
  have hnew : ⟨t, addr, size, .free⟩ ∈ rangesOf (G₁ ++ newRegion s t addr size :: G₂) :=
    (mem_rangesOf_mid rfl).mpr (.inr (.inl (by simp)))
  obtain ⟨cache, next, prev, fl', hencache, h'⟩ := hw.encache_eq hnew rfl (by simp)
  refine ⟨w.relink cache next prev, G₁, G₂, fl', ?_, hkept.trans (Kept.relink ..), rfl, h', ?_⟩
  · rw [vmemAdd, assert_of hpos, ok_bind, assert_of (Nat.mod_eq_zero_of_dvd hdvd), ok_bind,
      assert_of (by omega), ok_bind, hbeforeSpan, ok_bind]
    dsimp only
    rw [if_neg (by simp), hbefore, ok_bind, hspan, ok_bind, htag, ok_bind, hencache, ok_bind]
  · intro r hr
    simp only [List.mem_append, List.mem_cons] at hr
    rcases hr with hr | rfl | hr
    · exact h.separated r (by simp [hr])
    · exact .singleton _
    · exact h.separated r (by simp [hr])

end Racoon.Arenas
