import Racoon.Mm.VmemRuns

/-!
# Adding ranges in any order

`vmem_add` finds the place of the new range in the list of the spans and in
that of the tags by itself. Both lists stay sorted by address, so that the
order of the additions does not show in them.
-/

namespace Racoon.Arenas
open Lib
variable {σ : Type} {v w : Vmem σ} {quantum t : ℕ} {g : Bt}

/-- A range that is added, and the answers of `kmalloc` for its span and its tag. -/
structure Addition where
  span : ℕ
  bt : ℕ
  addr : ℕ
  size : ℕ

variable {k k₁ k₂ l l' : List Addition} {n : Addition}

def Addition.block (n : Addition) : Block := (n.addr, n.size)

/-- `vmem_add` for each of the ranges, and its answers. -/
def addAll (v : Vmem σ) : List Addition → Outcome (Vmem σ × List ℕ)
  | [] => .ok (v, [])
  | n :: l => do
    let (v, a) ← vmemAdd (some n.span) true (some n.bt) v n.addr n.size
    let (v, answers) ← addAll v l
    .ok (v, a :: answers)

/-- The spans and the tags are those of the ranges `k`, which are in the order of their
addresses. -/
structure Listed (v : Vmem σ) (k : List Addition) : Prop where
  sorted : k.Pairwise fun m n => m.addr < n.addr
  spans : v.spans = (k.map Addition.span).head?
  spanLinks : ∃ prev, Linked (via Span.next v.span) prev none (k.map Addition.span) none
  spanHeld : ∀ n ∈ k, ∃ sp, v.span n.span = some sp ∧ sp.addr = n.addr ∧ sp.size = n.size
  tags : v.tags = (k.map Addition.bt).head?
  linked : Linked (via Bt.next v.tag) (via Bt.prev v.tag) none (k.map Addition.bt) none
  held : ∀ n ∈ k, ∃ g, v.tag n.bt = some g ∧ g.addr = n.addr ∧ g.size = n.size

/-- The arena between two additions. -/
structure Adding (v : Vmem σ) (k : List Addition) : Prop extends Listed v k where
  quantum : 0 < v.quantum
  onlySpans : ∀ s sp, v.span s = some sp → s ∈ k.map Addition.span
  onlyTags : ∀ t g, v.tag t = some g → t ∈ k.map Addition.bt
  chains : ∃ fl, FreeChains v fl

/-- `kmalloc` gives out no address twice. -/
structure Fresh (l : List Addition) : Prop where
  spans : (l.map Addition.span).Nodup
  tags : (l.map Addition.bt).Nodup

/-- Ranges of whole quanta that share no byte. -/
structure Addable (quantum : ℕ) (blocks : List Block) : Prop where
  fits : ∀ b ∈ blocks, 0 < b.2 ∧ quantum ∣ b.2 ∧ b.1 + b.2 < 2 ^ 32
  apart : blocks.Pairwise Block.Apart

theorem Fresh.perm (h : Fresh l) (hp : l.Perm l') : Fresh l' :=
  ⟨(hp.map _).nodup_iff.mp h.spans, (hp.map _).nodup_iff.mp h.tags⟩

theorem Addable.perm {blocks blocks' : List Block} (h : Addable quantum blocks)
    (hp : blocks.Perm blocks') : Addable quantum blocks' :=
  ⟨fun b hb => h.fits b (hp.mem_iff.mpr hb), hp.pairwise h.apart Or.symm⟩

/-- Where an address belongs. -/
theorem exists_split (hs : k.Pairwise fun m n => m.addr < n.addr) (a : ℕ) :
    ∃ k₁ k₂, k = k₁ ++ k₂ ∧ (∀ m ∈ k₁, m.addr < a) ∧ ∀ m ∈ k₂, a ≤ m.addr := by
  induction k with
  | nil => exact ⟨[], [], rfl, by simp, by simp⟩
  | cons m k ih =>
    obtain ⟨hm, hs⟩ := List.pairwise_cons.mp hs
    by_cases hlt : m.addr < a
    · obtain ⟨k₁, k₂, rfl, h₁, h₂⟩ := ih hs
      exact ⟨m :: k₁, k₂, rfl, List.forall_mem_cons.mpr ⟨hlt, h₁⟩, h₂⟩
    · refine ⟨[], m :: k, rfl, by simp, List.forall_mem_cons.mpr ⟨by omega, fun m' hm' => ?_⟩⟩
      have := hm m' hm'
      omega

/-- No span but the new one is added. -/
theorem insertSpan_only {u : Vmem σ} {insert : Option ℕ} {s x : ℕ} {sp sp' : Span}
    (h : insertSpan v insert s sp = .ok u) (hx : u.span x = some sp') :
    x = s ∨ ∃ sp₀, v.span x = some sp₀ := by
  refine or_iff_not_imp_left.mpr fun hne => ?_
  cases insert with
  | none =>
    cases h
    exact ⟨sp', (Function.update_of_ne hne _ _).symm.trans hx⟩
  | some before =>
    obtain ⟨b, hb, h⟩ := bind_eq_ok.mp h
    have hb : v.span before = some b := deref_eq_ok.mp hb
    obtain ⟨span, hspan, h⟩ := bind_eq_ok.mp h
    cases h
    obtain ⟨y, hy, hspan⟩ := bind_eq_ok.mp hspan
    obtain ⟨sp₁, -, hspan⟩ := bind_eq_ok.mp hspan
    cases hspan
    cases deref_eq_ok.mp hy
    by_cases hxb : x = before
    · exact ⟨b, hxb ▸ hb⟩
    · exact ⟨sp', ((Function.update_of_ne hxb _ _).trans
        (Function.update_of_ne hne _ _)).symm.trans hx⟩

namespace Listed

theorem length_le (h : Listed v k) (hfits : ∀ n ∈ k, n.addr < 2 ^ 32) : k.length ≤ walkBound :=
  length_le_of_sorted h.sorted hfits

/-- Links in the free lists do not count. -/
theorem relink (h : Listed v k) (cache next prev : ℕ → Option ℕ) :
    Listed (v.relink cache next prev) k where
  sorted := h.sorted
  spans := h.spans
  spanLinks := h.spanLinks
  spanHeld := h.spanHeld
  tags := h.tags
  linked := by
    have hvia : ∀ field : Bt → Option ℕ, (∀ g a b, field { g with flNext := a, flPrev := b } =
        field g) → via field (v.relink cache next prev).tag = via field v.tag := by
      intro field hf
      funext y
      simp only [via, Vmem.relink, Option.bind_map, Function.comp_def, hf]
    rw [hvia Bt.next fun _ _ _ => rfl, hvia Bt.prev fun _ _ _ => rfl]
    exact h.linked
  held n hn := by
    obtain ⟨g, hg, haddr, hsize⟩ := h.held n hn
    exact ⟨_, relink_tag hg, haddr, hsize⟩

/-- The walks over both lists find the place of an address. -/
theorem insertFrom_eq (h : Listed v (k₁ ++ k₂)) (hlen : (k₁ ++ k₂).length ≤ walkBound) {a : ℕ}
    (h₁ : ∀ m ∈ k₁, m.addr < a) (h₂ : ∀ m ∈ k₂, a ≤ m.addr) :
    insertFrom v.span Span.addr Span.next a walkBound v.spans none =
        .ok (k₁.map Addition.span).getLast? ∧
      insertFrom v.tag Bt.addr Bt.next a walkBound v.tags none =
        .ok (k₁.map Addition.bt).getLast? := by
  have hhead : ∀ {f : Addition → ℕ} {y : ℕ}, y ∈ (k₂.map f).head? → ∃ m ∈ k₂, f m = y := by
    intro f y hy
    exact List.mem_map.mp (List.mem_of_mem_head? hy)
  constructor
  · obtain ⟨prev, hl⟩ := h.spanLinks
    rw [List.map_append] at hl
    rw [h.spans, List.map_append, Arenas.insertFrom_eq hl (fun s hs => ?_) (fun s hs => ?_)
      (by simpa using hlen), Option.or_none]
    · obtain ⟨m, hm, rfl⟩ := List.mem_map.mp hs
      obtain ⟨sp, hsp, haddr, -⟩ := h.spanHeld m (by simp [hm])
      exact ⟨sp, hsp, haddr ▸ h₁ m hm⟩
    · obtain ⟨m, hm, rfl⟩ := hhead hs
      obtain ⟨sp, hsp, haddr, -⟩ := h.spanHeld m (by simp [hm])
      exact ⟨sp, hsp, haddr ▸ h₂ m hm⟩
  · have hl := h.linked
    rw [List.map_append] at hl
    rw [h.tags, List.map_append, Arenas.insertFrom_eq hl (fun t ht => ?_) (fun t ht => ?_)
      (by simpa using hlen), Option.or_none]
    · obtain ⟨m, hm, rfl⟩ := List.mem_map.mp ht
      obtain ⟨g, hg, haddr, -⟩ := h.held m (by simp [hm])
      exact ⟨g, hg, haddr ▸ h₁ m hm⟩
    · obtain ⟨m, hm, rfl⟩ := hhead ht
      obtain ⟨g, hg, haddr, -⟩ := h.held m (by simp [hm])
      exact ⟨g, hg, haddr ▸ h₂ m hm⟩

end Listed

namespace Adding

/-- The span and the tag are in their lists, and the tag in no free list yet. -/
theorem insert_eq (h : Adding v (k₁ ++ k₂)) (hfresh : Fresh (n :: (k₁ ++ k₂)))
    (h₁ : ∀ m ∈ k₁, m.addr < n.addr) (h₂ : ∀ m ∈ k₂, n.addr < m.addr) {sp : Span}
    (haddr : sp.addr = n.addr) (hsize : sp.size = n.size) :
    ∃ u w fl g, insertSpan v (k₁.map Addition.span).getLast? n.span sp = .ok u ∧
      insertTag u (k₁.map Addition.bt).getLast? n.bt
        ⟨n.addr, n.size, 0, .free, none, none, none, none⟩ = .ok w ∧
      w.quantum = v.quantum ∧ Adding w (k₁ ++ n :: k₂) ∧ FreeChains w fl ∧ w.tag n.bt = some g ∧
      g.size = n.size ∧ ∀ c, n.bt ∉ fl c := by
  obtain ⟨fl, hchains⟩ := h.chains
  obtain ⟨hspan, hspans⟩ := List.nodup_cons.mp hfresh.spans
  obtain ⟨hbt, htags⟩ := List.nodup_cons.mp hfresh.tags
  have hs : v.span n.span = none := Option.eq_none_iff_forall_ne_some.mpr fun sp hsp =>
    hspan (h.onlySpans _ sp hsp)
  have ht : v.tag n.bt = none := Option.eq_none_iff_forall_ne_some.mpr fun g hg =>
    hbt (h.onlyTags _ g hg)
  have hmap : ∀ f : Addition → ℕ, (k₁ ++ k₂).map f = k₁.map f ++ k₂.map f := fun f =>
    List.map_append
  have hmap' : ∀ f : Addition → ℕ,
      (k₁ ++ n :: k₂).map f = k₁.map f ++ f n :: k₂.map f := fun f => by
    simp
  obtain ⟨span, nextSpan, hspanEq, hspanLinks, hspanNew, hspanOld⟩ := insertSpan_eq sp
    (hmap _ ▸ h.spanLinks) (hmap _ ▸ hspans) (fun y hy => by
      rw [← hmap] at hy
      obtain ⟨m, hm, rfl⟩ := List.mem_map.mp hy
      obtain ⟨sp, hsp, -⟩ := h.spanHeld m hm
      exact ⟨sp, hsp⟩) (hmap _ ▸ h.spans) hs
  let u : Vmem σ := { v with
    span := span, spans := (k₁.map Addition.span ++ n.span :: k₂.map Addition.span).head? }
  obtain ⟨tag, next, prev, htagEq, htagLinks, htagNew, htagOld⟩ := insertTag_eq (v := u)
    (g := ⟨n.addr, n.size, 0, .free, none, none, none, none⟩) (hmap _ ▸ h.linked)
    (hmap _ ▸ htags) (fun y hy => by
      rw [← hmap] at hy
      obtain ⟨m, hm, rfl⟩ := List.mem_map.mp hy
      obtain ⟨g, hg, -⟩ := h.held m hm
      exact ⟨g, hg⟩) (hmap _ ▸ h.tags) ht
  have hold : ∀ x g, v.tag x = some g → tag x = some { g with next := next x, prev := prev x } := by
    intro x g hg
    have hx : x ≠ n.bt := fun e => by simp [e, ht] at hg
    rw [htagOld x hx]
    exact congrArg (Option.map _) hg
  have hback : ∀ x g', tag x = some g' → x = n.bt ∨ ∃ g, v.tag x = some g := by
    intro x g' hg'
    refine or_iff_not_imp_left.mpr fun hx => ?_
    rw [htagOld x hx] at hg'
    obtain ⟨g, hg, -⟩ := Option.map_eq_some_iff.mp hg'
    exact ⟨g, hg⟩
  have hout : ∀ c, n.bt ∉ fl c := fun c hc => by
    obtain ⟨g, hg⟩ := hchains.alive c _ hc
    simp [ht] at hg
  have hcases : ∀ m, m ∈ k₁ ++ n :: k₂ → m = n ∨ m ∈ k₁ ++ k₂ := fun m hm => by
    simp only [List.mem_append, List.mem_cons] at hm ⊢
    tauto
  obtain ⟨hs₁, hs₂, hends⟩ := List.pairwise_append.mp h.sorted
  have hlisted : Listed { u with tag := tag, tags := (k₁.map Addition.bt ++ n.bt ::
      k₂.map Addition.bt).head? } (k₁ ++ n :: k₂) := by
    refine ⟨List.pairwise_append.mpr ⟨hs₁, List.pairwise_cons.mpr ⟨h₂, hs₂⟩, fun m hm m' hm' => ?_⟩,
      by rw [hmap'], by rw [hmap']; exact hspanLinks, fun m hm => ?_, by rw [hmap'],
      by rw [hmap']; exact htagLinks, fun m hm => ?_⟩
    · rcases List.mem_cons.mp hm' with rfl | hm'
      · exact h₁ m hm
      · exact hends m hm m' hm'
    · rcases hcases m hm with rfl | hm
      · exact ⟨_, hspanNew, haddr, hsize⟩
      · obtain ⟨sp₀, hsp₀, ha, hz⟩ := h.spanHeld m hm
        obtain ⟨nx, hnx⟩ := hspanOld _ _ hsp₀
        exact ⟨_, hnx, ha, hz⟩
    · rcases hcases m hm with rfl | hm
      · exact ⟨_, htagNew, rfl, rfl⟩
      · obtain ⟨g, hg, ha, hz⟩ := h.held m hm
        exact ⟨_, hold _ g hg, ha, hz⟩
  have hchains' : FreeChains { u with tag := tag, tags := (k₁.map Addition.bt ++ n.bt ::
      k₂.map Addition.bt).head? } fl := by
    refine hchains.transfer rfl rfl (fun c x _ g hg => ⟨_, hold x g hg, rfl, rfl⟩)
      fun x g' hg' hno => ?_
    rcases hback x g' hg' with rfl | ⟨g, hg⟩
    · cases htagNew.symm.trans hg'
      exact ⟨rfl, rfl⟩
    · cases (hold x g hg).symm.trans hg'
      exact hchains.loose x g hg hno
  refine ⟨u, _, fl, _, hspanEq, htagEq, rfl, ⟨hlisted, h.quantum, fun s sp₁ hsp₁ => ?_,
    fun x g' hg' => ?_, fl, hchains'⟩, hchains', htagNew, rfl, hout⟩
  · rw [hmap']
    rcases insertSpan_only hspanEq hsp₁ with rfl | ⟨sp₀, hsp₀⟩
    · simp
    · have := hmap _ ▸ h.onlySpans s sp₀ hsp₀
      simp only [List.mem_append, List.mem_cons] at this ⊢
      tauto
  · rw [hmap']
    rcases hback x g' hg' with rfl | ⟨g, hg⟩
    · simp
    · have := hmap _ ▸ h.onlyTags x g hg
      simp only [List.mem_append, List.mem_cons] at this ⊢
      tauto

/-- One addition. -/
theorem add_eq (h : Adding v k) (hfresh : Fresh (n :: k))
    (hblocks : Addable v.quantum ((n :: k).map Addition.block)) :
    ∃ w k', vmemAdd (some n.span) true (some n.bt) v n.addr n.size = .ok (w, n.addr) ∧
      w.quantum = v.quantum ∧ Adding w k' ∧ k'.Perm (n :: k) := by
  obtain ⟨hpos, hdvd, htop⟩ : 0 < n.size ∧ v.quantum ∣ n.size ∧ n.addr + n.size < 2 ^ 32 :=
    hblocks.fits n.block (by simp)
  have hapart := (List.pairwise_cons.mp hblocks.apart).1
  have hpos' : ∀ m ∈ k, 0 < m.size := fun m hm =>
    (hblocks.fits m.block (List.mem_cons_of_mem _ (List.mem_map_of_mem hm))).1
  have hlen := h.length_le fun m hm => by
    have := (hblocks.fits m.block (List.mem_cons_of_mem _ (List.mem_map_of_mem hm))).2.2
    exact (Nat.le_add_right _ _).trans_lt this
  obtain ⟨k₁, k₂, rfl, h₁, h₂⟩ := exists_split h.sorted n.addr
  have h₂' : ∀ m ∈ k₂, n.addr < m.addr := fun m hm => by
    have hmk : m ∈ k₁ ++ k₂ := List.mem_append_right _ hm
    have hle := h₂ m hm
    have := hpos' m hmk
    have hdisj : n.addr + n.size ≤ m.addr ∨ m.addr + m.size ≤ n.addr :=
      hapart m.block (List.mem_map_of_mem hmk)
    omega
  obtain ⟨hspan, hbt⟩ := h.toListed.insertFrom_eq hlen h₁ h₂
  obtain ⟨u, w, fl, g, hspanEq, htagEq, hquantum, hw, hchains, hg, hsize, hout⟩ :=
    h.insert_eq hfresh h₁ h₂' (show Span.addr ⟨n.addr, n.size, n.size / v.quantum, fun _ => none,
      n.size / v.quantum * sizeofPointer % 2 ^ 32, none⟩ = n.addr from rfl) rfl
  have hq : g.size / w.quantum ≠ 0 := by
    rw [hsize, hquantum]
    exact (Nat.div_pos (Nat.le_of_dvd hpos hdvd) h.quantum).ne'
  obtain ⟨cache, next, prev, fl', hencache, hchains', -⟩ := encache_eq hchains hg hq hout
  refine ⟨w.relink cache next prev, k₁ ++ n :: k₂, ?_, hquantum,
    ⟨hw.toListed.relink cache next prev,
    hw.quantum, hw.onlySpans, fun t g' hg' => ?_, fl', hchains'⟩, List.perm_middle⟩
  · have hend : add32 n.addr n.size = n.addr + n.size := add32_of_lt htop
    rw [vmemAdd, assert_of hpos, ok_bind, assert_of (Nat.mod_eq_zero_of_dvd hdvd), ok_bind,
      assert_of (by omega), ok_bind, hspan, ok_bind]
    dsimp only
    rw [if_neg (by simp), hbt, ok_bind, hspanEq, ok_bind, htagEq, ok_bind, hencache, ok_bind]
  · obtain ⟨g₀, hg₀, -⟩ := Option.map_eq_some_iff.mp hg'
    exact hw.onlyTags t g₀ hg₀

/-- All additions of a list, one after another. -/
theorem addAll_eq (h : Adding v k) (hfresh : Fresh (l ++ k))
    (hblocks : Addable v.quantum ((l ++ k).map Addition.block)) :
    ∃ w k', addAll v l = .ok (w, l.map Addition.addr) ∧ Adding w k' ∧ k'.Perm (l ++ k) := by
  induction l generalizing v k with
  | nil => exact ⟨v, k, rfl, h, .refl k⟩
  | cons n l ih =>
    have hsub : (n :: k).Sublist (n :: l ++ k) :=
      List.Sublist.cons_cons n (List.sublist_append_right l k)
    have hperm : (n :: l ++ k).Perm (l ++ n :: k) := List.perm_middle.symm
    obtain ⟨w, k₁, hadd, hquantum, hw, hk₁⟩ := h.add_eq
      ⟨hfresh.spans.sublist (hsub.map _), hfresh.tags.sublist (hsub.map _)⟩
      ⟨fun b hb => hblocks.fits b ((hsub.map _).subset hb), hblocks.apart.sublist (hsub.map _)⟩
    have hrest : (n :: l ++ k).Perm (l ++ k₁) := hperm.trans (hk₁.symm.append_left l)
    obtain ⟨u, k₂, hall, hu, hk₂⟩ := ih hw (hfresh.perm hrest)
      (hquantum ▸ hblocks.perm (hrest.map _))
    refine ⟨u, k₂, ?_, hu, hk₂.trans hrest.symm⟩
    rw [addAll, hadd, ok_bind]
    dsimp only
    rw [hall, ok_bind]
    rfl

end Adding

theorem vmemCreate_adding {quantum qcacheMax : ℕ} {afunc : σ → ℕ → ℕ → Outcome (σ × ℕ)}
    {ffunc : σ → ℕ → ℕ → Outcome σ} {source : Option σ}
    (h : vmemCreate quantum qcacheMax afunc ffunc source = .ok v) : Adding v [] := by
  obtain ⟨-, hv⟩ := vmemCreate_represents h
  have hspan : v.span = fun _ => none := by
    unfold vmemCreate at h
    split_ifs at h
    obtain ⟨bits, -, h⟩ := bind_eq_ok.mp h
    cases h
    rfl
  refine ⟨⟨.nil, hv.skeleton.spans, hv.skeleton.spanLinks, nofun, hv.skeleton.tags,
    hv.skeleton.linked, nofun⟩, hv.skeleton.quantum, fun s sp hsp => ?_,
    hv.skeleton.only, _, hv.chains⟩
  simp [hspan] at hsp

/-- Ranges that share no byte may be added to an empty arena in any order: each is once in the list
of the spans and once in that of the tags, sorted by address, and the lists are the same. -/
theorem vmemAdd_commutes {qcacheMax : ℕ} {afunc : σ → ℕ → ℕ → Outcome (σ × ℕ)}
    {ffunc : σ → ℕ → ℕ → Outcome σ} {source : Option σ}
    (h : vmemCreate quantum qcacheMax afunc ffunc source = .ok v) (hfresh : Fresh l)
    (hfresh' : Fresh l') (hblocks : Addable quantum (l.map Addition.block))
    (hperm : (l.map Addition.block).Perm (l'.map Addition.block)) :
    ∃ w w' k k', addAll v l = .ok (w, l.map Addition.addr) ∧ k.Perm l ∧ Listed w k ∧
      addAll v l' = .ok (w', l'.map Addition.addr) ∧ k'.Perm l' ∧ Listed w' k' ∧
      k.map Addition.block = k'.map Addition.block := by
  have hv := vmemCreate_adding h
  have hquantum : v.quantum = quantum := by
    unfold vmemCreate at h
    split_ifs at h
    obtain ⟨bits, -, h⟩ := bind_eq_ok.mp h
    cases h
    rfl
  obtain ⟨w, k, hw, hk, hperm₁⟩ := hv.addAll_eq (l := l) (by simpa using hfresh)
    (by simpa [hquantum] using hblocks)
  obtain ⟨w', k', hw', hk', hperm₂⟩ := hv.addAll_eq (l := l') (by simpa using hfresh')
    (by simpa [hquantum] using hblocks.perm hperm)
  rw [List.append_nil] at hperm₁ hperm₂
  refine ⟨w, w', k, k', hw, hperm₁, hk.toListed, hw', hperm₂, hk'.toListed, ?_⟩
  have hsorted : ∀ {j : List Addition}, j.Pairwise (fun m n => m.addr < n.addr) →
      (j.map Addition.block).Pairwise fun b c => b.1 < c.1 := fun hj => List.pairwise_map.mpr hj
  exact List.Perm.eq_of_pairwise (fun b c _ _ hbc hcb => absurd hbc hcb.asymm) (hsorted hk.sorted)
    (hsorted hk'.sorted) ((hperm₁.map _).trans (hperm.trans (hperm₂.map _).symm))

theorem vmemAdd_commutes_two :
    ∃ w w' k k', addAll (smallArena 4096 65536).arena
        [⟨1, 1, 0x80000000, 8192⟩, ⟨2, 2, 0x10000, 4096⟩] = .ok (w, [0x80000000, 0x10000]) ∧
      k.Perm [⟨1, 1, 0x80000000, 8192⟩, ⟨2, 2, 0x10000, 4096⟩] ∧ Listed w k ∧
      addAll (smallArena 4096 65536).arena
        [⟨1, 1, 0x10000, 4096⟩, ⟨2, 2, 0x80000000, 8192⟩] = .ok (w', [0x10000, 0x80000000]) ∧
      k'.Perm [⟨1, 1, 0x10000, 4096⟩, ⟨2, 2, 0x80000000, 8192⟩] ∧ Listed w' k' ∧
      k.map Addition.block = k'.map Addition.block :=
  @vmemAdd_commutes _ _ _ [⟨1, 1, 0x80000000, 8192⟩, ⟨2, 2, 0x10000, 4096⟩]
    [⟨1, 1, 0x10000, 4096⟩, ⟨2, 2, 0x80000000, 8192⟩] _ _ _ _
    (show vmemCreate 4096 65536 _ _ none = .ok (smallArena 4096 65536).arena from rfl)
    ⟨by decide, by decide⟩ ⟨by decide, by decide⟩
    ⟨by decide,
      .cons (List.forall_mem_singleton.mpr (.inr (by decide))) (List.pairwise_singleton ..)⟩
    (.swap ..)

end Racoon.Arenas
