import Racoon.Mm.Arena

/-!
# Ranges that change their state

The state of a range is in its tag and in the table of its span. Both are
written, in either order, by allocating and by releasing.
-/

namespace Racoon.Arenas
open Lib
variable {σ : Type} {v : Vmem σ} {G G₁ G₂ : List Region} {r : Region} {x : Range}
  {l m : List Range} {fl : ℕ → List ℕ} {except : List ℕ} {g : Bt} {sp : Span}

def slotOf (quantum : ℕ) (r : Region) (x : Range) : ℕ := (x.addr - r.addr) / quantum

def Vmem.putSpan (v : Vmem σ) (span : ℕ) (sp : Span) : Vmem σ :=
  { v with span := Function.update v.span span (some sp) }


theorem Vmem.putSpan_self {k : ℕ} : (v.putSpan k sp).span k = some sp := Function.update_self ..

/-- The entry that the table has for a range. -/
def entryOf (x : Range) : Option ℕ := if x.state = .allocated then some x.tag else none

theorem Region.Ok.slot_lt {quantum : ℕ} (h : r.Ok quantum) (hx : x ∈ r.ranges) :
    slotOf quantum r x < r.size / quantum := by
  obtain ⟨hlo, hpos, hhi, -⟩ := h.bounds hx
  refine Nat.div_lt_div_of_lt_of_dvd h.dvd ?_
  omega

theorem Region.Ok.slot_mul {quantum : ℕ} (h : r.Ok quantum) (hx : x ∈ r.ranges) :
    x.addr = r.addr + slotOf quantum r x * quantum := by
  have hlo := (h.bounds hx).1
  rw [slotOf, Nat.div_mul_cancel (h.aligned hx)]
  omega

theorem HashHolds.set {quantum : ℕ} (h : HashHolds quantum sp r) (hok : r.Ok quantum)
    (hr : r.ranges = l ++ x :: m) (state : Allocation) :
    HashHolds quantum { sp with
        hash := Function.update sp.hash (slotOf quantum r x) (entryOf { x with state := state }) }
      { r with ranges := l ++ [{ x with state := state }] ++ m } := by
  have hx : x ∈ r.ranges := by simp [hr]
  have haddr := hok.slot_mul hx
  have hne : ∀ y, y ∈ l ∨ y ∈ m → y.addr ≠ x.addr := by
    have hsorted := hok.tiles.sorted
    rw [hr, List.pairwise_append, List.pairwise_cons] at hsorted
    have hxpos := (hok.bounds hx).2.1
    rintro y (hy | hy)
    · have := hsorted.2.2 y hy x (by simp)
      have := (hok.bounds (x := y) (by simp [hr, hy])).2.1
      omega
    · have := hsorted.2.1.1 y hy
      omega
  intro i hi t
  by_cases hslot : i = slotOf quantum r x
  · subst hslot
    dsimp only
    rw [Function.update_self]
    constructor
    · intro he
      unfold entryOf at he
      split_ifs at he with hs
      cases he
      exact ⟨_, by simp, rfl, hs, haddr⟩
    · rintro ⟨y, hy, rfl, hs, hya⟩
      rw [← haddr] at hya
      simp only [List.mem_append, List.mem_singleton] at hy
      rcases hy with (hy | rfl) | hy
      · exact absurd hya (hne y (.inl hy))
      · exact if_pos hs
      · exact absurd hya (hne y (.inr hy))
  · dsimp only
    rw [Function.update_of_ne hslot, h i hi t]
    have hxi : x.addr ≠ r.addr + i * quantum := fun e => by
      have hq : 0 < quantum := by
        rcases Nat.eq_zero_or_pos quantum with rfl | hq
        · have := Nat.eq_zero_of_zero_dvd (hok.whole x hx)
          have := (hok.bounds hx).2.1
          omega
        · exact hq
      exact hslot (Nat.eq_of_mul_eq_mul_right hq (by omega))
    refine exists_congr fun y => ?_
    rw [hr]
    simp only [List.mem_append, List.mem_cons, List.not_mem_nil, or_false]
    constructor
    · rintro ⟨hy | rfl | hy, ht, hs, hya⟩
      · exact ⟨.inl (.inl hy), ht, hs, hya⟩
      · exact absurd hya hxi
      · exact ⟨.inr hy, ht, hs, hya⟩
    · rintro ⟨(hy | rfl) | hy, ht, hs, hya⟩
      · exact ⟨.inl hy, ht, hs, hya⟩
      · exact absurd hya hxi
      · exact ⟨.inr (.inr hy), ht, hs, hya⟩

namespace Skeleton

/-- Only the table of a span is written. -/
theorem rehash (h : Skeleton v G) {k : ℕ} (hsp : v.span k = some sp) (hash : ℕ → Option ℕ) :
    Skeleton (v.putSpan k { sp with hash := hash }) G where
  quantum := h.quantum
  layout := h.layout
  spans := h.spans
  spanLinks := by
    have : via Span.next (v.putSpan k { sp with hash := hash }).span = via Span.next v.span :=
      via_update_of_eq hsp rfl
    rw [this]
    exact h.spanLinks
  spanHeld r hr := by
    obtain ⟨sp', hsp', hs⟩ := h.spanHeld r hr
    by_cases hk : r.span = k
    · subst hk
      rw [hsp] at hsp'
      cases hsp'
      exact ⟨_, Function.update_self .., hs.1, hs.2, hs.3, hs.4⟩
    · exact ⟨sp', (Function.update_of_ne hk _ _).trans hsp', hs⟩
  tags := h.tags
  linked := h.linked
  held := h.held
  only := h.only

/-- Only the state of a tag is written. -/
theorem restate (h : Skeleton v (G₁ ++ r :: G₂)) (hr : r.ranges = l ++ x :: m)
    (hg : v.tag x.tag = some g) (state : Allocation) :
    Skeleton (v.putTag x.tag { g with allocated := state })
      (G₁ ++ { r with ranges := l ++ [{ x with state := state }] ++ m } :: G₂) := by
  have htags : tagsOf (G₁ ++ { r with ranges := l ++ [{ x with state := state }] ++ m } :: G₂) =
      tagsOf (G₁ ++ r :: G₂) := by
    rw [tagsOf_mid rfl, tagsOf_mid hr]
    simp
  have hx : x ∈ rangesOf (G₁ ++ r :: G₂) := mem_rangesOf.mpr ⟨r, by simp, by simp [hr]⟩
  refine h.retag rfl rfl rfl ?_ (htags ▸ h.tags) ?_ (fun y hy => ?_) fun t g' hg' => ?_
  · refine (h.layout.region r (by simp)).replace [x] (by simpa using hr)
      (fun lo hi ht => ht) fun hw y hy => ?_
    rw [List.mem_singleton] at hy
    subst hy
    exact hw x (by simp)
  · have hn : via Bt.next (v.putTag x.tag { g with allocated := state }).tag = via Bt.next v.tag :=
      via_update_of_eq hg rfl
    have hp : via Bt.prev (v.putTag x.tag { g with allocated := state }).tag = via Bt.prev v.tag :=
      via_update_of_eq hg rfl
    rw [htags, hn, hp]
    exact h.linked
  · rw [mem_rangesOf_mid rfl] at hy
    simp only [List.mem_append, List.mem_singleton] at hy
    have hcases : y = { x with state := state } ∨
        y ∈ rangesOf G₁ ∨ (y ∈ l ∨ y ∈ m) ∨ y ∈ rangesOf G₂ := by tauto
    rcases hcases with rfl | hy
    · obtain ⟨g', hg', haddr, hsize, -⟩ := h.get hx
      rw [hg] at hg'
      cases hg'
      exact ⟨_, Function.update_self .., range_eq_iff.mpr ⟨rfl, haddr, hsize, rfl⟩⟩
    · obtain ⟨hy, hne⟩ := h.side hr hy
      obtain ⟨g', hg', hr'⟩ := h.held y hy
      exact ⟨g', (Function.update_of_ne hne _ _).trans hg', hr'⟩
  · rw [htags]
    by_cases ht : t = x.tag
    · exact h.only t g (ht ▸ hg)
    · exact h.only t g' ((Function.update_of_ne ht _ _).symm.trans hg')

theorem readHash_eq (h : Skeleton v G) (hr : r ∈ G) (hsp : v.span r.span = some sp) {i : ℕ}
    (hi : i < r.size / v.quantum) : readHash sp i = .ok (sp.hash i) := by
  obtain ⟨sp', hsp', hs⟩ := h.spanHeld r hr
  rw [hsp] at hsp'
  cases hsp'
  refine if_pos ?_
  rw [hs.hashBytes, hs.slots, sizeofPointer]
  omega

theorem writeHash_eq (h : Skeleton v G) (hr : r ∈ G) (hsp : v.span r.span = some sp) {i : ℕ}
    (hi : i < r.size / v.quantum) (bt : Option ℕ) :
    writeHash v r.span i bt =
      .ok (v.putSpan r.span { sp with hash := Function.update sp.hash i bt }) := by
  obtain ⟨sp', hsp', hs⟩ := h.spanHeld r hr
  rw [hsp] at hsp'
  cases hsp'
  rw [writeHash, load_some hsp, ok_bind, if_pos, Vmem.setSpan, modify_some hsp]
  · rfl
  · rw [hs.hashBytes, hs.slots, sizeofPointer]
    omega

/-- The offset of a range in its span, as the code computes it. -/
theorem slot_eq (h : Skeleton v G) (hr : r ∈ G) (hsp : v.span r.span = some sp)
    (hx : x ∈ r.ranges) : sub32 x.addr sp.addr / v.quantum = slotOf v.quantum r x := by
  obtain ⟨sp', hsp', hs⟩ := h.spanHeld r hr
  rw [hsp] at hsp'
  cases hsp'
  obtain ⟨hlo, -, -, htop⟩ := (h.layout.region r hr).bounds hx
  rw [hs.addr, sub32_of_le (by omega) hlo]
  rfl

end Skeleton

/-- The table of the span, read at a range. -/
theorem Tracks.entry_eq (h : Tracks v G fl except) (hr : r ∈ G) (hsp : v.span r.span = some sp)
    (hx : x ∈ r.ranges) : sp.hash (slotOf v.quantum r x) = entryOf x := by
  obtain ⟨sp', hsp', hs⟩ := h.skeleton.spanHeld r hr
  rw [hsp] at hsp'
  cases hsp'
  have hok := h.skeleton.layout.region r hr
  have hlt := hs.slots ▸ hok.slot_lt hx
  have hhash := h.hash r hr sp hsp _ hlt
  have haddr := hok.slot_mul hx
  refine Option.ext fun t => (hhash t).trans ?_
  constructor
  · rintro ⟨y, hy, rfl, hs, hya⟩
    have hxG := mem_rangesOf.mpr ⟨r, hr, hx⟩
    have hyG := mem_rangesOf.mpr ⟨r, hr, hy⟩
    obtain rfl := h.skeleton.layout.addr_inj hyG hxG (hya.trans haddr.symm)
    exact if_pos hs
  · intro he
    unfold entryOf at he
    split_ifs at he with hs
    cases he
    exact ⟨x, hx, rfl, hs, haddr⟩

/-- A range changes its state in its tag and in the table. -/
theorem Tracks.mark (h : Tracks v (G₁ ++ r :: G₂) fl except) (hr : r.ranges = l ++ x :: m)
    (hg : v.tag x.tag = some g) (hsp : v.span r.span = some sp) (hx : x.tag ∈ except)
    (state : Allocation) :
    Tracks ((v.putTag x.tag { g with allocated := state }).putSpan r.span { sp with
        hash := Function.update sp.hash (slotOf v.quantum r x)
          (entryOf { x with state := state }) })
      (G₁ ++ { r with ranges := l ++ [{ x with state := state }] ++ m } :: G₂) fl except := by
  have hs := (h.skeleton.restate hr hg state).rehash (k := r.span) hsp
    (Function.update sp.hash (slotOf v.quantum r x) (entryOf { x with state := state }))
  refine ⟨hs, fun s hsG sp' hsp' => ?_, ?_, fun c t => ?_⟩
  · have hinj := h.skeleton.span_inj
    rw [List.map_append, List.map_cons, List.perm_middle.nodup_iff, List.nodup_cons,
      ← List.map_append] at hinj
    have hother : s ∈ G₁ ++ G₂ → HashHolds v.quantum sp' s := by
      intro hsG
      have hne : s.span ≠ r.span := fun e => hinj.1 (e ▸ List.mem_map_of_mem hsG)
      refine h.hash s ?_ sp' ((Function.update_of_ne hne _ _).symm.trans hsp')
      simp only [List.mem_append, List.mem_cons] at hsG ⊢
      tauto
    simp only [List.mem_append, List.mem_cons] at hsG
    rcases hsG with hsG | rfl | hsG
    · exact hother (by simp [hsG])
    · obtain rfl := Option.some_inj.mp (Vmem.putSpan_self.symm.trans hsp')
      exact (h.hash r (by simp) sp hsp).set (h.skeleton.layout.region r (by simp)) hr state
    · exact hother (by simp [hsG])
  · refine h.chains.transfer rfl rfl (fun c t _ g₀ hg₀ => ?_) fun t g' hg' hout => ?_
    · by_cases ht : t = x.tag
      · subst ht
        rw [hg] at hg₀
        cases hg₀
        exact ⟨_, Function.update_self .., rfl, rfl⟩
      · exact ⟨g₀, (Function.update_of_ne ht _ _).trans hg₀, rfl, rfl⟩
    · by_cases ht : t = x.tag
      · subst ht
        obtain rfl := Option.some_inj.mp (Vmem.putTag_self.symm.trans hg')
        exact h.chains.loose _ g hg hout
      · exact h.chains.loose t g' ((Function.update_of_ne ht _ _).symm.trans hg') hout
  · refine (h.cached c t).trans (and_congr_right fun _ => exists_congr fun y => ?_)
    rw [mem_rangesOf_mid hr, mem_rangesOf_mid rfl]
    simp only [List.mem_append, List.mem_cons, List.not_mem_nil, or_false]
    constructor
    · rintro ⟨hy | (hy | rfl | hy) | hy, rfl, hex, hrest⟩
      · exact ⟨.inl hy, rfl, hex, hrest⟩
      · exact ⟨.inr (.inl (.inl (.inl hy))), rfl, hex, hrest⟩
      · exact absurd hx hex
      · exact ⟨.inr (.inl (.inr hy)), rfl, hex, hrest⟩
      · exact ⟨.inr (.inr hy), rfl, hex, hrest⟩
    · rintro ⟨hy | ((hy | rfl) | hy) | hy, rfl, hex, hrest⟩
      · exact ⟨.inl hy, rfl, hex, hrest⟩
      · exact ⟨.inr (.inl (.inl hy)), rfl, hex, hrest⟩
      · exact absurd hx hex
      · exact ⟨.inr (.inl (.inr (.inr hy))), rfl, hex, hrest⟩
      · exact ⟨.inr (.inr hy), rfl, hex, hrest⟩

end Racoon.Arenas
