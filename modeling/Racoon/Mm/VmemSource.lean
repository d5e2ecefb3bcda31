import Racoon.Lib.Backing
import Racoon.Mm.VmemSizes

/-!
# Arenas that stand on one another

An arena may have a source, an arena below it from which each of its allocated
ranges is backed. The source is seen through the hooks `afunc` and `ffunc`
only, so that it may be any `Backing`; the tags of the arena are a ledger of
what is live in it. An arena with its hooks is a `Backing` again, whatever is
below.
-/

namespace Racoon.Arenas
open Lib
variable {σ : Type} {v w u : Vmem σ} {G G₁ G₂ : List Region} {r : Region} {x : Range}
  {l m : List Range} {fl : ℕ → List ℕ} {g : Bt} {t a tmp rsize vmflag : ℕ} {bt new : Option ℕ}

/-- The tags of `w`, apart from a new one, are tags of `v` with the same `source_addr`. -/
def SameSources (new : Option ℕ) (v w : Vmem σ) : Prop :=
  ∀ t g', w.tag t = some g' → some t ≠ new → ∃ g, v.tag t = some g ∧ g'.sourceAddr = g.sourceAddr

namespace SameSources

theorem refl (new : Option ℕ) (v : Vmem σ) : SameSources new v v := fun _ g hg _ => ⟨g, hg, rfl⟩

theorem of_tag (h : w.tag = v.tag) : SameSources new v w := fun _ g hg _ => ⟨g, h ▸ hg, rfl⟩

theorem trans (h : SameSources new v w) (h' : SameSources new w u) : SameSources new v u := by
  intro t g hg ht
  obtain ⟨g₁, hg₁, he₁⟩ := h' t g hg ht
  obtain ⟨g₂, hg₂, he₂⟩ := h t g₁ hg₁ ht
  exact ⟨g₂, hg₂, he₁.trans he₂⟩

theorem putTag (hg : v.tag t = some g) {g' : Bt} (he : g'.sourceAddr = g.sourceAddr) :
    SameSources new v (v.putTag t g') := by
  intro t' g₁ hg₁ _
  by_cases ht : t' = t
  · subst ht
    cases Vmem.putTag_self.symm.trans hg₁
    exact ⟨g, hg, he⟩
  · exact ⟨g₁, (Function.update_of_ne ht _ _).symm.trans hg₁, rfl⟩

theorem putNew (g' : Bt) : SameSources (some t) v (v.putTag t g') := fun _ g₁ hg₁ ht =>
  ⟨g₁, (Function.update_of_ne (fun e => ht (congrArg some e)) _ _).symm.trans hg₁, rfl⟩

theorem setTag {f : Bt → Bt} (hw : v.setTag bt f = .ok w)
    (hf : ∀ g, (f g).sourceAddr = g.sourceAddr) : SameSources new v w := by
  obtain ⟨t, g, -, hg, rfl⟩ := setTag_cases hw
  exact putTag hg (hf g)

theorem setTagIf {f : Bt → Bt} (hw : v.setTagIf bt f = .ok w)
    (hf : ∀ g, (f g).sourceAddr = g.sourceAddr) : SameSources new v w := by
  unfold Vmem.setTagIf at hw
  split_ifs at hw
  · exact setTag hw hf
  · cases hw
    exact refl new v

theorem freeTag (v : Vmem σ) (t : ℕ) : SameSources new v (v.freeTag t) := by
  intro t' g hg _
  by_cases ht : t' = t
  · subst ht
    simp [Vmem.freeTag] at hg
  · exact ⟨g, (Function.update_of_ne ht _ _).symm.trans hg, rfl⟩

theorem writeCache {pos : ℕ} (hw : v.writeCache pos bt = .ok w) : SameSources new v w := by
  unfold Vmem.writeCache at hw
  split_ifs at hw
  cases hw
  exact of_tag rfl

theorem writeHash {span i : ℕ} (hw : writeHash v span i bt = .ok w) : w.tag = v.tag := by
  obtain ⟨sp, -, hw⟩ := bind_eq_ok.mp hw
  split_ifs at hw
  obtain ⟨spans, -, hw⟩ := bind_eq_ok.mp hw
  cases hw
  rfl

theorem skipFirst {pos : ℕ} {next : Option ℕ} (hw : skipFirst v pos t next = .ok w) :
    SameSources new v w := by
  obtain ⟨first, -, hw⟩ := bind_eq_ok.mp hw
  split_ifs at hw
  · exact writeCache hw
  · cases hw
    exact refl new v

theorem remFreelist (hw : remFreelist v t = .ok w) : SameSources new v w := by
  obtain ⟨g, -, hw⟩ := bind_eq_ok.mp hw
  obtain ⟨pos, -, hw⟩ := bind_eq_ok.mp hw
  cases pos with
  | none => cases hw
  | some pos =>
    obtain ⟨v₁, h₁, hw⟩ := bind_eq_ok.mp hw
    obtain ⟨v₂, h₂, hw⟩ := bind_eq_ok.mp hw
    obtain ⟨v₃, h₃, hw⟩ := bind_eq_ok.mp hw
    exact (((skipFirst h₁).trans (setTagIf h₂ fun _ => rfl)).trans (setTagIf h₃ fun _ => rfl)).trans
      (setTag hw fun _ => rfl)

theorem uncache (hw : uncache v t = .ok w) : SameSources new v w := by
  obtain ⟨g, -, hw⟩ := bind_eq_ok.mp hw
  obtain ⟨pos, -, hw⟩ := bind_eq_ok.mp hw
  cases pos with
  | none =>
    cases hw
    exact refl new v
  | some pos => exact remFreelist hw

theorem addFreelist (hw : addFreelist v t = .ok w) : SameSources new v w := by
  obtain ⟨g, -, hw⟩ := bind_eq_ok.mp hw
  obtain ⟨pos, -, hw⟩ := bind_eq_ok.mp hw
  obtain ⟨-, -, hw⟩ := bind_eq_ok.mp hw
  obtain ⟨-, -, hw⟩ := bind_eq_ok.mp hw
  obtain ⟨first, -, hw⟩ := bind_eq_ok.mp hw
  obtain ⟨v₁, h₁, hw⟩ := bind_eq_ok.mp hw
  obtain ⟨v₂, h₂, hw⟩ := bind_eq_ok.mp hw
  exact ((setTagIf h₁ fun _ => rfl).trans (setTag h₂ fun _ => rfl)).trans (writeCache hw)

theorem encache (hw : encache v t = .ok w) : SameSources new v w := by
  obtain ⟨g, -, hw⟩ := bind_eq_ok.mp hw
  obtain ⟨pos, -, hw⟩ := bind_eq_ok.mp hw
  cases pos with
  | none =>
    cases hw
    exact refl new v
  | some pos => exact addFreelist hw

theorem splittag {size : ℕ} {b : Option ℕ} (hw : vmemAlSplittag (some tmp) v t size = .ok (w, b)) :
    SameSources (some tmp) v w := by
  obtain ⟨g, -, hw⟩ := bind_eq_ok.mp hw
  obtain ⟨-, -, hw⟩ := bind_eq_ok.mp hw
  obtain ⟨v₁, h₁, hw⟩ := bind_eq_ok.mp hw
  obtain ⟨v₂, h₂, hw⟩ := bind_eq_ok.mp hw
  obtain ⟨v₃, h₃, hw⟩ := bind_eq_ok.mp hw
  cases hw
  exact (((setTag h₁ fun _ => rfl).trans (putNew _)).trans (setTagIf h₂ fun _ => rfl)).trans
    (setTag h₃ fun _ => rfl)

theorem carve {size : ℕ} {b : Option ℕ} (hw : carve (some tmp) v t size = .ok (w, b)) :
    SameSources (some tmp) v w := by
  obtain ⟨g, -, hw⟩ := bind_eq_ok.mp hw
  obtain ⟨-, -, hw⟩ := bind_eq_ok.mp hw
  obtain ⟨v₁, h₁, hw⟩ := bind_eq_ok.mp hw
  split_ifs at hw
  · obtain ⟨⟨v₂, c⟩, h₂, hw⟩ := bind_eq_ok.mp hw
    obtain ⟨v₃, h₃, hw⟩ := bind_eq_ok.mp hw
    cases hw
    exact ((uncache h₁).trans (splittag h₂)).trans (encache h₃)
  · cases hw
    exact uncache h₁

theorem mergeLeft {sp : Span} {b : ℕ} (hw : mergeLeft v sp t = .ok (w, b)) :
    SameSources new v w := by
  obtain ⟨g, -, hw⟩ := bind_eq_ok.mp hw
  cases hprev : g.prev with
  | none =>
    rw [hprev] at hw
    cases hw
    exact refl new v
  | some prev =>
    rw [hprev] at hw
    obtain ⟨p, -, hw⟩ := bind_eq_ok.mp hw
    split_ifs at hw
    · obtain ⟨v₁, h₁, hw⟩ := bind_eq_ok.mp hw
      obtain ⟨v₂, h₂, hw⟩ := bind_eq_ok.mp hw
      obtain ⟨v₃, h₃, hw⟩ := bind_eq_ok.mp hw
      cases hw
      exact (((uncache h₁).trans (setTag h₂ fun _ => rfl)).trans (setTagIf h₃ fun _ => rfl)).trans
        (freeTag v₃ t)
    · cases hw
      exact refl new v

theorem mergeRight {sp : Span} (hw : mergeRight v sp t = .ok w) : SameSources new v w := by
  obtain ⟨g, -, hw⟩ := bind_eq_ok.mp hw
  cases hnext : g.next with
  | none =>
    rw [hnext] at hw
    cases hw
    exact refl new v
  | some next =>
    rw [hnext] at hw
    obtain ⟨n, -, hw⟩ := bind_eq_ok.mp hw
    split_ifs at hw
    · obtain ⟨v₁, h₁, hw⟩ := bind_eq_ok.mp hw
      obtain ⟨v₂, h₂, hw⟩ := bind_eq_ok.mp hw
      obtain ⟨v₃, h₃, hw⟩ := bind_eq_ok.mp hw
      cases hw
      exact (((uncache h₁).trans (setTag h₂ fun _ => rfl)).trans (setTagIf h₃ fun _ => rfl)).trans
        (freeTag v₃ next)
    · cases hw
      exact refl new v

theorem releaseSource (hw : releaseSource v g = .ok w) : w.tag = v.tag := by
  cases hs : v.source with
  | none =>
    rw [Arenas.releaseSource, hs] at hw
    cases hw
    rfl
  | some source =>
    rw [Arenas.releaseSource, hs] at hw
    dsimp only at hw
    split_ifs at hw
    · cases hw
      rfl
    · obtain ⟨s, -, hw⟩ := bind_eq_ok.mp hw
      cases hw
      rfl

/-- To release a range adds no tag and leaves `source_addr` as it is. -/
theorem vmemFree {b : ℕ} (hw : vmemFree v a = .ok (w, b)) : SameSources new v w := by
  obtain ⟨span, -, hw⟩ := bind_eq_ok.mp hw
  cases span with
  | none =>
    cases hw
    exact refl new v
  | some span =>
    obtain ⟨sp, -, hw⟩ := bind_eq_ok.mp hw
    obtain ⟨slot, -, hw⟩ := bind_eq_ok.mp hw
    cases slot with
    | none =>
      cases hw
      exact refl new v
    | some bt =>
      obtain ⟨g, -, hw⟩ := bind_eq_ok.mp hw
      obtain ⟨v₁, h₁, hw⟩ := bind_eq_ok.mp hw
      obtain ⟨v₂, h₂, hw⟩ := bind_eq_ok.mp hw
      obtain ⟨-, -, hw⟩ := bind_eq_ok.mp hw
      obtain ⟨v₃, h₃, hw⟩ := bind_eq_ok.mp hw
      obtain ⟨⟨v₄, b₄⟩, h₄, hw⟩ := bind_eq_ok.mp hw
      obtain ⟨v₅, h₅, hw⟩ := bind_eq_ok.mp hw
      obtain ⟨v₆, h₆, hw⟩ := bind_eq_ok.mp hw
      cases hw
      exact ((((of_tag ((writeHash h₂).trans (releaseSource h₁))).trans
        (setTag h₃ fun _ => rfl)).trans (mergeLeft h₄)).trans (mergeRight h₅)).trans (encache h₆)

end SameSources

/-- What marking does to the tags. -/
theorem claim_tag (h : claim v bt = .ok (w, g)) : ∃ t g₀, bt = some t ∧ v.tag t = some g₀ ∧
    g = { g₀ with allocated := .allocated } ∧ w.tag = (v.putTag t g).tag := by
  obtain ⟨v₁, h₁, h⟩ := bind_eq_ok.mp h
  obtain ⟨g₁, hg₁, h⟩ := bind_eq_ok.mp h
  obtain ⟨span, -, h⟩ := bind_eq_ok.mp h
  obtain ⟨t, g₀, rfl, hg₀, rfl⟩ := setTag_cases h₁
  cases span with
  | none => cases h
  | some span =>
    obtain ⟨sp, -, h⟩ := bind_eq_ok.mp h
    obtain ⟨slot, -, h⟩ := bind_eq_ok.mp h
    obtain ⟨-, -, h⟩ := bind_eq_ok.mp h
    obtain ⟨v₂, h₂, h⟩ := bind_eq_ok.mp h
    cases h
    have hg := Vmem.putTag_self.symm.trans (deref_eq_ok.mp hg₁)
    cases hg
    exact ⟨t, g₀, rfl, hg₀, rfl, SameSources.writeHash h₂⟩

/-- The start of what backs a range is written into its tag. -/
theorem Represents.setSourceAddr (h : Represents v G fl) (hg : v.tag t = some g) (sourceAddr : ℕ) :
    Represents (v.putTag t { g with sourceAddr := sourceAddr }) G fl := by
  have hn : via Bt.next (v.putTag t { g with sourceAddr := sourceAddr }).tag = via Bt.next v.tag :=
    via_update_of_eq hg rfl
  have hp : via Bt.prev (v.putTag t { g with sourceAddr := sourceAddr }).tag = via Bt.prev v.tag :=
    via_update_of_eq hg rfl
  have hskel : Skeleton (v.putTag t { g with sourceAddr := sourceAddr }) G := by
    refine ⟨h.skeleton.quantum, h.skeleton.layout, h.skeleton.spans, h.skeleton.spanLinks,
      h.skeleton.spanHeld, h.skeleton.tags, ?_, fun x hx => ?_, fun t' g' hg' => ?_⟩
    · rw [hn, hp]
      exact h.skeleton.linked
    · obtain ⟨g', hg', hr⟩ := h.skeleton.held x hx
      by_cases ht : x.tag = t
      · subst ht
        cases hg.symm.trans hg'
        exact ⟨_, Vmem.putTag_self, hr⟩
      · exact ⟨g', (Function.update_of_ne ht _ _).trans hg', hr⟩
    · by_cases ht : t' = t
      · exact ht ▸ h.skeleton.only t g hg
      · exact h.skeleton.only t' g' ((Function.update_of_ne ht _ _).symm.trans hg')
  refine ⟨⟨hskel, h.hash, ?_, h.cached⟩, h.separated⟩
  refine h.chains.transfer rfl rfl (fun c t' _ g₀ hg₀ => ?_) fun t' g' hg' hout => ?_
  · by_cases ht : t' = t
    · subst ht
      cases hg.symm.trans hg₀
      exact ⟨_, Vmem.putTag_self, rfl, rfl⟩
    · exact ⟨g₀, (Function.update_of_ne ht _ _).trans hg₀, rfl, rfl⟩
  · by_cases ht : t' = t
    · subst ht
      cases Vmem.putTag_self.symm.trans hg'
      exact h.chains.loose _ g hg hout
    · exact h.chains.loose t' g' ((Function.update_of_ne ht _ _).symm.trans hg') hout

/-- A live range that nothing backs is released here alone. -/
theorem Represents.vmemFree_unbacked (h : Represents v (G₁ ++ r :: G₂) fl)
    (hg : v.tag x.tag = some g) (hbacked : g.sourceAddr = 0) (hr : r.ranges = l ++ x :: m)
    (hstate : x.state = .allocated) :
    ∃ w ranges fl', vmemFree v x.addr = .ok (w, x.addr) ∧ Kept v w ∧ ReleasedIn l x m ranges ∧
      Represents w (G₁ ++ { r with ranges := ranges } :: G₂) fl' := by
  have hrelease : ∀ g', v.tag x.tag = some g' →
      releaseSource v g' = .ok { v with source := v.source } := fun g' hg' => by
    cases hg.symm.trans hg'
    rw [releaseSource]
    cases v.source with
    | none => rfl
    | some s =>
      dsimp only
      rw [if_pos hbacked]
  exact h.vmemFree_release hrelease hr hstate

/-- An allocated range with what backs it. -/
def Entry (v : Vmem σ) (t sourceAddr addr size : ℕ) : Prop :=
  ∃ g, v.tag t = some g ∧ g.allocated = .allocated ∧ g.sourceAddr = sourceAddr ∧ g.addr = addr ∧
    g.size = size

section Entries
variable {G' : List Region} {fl' : ℕ → List ℕ} {c : ℕ}

theorem Represents.range_of_entry {s n : ℕ} (h : Represents v G fl) (he : Entry v t s a n) :
    ∃ x ∈ rangesOf G, x.tag = t ∧ x.state = .allocated ∧ x.addr = a ∧ x.size = n := by
  obtain ⟨g, hg, hstate, -, rfl, rfl⟩ := he
  obtain ⟨x, hx, rfl⟩ := List.mem_map.mp (h.skeleton.only t g hg)
  obtain ⟨g', hg', haddr, hsize, hxstate⟩ := h.skeleton.get hx
  cases hg'.symm.trans hg
  exact ⟨x, hx, rfl, hxstate.symm.trans hstate, haddr.symm, hsize.symm⟩

/-- Where an edit leaves the allocated ranges alone, apart from one tag, so are their entries. -/
theorem Represents.entry_iff (hv : Represents v G fl) (hw : Represents w G' fl')
    (hs : SameSources new v w) (hnew : ∀ t, new = some t → v.tag t = none)
    (hG : ∀ y : Range, y.state = .allocated → y.tag ≠ c → (y ∈ rangesOf G' ↔ y ∈ rangesOf G))
    (ht : t ≠ c) (s n : ℕ) : Entry w t s a n ↔ Entry v t s a n := by
  constructor
  · intro he
    obtain ⟨x, hx, rfl, hstate, hxa, hxn⟩ := hw.range_of_entry he
    obtain ⟨g', hg', -, rfl, rfl, rfl⟩ := he
    obtain ⟨g, hg, haddr, hsize, hgstate⟩ := hv.skeleton.get ((hG x hstate ht).mp hx)
    have hne : some x.tag ≠ new := fun e => by simp [hnew _ e.symm] at hg
    obtain ⟨g₁, hg₁, hsource⟩ := hs _ _ hg' hne
    cases hg.symm.trans hg₁
    exact ⟨g, hg, hgstate.trans hstate, hsource.symm, haddr.trans hxa, hsize.trans hxn⟩
  · intro he
    obtain ⟨x, hx, rfl, hstate, hxa, hxn⟩ := hv.range_of_entry he
    obtain ⟨g, hg, -, rfl, rfl, rfl⟩ := he
    obtain ⟨g', hg', haddr, hsize, hgstate⟩ := hw.skeleton.get ((hG x hstate ht).mpr hx)
    have hne : some x.tag ≠ new := fun e => by simp [hnew _ e.symm] at hg
    obtain ⟨g₁, hg₁, hsource⟩ := hs _ _ hg' hne
    cases hg.symm.trans hg₁
    exact ⟨g', hg', hgstate.trans hstate, hsource, haddr.trans hxa, hsize.trans hxn⟩

end Entries

/-- The allocated ranges besides the one that an allocation takes. -/
theorem mem_allocatedIn {size : ℕ} (hr : r.ranges = l ++ x :: m) (hfree : x.state = .free)
    {y : Range} (hy : y.state = .allocated) (hne : y.tag ≠ (cutOff tmp x size).tag) :
    y ∈ rangesOf (G₁ ++ { r with ranges := allocatedIn tmp size l x m } :: G₂) ↔
      y ∈ rangesOf (G₁ ++ r :: G₂) := by
  rw [mem_rangesOf_mid rfl, mem_rangesOf_mid hr]
  have hrem : y ∉ remainder x size := fun hm => by
    unfold remainder at hm
    split_ifs at hm
    · exact List.not_mem_nil hm
    · rw [List.mem_singleton.mp hm] at hy
      simp [hfree] at hy
  have hcut : y ≠ { cutOff tmp x size with state := .allocated } := fun e => hne (by rw [e])
  have hyx : y ≠ x := fun e => by simp [e, hfree] at hy
  simp only [allocatedIn, List.mem_append, List.mem_cons, List.not_mem_nil, or_false]
  tauto

/-- The allocated ranges besides one that is released. -/
theorem ReleasedIn.mem_iff {ranges : List Range} (h : ReleasedIn l x m ranges) {y : Range}
    (hy : y.state = .allocated) : y ∈ ranges ↔ y ∈ l ∨ y ∈ m := by
  obtain ⟨l', z, z', m', hleft, hright, rfl⟩ := h
  have hz' : y ≠ z' := fun e => by
    have hz := hright.state.1.trans (hleft.state rfl)
    simp [← e, hy] at hz
  have hl : y ∈ l' ↔ y ∈ l := by
    rcases hleft with ⟨rfl, -, -⟩ | ⟨z₁, rfl, hz₁, -⟩
    · exact Iff.rfl
    · have : y ≠ z₁ := fun e => by simp [← e, hy] at hz₁
      simp [this]
  have hm : y ∈ m' ↔ y ∈ m := by
    rcases hright with ⟨rfl, -, -⟩ | ⟨z₁, rfl, hz₁, -⟩
    · exact Iff.rfl
    · have : y ≠ z₁ := fun e => by simp [← e, hy] at hz₁
      simp [this]
  simp only [List.mem_append, List.mem_singleton]
  tauto

/-- To release what an allocation has just taken puts the range together again. -/
theorem releasedIn_allocated {size : ℕ} {ranges : List Range} (hle : size ≤ x.size)
    (hfree : x.state = .free) (hsep : (l ++ x :: m).IsChain Separate)
    (h : ReleasedIn (l ++ remainder x size)
      { cutOff tmp x size with state := .allocated } m ranges) : ranges = l ++ [x] ++ m := by
  obtain ⟨l', z, z', m', hleft, hright, rfl⟩ := h
  obtain ⟨-, hxm, hlast⟩ := List.isChain_append.mp hsep
  have hl : l' = l ∧ z = x := by
    by_cases hsame : x.size = size
    · simp only [remainder, cutOff, if_pos hsame, List.append_nil] at hleft
      rcases hleft with ⟨rfl, rfl, -⟩ | ⟨z₁, rfl, hz₁, -⟩
      · rw [← hfree]
        exact ⟨rfl, rfl⟩
      · exact absurd ⟨hz₁, hfree⟩ (hlast z₁ (by simp) x (by simp))
    · simp only [remainder, cutOff, if_neg hsame] at hleft
      rcases hleft with ⟨-, -, hno⟩ | ⟨z₁, heq, -, rfl⟩
      · exact absurd hfree (hno { x with size := x.size - size } (by simp))
      · obtain ⟨rfl, hz₁⟩ := List.append_inj' heq rfl
        rw [List.cons.injEq] at hz₁
        refine ⟨rfl, ?_⟩
        rw [← hz₁.1]
        have : x.size - size + size = x.size := by omega
        simp only [this]
  obtain ⟨rfl, rfl⟩ := hl
  rcases hright with ⟨rfl, rfl, -⟩ | ⟨z₁, rfl, hz₁, -⟩
  · rfl
  · rw [List.isChain_cons_cons] at hxm
    exact absurd ⟨hfree, hz₁⟩ hxm.1

/-! ### An arena over a source -/

variable {P : Backing Fault σ}

/-- The arena below is in order, and live in it is what backs the allocated ranges. -/
structure OnSource (P : Backing Fault σ) (v : Vmem σ) (source : σ) : Prop where
  afunc : v.afunc = P.alloc
  ffunc : v.ffunc = P.free
  ok : P.Ok source
  ledger : Ledger (fun t s n => ∃ a, Entry v t s a n) (P.Live source)

structure ArenaOk (P : Backing Fault σ) (v : Vmem σ) : Prop where
  represents : ∃ G fl, Represents v G fl ∧ ∀ r ∈ G, r.addr ≠ 0
  source : ∀ s, v.source = some s → OnSource P v s

def LiveRange (v : Vmem σ) (a n : ℕ) : Prop := ∃ t s, Entry v t s a n

/-- Sizes that wrap neither here nor below. -/
def ArenaAdmits (P : Backing Fault σ) (v : Vmem σ) (n : ℕ) : Prop :=
  0 < n ∧ RoundsUp v.quantum n ∧ ∀ s, v.source = some s → P.Admits s (roundUp v.quantum n)

/-- A tag without its links in a free list and, while it is free, without `source_addr`. -/
def Bt.shown (g : Bt) : ℕ × ℕ × Allocation × Option ℕ × Option ℕ × Option ℕ :=
  (g.addr, g.size, g.allocated, g.next, g.prev,
    if g.allocated = .allocated then some g.sourceAddr else none)

/-- The tables of the spans and the members of the free lists are the same. -/
def SameTables (v w : Vmem σ) : Prop :=
  ∃ G fl fl', Represents v G fl ∧ Represents w G fl' ∧ (∀ c t, t ∈ fl' c ↔ t ∈ fl c) ∧
    ∀ r ∈ G, ∃ sp sp', v.span r.span = some sp ∧ w.span r.span = some sp' ∧
      sp'.slots = sp.slots ∧ ∀ i < sp.slots, sp'.hash i = sp.hash i

/-- The arena is as before, and what is below is unchanged. -/
structure Restored (P : Backing Fault σ) (v w : Vmem σ) : Prop where
  tags : w.tags = v.tags
  spans : w.spans = v.spans
  tag : ∀ t, (w.tag t).map Bt.shown = (v.tag t).map Bt.shown
  tables : SameTables v w
  same : v.source = none → w = v
  below : ∀ s, v.source = some s → ∃ s', w.source = some s' ∧ P.Unchanged s s'

theorem Represents.sameTables {fl' : ℕ → List ℕ} (h : Represents v G fl) (h' : Represents w G fl')
    (hk : Kept v w) : SameTables v w := by
  refine ⟨G, fl, fl', h, h', fun c t => ?_, fun r hr => ?_⟩
  · rw [h.cached c t, h'.cached c t, hk.cacheBits, hk.quantum]
  · obtain ⟨sp, hsp, hs⟩ := h.skeleton.spanHeld r hr
    obtain ⟨sp', hsp', hs'⟩ := h'.skeleton.spanHeld r hr
    have hslots : sp'.slots = sp.slots := by rw [hs.slots, hs'.slots, hk.quantum]
    refine ⟨sp, sp', hsp, hsp', hslots, fun i hi => Option.ext fun t => ?_⟩
    have hhash := h.hash r hr sp hsp i hi t
    have hhash' := h'.hash r hr sp' hsp' i (hslots ▸ hi) t
    rw [hk.quantum] at hhash'
    exact hhash'.trans hhash.symm

/-- Two arenas with the same regions and the same entries show the same tags. -/
theorem Represents.shown_eq {fl' : ℕ → List ℕ} (h : Represents v G fl) (h' : Represents w G fl')
    (he : ∀ t s a n, Entry w t s a n ↔ Entry v t s a n) (t : ℕ) :
    (w.tag t).map Bt.shown = (v.tag t).map Bt.shown := by
  by_cases ht : t ∈ tagsOf G
  · obtain ⟨x, hx, rfl⟩ := List.mem_map.mp ht
    obtain ⟨g, hg, haddr, hsize, hstate⟩ := h.skeleton.get hx
    obtain ⟨g', hg', haddr', hsize', hstate'⟩ := h'.skeleton.get hx
    obtain ⟨G₁, G₂, r, l, m, rfl, hr⟩ := exists_place hx
    obtain ⟨hnext, hprev⟩ := h.skeleton.links hr hg
    obtain ⟨hnext', hprev'⟩ := h'.skeleton.links hr hg'
    rw [hg, hg', Option.map_some, Option.map_some, Bt.shown, Bt.shown, haddr, haddr', hsize, hsize',
      hstate, hstate', hnext, hnext', hprev, hprev']
    by_cases hx : x.state = .allocated
    · obtain ⟨g₁, hg₁, -, hs, -⟩ := (he x.tag g.sourceAddr g.addr g.size).mpr
        ⟨g, hg, hstate.trans hx, rfl, rfl, rfl⟩
      cases hg'.symm.trans hg₁
      rw [hs]
    · rw [if_neg hx, if_neg hx]
  · have hnone : ∀ {u : Vmem σ} {fl₁ : ℕ → List ℕ}, Represents u G fl₁ → u.tag t = none :=
      fun hu => Option.eq_none_iff_forall_ne_some.mpr fun g hg => ht (hu.skeleton.only t g hg)
    rw [hnone h, hnone h']

theorem Restored.refl (P : Backing Fault σ) (h : Represents v G fl) : Restored P v v :=
  ⟨rfl, rfl, fun _ => rfl, h.sameTables h ⟨rfl, rfl, rfl, rfl, rfl, rfl⟩, fun _ => rfl,
    fun s hs => ⟨s, hs, P.unchanged_refl s⟩⟩

/-- Refused a tag that it needs, an allocation does not return. -/
theorem vmemAlloc_none {res : Vmem σ × ℕ} (h : vmemAlloc none v rsize vmflag = .ok res) (tmp : ℕ) :
    vmemAlloc (some tmp) v rsize vmflag = .ok res := by
  rw [vmemAlloc] at h ⊢
  split_ifs at h ⊢ with h0
  · exact h
  dsimp only at h ⊢
  obtain ⟨bt, hfind, h⟩ := bind_eq_ok.mp h
  rw [hfind, ok_bind]
  cases bt with
  | none => exact h
  | some bt =>
    obtain ⟨⟨v₁, b⟩, hcarve, h⟩ := bind_eq_ok.mp h
    obtain ⟨⟨v₂, g⟩, hclaim, h⟩ := bind_eq_ok.mp h
    obtain ⟨g₀, hg₀, hcarve⟩ := bind_eq_ok.mp hcarve
    obtain ⟨_, hfree, hcarve⟩ := bind_eq_ok.mp hcarve
    obtain ⟨v₃, huncache, hcarve⟩ := bind_eq_ok.mp hcarve
    split_ifs at hcarve with hq
    · rw [vmemAlSplittag, ok_bind] at hcarve
      obtain ⟨v₄, -, hcarve⟩ := bind_eq_ok.mp hcarve
      cases hcarve
      obtain ⟨t, -, ht, -⟩ := claim_tag hclaim
      cases ht
    · cases hcarve
      refine bind_eq_ok.mpr ⟨(v₁, some bt), ?_, bind_eq_ok.mpr ⟨(v₂, g), hclaim, h⟩⟩
      refine bind_eq_ok.mpr ⟨g₀, hg₀, bind_eq_ok.mpr ⟨_, hfree, bind_eq_ok.mpr ⟨v₁, huncache, ?_⟩⟩⟩
      rw [if_neg hq]

/-- An allocation that has marked its range and has not turned to the arena below yet. -/
structure Marked (v : Vmem σ) (G : List Region) (size : ℕ) (w : Vmem σ) (c : ℕ) (g : Bt) :
    Prop where
  represents : ∃ G' fl', Represents w G' fl' ∧ (∀ r ∈ G', r.addr ≠ 0) ∧
    ∀ y : Range, y.state = .allocated → y.tag ≠ c → (y ∈ rangesOf G' ↔ y ∈ rangesOf G)
  kept : Kept v w
  tag : w.tag c = some g
  live : g.allocated = .allocated
  size_eq : g.size = size
  addr_ne : g.addr ≠ 0
  entry : ∀ t, t ≠ c → ∀ s a n, Entry w t s a n ↔ Entry v t s a n
  new : ∀ s a n, ¬ Entry v c s a n
  fresh : ∀ n, ¬ LiveRange v g.addr n
  undo : ∀ s, ∃ u fl', vmemFree (({ w with source := some s } : Vmem σ).putTag c
    { g with sourceAddr := 0 }) g.addr = .ok (u, g.addr) ∧ Kept { w with source := some s } u ∧
      Represents u G fl'

theorem Represents.marked (h : Represents v G fl) (hzero : ∀ r ∈ G, r.addr ≠ 0) (hpos : 0 < rsize)
    (hround : RoundsUp v.quantum rsize) (htmp : v.tag tmp = none) (vmflag : ℕ) :
    vmemAlloc (some tmp) v rsize vmflag = .ok (v, 0) ∨
    ∃ w c g, Marked v G (roundUp v.quantum rsize) w c g ∧
      vmemAlloc (some tmp) v rsize vmflag = acquireSource w (some c) g vmflag := by
  obtain ⟨-, hle⟩ := roundUp_spec h.skeleton.quantum hround
  rcases h.vmemAlloc_cases hpos hround htmp vmflag with ⟨heq, -⟩ |
    ⟨u, w, g, G₁, r, G₂, l, x, m, fl', rfl, hr, hchosen, hcarve, hclaim, haddr, hkept, hw, heq⟩
  · exact .inl heq
  refine .inr ⟨w, _, g, ?_, heq⟩
  obtain ⟨ht, gx, hgx, ⟨hgfree, hfit⟩, -⟩ := hchosen
  have hxG : x ∈ rangesOf (G₁ ++ r :: G₂) := (mem_rangesOf_mid hr).mpr (.inr (.inl (by simp)))
  obtain ⟨gx', hgx', -, hxsize, hxstate⟩ := h.skeleton.get hxG
  cases hgx'.symm.trans hgx
  have hfree : x.state = .free := hxstate.symm.trans hgfree
  obtain ⟨hca, hcs, -⟩ := @cutOff_bounds x (roundUp v.quantum rsize) tmp
  obtain ⟨c, g₀, hc, hg₀, hg, htags⟩ := claim_tag hclaim
  rw [Option.some.injEq] at hc
  subst hc
  have hwg : w.tag (cutOff tmp x (roundUp v.quantum rsize)).tag = some g := by
    rw [htags]
    exact Vmem.putTag_self
  have hcG : { cutOff tmp x (roundUp v.quantum rsize) with state := .allocated } ∈ rangesOf
      (G₁ ++ { r with ranges := allocatedIn tmp (roundUp v.quantum rsize) l x m } :: G₂) :=
    (mem_rangesOf_mid rfl).mpr (.inr (.inl (by simp [allocatedIn])))
  obtain ⟨gc, hgc, hgca, hgcs, hgcstate⟩ := hw.skeleton.get hcG
  cases hwg.symm.trans hgc
  have hzero' : ∀ s ∈ G₁ ++ { r with ranges := allocatedIn tmp (roundUp v.quantum rsize) l x m } ::
      G₂, s.addr ≠ 0 := fun s hs => by
    simp only [List.mem_append, List.mem_cons] at hs
    rcases hs with hs | rfl | hs
    · exact hzero s (by simp [hs])
    · exact hzero r (by simp)
    · exact hzero s (by simp [hs])
  have hsame : SameSources (some tmp) v w :=
    ((SameSources.carve hcarve).trans (SameSources.putTag hg₀ (by rw [hg]))).trans
      (SameSources.of_tag htags)
  have hentry : ∀ t, t ≠ (cutOff tmp x (roundUp v.quantum rsize)).tag → ∀ s a n,
      Entry w t s a n ↔ Entry v t s a n := fun t ht s a n =>
    h.entry_iff hw hsame (fun t ht => Option.some.inj ht ▸ htmp)
      (fun y hy hne => mem_allocatedIn hr hfree hy hne) ht s n
  have hnew : ∀ s a n, ¬ Entry v (cutOff tmp x (roundUp v.quantum rsize)).tag s a n := by
    rintro s a n ⟨g', hg', hstate, -⟩
    unfold cutOff at hg'
    split_ifs at hg'
    · cases hgx.symm.trans hg'
      cases hgfree.symm.trans hstate
    · cases htmp.symm.trans hg'
  have hstart := hzero r (by simp)
  have hlo := ((h.skeleton.layout.region r (by simp)).bounds (show x ∈ r.ranges by simp [hr])).1
  refine ⟨⟨_, fl', hw, hzero', fun y => mem_allocatedIn hr hfree⟩, hkept, hwg, hgcstate,
    hgcs.trans hcs, by omega, hentry, hnew, fun n => ?_, fun s => ?_⟩
  · rintro ⟨t, s, he⟩
    have ht : t ≠ (cutOff tmp x (roundUp v.quantum rsize)).tag := fun e => hnew s _ n (e ▸ he)
    obtain ⟨y, hy, hyt, -, hya, -⟩ := hw.range_of_entry ((hentry t ht s g.addr n).mpr he)
    rw [hw.skeleton.layout.addr_inj hy hcG (hya.trans hgca)] at hyt
    exact ht hyt.symm
  · have hsrc := (hw.setSource (some s)).setSourceAddr hwg 0
    obtain ⟨u', ranges, fl'', hrun, hkept', hreleased, hu⟩ := hsrc.vmemFree_unbacked
      (x := { cutOff tmp x (roundUp v.quantum rsize) with state := .allocated })
      (l := l ++ remainder x (roundUp v.quantum rsize)) (m := m) Vmem.putTag_self rfl
      (by simp [allocatedIn]) rfl
    have hranges := releasedIn_allocated (by omega) hfree (hr ▸ h.separated r (by simp)) hreleased
    subst hranges
    have hback : { r with ranges := l ++ [x] ++ m } = r := by
      have hlist : l ++ [x] ++ m = r.ranges := by simp [hr]
      rw [hlist]
    refine ⟨u', fl'', ?_, ⟨hkept'.1, hkept'.2, hkept'.3, hkept'.4, hkept'.5, hkept'.6⟩, ?_⟩
    · rw [← hgca] at hrun
      exact hrun
    · rw [← hback]
      exact hu

/-- What a call on an arena may answer. -/
structure Allocates (P : Backing Fault σ) (v : Vmem σ) (n : ℕ) (w : Vmem σ) (a : ℕ) : Prop where
  ok : ArenaOk P w
  admits : ∀ k, ArenaAdmits P w k ↔ ArenaAdmits P v k
  below : v.source = none ↔ w.source = none
  answer : a = 0 ∧ Restored P v w ∧ (∀ b k, LiveRange w b k ↔ LiveRange v b k) ∨
    a ≠ 0 ∧ (∀ k, ¬ LiveRange v a k) ∧
      ∃ m, n ≤ m ∧ ∀ b k, LiveRange w b k ↔ LiveRange v b k ∨ b = a ∧ k = m

theorem admits_congr (hq : w.quantum = v.quantum)
    (hs : ∀ s', w.source = some s' → ∃ s, v.source = some s ∧ ∀ k, P.Admits s' k ↔ P.Admits s k)
    (hs' : v.source = none ↔ w.source = none) (k : ℕ) :
    ArenaAdmits P w k ↔ ArenaAdmits P v k := by
  unfold ArenaAdmits
  rw [hq]
  refine and_congr_right fun _ => and_congr_right fun _ => ?_
  cases hv : v.source with
  | none => rw [hs'.mp hv]
  | some s =>
    cases hw : w.source with
    | none => cases hv.symm.trans (hs'.mpr hw)
    | some s' =>
      obtain ⟨s₀, hs₀, hk⟩ := hs s' hw
      cases hv.symm.trans hs₀
      simp [hk]

namespace Marked
variable {size : ℕ} {c : ℕ} {s s' : σ} {source : ℕ}

/-- The marked range is the one that is new. -/
theorem live_iff (h : Marked v G size w c g) (hu : ∀ t, t ≠ c → u.tag t = w.tag t)
    (huc : u.tag c = some { g with sourceAddr := source }) (b k : ℕ) :
    LiveRange u b k ↔ LiveRange v b k ∨ b = g.addr ∧ k = size := by
  have hother : ∀ t, t ≠ c → ∀ s, Entry u t s b k ↔ Entry v t s b k := fun t ht s => by
    rw [← h.entry t ht s b k, Entry, Entry, hu t ht]
  constructor
  · rintro ⟨t, s, he⟩
    by_cases ht : t = c
    · obtain ⟨g', hg', -, -, rfl, rfl⟩ := ht ▸ he
      cases huc.symm.trans hg'
      exact .inr ⟨rfl, h.size_eq⟩
    · exact .inl ⟨t, s, (hother t ht s).mp he⟩
  · rintro (⟨t, s, he⟩ | ⟨rfl, rfl⟩)
    · have ht : t ≠ c := fun e => h.new s b k (e ▸ he)
      exact ⟨t, s, (hother t ht s).mpr he⟩
    · exact ⟨c, source, _, huc, h.live, rfl, rfl, h.size_eq⟩

/-- The range is backed. -/
theorem backed (h : Marked v G size w c g) (hs : OnSource P v s) (hok : P.Ok s')
    (hne : source ≠ 0) (hnew : ∀ k, ¬ P.Live s source k) {m : ℕ} (hle : size ≤ m)
    (hlive : ∀ b k, P.Live s' b k ↔ P.Live s b k ∨ b = source ∧ k = m) :
    OnSource P (({ w with source := some s' } : Vmem σ).putTag c { g with sourceAddr := source })
      s' := by
  refine ⟨h.kept.afunc.trans hs.afunc, h.kept.ffunc.trans hs.ffunc, hok,
    hs.ledger.enter (k := c) (fun b n ⟨a, he⟩ => h.new b a n he) hne hnew hle
      (fun t b n => ?_) hlive⟩
  by_cases ht : t = c
  · subst ht
    constructor
    · rintro ⟨a, g', hg', -, rfl, -, rfl⟩
      cases Vmem.putTag_self.symm.trans hg'
      exact .inr ⟨rfl, rfl, h.size_eq⟩
    · rintro (⟨a, he⟩ | ⟨-, rfl, rfl⟩)
      · exact (h.new b a n he).elim
      · exact ⟨g.addr, _, Vmem.putTag_self, h.live, rfl, rfl, h.size_eq⟩
  · simp only [ht, false_and, or_false]
    refine exists_congr fun a => ?_
    rw [← h.entry t ht b a n]
    have htag : (({ w with source := some s' } : Vmem σ).putTag c
        { g with sourceAddr := source }).tag t = w.tag t := Function.update_of_ne ht _ _
    rw [Entry, Entry, htag]

/-- The source has nothing: the range is released and all is as before. -/
theorem undone (h : Marked v G size w c g) (hv : Represents v G fl) (hsource : v.source = some s)
    (hs : OnSource P v s) (hok : P.Ok s') (hadmits : ∀ k, P.Admits s' k ↔ P.Admits s k)
    (hsame : P.Unchanged s s') (hlive : ∀ b k, P.Live s' b k ↔ P.Live s b k)
    (hzero : ∀ r ∈ G, r.addr ≠ 0)
    (heq : vmemFree (({ w with source := some s' } : Vmem σ).putTag c
      { g with sourceAddr := 0 }) g.addr = .ok (u, a)) :
    ArenaOk P u ∧ (∀ k, ArenaAdmits P u k ↔ ArenaAdmits P v k) ∧
      (v.source = none ↔ u.source = none) ∧ Restored P v u ∧
      ∀ b k, LiveRange u b k ↔ LiveRange v b k := by
  obtain ⟨u', fl', hrun, hkept, hu⟩ := h.undo s'
  cases heq.symm.trans hrun
  obtain ⟨G', fl₁, hw, -, hG⟩ := h.represents
  have husource : u.source = some s' := hkept.source
  have hmid := (hw.setSource (some s')).setSourceAddr h.tag 0
  have hsources : SameSources none _ u := SameSources.vmemFree heq
  have hentry : ∀ t s₁ b n, Entry u t s₁ b n ↔ Entry v t s₁ b n := by
    intro t s₁ b n
    by_cases ht : t = c
    · subst ht
      refine iff_of_false (fun he => ?_) (h.new s₁ b n)
      obtain ⟨x, hx, rfl, hstate, -⟩ := hu.range_of_entry he
      obtain ⟨g', hg', -, -, hgstate⟩ := hv.skeleton.get hx
      exact h.new _ _ _ ⟨g', hg', hgstate.trans hstate, rfl, rfl, rfl⟩
    · have htag : (({ w with source := some s' } : Vmem σ).putTag c
          { g with sourceAddr := 0 }).tag t = w.tag t := Function.update_of_ne ht _ _
      rw [hmid.entry_iff hu hsources nofun (fun y hy hne => (hG y hy hne).symm) ht,
        ← h.entry t ht s₁ b n, Entry, Entry, htag]
  have hlivev : ∀ b k, LiveRange u b k ↔ LiveRange v b k := fun b k =>
    exists_congr fun t => exists_congr fun s₁ => hentry t s₁ b k
  have hkept' : Kept { v with source := some s' } u :=
    ⟨hkept.1.trans h.kept.1, hkept.2.trans h.kept.2, hkept.3.trans h.kept.3,
      hkept.4.trans h.kept.4, hkept.5.trans h.kept.5, hkept.6⟩
  have hbelow : v.source = none ↔ u.source = none := by
    rw [hsource, husource]
    simp
  refine ⟨⟨⟨G, fl', hu, hzero⟩, fun s₀ hs₀ => ?_⟩,
    admits_congr hkept'.quantum (fun s₀ hs₀ => ?_) hbelow, hbelow,
    ⟨?_, ?_, hv.shown_eq hu hentry, ?_, fun hnone => ?_, fun s₀ hs₀ => ?_⟩, hlivev⟩
  · cases husource.symm.trans hs₀
    exact ⟨hkept'.afunc.trans hs.afunc, hkept'.ffunc.trans hs.ffunc, hok,
      hs.ledger.congr (fun t b n => exists_congr fun a => hentry t b a n) hlive⟩
  · cases husource.symm.trans hs₀
    exact ⟨s, hsource, hadmits⟩
  · rw [hu.skeleton.tags, hv.skeleton.tags]
  · rw [hu.skeleton.spans, hv.skeleton.spans]
  · obtain ⟨G₀, fl₀, fl₀', h₀, hrest⟩ := (hv.setSource (some s')).sameTables hu hkept'
    exact ⟨G₀, fl₀, fl₀', h₀.setSource v.source, hrest⟩
  · cases hsource.symm.trans hnone
  · cases hsource.symm.trans hs₀
    exact ⟨s', husource, hsame⟩

end Marked

/-- An arena over any source allocates as it should. -/
theorem ArenaOk.alloc (h : ArenaOk P v) (hn : ArenaAdmits P v rsize) {tmp : Option ℕ}
    (htmp : ∀ t, tmp = some t → v.tag t = none)
    (heq : vmemAlloc tmp v rsize vmflag = .ok (w, a)) : Allocates P v rsize w a := by
  obtain ⟨⟨G, fl, hv, hzero⟩, hsource⟩ := id h
  obtain ⟨hpos, hround, hbelow⟩ := hn
  obtain ⟨-, hle⟩ := roundUp_spec hv.skeleton.quantum hround
  -- the tag that is needed, if one is, has been granted
  obtain ⟨tmp, htmp, heq⟩ : ∃ t, v.tag t = none ∧
      vmemAlloc (some t) v rsize vmflag = .ok (w, a) := by
    cases tmp with
    | none =>
      obtain ⟨t, ht⟩ := hv.skeleton.exists_fresh
      exact ⟨t, ht, vmemAlloc_none heq t⟩
    | some t => exact ⟨t, htmp t rfl, heq⟩
  rcases hv.marked hzero hpos hround htmp vmflag with hnone | ⟨u, c, g, hm, hacquire⟩
  · cases heq.symm.trans hnone
    exact ⟨h, fun _ => Iff.rfl, Iff.rfl, .inl ⟨rfl, .refl P hv, fun _ _ => Iff.rfl⟩⟩
  obtain ⟨G', fl', hu, hzero', -⟩ := hm.represents
  rw [hacquire] at heq
  cases hs : v.source with
  | none =>
    rw [acquireSource, hm.kept.source, hs] at heq
    cases heq
    have hus : w.source = none := hm.kept.source.trans hs
    refine ⟨⟨⟨G', fl', hu, hzero'⟩, fun s hs' => ?_⟩, admits_congr hm.kept.quantum
      (fun s hs' => ?_) (iff_of_true hs hus), iff_of_true hs hus,
      .inr ⟨hm.addr_ne, hm.fresh, _, hle,
        hm.live_iff (fun _ _ => rfl) hm.tag⟩⟩
    · cases hus.symm.trans hs'
    · cases hus.symm.trans hs'
  | some s =>
    obtain hon := hsource s hs
    rw [acquireSource, hm.kept.source, hs] at heq
    obtain ⟨⟨s', source⟩, hcall, heq⟩ := bind_eq_ok.mp heq
    rw [hm.kept.afunc, hon.afunc] at hcall
    obtain ⟨hok, hadmits, hcases⟩ := P.alloc_cases s g.size vmflag s' source hon.ok
      (hm.size_eq ▸ hbelow s hs) hcall
    obtain ⟨v₂, hset, heq⟩ := bind_eq_ok.mp heq
    obtain ⟨c', g', hc, hg', rfl⟩ := setTag_cases hset
    cases hc
    cases hm.tag.symm.trans hg'
    rcases hcases with ⟨rfl, hsame, hlive⟩ | ⟨hne, hnew, m, hlem, hlive⟩
    · rw [if_pos rfl] at heq
      obtain ⟨⟨u', b⟩, hfree, heq⟩ := bind_eq_ok.mp heq
      cases heq
      obtain ⟨hok', hadmits', hbelow', hrestored, hlive'⟩ :=
        hm.undone hv hs hon hok hadmits hsame hlive hzero hfree
      exact ⟨hok', hadmits', hbelow', .inl ⟨rfl, hrestored, hlive'⟩⟩
    · rw [if_neg hne] at heq
      cases heq
      have hsome : v.source = none ↔ some s' = none := by
        rw [hs]
        exact iff_of_false (Option.some_ne_none s) (Option.some_ne_none s')
      refine ⟨⟨⟨G', fl', (hu.setSource (some s')).setSourceAddr hm.tag source, hzero'⟩,
        fun s₀ hs₀ => ?_⟩, admits_congr hm.kept.quantum (fun s₀ hs₀ => ?_) hsome, hsome,
        .inr ⟨hm.addr_ne, hm.fresh, _, hle, hm.live_iff (fun t ht => Function.update_of_ne ht _ _)
          Vmem.putTag_self⟩⟩
      · cases hs₀
        exact hm.backed hon hok hne hnew (hm.size_eq ▸ hlem) hlive
      · cases hs₀
        exact ⟨s, hs, hadmits⟩

/-- With memory for the tags an allocation returns. -/
theorem ArenaOk.alloc_returns (h : ArenaOk P v) (hn : ArenaAdmits P v rsize)
    (htmp : v.tag tmp = none) (hgranted : ∀ s, v.source = some s → P.Granted s) (vmflag : ℕ) :
    ∃ res, vmemAlloc (some tmp) v rsize vmflag = .ok res := by
  obtain ⟨⟨G, fl, hv, hzero⟩, hsource⟩ := h
  obtain ⟨hpos, hround, hbelow⟩ := hn
  rcases hv.marked hzero hpos hround htmp vmflag with hnone | ⟨u, c, g, hm, hacquire⟩
  · exact ⟨_, hnone⟩
  rw [hacquire]
  cases hs : v.source with
  | none =>
    rw [acquireSource, hm.kept.source, hs]
    exact ⟨_, rfl⟩
  | some s =>
    have hon := hsource s hs
    obtain ⟨⟨s', source⟩, hcall⟩ := P.alloc_returns s g.size vmflag hon.ok
      (hm.size_eq ▸ hbelow s hs) (hgranted s hs)
    rw [← hon.afunc, ← hm.kept.afunc] at hcall
    rw [acquireSource, hm.kept.source, hs]
    dsimp only
    rw [hcall, ok_bind]
    dsimp only
    have hset := Vmem.setTag_eq
      (show ({ u with source := some s' } : Vmem σ).tag c = some g from hm.tag)
      fun g => { g with sourceAddr := source }
    rw [hset, ok_bind]
    by_cases h0 : source = 0
    · subst h0
      obtain ⟨u', fl', hfree, -⟩ := hm.undo s'
      rw [if_pos rfl]
      exact ⟨(u', 0), bind_eq_ok.mpr ⟨_, hfree, rfl⟩⟩
    · rw [if_neg h0]
      exact ⟨_, rfl⟩

/-- An arena over any source releases a live range, and what backs it. -/
theorem ArenaOk.free {n : ℕ} (h : ArenaOk P v) (hlive : LiveRange v a n) :
    ∃ w, vmemFree v a = .ok (w, a) ∧ ArenaOk P w ∧
      (∀ k, ArenaAdmits P w k ↔ ArenaAdmits P v k) ∧ (v.source = none ↔ w.source = none) ∧
      ∀ b k, LiveRange w b k ↔ LiveRange v b k ∧ b ≠ a := by
  obtain ⟨⟨G, fl, hv, hzero⟩, hsource⟩ := h
  obtain ⟨t, source, he⟩ := hlive
  obtain ⟨x, hx, rfl, hstate, rfl, rfl⟩ := hv.range_of_entry he
  obtain ⟨G₁, G₂, r, l, m, rfl, hr⟩ := exists_place hx
  obtain ⟨g, hg, hglive, rfl, haddr, hsize⟩ := id he
  -- what backs the range is given back first
  obtain ⟨s', hrelease, hbelow⟩ : ∃ s', releaseSource v g = .ok { v with source := s' } ∧
      (v.source = none ↔ s' = none) ∧ ∀ s₁, s' = some s₁ → ∃ s, v.source = some s ∧
        OnSource P v s ∧ P.Ok s₁ ∧ (∀ k, P.Admits s₁ k ↔ P.Admits s k) ∧
        ∀ b k, P.Live s₁ b k ↔ P.Live s b k ∧ b ≠ g.sourceAddr := by
    cases hs : v.source with
    | none =>
      refine ⟨none, ?_, Iff.rfl, by simp⟩
      rw [releaseSource, hs]
      exact congrArg Except.ok (by rw [← hs])
    | some s =>
      have hon := hsource s hs
      obtain ⟨hne, k, -, hk⟩ := hon.ledger.backed x.tag g.sourceAddr x.size ⟨x.addr, he⟩
      obtain ⟨s₁, hfree, hok, hadmits, hlive⟩ := P.free_returns s g.sourceAddr k g.size hon.ok hk
      refine ⟨some s₁, ?_, by simp, fun s₂ hs₂ => ?_⟩
      · rw [releaseSource, hs]
        dsimp only
        rw [if_neg hne, hon.ffunc, hfree, ok_bind]
      · cases hs₂
        exact ⟨s, rfl, hon, hok, hadmits, hlive⟩
  obtain ⟨hnone, hsome⟩ := hbelow
  have hrel : ∀ g', v.tag x.tag = some g' → releaseSource v g' = .ok { v with source := s' } :=
    fun g' hg' => by
      cases hg.symm.trans hg'
      exact hrelease
  obtain ⟨w, ranges, fl', hrun, hkept, hreleased, hw⟩ := hv.vmemFree_release hrel hr hstate
  have hsame : SameSources none v w := SameSources.vmemFree hrun
  have hsplit : ∀ y : Range, y.state = .allocated →
      (y ∈ rangesOf (G₁ ++ { r with ranges := ranges } :: G₂) ↔
        y ∈ rangesOf G₁ ∨ (y ∈ l ∨ y ∈ m) ∨ y ∈ rangesOf G₂) := fun y hy => by
    rw [mem_rangesOf_mid rfl, hreleased.mem_iff hy]
  have hG : ∀ y : Range, y.state = .allocated → y.tag ≠ x.tag →
      (y ∈ rangesOf (G₁ ++ { r with ranges := ranges } :: G₂) ↔ y ∈ rangesOf (G₁ ++ r :: G₂)) := by
    intro y hy hne
    have hyx : y ≠ x := fun e => hne (congrArg Range.tag e)
    rw [hsplit y hy, mem_rangesOf_mid hr]
    simp only [List.mem_append, List.mem_cons]
    tauto
  have hgone : ∀ s a n, ¬ Entry w x.tag s a n := fun s a n he' => by
    obtain ⟨y, hy, hyx, hystate, -⟩ := hw.range_of_entry he'
    exact (hv.skeleton.side hr ((hsplit y hystate).mp hy)).2 hyx
  have hentry : ∀ t, t ≠ x.tag → ∀ s b n, Entry w t s b n ↔ Entry v t s b n := fun t ht s b n =>
    hv.entry_iff hw hsame (by simp) hG ht s n
  have hsourceless : v.source = none ↔ w.source = none := by
    rw [hnone, hkept.source]
  refine ⟨w, hrun, ⟨⟨_, fl', hw, fun s hs => ?_⟩, fun s hs => ?_⟩,
    admits_congr hkept.quantum (fun s hs => ?_) hsourceless, hsourceless, fun b k => ?_⟩
  · simp only [List.mem_append, List.mem_cons] at hs
    rcases hs with hs | rfl | hs
    · exact hzero s (by simp [hs])
    · exact hzero r (by simp)
    · exact hzero s (by simp [hs])
  · obtain ⟨s₀, -, hon, hok, -, hlive⟩ := hsome s (hkept.source.symm.trans hs)
    refine ⟨hkept.afunc.trans hon.afunc, hkept.ffunc.trans hon.ffunc, hok,
      hon.ledger.leave (k := x.tag) ⟨x.addr, he⟩ (fun t b n => ?_) hlive⟩
    by_cases ht : t = x.tag
    · refine iff_of_false ?_ fun hc => hc.2 ht
      rintro ⟨c, he'⟩
      exact hgone b c n (ht ▸ he')
    · exact (exists_congr fun c => hentry t ht b c n).trans (and_iff_left ht).symm
  · obtain ⟨s₀, hs₀, -, -, hadmits, -⟩ := hsome s (hkept.source.symm.trans hs)
    exact ⟨s₀, hs₀, hadmits⟩
  · constructor
    · rintro ⟨t, s, he'⟩
      have ht : t ≠ x.tag := fun e => hgone s b k (e ▸ he')
      have hev := (hentry t ht s b k).mp he'
      refine ⟨⟨t, s, hev⟩, fun hb => ht ?_⟩
      obtain ⟨y, hy, rfl, -, hya, -⟩ := hv.range_of_entry hev
      rw [hv.skeleton.layout.addr_inj hy hx (hya.trans hb)]
    · rintro ⟨⟨t, s, hev⟩, hb⟩
      have ht : t ≠ x.tag := fun e => hb (by
        obtain ⟨g', hg', -, -, rfl, -⟩ := e ▸ hev
        cases hg.symm.trans hg'
        exact haddr)
      exact ⟨t, s, (hentry t ht s b k).mpr hev⟩

end Racoon.Arenas
