import Racoon.Mm.VmemRuns

/-!
# Which sizes an allocation honours

The size of a request is rounded up to whole quanta in 32 bits. A size above the
last multiple of the quantum wraps to less than a quantum: the search by size
class then fails its assertion, and the search through all tags takes any free
range, which is too short. Apart from that only the new tag of a range that is
cut in two can be missing.
-/

namespace Racoon.Arenas
open Lib
variable {σ : Type} {v w : Vmem σ} {G : List Region} {r : Region} {x : Range} {fl : ℕ → List ℕ}
  {g : Bt} {t a rsize vmflag B : ℕ} {bt tmp : Option ℕ}

/-- An allocated range of `w` of at least `rsize` bytes starts at `a`. It lies in one span and
apart from the ranges that are or were allocated. -/
def Handed (v w : Vmem σ) (a rsize : ℕ) : Prop :=
  ∃ t g, w.tag t = some g ∧ g.allocated = .allocated ∧ g.addr = a ∧ rsize ≤ g.size ∧
    (∃ s sp, vmemGetspan w a = .ok (some s) ∧ w.span s = some sp ∧ sp.addr ≤ a ∧
      a + g.size ≤ sp.addr + sp.size) ∧
    ∀ t' g', t' ≠ t → (v.tag t' = some g' ∨ w.tag t' = some g') → g'.allocated = .allocated →
      Block.Apart (a, g.size) (g'.addr, g'.size)

/-- What a caller may expect: `NULL` with the arena as before, or a range of the size. -/
def Honoured (tmp : Option ℕ) (v : Vmem σ) (rsize vmflag : ℕ) : Prop :=
  ∃ w a, vmemAlloc tmp v rsize vmflag = .ok (w, a) ∧
    ((a = 0 ∧ w = v) ∨ (a ≠ 0 ∧ Handed v w a rsize))

/-- The range found, if there is one, has the size asked for. -/
def Exact (v : Vmem σ) (size vmflag : ℕ) : Prop :=
  ∀ t g, findTag v size vmflag = .ok (some t) → v.tag t = some g → g.size = size

/-- The size can be rounded up, and the tag of a part can be had or is not needed; or all tags
are searched and none is free. -/
def Fair (tmp : Option ℕ) (v : Vmem σ) (rsize vmflag : ℕ) : Prop :=
  (RoundsUp v.quantum rsize ∧ (tmp ≠ none ∨ Exact v (roundUp v.quantum rsize) vmflag)) ∨
  (¬ RoundsUp v.quantum rsize ∧ hasFlag vmflag vmemSearch = true ∧
    ∀ t g, v.tag t = some g → g.allocated = .allocated)

/-- All tags are of ranges shorter than `B`, and no arena is below. -/
structure Below (B : ℕ) (v : Vmem σ) : Prop where
  source : v.source = none
  size : ∀ t g, v.tag t = some g → g.size < B

theorem Below.putTag (h : Below B v) (hg : g.size < B) : Below B (v.putTag t g) := by
  refine ⟨h.source, fun t' g' hg' => ?_⟩
  by_cases he : t' = t
  · subst he
    cases Vmem.putTag_self.symm.trans hg'
    exact hg
  · exact h.size t' g' ((Function.update_of_ne he _ _).symm.trans hg')

theorem setTag_cases {f : Bt → Bt} (h : v.setTag bt f = .ok w) :
    ∃ t g, bt = some t ∧ v.tag t = some g ∧ w = v.putTag t (f g) := by
  obtain ⟨tag, htag, hw⟩ := bind_eq_ok.mp h
  obtain ⟨t, ht, htag⟩ := bind_eq_ok.mp htag
  obtain ⟨g, hg, htag⟩ := bind_eq_ok.mp htag
  cases hw
  cases htag
  exact ⟨t, g, deref_eq_ok.mp ht, deref_eq_ok.mp hg, rfl⟩

theorem Below.setTag {f : Bt → Bt} (h : Below B v) (hw : v.setTag bt f = .ok w)
    (hf : ∀ g, g.size < B → (f g).size < B) : Below B w := by
  obtain ⟨t, g, -, hg, rfl⟩ := setTag_cases hw
  exact h.putTag (hf g (h.size t g hg))

theorem Below.setTagIf {f : Bt → Bt} (h : Below B v) (hw : v.setTagIf bt f = .ok w)
    (hf : ∀ g, g.size < B → (f g).size < B) : Below B w := by
  unfold Vmem.setTagIf at hw
  split_ifs at hw
  · exact h.setTag hw hf
  · cases hw
    exact h

theorem Below.writeCache {pos : ℕ} (h : Below B v) (hw : v.writeCache pos bt = .ok w) :
    Below B w := by
  unfold Vmem.writeCache at hw
  split_ifs at hw
  cases hw
  exact ⟨h.source, h.size⟩

theorem Below.relink (h : Below B v) (cache next prev : ℕ → Option ℕ) :
    Below B (v.relink cache next prev) := by
  refine ⟨h.source, fun t g hg => ?_⟩
  obtain ⟨g₀, hg₀, rfl⟩ := Option.map_eq_some_iff.mp hg
  exact h.size t g₀ hg₀

theorem Below.addFreelist (h : Below B v) (hw : addFreelist v t = .ok w) : Below B w := by
  obtain ⟨g, -, hw⟩ := bind_eq_ok.mp hw
  obtain ⟨pos, -, hw⟩ := bind_eq_ok.mp hw
  obtain ⟨-, -, hw⟩ := bind_eq_ok.mp hw
  obtain ⟨-, -, hw⟩ := bind_eq_ok.mp hw
  obtain ⟨first, -, hw⟩ := bind_eq_ok.mp hw
  obtain ⟨v₁, h₁, hw⟩ := bind_eq_ok.mp hw
  obtain ⟨v₂, h₂, hw⟩ := bind_eq_ok.mp hw
  exact ((h.setTagIf h₁ fun g hg => hg).setTag h₂ fun g hg => hg).writeCache hw

theorem Below.encache (h : Below B v) (hw : encache v t = .ok w) : Below B w := by
  obtain ⟨g, -, hw⟩ := bind_eq_ok.mp hw
  obtain ⟨pos, -, hw⟩ := bind_eq_ok.mp hw
  cases pos with
  | none =>
    cases hw
    exact h
  | some pos => exact h.addFreelist hw

theorem Below.splittag {size : ℕ} {b : Option ℕ} (h : Below B v) (hsize : size < B)
    (hle : ∀ g, v.tag t = some g → size ≤ g.size ∧ g.size < 2 ^ 32)
    (hw : vmemAlSplittag tmp v t size = .ok (w, b)) : Below B w ∧ b = tmp := by
  cases tmp with
  | none =>
    cases hw
    exact ⟨h, rfl⟩
  | some tmp =>
    obtain ⟨g, hg, hw⟩ := bind_eq_ok.mp hw
    obtain ⟨-, -, hw⟩ := bind_eq_ok.mp hw
    obtain ⟨v₁, h₁, hw⟩ := bind_eq_ok.mp hw
    obtain ⟨v₂, h₂, hw⟩ := bind_eq_ok.mp hw
    obtain ⟨v₃, h₃, hw⟩ := bind_eq_ok.mp hw
    cases hw
    have hg : v.tag t = some g := deref_eq_ok.mp hg
    have hrest : sub32 g.size size < B := by
      rw [sub32_of_le (hle g hg).2 (hle g hg).1]
      have := h.size t g hg
      omega
    exact ⟨(((h.setTag h₁ fun _ _ => hrest).putTag hsize).setTagIf h₂ fun g hg => hg).setTag h₃
      fun g hg => hg, rfl⟩

theorem claim_cases (h : claim v bt = .ok (w, g)) (hb : Below B v) :
    Below B w ∧ ∃ t g', bt = some t ∧ w.tag t = some g' ∧ g'.allocated = .allocated := by
  obtain ⟨v₁, h₁, h⟩ := bind_eq_ok.mp h
  obtain ⟨g₁, hg₁, h⟩ := bind_eq_ok.mp h
  obtain ⟨span, hspan, h⟩ := bind_eq_ok.mp h
  have hb₁ := hb.setTag h₁ fun g hg => hg
  obtain ⟨t, g₀, rfl, hg₀, rfl⟩ := setTag_cases h₁
  cases span with
  | none => cases h
  | some span =>
    obtain ⟨sp, -, h⟩ := bind_eq_ok.mp h
    obtain ⟨slot, -, h⟩ := bind_eq_ok.mp h
    obtain ⟨-, -, h⟩ := bind_eq_ok.mp h
    obtain ⟨v₂, h₂, h⟩ := bind_eq_ok.mp h
    cases h
    obtain ⟨hsource, htag⟩ : w.source = v.source ∧
        w.tag = (v.putTag t { g₀ with allocated := .allocated }).tag := by
      obtain ⟨sp', -, h₂⟩ := bind_eq_ok.mp h₂
      split_ifs at h₂
      obtain ⟨spans, -, h₂⟩ := bind_eq_ok.mp h₂
      cases h₂
      exact ⟨rfl, rfl⟩
    refine ⟨⟨hsource.trans hb.source, fun t' g' hg' => hb₁.size t' g' (htag ▸ hg')⟩, t,
      { g₀ with allocated := .allocated }, rfl, ?_, rfl⟩
    rw [htag]
    exact Vmem.putTag_self

/-- A size that cannot be rounded up is longer than any range, and rounded to less than a
quantum. -/
theorem wraps {quantum : ℕ} (hq : 0 < quantum) (hlt : rsize < 2 ^ 32)
    (h : ¬ RoundsUp quantum rsize) :
    roundUp quantum rsize < quantum ∧ ∀ s, quantum ∣ s → s < 2 ^ 32 → s < rsize := by
  unfold RoundsUp at h
  push Not at h
  obtain ⟨hmod, htop⟩ := h
  have hrem := Nat.mod_lt rsize hq
  have hdiv := Nat.div_add_mod rsize quantum
  constructor
  · rw [roundUp, if_pos hmod, add32]
    omega
  · rintro s ⟨k, rfl⟩ hs
    by_contra hle
    have hk : rsize / quantum < k := by
      by_contra hk
      have := Nat.mul_le_mul_left quantum (Nat.le_of_not_lt hk)
      omega
    have := Nat.mul_le_mul_left quantum hk
    rw [Nat.mul_succ] at this
    omega

/-- An allocated range of an arena, as the caller sees it. -/
theorem Represents.handed {y : Range} (h : Represents w G fl) (hr : r ∈ G) (hy : y ∈ r.ranges)
    (hstate : y.state = .allocated) (hsize : rsize ≤ y.size)
    (hbefore : ∀ t g, v.tag t = some g → g.allocated = .allocated → t ≠ y.tag →
      ∃ z ∈ rangesOf G, z.tag = t ∧ z.addr = g.addr ∧ z.size = g.size) :
    Handed v w y.addr rsize := by
  have hyG : y ∈ rangesOf G := mem_rangesOf.mpr ⟨r, hr, hy⟩
  obtain ⟨g, hg, haddr, hgsize, hgstate⟩ := h.skeleton.get hyG
  obtain ⟨sp, hsp, hshape⟩ := h.skeleton.spanHeld r hr
  obtain ⟨hlo, hpos, hhi, -⟩ := (h.skeleton.layout.region r hr).bounds hy
  refine ⟨y.tag, g, hg, hgstate.trans hstate, haddr, hgsize ▸ hsize, ⟨r.span, sp,
    h.skeleton.getspan_eq hr ⟨hlo, by omega⟩, hsp, hshape.addr ▸ hlo, ?_⟩,
    fun t' g' hne hg' hlive => ?_⟩
  · rw [hshape.addr, hshape.size, hgsize]
    exact hhi
  · have hz : ∃ z ∈ rangesOf G, z.tag = t' ∧ z.addr = g'.addr ∧ z.size = g'.size := by
      rcases hg' with hv | hw
      · exact hbefore t' g' hv hlive hne
      · obtain ⟨z, hz, rfl⟩ := List.mem_map.mp (h.skeleton.only t' g' hw)
        obtain ⟨g₀, hg₀, hza, hzs, -⟩ := h.skeleton.get hz
        cases hg₀.symm.trans hw
        exact ⟨z, hz, rfl, hza.symm, hzs.symm⟩
    obtain ⟨z, hz, rfl, hza, hzs⟩ := hz
    rw [hgsize, ← hza, ← hzs]
    exact h.skeleton.layout.apart hyG hz fun he => hne (congrArg Range.tag he).symm

/-- Where the rounding does not wrap, only the tag of a part can be missing. -/
theorem Represents.honoured (h : Represents v G fl) (hsource : v.source = none)
    (hzero : ∀ r ∈ G, r.addr ≠ 0) (hpos : 0 < rsize) (hround : RoundsUp v.quantum rsize)
    (htmp : v.tag t = none) : Honoured (some t) v rsize vmflag := by
  obtain ⟨-, hle⟩ := roundUp_spec h.skeleton.quantum hround
  obtain ⟨w, a, heq, -, hcases⟩ := h.vmemAlloc_eq hsource hpos hround htmp vmflag
  refine ⟨w, a, heq, ?_⟩
  rcases hcases with ⟨rfl, rfl, -⟩ | ⟨G₁, r, G₂, l, x, m, fl', rfl, hr, hchosen, rfl, hw⟩
  · exact .inl ⟨rfl, rfl⟩
  · obtain ⟨haddr, hsize, -⟩ := @cutOff_bounds x (roundUp v.quantum rsize) t
    have hxG : x ∈ rangesOf (G₁ ++ r :: G₂) := (mem_rangesOf_mid hr).mpr (.inr (.inl (by simp)))
    have hlo := ((h.skeleton.layout.region r (by simp)).bounds (show x ∈ r.ranges by simp [hr])).1
    have hstart := hzero r (by simp)
    refine .inr ⟨by omega, ?_⟩
    rw [← haddr]
    refine hw.handed (r := { r with ranges := allocatedIn t (roundUp v.quantum rsize) l x m })
      (y := { cutOff t x (roundUp v.quantum rsize) with state := .allocated }) (by simp)
      (by simp [allocatedIn]) rfl (hle.trans hsize.ge) fun t' g' hg' hlive _ => ?_
    -- the other allocated ranges are not touched
    obtain ⟨z, hz, rfl⟩ := List.mem_map.mp (h.skeleton.only t' g' hg')
    obtain ⟨g₀, hg₀, hza, hzs, hzstate⟩ := h.skeleton.get hz
    cases hg₀.symm.trans hg'
    refine ⟨z, (mem_rangesOf_mid rfl).mpr ?_, rfl, hza.symm, hzs.symm⟩
    rcases (mem_rangesOf_mid hr).mp hz with hz | hz | hz
    · exact .inl hz
    · refine .inr (.inl ?_)
      simp only [List.mem_append, List.mem_cons] at hz
      rcases hz with hz | rfl | hz
      · simp [allocatedIn, hz]
      · obtain ⟨-, gx, hgx, hfit, -⟩ := hchosen
        cases hgx.symm.trans hg'
        cases hfit.1.symm.trans hlive
      · simp [allocatedIn, hz]
    · exact .inr (.inr hz)

/-- The tag that the carving answers is that of the range or the new one. -/
theorem carve_cases (h : Represents v G fl) {size : ℕ} {b : Option ℕ} (hx : x ∈ rangesOf G)
    (hfree : x.state = .free) (hle : size ≤ x.size) (hb : Below B v)
    (hcarve : carve tmp v x.tag size = .ok (w, b)) :
    Below B w ∧ (b = some x.tag ∧ ¬ v.quantum ≤ sub32 x.size size ∨ b = tmp) := by
  obtain ⟨g, hg, -, hsize, hstate⟩ := h.skeleton.get hx
  obtain ⟨cache, next, prev, fl₁, huncache, -⟩ := h.uncache_eq hx hfree (by simp)
  rw [carve, load_some hg, ok_bind, assert_of (hstate.trans hfree), ok_bind, huncache, ok_bind,
    hsize] at hcarve
  have hb₁ := hb.relink cache next prev
  split_ifs at hcarve with hq
  · obtain ⟨⟨u, c⟩, hsplit, hcarve⟩ := bind_eq_ok.mp hcarve
    obtain ⟨u', hencache, hcarve⟩ := bind_eq_ok.mp hcarve
    cases hcarve
    have hlt : size < B := hle.trans_lt (hsize ▸ hb.size _ g hg)
    obtain ⟨hb₂, hc⟩ := hb₁.splittag hlt (fun g' hg' => by
      cases (relink_tag hg).symm.trans hg'
      have := (h.skeleton.layout.bounds hx).2
      exact ⟨hsize.symm ▸ hle, hsize.symm ▸ (by omega)⟩) hsplit
    exact ⟨hb₂.encache hencache, .inr hc⟩
  · cases hcarve
    exact ⟨hb₁, .inl ⟨rfl, hq⟩⟩

/-- An allocation that found a range and returned has marked a tag. -/
theorem Represents.returned (h : Represents v G fl) (hpos : 0 < rsize) (hb : Below B v)
    {bestfit : Bool} (htmp : ∀ t, tmp = some t → v.tag t = none)
    (hfind : findTag v (roundUp v.quantum rsize) vmflag = .ok (some t))
    (hchosen : Chosen v (roundUp v.quantum rsize) bestfit (tagsOf G) (some t))
    (heq : vmemAlloc tmp v rsize vmflag = .ok (w, a)) :
    Below B w ∧ w ≠ v ∧ (tmp = none → ∃ g, v.tag t = some g ∧
      ¬ v.quantum ≤ sub32 g.size (roundUp v.quantum rsize)) := by
  obtain ⟨ht, g, hg, ⟨hfree, hfit⟩, -⟩ := hchosen
  obtain ⟨x, hx, rfl⟩ := List.mem_map.mp ht
  obtain ⟨g', hg', -, hsize, hstate⟩ := h.skeleton.get hx
  cases hg'.symm.trans hg
  rw [vmemAlloc, if_neg (by omega)] at heq
  dsimp only at heq
  rw [hfind, ok_bind] at heq
  obtain ⟨⟨u, b⟩, hcarve, heq⟩ := bind_eq_ok.mp heq
  obtain ⟨⟨u', g'⟩, hclaim, heq⟩ := bind_eq_ok.mp heq
  obtain ⟨hb₁, hcut⟩ := carve_cases h hx (hstate.symm.trans hfree) (hsize ▸ hfit) hb hcarve
  obtain ⟨hb₂, t, g₂, rfl, hg₂, hlive⟩ := claim_cases hclaim hb₁
  dsimp only at heq
  rw [acquireSource, hb₂.source] at heq
  cases heq
  refine ⟨hb₂, ?_, fun hnone => ⟨g, hg, ?_⟩⟩
  · rintro rfl
    rcases hcut with ⟨he, -⟩ | he
    · cases he
      cases hg.symm.trans hg₂
      cases hfree.symm.trans hlive
    · cases (htmp t he.symm).symm.trans hg₂
  · rw [hnone] at hcut
    obtain ⟨-, hq⟩ := hcut.resolve_right (by simp)
    exact hsize ▸ hq

theorem Represents.below (h : Represents v G fl) (hsource : v.source = none)
    (hB : ∀ s, v.quantum ∣ s → s < 2 ^ 32 → s < B) : Below B v := by
  refine ⟨hsource, fun t g hg => ?_⟩
  obtain ⟨x, hx, rfl⟩ := List.mem_map.mp (h.skeleton.only t g hg)
  obtain ⟨g', hg', -, hsize, -⟩ := h.skeleton.get hx
  cases hg'.symm.trans hg
  have := (h.skeleton.layout.bounds hx).2
  exact hB _ (hsize ▸ h.skeleton.layout.quantum_dvd hx) (by omega)

/-- A range of the very size needs no new tag. -/
theorem Represents.exact_eq (h : Represents v G fl) {new : ℕ}
    (hround : RoundsUp v.quantum rsize) (hexact : Exact v (roundUp v.quantum rsize) vmflag) :
    vmemAlloc none v rsize vmflag = vmemAlloc (some new) v rsize vmflag := by
  rw [vmemAlloc, vmemAlloc]
  split_ifs with hz
  · rfl
  have hsize := roundUp_div_ne h.skeleton.quantum hround (by omega)
  obtain ⟨res, hfind, hchosen⟩ := h.findTag_eq hsize vmflag
  dsimp only
  rw [hfind, ok_bind, ok_bind]
  cases res with
  | none => rfl
  | some t =>
    obtain ⟨ht, g, hg, ⟨hfree, -⟩, -⟩ := hchosen
    obtain ⟨x, hx, rfl⟩ := List.mem_map.mp ht
    obtain ⟨g', hg', -, hxsize, hstate⟩ := h.skeleton.get hx
    cases hg'.symm.trans hg
    obtain ⟨cache, next, prev, fl₁, huncache, -⟩ :=
      h.uncache_eq hx (hstate.symm.trans hfree) (by simp)
    have hsame := hexact _ g hfind hg
    have hrest : sub32 g.size (roundUp v.quantum rsize) = 0 := by
      have := (h.skeleton.layout.bounds hx).2
      rw [hsame, sub32_of_le (by omega) le_rfl, Nat.sub_self]
    have hq : ¬ (v.relink cache next prev).quantum ≤ 0 := h.skeleton.quantum.not_ge
    have hcarve : ∀ tmp, carve tmp v x.tag (roundUp v.quantum rsize) =
        .ok (v.relink cache next prev, some x.tag) := fun tmp => by
      rw [carve, load_some hg, ok_bind, assert_of hfree, ok_bind, huncache, ok_bind, hrest,
        if_neg hq]
    dsimp only
    rw [hcarve, hcarve]

theorem Skeleton.exists_fresh (h : Skeleton v G) : ∃ t, v.tag t = none := by
  obtain ⟨t, ht⟩ := Infinite.exists_notMem_finset (tagsOf G).toFinset
  refine ⟨t, Option.eq_none_iff_forall_not_mem.mpr fun g hg => ht ?_⟩
  exact List.mem_toFinset.mpr (h.only t g hg)

/-- Without a new tag, an allocation that returned did not need one. -/
theorem Represents.exact_of_ok (h : Represents v G fl) (hsource : v.source = none)
    (hpos : 0 < rsize) (hround : RoundsUp v.quantum rsize)
    (heq : vmemAlloc none v rsize vmflag = .ok (w, a)) :
    Exact v (roundUp v.quantum rsize) vmflag := by
  intro t g hfind hg
  have hsize := roundUp_div_ne h.skeleton.quantum hround (by omega)
  obtain ⟨res, hfind', hchosen⟩ := h.findTag_eq hsize vmflag
  cases hfind'.symm.trans hfind
  obtain ⟨-, -, hcut⟩ := h.returned hpos (h.below hsource fun s _ hs => hs) (by rintro t ⟨⟩) hfind
    hchosen heq
  obtain ⟨g', hg', hq⟩ := hcut rfl
  cases hg'.symm.trans hg
  obtain ⟨ht, g', hg', ⟨-, hfit⟩, -⟩ := hchosen
  cases hg'.symm.trans hg
  obtain ⟨x, hx, rfl⟩ := List.mem_map.mp ht
  obtain ⟨g', hg', -, hxsize, -⟩ := h.skeleton.get hx
  cases hg'.symm.trans hg
  have htop := (h.skeleton.layout.bounds hx).2
  rw [sub32_of_le (by omega) hfit] at hq
  -- what is left is a multiple of the quantum
  obtain ⟨hdvd, -⟩ := roundUp_spec h.skeleton.quantum hround
  have hrest := Nat.dvd_sub (hxsize ▸ h.skeleton.layout.quantum_dvd hx) hdvd
  have := Nat.eq_zero_of_dvd_of_lt hrest (by omega)
  omega

/-- Where the rounding does not wrap. -/
theorem Represents.honoured_iff_of_roundsUp (h : Represents v G fl) (hsource : v.source = none)
    (hzero : ∀ r ∈ G, r.addr ≠ 0) (hpos : 0 < rsize) (hround : RoundsUp v.quantum rsize)
    (htmp : ∀ t, tmp = some t → v.tag t = none) :
    Honoured tmp v rsize vmflag ↔ tmp ≠ none ∨ Exact v (roundUp v.quantum rsize) vmflag := by
  cases tmp with
  | some t =>
    exact ⟨fun _ => .inl (Option.some_ne_none t),
      fun _ => h.honoured hsource hzero hpos hround (htmp t rfl)⟩
  | none =>
    constructor
    · rintro ⟨w, a, heq, -⟩
      exact .inr (h.exact_of_ok hsource hpos hround heq)
    · intro hexact
      obtain ⟨t, ht⟩ := h.skeleton.exists_fresh
      obtain ⟨w, a, heq, hres⟩ : Honoured (some t) v rsize vmflag :=
        h.honoured hsource hzero hpos hround ht
      exact ⟨w, a, (h.exact_eq hround (hexact.resolve_left (· rfl))).trans heq, hres⟩

/-- Where it wraps. -/
theorem Represents.honoured_iff_of_wraps (h : Represents v G fl) (hsource : v.source = none)
    (hpos : 0 < rsize) (hlt : rsize < 2 ^ 32) (hround : ¬ RoundsUp v.quantum rsize)
    (htmp : ∀ t, tmp = some t → v.tag t = none) :
    Honoured tmp v rsize vmflag ↔
      hasFlag vmflag vmemSearch = true ∧ ∀ t g, v.tag t = some g → g.allocated = .allocated := by
  obtain ⟨hsmall, hlong⟩ := wraps h.skeleton.quantum hlt hround
  obtain ⟨res, hres, hchosen⟩ := h.skeleton.search_eq (roundUp v.quantum rsize) vmflag
  constructor
  · rintro ⟨w, a, heq, hgood⟩
    have hsearch : hasFlag vmflag vmemSearch = true := by
      by_contra hno
      rw [vmemAlloc, if_neg (by omega)] at heq
      dsimp only at heq
      rw [findTag, if_neg hno, vmemAllocQuantum, highbit, Nat.div_eq_of_lt hsmall] at heq
      cases heq
    refine ⟨hsearch, fun t g hg => ?_⟩
    have hfind : findTag v (roundUp v.quantum rsize) vmflag = .ok res := by
      rw [findTag, if_pos hsearch, hres]
    cases res with
    | none =>
      -- a free range is at least as long as a quantum
      by_contra hno
      have ht := h.skeleton.only t g hg
      obtain ⟨x, hx, rfl⟩ := List.mem_map.mp ht
      obtain ⟨g', hg', -, hsize, -⟩ := h.skeleton.get hx
      cases hg'.symm.trans hg
      have hdvd := h.skeleton.layout.quantum_dvd hx
      have := Nat.le_of_dvd (h.skeleton.layout.bounds hx).1 hdvd
      refine hchosen _ ht g hg ⟨?_, by omega⟩
      cases hs : g.allocated with
      | free => rfl
      | allocated => exact absurd hs hno
    | some b =>
      obtain ⟨hb, hne, -⟩ := h.returned hpos (h.below hsource hlong) htmp hfind hchosen heq
      rcases hgood with ⟨-, he⟩ | ⟨-, t', g', hg', -, -, hlen, -⟩
      · exact absurd he hne
      · exact absurd (hb.size t' g' hg') hlen.not_gt
  · rintro ⟨hsearch, hall⟩
    have hnone : res = none := by
      cases res with
      | none => rfl
      | some t =>
        obtain ⟨-, g, hg, ⟨hfree, -⟩, -⟩ := hchosen
        cases hfree.symm.trans (hall t g hg)
    refine ⟨v, 0, ?_, .inl ⟨rfl, rfl⟩⟩
    rw [vmemAlloc, if_neg (by omega)]
    dsimp only
    rw [findTag, if_pos hsearch, hres, hnone]
    rfl

/-- An allocation of any size, with any flags and any answer of `kmalloc`, does what a caller may
expect exactly when the size can be rounded up and a tag is there, or no range is free and all
tags are searched. -/
theorem vmemAlloc_honoured_iff (h : Represents v G fl) (hsource : v.source = none)
    (hzero : ∀ r ∈ G, r.addr ≠ 0) (hpos : 0 < rsize) (hlt : rsize < 2 ^ 32)
    (htmp : ∀ t, tmp = some t → v.tag t = none) (vmflag : ℕ) :
    Honoured tmp v rsize vmflag ↔ Fair tmp v rsize vmflag := by
  by_cases hround : RoundsUp v.quantum rsize
  · rw [h.honoured_iff_of_roundsUp hsource hzero hpos hround htmp]
    exact ⟨fun hc => .inl ⟨hround, hc⟩, fun hc => (hc.resolve_right fun hw => hw.1 hround).2⟩
  · rw [h.honoured_iff_of_wraps hsource hpos hlt hround htmp]
    exact ⟨fun hc => .inr ⟨hround, hc⟩, fun hc => (hc.resolve_left fun hr => hround hr.1).2⟩

/-- An arena of two quanta. -/
theorem addedRun_represents : addedRun.arena.source = none ∧
    ∃ G fl, Represents addedRun.arena G fl ∧ ∀ r ∈ G, r.addr ≠ 0 := by
  have hadd : ArenaCall.step (smallArena 4096 65536) (.add 1 1 0x80000000 8192) = .ok addedRun :=
    step_after (by decide)
  have hinit : ArenaRun.Ok (smallArena 4096 65536) := by
    obtain ⟨hsource, hv⟩ := vmemCreate_represents (v := (smallArena 4096 65536).arena)
      (show vmemCreate 4096 65536 _ _ none = _ from rfl)
    exact ⟨hsource, [], _, hv, .nil⟩
  obtain ⟨t, ht, hsource, G, fl, hG, hperm⟩ := run_preserved _ (.add 1 1 0x80000000 8192) hinit
    ⟨⟨⟨rfl, rfl⟩, ⟨by decide, ⟨2, rfl⟩, by decide⟩, nofun⟩,
      (by decide : 8192 / 4096 < 2 ^ 30)⟩
  cases hadd.symm.trans ht
  refine ⟨hsource, G, fl, hG, fun r hr => ?_⟩
  have hmem := hperm.subset (List.mem_map_of_mem (f := Region.block) hr)
  have hblock : r.block = (0x80000000, 8192) := List.mem_singleton.mp hmem
  rw [show r.addr = r.block.1 from rfl, hblock]
  decide

theorem vmemAlloc_honoured_iff_small : Honoured (some 2) addedRun.arena 100 0 := by
  obtain ⟨hsource, G, fl, hG, hzero⟩ := addedRun_represents
  exact (vmemAlloc_honoured_iff hG hsource hzero (by decide) (by decide)
    (fun t ht => by cases ht; rfl) 0).mpr (.inl ⟨fun _ => (by decide : 100 + (4096 - 100 % 4096) <
      2 ^ 32), .inl (Option.some_ne_none 2)⟩)

/-- A request for all addresses but one fails an assertion, whether the search is by size class or
through all tags. -/
theorem longest_size_fails :
    (addedRun.arena.source = none ∧ ∃ G fl, Represents addedRun.arena G fl ∧ ∀ r ∈ G, r.addr ≠ 0) ∧
      addedRun.arena.tag 2 = none ∧
      vmemAlloc (some 2) addedRun.arena (2 ^ 32 - 1) 0 = .error .assertion ∧
      vmemAlloc (some 2) addedRun.arena (2 ^ 32 - 1) vmemSearch = .error .assertion ∧
      ¬ Honoured (some 2) addedRun.arena (2 ^ 32 - 1) 0 := by
  have hfails : vmemAlloc (some 2) addedRun.arena (2 ^ 32 - 1) 0 = .error .assertion :=
    faultOf_eq_some.mp (by decide)
  refine ⟨addedRun_represents, rfl, hfails, faultOf_eq_some.mp (by decide), ?_⟩
  rintro ⟨w, a, heq, -⟩
  cases hfails.symm.trans heq

end Racoon.Arenas
