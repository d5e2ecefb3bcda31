import Racoon.Mm.VmemSizes

/-!
# Both searches agree

The search by size class finds a range whenever the search through all tags
does, for it falls back to it. With `VMEM_BESTFIT` and without `VMEM_INSTANT`
the two take a range of the same size, the least that is enough. Only the new
tag of a range that is cut in two can make a difference.
-/

namespace Racoon.Arenas
open Lib
variable {σ : Type} {v w : Vmem σ} {G : List Region} {fl : ℕ → List ℕ} {g : Bt}
  {t a size rsize vmflag : ℕ} {tmp : Option ℕ}

/-- The allocation returns a range. -/
def Granted (tmp : Option ℕ) (v : Vmem σ) (rsize vmflag : ℕ) : Prop :=
  ∃ w a, vmemAlloc tmp v rsize vmflag = .ok (w, a) ∧ a ≠ 0

/-- A free range is long enough. -/
def Available (v : Vmem σ) (size : ℕ) : Prop := ∃ t g, v.tag t = some g ∧ Fits size g

/-- The range handed out at `a` is the right end of a free one, and no free range that is long
enough is shorter than that. -/
def FromSmallest (v : Vmem σ) (size a : ℕ) : Prop :=
  ∃ t g, v.tag t = some g ∧ Fits size g ∧ a + size = g.addr + g.size ∧
    ∀ t' g', v.tag t' = some g' → Fits size g' → g.size ≤ g'.size

/-- With the flags, and with `VMEM_SEARCH` besides, a range is had whenever one is available, and
with `VMEM_BESTFIT` and without `VMEM_INSTANT` it is from the smallest. -/
structure Agree (tmp : Option ℕ) (v : Vmem σ) (rsize vmflag : ℕ) : Prop where
  granted : ∀ flags ∈ [vmflag, vmflag ||| vmemSearch],
    Granted tmp v rsize flags ↔ Available v (roundUp v.quantum rsize)
  search : Granted tmp v rsize (vmflag ||| vmemSearch) ↔ Granted tmp v rsize vmflag
  smallest : ∀ flags ∈ [vmflag, vmflag ||| vmemSearch],
    hasFlag flags vmemBestfit = true → hasFlag flags vmemInstant = false →
    ∀ w a, vmemAlloc tmp v rsize flags = .ok (w, a) → a ≠ 0 →
      FromSmallest v (roundUp v.quantum rsize) a

/-- No range is free, or something is asked for and the new tag is there or neither search finds
a range that must be cut. -/
def Served (tmp : Option ℕ) (v : Vmem σ) (rsize vmflag : ℕ) : Prop :=
  (∀ t g, v.tag t = some g → g.allocated = .allocated) ∨
  (0 < rsize ∧ (tmp ≠ none ∨ ∀ flags ∈ [vmflag, vmflag ||| vmemSearch],
    Exact v (roundUp v.quantum rsize) flags))

theorem not_available (h : ∀ t g, v.tag t = some g → g.allocated = .allocated) (size : ℕ) :
    ¬ Available v size := by
  rintro ⟨t, g, hg, hfree, -⟩
  cases hfree.symm.trans (h t g hg)

/-- Nothing is handed out for a size of 0. -/
theorem not_granted_zero : ¬ Granted tmp v 0 vmflag := by
  rintro ⟨w, a, heq, hne⟩
  rw [vmemAlloc, if_pos rfl] at heq
  cases heq
  exact hne rfl

namespace Represents

/-- What an allocation does when its tag can be had. -/
theorem alloc_some (h : Represents v G fl) (hsource : v.source = none)
    (hzero : ∀ r ∈ G, r.addr ≠ 0) (hpos : 0 < rsize) (hround : RoundsUp v.quantum rsize)
    (htmp : v.tag t = none) (vmflag : ℕ) :
    ∃ w a, vmemAlloc (some t) v rsize vmflag = .ok (w, a) ∧
      (a ≠ 0 ↔ Available v (roundUp v.quantum rsize)) ∧
      (hasFlag vmflag vmemBestfit = true → hasFlag vmflag vmemInstant = false → a ≠ 0 →
        FromSmallest v (roundUp v.quantum rsize) a) := by
  obtain ⟨w, a, heq, -, hcases⟩ := h.vmemAlloc_eq hsource hpos hround htmp vmflag
  refine ⟨w, a, heq, ?_⟩
  rcases hcases with ⟨-, rfl, hnone⟩ | ⟨G₁, r, G₂, l, x, m, fl', rfl, hr, hchosen, ha, -⟩
  · refine ⟨iff_of_false (· rfl) ?_, fun _ _ hne => absurd rfl hne⟩
    rintro ⟨t, g, hg, hfit⟩
    exact hnone t (h.skeleton.only t g hg) g hg hfit
  · have hx : x ∈ rangesOf (G₁ ++ r :: G₂) := mem_rangesOf.mpr ⟨r, by simp, by simp [hr]⟩
    obtain ⟨-, g, hg, hfit, hmin⟩ := hchosen
    obtain ⟨g', hg', haddr, hsize, -⟩ := h.skeleton.get hx
    cases hg'.symm.trans hg
    have hle := hfit.2
    refine ⟨iff_of_true ?_ ⟨x.tag, g, hg, hfit⟩, fun hbest hinstant _ =>
      ⟨x.tag, g, hg, hfit, by omega, fun t' g' hg' hfit' => ?_⟩⟩
    · have hlo := ((h.skeleton.layout.region r (by simp)).bounds (by simp [hr] : x ∈ r.ranges)).1
      have := hzero r (by simp)
      omega
    · exact hmin (by simp [minimal, hbest, hinstant]) t' (h.skeleton.only t' g' hg') g' hg' hfit'

/-- With any answer of `kmalloc`, an allocation that needs no tag does the same. -/
theorem alloc_eq_some (h : Represents v G fl) (hround : RoundsUp v.quantum rsize)
    (htmp : ∀ t, tmp = some t → v.tag t = none)
    (hserved : tmp ≠ none ∨ Exact v (roundUp v.quantum rsize) vmflag) :
    ∃ t, v.tag t = none ∧ vmemAlloc tmp v rsize vmflag = vmemAlloc (some t) v rsize vmflag := by
  cases tmp with
  | some t => exact ⟨t, htmp t rfl, rfl⟩
  | none =>
    obtain ⟨t, ht⟩ := h.skeleton.exists_fresh
    exact ⟨t, ht, h.exact_eq hround (hserved.resolve_left (· rfl))⟩

theorem granted_iff (h : Represents v G fl) (hsource : v.source = none)
    (hzero : ∀ r ∈ G, r.addr ≠ 0) (hpos : 0 < rsize) (hround : RoundsUp v.quantum rsize)
    (htmp : ∀ t, tmp = some t → v.tag t = none)
    (hserved : tmp ≠ none ∨ Exact v (roundUp v.quantum rsize) vmflag) :
    Granted tmp v rsize vmflag ↔ Available v (roundUp v.quantum rsize) := by
  obtain ⟨t, ht, hsame⟩ := h.alloc_eq_some hround htmp hserved
  obtain ⟨w, a, heq, hiff, -⟩ := h.alloc_some hsource hzero hpos hround ht vmflag
  rw [← hsame] at heq
  refine Iff.trans ⟨?_, fun hne => ⟨w, a, heq, hne⟩⟩ hiff
  rintro ⟨w', a', heq', hne⟩
  cases heq.symm.trans heq'
  exact hne

/-- Where none is available, none is found. -/
theorem exact_of_not_available (h : Represents v G fl) (hpos : 0 < rsize)
    (hround : RoundsUp v.quantum rsize)
    (hnone : ¬ Available v (roundUp v.quantum rsize)) (vmflag : ℕ) :
    Exact v (roundUp v.quantum rsize) vmflag := by
  intro t g hfind _
  have hsize := roundUp_div_ne h.skeleton.quantum hround (by omega)
  obtain ⟨res, hfind', hchosen⟩ := h.findTag_eq hsize vmflag
  cases hfind'.symm.trans hfind
  obtain ⟨-, g', hg', hfit, -⟩ := hchosen
  exact absurd ⟨t, g', hg', hfit⟩ hnone

theorem agree_of_served (h : Represents v G fl) (hsource : v.source = none)
    (hzero : ∀ r ∈ G, r.addr ≠ 0) (hpos : 0 < rsize) (hround : RoundsUp v.quantum rsize)
    (htmp : ∀ t, tmp = some t → v.tag t = none)
    (hserved : tmp ≠ none ∨ ∀ flags ∈ [vmflag, vmflag ||| vmemSearch],
      Exact v (roundUp v.quantum rsize) flags) : Agree tmp v rsize vmflag := by
  have heach : ∀ flags ∈ [vmflag, vmflag ||| vmemSearch],
      tmp ≠ none ∨ Exact v (roundUp v.quantum rsize) flags := fun flags hf =>
    hserved.imp_right fun hexact => hexact flags hf
  have hgranted : ∀ flags ∈ [vmflag, vmflag ||| vmemSearch],
      (Granted tmp v rsize flags ↔ Available v (roundUp v.quantum rsize)) := fun flags hf =>
    h.granted_iff hsource hzero hpos hround htmp (heach flags hf)
  refine ⟨hgranted, (hgranted _ (by simp)).trans (hgranted _ (by simp)).symm,
    fun flags hf hbest hinstant w a heq hne => ?_⟩
  obtain ⟨t, ht, hsame⟩ := h.alloc_eq_some hround htmp (heach flags hf)
  obtain ⟨w', a', heq', -, hsmall⟩ := h.alloc_some hsource hzero hpos hround ht flags
  rw [← hsame] at heq'
  cases heq'.symm.trans heq
  exact hsmall hbest hinstant hne

end Represents

/-- The two searches agree on every request, with any flags and any answer of `kmalloc`, exactly
when no range is free or neither needs a tag that cannot be had. -/
theorem searches_agree_iff (h : Represents v G fl) (hsource : v.source = none)
    (hzero : ∀ r ∈ G, r.addr ≠ 0) (hround : RoundsUp v.quantum rsize)
    (htmp : ∀ t, tmp = some t → v.tag t = none) (vmflag : ℕ) :
    Agree tmp v rsize vmflag ↔ Served tmp v rsize vmflag := by
  rcases Nat.eq_zero_or_pos rsize with rfl | hpos
  · -- nothing is handed out, so nothing may be available
    have hzero' : roundUp v.quantum 0 = 0 := by simp [roundUp]
    constructor
    · intro hagree
      refine .inl fun t g hg => ?_
      have hnone := mt (hagree.granted vmflag (by simp)).mpr not_granted_zero
      cases hs : g.allocated with
      | allocated => rfl
      | free => exact absurd ⟨t, g, hg, hs, hzero' ▸ Nat.zero_le _⟩ hnone
    · intro hserved
      have hfull := hserved.resolve_right fun hc => (lt_irrefl 0 hc.1)
      have hnone : ∀ flags, (Granted tmp v 0 flags ↔ Available v (roundUp v.quantum 0)) :=
        fun flags => iff_of_false not_granted_zero (not_available hfull _)
      exact ⟨fun flags _ => hnone flags, iff_of_false not_granted_zero not_granted_zero,
        fun flags _ _ _ w a heq hne => absurd ⟨w, a, heq, hne⟩ not_granted_zero⟩
  · constructor
    · intro hagree
      by_cases hfull : ∀ t g, v.tag t = some g → g.allocated = .allocated
      · exact .inl hfull
      refine .inr ⟨hpos, or_iff_not_imp_left.mpr fun hno flags hf => ?_⟩
      obtain rfl := not_not.mp hno
      by_cases havail : Available v (roundUp v.quantum rsize)
      · -- the allocation returned without a tag
        obtain ⟨w, a, heq, -⟩ := (hagree.granted flags hf).mpr havail
        exact h.exact_of_ok hsource hpos hround heq
      · exact h.exact_of_not_available hpos hround havail flags
    · rintro (hfull | ⟨-, hserved⟩)
      · exact h.agree_of_served hsource hzero hpos hround htmp
          (.inr fun flags _ =>
            h.exact_of_not_available hpos hround (not_available hfull _) flags)
      · exact h.agree_of_served hsource hzero hpos hround htmp hserved

theorem searches_agree_iff_small : Agree (some 2) addedRun.arena 100 vmemBestfit := by
  obtain ⟨hsource, G, fl, hG, hzero⟩ := addedRun_represents
  exact (searches_agree_iff hG hsource hzero
    (fun _ => (by decide : 100 + (4096 - 100 % 4096) < 2 ^ 32))
    (fun t ht => by cases ht; rfl) vmemBestfit).mpr
    (.inr ⟨by decide, .inl (Option.some_ne_none 2)⟩)

/-- A range is available, but the part that is cut off gets no tag. -/
theorem part_without_tag :
    (addedRun.arena.source = none ∧ ∃ G fl, Represents addedRun.arena G fl ∧ ∀ r ∈ G, r.addr ≠ 0) ∧
      RoundsUp addedRun.arena.quantum 100 ∧
      vmemAlloc none addedRun.arena 100 0 = .error .badAccess ∧
      Available addedRun.arena (roundUp addedRun.arena.quantum 100) ∧
      ¬ Agree none addedRun.arena 100 0 := by
  have hfails : vmemAlloc none addedRun.arena 100 0 = .error .badAccess :=
    faultOf_eq_some.mp (by decide)
  have havail : Available addedRun.arena (roundUp addedRun.arena.quantum 100) :=
    ⟨1, _, rfl, rfl, (by decide : 4096 ≤ 8192)⟩
  refine ⟨addedRun_represents, fun _ => (by decide : 100 + (4096 - 100 % 4096) < 2 ^ 32), hfails,
    havail, fun hagree => ?_⟩
  obtain ⟨w, a, heq, -⟩ := (hagree.granted 0 (by simp)).mpr havail
  cases hfails.symm.trans heq

end Racoon.Arenas
