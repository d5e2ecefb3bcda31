import Racoon.Mm.Marks
import Racoon.Mm.Search

/-!
# Allocating

`vmem_alloc` cuts the right part off a free range that is long enough and marks
it in its tag and in the table of its span.
-/

namespace Racoon.Arenas
open Lib
variable {σ : Type} {v : Vmem σ} {G G₁ G₂ : List Region} {r : Region} {x : Range}
  {l m : List Range} {fl : ℕ → List ℕ} {g : Bt} {size rsize tmp : ℕ}

/-- What is left of a range. -/
def remainder (x : Range) (size : ℕ) : List Range :=
  if x.size = size then [] else [{ x with size := x.size - size }]

/-- What is cut off it. A part has a new tag. -/
def cutOff (tmp : ℕ) (x : Range) (size : ℕ) : Range :=
  if x.size = size then x else ⟨tmp, x.addr + (x.size - size), size, x.state⟩

theorem cutOff_bounds :
    (cutOff tmp x size).addr = x.addr + (x.size - size) ∧ (cutOff tmp x size).size = size ∧
      (cutOff tmp x size).state = x.state := by
  unfold cutOff
  split_ifs with he
  · exact ⟨by omega, he, rfl⟩
  · exact ⟨rfl, rfl, rfl⟩

theorem Represents.carve_eq (h : Represents v (G₁ ++ r :: G₂) fl) (hr : r.ranges = l ++ x :: m)
    (hfree : x.state = .free) (hpos : 0 < size) (hle : size ≤ x.size) (hdvd : v.quantum ∣ size)
    (htmp : v.tag tmp = none) :
    ∃ w fl', carve (some tmp) v x.tag size = .ok (w, some (cutOff tmp x size).tag) ∧ Kept v w ∧
      Tracks w (G₁ ++
        { r with ranges := (l ++ remainder x size) ++ [cutOff tmp x size] ++ m } :: G₂)
        fl' [(cutOff tmp x size).tag] := by
  have hx : x ∈ rangesOf (G₁ ++ r :: G₂) := mem_rangesOf.mpr ⟨r, by simp, by simp [hr]⟩
  obtain ⟨g, hg, -, hsize, hstate⟩ := h.skeleton.get hx
  obtain ⟨cache, next, prev, fl₁, huncache, h₁⟩ := h.uncache_eq hx hfree (by simp)
  have hrest : sub32 g.size size = x.size - size := by
    rw [hsize]
    have := (h.skeleton.layout.bounds hx).2
    exact sub32_of_le (by omega) hle
  have hrestdvd : v.quantum ∣ x.size - size :=
    Nat.dvd_sub (h.skeleton.layout.quantum_dvd hx) hdvd
  rw [carve, load_some hg, ok_bind, assert_of (hstate.trans hfree), ok_bind, huncache, ok_bind,
    hrest]
  by_cases hsame : x.size = size
  · have hq : ¬ (v.relink cache next prev).quantum ≤ x.size - size := by
      have : 0 < (v.relink cache next prev).quantum := h.skeleton.quantum
      omega
    rw [if_neg hq, remainder, cutOff, if_pos hsame, if_pos hsame]
    have hr' : { r with ranges := l ++ [] ++ [x] ++ m } = r := by
      cases r
      simp_all
    exact ⟨_, fl₁, rfl, Kept.relink .., hr'.symm ▸ h₁⟩
  · have hlt : size < x.size := by omega
    have hq : (v.relink cache next prev).quantum ≤ x.size - size :=
      Nat.le_of_dvd (by omega) hrestdvd
    rw [if_pos hq, remainder, cutOff, if_neg hsame, if_neg hsame]
    have htmp₁ : (v.relink cache next prev).tag tmp = none := by
      simp [Vmem.relink, htmp]
    have hnew : tmp ≠ x.tag := fun e => by simp [← e, htmp] at hg
    obtain ⟨w, hsplit, hskel, hlists⟩ := h₁.skeleton.splittag_eq hr hfree hpos hlt hdvd htmp₁
    have h₂ := @Tracks.edit _ _ _ _ _ _ _ h₁ _ _ [x.tag, tmp] hskel hlists (by simp)
      (fun t ht => by
        simp only [List.mem_cons, List.not_mem_nil, or_false] at ht ⊢
        rcases ht with rfl | rfl
        · exact .inl rfl
        · exact .inr htmp₁)
      fun y hy => by
        rw [hr]
        simp only [List.mem_append, List.mem_cons, List.not_mem_nil, or_false] at hy ⊢
        constructor
        · rintro ((hy' | rfl | rfl) | hy')
          · exact .inl hy'
          · simp [hfree] at hy
          · simp at hy
          · exact .inr (.inr hy')
        · rintro (hy' | rfl | hy')
          · exact .inl (.inl hy')
          · simp [hfree] at hy
          · exact .inr hy'
    have hx₂ : { x with size := x.size - size } ∈ rangesOf (G₁ ++ { r with ranges := l ++
        [{ x with size := x.size - size }, ⟨tmp, x.addr + (x.size - size), size, .free⟩] ++ m } ::
          G₂) := (mem_rangesOf_mid rfl).mpr (.inr (.inl (by simp)))
    obtain ⟨cache', next', prev', fl₂, hencache, h₃⟩ :=
      h₂.encache_eq (x := { x with size := x.size - size }) hx₂ hfree (by simpa using hnew.symm)
    refine ⟨w.relink cache' next' prev', fl₂, ?_,
      ((Kept.relink v cache next prev).trans hlists.toKept).trans (Kept.relink ..), ?_⟩
    · rw [hsplit, ok_bind]
      dsimp only
      rw [hencache, ok_bind]
    · have hcut : (⟨tmp, x.addr + (x.size - size), size, x.state⟩ : Range) =
          ⟨tmp, x.addr + (x.size - size), size, .free⟩ := by rw [hfree]
      have hlist : l ++ [{ x with size := x.size - size }] ++
          [⟨tmp, x.addr + (x.size - size), size, .free⟩] ++ m =
          l ++ [{ x with size := x.size - size },
            ⟨tmp, x.addr + (x.size - size), size, .free⟩] ++ m := by
        simp
      rw [hcut, hlist]
      exact h₃

theorem Tracks.claim_eq (h : Tracks v (G₁ ++ r :: G₂) fl [x.tag]) (hr : r.ranges = l ++ x :: m)
    (hfree : x.state = .free) :
    ∃ w g, claim v (some x.tag) = .ok (w, g) ∧ g.addr = x.addr ∧ Kept v w ∧
      Tracks w (G₁ ++ { r with ranges := l ++ [{ x with state := .allocated }] ++ m } :: G₂) fl
        [] := by
  have hrG : r ∈ G₁ ++ r :: G₂ := by simp
  have hxr : x ∈ r.ranges := by simp [hr]
  have hx : x ∈ rangesOf (G₁ ++ r :: G₂) := mem_rangesOf.mpr ⟨r, hrG, hxr⟩
  have hok := h.skeleton.layout.region r hrG
  obtain ⟨g, hg, haddr, hsize, hstate⟩ := h.skeleton.get hx
  obtain ⟨sp, hsp, hshape⟩ := h.skeleton.spanHeld r hrG
  have hs := h.skeleton.restate hr hg .allocated
  have hspan : vmemGetspan (v.putTag x.tag { g with allocated := .allocated }) x.addr =
      .ok (some r.span) := by
    obtain ⟨hlo, hpos, hhi, -⟩ := hok.bounds hxr
    exact hs.getspan_eq (r := { r with ranges := l ++ [{ x with state := .allocated }] ++ m })
      (by simp) ⟨hlo, show x.addr < r.addr + r.size by omega⟩
  have hslot : sub32 g.addr sp.addr / v.quantum = slotOf v.quantum r x := by
    rw [haddr, h.skeleton.slot_eq hrG hsp hxr]
  have hlt := hok.slot_lt hxr
  have hread : readHash sp (slotOf v.quantum r x) = .ok none := by
    rw [h.skeleton.readHash_eq hrG hsp hlt, h.entry_eq hrG hsp hxr, entryOf,
      if_neg (by simp [hfree])]
  have hwrite : writeHash (v.putTag x.tag { g with allocated := .allocated }) r.span
      (slotOf v.quantum r x) (some x.tag) = .ok _ :=
    hs.writeHash_eq (r := { r with ranges := l ++ [{ x with state := .allocated }] ++ m })
      (by simp) hsp hlt (some x.tag)
  have hmark := h.mark hr hg hsp (by simp) .allocated
  refine ⟨_, { g with allocated := .allocated }, ?_, haddr, ?_,
    (Tracks.cons_iff fun y hy hyx => ?_).mp hmark⟩
  · rw [claim, Vmem.setTag_eq hg, ok_bind]
    refine bind_eq_ok.mpr ⟨_, load_some Vmem.putTag_self, ?_⟩
    dsimp only
    refine bind_eq_ok.mpr ⟨_, (congrArg (vmemGetspan _) haddr).trans hspan, ?_⟩
    dsimp only
    refine bind_eq_ok.mpr ⟨sp, load_some hsp, ?_⟩
    rw [hslot, hread, ok_bind, assert_of rfl, ok_bind]
    exact bind_eq_ok.mpr ⟨_, hwrite, rfl⟩
  · exact ⟨rfl, rfl, rfl, rfl, rfl, rfl⟩
  · have hmem : { x with state := .allocated } ∈ rangesOf (G₁ ++ { r with
        ranges := l ++ [{ x with state := .allocated }] ++ m } :: G₂) :=
      (mem_rangesOf_mid rfl).mpr (.inr (.inl (by simp)))
    rw [hmark.skeleton.tag_inj hy hmem hyx]
    simp

/-- The rounding of a size does not wrap. -/
def RoundsUp (quantum rsize : ℕ) : Prop :=
  rsize % quantum ≠ 0 → rsize + (quantum - rsize % quantum) < 2 ^ 32

theorem roundUp_spec {quantum : ℕ} (hq : 0 < quantum) (h : RoundsUp quantum rsize) :
    quantum ∣ roundUp quantum rsize ∧ rsize ≤ roundUp quantum rsize := by
  unfold roundUp
  split_ifs with hmod
  · rw [add32_of_lt (h hmod)]
    have hlt := Nat.mod_lt rsize hq
    have hdiv := Nat.div_add_mod rsize quantum
    refine ⟨⟨rsize / quantum + 1, ?_⟩, by omega⟩
    rw [Nat.mul_add, Nat.mul_one]
    omega
  · exact ⟨Nat.dvd_of_mod_eq_zero (not_not.mp hmod), le_rfl⟩

theorem roundUp_div_ne {quantum : ℕ} (hq : 0 < quantum) (h : RoundsUp quantum rsize)
    (hpos : 0 < rsize) : roundUp quantum rsize / quantum ≠ 0 := by
  obtain ⟨hdvd, hle⟩ := roundUp_spec hq h
  exact (Nat.div_pos (Nat.le_of_dvd (by omega) hdvd) hq).ne'

theorem separate_remainder (h : (l ++ x :: m).IsChain Separate) :
    (l ++ remainder x size).IsChain Separate := by
  have hlx : (l ++ [x]).IsChain Separate := by
    have : l ++ x :: m = (l ++ [x]) ++ m := by simp
    exact (List.isChain_append.mp (this ▸ h)).1
  unfold remainder
  split_ifs
  · rw [List.append_nil]
    exact (List.isChain_append.mp h).1
  · obtain ⟨hl, -, hends⟩ := List.isChain_append.mp hlx
    refine List.isChain_append.mpr ⟨hl, .singleton _, fun z hz y hy => ?_⟩
    simp only [List.head?_cons, Option.mem_def, Option.some.injEq] at hy
    subst hy
    exact hends z hz x (by simp)

/-- The ranges of the region after the right part of `x` was allocated. -/
def allocatedIn (tmp size : ℕ) (l : List Range) (x : Range) (m : List Range) : List Range :=
  l ++ remainder x size ++ [{ cutOff tmp x size with state := .allocated }] ++ m

/-- An allocation takes a range that is long enough if there is one, and then turns to the arena
below. -/
theorem Represents.vmemAlloc_cases (h : Represents v G fl) (hpos : 0 < rsize)
    (hround : RoundsUp v.quantum rsize) (htmp : v.tag tmp = none) (vmflag : ℕ) :
    (vmemAlloc (some tmp) v rsize vmflag = .ok (v, 0) ∧
      NoneFits v (roundUp v.quantum rsize) (tagsOf G)) ∨
    ∃ u w g G₁ r G₂ l x m fl', G = G₁ ++ r :: G₂ ∧ r.ranges = l ++ x :: m ∧
      Chosen v (roundUp v.quantum rsize) (minimal vmflag) (tagsOf G) (some x.tag) ∧
      carve (some tmp) v x.tag (roundUp v.quantum rsize) =
        .ok (u, some (cutOff tmp x (roundUp v.quantum rsize)).tag) ∧
      claim u (some (cutOff tmp x (roundUp v.quantum rsize)).tag) = .ok (w, g) ∧
      g.addr = x.addr + (x.size - roundUp v.quantum rsize) ∧ Kept v w ∧
      Represents w (G₁ ++ { r with
        ranges := allocatedIn tmp (roundUp v.quantum rsize) l x m } :: G₂) fl' ∧
      vmemAlloc (some tmp) v rsize vmflag =
        acquireSource w (some (cutOff tmp x (roundUp v.quantum rsize)).tag) g vmflag := by
  obtain ⟨hdvd, hle⟩ := roundUp_spec h.skeleton.quantum hround
  have hsize := roundUp_div_ne h.skeleton.quantum hround (by omega)
  obtain ⟨res, hfind, hchosen⟩ := h.findTag_eq hsize vmflag
  rw [vmemAlloc, if_neg (by omega)]
  dsimp only
  rw [hfind, ok_bind]
  cases res with
  | none => exact .inl ⟨rfl, hchosen⟩
  | some t =>
    have hfits := hchosen
    obtain ⟨ht, g, hg, ⟨hfree, hfit⟩, -⟩ := hfits
    obtain ⟨x, hx, rfl⟩ := List.mem_map.mp ht
    obtain ⟨G₁, G₂, r, l, m, rfl, hr⟩ := exists_place hx
    obtain ⟨g', hg', haddr, hgsize, hstate⟩ := h.skeleton.get hx
    rw [hg] at hg'
    cases hg'
    obtain ⟨u, fl', hcarve, hkept, hu⟩ := h.carve_eq hr (hstate.symm.trans hfree) (by omega)
      (hgsize ▸ hfit) hdvd htmp
    obtain ⟨hya, -, hystate⟩ := @cutOff_bounds x (roundUp v.quantum rsize) tmp
    have hseparated := h.separated r (by simp)
    rw [hr] at hseparated
    obtain ⟨w, gw, hclaim, hgw, hkept', hw⟩ := hu.claim_eq
      (l := l ++ remainder x (roundUp v.quantum rsize)) (m := m) (by simp)
      (hystate.trans (hstate.symm.trans hfree))
    refine .inr ⟨u, w, gw, G₁, r, G₂, l, x, m, _, rfl, hr, hchosen, hcarve, hclaim,
      hgw.trans hya, hkept.trans hkept', ⟨hw, ?_⟩, ?_⟩
    · refine h.separated.replace (separate_insert (separate_remainder hseparated)
        (List.isChain_append.mp hseparated).2.1.tail (fun z _ hz => ?_) fun z _ hz => ?_)
      · cases hz.2
      · cases hz.1
    · dsimp only
      rw [hcarve, ok_bind]
      dsimp only
      rw [hclaim, ok_bind]

/-- Without an arena below, an allocation takes a range that is long enough if there is one. -/
theorem Represents.vmemAlloc_eq (h : Represents v G fl) (hsource : v.source = none)
    (hpos : 0 < rsize) (hround : RoundsUp v.quantum rsize) (htmp : v.tag tmp = none)
    (vmflag : ℕ) :
    ∃ w a, vmemAlloc (some tmp) v rsize vmflag = .ok (w, a) ∧ Kept v w ∧
      ((w = v ∧ a = 0 ∧ NoneFits v (roundUp v.quantum rsize) (tagsOf G)) ∨
        ∃ G₁ r G₂ l x m fl', G = G₁ ++ r :: G₂ ∧ r.ranges = l ++ x :: m ∧
          Chosen v (roundUp v.quantum rsize) (minimal vmflag) (tagsOf G) (some x.tag) ∧
          a = x.addr + (x.size - roundUp v.quantum rsize) ∧
          Represents w (G₁ ++ { r with
            ranges := allocatedIn tmp (roundUp v.quantum rsize) l x m } :: G₂) fl') := by
  rcases h.vmemAlloc_cases hpos hround htmp vmflag with ⟨heq, hnone⟩ |
    ⟨u, w, g, G₁, r, G₂, l, x, m, fl', hG, hr, hchosen, -, -, hg, hkept, hw, heq⟩
  · exact ⟨v, 0, heq, ⟨rfl, rfl, rfl, rfl, rfl, rfl⟩, .inl ⟨rfl, rfl, hnone⟩⟩
  · rw [acquireSource, hkept.source, hsource] at heq
    dsimp only at heq
    exact ⟨w, g.addr, heq, hkept, .inr ⟨G₁, r, G₂, l, x, m, fl', hG, hr, hchosen, hg, hw⟩⟩

end Racoon.Arenas
