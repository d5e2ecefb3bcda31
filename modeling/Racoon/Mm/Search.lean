import Racoon.Mm.Arena

/-!
# Which range an allocation takes

`Chosen v rsize bestfit ids` says what a search through the tags `ids` may
answer. The search by size class is right because a range of a higher class is
longer than any of a lower one.
-/

namespace Racoon.Arenas
open Lib
variable {σ : Type} {v : Vmem σ} {G : List Region} {fl : ℕ → List ℕ} {g : Bt} {rsize t : ℕ}
  {bestfit : Bool} {ids done : List ℕ} {best : Option ℕ} {except : List ℕ}

def Fits (rsize : ℕ) (g : Bt) : Prop := g.allocated = .free ∧ rsize ≤ g.size

def NoneFits (v : Vmem σ) (rsize : ℕ) (ids : List ℕ) : Prop :=
  ∀ t ∈ ids, ∀ g, v.tag t = some g → ¬ Fits rsize g

def Chosen (v : Vmem σ) (rsize : ℕ) (bestfit : Bool) (ids : List ℕ) : Option ℕ → Prop
  | none => NoneFits v rsize ids
  | some t => t ∈ ids ∧ ∃ g, v.tag t = some g ∧ Fits rsize g ∧ (bestfit = true →
      ∀ t' ∈ ids, ∀ g', v.tag t' = some g' → Fits rsize g' → g.size ≤ g'.size)

theorem noneFits_append {ids' : List ℕ} :
    NoneFits v rsize (ids ++ ids') ↔ NoneFits v rsize ids ∧ NoneFits v rsize ids' := by
  simp only [NoneFits, List.mem_append, or_imp, forall_and]

theorem noneFits_singleton (h : v.tag t = some g) : NoneFits v rsize [t] ↔ ¬ Fits rsize g := by
  simp [NoneFits, h]

/-- A tag that does not fit changes no choice. -/
theorem Chosen.snoc (h : Chosen v rsize bestfit done best) (ht : NoneFits v rsize [t]) :
    Chosen v rsize bestfit (done ++ [t]) best := by
  cases best with
  | none => exact noneFits_append.mpr ⟨h, ht⟩
  | some b =>
    obtain ⟨hb, g, hg, hfit, hmin⟩ := h
    refine ⟨by simp [hb], g, hg, hfit, fun hbest t' ht' g' hg' hfit' => ?_⟩
    rcases List.mem_append.mp ht' with ht' | ht'
    · exact hmin hbest t' ht' g' hg' hfit'
    · exact absurd hfit' (ht t' ht' g' hg')

theorem Chosen.weaken {strict : Bool} (h : Chosen v rsize bestfit ids best)
    (hs : strict = true → bestfit = true) : Chosen v rsize strict ids best := by
  cases best with
  | none => exact h
  | some b =>
    obtain ⟨hb, g, hg, hfit, hmin⟩ := h
    exact ⟨hb, g, hg, hfit, fun hst => hmin (hs hst)⟩

theorem better_eq (h : Chosen v rsize true done best) (hg : v.tag t = some g)
    (hfit : Fits rsize g) :
    ∃ b, better v t g.size best = .ok b ∧ Chosen v rsize true (done ++ [t]) (some b) := by
  cases best with
  | none =>
    refine ⟨t, rfl, by simp, g, hg, hfit, fun _ t' ht' g' hg' hfit' => ?_⟩
    rcases List.mem_append.mp ht' with ht' | ht'
    · exact absurd hfit' (h t' ht' g' hg')
    · rw [List.mem_singleton.mp ht', hg] at hg'
      cases hg'
      exact le_rfl
  | some b =>
    obtain ⟨hb, gb, hgb, hfitb, hmin⟩ := h
    rw [better, load_some hgb, ok_bind]
    refine ⟨_, rfl, ?_⟩
    split_ifs with hlt
    · refine ⟨by simp, g, hg, hfit, fun _ t' ht' g' hg' hfit' => ?_⟩
      rcases List.mem_append.mp ht' with ht' | ht'
      · exact hlt.le.trans (hmin rfl t' ht' g' hg' hfit')
      · rw [List.mem_singleton.mp ht', hg] at hg'
        cases hg'
        exact le_rfl
    · refine ⟨by simp [hb], gb, hgb, hfitb, fun _ t' ht' g' hg' hfit' => ?_⟩
      rcases List.mem_append.mp ht' with ht' | ht'
      · exact hmin rfl t' ht' g' hg' hfit'
      · rw [List.mem_singleton.mp ht', hg] at hg'
        cases hg'
        omega

/-- The loop, `done` being behind it. -/
theorem scanFrom_eq {link : Bt → Option ℕ} {prev : ℕ → Option ℕ} {a : Option ℕ} {freeList : Bool}
    {left : ℕ} (hl : Linked (via link v.tag) prev a ids none)
    (halive : ∀ t ∈ ids, ∃ g, v.tag t = some g)
    (hfree : freeList = true → ∀ t ∈ ids, ∀ g, v.tag t = some g → g.allocated = .free)
    (hleft : ids.length ≤ left) (hbest : Chosen v rsize bestfit done best)
    (hnone : bestfit = false → best = none) :
    ∃ res, scanFrom v link freeList rsize bestfit left ids.head? best = .ok res ∧
      Chosen v rsize bestfit (done ++ ids) res := by
  induction ids generalizing done best left a with
  | nil =>
    refine ⟨best, by cases left <;> rfl, ?_⟩
    rwa [List.append_nil]
  | cons t ids ih =>
    obtain ⟨left, rfl⟩ := Nat.exists_eq_add_one_of_ne_zero (show left ≠ 0 by
      rintro rfl
      simp at hleft)
    obtain ⟨g, hg⟩ := halive t (by simp)
    obtain ⟨-, hnext, hl⟩ := hl
    rw [via_of hg, Option.or_none] at hnext
    have hrest : ∀ {best' : Option ℕ}, Chosen v rsize bestfit (done ++ [t]) best' →
        (bestfit = false → best' = none) → ∃ res,
        scanFrom v link freeList rsize bestfit left ids.head? best' = .ok res ∧
          Chosen v rsize bestfit (done ++ t :: ids) res := fun hbest' hnone' => by
      have := ih hl (fun t ht => halive t (by simp [ht])) (fun hf t ht => hfree hf t (by simp [ht]))
        (by simpa using hleft) hbest' hnone'
      simpa using this
    rw [List.head?_cons, scanFrom, load_some hg, ok_bind,
      assert_of fun hf => hfree hf t (by simp) g hg, ok_bind, hnext]
    by_cases hfit : g.allocated = .free ∧ rsize ≤ g.size
    · rw [if_pos hfit]
      cases bestfit with
      | false =>
        refine ⟨some t, rfl, by simp, g, hg, hfit, fun hb => ?_⟩
        cases hb
      | true =>
        obtain ⟨b, hb, hchosen⟩ := better_eq hbest hg hfit
        rw [if_pos rfl, hb, ok_bind]
        exact hrest hchosen fun h => by cases h
    · rw [if_neg hfit]
      exact hrest (hbest.snoc ((noneFits_singleton hg).mpr hfit)) hnone

namespace Skeleton

theorem search_eq (h : Skeleton v G) (rsize vmflag : ℕ) :
    ∃ res, vmemAllocSearch v rsize vmflag = .ok res ∧
      Chosen v rsize (hasFlag vmflag vmemBestfit) (tagsOf G) res := by
  have hnil : Chosen v rsize (hasFlag vmflag vmemBestfit) [] none := fun t ht => by simp at ht
  have := @scanFrom_eq σ v rsize (hasFlag vmflag vmemBestfit) (tagsOf G) [] none Bt.next
    (via Bt.prev v.tag) none false walkBound h.linked (fun t ht => h.alive ht)
    (fun hf => by cases hf) h.length_le hnil fun _ => rfl
  rw [vmemAllocSearch, h.tags]
  simpa using this

end Skeleton

namespace Tracks

theorem free_of_mem (h : Tracks v G fl except) {c : ℕ} (ht : t ∈ fl c) (hg : v.tag t = some g) :
    t ∈ tagsOf G ∧ g.allocated = .free ∧ classOf v.quantum g.size = c := by
  obtain ⟨-, x, hx, rfl, -, hfree, hc⟩ := (h.cached c t).mp ht
  obtain ⟨g', hg', -, hsize, hstate⟩ := h.skeleton.get hx
  rw [hg] at hg'
  cases hg'
  exact ⟨List.mem_map_of_mem hx, hstate.trans hfree, hsize ▸ hc⟩

theorem class_length_le (h : Tracks v G fl except) (c : ℕ) : (fl c).length ≤ walkBound := by
  have hsub : fl c ⊆ tagsOf G := fun t ht => by
    obtain ⟨g, hg⟩ := h.chains.alive c t ht
    exact (h.free_of_mem ht hg).1
  exact ((h.chains.nodup c).subperm hsub).length_le.trans h.skeleton.length_le

/-- The first class with a range that fits. -/
theorem classesFrom_eq (h : Tracks v G fl except) (rsize : ℕ) (bestfit : Bool)
    (pos : ℕ) {left : ℕ} (hleft : left = v.cacheBits - pos) :
    ∃ res, classesFrom v rsize bestfit left pos = .ok res ∧
      ((res = none ∧ ∀ c, pos ≤ c → NoneFits v rsize (fl c)) ∨
        ∃ c, pos ≤ c ∧ res.isSome ∧ Chosen v rsize bestfit (fl c) res ∧
          ∀ d, pos ≤ d → d < c → NoneFits v rsize (fl d)) := by
  induction left generalizing pos with
  | zero =>
    refine ⟨none, rfl, .inl ⟨rfl, fun c hc t ht => ?_⟩⟩
    have := h.chains.lt_cacheBits ht
    omega
  | succ left ih =>
    have hlt : pos < v.cacheBits := by omega
    have hnil : Chosen v rsize bestfit [] none := fun t ht => by simp at ht
    obtain ⟨res, hres, hchosen⟩ := @scanFrom_eq σ v rsize bestfit (fl pos) [] none Bt.flNext
      (via Bt.flPrev v.tag) none true walkBound (h.chains.linked pos) (h.chains.alive pos)
      (fun _ t ht g hg => (h.free_of_mem ht hg).2.1) (h.class_length_le pos) hnil fun _ => rfl
    rw [classesFrom, Vmem.readCache, if_pos hlt, ok_bind, h.chains.first pos hlt, hres, ok_bind]
    cases res with
    | some t =>
      exact ⟨some t, rfl, .inr ⟨pos, le_rfl, rfl, hchosen, fun d hd hd' => by omega⟩⟩
    | none =>
      have hextend : ∀ d, (pos + 1 ≤ d → NoneFits v rsize (fl d)) → pos ≤ d →
          NoneFits v rsize (fl d) := fun d hd hpos => by
        rcases hpos.eq_or_lt with rfl | hlt
        · exact hchosen
        · exact hd hlt
      obtain ⟨res, hres, hcases⟩ := ih (pos + 1) (by omega)
      refine ⟨res, hres, ?_⟩
      rcases hcases with ⟨rfl, hnone⟩ | ⟨c, hc, hsome, hchosen', hbelow⟩
      · exact .inl ⟨rfl, fun c => hextend c (hnone c)⟩
      · exact .inr ⟨c, by omega, hsome, hchosen', fun d hd hdc =>
          hextend d (fun hd => hbelow d hd hdc) hd⟩

end Tracks

theorem classOf_mono {quantum a b : ℕ} (h : a ≤ b) : classOf quantum a ≤ classOf quantum b := by
  unfold classOf
  rw [Nat.log2_eq_log_two, Nat.log2_eq_log_two]
  exact Nat.log_mono_right (Nat.div_le_div_right h)

/-- With `VMEM_INSTANT` a longer range than the best may be taken. -/
def minimal (vmflag : ℕ) : Bool := hasFlag vmflag vmemBestfit && !hasFlag vmflag vmemInstant

theorem Represents.findTag_eq (h : Represents v G fl) {size : ℕ} (hsize : size / v.quantum ≠ 0)
    (vmflag : ℕ) :
    ∃ res, findTag v size vmflag = .ok res ∧ Chosen v size (minimal vmflag) (tagsOf G) res := by
  have hweak : minimal vmflag = true → hasFlag vmflag vmemBestfit = true := fun hm =>
    (Bool.and_eq_true_iff.mp hm).1
  obtain ⟨full, hfull, hchosen⟩ := h.skeleton.search_eq size vmflag
  by_cases hsearch : hasFlag vmflag vmemSearch
  · exact ⟨full, by rw [findTag, if_pos hsearch, hfull], hchosen.weaken hweak⟩
  · obtain ⟨res, hres, hcases⟩ := h.classesFrom_eq size (hasFlag vmflag vmemBestfit)
      (if hasFlag vmflag vmemInstant then classOf v.quantum size + 1
      else classOf v.quantum size) rfl
    have hquantum : vmemAllocQuantum v size vmflag = .ok res := by
      rw [vmemAllocQuantum, highbit, assert_of hsize]
      exact hres
    rw [findTag, if_neg hsearch, hquantum, ok_bind]
    rcases hcases with ⟨rfl, -⟩ | ⟨c, hc, hsome, hcls, hbelow⟩
    · exact ⟨full, hfull, hchosen.weaken hweak⟩
    · obtain ⟨t, rfl⟩ := Option.isSome_iff_exists.mp hsome
      obtain ⟨ht, g, hg, hfit, hmin⟩ := hcls
      obtain ⟨htG, -, hgc⟩ := h.free_of_mem ht hg
      refine ⟨some t, rfl, htG, g, hg, hfit, fun hm t' ht' g' hg' hfit' => ?_⟩
      obtain ⟨hbest, hinst⟩ := Bool.and_eq_true_iff.mp hm
      rw [Bool.not_eq_true'] at hinst
      rw [hinst, if_neg (by simp)] at hc hbelow
      obtain ⟨x, hx, rfl⟩ := List.mem_map.mp ht'
      obtain ⟨g₀, hg₀, -, hxsize, hxstate⟩ := h.skeleton.get hx
      rw [hg'] at hg₀
      cases hg₀
      have hmem := h.mem_iff hx (hxstate.symm.trans hfit'.1) (by simp)
      have hpos : classOf v.quantum size ≤ classOf v.quantum x.size :=
        classOf_mono (hxsize ▸ hfit'.2)
      rcases Nat.lt_trichotomy (classOf v.quantum x.size) c with hlt | heq | hgt
      · -- the class of the other range was searched before
        have hbits := h.chains.lt_cacheBits ht
        exact absurd hfit' (hbelow _ hpos hlt _ ((hmem _).mpr ⟨by omega, rfl⟩) g' hg')
      · exact hmin hbest _ ((hmem c).mpr ⟨h.chains.lt_cacheBits ht, heq⟩) g' hg' hfit'
      · rw [hxsize]
        by_contra hle
        have := @classOf_mono v.quantum _ _ (Nat.le_of_not_le hle)
        omega

end Racoon.Arenas
