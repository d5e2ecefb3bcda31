import Racoon.Mm.Vmem
import Racoon.Lib.DoublyLinked

/-!
# The free lists of an arena

`FreeChains v fl` says that `free_cache[c]` heads the chain `fl c` and that no
tag is in two chains. Putting a tag in and taking one out touch the `fl` links
only, so that their result is the arena with these links replaced.
-/

namespace Racoon.Arenas
open Lib
variable {σ : Type} {v : Vmem σ} {fl : ℕ → List ℕ} {t x c : ℕ} {g : Bt}

theorem Vmem.setTag_eq (h : v.tag t = some g) (f : Bt → Bt) :
    v.setTag (some t) f = .ok { v with tag := Function.update v.tag t (some (f g)) } := by
  rw [Vmem.setTag, modify_some h]
  rfl

def Vmem.relink (v : Vmem σ) (cache next prev : ℕ → Option ℕ) : Vmem σ :=
  { v with
    freeCache := cache
    tag := fun x => (v.tag x).map fun g => { g with flNext := next x, flPrev := prev x } }

theorem relink_tag {cache next prev : ℕ → Option ℕ} (h : v.tag x = some g) :
    (v.relink cache next prev).tag x = some { g with flNext := next x, flPrev := prev x } := by
  simp [Vmem.relink, h]

theorem relink_links (v : Vmem σ) (cache : ℕ → Option ℕ) :
    v.relink cache (via Bt.flNext v.tag) (via Bt.flPrev v.tag) = { v with freeCache := cache } := by
  have : (fun x => (v.tag x).map fun g => { g with
      flNext := via Bt.flNext v.tag x, flPrev := via Bt.flPrev v.tag x }) = v.tag := by
    funext x
    cases h : v.tag x with
    | none => rfl
    | some g => simp [via, h]
  unfold Vmem.relink
  rw [this]

theorem via_relink {cache next prev : ℕ → Option ℕ} (h : v.tag x = some g) :
    via Bt.flNext (v.relink cache next prev).tag x = next x ∧
    via Bt.flPrev (v.relink cache next prev).tag x = prev x :=
  ⟨via_of (relink_tag h), via_of (relink_tag h)⟩

section Steps
variable {cache next prev : ℕ → Option ℕ}

theorem setTag_relink (h : v.tag x = some g) (a b : Option ℕ) :
    (v.relink cache next prev).setTag (some x) (fun g => { g with flNext := a, flPrev := b }) =
      .ok (v.relink cache (Function.update next x a) (Function.update prev x b)) := by
  rw [Vmem.setTag, modify_some (relink_tag h), ok_bind]
  have : Function.update (v.relink cache next prev).tag x
      (some { g with flNext := a, flPrev := b }) =
      (v.relink cache (Function.update next x a) (Function.update prev x b)).tag := by
    funext y
    by_cases hy : y = x
    · subst hy
      simp [Vmem.relink, h]
    · simp [Vmem.relink, hy]
  exact congrArg (fun tag => Except.ok { v.relink cache next prev with tag := tag }) this

theorem setTag_relink_flNext (h : v.tag x = some g) (a : Option ℕ) :
    (v.relink cache next prev).setTag (some x) (fun g => { g with flNext := a }) =
      .ok (v.relink cache (Function.update next x a) prev) := by
  have := @setTag_relink σ v x g cache next prev h a (prev x)
  rw [Function.update_eq_self] at this
  rw [← this, Vmem.setTag, modify_some (relink_tag h), Vmem.setTag, modify_some (relink_tag h)]

theorem setTag_relink_flPrev (h : v.tag x = some g) (b : Option ℕ) :
    (v.relink cache next prev).setTag (some x) (fun g => { g with flPrev := b }) =
      .ok (v.relink cache next (Function.update prev x b)) := by
  have := @setTag_relink σ v x g cache next prev h (next x) b
  rw [Function.update_eq_self] at this
  rw [← this, Vmem.setTag, modify_some (relink_tag h), Vmem.setTag, modify_some (relink_tag h)]

theorem setTagIf_relink_flNext (cache next prev : ℕ → Option ℕ) {p : Option ℕ}
    (hp : ∀ x, p = some x → ∃ g, v.tag x = some g)
    (a : Option ℕ) :
    ∃ next', (v.relink cache next prev).setTagIf p (fun g => { g with flNext := a }) =
        .ok (v.relink cache next' prev) ∧ ∀ y, next' y = if p = some y then a else next y := by
  cases p with
  | none => exact ⟨next, rfl, fun _ => rfl⟩
  | some x =>
    obtain ⟨g, hg⟩ := hp x rfl
    refine ⟨_, setTag_relink_flNext hg a, fun y => ?_⟩
    simp [Function.update_apply, eq_comm]

theorem setTagIf_relink_flPrev (cache next prev : ℕ → Option ℕ) {p : Option ℕ}
    (hp : ∀ x, p = some x → ∃ g, v.tag x = some g)
    (b : Option ℕ) :
    ∃ prev', (v.relink cache next prev).setTagIf p (fun g => { g with flPrev := b }) =
        .ok (v.relink cache next prev') ∧ ∀ y, prev' y = if p = some y then b else prev y := by
  cases p with
  | none => exact ⟨prev, rfl, fun _ => rfl⟩
  | some x =>
    obtain ⟨g, hg⟩ := hp x rfl
    refine ⟨_, setTag_relink_flPrev hg b, fun y => ?_⟩
    simp [Function.update_apply, eq_comm]

end Steps

structure FreeChains (v : Vmem σ) (fl : ℕ → List ℕ) : Prop where
  first : ∀ c < v.cacheBits, v.freeCache c = (fl c).head?
  outside : ∀ c, v.cacheBits ≤ c → fl c = []
  linked : ∀ c, Linked (via Bt.flNext v.tag) (via Bt.flPrev v.tag) none (fl c) none
  nodup : ∀ c, (fl c).Nodup
  apart : ∀ c d t, t ∈ fl c → t ∈ fl d → c = d
  alive : ∀ c, ∀ t ∈ fl c, ∃ g, v.tag t = some g
  loose : ∀ t g, v.tag t = some g → (∀ c, t ∉ fl c) → g.flNext = none ∧ g.flPrev = none

namespace FreeChains

theorem lt_cacheBits (h : FreeChains v fl) (ht : t ∈ fl c) : c < v.cacheBits := by
  by_contra hc
  rw [h.outside c (by omega)] at ht
  exact List.not_mem_nil ht

/-- The tag is taken out of its list and both its links are reset. -/
theorem remFreelist_eq (h : FreeChains v fl) (hg : v.tag t = some g)
    (hc : cacheNum v g.size = .ok (some c)) (ht : t ∈ fl c) :
    ∃ cache next prev, remFreelist v t = .ok (v.relink cache next prev) ∧
      FreeChains (v.relink cache next prev) (Function.update fl c ((fl c).erase t)) := by
  have hlt := h.lt_cacheBits ht
  obtain ⟨xs, ys, hfl⟩ := List.append_of_mem ht
  have hlinked := hfl ▸ h.linked c
  have hnd := hfl ▸ h.nodup c
  have hnot : t ∉ xs ++ ys := fun hm => by
    rw [List.perm_middle.nodup_iff] at hnd
    exact (List.nodup_cons.mp hnd).1 hm
  have herase : (fl c).erase t = xs ++ ys := by
    rw [hfl, List.erase_append_right _ fun hx => hnot (List.mem_append_left _ hx),
      List.erase_cons_head]
  obtain ⟨hprev, hnext⟩ := hlinked.at_mid
  rw [via_of hg, Option.or_none] at hprev hnext
  have halive : ∀ x ∈ xs ++ ys, ∃ g, v.tag x = some g := fun x hx => h.alive c x (by
    rw [hfl]
    simp only [List.mem_append, List.mem_cons] at hx ⊢
    tauto)
  have hskip : skipFirst v c t g.flNext = .ok (v.relink
      (Function.update v.freeCache c (xs ++ ys).head?) (via Bt.flNext v.tag)
      (via Bt.flPrev v.tag)) := by
    have hfirst := h.first c hlt
    rw [relink_links, skipFirst, Vmem.readCache, if_pos hlt, ok_bind]
    cases xs with
    | nil =>
      rw [if_pos (by rw [hfirst, hfl]; rfl), Vmem.writeCache, if_pos hlt, hnext]
      rfl
    | cons x xs =>
      have hxt : x ≠ t := fun e => hnot (by simp [e])
      have hsame : Function.update v.freeCache c (x :: xs ++ ys).head? = v.freeCache := by
        rw [Function.update_eq_self_iff, hfirst, hfl]
        rfl
      rw [if_neg (by rw [hfirst, hfl]; simpa using hxt), hsame]
  obtain ⟨next, hsetn, hn⟩ := setTagIf_relink_flNext (v := v)
    (Function.update v.freeCache c (xs ++ ys).head?) (via Bt.flNext v.tag)
    (via Bt.flPrev v.tag) (p := g.flPrev) (fun x hx => halive x (by
      rw [hprev] at hx
      exact List.mem_append_left _ (List.mem_of_getLast? hx))) g.flNext
  obtain ⟨prev, hsetp, hp⟩ := setTagIf_relink_flPrev (v := v)
    (Function.update v.freeCache c (xs ++ ys).head?) next
    (via Bt.flPrev v.tag) (p := g.flNext) (fun x hx => halive x (by
      rw [hnext] at hx
      exact List.mem_append_right _ (List.mem_of_mem_head? hx))) g.flPrev
  have hn' : ∀ y, y ≠ t → ∀ g, v.tag y = some g → via Bt.flNext (v.relink
      (Function.update v.freeCache c (xs ++ ys).head?) (Function.update next t none)
      (Function.update prev t none)).tag y =
        if xs.getLast? = some y then ys.head?.or none else via Bt.flNext v.tag y := by
    intro y hyt g' hy
    rw [(via_relink hy).1, Function.update_of_ne hyt, hn, hprev, hnext, Option.or_none]
  have hp' : ∀ y, y ≠ t → ∀ g, v.tag y = some g → via Bt.flPrev (v.relink
      (Function.update v.freeCache c (xs ++ ys).head?) (Function.update next t none)
      (Function.update prev t none)).tag y =
        if ys.head? = some y then xs.getLast?.or none else via Bt.flPrev v.tag y := by
    intro y hyt g' hy
    rw [(via_relink hy).2, Function.update_of_ne hyt, hp, hprev, hnext, Option.or_none]
  have hmem : ∀ d y, y ∈ Function.update fl c ((fl c).erase t) d ↔ y ∈ fl d ∧ y ≠ t := by
    intro d y
    by_cases hd : d = c
    · subst hd
      rw [Function.update_self, (h.nodup d).mem_erase_iff, and_comm]
    · rw [Function.update_of_ne hd]
      exact ⟨fun hy => ⟨hy, fun e => hd (h.apart d c y hy (e ▸ ht))⟩, And.left⟩
  refine ⟨Function.update v.freeCache c (xs ++ ys).head?, Function.update next t none,
    Function.update prev t none, ?_, ?_⟩
  · rw [remFreelist, load_some hg, ok_bind, hc, ok_bind]
    dsimp only
    rw [hskip, ok_bind, hsetn, ok_bind, hsetp, ok_bind]
    exact setTag_relink hg none none
  · refine ⟨fun d hd => ?_, fun d hd => ?_, fun d => ?_, fun d => ?_, fun d d' y hy hy' => ?_,
      fun d y hy => ?_, fun y g' hy hout => ?_⟩
    · by_cases hdc : d = c
      · subst hdc
        rw [Function.update_self, herase]
        exact Function.update_self ..
      · rw [Function.update_of_ne hdc, ← h.first d hd]
        exact Function.update_of_ne hdc _ _
    · have hdc : d ≠ c := fun e => absurd hd (by rw [e]; exact not_le.mpr hlt)
      rw [Function.update_of_ne hdc]
      exact h.outside d hd
    · by_cases hdc : d = c
      · subst hdc
        rw [Function.update_self, herase]
        refine hlinked.unlink hnd (fun y hy => ?_) fun y hy => ?_
        · obtain ⟨g', hg'⟩ := halive y hy
          exact hn' y (fun e => hnot (e ▸ hy)) g' hg'
        · obtain ⟨g', hg'⟩ := halive y hy
          exact hp' y (fun e => hnot (e ▸ hy)) g' hg'
      · rw [Function.update_of_ne hdc]
        have hne : ∀ y ∈ fl d, y ∉ fl c := fun y hy hy' => hdc (h.apart d c y hy hy')
        refine (h.linked d).congr (fun y hy => ?_) fun y hy => ?_
        · obtain ⟨g', hg'⟩ := h.alive d y hy
          rw [hn' y (fun e => hne y hy (e ▸ ht)) g' hg', if_neg]
          exact fun hl => hne y hy (by simp [hfl, List.mem_of_getLast? hl])
        · obtain ⟨g', hg'⟩ := h.alive d y hy
          rw [hp' y (fun e => hne y hy (e ▸ ht)) g' hg', if_neg]
          exact fun hl => hne y hy (by simp [hfl, List.mem_of_mem_head? hl])
    · by_cases hdc : d = c
      · subst hdc
        rw [Function.update_self]
        exact (h.nodup d).erase t
      · rw [Function.update_of_ne hdc]
        exact h.nodup d
    · exact h.apart d d' y ((hmem d y).mp hy).1 ((hmem d' y).mp hy').1
    · obtain ⟨g', hg'⟩ := h.alive d y ((hmem d y).mp hy).1
      exact ⟨_, relink_tag hg'⟩
    · obtain ⟨g₀, hg₀, rfl⟩ := Option.map_eq_some_iff.mp hy
      by_cases hyt : y = t
      · subst hyt
        exact ⟨Function.update_self .., Function.update_self ..⟩
      · have hyfl : ∀ d, y ∉ fl d := fun d hyd => hout d ((hmem d y).mpr ⟨hyd, hyt⟩)
        obtain ⟨hln, hlp⟩ := h.loose y g₀ hg₀ hyfl
        have hn := hn' y hyt g₀ hg₀
        have hp := hp' y hyt g₀ hg₀
        rw [if_neg fun hl : xs.getLast? = some y =>
          hyfl c (by simp [hfl, List.mem_of_getLast? hl]), via_of hg₀, hln, via_of hy] at hn
        rw [if_neg fun hl : ys.head? = some y =>
          hyfl c (by simp [hfl, List.mem_of_mem_head? hl]), via_of hg₀, hlp, via_of hy] at hp
        exact ⟨hn, hp⟩

/-- The tag becomes the first of the list of its class. -/
theorem addFreelist_eq (h : FreeChains v fl) (hg : v.tag t = some g)
    (hc : cacheNum v g.size = .ok (some c)) (hlt : c < v.cacheBits) (ht : ∀ d, t ∉ fl d) :
    ∃ cache next prev, addFreelist v t = .ok (v.relink cache next prev) ∧
      FreeChains (v.relink cache next prev) (Function.update fl c (t :: fl c)) := by
  obtain ⟨hln, hlp⟩ := h.loose t g hg ht
  have hbit : highbit (g.size / v.quantum) = .ok c := by
    obtain ⟨pos, hpos, hc⟩ := bind_eq_ok.mp hc
    rw [hpos]
    split_ifs at hc <;> simp_all
  have hself := relink_links v v.freeCache
  obtain ⟨prev, hsetp, hp⟩ := setTagIf_relink_flPrev (v := v) v.freeCache
    (via Bt.flNext v.tag) (via Bt.flPrev v.tag) (p := (fl c).head?)
    (fun x hx => h.alive c x (List.mem_of_mem_head? hx)) (some t)
  rw [hself] at hsetp
  have hsett := @setTag_relink σ v t g v.freeCache (via Bt.flNext v.tag) prev hg (fl c).head? none
  refine ⟨Function.update v.freeCache c (some t),
    Function.update (via Bt.flNext v.tag) t (fl c).head?, Function.update prev t none, ?_, ?_⟩
  · rw [addFreelist, load_some hg, ok_bind, hbit, ok_bind, assert_of hln, ok_bind, assert_of hlp,
      ok_bind, Vmem.readCache, if_pos hlt, ok_bind, h.first c hlt, hsetp, ok_bind]
    exact bind_eq_ok.mpr ⟨_, hsett, if_pos hlt⟩
  · have hne : ∀ d, ∀ y ∈ fl d, y ≠ t := fun d y hy e => ht d (e ▸ hy)
    have hn' : ∀ d, ∀ y ∈ fl d, via Bt.flNext (v.relink (Function.update v.freeCache c (some t))
        (Function.update (via Bt.flNext v.tag) t (fl c).head?)
        (Function.update prev t none)).tag y =
        via Bt.flNext v.tag y := by
      intro d y hy
      obtain ⟨g', hg'⟩ := h.alive d y hy
      rw [(via_relink hg').1, Function.update_of_ne (hne d y hy)]
    have hp' : ∀ d, ∀ y ∈ fl d, via Bt.flPrev (v.relink (Function.update v.freeCache c (some t))
        (Function.update (via Bt.flNext v.tag) t (fl c).head?)
        (Function.update prev t none)).tag y =
        if (fl c).head? = some y then some t else via Bt.flPrev v.tag y := by
      intro d y hy
      obtain ⟨g', hg'⟩ := h.alive d y hy
      rw [(via_relink hg').2, Function.update_of_ne (hne d y hy), hp]
    have hmem : ∀ d y, y ∈ Function.update fl c (t :: fl c) d ↔ (y = t ∧ d = c) ∨ y ∈ fl d := by
      intro d y
      by_cases hd : d = c
      · subst hd
        simp
      · simp [hd]
    refine ⟨fun d hd => ?_, fun d hd => ?_, fun d => ?_, fun d => ?_, fun d d' y hy hy' => ?_,
      fun d y hy => ?_, fun y g' hy hout => ?_⟩
    · by_cases hdc : d = c
      · subst hdc
        rw [Function.update_self]
        exact Function.update_self ..
      · rw [Function.update_of_ne hdc, ← h.first d hd]
        exact Function.update_of_ne hdc _ _
    · have hdc : d ≠ c := fun e => absurd hd (by rw [e]; exact not_le.mpr hlt)
      rw [Function.update_of_ne hdc]
      exact h.outside d hd
    · by_cases hdc : d = c
      · subst hdc
        rw [Function.update_self]
        have hlinked : Linked _ _ none ([] ++ fl d) none := h.linked d
        refine hlinked.link (h.nodup d) ?_ ?_ (fun y hy => hn' d y hy) fun y hy => hp' d y hy
        · rw [(via_relink hg).1, Function.update_self, Option.or_none]
        · rw [(via_relink hg).2, Function.update_self]
          rfl
      · rw [Function.update_of_ne hdc]
        refine (h.linked d).congr (hn' d) fun y hy => ?_
        rw [hp' d y hy, if_neg]
        exact fun hl => hdc (h.apart d c y hy (List.mem_of_mem_head? hl))
    · by_cases hdc : d = c
      · subst hdc
        rw [Function.update_self]
        exact List.nodup_cons.mpr ⟨ht d, h.nodup d⟩
      · rw [Function.update_of_ne hdc]
        exact h.nodup d
    · rw [hmem] at hy hy'
      rcases hy with ⟨rfl, rfl⟩ | hy <;> rcases hy' with ⟨hyt, rfl⟩ | hy'
      · rfl
      · exact absurd hy' (ht d')
      · exact absurd rfl (hyt ▸ hne d y hy)
      · exact h.apart d d' y hy hy'
    · rcases (hmem d y).mp hy with ⟨rfl, -⟩ | hy
      · exact ⟨_, relink_tag hg⟩
      · obtain ⟨g', hg'⟩ := h.alive d y hy
        exact ⟨_, relink_tag hg'⟩
    · obtain ⟨g₀, hg₀, rfl⟩ := Option.map_eq_some_iff.mp hy
      have hyt : y ≠ t := fun e => hout c ((hmem c y).mpr (.inl ⟨e, rfl⟩))
      have hyfl : ∀ d, y ∉ fl d := fun d hyd => hout d ((hmem d y).mpr (.inr hyd))
      obtain ⟨hln, hlp⟩ := h.loose y g₀ hg₀ hyfl
      have hhead : ¬ (fl c).head? = some y := fun hl => hyfl c (List.mem_of_mem_head? hl)
      exact ⟨(Function.update_of_ne hyt _ _).trans ((via_of hg₀).trans hln),
        (Function.update_of_ne hyt _ _).trans ((hp y).trans ((if_neg hhead).trans
          ((via_of hg₀).trans hlp)))⟩

/-- The chains survive what leaves their links alone. -/
theorem transfer {w : Vmem σ} (h : FreeChains v fl) (hcache : w.freeCache = v.freeCache)
    (hbits : w.cacheBits = v.cacheBits)
    (hin : ∀ c, ∀ t ∈ fl c, ∀ g, v.tag t = some g →
      ∃ g', w.tag t = some g' ∧ g'.flNext = g.flNext ∧ g'.flPrev = g.flPrev)
    (hout : ∀ t g', w.tag t = some g' → (∀ c, t ∉ fl c) → g'.flNext = none ∧ g'.flPrev = none) :
    FreeChains w fl where
  first c hc := by rw [hcache, h.first c (hbits ▸ hc)]
  outside c hc := h.outside c (hbits ▸ hc)
  linked c := by
    refine (h.linked c).congr (fun t ht => ?_) fun t ht => ?_
    · obtain ⟨g, hg⟩ := h.alive c t ht
      obtain ⟨g', hg', hn, -⟩ := hin c t ht g hg
      rw [via_of hg', via_of hg, hn]
    · obtain ⟨g, hg⟩ := h.alive c t ht
      obtain ⟨g', hg', -, hp⟩ := hin c t ht g hg
      rw [via_of hg', via_of hg, hp]
  nodup := h.nodup
  apart := h.apart
  alive c t ht := by
    obtain ⟨g, hg⟩ := h.alive c t ht
    obtain ⟨g', hg', -⟩ := hin c t ht g hg
    exact ⟨g', hg'⟩
  loose := hout

end FreeChains

/-- The size class of a range. -/
def classOf (quantum size : ℕ) : ℕ := Nat.log2 (size / quantum)

theorem cacheNum_eq {size : ℕ} (hq : size / v.quantum ≠ 0) : cacheNum v size =
    .ok (if v.cacheBits ≤ classOf v.quantum size then none else some (classOf v.quantum size)) := by
  rw [cacheNum, highbit, assert_of hq]
  rfl

theorem uncache_eq (h : FreeChains v fl) (hg : v.tag t = some g) (hq : g.size / v.quantum ≠ 0)
    (ht : ∀ c, t ∈ fl c ↔ c < v.cacheBits ∧ classOf v.quantum g.size = c) :
    ∃ cache next prev fl', uncache v t = .ok (v.relink cache next prev) ∧
      FreeChains (v.relink cache next prev) fl' ∧ ∀ c x, x ∈ fl' c ↔ x ∈ fl c ∧ x ≠ t := by
  have hc := cacheNum_eq (v := v) hq
  by_cases hlt : classOf v.quantum g.size < v.cacheBits
  · rw [if_neg (by omega)] at hc
    have hmem := (ht _).mpr ⟨hlt, rfl⟩
    obtain ⟨cache, next, prev, hr, h'⟩ := h.remFreelist_eq hg hc hmem
    refine ⟨cache, next, prev, _, ?_, h', fun c x => ?_⟩
    · rw [uncache, load_some hg, ok_bind, hc, ok_bind]
      exact hr
    · by_cases hcc : c = classOf v.quantum g.size
      · rw [hcc, Function.update_self, (h.nodup _).mem_erase_iff, and_comm]
      · rw [Function.update_of_ne hcc]
        exact ⟨fun hx => ⟨hx, fun e => hcc ((ht c).mp (e ▸ hx)).2.symm⟩, And.left⟩
  · rw [if_pos (by omega)] at hc
    refine ⟨v.freeCache, _, _, fl, ?_, by rwa [relink_links], fun c x =>
      ⟨fun hx => ⟨hx, fun e => hlt ?_⟩, And.left⟩⟩
    · rw [uncache, load_some hg, ok_bind, hc, ok_bind, relink_links]
    · obtain ⟨hlt, rfl⟩ := (ht c).mp (e ▸ hx)
      exact hlt

theorem encache_eq (h : FreeChains v fl) (hg : v.tag t = some g) (hq : g.size / v.quantum ≠ 0)
    (ht : ∀ c, t ∉ fl c) :
    ∃ cache next prev fl', encache v t = .ok (v.relink cache next prev) ∧
      FreeChains (v.relink cache next prev) fl' ∧ ∀ c x, x ∈ fl' c ↔
        x ∈ fl c ∨ (x = t ∧ c < v.cacheBits ∧ classOf v.quantum g.size = c) := by
  have hc := cacheNum_eq (v := v) hq
  by_cases hlt : classOf v.quantum g.size < v.cacheBits
  · rw [if_neg (by omega)] at hc
    obtain ⟨cache, next, prev, hr, h'⟩ := h.addFreelist_eq hg hc hlt ht
    refine ⟨cache, next, prev, _, ?_, h', fun c x => ?_⟩
    · rw [encache, load_some hg, ok_bind, hc, ok_bind]
      exact hr
    · by_cases hcc : c = classOf v.quantum g.size
      · subst hcc
        rw [Function.update_self, List.mem_cons, or_comm]
        simp [hlt]
      · rw [Function.update_of_ne hcc]
        exact ⟨.inl, fun hx => hx.resolve_right fun hx => hcc hx.2.2.symm⟩
  · rw [if_pos (by omega)] at hc
    refine ⟨v.freeCache, _, _, fl, ?_, by rwa [relink_links], fun c x =>
      ⟨.inl, fun hx => hx.resolve_right fun hx => hlt ?_⟩⟩
    · rw [encache, load_some hg, ok_bind, hc, ok_bind, relink_links]
    · obtain ⟨-, hlt, rfl⟩ := hx
      exact hlt

end Racoon.Arenas
