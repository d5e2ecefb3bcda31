import Racoon.Ds.Forests

/-!
# Deaths in a forest

When a node goes, its children go to its parent, or among the nodes without a parent
if it had none, where they stand behind it. Either way they are then in the reverse
of their order.
-/

namespace Racoon.Families
open Lib

/-- What a round of `family_adopt` does to a node `y`; `first` is the first child so far. -/
def adoption (stepParent tmp : ℕ) (first : Option ℕ) (y : ℕ) (v : Ties) : Ties where
  parent := if y = tmp then some stepParent else v.parent
  child := if y = stepParent then some tmp else v.child
  siblingPrev := if first = some y then some tmp else if y = tmp then none else v.siblingPrev
  siblingNext := if y = tmp then first else v.siblingNext
  prev := v.prev
  next := v.next

/-- The children `moved` are in front of the others of their new parent, in the reverse order. -/
structure Adopted (h h' : Kin) (stepParent : ℕ) (moved others : List ℕ) (e : ℕ → Ties → Ties) :
    Prop where
  edited : Edited h h' e
  linked : Linked (via Ties.siblingNext h') (via Ties.siblingPrev h') none (moved.reverse ++ others)
    none
  first : via Ties.child h' stepParent = (moved.reverse ++ others).head?
  parent : ∀ y v, (e y v).parent = if y ∈ moved then some stepParent else v.parent
  child : ∀ y v, y ≠ stepParent → (e y v).child = v.child
  siblings : ∀ y v, y ∉ moved → y ∉ others →
    (e y v).siblingPrev = v.siblingPrev ∧ (e y v).siblingNext = v.siblingNext
  list : ∀ y v, (e y v).prev = v.prev ∧ (e y v).next = v.next

/-- The linear list is untouched. -/
def SameList (h h' : Kin) : Prop :=
  via Ties.next h' = via Ties.next h ∧ via Ties.prev h' = via Ties.prev h

theorem SameList.trans {h h' h'' : Kin} (h₁ : SameList h h') (h₂ : SameList h' h'') :
    SameList h h'' := ⟨h₂.1.trans h₁.1, h₂.2.trans h₁.2⟩

theorem SameList.of_edited {h h' : Kin} {e : ℕ → Ties → Ties} (he : Edited h h' e)
    (hn : ∀ y v, (e y v).next = v.next) (hp : ∀ y v, (e y v).prev = v.prev) : SameList h h' :=
  ⟨he.via_eq hn, he.via_eq hp⟩

theorem familyRemove_sameList {h h' : Kin} {fam : ℕ} (hok : familyRemove h fam = .ok h') :
    SameList h h' := by
  obtain ⟨x, -, he⟩ := familyRemove_edited hok
  exact .of_edited he (fun _ _ => rfl) fun _ _ => rfl

theorem familyAddSibling_sameList {h h' : Kin} {bro fam : ℕ}
    (hok : familyAddSibling h bro fam = .ok h') : SameList h h' := by
  obtain ⟨b, -, he⟩ := familyAddSibling_edited hok
  exact .of_edited he (fun _ _ => rfl) fun _ _ => rfl

theorem familyAddChild_sameList {h h' : Kin} {parent fam : ℕ}
    (hok : familyAddChild h parent fam = .ok h') : SameList h h' := by
  obtain ⟨p, -, he⟩ := familyAddChild_edited hok
  exact .of_edited he (fun _ _ => rfl) fun _ _ => rfl

section Adoption
variable {h h' h₁ : Kin} {stepParent tmp left y : ℕ} {moved others : List ℕ} {a : Option ℕ}
  {v : Ties}

theorem adoptFrom_succ (hok : adoptFrom stepParent (left + 1) h (some tmp) = .ok h') :
    ∃ x s h₁, h tmp = some x ∧ h stepParent = some s ∧
      Edited h h₁ (adoption stepParent tmp s.child) ∧
      adoptFrom stepParent left h₁ x.siblingNext = .ok h' := by
  obtain ⟨x, hx, hok⟩ := bind_eq_ok.mp hok
  obtain ⟨s, hs, hok⟩ := bind_eq_ok.mp hok
  obtain ⟨h₁, h₁ok, hok⟩ := bind_eq_ok.mp hok
  obtain ⟨h₂, h₂ok, hok⟩ := bind_eq_ok.mp hok
  obtain ⟨h₃, h₃ok, hok⟩ := bind_eq_ok.mp hok
  refine ⟨x, s, h₃, load_eq_ok.mp hx, load_eq_ok.mp hs, fun y => ?_, hok⟩
  rw [((modify_edited h₁ok).2.trans (modifyIf_edited h₂ok)).trans (modify_edited h₃ok).2 y]
  congr 1
  funext v
  dsimp only [adoption]
  split_ifs <;> rfl

section Round
variable (he : Edited h h₁ (adoption stepParent tmp others.head?))
  (hpresent : ∀ x ∈ moved ++ others, ∃ v, h x = some v) (htmp : tmp ∉ moved ++ others)
include he hpresent htmp

/-- A round leaves alone the children that are left. -/
theorem linked_moved (hdisjoint : ∀ x ∈ moved, x ∉ others)
    (hmoved : Linked (via Ties.siblingNext h) (via Ties.siblingPrev h) a moved none) :
    Linked (via Ties.siblingNext h₁) (via Ties.siblingPrev h₁) a moved none := by
  refine hmoved.congr (fun y hy => ?_) fun y hy => ?_
  all_goals
    have hy' := List.mem_append_left others hy
    have hne : y ≠ tmp := fun h => htmp (h ▸ hy')
    obtain ⟨v, hv⟩ := hpresent y hy'
    rw [he.via hv, via_of hv]
  · exact if_neg hne
  · have hhead : others.head? ≠ some y := fun h => hdisjoint y hy (List.mem_of_mem_head? h)
    exact (if_neg hhead).trans (if_neg hne)

/-- The node of the round is put before the others. -/
theorem linked_others {x : Ties} (hx : h tmp = some x) (hnodup : others.Nodup)
    (hothers : Linked (via Ties.siblingNext h) (via Ties.siblingPrev h) none others none) :
    Linked (via Ties.siblingNext h₁) (via Ties.siblingPrev h₁) none (tmp :: others) none := by
  have hhead : others.head? ≠ some tmp := fun h =>
    htmp (List.mem_append_right _ (List.mem_of_mem_head? h))
  refine (show Linked _ _ none ([] ++ others) none from hothers).link hnodup ?_ ?_
    (fun y hy => ?_) fun y hy => ?_
  · rw [he.via hx, Option.or_none]
    exact if_pos rfl
  · rw [he.via hx]
    exact (if_neg hhead).trans (if_pos rfl)
  all_goals
    have hy' := List.mem_append_right moved hy
    have hne : y ≠ tmp := fun h => htmp (h ▸ hy')
    obtain ⟨v, hv⟩ := hpresent y hy'
    rw [he.via hv, via_of hv]
  · exact if_neg hne
  · simp only [adoption, if_neg hne]

end Round

/-- By induction on the children that are left. -/
theorem adoptFrom_adopted (hok : adoptFrom stepParent left h moved.head? = .ok h')
    (hmoved : Linked (via Ties.siblingNext h) (via Ties.siblingPrev h) a moved none)
    (hothers : Linked (via Ties.siblingNext h) (via Ties.siblingPrev h) none others none)
    (hnodup : (moved ++ others).Nodup) (hpresent : ∀ x ∈ moved ++ others, ∃ v, h x = some v)
    (hfirst : via Ties.child h stepParent = others.head?) :
    ∃ e, Adopted h h' stepParent moved others e := by
  induction moved generalizing left h others a with
  | nil =>
    have hsame : h' = h := by cases left <;> cases hok <;> rfl
    subst hsame
    exact ⟨fun _ v => v, fun y => Option.map_id'.symm, hothers, hfirst, fun _ _ => rfl,
      fun _ _ _ => rfl, fun _ _ _ _ => ⟨rfl, rfl⟩, fun _ _ => ⟨rfl, rfl⟩⟩
  | cons tmp moved ih =>
    cases left with
    | zero => cases hok
    | succ left =>
      obtain ⟨x, s, h₁, hx, hs, he, hok⟩ := adoptFrom_succ hok
      rw [via_of hs] at hfirst
      rw [hfirst] at he
      obtain ⟨-, hnext, hrest⟩ := hmoved
      rw [via_of hx, Option.or_none] at hnext
      rw [hnext] at hok
      rw [List.cons_append] at hnodup hpresent
      obtain ⟨htmp, hnodup'⟩ := List.nodup_cons.mp hnodup
      have hrest' : ∀ y ∈ moved ++ others, ∃ v, h y = some v := fun y hy =>
        hpresent y (List.mem_cons_of_mem tmp hy)
      have hdisjoint : ∀ y ∈ moved, y ∉ others := fun y hy hy' =>
        (List.nodup_append.mp hnodup').2.2 y hy y hy' rfl
      have hmoved := linked_moved he hrest' htmp hdisjoint hrest
      have hothers := linked_others he hrest' htmp hx (List.nodup_append.mp hnodup').2.1 hothers
      have hpresent' : ∀ y ∈ moved ++ tmp :: others, ∃ v, h₁ y = some v := by
        intro y hy
        obtain ⟨v, hv⟩ := hpresent y (by simpa [or_left_comm] using hy)
        exact ⟨_, he.at hv⟩
      obtain ⟨e, hadopted⟩ := ih hok hmoved hothers
        (List.nodup_middle.mpr (List.nodup_cons.mpr ⟨htmp, hnodup'⟩)) hpresent'
        ((he.via hs).trans (if_pos rfl))
      refine ⟨_, he.trans hadopted.edited, ?_, ?_, fun y v => ?_, fun y v hne => ?_,
        fun y v hm ho => ?_, fun y v => hadopted.list y _⟩
      · simpa using hadopted.linked
      · simpa using hadopted.first
      · rw [hadopted.parent]
        by_cases hy : y ∈ moved
        · rw [if_pos hy, if_pos (List.mem_cons_of_mem tmp hy)]
        · simp [adoption, hy]
      · rw [hadopted.child y _ hne]
        exact if_neg hne
      · obtain ⟨hne, hm⟩ := not_or.mp (mt List.mem_cons.mpr hm)
        obtain ⟨hp, hn⟩ := hadopted.siblings y (adoption stepParent tmp others.head? y v) hm
          (mt List.mem_cons.mp (not_or.mpr ⟨hne, ho⟩))
        have hhead : others.head? ≠ some y := fun h => ho (List.mem_of_mem_head? h)
        exact ⟨hp.trans ((if_neg hhead).trans (if_neg hne)), hn.trans (if_neg hne)⟩

end Adoption

namespace Forest
variable {h h' : Kin} {M : Set ℕ} {kids : Option ℕ → List ℕ} {age : ℕ → ℕ} {d p fam left : ℕ}
  {out : Option ℕ}

/-- The children of `d` become those of its parent. -/
theorem adopt (hF : Forest h M none kids age) (hd : d ∈ kids (some p))
    (hok : familyAdopt left h p d = .ok h') :
    Forest h' M none (Function.update (Function.update kids (some d) []) (some p)
      ((kids (some d)).reverse ++ kids (some p))) age ∧ SameList h h' := by
  obtain ⟨hdM, -, hparent⟩ := hF.mem _ _ hd
  obtain ⟨hpM, hage⟩ := hF.older p d hd
  have hpd : some p ≠ some d := fun h => absurd (congrArg age (Option.some.inj h)) hage.ne
  obtain ⟨v, hv, hok⟩ := bind_eq_ok.mp hok
  obtain ⟨h₁, h₁ok, hok⟩ := bind_eq_ok.mp hok
  have hchild := hF.child d hdM
  have hv : h d = some v := load_eq_ok.mp hv
  rw [via_of hv] at hchild
  rw [hchild] at h₁ok
  have hdisjoint : ∀ x ∈ kids (some d), x ∉ kids (some p) := fun x hx hx' =>
    hpd (hF.apart hx' hx)
  have hpresent : ∀ x ∈ kids (some d) ++ kids (some p), ∃ v, h x = some v := fun x hx =>
    hF.present x ((List.mem_append.mp hx).elim (fun hx => (hF.mem _ x hx).1)
      fun hx => (hF.mem _ x hx).1)
  obtain ⟨e, hadopted⟩ := adoptFrom_adopted h₁ok (hF.linked _) (hF.linked _)
    (List.nodup_append.mpr ⟨hF.nodup _, hF.nodup _, fun x hx y hy hxy => hdisjoint x hx (hxy ▸ hy)⟩)
    hpresent (hF.child p hpM)
  have hlast := (modify_edited hok).2
  have he := hadopted.edited.trans (modify_edited hok).2
  have hmem : ∀ q x, x ∈ Function.update (Function.update kids (some d) []) (some p)
      ((kids (some d)).reverse ++ kids (some p)) q ↔
      (q = some p ∧ x ∈ kids (some d)) ∨ (q ≠ some d ∧ x ∈ kids q) := by
    intro q x
    by_cases hqp : q = some p
    · rw [hqp, Function.update_self, List.mem_append, List.mem_reverse]
      simp [hpd]
    · rw [Function.update_of_ne hqp]
      by_cases hqd : q = some d
      · simp [hqd, Ne.symm hpd]
      · simp [hqp, hqd]
  have hsiblings : ∀ field : Ties → Option ℕ,
      (∀ v : Ties, field { v with child := none } = field v) →
      ∀ x v, h x = some v → via field h' x = field (e x v) := by
    intro field hfield x v hv
    rw [he.via hv]
    by_cases hxd : x = d
    · rw [if_pos hxd, hfield]
    · rw [if_neg hxd]
  have hsame : ∀ field : Ties → Option ℕ, (∀ v : Ties, field { v with child := none } = field v) →
      via field h' = via field h₁ := by
    intro field hfield
    refine (modify_edited hok).2.via_eq fun y v => ?_
    by_cases hy : y = d
    · rw [if_pos hy, hfield]
    · rw [if_neg hy]
  have hlist : SameList h h' := by
    rw [SameList, hsame _ fun _ => rfl, hsame _ fun _ => rfl]
    exact ⟨hadopted.edited.via_eq fun y v => (hadopted.list y v).2,
      hadopted.edited.via_eq fun y v => (hadopted.list y v).1⟩
  refine ⟨⟨fun x hx => ?_, fun q x hx => ?_, fun x hx _ => ?_, fun q => ?_, fun q => ?_,
    fun x hx => ?_, fun q x hx => ?_⟩, hlist⟩
  · obtain ⟨v, hv⟩ := hF.present x hx
    exact ⟨_, he.at hv⟩
  · rcases (hmem q x).mp hx with ⟨hq, hx⟩ | ⟨hq, hx⟩
    · obtain ⟨hM, -, -⟩ := hF.mem _ x hx
      obtain ⟨v, hv⟩ := hF.present x hM
      refine ⟨hM, nofun, ?_⟩
      rw [hsiblings _ (fun _ => rfl) x v hv, hadopted.parent, if_pos hx, hq]
    · obtain ⟨hM, -, hpar⟩ := hF.mem _ x hx
      obtain ⟨v, hv⟩ := hF.present x hM
      refine ⟨hM, nofun, ?_⟩
      rw [hsiblings _ (fun _ => rfl) x v hv, hadopted.parent,
        if_neg fun hxd => hq (hF.apart hx hxd), ← hpar, via_of hv]
  · obtain ⟨v, hv⟩ := hF.present x hx
    have hown := hF.own x hx nofun
    rw [hsiblings _ (fun _ => rfl) x v hv, hadopted.parent, hmem]
    rw [via_of hv] at hown
    by_cases hxd : x ∈ kids (some d)
    · exact .inl ⟨if_pos hxd, hxd⟩
    · rw [if_neg hxd]
      exact .inr ⟨fun hvd => hxd (hvd ▸ hown), hown⟩
  · by_cases hqp : q = some p
    · rw [hqp, Function.update_self]
      refine List.nodup_append.mpr ⟨List.nodup_reverse.mpr (hF.nodup _), hF.nodup _, ?_⟩
      intro x hx y hy hxy
      exact hdisjoint x (List.mem_reverse.mp hx) (hxy ▸ hy)
    · rw [Function.update_of_ne hqp]
      by_cases hqd : q = some d
      · rw [hqd, Function.update_self]
        exact List.nodup_nil
      · rw [Function.update_of_ne hqd]
        exact hF.nodup q
  · rw [hsame _ fun _ => rfl, hsame _ fun _ => rfl]
    by_cases hqp : q = some p
    · rw [hqp, Function.update_self]
      exact hadopted.linked
    · rw [Function.update_of_ne hqp]
      by_cases hqd : q = some d
      · rw [hqd, Function.update_self]
        trivial
      · rw [Function.update_of_ne hqd]
        refine (hF.linked q).congr (fun y hy => ?_) fun y hy => ?_
        all_goals
          obtain ⟨v, hv⟩ := hF.present y (hF.mem q y hy).1
          rw [hadopted.edited.via hv, via_of hv]
        · exact (hadopted.siblings y v (fun hyd => hqd (hF.apart hy hyd))
            fun hyp => hqp (hF.apart hy hyp)).2
        · exact (hadopted.siblings y v (fun hyd => hqd (hF.apart hy hyd))
            fun hyp => hqp (hF.apart hy hyp)).1
  · obtain ⟨v, hv⟩ := hF.present x hx
    by_cases hxd : x = d
    · rw [he.via hv, if_pos hxd, hxd, Function.update_of_ne (Ne.symm hpd), Function.update_self]
      rfl
    · by_cases hxp : x = p
      · have hchild := hadopted.first
        rw [← hxp, hadopted.edited.via hv] at hchild
        rw [he.via hv, if_neg hxd, hchild, hxp, Function.update_self]
      · have hchild := hF.child x hx
        rw [via_of hv] at hchild
        rw [he.via hv, if_neg hxd, hadopted.child x v hxp, hchild,
          Function.update_of_ne fun h => hxp (Option.some.inj h),
          Function.update_of_ne fun h => hxd (Option.some.inj h)]
  · rcases (hmem _ x).mp hx with ⟨hq, hxd⟩ | ⟨-, hxq⟩
    · cases hq
      exact ⟨hpM, hage.trans (hF.older d x hxd).2⟩
    · exact hF.older q x hxq

/-- Only the tree and not the list is looked at. -/
theorem congr (hF : Forest h M out kids age) (hp : ∀ x v, h x = some v → ∃ w, h' x = some w)
    (h₁ : via Ties.parent h' = via Ties.parent h) (h₂ : via Ties.child h' = via Ties.child h)
    (h₃ : via Ties.siblingPrev h' = via Ties.siblingPrev h)
    (h₄ : via Ties.siblingNext h' = via Ties.siblingNext h) : Forest h' M out kids age := by
  refine ⟨fun x hx => ?_, ?_, ?_, hF.nodup, ?_, ?_, hF.older⟩
  · obtain ⟨v, hv⟩ := hF.present x hx
    exact hp x v hv
  · rw [h₁]
    exact hF.mem
  · rw [h₁]
    exact hF.own
  · rw [h₃, h₄]
    exact hF.linked
  · rw [h₂]
    exact hF.child

theorem of_edited {e : ℕ → Ties → Ties} (hF : Forest h M out kids age) (he : Edited h h' e)
    (h₁ : ∀ y v, (e y v).parent = v.parent) (h₂ : ∀ y v, (e y v).child = v.child)
    (h₃ : ∀ y v, (e y v).siblingPrev = v.siblingPrev)
    (h₄ : ∀ y v, (e y v).siblingNext = v.siblingNext) : Forest h' M out kids age :=
  hF.congr (fun _ _ hv => ⟨_, he.at hv⟩) (he.via_eq h₁) (he.via_eq h₂) (he.via_eq h₃) (he.via_eq h₄)

/-- A new node, in no chain yet. -/
theorem enter (hF : Forest h M none kids age) (hfam : fam ∉ M) (n : ℕ) :
    Forest (Function.update h fam (some untied)) (insert fam M) (some fam) kids
      (Function.update age fam n) := by
  have hne : ∀ {x}, x ∈ M → x ≠ fam := fun hx h => hfam (h ▸ hx)
  have hvia : ∀ (field : Ties → Option ℕ) {x}, x ∈ M →
      via field (Function.update h fam (some untied)) x = via field h x := by
    intro field x hx
    rw [via_update, if_neg (hne hx)]
  refine ⟨fun x hx => ?_, fun q x hx => ?_, fun x hx hout => ?_, hF.nodup, fun q => ?_,
    fun x hx => ?_, fun p x hx => ?_⟩
  · rcases hx with rfl | hx
    · exact ⟨untied, Function.update_self ..⟩
    · rw [Function.update_of_ne (hne hx)]
      exact hF.present x hx
  · obtain ⟨hM, -, hparent⟩ := hF.mem q x hx
    exact ⟨.inr hM, fun h => hne hM (Option.some.inj h).symm, (hvia _ hM).trans hparent⟩
  · have hM := hx.resolve_left fun h => hout (h ▸ rfl)
    rw [hvia _ hM]
    exact hF.own x hM nofun
  · exact (hF.linked q).congr (fun y hy => hvia _ (hF.mem q y hy).1)
      fun y hy => hvia _ (hF.mem q y hy).1
  · rcases hx with rfl | hx
    · rw [via_of (Function.update_self ..)]
      cases hk : kids (some x) with
      | nil => rfl
      | cons y ys => exact absurd (hF.older x y (hk ▸ List.mem_cons_self)).1 hfam
    · rw [hvia _ hx]
      exact hF.child x hx
  · obtain ⟨hp, hage⟩ := hF.older p x hx
    rw [Function.update_of_ne (hne hp), Function.update_of_ne (hne (hF.mem _ x hx).1)]
    exact ⟨.inr hp, hage⟩

/-- A node that is in no chain and has no children is freed. -/
theorem leave (hF : Forest h M (some fam) kids age) (hkids : kids (some fam) = []) :
    Forest (Function.update h fam none) (M \ {fam}) none kids age := by
  have hvia : ∀ (field : Ties → Option ℕ) {x}, x ≠ fam →
      via field (Function.update h fam none) x = via field h x := by
    intro field x hx
    rw [via, via, Function.update_of_ne hx]
  have hold : ∀ {q x}, x ∈ kids q → x ≠ fam := fun hx h => (hF.mem _ _ hx).2.1 (h ▸ rfl)
  refine ⟨fun x hx => ?_, fun q x hx => ?_, fun x hx hout => ?_, hF.nodup, fun q => ?_,
    fun x hx => ?_, fun p x hx => ?_⟩
  · rw [Function.update_of_ne hx.2]
    exact hF.present x hx.1
  · obtain ⟨hM, -, hparent⟩ := hF.mem q x hx
    exact ⟨⟨hM, hold hx⟩, by simp, (hvia _ (hold hx)).trans hparent⟩
  · rw [hvia _ hx.2]
    exact hF.own x hx.1 fun h => hx.2 (Option.some.inj h).symm
  · exact (hF.linked q).congr (fun y hy => hvia _ (hold hy)) fun y hy => hvia _ (hold hy)
  · rw [hvia _ hx.2]
    exact hF.child x hx.1
  · obtain ⟨hp, hage⟩ := hF.older p x hx
    refine ⟨⟨hp, fun h => ?_⟩, hage⟩
    rw [h, hkids] at hx
    cases hx

end Forest

/-! ### The linear list -/

section List
variable {h h' : Kin} {M : Set ℕ} {kids : Option ℕ → List ℕ} {age : ℕ → ℕ} {out : Option ℕ}
  {l position : ℕ} {xs ys : List ℕ}

/-- The nodes are one list. -/
def Listed (h : Kin) (l : List ℕ) : Prop :=
  l.Nodup ∧ Linked (via Ties.next h) (via Ties.prev h) none l none

theorem Listed.congr {l : List ℕ} (hl : Listed h l) (hs : SameList h h') : Listed h' l := by
  rw [Listed, hs.1, hs.2]
  exact hl

theorem listRemove_edited (hok : listRemove h l = .ok h') : ∃ x, h l = some x ∧
    Edited h h' fun y v => { v with
      prev := if y = l then none else if x.next = some y then x.prev else v.prev
      next := if y = l then none else if x.prev = some y then x.next else v.next } := by
  obtain ⟨x, hx, hok⟩ := bind_eq_ok.mp hok
  obtain ⟨h₁, h₁ok, hok⟩ := bind_eq_ok.mp hok
  obtain ⟨h₂, h₂ok, hok⟩ := bind_eq_ok.mp hok
  refine ⟨x, load_eq_ok.mp hx, fun y => ?_⟩
  rw [((modifyIf_edited h₁ok).trans (modifyIf_edited h₂ok)).trans (modify_edited hok).2 y]
  congr 1
  funext v
  dsimp only
  split_ifs <;> rfl

theorem listInsertAfter_edited (hok : listInsertAfter h position l = .ok h') :
    ∃ p, h position = some p ∧ Edited h h' fun y v => { v with
      prev := if p.next = some y then some l else if y = l then some position else v.prev
      next := if y = position then some l else if y = l then p.next else v.next } := by
  obtain ⟨p, hp, hok⟩ := bind_eq_ok.mp hok
  obtain ⟨h₁, h₁ok, hok⟩ := bind_eq_ok.mp hok
  obtain ⟨h₂, h₂ok, hok⟩ := bind_eq_ok.mp hok
  refine ⟨p, load_eq_ok.mp hp, fun y => ?_⟩
  rw [((modify_edited h₁ok).2.trans (modify_edited h₂ok).2).trans (modifyIf_edited hok) y]
  congr 1
  funext v
  dsimp only
  split_ifs <;> rfl

theorem Listed.remove (hl : Listed h (xs ++ l :: ys))
    (hpresent : ∀ x ∈ xs ++ ys, ∃ v, h x = some v) (hok : listRemove h l = .ok h') :
    Listed h' (xs ++ ys) := by
  obtain ⟨hnodup, hlinked⟩ := hl
  obtain ⟨v, hv, he⟩ := listRemove_edited hok
  obtain ⟨hprev, hnext⟩ := hlinked.at_mid
  rw [via_of hv, Option.or_none] at hprev hnext
  obtain ⟨hl', hnodup'⟩ := List.nodup_cons.mp (List.nodup_middle.mp hnodup)
  refine ⟨hnodup', hlinked.unlink hnodup (fun y hy => ?_) fun y hy => ?_⟩
  all_goals
    obtain ⟨w, hw⟩ := hpresent y hy
    have hne : y ≠ l := fun h => hl' (h ▸ hy)
    rw [he.via hw, via_of hw]
    simp only [if_neg hne, hprev, hnext, Option.or_none]

theorem Listed.insertAfter (hl : Listed h (xs ++ position :: ys)) (hnew : l ∉ xs ++ position :: ys)
    (hpresent : ∀ x ∈ xs ++ position :: ys, ∃ v, h x = some v) {w : Ties} (hw : h l = some w)
    (hok : listInsertAfter h position l = .ok h') : Listed h' (xs ++ position :: l :: ys) := by
  obtain ⟨hnodup, hlinked⟩ := hl
  obtain ⟨p, hp, he⟩ := listInsertAfter_edited hok
  have hnext := hlinked.at_mid.2
  rw [via_of hp, Option.or_none] at hnext
  have hhead : ys.head? ≠ some l := fun h => hnew (List.mem_append_right _
    (List.mem_cons_of_mem _ (List.mem_of_mem_head? h)))
  have hne : position ≠ l := fun h => hnew (h ▸ List.mem_append_right _ List.mem_cons_self)
  have hsplit : xs ++ position :: l :: ys = (xs ++ [position]) ++ l :: ys := by simp
  have hsplit' : xs ++ position :: ys = (xs ++ [position]) ++ ys := by simp
  rw [hsplit'] at hnodup hlinked hpresent hnew
  rw [hsplit]
  refine ⟨List.nodup_middle.mpr (List.nodup_cons.mpr ⟨hnew, hnodup⟩),
    hlinked.link hnodup ?_ ?_ (fun y hy => ?_) fun y hy => ?_⟩
  · rw [he.via hw]
    simp [hne.symm, hnext]
  · rw [he.via hw]
    simp [hnext, hhead]
  all_goals
    obtain ⟨v, hv⟩ := hpresent y hy
    have hyl : y ≠ l := fun h => hnew (h ▸ hy)
    rw [he.via hv, via_of hv]
  · by_cases hyp : y = position
    · simp [hyp]
    · simp [hyp, Ne.symm hyp, hyl]
  · simp [hnext, hyl]

end List

end Racoon.Families
