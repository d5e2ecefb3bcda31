import Racoon.Ds.Family
import Racoon.Lib.DoublyLinked

/-!
# Forests of threads

The pointers of `ds/family.h` make a forest of what they tie together: each node is
in one chain of siblings, that of the children of its parent or that of the nodes
without one. The functions take a node out of its chain or put it into one, and
`family_adopt` turns the chain of the children round as it joins it to another.
-/

namespace Racoon.Families
open Lib

/-- Each node that is there is changed as `edit` says. -/
def Edited (h h' : Kin) (edit : ℕ → Ties → Ties) : Prop := ∀ y, h' y = (h y).map (edit y)

section Edits
variable {h h' h'' : Kin} {e e' : ℕ → Ties → Ties} {f : Ties → Ties} {p : Option ℕ} {x y : ℕ}
  {v : Ties} {field : Ties → Option ℕ}

theorem Edited.trans (he : Edited h h' e) (he' : Edited h' h'' e') :
    Edited h h'' fun y v => e' y (e y v) := by
  intro y
  rw [he' y, he y, Option.map_map]
  rfl

theorem Edited.at (he : Edited h h' e) (hv : h y = some v) : h' y = some (e y v) := by
  rw [he y, hv, Option.map_some]

theorem Edited.via (he : Edited h h' e) (hv : h y = some v) :
    Lib.via field h' y = field (e y v) := via_of (he.at hv)

theorem Edited.via_eq (he : Edited h h' e) (hf : ∀ y v, field (e y v) = field v) :
    Lib.via field h' = Lib.via field h := by
  funext y
  rw [Lib.via, Lib.via, he y]
  cases h y with
  | none => rfl
  | some v => exact hf y v

theorem load_eq_ok : load h (some x) = .ok v ↔ h x = some v := deref_eq_ok

theorem modify_edited (hok : modify h (some x) f = .ok h') :
    (∃ v, h x = some v) ∧ Edited h h' fun y v => if y = x then f v else v := by
  obtain ⟨_, hx, hok⟩ := bind_eq_ok.mp hok
  cases hx
  obtain ⟨v, hv, hok⟩ := bind_eq_ok.mp hok
  have hv := deref_eq_ok.mp hv
  cases hok
  refine ⟨⟨v, hv⟩, fun y => ?_⟩
  dsimp only
  by_cases hy : y = x
  · rw [hy, Function.update_self, hv, Option.map_some, if_pos rfl]
  · simp [hy]

theorem modifyIf_edited (hok : modifyIf h p f = .ok h') :
    Edited h h' fun y v => if p = some y then f v else v := by
  cases p with
  | none =>
    cases hok
    intro y
    simp
  | some x =>
    intro y
    rw [(modify_edited hok).2 y]
    by_cases hy : y = x
    · simp [hy]
    · simp [hy, Ne.symm hy]

end Edits

/-- What `family_remove` does to a node `y`. -/
def removal (fam : ℕ) (x : Ties) (y : ℕ) (v : Ties) : Ties where
  parent := if y = fam then none else v.parent
  child := if x.parent = some y then
    if v.child = some fam then x.siblingNext else v.child else v.child
  siblingPrev := if y = fam then none else
    if x.siblingNext = some y then x.siblingPrev else v.siblingPrev
  siblingNext := if y = fam then none else
    if x.siblingPrev = some y then x.siblingNext else v.siblingNext
  prev := v.prev
  next := v.next

section Removal
variable {fam y : ℕ} (x v : Ties)

theorem removal_parent (hne : y ≠ fam) : (removal fam x y v).parent = v.parent := if_neg hne

theorem removal_siblingPrev (hne : y ≠ fam) : (removal fam x y v).siblingPrev =
    if x.siblingNext = some y then x.siblingPrev else v.siblingPrev := if_neg hne

theorem removal_siblingNext (hne : y ≠ fam) : (removal fam x y v).siblingNext =
    if x.siblingPrev = some y then x.siblingNext else v.siblingNext := if_neg hne

end Removal

theorem familyRemove_edited {h h' : Kin} {fam : ℕ} (hok : familyRemove h fam = .ok h') :
    ∃ x, h fam = some x ∧ Edited h h' (removal fam x) := by
  obtain ⟨x, hx, hok⟩ := bind_eq_ok.mp hok
  obtain ⟨h₁, h₁ok, hok⟩ := bind_eq_ok.mp hok
  obtain ⟨h₂, h₂ok, hok⟩ := bind_eq_ok.mp hok
  obtain ⟨h₃, h₃ok, hok⟩ := bind_eq_ok.mp hok
  refine ⟨x, load_eq_ok.mp hx, fun y => ?_⟩
  rw [(((modifyIf_edited h₁ok).trans (modifyIf_edited h₂ok)).trans
    (modifyIf_edited h₃ok)).trans (modify_edited hok).2 y]
  congr 1
  funext v
  dsimp only [removal]
  split_ifs <;> rfl

/-- What `family_add_sibling` does to a node `y`. -/
def siblingAddition (bro fam : ℕ) (b : Ties) (y : ℕ) (v : Ties) : Ties where
  parent := if y = fam then b.parent else v.parent
  child := v.child
  siblingPrev := if y = fam then some bro else
    if b.siblingNext = some y then some fam else v.siblingPrev
  siblingNext := if y = bro then some fam else if y = fam then b.siblingNext else v.siblingNext
  prev := v.prev
  next := v.next

theorem familyAddSibling_edited {h h' : Kin} {bro fam : ℕ}
    (hok : familyAddSibling h bro fam = .ok h') :
    ∃ b, h bro = some b ∧ Edited h h' (siblingAddition bro fam b) := by
  obtain ⟨b, hb, hok⟩ := bind_eq_ok.mp hok
  obtain ⟨h₁, h₁ok, hok⟩ := bind_eq_ok.mp hok
  obtain ⟨h₂, h₂ok, hok⟩ := bind_eq_ok.mp hok
  obtain ⟨h₃, h₃ok, hok⟩ := bind_eq_ok.mp hok
  refine ⟨b, load_eq_ok.mp hb, fun y => ?_⟩
  rw [(((modifyIf_edited h₁ok).trans (modify_edited h₂ok).2).trans
    (modify_edited h₃ok).2).trans (modify_edited hok).2 y]
  congr 1
  funext v
  dsimp only [siblingAddition]
  split_ifs <;> rfl

/-- What `family_add_child` does to a node `y`. -/
def childAddition (parent fam : ℕ) (p : Ties) (y : ℕ) (v : Ties) : Ties where
  parent := if y = fam then some parent else v.parent
  child := if y = parent then some fam else v.child
  siblingPrev := if p.child = some y then some fam else v.siblingPrev
  siblingNext := if y = fam then p.child.or v.siblingNext else v.siblingNext
  prev := v.prev
  next := v.next

theorem familyAddChild_edited {h h' : Kin} {parent fam : ℕ}
    (hok : familyAddChild h parent fam = .ok h') :
    ∃ p, h parent = some p ∧ Edited h h' (childAddition parent fam p) := by
  obtain ⟨p, hp, hok⟩ := bind_eq_ok.mp hok
  obtain ⟨h₂, h₂ok, hok⟩ := bind_eq_ok.mp hok
  obtain ⟨h₃, h₃ok, hok⟩ := bind_eq_ok.mp hok
  refine ⟨p, load_eq_ok.mp hp, fun y => ?_⟩
  have hlast := (modify_edited h₃ok).2.trans (modify_edited hok).2
  cases hc : p.child with
  | none =>
    rw [hc] at h₂ok
    cases h₂ok
    rw [hlast y]
    congr 1
    funext v
    simp only [childAddition, hc]
    split_ifs <;> simp_all
  | some c =>
    rw [hc] at h₂ok
    obtain ⟨h₁, h₁ok, h₂ok⟩ := bind_eq_ok.mp h₂ok
    rw [((modify_edited h₁ok).2.trans (modify_edited h₂ok).2).trans hlast y]
    congr 1
    funext v
    simp only [childAddition, hc, Option.some.injEq, Option.some_or, eq_comm (a := c)]
    split_ifs <;> rfl

/-- The nodes of `M`, but for `out`, which is in no chain, are tied together as `kids` says: those
without a parent are `kids none`. No node is older than its parent. -/
structure Forest (h : Kin) (M : Set ℕ) (out : Option ℕ) (kids : Option ℕ → List ℕ) (age : ℕ → ℕ) :
    Prop where
  present : ∀ x ∈ M, ∃ v, h x = some v
  mem : ∀ q x, x ∈ kids q → x ∈ M ∧ out ≠ some x ∧ via Ties.parent h x = q
  own : ∀ x ∈ M, out ≠ some x → x ∈ kids (via Ties.parent h x)
  nodup : ∀ q, (kids q).Nodup
  linked : ∀ q, Linked (via Ties.siblingNext h) (via Ties.siblingPrev h) none (kids q) none
  child : ∀ x ∈ M, via Ties.child h x = (kids (some x)).head?
  older : ∀ p x, x ∈ kids (some p) → p ∈ M ∧ age p < age x

namespace Forest
variable {h h' : Kin} {M : Set ℕ} {kids : Option ℕ → List ℕ} {age : ℕ → ℕ} {fam bro p x y : ℕ}
  {q : Option ℕ} {xs ys : List ℕ} {out : Option ℕ}

/-- Siblings have one parent. -/
theorem apart {q q' : Option ℕ} (hF : Forest h M out kids age) (hx : x ∈ kids q)
    (hy : x ∈ kids q') :
    q = q' := (hF.mem q x hx).2.2.symm.trans (hF.mem q' x hy).2.2

/-- A node is taken out of the chain it is in. -/
theorem remove (hF : Forest h M none kids age) (hq : kids q = xs ++ fam :: ys)
    (hok : familyRemove h fam = .ok h') :
    Forest h' M (some fam) (Function.update kids q (xs ++ ys)) age := by
  obtain ⟨v, hv, he⟩ := familyRemove_edited hok
  have hfam : fam ∈ kids q := hq ▸ List.mem_append_right xs List.mem_cons_self
  have hparent : v.parent = q := (via_of hv).symm.trans (hF.mem q fam hfam).2.2
  have hlinked := hF.linked q
  have hnodup := hF.nodup q
  rw [hq] at hlinked hnodup
  obtain ⟨hprev, hnext⟩ := hlinked.at_mid
  rw [via_of hv, Option.or_none] at hprev hnext
  have hsub : ∀ x ∈ xs ++ ys, x ∈ kids q ∧ x ≠ fam := by
    intro x hx
    rw [hq]
    have hsplit := List.nodup_middle.mp hnodup
    refine ⟨?_, fun hxf => (List.nodup_cons.mp hsplit).1 (hxf ▸ hx)⟩
    rcases List.mem_append.mp hx with hx | hx
    · exact List.mem_append_left _ hx
    · exact List.mem_append_right _ (List.mem_cons_of_mem _ hx)
  have hmem : ∀ q' x, x ∈ Function.update kids q (xs ++ ys) q' → x ∈ kids q' ∧ x ≠ fam := by
    intro q' x hx
    by_cases hqq : q' = q
    · rw [hqq, Function.update_self] at hx
      exact hqq ▸ hsub x hx
    · rw [Function.update_of_ne hqq] at hx
      refine ⟨hx, fun hxf => hqq ?_⟩
      exact hF.apart (hxf ▸ hx) hfam
  refine ⟨fun x hx => ?_, fun q' x hx => ?_, fun x hx hne => ?_, fun q' => ?_, fun q' => ?_,
    fun x hx => ?_, fun p x hx => hF.older p x (hmem _ x hx).1⟩
  · obtain ⟨w, hw⟩ := hF.present x hx
    exact ⟨_, he.at hw⟩
  · obtain ⟨hk, hne⟩ := hmem q' x hx
    obtain ⟨hM, -, hp⟩ := hF.mem q' x hk
    obtain ⟨w, hw⟩ := hF.present x hM
    refine ⟨hM, fun h => hne (Option.some.inj h).symm, ?_⟩
    rw [he.via hw, removal_parent _ _ hne, ← hp, via_of hw]
  · have hne : x ≠ fam := fun h => hne (h ▸ rfl)
    obtain ⟨w, hw⟩ := hF.present x hx
    have hk := hF.own x hx nofun
    rw [he.via hw, removal_parent _ _ hne]
    rw [via_of hw] at hk
    by_cases hqq : w.parent = q
    · rw [hqq, Function.update_self]
      rw [hqq, hq] at hk
      rcases List.mem_append.mp hk with hk | hk
      · exact List.mem_append_left _ hk
      · exact List.mem_append_right _ ((List.mem_cons.mp hk).resolve_left hne)
    · rwa [Function.update_of_ne hqq]
  · by_cases hqq : q' = q
    · rw [hqq, Function.update_self]
      exact hnodup.sublist ((List.Sublist.refl xs).append (List.sublist_cons_self fam ys))
    · rw [Function.update_of_ne hqq]
      exact hF.nodup q'
  · by_cases hqq : q' = q
    · rw [hqq, Function.update_self]
      refine hlinked.unlink hnodup (fun y hy => ?_) fun y hy => ?_
      · obtain ⟨hk, hne⟩ := hsub y hy
        obtain ⟨w, hw⟩ := hF.present y (hF.mem q y hk).1
        rw [he.via hw, via_of hw, removal_siblingNext _ _ hne, hprev, hnext, Option.or_none]
      · obtain ⟨hk, hne⟩ := hsub y hy
        obtain ⟨w, hw⟩ := hF.present y (hF.mem q y hk).1
        rw [he.via hw, via_of hw, removal_siblingPrev _ _ hne, hprev, hnext, Option.or_none]
    · rw [Function.update_of_ne hqq]
      have hout : ∀ y ∈ kids q', y ∉ kids q := fun y hy hy' => hqq (hF.apart hy hy')
      have hne : ∀ y ∈ kids q', y ≠ fam := fun y hy hyf => hout y hy (hyf ▸ hfam)
      refine (hF.linked q').congr (fun y hy => ?_) fun y hy => ?_
      · obtain ⟨w, hw⟩ := hF.present y (hF.mem q' y hy).1
        rw [he.via hw, via_of hw, removal_siblingNext _ _ (hne y hy), if_neg]
        intro hl
        rw [hprev] at hl
        exact hout y hy (hsub y (List.mem_append_left _ (List.mem_of_getLast? hl))).1
      · obtain ⟨w, hw⟩ := hF.present y (hF.mem q' y hy).1
        rw [he.via hw, via_of hw, removal_siblingPrev _ _ (hne y hy), if_neg]
        intro hl
        rw [hnext] at hl
        exact hout y hy (hsub y (List.mem_append_right _ (List.mem_of_mem_head? hl))).1
  · obtain ⟨w, hw⟩ := hF.present x hx
    have hchild := hF.child x hx
    rw [via_of hw] at hchild
    rw [he.via hw]
    simp only [removal, hparent, hchild, hnext]
    by_cases hqx : q = some x
    · rw [if_pos hqx, ← hqx, Function.update_self, hq]
      cases xs with
      | nil => simp
      | cons a xs =>
        have hne : a ≠ fam := (hsub a (by simp)).2
        simp [hne]
    · rw [if_neg hqx, Function.update_of_ne (Ne.symm hqx)]

/-- A node is put between the siblings `xs` and `ys`. -/
structure Put (h h' : Kin) (M : Set ℕ) (fam : ℕ) (q : Option ℕ) (xs ys : List ℕ) : Prop where
  present : ∀ x v, h x = some v → ∃ w, h' x = some w
  parent : ∀ x ∈ M, via Ties.parent h' x = if x = fam then q else via Ties.parent h x
  child : ∀ x ∈ M, via Ties.child h' x =
    if q = some x then (xs ++ fam :: ys).head? else via Ties.child h x
  prev : ∀ x ∈ M, via Ties.siblingPrev h' x = if x = fam then xs.getLast? else
    if ys.head? = some x then some fam else via Ties.siblingPrev h x
  next : ∀ x ∈ M, via Ties.siblingNext h' x = if x = fam then ys.head? else
    if xs.getLast? = some x then some fam else via Ties.siblingNext h x

theorem put (hF : Forest h M (some fam) kids age) (hfam : fam ∈ M) (hq : kids q = xs ++ ys)
    (hage : ∀ p, q = some p → p ∈ M ∧ age p < age fam) (hput : Put h h' M fam q xs ys) :
    Forest h' M none (Function.update kids q (xs ++ fam :: ys)) age := by
  have hold : ∀ {q' x}, x ∈ kids q' → x ∈ M ∧ x ≠ fam := fun hx =>
    ⟨(hF.mem _ _ hx).1, fun h => (hF.mem _ _ hx).2.1 (h ▸ rfl)⟩
  have hmem : ∀ q' x, x ∈ Function.update kids q (xs ++ fam :: ys) q' ↔
      x ∈ kids q' ∨ (x = fam ∧ q' = q) := by
    intro q' x
    by_cases hqq : q' = q
    · rw [hqq, Function.update_self, hq]
      simp only [List.mem_append, List.mem_cons, and_true]
      tauto
    · simp [hqq]
  have hlinked := hF.linked q
  have hnodup := hF.nodup q
  rw [hq] at hlinked hnodup
  refine ⟨fun x hx => ?_, fun q' x hx => ?_, fun x hx _ => ?_, fun q' => ?_, fun q' => ?_,
    fun x hx => ?_, fun p x hx => ?_⟩
  · obtain ⟨v, hv⟩ := hF.present x hx
    exact hput.present x v hv
  · rcases (hmem q' x).mp hx with hk | ⟨rfl, rfl⟩
    · obtain ⟨hM, hne⟩ := hold hk
      refine ⟨hM, nofun, ?_⟩
      rw [hput.parent x hM, if_neg hne]
      exact (hF.mem q' x hk).2.2
    · exact ⟨hfam, nofun, by rw [hput.parent x hfam, if_pos rfl]⟩
  · rw [hput.parent x hx, hmem]
    by_cases hxf : x = fam
    · exact .inr ⟨hxf, if_pos hxf⟩
    · rw [if_neg hxf]
      exact .inl (hF.own x hx fun h => hxf (Option.some.inj h).symm)
  · by_cases hqq : q' = q
    · rw [hqq, Function.update_self, List.nodup_middle, List.nodup_cons]
      exact ⟨fun hx => (hold (hq ▸ hx)).2 rfl, hnodup⟩
    · rw [Function.update_of_ne hqq]
      exact hF.nodup q'
  · by_cases hqq : q' = q
    · rw [hqq, Function.update_self]
      refine hlinked.link hnodup ?_ ?_ (fun y hy => ?_) fun y hy => ?_
      · rw [hput.next fam hfam, if_pos rfl, Option.or_none]
      · rw [hput.prev fam hfam, if_pos rfl, Option.or_none]
      · obtain ⟨hM, hne⟩ := hold (hq ▸ hy)
        rw [hput.next y hM, if_neg hne]
      · obtain ⟨hM, hne⟩ := hold (hq ▸ hy)
        rw [hput.prev y hM, if_neg hne]
    · rw [Function.update_of_ne hqq]
      refine (hF.linked q').congr (fun y hy => ?_) fun y hy => ?_
      · obtain ⟨hM, hne⟩ := hold hy
        rw [hput.next y hM, if_neg hne, if_neg]
        intro hl
        refine hqq (hF.apart hy (hq ▸ List.mem_append_left _ (List.mem_of_getLast? hl)))
      · obtain ⟨hM, hne⟩ := hold hy
        rw [hput.prev y hM, if_neg hne, if_neg]
        intro hl
        refine hqq (hF.apart hy (hq ▸ List.mem_append_right _ (List.mem_of_mem_head? hl)))
  · rw [hput.child x hx]
    by_cases hqx : q = some x
    · rw [if_pos hqx, ← hqx, Function.update_self]
    · rw [if_neg hqx, Function.update_of_ne (Ne.symm hqx)]
      exact hF.child x hx
  · rcases (hmem _ x).mp hx with hk | ⟨rfl, hqp⟩
    · exact hF.older p x hk
    · exact hage p hqp.symm

theorem addSibling (hF : Forest h M (some fam) kids age) (hfam : fam ∈ M)
    (hq : kids q = xs ++ bro :: ys) (hage : ∀ p, q = some p → age p < age fam)
    (hok : familyAddSibling h bro fam = .ok h') :
    Forest h' M none (Function.update kids q (xs ++ bro :: fam :: ys)) age := by
  obtain ⟨b, hb, he⟩ := familyAddSibling_edited hok
  have hbro : bro ∈ kids q := hq ▸ List.mem_append_right xs List.mem_cons_self
  obtain ⟨-, hout, hparent⟩ := hF.mem q bro hbro
  have hne : bro ≠ fam := fun h => hout (h ▸ rfl)
  have hlinked := hF.linked q
  rw [hq] at hlinked
  have hnext := hlinked.at_mid.2
  rw [via_of hb] at hparent
  rw [via_of hb, Option.or_none] at hnext
  have hsplit : xs ++ bro :: fam :: ys = (xs ++ [bro]) ++ fam :: ys := by simp
  rw [hsplit]
  refine hF.put hfam (by rw [hq]; simp) (fun p hp => ⟨?_, hage p hp⟩) ⟨fun x v hv => ⟨_, he.at hv⟩,
    fun x hx => ?_, fun x hx => ?_, fun x hx => ?_, fun x hx => ?_⟩
  · exact (hF.older p bro (hp ▸ hbro)).1
  all_goals
    obtain ⟨w, hw⟩ := hF.present x hx
    rw [he.via hw, via_of hw]
  · rw [siblingAddition, hparent]
  · have hchild := hF.child x hx
    rw [via_of hw] at hchild
    simp only [siblingAddition, hchild]
    by_cases hqx : q = some x
    · rw [if_pos hqx, ← hqx, hq]
      cases xs <;> rfl
    · rw [if_neg hqx]
  · simp [siblingAddition, hnext]
  · simp only [siblingAddition, hnext, List.getLast?_append, List.getLast?_singleton,
      Option.some_or, Option.some.injEq]
    by_cases hxb : x = bro
    · simp [hxb, hne]
    · simp [hxb, Ne.symm hxb]

theorem addChild (hF : Forest h M (some fam) kids age) (hfam : fam ∈ M)
    (hfresh : h fam = some untied)
    (hp : p ∈ M) (hage : age p < age fam) (hok : familyAddChild h p fam = .ok h') :
    Forest h' M none (Function.update kids (some p) (fam :: kids (some p))) age := by
  obtain ⟨b, hb, he⟩ := familyAddChild_edited hok
  have hchild := hF.child p hp
  rw [via_of hb] at hchild
  have hhead : (kids (some p)).head? ≠ some fam := fun hh =>
    (hF.mem _ fam (List.mem_of_mem_head? hh)).2.1 rfl
  refine hF.put hfam (List.nil_append _).symm (fun p' hp' => ?_) ⟨fun x v hv => ⟨_, he.at hv⟩,
    fun x hx => ?_, fun x hx => ?_, fun x hx => ?_, fun x hx => ?_⟩
  · cases hp'
    exact ⟨hp, hage⟩
  all_goals
    obtain ⟨w, hw⟩ := hF.present x hx
    rw [he.via hw, via_of hw]
  · rfl
  · by_cases hxp : x = p
    · simp [childAddition, hxp]
    · simp [childAddition, hxp, Ne.symm hxp]
  · simp only [childAddition, hchild]
    by_cases hxf : x = fam
    · rw [hxf, if_neg hhead, if_pos rfl]
      rw [hxf, hfresh] at hw
      cases hw
      rfl
    · rw [if_neg hxf]
  · simp only [childAddition, hchild]
    by_cases hxf : x = fam
    · rw [if_pos hxf, if_pos hxf]
      rw [hxf, hfresh] at hw
      cases hw
      exact Option.or_none
    · simp [hxf]

end Forest

end Racoon.Families
