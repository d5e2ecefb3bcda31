import Racoon.Ds.Adoption
import Racoon.Lib.SiblingTree

/-!
# The pointers of a family tree

The functions of `ds/family.h` as the edits of `Lib/SiblingTree.lean`, in trees whose nodes without
a parent are chained in any way. A round of `family_adopt` is a removal and an addition, but for
two pointers that no later round looks at: the first child of the dead parent, and the sibling
before the child that comes next.
-/

namespace Racoon.Families
open Lib

/-- The four pointers of the nodes. -/
def links (h : Kin) : Links ℕ where
  parent := via Ties.parent h
  child := via Ties.child h
  prev := via Ties.siblingPrev h
  next := via Ties.siblingNext h

def nodes (h : Kin) : Set ℕ := {x | (h x).isSome}

def WellFormed (h : Kin) : Prop := (links h).WellFormed (nodes h)

section Nodes
variable {h h' : Kin} {e : ℕ → Ties → Ties} {f : Ties → Ties} {field : Ties → Option ℕ}
  {p : Option ℕ} {x y : ℕ}

theorem mem_nodes : x ∈ nodes h ↔ ∃ v, h x = some v := Option.isSome_iff_exists

theorem mem_nodes_of_via (hx : via field h x = some y) : x ∈ nodes h := by
  obtain ⟨v, hv, -⟩ := Option.bind_eq_some_iff.mp hx
  exact mem_nodes.mpr ⟨v, hv⟩

theorem Edited.nodes_eq (he : Edited h h' e) : nodes h' = nodes h := by
  ext y
  unfold nodes
  rw [Set.mem_ofPred_eq, Set.mem_ofPred_eq, he y, Option.isSome_map]

theorem via_of_notMem (hx : x ∉ nodes h) : via field h x = none := by
  cases hv : via field h x with
  | none => rfl
  | some y => exact absurd (mem_nodes_of_via hv) hx

/-- The pointers after an edit, node by node. -/
theorem Edited.links_eq {t : Links ℕ} (he : Edited h h' e)
    (hpresent : ∀ y v, h y = some v → (e y v).parent = t.parent y ∧ (e y v).child = t.child y ∧
      (e y v).siblingPrev = t.prev y ∧ (e y v).siblingNext = t.next y)
    (habsent : ∀ y ∉ nodes h,
      t.parent y = none ∧ t.child y = none ∧ t.prev y = none ∧ t.next y = none) :
    links h' = t := by
  ext1 <;> funext y
  all_goals
    by_cases hy : y ∈ nodes h
    · obtain ⟨v, hv⟩ := mem_nodes.mp hy
      have heq := hpresent y v hv
      simp only [links, he.via hv, heq]
    · have heq := habsent y hy
      rw [← he.nodes_eq] at hy
      simp only [links, via_of_notMem hy, heq]

theorem modify_ok (hx : x ∈ nodes h) (f : Ties → Ties) :
    ∃ h', modify h (some x) f = .ok h' ∧ nodes h' = nodes h := by
  obtain ⟨v, hv⟩ := mem_nodes.mp hx
  exact ⟨_, modify_some hv f, (modify_edited (modify_some hv f)).2.nodes_eq⟩

theorem modifyIf_ok (hp : ∀ x, p = some x → x ∈ nodes h) (f : Ties → Ties) :
    ∃ h', modifyIf h p f = .ok h' ∧ nodes h' = nodes h := by
  cases p with
  | none => exact ⟨h, rfl, rfl⟩
  | some x => exact modify_ok (hp x rfl) f

namespace WellFormed

theorem parent_mem (hw : WellFormed h) (hx : via Ties.parent h x = some y) : y ∈ nodes h :=
  hw.present x y hx

theorem prev_mem (hw : WellFormed h) (hx : via Ties.siblingPrev h x = some y) : y ∈ nodes h :=
  mem_nodes_of_via ((hw.inverse y x).mpr hx)

theorem next_mem (hw : WellFormed h) (hx : via Ties.siblingNext h x = some y) : y ∈ nodes h :=
  mem_nodes_of_via ((hw.inverse x y).mp hx)

theorem child_mem (hw : WellFormed h) (hx : via Ties.child h x = some y) : y ∈ nodes h :=
  mem_nodes_of_via (hw.prev_child (mem_nodes_of_via hx) hx).1

end WellFormed
end Nodes

section Edits
variable {h : Kin} {fam bro parent : ℕ}

theorem familyRemove_links (hw : WellFormed h) (hfam : fam ∈ nodes h) :
    ∃ h', familyRemove h fam = .ok h' ∧ links h' = (links h).remove fam ∧ nodes h' = nodes h := by
  obtain ⟨x, hx⟩ := mem_nodes.mp hfam
  have hparent : ∀ y, x.parent = some y → y ∈ nodes h := fun y hy =>
    hw.parent_mem ((via_of hx).trans hy)
  have hprev : ∀ y, x.siblingPrev = some y → y ∈ nodes h := fun y hy =>
    hw.prev_mem ((via_of hx).trans hy)
  have hnext : ∀ y, x.siblingNext = some y → y ∈ nodes h := fun y hy =>
    hw.next_mem ((via_of hx).trans hy)
  obtain ⟨h₁, h₁ok, hn₁⟩ := modifyIf_ok hparent fun p =>
    if p.child = some fam then { p with child := x.siblingNext } else p
  obtain ⟨h₂, h₂ok, hn₂⟩ := modifyIf_ok (hn₁ ▸ hprev) fun p =>
    { p with siblingNext := x.siblingNext }
  have hn₂ := hn₂.trans hn₁
  obtain ⟨h₃, h₃ok, hn₃⟩ := modifyIf_ok (hn₂ ▸ hnext) fun p =>
    { p with siblingPrev := x.siblingPrev }
  have hn₃ := hn₃.trans hn₂
  obtain ⟨h', hok, hn⟩ := modify_ok (hn₃ ▸ hfam) fun x =>
    { x with parent := none, siblingNext := none, siblingPrev := none }
  have hok : familyRemove h fam = .ok h' := by
    rw [familyRemove, load_some hx, ok_bind, h₁ok, ok_bind, h₂ok, ok_bind, h₃ok, ok_bind, hok]
  refine ⟨h', hok, ?_, hn.trans hn₃⟩
  obtain ⟨x', hx', he⟩ := familyRemove_edited hok
  cases hx.symm.trans hx'
  refine he.links_eq (fun y v hv => ?_) fun y hy => ?_
  · simp only [removal, Links.remove, links, via_of hx, via_of hv, and_self]
  · have hne : y ≠ fam := fun h => hy (h ▸ hfam)
    have hnext : x.siblingNext ≠ some y := fun h => hy (hnext y h)
    have hprev : x.siblingPrev ≠ some y := fun h => hy (hprev y h)
    simp [Links.remove, links, via_of hx, via_of_notMem hy, hne, hnext, hprev]

theorem familyAddChild_links (hw : WellFormed h) (hparent : parent ∈ nodes h)
    (hfam : fam ∈ nodes h) :
    ∃ h', familyAddChild h parent fam = .ok h' ∧ links h' = (links h).addChild parent fam ∧
      nodes h' = nodes h := by
  obtain ⟨p, hp⟩ := mem_nodes.mp hparent
  have hchild : ∀ y, p.child = some y → y ∈ nodes h := fun y hy =>
    hw.child_mem ((via_of hp).trans hy)
  have hput : ∃ h₁, putBefore h p.child fam = .ok h₁ ∧ nodes h₁ = nodes h := by
    cases hc : p.child with
    | none => exact ⟨h, rfl, rfl⟩
    | some c =>
      obtain ⟨h₁, h₁ok, hn₁⟩ := modify_ok (hchild c hc) fun c => { c with siblingPrev := some fam }
      obtain ⟨h₂, h₂ok, hn₂⟩ := modify_ok (hn₁ ▸ hfam) fun x => { x with siblingNext := some c }
      refine ⟨h₂, ?_, hn₂.trans hn₁⟩
      rw [putBefore, h₁ok, ok_bind, h₂ok]
  obtain ⟨h₁, h₁ok, hn₁⟩ := hput
  obtain ⟨h₂, h₂ok, hn₂⟩ := modify_ok (hn₁ ▸ hparent) fun p => { p with child := some fam }
  have hn₂ := hn₂.trans hn₁
  obtain ⟨h', hok, hn⟩ := modify_ok (hn₂ ▸ hfam) fun x => { x with parent := some parent }
  have hok : familyAddChild h parent fam = .ok h' := by
    rw [familyAddChild, load_some hp, ok_bind, h₁ok, ok_bind, h₂ok, ok_bind, hok]
  refine ⟨h', hok, ?_, hn.trans hn₂⟩
  obtain ⟨p', hp', he⟩ := familyAddChild_edited hok
  cases hp.symm.trans hp'
  refine he.links_eq (fun y v hv => ?_) fun y hy => ?_
  · simp only [childAddition, Links.addChild, links, via_of hp, via_of hv, and_self]
  · have hne : y ≠ fam := fun h => hy (h ▸ hfam)
    have hne' : y ≠ parent := fun h => hy (h ▸ hparent)
    have hchild : p.child ≠ some y := fun h => hy (hchild y h)
    simp [Links.addChild, links, via_of hp, via_of_notMem hy, hne, hne', hchild]

theorem familyAddSibling_links (hw : WellFormed h) (hbro : bro ∈ nodes h) (hfam : fam ∈ nodes h) :
    ∃ h', familyAddSibling h bro fam = .ok h' ∧ links h' = (links h).addSibling bro fam ∧
      nodes h' = nodes h := by
  obtain ⟨b, hb⟩ := mem_nodes.mp hbro
  have hnext : ∀ y, b.siblingNext = some y → y ∈ nodes h := fun y hy =>
    hw.next_mem ((via_of hb).trans hy)
  obtain ⟨h₁, h₁ok, hn₁⟩ := modifyIf_ok hnext fun p => { p with siblingPrev := some fam }
  obtain ⟨h₂, h₂ok, hn₂⟩ := modify_ok (hn₁ ▸ hfam) fun x =>
    { x with siblingNext := b.siblingNext, siblingPrev := some bro }
  have hn₂ := hn₂.trans hn₁
  obtain ⟨h₃, h₃ok, hn₃⟩ := modify_ok (hn₂ ▸ hbro) fun b => { b with siblingNext := some fam }
  have hn₃ := hn₃.trans hn₂
  obtain ⟨h', hok, hn⟩ := modify_ok (hn₃ ▸ hfam) fun x => { x with parent := b.parent }
  have hok : familyAddSibling h bro fam = .ok h' := by
    rw [familyAddSibling, load_some hb, ok_bind, h₁ok, ok_bind, h₂ok, ok_bind, h₃ok, ok_bind, hok]
  refine ⟨h', hok, ?_, hn.trans hn₃⟩
  obtain ⟨b', hb', he⟩ := familyAddSibling_edited hok
  cases hb.symm.trans hb'
  refine he.links_eq (fun y v hv => ?_) fun y hy => ?_
  · simp only [siblingAddition, Links.addSibling, links, via_of hb, via_of hv, and_self]
  · have hne : y ≠ fam := fun h => hy (h ▸ hfam)
    have hne' : y ≠ bro := fun h => hy (h ▸ hbro)
    have hnext : b.siblingNext ≠ some y := fun h => hy (hnext y h)
    simp [Links.addSibling, links, via_of hb, via_of_notMem hy, hne, hne', hnext]

end Edits

/-! ### Adoption -/

/-- The pointers of `h` are those of `t`, but for the first child of `d` and what is before the
node at `a`. -/
structure Agrees (t : Links ℕ) (h : Kin) (d : ℕ) (a : Option ℕ) : Prop where
  parent : ∀ y, via Ties.parent h y = t.parent y
  child : ∀ y ≠ d, via Ties.child h y = t.child y
  prev : ∀ y, a ≠ some y → via Ties.siblingPrev h y = t.prev y
  next : ∀ y, via Ties.siblingNext h y = t.next y

section Adoption
variable {t : Links ℕ} {h h' : Kin} {d p tmp left : ℕ} {l rest : List ℕ} {first a : Option ℕ}

theorem adoptFrom_round {x s : Ties} (hx : h tmp = some x) (hs : h p = some s)
    (hfirst : ∀ c, s.child = some c → c ∈ nodes h) (left : ℕ) :
    ∃ h₁, adoptFrom p (left + 1) h (some tmp) = adoptFrom p left h₁ x.siblingNext ∧
      Edited h h₁ (adoption p tmp s.child) := by
  obtain ⟨h₁, h₁ok, hn₁⟩ := modify_ok (mem_nodes.mpr ⟨x, hx⟩) fun x =>
    { x with parent := some p, siblingPrev := none, siblingNext := s.child }
  obtain ⟨h₂, h₂ok, hn₂⟩ := modifyIf_ok (hn₁ ▸ hfirst) fun c => { c with siblingPrev := some tmp }
  have hn₂ := hn₂.trans hn₁
  obtain ⟨h₃, h₃ok, -⟩ := modify_ok (hn₂ ▸ mem_nodes.mpr ⟨s, hs⟩) fun s =>
    { s with child := some tmp }
  refine ⟨h₃, ?_, fun y => ?_⟩
  · rw [adoptFrom, load_some hx, ok_bind, load_some hs, ok_bind, h₁ok, ok_bind, h₂ok, ok_bind,
      h₃ok, ok_bind]
  · rw [((modify_edited h₁ok).2.trans (modifyIf_edited h₂ok)).trans (modify_edited h₃ok).2 y]
    congr 1
    funext v
    dsimp only [adoption]
    split_ifs <;> rfl

/-- The pointers after a round, in those before it. -/
theorem adoption_agrees {h₁ : Kin} (he : Edited h h₁ (adoption p tmp first)) (htmp : tmp ∈ nodes h)
    (hp : p ∈ nodes h) (hfirst : ∀ c, first = some c → c ∈ nodes h) :
    (∀ y, via Ties.parent h₁ y = if y = tmp then some p else via Ties.parent h y) ∧
      (∀ y, via Ties.child h₁ y = if y = p then some tmp else via Ties.child h y) ∧
      (∀ y, via Ties.siblingPrev h₁ y = if first = some y then some tmp else
        if y = tmp then none else via Ties.siblingPrev h y) ∧
      ∀ y, via Ties.siblingNext h₁ y = if y = tmp then first else via Ties.siblingNext h y := by
  refine ⟨fun y => ?_, fun y => ?_, fun y => ?_, fun y => ?_⟩
  all_goals
    by_cases hy : y ∈ nodes h
    · obtain ⟨v, hv⟩ := mem_nodes.mp hy
      rw [he.via hv, via_of hv]
      rfl
    · have hne : y ≠ tmp := fun h => hy (h ▸ htmp)
      have hne' : y ≠ p := fun h => hy (h ▸ hp)
      have hfirst : first ≠ some y := fun h => hy (hfirst y h)
      rw [via_of_notMem hy, via_of_notMem (he.nodes_eq ▸ hy)]
      simp [hne, hne', hfirst]

/-- A round of the loop is a removal and an addition to the pointers that are looked at. -/
theorem Agrees.round (ha : Agrees t h d (some tmp)) (hw : t.WellFormed (nodes h))
    (hp : p ∈ nodes h) (hd : d ∈ nodes h) (hne : d ≠ p) (hl : t.Children d (tmp :: rest))
    (left : ℕ) :
    ∃ h₁, adoptFrom p (left + 1) h (some tmp) = adoptFrom p left h₁ rest.head? ∧
      Agrees ((t.remove tmp).addChild p tmp) h₁ d rest.head? ∧ nodes h₁ = nodes h := by
  have hparent : t.parent tmp = some d := (hl.mem tmp).mp List.mem_cons_self
  have hprev : t.prev tmp = none := (hw.prev_child hd hl.chained.1).2
  have hnext : t.next tmp = rest.head? := hl.chained.2.start_eq
  have htmp : tmp ∈ nodes h := mem_nodes_of_via ((ha.parent tmp).trans hparent)
  obtain ⟨x, hx⟩ := mem_nodes.mp htmp
  obtain ⟨s, hs⟩ := mem_nodes.mp hp
  have hchild : s.child = t.child p := (via_of hs).symm.trans (ha.child p hne.symm)
  have hfirst : ∀ c, s.child = some c → t.parent c = some p ∧ t.prev c = none := fun c hc =>
    hw.prev_child hp (hchild.symm.trans hc)
  have hmem : ∀ c, s.child = some c → c ∈ nodes h := fun c hc =>
    mem_nodes_of_via ((ha.parent c).trans (hfirst c hc).1)
  obtain ⟨h₁, hround, he⟩ := adoptFrom_round hx hs hmem left
  have hxnext : x.siblingNext = rest.head? := (via_of hx).symm.trans ((ha.next tmp).trans hnext)
  obtain ⟨hparents, hchildren, hprevs, hnexts⟩ := adoption_agrees he htmp hp hmem
  refine ⟨h₁, hxnext ▸ hround, ⟨fun y => ?_, fun y hy => ?_, fun y hy => ?_, fun y => ?_⟩,
    he.nodes_eq⟩
  · rw [hparents, Links.give_parent, ha.parent]
  · rw [hchildren, ha.child y hy]
    simp [Links.addChild, Links.remove, hparent, Ne.symm hy]
  · rw [hprevs, hchild]
    have hremoved : (t.remove tmp).child p = t.child p := by
      simp [Links.remove, hparent, hne]
    simp only [Links.addChild, hremoved]
    by_cases hyt : y = tmp
    · simp [hyt, Links.remove]
    · rw [ha.prev y (fun h => hyt (Option.some.inj h).symm)]
      simp [Links.remove, hyt, hnext, hy]
  · rw [hnexts, hchild, ha.next]
    have hremoved : (t.remove tmp).child p = t.child p := by
      simp [Links.remove, hparent, hne]
    have hdetached := (t.remove_detached tmp).next
    by_cases hyt : y = tmp
    · simp only [Links.addChild, hyt, if_true, hremoved, hdetached, Option.or_none]
    · simp [Links.addChild, Links.remove, hyt, hprev]

/-- By induction on the children that are left. -/
theorem adoptFrom_agrees (ha : Agrees t h d l.head?) (hw : t.WellFormed (nodes h))
    (hp : p ∈ nodes h) (hd : d ∈ nodes h) (hne : d ≠ p) (hl : t.Children d l)
    (hleft : l.length ≤ left) :
    ∃ h', adoptFrom p left h l.head? = .ok h' ∧ Agrees (Links.giveAll p l t) h' d none ∧
      nodes h' = nodes h := by
  induction l generalizing t h left with
  | nil => exact ⟨h, by cases left <;> rfl, ha, rfl⟩
  | cons tmp rest ih =>
    obtain ⟨left, rfl⟩ : ∃ n, left = n + 1 := ⟨left - 1, by simp at hleft; omega⟩
    obtain ⟨h₁, hround, ha₁, hn₁⟩ := ha.round hw hp hd hne hl left
    rw [← hn₁] at hp hd hw
    obtain ⟨h', hok, ha', hn'⟩ := ih ha₁ (hw.give hp tmp) hp hd (hl.give hw hd hne)
      (by simpa using hleft)
    exact ⟨h', hround.trans hok, ha', hn'.trans hn₁⟩

/-- More rounds than were needed make no difference. -/
theorem adoptFrom_mono {more : ℕ} (hok : adoptFrom p left h a = .ok h') (hle : left ≤ more) :
    adoptFrom p more h a = .ok h' := by
  induction left generalizing h a more with
  | zero =>
    cases a with
    | none =>
      cases more <;> exact hok
    | some tmp => cases hok
  | succ left ih =>
    obtain ⟨more, rfl⟩ : ∃ n, more = n + 1 := ⟨more - 1, by omega⟩
    cases a with
    | none => exact hok
    | some tmp =>
      obtain ⟨x, hx, hok⟩ := bind_eq_ok.mp hok
      obtain ⟨s, hs, hok⟩ := bind_eq_ok.mp hok
      obtain ⟨h₁, h₁ok, hok⟩ := bind_eq_ok.mp hok
      obtain ⟨h₂, h₂ok, hok⟩ := bind_eq_ok.mp hok
      obtain ⟨h₃, h₃ok, hok⟩ := bind_eq_ok.mp hok
      rw [adoptFrom, hx, ok_bind, hs, ok_bind, h₁ok, ok_bind, h₂ok, ok_bind, h₃ok, ok_bind]
      exact ih hok (Nat.le_of_succ_le_succ hle)

theorem familyAdopt_mono {more : ℕ} (hok : familyAdopt left h p d = .ok h') (hle : left ≤ more) :
    familyAdopt more h p d = .ok h' := by
  obtain ⟨v, hv, hok⟩ := bind_eq_ok.mp hok
  obtain ⟨h₁, h₁ok, hok⟩ := bind_eq_ok.mp hok
  rw [familyAdopt, hv, ok_bind, adoptFrom_mono h₁ok hle, ok_bind, hok]

theorem familyAdopt_links (hw : WellFormed h) (hp : p ∈ nodes h) (hd : d ∈ nodes h) (hne : d ≠ p)
    (hl : (links h).Children d l) (hleft : l.length ≤ left) :
    ∃ h', familyAdopt left h p d = .ok h' ∧ links h' = Links.giveAll p l (links h) ∧
      nodes h' = nodes h := by
  obtain ⟨v, hv⟩ := mem_nodes.mp hd
  have hchild : v.child = l.head? := (via_of hv).symm.trans hl.chained.start_eq
  have hagrees : Agrees (links h) h d l.head? :=
    ⟨fun _ => rfl, fun _ _ => rfl, fun _ _ => rfl, fun _ => rfl⟩
  obtain ⟨h₁, h₁ok, ha, hn₁⟩ := adoptFrom_agrees hagrees hw hp hd hne hl hleft
  obtain ⟨h', hok, hn'⟩ := modify_ok (hn₁ ▸ hd) fun d => { d with child := none }
  refine ⟨h', ?_, ?_, hn'.trans hn₁⟩
  · rw [familyAdopt, load_some hv, ok_bind, hchild, h₁ok, ok_bind, hok]
  · obtain ⟨-, he⟩ := modify_edited hok
    obtain ⟨-, hnone, -⟩ := Links.giveAll_wellFormed hw hp hd hne hl
    obtain ⟨w, hw₁⟩ := mem_nodes.mp (hn₁ ▸ hd)
    have hsame : ∀ (field : Ties → Option ℕ) (y : ℕ), (y = d → ∀ v : Ties,
        field { v with child := none } = field v) → via field h' y = via field h₁ y := by
      intro field y hfield
      rw [via, via, he y]
      cases h₁ y with
      | none => rfl
      | some v =>
        by_cases hy : y = d
        · simp [hy, hfield hy v]
        · simp [hy]
    refine Links.ext ?_ ?_ ?_ ?_ <;> funext y
    · exact (hsame _ y fun _ _ => rfl).trans (ha.parent y)
    · by_cases hy : y = d
      · rw [hy]
        exact (he.via hw₁).trans ((congrArg Ties.child (if_pos rfl)).trans hnone.chained.symm)
      · exact (hsame _ y fun h => absurd h hy).trans (ha.child y hy)
    · exact (hsame _ y fun _ _ => rfl).trans (ha.prev y (by simp))
    · exact (hsame _ y fun _ _ => rfl).trans (ha.next y)

end Adoption
end Racoon.Families
