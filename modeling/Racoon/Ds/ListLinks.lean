import Racoon.Ds.Adoption
import Racoon.Ds.FamilyLinks

/-!
# The linear list beside the tree

`ds/list.h` leaves the pointers of the tree alone and `ds/family.h` those of the
list, so each may be taken out and put in without a thought of the other. Nothing
goes wrong as long as what is listed is there.
-/

namespace Racoon.Families
open Lib

variable {h h' : Kin} {p d left l position : ℕ} {a : Option ℕ} {xs ys : List ℕ}

theorem adoptFrom_sameList (hok : adoptFrom p left h a = .ok h') : SameList h h' := by
  induction left generalizing h a with
  | zero =>
    cases a with
    | none =>
      cases hok
      exact ⟨rfl, rfl⟩
    | some tmp => cases hok
  | succ left ih =>
    cases a with
    | none =>
      cases hok
      exact ⟨rfl, rfl⟩
    | some tmp =>
      obtain ⟨x, s, h₁, -, -, he, hok⟩ := adoptFrom_succ hok
      exact (SameList.of_edited he (fun _ _ => rfl) fun _ _ => rfl).trans (ih hok)

theorem familyAdopt_sameList (hok : familyAdopt left h p d = .ok h') : SameList h h' := by
  obtain ⟨v, -, hok⟩ := bind_eq_ok.mp hok
  obtain ⟨h₁, h₁ok, hok⟩ := bind_eq_ok.mp hok
  refine (adoptFrom_sameList h₁ok).trans (.of_edited (modify_edited hok).2 ?_ ?_)
  all_goals
    intro y v
    split_ifs <;> rfl

/-- What is not listed keeps its pointers. -/
def SameBut (h h' : Kin) (xs : List ℕ) : Prop :=
  ∀ y ∉ xs, via Ties.next h' y = via Ties.next h y ∧ via Ties.prev h' y = via Ties.prev h y

theorem sameBut_of_edited {e : ℕ → Ties → Ties} {zs : List ℕ} (he : Edited h h' e)
    (hn : ∀ y ∉ zs, ∀ v, (e y v).next = v.next ∧ (e y v).prev = v.prev) : SameBut h h' zs := by
  intro y hy
  rw [via, via, via, via, he y]
  cases h y with
  | none => exact ⟨rfl, rfl⟩
  | some v => exact hn y hy v

theorem links_of_edited {e : ℕ → Ties → Ties} (he : Edited h h' e) (hp : ∀ y v,
    (e y v).parent = v.parent ∧ (e y v).child = v.child ∧ (e y v).siblingPrev = v.siblingPrev ∧
      (e y v).siblingNext = v.siblingNext) : links h' = links h := by
  refine Links.ext ?_ ?_ ?_ ?_
  · exact he.via_eq fun y v => (hp y v).1
  · exact he.via_eq fun y v => (hp y v).2.1
  · exact he.via_eq fun y v => (hp y v).2.2.1
  · exact he.via_eq fun y v => (hp y v).2.2.2

theorem listRemove_listed (hl : Listed h (xs ++ l :: ys))
    (hpresent : ∀ x ∈ xs ++ l :: ys, x ∈ nodes h) :
    ∃ h', listRemove h l = .ok h' ∧ links h' = links h ∧ nodes h' = nodes h ∧
      Listed h' (xs ++ ys) ∧ SameBut h h' (xs ++ l :: ys) := by
  have hat := hl.2.at_mid
  rw [Option.or_none, Option.or_none] at hat
  obtain ⟨x, hx⟩ := mem_nodes.mp (hpresent l (by simp))
  rw [via_of hx, via_of hx] at hat
  obtain ⟨hprev, hnext⟩ := hat
  obtain ⟨h₁, h₁ok, hn₁⟩ := modifyIf_ok (h := h) (p := x.prev)
    (fun y hy => hpresent y (List.mem_append_left _ (List.mem_of_getLast? (hprev.symm.trans hy))))
    fun p => { p with next := x.next }
  obtain ⟨h₂, h₂ok, hn₂⟩ := modifyIf_ok (h := h₁) (p := x.next)
    (fun y hy => hn₁ ▸ hpresent y (List.mem_append_right _ (List.mem_cons_of_mem _
      (List.mem_of_mem_head? (hnext.symm.trans hy)))))
    fun p => { p with prev := x.prev }
  obtain ⟨h', hok, hn⟩ := modify_ok (h := h₂) (x := l)
    (hn₂ ▸ hn₁ ▸ mem_nodes.mpr ⟨x, hx⟩) fun x => { x with prev := none, next := none }
  have hok : listRemove h l = .ok h' := by
    rw [listRemove, load_some hx, ok_bind, h₁ok, ok_bind, h₂ok, ok_bind, hok]
  obtain ⟨x', hx', he⟩ := listRemove_edited hok
  cases hx.symm.trans hx'
  refine ⟨h', hok, links_of_edited he fun _ _ => ⟨rfl, rfl, rfl, rfl⟩, he.nodes_eq, ?_, ?_⟩
  · exact hl.remove (fun y hy => mem_nodes.mp (hpresent y (by simp at hy ⊢; tauto))) hok
  · refine sameBut_of_edited he fun y hy v => ⟨?_, ?_⟩
    · have hy' : x.prev ≠ some y := fun hp =>
        hy (List.mem_append_left _ (List.mem_of_getLast? (hprev.symm.trans hp)))
      simp only [if_neg (fun h : y = l => hy (by simp [h])), if_neg hy']
    · have hy' : x.next ≠ some y := fun hp => hy (List.mem_append_right _
        (List.mem_cons_of_mem _ (List.mem_of_mem_head? (hnext.symm.trans hp))))
      simp only [if_neg (fun h : y = l => hy (by simp [h])), if_neg hy']

theorem listInsertAfter_listed (hl : Listed h (xs ++ position :: ys))
    (hpresent : ∀ x ∈ xs ++ position :: ys, x ∈ nodes h) (hnew : l ∉ xs ++ position :: ys)
    (hmem : l ∈ nodes h) :
    ∃ h', listInsertAfter h position l = .ok h' ∧ links h' = links h ∧ nodes h' = nodes h ∧
      Listed h' (xs ++ position :: l :: ys) ∧ SameBut h h' (xs ++ position :: l :: ys) := by
  have hat := hl.2.at_mid.2
  obtain ⟨p, hp⟩ := mem_nodes.mp (hpresent position (by simp))
  obtain ⟨w, hw⟩ := mem_nodes.mp hmem
  rw [Option.or_none, via_of hp] at hat
  have hnext : ∀ y, p.next = some y → y ∈ ys := fun y hy =>
    List.mem_of_mem_head? (hat.symm.trans hy)
  obtain ⟨h₁, h₁ok, hn₁⟩ := modify_ok hmem fun x => { x with prev := some position, next := p.next }
  obtain ⟨h₂, h₂ok, hn₂⟩ := modify_ok (h := h₁) (x := position)
    (hn₁ ▸ mem_nodes.mpr ⟨p, hp⟩) fun p => { p with next := some l }
  obtain ⟨h', hok, hn⟩ := modifyIf_ok (h := h₂) (p := p.next)
    (fun y hy => hn₂ ▸ hn₁ ▸ hpresent y (List.mem_append_right _
      (List.mem_cons_of_mem _ (hnext y hy)))) fun x => { x with prev := some l }
  have hok : listInsertAfter h position l = .ok h' := by
    rw [listInsertAfter, load_some hp, ok_bind, h₁ok, ok_bind, h₂ok, ok_bind, hok]
  obtain ⟨p', hp', he⟩ := listInsertAfter_edited hok
  cases hp.symm.trans hp'
  refine ⟨h', hok, links_of_edited he fun _ _ => ⟨rfl, rfl, rfl, rfl⟩, he.nodes_eq, ?_, ?_⟩
  · exact hl.insertAfter hnew (fun y hy => mem_nodes.mp (hpresent y hy)) hw hok
  · refine sameBut_of_edited he fun y hy v => ?_
    have hne : y ≠ position ∧ y ≠ l ∧ y ∉ ys := by
      refine ⟨?_, ?_, fun h => hy ?_⟩
      · rintro rfl
        exact hy (by simp)
      · rintro rfl
        exact hy (by simp)
      · simp [h]
    simp only [if_neg hne.1, if_neg hne.2.1, if_neg fun h => hne.2.2 (hnext y h), and_self]

end Racoon.Families
