import Mathlib.Tactic

/-!
# Members and their parents

A list of members with distinct ids. The first one has no parent; the parent of any
other is the first one or stands behind it in the list. A new member comes right
behind the first, and the children of a member that goes get its parent.
-/

namespace Racoon.Lib

structure Member (ι α : Type*) where
  id : ι
  parent : Option ι
  label : α

namespace Lineage
variable {ι α : Type*}

/-- The first member gets no parent, whichever it asks for. -/
def enlist (p x : ι) (v : α) : List (Member ι α) → List (Member ι α)
  | [] => [⟨x, none, v⟩]
  | m :: ms => m :: ⟨x, some p, v⟩ :: ms

/-- Behind the first member `root` each has a parent that is older. -/
def Older (root : ι) : List (Member ι α) → Prop
  | [] => True
  | m :: ms => (∃ p, m.parent = some p ∧ (p = root ∨ p ∈ ms.map Member.id)) ∧ Older root ms

structure Rooted (ms : List (Member ι α)) : Prop where
  nodup : (ms.map Member.id).Nodup
  first : ∀ m, ms.head? = some m → m.parent = none
  older : ∀ m, ms.head? = some m → Older m.id ms.tail

def ParentOf (ms : List (Member ι α)) (x p : ι) : Prop := ∃ m ∈ ms, m.id = x ∧ m.parent = some p

section
variable [DecidableEq ι]

/-- What becomes of a member when `x` goes, which has the parent `p`. -/
def inherit (x : ι) (p : Option ι) (m : Member ι α) : Member ι α :=
  if m.parent = some x then { m with parent := p } else m

def delist (x : ι) (ms : List (Member ι α)) : List (Member ι α) :=
  match ms.find? fun m => m.id = x with
  | none => ms
  | some d => (ms.filter fun m => m.id ≠ x).map (inherit x d.parent)

end

variable {ms xs ys : List (Member ι α)} {m d : Member ι α} {root x p : ι} {v : α}

theorem rooted_nil : Rooted ([] : List (Member ι α)) :=
  { nodup := List.nodup_nil
    first := fun _ h => by cases h
    older := fun _ h => by cases h }

theorem rooted_cons : Rooted (m :: ms) ↔
    ((m :: ms).map Member.id).Nodup ∧ m.parent = none ∧ Older m.id ms := by
  refine ⟨fun h => ⟨h.nodup, h.first m rfl, h.older m rfl⟩, fun h => ⟨h.1, fun m' h' => ?_,
    fun m' h' => ?_⟩⟩
  · cases h'
    exact h.2.1
  · cases h'
    exact h.2.2

theorem Rooted.enlist (h : Rooted ms) (hx : x ∉ ms.map Member.id)
    (hp : ms ≠ [] → p ∈ ms.map Member.id) : Rooted (enlist p x v ms) := by
  cases ms with
  | nil => exact rooted_cons.mpr ⟨List.nodup_singleton _, rfl, trivial⟩
  | cons m ms =>
    obtain ⟨hnodup, hfirst, holder⟩ := rooted_cons.mp h
    have hparent : p = m.id ∨ p ∈ ms.map Member.id := List.mem_cons.mp (hp (List.cons_ne_nil _ _))
    refine rooted_cons.mpr ⟨?_, hfirst, ⟨p, rfl, hparent⟩, holder⟩
    rw [List.map_cons, List.map_cons]
    refine ((List.nodup_cons.mpr ⟨hx, hnodup⟩).perm ?_)
    exact .swap ..

/-- By induction on the list from the back: the parent of a member is in its tail. -/
theorem Older.descends {R : ι → ι → Prop} (h : Older root ms)
    (hR : ∀ m ∈ ms, ∀ p, m.parent = some p → R m.id p) :
    ∀ m ∈ ms, Relation.ReflTransGen R m.id root := by
  induction ms with
  | nil => exact fun m hm => by cases hm
  | cons e ms ih =>
    have hold := ih h.2 fun m hm => hR m (List.mem_cons_of_mem _ hm)
    intro m hm
    rcases List.mem_cons.mp hm with rfl | hm
    · obtain ⟨p, hp, hroot | hmem⟩ := h.1
      · exact .single (hroot ▸ hR m List.mem_cons_self p hp)
      · obtain ⟨q, hq, rfl⟩ := List.mem_map.mp hmem
        exact .head (hR m List.mem_cons_self _ hp) (hold q hq)
    · exact hold m hm

theorem Older.parent (h : Older root (xs ++ d :: ys)) :
    ∃ p, d.parent = some p ∧ (p = root ∨ p ∈ ys.map Member.id) := by
  induction xs with
  | nil => exact h.1
  | cons m xs ih =>
    rw [List.cons_append] at h
    exact ih h.2

theorem Rooted.parent (h : Rooted (xs ++ d :: ys)) (hxs : xs ≠ []) : ∃ p, d.parent = some p := by
  cases xs with
  | nil => exact absurd rfl hxs
  | cons m xs =>
    rw [List.cons_append] at h
    obtain ⟨p, hp, -⟩ := (rooted_cons.mp h).2.2.parent
    exact ⟨p, hp⟩

theorem Rooted.descends (h : Rooted (m :: ms)) (hx : x ∈ (m :: ms).map Member.id) :
    Relation.ReflTransGen (ParentOf (m :: ms)) x m.id := by
  obtain ⟨e, he, rfl⟩ := List.mem_map.mp hx
  rcases List.mem_cons.mp he with rfl | he
  · exact .refl
  · exact (rooted_cons.mp h).2.2.descends
      (fun q hq p hp => ⟨q, List.mem_cons_of_mem _ hq, rfl, hp⟩) e he

theorem nodup_middle : ((xs ++ d :: ys).map Member.id).Nodup ↔
    d.id ∉ (xs ++ ys).map Member.id ∧ ((xs ++ ys).map Member.id).Nodup := by
  rw [List.map_append, List.map_cons, List.nodup_middle, List.nodup_cons, ← List.map_append]

section
variable [DecidableEq ι]

theorem inherit_id (x : ι) (p : Option ι) (m : Member ι α) : (inherit x p m).id = m.id := by
  unfold inherit
  split_ifs <;> rfl

theorem map_inherit_id (x : ι) (p : Option ι) (ms : List (Member ι α)) :
    (ms.map (inherit x p)).map Member.id = ms.map Member.id := by
  rw [List.map_map]
  exact List.map_congr_left fun m _ => inherit_id x p m

theorem delist_of_notMem (hx : x ∉ ms.map Member.id) : delist x ms = ms := by
  have hnone : ms.find? (fun m => m.id = x) = none :=
    List.find?_eq_none.mpr fun m hm => by
      simpa using fun h : m.id = x => hx (h ▸ List.mem_map_of_mem hm)
  rw [delist, hnone]

theorem delist_append (h : ((xs ++ d :: ys).map Member.id).Nodup) :
    delist d.id (xs ++ d :: ys) = (xs ++ ys).map (inherit d.id d.parent) := by
  have hother : ∀ m ∈ xs ++ ys, m.id ≠ d.id := fun m hm he =>
    (nodup_middle.mp h).1 (he ▸ List.mem_map_of_mem hm)
  have hfind : (xs ++ d :: ys).find? (fun m => m.id = d.id) = some d := by
    rw [List.find?_append, List.find?_eq_none.mpr fun m hm => by
      simpa using hother m (List.mem_append_left _ hm), Option.none_or, List.find?_cons_of_pos
      (by simp)]
  rw [delist, hfind]
  dsimp only
  rw [List.filter_append, List.filter_cons_of_neg (by simp), ← List.filter_append,
    List.filter_eq_self.mpr fun m hm => by simpa using hother m hm]

theorem Older.map_inherit {p : Option ι} (h : Older root ms) (hroot : x ≠ root)
    (hx : x ∉ ms.map Member.id) : Older root (ms.map (inherit x p)) := by
  induction ms with
  | nil => trivial
  | cons m ms ih =>
    obtain ⟨⟨q, hq, hold⟩, hrest⟩ := h
    have hx' : x ∉ ms.map Member.id := fun hm => hx (List.mem_cons_of_mem _ hm)
    have hne : m.parent ≠ some x := by
      rw [hq]
      rintro ⟨rfl⟩
      exact hold.elim hroot hx'
    refine ⟨⟨q, ?_, ?_⟩, ih hrest hx'⟩
    · rw [inherit, if_neg hne, hq]
    · rw [map_inherit_id]
      exact hold

theorem Older.delist (h : Older root (xs ++ d :: ys)) (hroot : d.id ≠ root)
    (hd : d.id ∉ (xs ++ ys).map Member.id) :
    Older root ((xs ++ ys).map (inherit d.id d.parent)) := by
  induction xs with
  | nil => exact h.2.map_inherit hroot hd
  | cons m xs ih =>
    rw [List.cons_append] at h
    obtain ⟨⟨q, hq, hold⟩, hrest⟩ := h
    have hd' : d.id ∉ (xs ++ ys).map Member.id := fun hm => hd (List.mem_cons_of_mem _ hm)
    rw [List.cons_append, List.map_cons]
    refine ⟨?_, ih hrest hd'⟩
    rw [map_inherit_id]
    by_cases hqd : q = d.id
    · -- the parent goes, and what it had as its own is still behind
      obtain ⟨p, hp, hold'⟩ := hrest.parent
      refine ⟨p, ?_, hold'.imp_right fun hm => ?_⟩
      · rw [inherit, if_pos (by rw [hq, hqd])]
        exact hp
      · rw [List.map_append]
        exact List.mem_append_right _ hm
    · refine ⟨q, ?_, hold.imp_right fun hm => ?_⟩
      · rw [inherit, if_neg (by rw [hq]; exact fun he => hqd (Option.some.inj he)), hq]
      · rw [List.map_append, List.map_cons, List.mem_append, List.mem_cons] at hm
        rw [List.map_append, List.mem_append]
        exact hm.imp_right fun hm => hm.resolve_left hqd

/-- The first member stays. -/
theorem Rooted.delist (h : Rooted ms) (hx : ∀ m, ms.head? = some m → m.id ≠ x) :
    Rooted (delist x ms) := by
  by_cases hmem : x ∈ ms.map Member.id
  · obtain ⟨d, hd, rfl⟩ := List.mem_map.mp hmem
    cases ms with
    | nil => cases hd
    | cons m ms =>
      have hne := hx m rfl
      have hd' : d ∈ ms := (List.mem_cons.mp hd).resolve_left fun he => hne (he ▸ rfl)
      obtain ⟨xs, ys, rfl⟩ := List.append_of_mem hd'
      obtain ⟨hnodup, hfirst, holder⟩ := rooted_cons.mp h
      rw [← List.cons_append] at hnodup ⊢
      have hself : inherit d.id d.parent m = m := by
        rw [inherit, if_neg]
        rw [hfirst]
        exact fun he => by cases he
      rw [delist_append hnodup, List.cons_append, List.map_cons, hself]
      obtain ⟨hd, hnodup⟩ := nodup_middle.mp hnodup
      refine rooted_cons.mpr ⟨?_, hfirst, holder.delist hne.symm fun hm => ?_⟩
      · rw [List.map_cons, map_inherit_id]
        exact hnodup
      · exact hd (List.mem_cons_of_mem _ hm)
  · rw [delist_of_notMem hmem]
    exact h

end
end Lineage
end Racoon.Lib
