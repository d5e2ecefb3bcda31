import Mathlib.Tactic

/-!
# Trees by parent, first child and siblings

A node of such a tree has four pointers: to its parent, to its first child, and to the siblings
before and behind it. `Links` are the pointers of all nodes. The tree is well formed when the chain
from the first child of a node consists of all the nodes with that parent and the sibling pointers
are inverse to each other; nodes without a parent may be in chains of their own. The edits take a
node out of its chain, or put one that is in no chain in front of the children of a node or behind
a sibling.
-/

namespace Racoon.Lib
variable {κ : Type*}

/-- Following `next` from `a` meets the nodes of the list, one after the other, and then ends. -/
def Chained (next : κ → Option κ) : Option κ → List κ → Prop
  | a, [] => a = none
  | a, x :: l => a = some x ∧ Chained next (next x) l

namespace Chained
variable {next next' : κ → Option κ} {a : Option κ} {l : List κ} {x y z : κ}

theorem congr (h : Chained next a l) (hn : ∀ x ∈ l, next' x = next x) : Chained next' a l := by
  induction l generalizing a with
  | nil => exact h
  | cons x l ih =>
    refine ⟨h.1, ?_⟩
    rw [hn x List.mem_cons_self]
    exact ih h.2 fun y hy => hn y (List.mem_cons_of_mem x hy)

theorem start_eq (h : Chained next a l) : a = l.head? := by
  cases l with
  | nil => exact h
  | cons x l => exact h.1

theorem mem_of_start (h : Chained next (some x) l) : x ∈ l := by
  cases l with
  | nil => cases h
  | cons y l =>
    cases h.1
    exact List.mem_cons_self

theorem mem_of_next (h : Chained next a l) (hx : x ∈ l) (hn : next x = some y) : y ∈ l := by
  induction l generalizing a with
  | nil => cases hx
  | cons z l ih =>
    rcases List.mem_cons.mp hx with rfl | hx
    · have hrest := h.2
      rw [hn] at hrest
      exact List.mem_cons_of_mem x hrest.mem_of_start
    · exact List.mem_cons_of_mem z (ih h.2 hx)

/-- Nothing in the chain comes before its first node. -/
theorem next_ne_start (h : Chained next (some x) l) (hl : l.Nodup) (hy : y ∈ l) :
    next y ≠ some x := by
  cases l with
  | nil => cases hy
  | cons z l =>
    cases h.1
    obtain ⟨hx, -⟩ := List.nodup_cons.mp hl
    intro hn
    rcases List.mem_cons.mp hy with rfl | hy
    · have hrest := h.2
      rw [hn] at hrest
      exact hx hrest.mem_of_start
    · exact hx (h.2.mem_of_next hy hn)

/-- With `x` behind the node `y`. -/
theorem insert {xs ys : List κ} (h : Chained next a (xs ++ y :: ys)) (hy : next' y = some x)
    (hx : next' x = next y) (hn : ∀ z ∈ xs ++ ys, next' z = next z) :
    Chained next' a (xs ++ y :: x :: ys) := by
  induction xs generalizing a with
  | nil =>
    refine ⟨h.1, ?_⟩
    rw [hy]
    refine ⟨rfl, ?_⟩
    rw [hx]
    exact h.2.congr hn
  | cons z xs ih =>
    refine ⟨h.1, ?_⟩
    rw [hn z List.mem_cons_self]
    exact ih h.2 fun w hw => hn w (List.mem_cons_of_mem z hw)

variable [DecidableEq κ]

/-- A pointer to `x` becomes one to what is behind it. -/
def skip (next : κ → Option κ) (x : κ) (p : Option κ) : Option κ :=
  if p = some x then next x else p

/-- Without `x`, whether it was in the chain or not. -/
theorem erase (h : Chained next a l) (hl : l.Nodup)
    (hn : ∀ y ∈ l, y ≠ x → next' y = skip next x (next y)) :
    Chained next' (skip next x a) (l.erase x) := by
  induction l generalizing a with
  | nil =>
    cases h
    rfl
  | cons y l ih =>
    obtain ⟨rfl, hrest⟩ := h
    obtain ⟨hy, hl⟩ := List.nodup_cons.mp hl
    by_cases hyx : y = x
    · subst hyx
      rw [List.erase_cons_head, skip, if_pos rfl]
      refine hrest.congr fun z hz => ?_
      have hzy : z ≠ y := fun h => hy (h ▸ hz)
      have hne : next z ≠ some y := fun h => hy (hrest.mem_of_next hz h)
      rw [hn z (List.mem_cons_of_mem y hz) hzy, skip, if_neg hne]
    · have hne : some y ≠ some x := fun h => hyx (Option.some.inj h)
      rw [List.erase_cons_tail (by simpa using hyx), skip, if_neg hne]
      refine ⟨rfl, ?_⟩
      rw [hn y List.mem_cons_self hyx]
      exact ih hrest hl fun z hz => hn z (List.mem_cons_of_mem y hz)

end Chained

/-- The pointers of the nodes. -/
@[ext] structure Links (κ : Type*) where
  parent : κ → Option κ
  child : κ → Option κ
  prev : κ → Option κ
  next : κ → Option κ

namespace Links

/-- `p` is the parent of `x`. -/
def ParentOf (t : Links κ) (x p : κ) : Prop := t.parent x = some p

/-- The chain from the first child of `p` is the list of the nodes with the parent `p`. -/
structure Children (t : Links κ) (p : κ) (l : List κ) : Prop where
  nodup : l.Nodup
  chained : Chained t.next (t.child p) l
  mem : ∀ x, x ∈ l ↔ t.parent x = some p

structure WellFormed (t : Links κ) (nodes : Set κ) : Prop where
  present : ∀ x p, t.parent x = some p → p ∈ nodes
  children : ∀ p ∈ nodes, ∃ l, t.Children p l
  inverse : ∀ x y, t.next x = some y ↔ t.prev y = some x
  siblings : ∀ x y, t.next x = some y → t.parent y = t.parent x

/-- No node is below itself. -/
def Acyclic (t : Links κ) : Prop := ∀ x, ¬ Relation.TransGen t.ParentOf x x

/-- `x` is below `y`, or `y` itself. -/
def Below (t : Links κ) (x y : κ) : Prop := Relation.ReflTransGen t.ParentOf x y

/-- The node has no parent and no siblings. It may have children. -/
structure Detached (t : Links κ) (x : κ) : Prop where
  parent : t.parent x = none
  prev : t.prev x = none
  next : t.next x = none

section Edits
variable [DecidableEq κ] (t : Links κ)

def remove (x : κ) : Links κ where
  parent y := if y = x then none else t.parent y
  child y := if t.parent x = some y then
    if t.child y = some x then t.next x else t.child y else t.child y
  prev y := if y = x then none else if t.next x = some y then t.prev x else t.prev y
  next y := if y = x then none else if t.prev x = some y then t.next x else t.next y

def addChild (p x : κ) : Links κ where
  parent y := if y = x then some p else t.parent y
  child y := if y = p then some x else t.child y
  prev y := if t.child p = some y then some x else t.prev y
  next y := if y = x then (t.child p).or (t.next y) else t.next y

def addSibling (s x : κ) : Links κ where
  parent y := if y = x then t.parent s else t.parent y
  child := t.child
  prev y := if y = x then some s else if t.next s = some y then some x else t.prev y
  next y := if y = s then some x else if y = x then t.next s else t.next y

end Edits

section Edits
variable {t : Links κ} {nodes : Set κ} {x y p q s : κ} {l : List κ}

/-- The first child is behind no node. -/
theorem WellFormed.prev_child (h : t.WellFormed nodes) (hp : p ∈ nodes) (hc : t.child p = some x) :
    t.parent x = some p ∧ t.prev x = none := by
  obtain ⟨l, hl⟩ := h.children p hp
  have hchain := hl.chained
  rw [hc] at hchain
  have hx := (hl.mem x).mp hchain.mem_of_start
  refine ⟨hx, Option.eq_none_iff_forall_ne_some.mpr fun y hy => ?_⟩
  have hnext := (h.inverse y x).mpr hy
  have hparent := (h.siblings y x hnext).symm.trans hx
  exact hchain.next_ne_start hl.nodup ((hl.mem y).mpr hparent) hnext

/-- A node without a parent is nobody's child. -/
theorem Children.notMem (h : t.Children p l) (hx : t.parent x ≠ some p) : x ∉ l :=
  fun hxl => hx ((h.mem x).mp hxl)

variable [DecidableEq κ]

theorem Children.remove (h : t.Children p l) (hw : t.WellFormed nodes) (hp : p ∈ nodes) (x : κ) :
    (t.remove x).Children p (l.erase x) := by
  have hfirst : t.child p = some x → t.parent x = some p := fun hc => (hw.prev_child hp hc).1
  have hchild : (t.remove x).child p = Chained.skip t.next x (t.child p) := by
    simp only [Links.remove, Chained.skip]
    split_ifs <;> simp_all
  have hnext : ∀ y ∈ l, y ≠ x → (t.remove x).next y = Chained.skip t.next x (t.next y) := by
    intro y _ hy
    simp only [Links.remove, Chained.skip, if_neg hy, hw.inverse y x]
  refine ⟨h.nodup.erase x, ?_, fun y => ?_⟩
  · rw [hchild]
    exact h.chained.erase h.nodup hnext
  · rw [h.nodup.mem_erase_iff, h.mem y]
    by_cases hy : y = x <;> simp [Links.remove, hy]

theorem remove_detached (t : Links κ) (x : κ) : (t.remove x).Detached x :=
  ⟨if_pos rfl, if_pos rfl, if_pos rfl⟩

theorem WellFormed.remove (h : t.WellFormed nodes) (x : κ) : (t.remove x).WellFormed nodes := by
  refine ⟨fun y p hp => ?_, fun p hp => ?_, fun y z => ?_, fun y z hz => ?_⟩
  · simp only [Links.remove] at hp
    split at hp
    · cases hp
    · exact h.present y p hp
  · obtain ⟨l, hl⟩ := h.children p hp
    exact ⟨_, hl.remove h hp x⟩
  · have hyz := h.inverse y z
    have hxz := h.inverse x z
    have hyx := h.inverse y x
    have hxx := h.inverse x x
    simp only [Links.remove]
    grind
  · have hyz := h.siblings y z
    have hxz := h.siblings x z
    have hyx := h.siblings y x
    have hinverse := h.inverse y x
    have hxx := h.inverse x x
    simp only [Links.remove] at hz ⊢
    grind

/-- The nodes that were there are chained as before. -/
theorem Children.addChild_next (h : t.Children q l) (hx : t.Detached x) (p : κ) :
    Chained (t.addChild p x).next (t.child q) l := by
  have hxl : x ∉ l := h.notMem (by simp [hx.parent])
  exact h.chained.congr fun y hy => if_neg fun hyx : y = x => hxl (hyx ▸ hy)

theorem Children.addChild (h : t.Children p l) (hx : t.Detached x) :
    (t.addChild p x).Children p (x :: l) := by
  have hxl : x ∉ l := h.notMem (by simp [hx.parent])
  have hnext : (t.addChild p x).next x = t.child p := by simp [Links.addChild, hx.next]
  refine ⟨List.nodup_cons.mpr ⟨hxl, h.nodup⟩, ⟨if_pos rfl, ?_⟩, fun y => ?_⟩
  · rw [hnext]
    exact h.addChild_next hx p
  · rw [List.mem_cons, h.mem y]
    by_cases hy : y = x <;> simp [Links.addChild, hy]

theorem Children.addChild_of_ne (h : t.Children q l) (hx : t.Detached x) (hq : q ≠ p) :
    (t.addChild p x).Children q l := by
  have hchild : (t.addChild p x).child q = t.child q := if_neg hq
  refine ⟨h.nodup, ?_, fun y => ?_⟩
  · rw [hchild]
    exact h.addChild_next hx p
  · rw [h.mem y]
    by_cases hy : y = x
    · simp [Links.addChild, hy, hx.parent, Ne.symm hq]
    · simp [Links.addChild, hy]

theorem WellFormed.addChild (h : t.WellFormed nodes) (hx : t.Detached x) (hp : p ∈ nodes) :
    (t.addChild p x).WellFormed nodes := by
  have hfirst : ∀ y, t.child p = some y → t.parent y = some p ∧ t.prev y = none := fun y =>
    h.prev_child hp
  refine ⟨fun y q hq => ?_, fun q hq => ?_, fun y z => ?_, fun y z hz => ?_⟩
  · simp only [Links.addChild] at hq
    split at hq
    · cases hq
      exact hp
    · exact h.present y q hq
  · obtain ⟨l, hl⟩ := h.children q hq
    by_cases hqp : q = p
    · subst hqp
      exact ⟨_, hl.addChild hx⟩
    · exact ⟨l, hl.addChild_of_ne hx hqp⟩
  · have hyz := h.inverse y z
    have hxz := h.inverse x z
    have hprev := hx.prev
    have hnext := hx.next
    simp only [Links.addChild]
    grind
  · have hyz := h.siblings y z
    have hyx := h.inverse y x
    have hprev := hx.prev
    have hnext := hx.next
    simp only [Links.addChild] at hz ⊢
    grind

theorem Children.addSibling_next (h : t.Children q l) (hx : t.Detached x) (hy : y ∈ l)
    (hys : y ≠ s) : (t.addSibling s x).next y = t.next y := by
  have hyx : y ≠ x := fun he => h.notMem (by simp [hx.parent]) (he ▸ hy)
  exact (if_neg hys).trans (if_neg hyx)

theorem Children.addSibling {xs ys : List κ} (h : t.Children q (xs ++ s :: ys))
    (hx : t.Detached x) : (t.addSibling s x).Children q (xs ++ s :: x :: ys) := by
  have hxl : x ∉ xs ++ s :: ys := h.notMem (by simp [hx.parent])
  have hs : t.parent s = some q := (h.mem s).mp (List.mem_append_right xs List.mem_cons_self)
  have hne : x ≠ s := fun hxs => hxl (hxs ▸ List.mem_append_right xs List.mem_cons_self)
  obtain ⟨hsl, -⟩ := List.nodup_cons.mp (List.nodup_middle.mp h.nodup)
  have hsplit : xs ++ s :: x :: ys = (xs ++ [s]) ++ x :: ys := by simp
  refine ⟨?_, h.chained.insert (if_pos rfl) ?_ fun y hy => ?_, fun y => ?_⟩
  · rw [hsplit, List.nodup_middle, List.nodup_cons, List.append_assoc, List.singleton_append]
    exact ⟨hxl, h.nodup⟩
  · exact (if_neg hne).trans (if_pos rfl)
  · have hmem : y ∈ xs ++ s :: ys := List.perm_middle.symm.subset (List.mem_cons_of_mem s hy)
    exact h.addSibling_next hx hmem fun hys => hsl (hys ▸ hy)
  · have hy := h.mem y
    simp only [Links.addSibling, List.mem_append, List.mem_cons] at hy ⊢
    by_cases hyx : y = x
    · simp [hyx, hs]
    · simp [hyx, hy]

theorem Children.addSibling_of_ne (h : t.Children q l) (hx : t.Detached x)
    (hs : t.parent s ≠ some q) : (t.addSibling s x).Children q l := by
  have hsl : s ∉ l := h.notMem hs
  refine ⟨h.nodup, h.chained.congr fun y hy => ?_, fun y => ?_⟩
  · exact h.addSibling_next hx hy fun hys => hsl (hys ▸ hy)
  · rw [h.mem y]
    by_cases hyx : y = x <;> simp [Links.addSibling, hyx, hx.parent, hs]

theorem WellFormed.addSibling (h : t.WellFormed nodes) (hx : t.Detached x) :
    (t.addSibling s x).WellFormed nodes := by
  refine ⟨fun y q hq => ?_, fun q hq => ?_, fun y z => ?_, fun y z hz => ?_⟩
  · simp only [Links.addSibling] at hq
    split at hq
    · exact h.present s q hq
    · exact h.present y q hq
  · obtain ⟨l, hl⟩ := h.children q hq
    by_cases hs : t.parent s = some q
    · obtain ⟨xs, ys, rfl⟩ := List.append_of_mem ((hl.mem s).mpr hs)
      exact ⟨_, hl.addSibling hx⟩
    · exact ⟨l, hl.addSibling_of_ne hx hs⟩
  · have hyz := h.inverse y z
    have hsz := h.inverse s z
    have hxz := h.inverse x z
    have hyx := h.inverse y x
    have hprev := hx.prev
    have hnext := hx.next
    simp only [Links.addSibling]
    grind
  · have hyz := h.siblings y z
    have hsz := h.siblings s z
    have hyx := h.inverse y x
    have hsx := h.inverse s x
    have hprev := hx.prev
    have hnext := hx.next
    simp only [Links.addSibling] at hz ⊢
    grind

end Edits

/-! ### Nodes below others -/

section Below
variable {t t' : Links κ} {x y p : κ}

theorem Acyclic.mono (h : t.Acyclic) (hp : ∀ y q, t'.parent y = some q → t.parent y = some q) :
    t'.Acyclic := fun y hy => h y (Relation.TransGen.mono hp y y hy)

/-- A way up by the pointers of `t` and one more, from `x` to `p`. -/
theorem transGen_of_join (hp : ∀ y q, t'.parent y = some q → t.parent y = some q ∨ y = x ∧ q = p)
    (hno : ¬ t.Below p x) {y z : κ} (h : Relation.TransGen t'.ParentOf y z) :
    Relation.TransGen t.ParentOf y z ∨ t.Below y x ∧ t.Below p z := by
  induction h with
  | single hstep =>
    rcases hp _ _ hstep with hold | ⟨rfl, rfl⟩
    · exact .inl (.single hold)
    · exact .inr ⟨.refl, .refl⟩
  | tail _ hstep ih =>
    rcases hp _ _ hstep with hold | ⟨rfl, rfl⟩
    · exact ih.imp (fun h => h.tail hold) fun h => ⟨h.1, h.2.tail hold⟩
    · rcases ih with h | h
      · exact .inr ⟨h.to_reflTransGen, .refl⟩
      · exact absurd h.2 hno

/-- A node gets a parent that is not below it. -/
theorem Acyclic.join (h : t.Acyclic)
    (hp : ∀ y q, t'.parent y = some q → t.parent y = some q ∨ y = x ∧ q = p)
    (hno : ¬ t.Below p x) : t'.Acyclic := by
  intro y hy
  rcases transGen_of_join hp hno hy with hold | ⟨hyx, hpy⟩
  · exact h y hold
  · exact hno (hpy.trans hyx)

variable [DecidableEq κ]

theorem Acyclic.remove (h : t.Acyclic) (x : κ) : (t.remove x).Acyclic :=
  h.mono fun y q hq => by
    simp only [Links.remove] at hq
    split at hq
    · cases hq
    · exact hq

theorem below_of_remove {z : κ} (h : (t.remove x).Below y z) : t.Below y z :=
  Relation.ReflTransGen.mono (fun y q hq => by
    simp only [ParentOf, Links.remove] at hq
    split at hq
    · cases hq
    · exact hq) y z h

theorem Acyclic.addChild (h : t.Acyclic) (hno : ¬ t.Below p x) : (t.addChild p x).Acyclic :=
  h.join (fun y q hq => by
    simp only [Links.addChild] at hq
    split at hq
    · exact .inr ⟨‹_›, (Option.some.inj hq).symm⟩
    · exact .inl hq) hno

theorem Acyclic.addSibling {s : κ} (h : t.Acyclic)
    (hno : ∀ p, t.parent s = some p → ¬ t.Below p x) : (t.addSibling s x).Acyclic := by
  cases hs : t.parent s with
  | none =>
    refine h.mono fun y q hq => ?_
    simp only [Links.addSibling, hs] at hq
    split at hq
    · cases hq
    · exact hq
  | some p =>
    refine h.join (fun y q hq => ?_) (hno p hs)
    simp only [Links.addSibling, hs] at hq
    split at hq
    · exact .inr ⟨‹_›, (Option.some.inj hq).symm⟩
    · exact .inl hq

end Below

/-! ### All the children of a node -/

section Families
variable [DecidableEq κ] {t : Links κ} {nodes : Set κ} {d p : κ} {l : List κ}

/-- The nodes one after the other become the first child of `p`. -/
def giveAll (p : κ) : List κ → Links κ → Links κ
  | [], t => t
  | x :: l, t => giveAll p l ((t.remove x).addChild p x)

/-- The nodes one after the other come right behind `s`. -/
def releaseAll (s : κ) : List κ → Links κ → Links κ
  | [], t => t
  | x :: l, t => releaseAll s l ((t.remove x).addSibling s x)

theorem WellFormed.give (h : t.WellFormed nodes) (hp : p ∈ nodes) (x : κ) :
    ((t.remove x).addChild p x).WellFormed nodes :=
  (h.remove x).addChild (remove_detached t x) hp

theorem Children.give {x : κ} (hl : t.Children d (x :: l)) (h : t.WellFormed nodes) (hd : d ∈ nodes)
    (hne : d ≠ p) : ((t.remove x).addChild p x).Children d l := by
  have hrest := hl.remove h hd x
  rw [List.erase_cons_head] at hrest
  exact hrest.addChild_of_ne (remove_detached t x) hne

theorem give_parent (t : Links κ) (p x y : κ) :
    ((t.remove x).addChild p x).parent y = if y = x then some p else t.parent y := by
  by_cases hy : y = x <;> simp [Links.addChild, Links.remove, hy]

/-- By induction on the children of `d`. -/
theorem giveAll_wellFormed (h : t.WellFormed nodes) (hp : p ∈ nodes) (hd : d ∈ nodes) (hne : d ≠ p)
    (hl : t.Children d l) : (giveAll p l t).WellFormed nodes ∧ (giveAll p l t).Children d [] ∧
      ∀ y, (giveAll p l t).parent y = if t.parent y = some d then some p else t.parent y := by
  induction l generalizing t with
  | nil =>
    refine ⟨h, hl, fun y => ?_⟩
    rw [if_neg fun hy => List.not_mem_nil ((hl.mem y).mpr hy)]
    rfl
  | cons x l ih =>
    obtain ⟨hwell, hnone, hparent⟩ := ih (h.give hp x) (hl.give h hd hne)
    refine ⟨hwell, hnone, fun y => (hparent y).trans ?_⟩
    have hx := (hl.mem x).mp List.mem_cons_self
    rw [give_parent]
    by_cases hy : y = x
    · subst hy
      simp [hx, Ne.symm hne]
    · simp [hy]

/-- Where the new parent was not below the node, it is below nothing new. -/
theorem below_of_give {x y : κ} (hno : ¬ t.Below p x)
    (h : ((t.remove x).addChild p x).Below p y) : t.Below p y := by
  induction h with
  | refl => exact .refl
  | @tail b z _ hstep ih =>
    have hb : b ≠ x := fun hbx => hno (hbx ▸ ih)
    have hold := give_parent t p x b
    rw [if_neg hb] at hold
    exact ih.tail (hold.symm.trans hstep)

theorem giveAll_acyclic (h : t.WellFormed nodes) (hp : p ∈ nodes) (hd : d ∈ nodes) (hne : d ≠ p)
    (hl : t.Children d l) (ha : t.Acyclic) (hno : ¬ t.Below p d) : (giveAll p l t).Acyclic := by
  induction l generalizing t with
  | nil => exact ha
  | cons x l ih =>
    have hx : t.parent x = some d := (hl.mem x).mp List.mem_cons_self
    have hpx : ¬ t.Below p x := fun hpx => hno (hpx.tail hx)
    have hround := (ha.remove x).addChild fun hb => hpx (below_of_remove hb)
    exact ih (h.give hp x) (hl.give h hd hne) hround fun hb => hno (below_of_give hpx hb)

theorem Children.release {x : κ} (hl : t.Children d (x :: l)) (h : t.WellFormed nodes)
    (hd : d ∈ nodes) (hself : t.parent d ≠ some d) :
    ((t.remove x).addSibling d x).Children d l := by
  have hrest := hl.remove h hd x
  rw [List.erase_cons_head] at hrest
  refine hrest.addSibling_of_ne (remove_detached t x) fun hparent => hself ?_
  simp only [Links.remove] at hparent
  split at hparent
  · cases hparent
  · exact hparent

theorem release_parent (t : Links κ) {d x : κ} (hx : x ≠ d) (y : κ) :
    ((t.remove x).addSibling d x).parent y = if y = x then t.parent d else t.parent y := by
  by_cases hy : y = x <;> simp [Links.addSibling, Links.remove, hy, Ne.symm hx]

/-- By induction on the children of `d`. -/
theorem releaseAll_wellFormed (h : t.WellFormed nodes) (hd : d ∈ nodes)
    (hself : t.parent d ≠ some d) (hl : t.Children d l) :
    (releaseAll d l t).WellFormed nodes ∧ (releaseAll d l t).Children d [] ∧
      ∀ y, (releaseAll d l t).parent y =
        if t.parent y = some d then t.parent d else t.parent y := by
  induction l generalizing t with
  | nil =>
    refine ⟨h, hl, fun y => ?_⟩
    rw [if_neg fun hy => List.not_mem_nil ((hl.mem y).mpr hy)]
    rfl
  | cons x l ih =>
    have hx : t.parent x = some d := (hl.mem x).mp List.mem_cons_self
    have hxd : x ≠ d := fun hxd => hself (hxd ▸ hx)
    have hround := release_parent t hxd
    have hparentd := hround d
    rw [if_neg (Ne.symm hxd)] at hparentd
    obtain ⟨hwell, hnone, hparent⟩ := ih ((h.remove x).addSibling (remove_detached t x))
      (by rwa [hparentd]) (hl.release h hd hself)
    refine ⟨hwell, hnone, fun y => (hparent y).trans ?_⟩
    rw [hround, hparentd]
    by_cases hy : y = x
    · subst hy
      simp [hx, hself]
    · simp [hy]

theorem releaseAll_acyclic (h : t.WellFormed nodes) (hd : d ∈ nodes) (hl : t.Children d l)
    (ha : t.Acyclic) : (releaseAll d l t).Acyclic := by
  induction l generalizing t with
  | nil => exact ha
  | cons x l ih =>
    have hx : t.parent x = some d := (hl.mem x).mp List.mem_cons_self
    have hself : t.parent d ≠ some d := fun hself => ha d (.single hself)
    have hxd : x ≠ d := fun hxd => hself (hxd ▸ hx)
    have hround : ((t.remove x).addSibling d x).Acyclic := by
      refine (ha.remove x).addSibling fun p hp hpx => ?_
      have hdp : t.parent d = some p := by
        simpa [Links.remove, Ne.symm hxd] using hp
      exact ha x (.head hx (.head' hdp (below_of_remove hpx)))
    exact ih ((h.remove x).addSibling (remove_detached t x)) (hl.release h hd hself) hround

end Families

/-! ### Nodes outside of the trees -/

/-- The node has no children either. -/
structure Loose {κ : Type*} (t : Links κ) (x : κ) : Prop extends t.Detached x where
  child : t.child x = none

section Loose
variable {κ : Type*} {t : Links κ} {nodes : Set κ} {x y p d : κ} {l : List κ}

theorem Loose.not_parent (h : t.Loose x) (hw : t.WellFormed nodes) : t.parent y ≠ some x := by
  intro hy
  obtain ⟨l, hl⟩ := hw.children x (hw.present y x hy)
  have hstart := hl.chained.start_eq
  rw [h.child] at hstart
  have hmem := (hl.mem y).mpr hy
  rw [List.head?_eq_none_iff.mp hstart.symm] at hmem
  exact List.not_mem_nil hmem

/-- Nothing else is below it. -/
theorem Loose.not_below (h : t.Loose x) (hw : t.WellFormed nodes) (hne : y ≠ x) :
    ¬ t.Below y x := by
  intro hb
  rcases Relation.ReflTransGen.cases_tail hb with rfl | ⟨z, -, hz⟩
  · exact hne rfl
  · exact h.not_parent hw hz

variable [DecidableEq κ]

theorem Loose.remove (h : t.Loose x) (hw : t.WellFormed nodes) (y : κ) : (t.remove y).Loose x := by
  have hnext : t.next y ≠ some x := fun hy => by
    have := (hw.inverse y x).mp hy
    rw [h.prev] at this
    cases this
  have hprev : t.prev y ≠ some x := fun hy => by
    have := (hw.inverse x y).mpr hy
    rw [h.next] at this
    cases this
  refine ⟨⟨?_, ?_, ?_⟩, ?_⟩
  · simp [Links.remove, h.parent]
  · simp [Links.remove, h.prev, hnext]
  · simp [Links.remove, h.next, hprev]
  · simp [Links.remove, h.child, h.not_parent hw]

theorem Loose.addChild (h : t.Loose x) (hw : t.WellFormed nodes) (hp : p ∈ nodes) (hxp : x ≠ p)
    (hxy : x ≠ y) : (t.addChild p y).Loose x := by
  have hchild : t.child p ≠ some x := fun hc => by
    have := (hw.prev_child hp hc).1
    rw [h.parent] at this
    cases this
  refine ⟨⟨?_, ?_, ?_⟩, ?_⟩
  · simp [Links.addChild, h.parent, hxy]
  · simp [Links.addChild, h.prev, hchild]
  · simp [Links.addChild, h.next, hxy]
  · simp [Links.addChild, h.child, hxp]

theorem Loose.giveAll (h : t.Loose x) (hw : t.WellFormed nodes) (hp : p ∈ nodes) (hxp : x ≠ p)
    (hx : x ∉ l) : (giveAll p l t).Loose x := by
  induction l generalizing t with
  | nil => exact h
  | cons y l ih =>
    obtain ⟨hxy, hxl⟩ := not_or.mp (mt List.mem_cons.mpr hx)
    exact ih ((h.remove hw y).addChild (hw.remove y) hp hxp hxy) (hw.give hp y) hxl

end Loose
end Links
end Racoon.Lib
