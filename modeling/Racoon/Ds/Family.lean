import Racoon.Machine

/-!
# Family trees and linear lists

`ds/family.h` and `ds/list.h`: the pointers by which threads, and processes, are
tied to their parents, children and siblings and to the list of all of them. The
objects are given by their addresses.
-/

namespace Racoon.Families

/-- `struct ds_family_tree` and `struct ds_list` of an object. -/
structure Ties where
  parent : Option ℕ
  child : Option ℕ
  siblingPrev : Option ℕ
  siblingNext : Option ℕ
  prev : Option ℕ
  next : Option ℕ
  deriving DecidableEq, Repr

abbrev Kin := ℕ → Option Ties

/-- `if ( p != NULL ) p->field = ..` -/
def modifyIf (h : Kin) (p : Option ℕ) (f : Ties → Ties) : Outcome Kin :=
  match p with
  | none => .ok h
  | some p => modify h (some p) f

/-- What `family_init` and `list_init` leave. -/
def untied : Ties := ⟨none, none, none, none, none, none⟩

def familyRemove (h : Kin) (fam : ℕ) : Outcome Kin := do
  let x ← load h (some fam)
  let h ← modifyIf h x.parent fun p =>
    if p.child = some fam then { p with child := x.siblingNext } else p
  let h ← modifyIf h x.siblingPrev fun p => { p with siblingNext := x.siblingNext }
  let h ← modifyIf h x.siblingNext fun p => { p with siblingPrev := x.siblingPrev }
  modify h (some fam) fun x => { x with parent := none, siblingNext := none, siblingPrev := none }

/-- `if ( parent->child != NULL )`, for the child `first` -/
def putBefore (h : Kin) (first : Option ℕ) (fam : ℕ) : Outcome Kin :=
  match first with
  | none => .ok h
  | some child => do
    let h ← modify h (some child) fun c => { c with siblingPrev := some fam }
    modify h (some fam) fun x => { x with siblingNext := some child }

def familyAddChild (h : Kin) (parent fam : ℕ) : Outcome Kin := do
  let p ← load h (some parent)
  let h ← putBefore h p.child fam
  let h ← modify h (some parent) fun p => { p with child := some fam }
  modify h (some fam) fun x => { x with parent := some parent }

def familyAddSibling (h : Kin) (bro fam : ℕ) : Outcome Kin := do
  let b ← load h (some bro)
  let h ← modifyIf h b.siblingNext fun p => { p with siblingPrev := some fam }
  let h ← modify h (some fam) fun x =>
    { x with siblingNext := b.siblingNext, siblingPrev := some bro }
  let h ← modify h (some bro) fun b => { b with siblingNext := some fam }
  modify h (some fam) fun x => { x with parent := b.parent }

/-- The loop of `family_adopt` over the children, with a bound on their number. -/
def adoptFrom (stepParent : ℕ) : ℕ → Kin → Option ℕ → Outcome Kin
  | _, h, none => .ok h
  | 0, _, some _ => .error .diverges
  | left + 1, h, some tmp => do
    let x ← load h (some tmp)
    let s ← load h (some stepParent)
    let h ← modify h (some tmp) fun x =>
      { x with parent := some stepParent, siblingPrev := none, siblingNext := s.child }
    let h ← modifyIf h s.child fun c => { c with siblingPrev := some tmp }
    let h ← modify h (some stepParent) fun s => { s with child := some tmp }
    adoptFrom stepParent left h x.siblingNext

def familyAdopt (left : ℕ) (h : Kin) (stepParent deadParent : ℕ) : Outcome Kin := do
  let d ← load h (some deadParent)
  let h ← adoptFrom stepParent left h d.child
  modify h (some deadParent) fun d => { d with child := none }

def listRemove (h : Kin) (l : ℕ) : Outcome Kin := do
  let x ← load h (some l)
  let h ← modifyIf h x.prev fun p => { p with next := x.next }
  let h ← modifyIf h x.next fun p => { p with prev := x.prev }
  modify h (some l) fun x => { x with prev := none, next := none }

def listInsertAfter (h : Kin) (position l : ℕ) : Outcome Kin := do
  let p ← load h (some position)
  let h ← modify h (some l) fun x => { x with prev := some position, next := p.next }
  let h ← modify h (some position) fun p => { p with next := some l }
  modifyIf h p.next fun x => { x with prev := some l }

end Racoon.Families
