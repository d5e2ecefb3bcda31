import Mathlib.Tactic
import Mathlib.Data.Finset.Card

/-!
# Histories in which things are opened and closed

`replay` reads a history from the things that are open at its beginning to those
that are open at its end. It fails where a thing is opened that is open already
or closed that is not open, so that in a history it gets through each thing is
opened and closed in turns.
-/

namespace Racoon.Lib

/-- What an event is to the history. -/
inductive Mark (α : Type*)
  | opened (a : α)
  | closed (a : α)
  | other
  deriving DecidableEq

def Mark.isOpened {α : Type*} : Mark α → Bool
  | .opened _ => true
  | _ => false

def Mark.isClosed {α : Type*} : Mark α → Bool
  | .closed _ => true
  | _ => false

variable {ε α : Type*} [DecidableEq α]

def replay (mark : ε → Mark α) : Finset α → List ε → Option (Finset α)
  | S, [] => some S
  | S, e :: es =>
    match mark e with
    | .opened a => if a ∈ S then none else replay mark (insert a S) es
    | .closed a => if a ∈ S then replay mark (S.erase a) es else none
    | .other => replay mark S es

section Replay
variable {mark : ε → Mark α} {S T : Finset α} {es fs : List ε}

theorem replay_append :
    replay mark S (es ++ fs) = (replay mark S es).bind fun T => replay mark T fs := by
  induction es generalizing S with
  | nil => rfl
  | cons e es ih =>
    rw [List.cons_append, replay, replay]
    split
    · split_ifs
      · rfl
      · exact ih
    · split_ifs
      · exact ih
      · rfl
    · exact ih

theorem replay_trans {U : Finset α} (h : replay mark S es = some T)
    (h' : replay mark T fs = some U) : replay mark S (es ++ fs) = some U := by
  rw [replay_append, h]
  exact h'

theorem replay_other (h : ∀ e ∈ es, mark e = .other) : replay mark S es = some S := by
  induction es with
  | nil => rfl
  | cons e es ih =>
    rw [replay, h e List.mem_cons_self]
    exact ih fun f hf => h f (List.mem_cons_of_mem e hf)

theorem replay_opened {β : Type*} {bs : List β} {f : β → ε} {g : β → α}
    (hf : ∀ b, mark (f b) = .opened (g b)) (hd : (bs.map g).Nodup) (hS : ∀ a ∈ bs.map g, a ∉ S) :
    replay mark S (bs.map f) = some (S ∪ (bs.map g).toFinset) := by
  induction bs generalizing S with
  | nil => simp [replay]
  | cons b bs ih =>
    rw [List.map_cons] at hd hS
    obtain ⟨hb, hd⟩ := List.nodup_cons.mp hd
    rw [List.map_cons, replay, hf]
    dsimp only
    rw [if_neg (hS _ List.mem_cons_self), ih hd fun a ha => ?_]
    · simp [Finset.insert_union]
    · rw [Finset.mem_insert, not_or]
      exact ⟨fun he => hb (he ▸ ha), hS a (List.mem_cons_of_mem _ ha)⟩

theorem replay_closed {β : Type*} {bs : List β} {f : β → ε} {g : β → α}
    (hf : ∀ b, mark (f b) = .closed (g b)) (hd : (bs.map g).Nodup) (hS : ∀ a ∈ bs.map g, a ∈ S) :
    replay mark S (bs.map f) = some (S \ (bs.map g).toFinset) := by
  induction bs generalizing S with
  | nil => simp [replay]
  | cons b bs ih =>
    rw [List.map_cons] at hd hS
    obtain ⟨hb, hd⟩ := List.nodup_cons.mp hd
    rw [List.map_cons, replay, hf]
    dsimp only
    rw [if_pos (hS _ List.mem_cons_self), ih hd fun a ha => ?_]
    · rw [List.map_cons, List.toFinset_cons, Finset.sdiff_insert, Finset.erase_sdiff_comm]
    · exact Finset.mem_erase.mpr ⟨fun he => hb (he ▸ ha), hS a (List.mem_cons_of_mem _ ha)⟩

theorem replay_closed_each {as : List α} {f : α → ε} (hf : ∀ a, mark (f a) = .closed a)
    (hd : as.Nodup) (hS : ∀ a ∈ as, a ∈ S) :
    replay mark S (as.map f) = some (S \ as.toFinset) := by
  have h := replay_closed (g := id) (S := S) hf (by rwa [List.map_id]) (by rwa [List.map_id])
  rwa [List.map_id] at h

theorem toFinset_append_sdiff {as bs : List α} (h : (as ++ bs).Nodup) :
    (as ++ bs).toFinset \ as.toFinset = bs.toFinset := by
  have hdis := List.disjoint_toFinset_iff_disjoint.mpr (List.disjoint_of_nodup_append h)
  rw [List.toFinset_append, Finset.union_sdiff_cancel_left hdis]

/-- A history in pieces, each of which closes some of the things. -/
theorem replay_flatMap_closed {β : Type*} {xs : List β} {f : β → List ε} {as : β → List α}
    (hf : ∀ x ∈ xs, ∀ S : Finset α, (∀ a ∈ as x, a ∈ S) →
      replay mark S (f x) = some (S \ (as x).toFinset))
    (hd : (xs.flatMap as).Nodup) (hS : ∀ a ∈ xs.flatMap as, a ∈ S) :
    replay mark S (xs.flatMap f) = some (S \ (xs.flatMap as).toFinset) := by
  induction xs generalizing S with
  | nil => simp [replay]
  | cons x xs ih =>
    rw [List.flatMap_cons] at hd hS
    obtain ⟨-, hd', hdis⟩ := List.nodup_append.mp hd
    have hx := hf x List.mem_cons_self S fun a ha => hS a (List.mem_append_left _ ha)
    have hxs : ∀ a ∈ xs.flatMap as, a ∈ S \ (as x).toFinset := fun a ha => by
      refine Finset.mem_sdiff.mpr ⟨hS a (List.mem_append_right _ ha), fun hax => ?_⟩
      exact hdis a (List.mem_toFinset.mp hax) a ha rfl
    rw [List.flatMap_cons, replay_trans hx
      (ih (fun y hy => hf y (List.mem_cons_of_mem x hy)) hd' hxs),
      List.flatMap_cons, List.toFinset_append, sdiff_sdiff]
    rfl

/-- How often a thing is opened and closed, from what it was and what it is. -/
theorem count_of_replay (h : replay mark S es = some T) (a : α) :
    es.countP (fun e => mark e = .opened a) + (if a ∈ S then 1 else 0) =
      es.countP (fun e => mark e = .closed a) + if a ∈ T then 1 else 0 := by
  induction es generalizing S with
  | nil =>
    obtain rfl := Option.some.inj h
    rfl
  | cons e es ih =>
    rw [replay] at h
    rw [List.countP_cons, List.countP_cons]
    cases he : mark e with
    | opened b =>
      rw [he] at h
      dsimp only at h
      split_ifs at h with hb
      have := ih h
      by_cases hab : a = b
      · subst hab
        simp only [Finset.mem_insert_self, if_true, hb, if_false] at this ⊢
        simp
        omega
      · have hba : ¬ b = a := fun h => hab h.symm
        simp only [Finset.mem_insert, hab, false_or] at this
        simpa [hba] using this
    | closed b =>
      rw [he] at h
      dsimp only at h
      split_ifs at h with hb
      have := ih h
      by_cases hab : a = b
      · subst hab
        simp only [Finset.mem_erase, ne_eq, not_true, false_and, if_false, hb, if_true] at this ⊢
        simp
        omega
      · have hba : ¬ b = a := fun h => hab h.symm
        simp only [Finset.mem_erase, ne_eq, hab, not_false_eq_true, true_and] at this
        simpa [hba] using this
    | other =>
      rw [he] at h
      simpa using ih h

/-- In a history that closes nothing the things that are new are opened, once each. -/
theorem counts_of_opening (h : replay mark S es = some T)
    (hno : ∀ e ∈ es, (mark e).isClosed = false) (a : α) :
    es.countP (fun e => mark e = .opened a) = (if a ∈ T \ S then 1 else 0) ∧
      es.countP (fun e => mark e = .closed a) = if a ∈ S \ T then 1 else 0 := by
  have hcount := count_of_replay h a
  have hclosed : es.countP (fun e => mark e = .closed a) = 0 :=
    List.countP_eq_zero.mpr fun e he heq => by
      have := hno e he
      rw [of_decide_eq_true heq] at this
      cases this
  rw [hclosed] at hcount ⊢
  simp only [Finset.mem_sdiff]
  by_cases hS : a ∈ S <;> by_cases hT : a ∈ T <;> simp_all

/-- In a history that opens nothing the things that go are closed, once each. -/
theorem counts_of_closing (h : replay mark S es = some T)
    (hno : ∀ e ∈ es, (mark e).isOpened = false) (a : α) :
    es.countP (fun e => mark e = .opened a) = (if a ∈ T \ S then 1 else 0) ∧
      es.countP (fun e => mark e = .closed a) = if a ∈ S \ T then 1 else 0 := by
  have hcount := count_of_replay h a
  have hopened : es.countP (fun e => mark e = .opened a) = 0 :=
    List.countP_eq_zero.mpr fun e he heq => by
      have := hno e he
      rw [of_decide_eq_true heq] at this
      cases this
  rw [hopened] at hcount ⊢
  simp only [Finset.mem_sdiff]
  by_cases hS : a ∈ S <;> by_cases hT : a ∈ T <;> simp_all

/-- All openings and closings together. -/
theorem card_of_replay (h : replay mark S es = some T) :
    es.countP (fun e => (mark e).isOpened) + S.card =
      es.countP (fun e => (mark e).isClosed) + T.card := by
  induction es generalizing S with
  | nil =>
    obtain rfl := Option.some.inj h
    rfl
  | cons e es ih =>
    rw [replay] at h
    rw [List.countP_cons, List.countP_cons]
    cases he : mark e with
    | opened a =>
      rw [he] at h
      dsimp only at h
      split_ifs at h with ha
      have hrest := ih h
      rw [Finset.card_insert_of_notMem ha] at hrest
      change es.countP (fun e => (mark e).isOpened) + 1 + S.card =
        es.countP (fun e => (mark e).isClosed) + 0 + T.card
      omega
    | closed a =>
      rw [he] at h
      dsimp only at h
      split_ifs at h with ha
      have hrest := ih h
      have hcard := Finset.card_erase_add_one ha
      change es.countP (fun e => (mark e).isOpened) + 0 + S.card =
        es.countP (fun e => (mark e).isClosed) + 1 + T.card
      omega
    | other =>
      rw [he] at h
      exact ih h

end Replay
end Racoon.Lib
