import Racoon.Ualloc.UserMemory

/-!
# The records of a process

The list of records behind `proc->alloc`, with the address of each and what it
says: a new record comes to its head, and any record can leave it. A search ends
at the first record with the address.
-/

namespace Racoon.Ualloc
open Lib
open Sharing (walkBound)

/-- The list has these records, at these addresses. -/
structure Listed (mems : ℕ → Option AllocatedMemory) (head : Option ℕ) (l : List (ℕ × Record)) :
    Prop where
  linked : Linked (via AllocatedMemory.next mems) (via AllocatedMemory.prev mems) none
    (l.map Prod.fst) none
  head : head = (l.map Prod.fst).head?
  nodup : (l.map Prod.fst).Nodup
  alive : ∀ x ∈ l, ∃ v, mems x.1 = some v ∧ v.toRecord = x.2
  bound : ∀ x ∈ l, x.1 < walkBound

variable {mems mems' : ℕ → Option AllocatedMemory} {head : Option ℕ} {l xs ys : List (ℕ × Record)}
  {s : State} {p : ℕ} {r : Record}

theorem listed_nil (mems : ℕ → Option AllocatedMemory) : Listed mems none [] :=
  ⟨trivial, rfl, List.nodup_nil, by simp, by simp⟩

namespace Listed

theorem congr (h : Listed mems head l) (he : ∀ x ∈ l, mems' x.1 = mems x.1) :
    Listed mems' head l := by
  have hat : ∀ q ∈ l.map Prod.fst, mems' q = mems q := by
    intro q hq
    obtain ⟨x, hx, rfl⟩ := List.mem_map.mp hq
    exact he x hx
  refine ⟨h.linked.congr (fun q hq => ?_) (fun q hq => ?_), h.head, h.nodup, fun x hx => ?_,
    h.bound⟩
  · rw [via, hat q hq, via]
  · rw [via, hat q hq, via]
  · rw [he x hx]
    exact h.alive x hx

theorem length_le (h : Listed mems head l) : l.length ≤ walkBound := by
  have hsub : l.map Prod.fst ⊆ List.range walkBound := by
    intro q hq
    obtain ⟨x, hx, rfl⟩ := List.mem_map.mp hq
    exact List.mem_range.mpr (h.bound x hx)
  simpa using (h.nodup.subperm hsub).length_le

/-- Memory that `kmalloc` returns is not that of a record. -/
theorem fresh (h : Listed mems head l) (hp : mems p = none) : ∀ x ∈ l, x.1 ≠ p := by
  rintro x hx rfl
  obtain ⟨v, hv, -⟩ := h.alive x hx
  rw [hp] at hv
  cases hv

theorem findFrom_eq (h : Listed mems head l) (ptr : ℕ) :
    findFrom mems ptr walkBound head =
      .ok ((l.find? fun x => x.2.virt = ptr).map Prod.fst) := by
  suffices hw : ∀ (l : List (ℕ × Record)) left prev, l.length ≤ left →
      (∀ x ∈ l, ∃ v, mems x.1 = some v ∧ v.toRecord = x.2) →
      Linked (via AllocatedMemory.next mems) (via AllocatedMemory.prev mems) prev
        (l.map Prod.fst) none →
      findFrom mems ptr left (l.map Prod.fst).head? =
        .ok ((l.find? fun x => x.2.virt = ptr).map Prod.fst) by
    rw [h.head]
    exact hw l walkBound none h.length_le h.alive h.linked
  intro l
  induction l with
  | nil =>
    intro left prev _ _ _
    cases left <;> rfl
  | cons x rest ih =>
    intro left prev hlen halive hlinked
    obtain ⟨left, rfl⟩ : ∃ n, left = n + 1 := ⟨left - 1, by simp at hlen; omega⟩
    obtain ⟨v, hv, hx⟩ := halive x List.mem_cons_self
    obtain ⟨-, hnext, hrest⟩ := hlinked
    rw [via_of hv, Option.or_none] at hnext
    have hvirt : v.virt = x.2.virt := by rw [← hx]
    rw [List.map_cons, List.head?_cons, findFrom, load_some hv, ok_bind, hvirt, List.find?_cons]
    by_cases hptr : x.2.virt = ptr
    · simp [hptr]
    · simp only [hptr, if_false, decide_false]
      rw [hnext]
      exact ih left (some x.1) (by simpa using hlen)
        (fun y hy => halive y (List.mem_cons_of_mem x hy)) hrest

end Listed

theorem find_eq (h : Listed s.mems s.alloc l) (ptr : ℕ) :
    s.find ptr = .ok ((l.find? fun x => x.2.virt = ptr).map Prod.fst) :=
  h.findFrom_eq ptr

theorem setPrev_eq (mems : ℕ → Option AllocatedMemory) (x prev : Option ℕ)
    (h : ∀ q, x = some q → ∃ v, mems q = some v) :
    ∃ mems', setPrev mems x prev = .ok mems' ∧
      ∀ q, mems' q = (mems q).map fun v => if x = some q then { v with prev := prev } else v := by
  cases x with
  | none => exact ⟨mems, rfl, fun q => by simp⟩
  | some a =>
    obtain ⟨v, hv⟩ := h a rfl
    refine ⟨_, modify_some hv _, fun q => ?_⟩
    by_cases hq : q = a
    · simp [hq, hv]
    · simp [hq, Ne.symm hq]

theorem setNext_eq (mems : ℕ → Option AllocatedMemory) (x next : Option ℕ)
    (h : ∀ q, x = some q → ∃ v, mems q = some v) :
    ∃ mems', setNext mems x next = .ok mems' ∧
      ∀ q, mems' q = (mems q).map fun v => if x = some q then { v with next := next } else v := by
  cases x with
  | none => exact ⟨mems, rfl, fun q => by simp⟩
  | some a =>
    obtain ⟨v, hv⟩ := h a rfl
    refine ⟨_, modify_some hv _, fun q => ?_⟩
    by_cases hq : q = a
    · simp [hq, hv]
    · simp [hq, Ne.symm hq]

/-- The new record is at the head. -/
theorem insert_eq (h : Listed s.mems s.alloc l) (hp : s.mems p = none) (hb : p < walkBound)
    (r : Record) : ∃ mems', s.insert p r = .ok { s with mems := mems', alloc := some p } ∧
      Listed mems' (some p) ((p, r) :: l) := by
  have hfresh := h.fresh hp
  have hne : ∀ q ∈ l.map Prod.fst, q ≠ p := by
    intro q hq
    obtain ⟨x, hx, rfl⟩ := List.mem_map.mp hq
    exact hfresh x hx
  have halive : ∀ q ∈ l.map Prod.fst, ∃ v, s.mems q = some v := by
    intro q hq
    obtain ⟨x, hx, rfl⟩ := List.mem_map.mp hq
    obtain ⟨v, hv, -⟩ := h.alive x hx
    exact ⟨v, hv⟩
  obtain ⟨mems', hrun, hat⟩ := setPrev_eq
    (Function.update s.mems p (some { r with prev := none, next := s.alloc })) s.alloc (some p)
    fun q hq => by
      have hq : q ∈ l.map Prod.fst := List.mem_of_mem_head? (h.head ▸ hq)
      obtain ⟨v, hv⟩ := halive q hq
      exact ⟨v, by rw [Function.update_of_ne (hne q hq), hv]⟩
  have hpalloc : ¬ s.alloc = some p := by
    intro he
    exact hne p (List.mem_of_mem_head? (h.head ▸ he)) rfl
  have hself : mems' p = some { r with prev := none, next := s.alloc } := by
    rw [hat, Function.update_self, Option.map_some, if_neg hpalloc]
  have hother : ∀ q ∈ l.map Prod.fst, mems' q = (s.mems q).map fun v =>
      if s.alloc = some q then { v with prev := some p } else v := by
    intro q hq
    rw [hat, Function.update_of_ne (hne q hq)]
  refine ⟨mems', by rw [State.insert, hrun, ok_bind], ⟨?_, rfl, ?_, ?_, ?_⟩⟩
  · have hl : Linked _ _ none ([] ++ l.map Prod.fst) none := h.linked
    apply @Linked.link _ _ _ _ _ _ _ _ [] _ _ hl h.nodup
    · rw [via_of hself, Option.or_none]
      exact h.head
    · rw [via_of hself]
      rfl
    · intro q hq
      obtain ⟨v, hv⟩ := halive q hq
      have hq := hother q hq
      rw [hv, Option.map_some] at hq
      rw [via_of hq, via_of hv]
      split_ifs <;> simp_all
    · intro q hq
      obtain ⟨v, hv⟩ := halive q hq
      have hq := hother q hq
      rw [hv, Option.map_some] at hq
      rw [via_of hq, via_of hv, h.head]
      split_ifs <;> rfl
  · exact List.nodup_cons.mpr ⟨fun hm => hne p hm rfl, h.nodup⟩
  · intro x hx
    rcases List.mem_cons.mp hx with rfl | hx
    · exact ⟨_, hself, rfl⟩
    · obtain ⟨v, hv, hr⟩ := h.alive x hx
      have hq := hother x.1 (List.mem_map_of_mem hx)
      rw [hv, Option.map_some] at hq
      refine ⟨_, hq, ?_⟩
      split_ifs <;> exact hr
  · intro x hx
    rcases List.mem_cons.mp hx with rfl | hx
    · exact hb
    · exact h.bound x hx

/-- A record leaves the list and is there still. -/
theorem unlink_eq (h : Listed s.mems s.alloc l) (hl : l = xs ++ (p, r) :: ys) :
    ∃ mems' head', s.unlink p = .ok { s with mems := mems', alloc := head' } ∧
      Listed mems' head' (xs ++ ys) ∧ ∃ v, mems' p = some v ∧ v.toRecord = r := by
  subst hl
  have hsub : ∀ x ∈ xs ++ ys, x ∈ xs ++ (p, r) :: ys := fun x hx => by
    rcases List.mem_append.mp hx with hx | hx <;> simp [hx]
  have hmap : (xs ++ (p, r) :: ys).map Prod.fst = xs.map Prod.fst ++ p :: ys.map Prod.fst := by
    simp
  have hlinked := h.linked
  have hnodup := h.nodup
  rw [hmap] at hlinked hnodup
  have hmid := List.nodup_middle.mp hnodup
  have hpl : p ∉ xs.map Prod.fst ++ ys.map Prod.fst := (List.nodup_cons.mp hmid).1
  obtain ⟨v, hv, hr⟩ := h.alive (p, r) (by simp)
  obtain ⟨hprev, hnext⟩ := hlinked.at_mid
  rw [via_of hv, Option.or_none] at hprev hnext
  have halive : ∀ q ∈ xs.map Prod.fst ++ ys.map Prod.fst, ∃ w, s.mems q = some w := by
    intro q hq
    rw [← List.map_append] at hq
    obtain ⟨x, hx, rfl⟩ := List.mem_map.mp hq
    obtain ⟨w, hw, -⟩ := h.alive x (hsub x hx)
    exact ⟨w, hw⟩
  have hlast : ∀ q, (xs.map Prod.fst).getLast? = some q → q ∈ xs.map Prod.fst ++ ys.map Prod.fst :=
    fun q hq => List.mem_append_left _ (List.mem_of_getLast? hq)
  have hfirst : ∀ q, (ys.map Prod.fst).head? = some q → q ∈ xs.map Prod.fst ++ ys.map Prod.fst :=
    fun q hq => List.mem_append_right _ (List.mem_of_mem_head? hq)
  obtain ⟨mems₁, hrun₁, h₁⟩ := setPrev_eq s.mems v.next v.prev
    fun q hq => halive q (hfirst q (hnext ▸ hq))
  obtain ⟨mems₂, hrun₂, h₂⟩ := setNext_eq mems₁ v.prev v.next fun q hq => by
    obtain ⟨w, hw⟩ := halive q (hlast q (hprev ▸ hq))
    exact ⟨_, by rw [h₁, hw, Option.map_some]⟩
  have hat : ∀ q w, s.mems q = some w → mems₂ q = some { w with
      next := if (xs.map Prod.fst).getLast? = some q then (ys.map Prod.fst).head? else w.next
      prev := if (ys.map Prod.fst).head? = some q then
        (xs.map Prod.fst).getLast? else w.prev } := by
    intro q w hw
    rw [h₂, h₁, hw, Option.map_some, Option.map_some, hprev, hnext]
    split_ifs <;> rfl
  have hp₁ : ¬ (xs.map Prod.fst).getLast? = some p := fun he => hpl (hlast p he)
  have hp₂ : ¬ (ys.map Prod.fst).head? = some p := fun he => hpl (hfirst p he)
  have hself := hat p v hv
  rw [if_neg hp₁, if_neg hp₂] at hself
  refine ⟨mems₂, _, by rw [State.unlink, load_some hv, ok_bind, hrun₁, ok_bind, hrun₂, ok_bind],
    ⟨?_, ?_, ?_, ?_, ?_⟩, v, hself, hr⟩
  · rw [List.map_append]
    apply hlinked.unlink hnodup
    · intro q hq
      obtain ⟨w, hw⟩ := halive q hq
      rw [via_of (hat q w hw), via_of hw, Option.or_none]
    · intro q hq
      obtain ⟨w, hw⟩ := halive q hq
      rw [via_of (hat q w hw), via_of hw, Option.or_none]
  · rw [h.head, hnext]
    cases xs with
    | nil => simp
    | cons x xs =>
      have hxp : x.1 ≠ p := fun he => hpl (by simp [he])
      simp [hxp]
  · rw [List.map_append]
    exact (List.nodup_cons.mp hmid).2
  · intro x hx
    obtain ⟨w, hw, hwr⟩ := h.alive x (hsub x hx)
    exact ⟨_, hat x.1 w hw, hwr⟩
  · exact fun x hx => h.bound x (hsub x hx)

/-- A record that is not in the list can be freed. -/
theorem Listed.kfree (h : Listed s.mems s.alloc l) (hp : ∀ x ∈ l, x.1 ≠ p) :
    Listed (s.kfree p).mems (s.kfree p).alloc l :=
  h.congr fun x hx => Function.update_of_ne (hp x hx) _ _

end Racoon.Ualloc
