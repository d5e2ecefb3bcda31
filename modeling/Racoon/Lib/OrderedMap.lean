import Mathlib.Tactic

/-!
# Maps that remember the order of insertion

A map is the list of its entries, oldest first, with at most one entry a key.
`put` overwrites an entry where it stands or appends a new one, `remove` takes
an entry out. An array that is searched from the front carries both out by the
index of the entry, as `put_eq` and `remove_eq` say.
-/

namespace Racoon.Lib.OrderedMap
variable {κ β : Type*} [DecidableEq κ]

def keys (m : List (κ × β)) : List κ := m.map Prod.fst

def get? (k : κ) (m : List (κ × β)) : Option β := (m.find? fun e => e.1 = k).map Prod.snd

def put (k : κ) (v : β) : List (κ × β) → List (κ × β)
  | [] => [(k, v)]
  | e :: m => if e.1 = k then (k, v) :: m else e :: put k v m

def remove (k : κ) (m : List (κ × β)) : List (κ × β) := m.eraseP fun e => e.1 = k

theorem get?_nil (k : κ) : get? k ([] : List (κ × β)) = none := rfl

theorem get?_cons (k : κ) (e : κ × β) (m : List (κ × β)) :
    get? k (e :: m) = if e.1 = k then some e.2 else get? k m := by
  by_cases h : e.1 = k <;> simp [get?, h]

theorem get?_eq_none {k : κ} {m : List (κ × β)} : get? k m = none ↔ k ∉ keys m := by
  simp only [get?, keys, Option.map_eq_none_iff, List.find?_eq_none, decide_eq_true_eq,
    List.mem_map, not_exists, not_and]

theorem get?_put (k n : κ) (v : β) (m : List (κ × β)) :
    get? n (put k v m) = if n = k then some v else get? n m := by
  induction m with
  | nil =>
    rw [put, get?_cons, get?_nil]
    simp only [eq_comm]
  | cons e m ih =>
    rw [put]
    by_cases he : e.1 = k
    · rw [if_pos he, get?_cons, get?_cons, he]
      by_cases hn : n = k
      · simp [hn]
      · simp [hn, Ne.symm hn]
    · rw [if_neg he, get?_cons, get?_cons, ih]
      by_cases hn : n = k
      · rw [if_neg (hn ▸ he), if_pos hn, if_pos hn]
      · rw [if_neg hn, if_neg hn]

theorem put_of_notMem {k : κ} {v : β} {m : List (κ × β)} (h : k ∉ keys m) :
    put k v m = m ++ [(k, v)] := by
  induction m with
  | nil => rfl
  | cons e m ih =>
    have hk : k ∉ e.1 :: keys m := h
    rw [List.mem_cons, not_or] at hk
    rw [put, if_neg (Ne.symm hk.1), ih hk.2, List.cons_append]

omit [DecidableEq κ] in
/-- The key of an entry is not among those of the entries before it. -/
theorem notMem_keys_take {m : List (κ × β)} (h : (keys m).Nodup) {i : ℕ} (hi : i < m.length) :
    m[i].1 ∉ keys (m.take i) := by
  intro hmem
  rw [keys, List.map_take, List.mem_take_iff_getElem] at hmem
  obtain ⟨j, hj, he⟩ := hmem
  have hlen : i < (keys m).length := by simpa [keys] using hi
  have hjl : j < (keys m).length := by simp only [keys]; omega
  have hij : (keys m)[j] = (keys m)[i] := by simpa [keys] using he
  have hji := h.getElem_inj_iff.mp hij
  omega

theorem length_put_le (k : κ) (v : β) (m : List (κ × β)) : (put k v m).length ≤ m.length + 1 := by
  induction m with
  | nil => exact le_rfl
  | cons e m ih =>
    rw [put]
    split_ifs
    · exact Nat.le_succ _
    · exact Nat.succ_le_succ ih

theorem keys_put (k : κ) (v : β) (m : List (κ × β)) :
    keys (put k v m) = if k ∈ keys m then keys m else keys m ++ [k] := by
  induction m with
  | nil => rfl
  | cons e m ih =>
    rw [put]
    by_cases he : e.1 = k
    · simp [keys, he]
    · rw [if_neg he]
      change e.1 :: keys (put k v m) = _
      rw [ih]
      change _ = if k ∈ e.1 :: keys m then e.1 :: keys m else e.1 :: keys m ++ [k]
      have hiff : k ∈ e.1 :: keys m ↔ k ∈ keys m := by simp [Ne.symm he]
      simp only [hiff]
      split_ifs <;> rfl

theorem nodup_put {k : κ} {v : β} {m : List (κ × β)} (h : (keys m).Nodup) :
    (keys (put k v m)).Nodup := by
  rw [keys_put]
  split_ifs with hk
  · exact h
  · rw [List.nodup_append]
    refine ⟨h, List.nodup_singleton k, fun x hx y hy e => hk ?_⟩
    rwa [← List.mem_singleton.mp hy, ← e]

theorem keys_remove (k : κ) (m : List (κ × β)) : keys (remove k m) = (keys m).erase k := by
  induction m with
  | nil => rfl
  | cons e m ih =>
    by_cases he : e.1 = k
    · simp [remove, keys, he]
    · have hr : remove k (e :: m) = e :: remove k m := by simp [remove, he]
      have hk : ∀ l : List (κ × β), keys (e :: l) = e.1 :: keys l := fun _ => rfl
      rw [hr, hk, hk, ih, List.erase_cons_tail (by simpa using he)]

theorem keys_remove_eq_filter {m : List (κ × β)} (h : (keys m).Nodup) (k : κ) :
    keys (remove k m) = (keys m).filter fun n => n ≠ k := by
  rw [keys_remove, h.erase_eq_filter]
  refine List.filter_congr fun n _ => ?_
  rw [bne, beq_eq_decide, decide_not]

theorem nodup_remove {k : κ} {m : List (κ × β)} (h : (keys m).Nodup) :
    (keys (remove k m)).Nodup := by
  rw [keys_remove]
  exact h.erase k

theorem get?_remove {m : List (κ × β)} (h : (keys m).Nodup) (k n : κ) :
    get? n (remove k m) = if n = k then none else get? n m := by
  by_cases hn : n = k
  · rw [if_pos hn, get?_eq_none, keys_remove, hn]
    exact h.not_mem_erase
  · rw [if_neg hn]
    clear h
    induction m with
    | nil => rfl
    | cons e m ih =>
      by_cases he : e.1 = k
      · have hr : remove k (e :: m) = m := by simp [remove, he]
        rw [hr, get?_cons, if_neg fun e' : e.1 = n => hn (e'.symm.trans he)]
      · have hr : remove k (e :: m) = e :: remove k m := by simp [remove, he]
        rw [hr, get?_cons, get?_cons, ih]

/-- The entry found first, if any, decides. -/
theorem get?_eq (k : κ) (m : List (κ × β)) :
    get? k m = (m[m.findIdx fun e => e.1 = k]?).map Prod.snd := by
  induction m with
  | nil => rfl
  | cons e m ih =>
    rw [get?_cons, List.findIdx_cons]
    by_cases he : e.1 = k
    · simp [he]
    · simp [he, ih]

theorem put_eq (k : κ) (v : β) (m : List (κ × β)) :
    put k v m = if (m.findIdx fun e => e.1 = k) < m.length then
      m.set (m.findIdx fun e => e.1 = k) (k, v) else m ++ [(k, v)] := by
  induction m with
  | nil => rfl
  | cons e m ih =>
    rw [put, List.findIdx_cons]
    by_cases he : e.1 = k
    · simp [he]
    · simp only [he, if_false, decide_false, cond_false, ih, List.length_cons, Nat.succ_lt_succ_iff,
        List.set_cons_succ, List.cons_append]
      split_ifs <;> rfl

theorem remove_eq (k : κ) (m : List (κ × β)) :
    remove k m = m.eraseIdx (m.findIdx fun e => e.1 = k) := by
  induction m with
  | nil => rfl
  | cons e m ih =>
    rw [List.findIdx_cons]
    by_cases he : e.1 = k
    · simp [remove, he]
    · have hr : remove k (e :: m) = e :: remove k m := by simp [remove, he]
      simp [hr, he, ih]

end Racoon.Lib.OrderedMap
