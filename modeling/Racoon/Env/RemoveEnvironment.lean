import Racoon.Env.SetEnvironment

/-!
# Removing, releasing and cloning

`remove_environment` frees the data of an entry while it scans, moves the later
entries down and shrinks the array, to nothing with the last entry. To release an
environment is to free every block of it, and to clone one is to release the
destination and to set each of the source's variables there in order.
-/

namespace Racoon.Env
open Lib Strings

/-- The scan of `remove_environment` is the search for the name, then the closing of the gap. -/
theorem removeFrom_eq (m : Memory) (env : Option ℕ) (name : CString) (i left : ℕ) :
    removeFrom env name i left false m = (do
      let j ← findFrom m env name i left
      if j < i + left then do
        let e ← entry m env j
        let m ← kfree m e.data
        removeFrom env name (j + 1) (i + left - 1 - j) true m
      else .ok (false, m)) := by
  induction left generalizing i with
  | zero => simp [removeFrom, findFrom]
  | succ left ih =>
    rw [removeFrom, findFrom]
    cases he : entry m env i with
    | error f => rfl
    | ok e =>
      rw [ok_bind, ok_bind]
      by_cases hn : named name e
      · have hleft : i + (left + 1) - 1 - i = left := by omega
        rw [if_pos hn, if_pos hn, ok_bind, if_pos (by omega), he, ok_bind, hleft]
      · rw [if_neg hn, if_neg hn, ih, Nat.add_right_comm, Nat.add_assoc]

theorem write_contents {m : Memory} {a : ℕ} {b : Block} (h : m.block a = some b) :
    m.write a b.contents = m := by
  ext1
  · funext x
    rw [Memory.block_write h]
    split_ifs with hx
    · rw [hx, h]
    · rfl
  · rfl

/-- The rest of the scan copies the later entries down by one. -/
theorem removeFrom_shift {m : Memory} {a room : ℕ} {e : ℕ → EnvironInfo}
    (h : m.block a = some ⟨room, .environ e⟩) (name : CString) (i left : ℕ)
    (hr : (i + 1 + left) * sizeofEnvironInfo ≤ room) :
    removeFrom (some a) name (i + 1) left true m =
      .ok (true, m.write a (.environ (copyDown 1 e i left))) := by
  induction left generalizing m e i with
  | zero =>
    rw [removeFrom, copyDown, write_contents h]
  | succ left ih =>
    have hr₁ : (i + 1 + 1) * sizeofEnvironInfo ≤ room :=
      (Nat.mul_le_mul_right _ (by omega)).trans hr
    have hr₀ : (i + 1) * sizeofEnvironInfo ≤ room :=
      (Nat.mul_le_mul_right _ (by omega)).trans hr
    have h' := Memory.block_write h (.environ (Function.update e i (e (i + 1)))) a
    rw [if_pos rfl] at h'
    rw [removeFrom, entry_eq h hr₁, ok_bind, Nat.add_sub_cancel, setEntry_eq h hr₀, ok_bind,
      ih h' (i + 1) ((Nat.mul_le_mul_right _ (by omega)).trans hr), Memory.write_write h]
    rfl

/-- What a call that only gives blocks back leaves. -/
structure Shrinks (m : Memory) (proc : Process) (es : List EnvironInfo) (m' : Memory)
    (proc' : Process) (es' : List EnvironInfo) : Prop where
  represents : Represents m' proc' es'
  frame : Frame m m' (owned proc es) (owned proc' es')
  refused : m'.refused = m.refused

/-- A variable goes: its data block is freed and the array closes the gap. -/
theorem Represents.drop {m : Memory} {proc : Process} {l₁ l₂ : List EnvironInfo}
    {e : EnvironInfo} (h : Represents m proc (l₁ ++ e :: l₂)) (m' : Memory) (proc' : Process)
    (hcount : proc'.environmentCount = (l₁ ++ l₂).length)
    (harr : ∀ a, proc'.environment = some a → proc.environment = some a ∧
      ArrayAt m' a (l₁ ++ l₂).length (l₁ ++ l₂))
    (hempty : proc'.environment = none → l₁ ++ l₂ = [])
    (hother : ∀ x, proc.environment ≠ some x → x ≠ e.data → m'.block x = m.block x)
    (hr : m'.refused = m.refused) :
    Shrinks m proc (l₁ ++ e :: l₂) m' proc' (l₁ ++ l₂) ∧
      (l₁ ++ l₂).map (view m') = (l₁ ++ l₂).map (view m) := by
  have hn := h.distinct
  simp only [List.map_append, List.map_cons, List.nodup_append, List.nodup_cons,
    List.mem_map] at hn
  have hmem : ∀ x ∈ l₁ ++ l₂, x ∈ l₁ ++ e :: l₂ := fun x hx => by
    rcases List.mem_append.mp hx with h' | h' <;> simp [h']
  have hold : ∀ x ∈ l₁ ++ l₂, m'.block x.data = m.block x.data := by
    intro x hx
    obtain ⟨rx, dx, hdx, -, -⟩ := h.data x (hmem x hx)
    refine hother _ (fun ha => ?_) fun he => ?_
    · obtain ⟨ra, env, hb, -⟩ := h.array _ ha
      simp [hb] at hdx
    · rcases List.mem_append.mp hx with h' | h'
      · exact hn.2.2 _ ⟨x, h', rfl⟩ _ (by simp) he
      · exact hn.2.1.1 ⟨x, h', he⟩
  have hnodup : ((l₁ ++ l₂).map EnvironInfo.data).Nodup :=
    h.distinct.sublist (((List.sublist_cons_self e l₂).append_left l₁).map _)
  have hout : ∀ x, x ∉ owned proc (l₁ ++ e :: l₂) → proc.environment ≠ some x ∧ x ≠ e.data := by
    intro x hx
    exact ⟨fun he => hx (by simp [owned, he]), fun he => hx (by simp [owned, he])⟩
  refine ⟨⟨⟨hcount, fun a ha => (harr a ha).2, hempty, fun x hx => ?_, hnodup⟩,
    ⟨fun x _ hx => hother x (hout x hx).1 (hout x hx).2, fun x _ hx hx' => ?_,
      fun hm => hr ▸ hm⟩, hr⟩, List.map_congr_left fun x hx => view_congr (hold x hx)⟩
  · exact (h.data x (hmem x hx)).congr (hold x hx)
  · rw [owned, List.mem_append, Option.mem_toList, List.mem_map] at hx'
    rcases hx' with hx' | ⟨y, hy, rfl⟩
    · exact (hout x hx).1 (harr x hx').1
    · exact hx (List.mem_append_right _ (List.mem_map_of_mem (hmem y hy)))

/-- Shrinking leaves the array where it is; no entries are left of it when it is freed. -/
theorem krealloc_shrink (k : Kalloc) {m : Memory} {a room n : ℕ} {e : ℕ → EnvironInfo}
    (h : m.block a = some ⟨room, .environ e⟩) (hn : n * sizeofEnvironInfo ≤ room) :
    krealloc k m (some a) (n * sizeofEnvironInfo) =
      if n = 0 then .ok (none, m.free a)
      else .ok (some a, m.shrink a (n * sizeofEnvironInfo)) := by
  by_cases h0 : n = 0
  · simp [krealloc, h0, kfree_eq (a := a) (m := m) (by simp [h])]
  · have hpos : n * sizeofEnvironInfo ≠ 0 := (Nat.mul_pos (Nat.pos_of_ne_zero h0) (by decide)).ne'
    rw [krealloc_some k hpos h, if_pos hn, if_neg h0]

theorem taken_closed {env : ℕ → EnvironInfo} {l₁ l₂ : List EnvironInfo} {e : EnvironInfo}
    (h : taken env (l₁ ++ e :: l₂).length = l₁ ++ e :: l₂) :
    taken (copyDown 1 env l₁.length l₂.length) (l₁ ++ l₂).length = l₁ ++ l₂ := by
  have hlt : l₁.length < (l₁ ++ e :: l₂).length := by simp
  have hgap := taken_closeGap env hlt
  have h₁ : (l₁ ++ e :: l₂).length - 1 - l₁.length = l₂.length := by simp
  have h₂ : (l₁ ++ e :: l₂).length - 1 = (l₁ ++ l₂).length := by simp
  rw [h, h₁, h₂] at hgap
  rw [hgap, List.eraseIdx_append_of_length_le le_rfl, Nat.sub_self, List.eraseIdx_cons_zero]

theorem removeEnvironment_spec (k : Kalloc) {m : Memory} {proc : Process}
    {es : List EnvironInfo} (h : Represents m proc es) (name : CString) :
    ∃ rc proc' m' es', removeEnvironment k m proc name = .ok (rc, proc', m') ∧
      Shrinks m proc es m' proc' es' ∧
      es'.map (view m') = OrderedMap.remove (key name) (es.map (view m)) := by
  have hremove := OrderedMap.remove_eq (key name) (es.map (view m))
  rw [findIdx_views] at hremove
  rw [removeEnvironment, removeFrom_eq, h.findFrom_eq, ok_bind, h.count, Nat.zero_add]
  by_cases hi : es.findIdx (named name) < es.length
  · obtain ⟨l₁, l₂, hes, hl⟩ := exists_split hi
    obtain ⟨a, room, env, ha, hb, hr, ht⟩ := h.array_of_lt hi
    rw [if_pos hi, h.entry_eq hi, ok_bind, ha]
    generalize es[es.findIdx (named name)] = e at hes ⊢
    rw [← hl] at hremove ⊢
    clear hl hi
    subst hes
    obtain ⟨re, d, hd, -, -⟩ := h.data e (by simp)
    have hae : a ≠ e.data := fun he => by simp [he, hd] at hb
    have hb₁ : (m.free e.data).block a = some ⟨room, .environ env⟩ := by
      rw [Memory.block_free, if_neg hae, hb]
    have hlen : (l₁ ++ e :: l₂).length = l₁.length + 1 + l₂.length := by simp; omega
    have hleft : (l₁ ++ e :: l₂).length - 1 - l₁.length = l₂.length := by omega
    have hcount : (l₁ ++ e :: l₂).length - 1 = (l₁ ++ l₂).length := by simp
    have hclosed := taken_closed ht
    have hb₂ := Memory.block_write hb₁ (.environ (copyDown 1 env l₁.length l₂.length))
    have ha₂ := hb₂ a
    rw [if_pos rfl] at ha₂
    have hle : (l₁ ++ l₂).length * sizeofEnvironInfo ≤ room :=
      (Nat.mul_le_mul_right _ (by rw [← hcount]; omega)).trans hr
    have herase : ((l₁ ++ e :: l₂).map (view m)).eraseIdx l₁.length = (l₁ ++ l₂).map (view m) := by
      simp [List.eraseIdx_append_of_length_le]
    rw [kfree_eq (by simp [hd]), ok_bind, hleft, removeFrom_shift hb₁ name _ _ (hlen ▸ hr), ok_bind]
    dsimp only
    rw [if_neg (by decide), hcount,
      h.arrayBytes_eq (by rw [← hcount]; omega), krealloc_shrink k ha₂ hle]
    by_cases h0 : (l₁ ++ l₂).length = 0
    · rw [if_pos h0, ok_bind]
      obtain ⟨hs, hv⟩ := h.drop
        (((m.free e.data).write a (.environ (copyDown 1 env l₁.length l₂.length))).free a)
        ⟨none, (l₁ ++ l₂).length⟩ rfl (fun _ hx => by simp at hx)
        (fun _ => List.length_eq_zero_iff.mp h0)
        (fun x hxa hxe => by
          have hne : x ≠ a := fun he => hxa (by rw [ha, he])
          rw [Memory.block_free, if_neg hne, hb₂, if_neg hne, Memory.block_free, if_neg hxe]) rfl
      exact ⟨_, _, _, _, rfl, hs, by rw [hv, hremove, herase]⟩
    · rw [if_neg h0, ok_bind]
      have hb₃ := Memory.block_shrink ha₂ hle
      obtain ⟨hs, hv⟩ := h.drop
        (((m.free e.data).write a (.environ (copyDown 1 env l₁.length l₂.length))).shrink a
          ((l₁ ++ l₂).length * sizeofEnvironInfo))
        ⟨some a, (l₁ ++ l₂).length⟩ rfl
        (fun x hx => by
          cases hx
          exact ⟨ha, _, _, (hb₃ a).trans (if_pos rfl), le_rfl, le_rfl, hclosed⟩)
        (fun hx => by simp at hx)
        (fun x hxa hxe => by
          have hne : x ≠ a := fun he => hxa (by rw [ha, he])
          rw [hb₃, if_neg hne, hb₂, if_neg hne, Memory.block_free, if_neg hxe]) rfl
      exact ⟨_, _, _, _, rfl, hs, by rw [hv, hremove, herase]⟩
  · rw [if_neg hi, ok_bind]
    refine ⟨SMK_NOT_FOUND, proc, m, es, rfl, ⟨h, .refl m _, rfl⟩, ?_⟩
    rw [hremove, List.eraseIdx_of_length_le (by rw [List.length_map]; exact not_lt.mp hi)]

/-- The loop of `release_environment` frees the data of every entry. -/
theorem freeFrom_eq {a room : ℕ} {e : ℕ → EnvironInfo} (left i : ℕ) {m : Memory}
    (h : m.block a = some ⟨room, .environ e⟩) (hr : (i + left) * sizeofEnvironInfo ≤ room)
    (hd : ∀ j, i ≤ j → j < i + left → m.block (e j).data ≠ none ∧ (e j).data ≠ a)
    (hn : ∀ j j', i ≤ j → j < j' → j' < i + left → (e j).data ≠ (e j').data) :
    ∃ m', freeFrom (some a) i left m = .ok m' ∧ m'.refused = m.refused ∧
      ∀ x, (∀ j, i ≤ j → j < i + left → (e j).data ≠ x) → m'.block x = m.block x := by
  induction left generalizing i m with
  | zero => exact ⟨m, rfl, rfl, fun _ _ => rfl⟩
  | succ left ih =>
    obtain ⟨hdi, hai⟩ := hd i le_rfl (by omega)
    obtain ⟨m', hm', hr', hb'⟩ := ih (i + 1) (m := m.free (e i).data)
      (by rw [Memory.block_free, if_neg hai.symm, h])
      ((Nat.mul_le_mul_right _ (by omega)).trans hr)
      (fun j hj hl => ⟨by
        rw [Memory.block_free, if_neg (hn i j le_rfl (by omega) (by omega)).symm]
        exact (hd j (by omega) (by omega)).1, (hd j (by omega) (by omega)).2⟩)
      (fun j j' hj hjj hl => hn j j' (by omega) hjj (by omega))
    refine ⟨m', ?_, hr', fun x hx => ?_⟩
    · rw [freeFrom, entry_eq h ((Nat.mul_le_mul_right _ (by omega)).trans hr), ok_bind,
        kfree_eq hdi, ok_bind, hm']
    · rw [hb' x fun j hj hl => hx j (by omega) (by omega), Memory.block_free,
        if_neg (hx i le_rfl (by omega)).symm]

theorem releaseEnvironment_spec {m : Memory} {proc : Process} {es : List EnvironInfo}
    (h : Represents m proc es) :
    ∃ m', releaseEnvironment m proc = .ok (SMK_OK, ⟨none, 0⟩, m') ∧
      Shrinks m proc es m' ⟨none, 0⟩ [] := by
  cases ha : proc.environment with
  | none =>
    refine ⟨m, by rw [releaseEnvironment, ha], .nil m, ⟨fun _ _ _ => rfl, fun _ _ _ => ?_, id⟩,
      rfl⟩
    simp [owned]
  | some a =>
    obtain ⟨room, e, hb, hr, -, ht⟩ := h.array a ha
    have hmem : ∀ j < es.length, e j ∈ es := fun j hj => by
      rw [← ht]
      exact mem_taken.mpr ⟨j, hj, rfl⟩
    have hinj : ((List.range es.length).map fun j => (e j).data).Nodup := by
      have hd := h.distinct
      rwa [← ht, taken, List.map_map] at hd
    have hout : ∀ x, x ∉ owned proc es → x ≠ a ∧ ∀ j < es.length, (e j).data ≠ x := by
      intro x hx
      rw [owned, List.mem_append, not_or, ha] at hx
      refine ⟨by simpa using hx.1, fun j hj he => hx.2 ?_⟩
      exact List.mem_map.mpr ⟨e j, hmem j hj, he⟩
    have hdata : ∀ j < es.length, m.block (e j).data ≠ none ∧ (e j).data ≠ a := by
      intro j hj
      obtain ⟨rj, dj, hj, -, -⟩ := h.data _ (hmem j hj)
      exact ⟨by simp [hj], fun he => by simp [he, hb] at hj⟩
    obtain ⟨m₁, h₁, hr₁, hb₁⟩ := freeFrom_eq es.length 0 hb (by simpa using hr)
      (fun j _ hj => hdata j (by omega))
      (fun j j' _ hjj hj he => hjj.ne (List.inj_on_of_nodup_map hinj
        (List.mem_range.mpr (by omega)) (List.mem_range.mpr (by omega)) he))
    have ha₁ : m₁.block a ≠ none := by
      rw [hb₁ a fun j _ hj => (hdata j (by omega)).2, hb]
      simp
    refine ⟨m₁.free a, ?_, .nil _, ⟨fun x _ hx => ?_, fun _ _ _ => by simp [owned],
      fun hm => hr₁ ▸ hm⟩, hr₁⟩
    · rw [releaseEnvironment, ha]
      dsimp only
      rw [h.count, h₁, ok_bind, kfree_eq ha₁, ok_bind]
    · rw [Memory.block_free, if_neg (hout x hx).1, hb₁ x fun j _ hj => (hout x hx).2 j (by omega)]

/-- The loop of `clone_environment`: the destination has the first `i` variables already. -/
theorem cloneFrom_spec (k : Kalloc) {src : Process} {es : List EnvironInfo} (left i : ℕ)
    {m : Memory} {dest : Process} {ds : List EnvironInfo} (hsrc : Represents m src es)
    (hdest : Represents m dest ds) (hdis : (owned src es).Disjoint (owned dest ds))
    (hkeys : (OrderedMap.keys (es.map (view m))).Nodup) (hi : i + left = es.length)
    (hds : ds.map (view m) = (es.map (view m)).take i) :
    ∃ rc dest' m' ds', cloneFrom k src.environment i left dest m = .ok (rc, dest', m') ∧
      Represents m' dest' ds' ∧ Frame m m' (owned dest ds) (owned dest' ds') ∧
      (m'.refused = true ∨ m'.refused = m.refused ∧ ds'.map (view m') = es.map (view m)) := by
  induction left generalizing i m dest ds with
  | zero =>
    refine ⟨0, dest, m, ds, rfl, hdest, .refl m _, .inr ⟨rfl, ?_⟩⟩
    rw [hds, List.take_of_length_le (by simp; omega)]
  | succ left ih =>
    have hlt : i < es.length := by omega
    obtain ⟨room, d, hd, hs, hroom⟩ := hsrc.data es[i] (List.getElem_mem hlt)
    obtain ⟨rc, dest₁, m₁, ds₁, h₁, hset⟩ := setEnvironment_spec k hdest es[i].name d hs
    obtain ⟨hsrc₁, hviews, hdis₁⟩ := hsrc.frame hset.frame hdis
    rw [cloneFrom, hsrc.entry_eq hlt, ok_bind, bytesAt_eq hd hroom, ok_bind, h₁, ok_bind]
    dsimp only
    rcases hset.result with ⟨rfl, hr⟩ | ⟨rfl, hr, hv⟩
    · obtain ⟨m₂, h₂, hrel⟩ := releaseEnvironment_spec hset.represents
      rw [if_pos (by decide), h₂, ok_bind]
      exact ⟨_, _, m₂, [], rfl, hrel.represents, hset.frame.trans hrel.frame,
        .inl (hrel.refused.trans hr)⟩
    · have hi' : i < (es.map (view m)).length := by simpa using hlt
      have hview : (es.map (view m))[i] = (key es[i].name, taken d es[i].size) := by
        rw [List.getElem_map, view_eq hd]
      have hput : ds₁.map (view m₁) = (es.map (view m₁)).take (i + 1) := by
        rw [hv, hds, hviews, List.take_succ_eq_append_getElem hi', hview]
        have hnew := OrderedMap.notMem_keys_take hkeys hi'
        rw [hview] at hnew
        exact OrderedMap.put_of_notMem hnew
      obtain ⟨rc', dest', m', ds', h', hR, hF, hcase⟩ := ih (i + 1) hsrc₁ hset.represents hdis₁
        (hviews ▸ hkeys) (by omega) hput
      rw [if_neg (by decide)]
      refine ⟨rc', dest', m', ds', h', hR, hset.frame.trans hF, hcase.imp_right fun hc => ?_⟩
      exact ⟨hc.1.trans hr, hc.2.trans hviews⟩

theorem cloneEnvironment_spec (k : Kalloc) {m : Memory} {dest src : Process}
    {ds es : List EnvironInfo} (hdest : Represents m dest ds) (hsrc : Represents m src es)
    (hdis : (owned src es).Disjoint (owned dest ds))
    (hkeys : (OrderedMap.keys (es.map (view m))).Nodup) :
    ∃ rc dest' m' ds', cloneEnvironment k m dest src = .ok (rc, dest', m') ∧
      Represents m' dest' ds' ∧ Frame m m' (owned dest ds) (owned dest' ds') ∧
      (m'.refused = true ∨ m'.refused = m.refused ∧ ds'.map (view m') = es.map (view m)) := by
  obtain ⟨m₁, h₁, hrel⟩ := releaseEnvironment_spec hdest
  obtain ⟨hsrc₁, hviews, hdis₁⟩ := hsrc.frame hrel.frame hdis
  rw [cloneEnvironment, h₁, ok_bind]
  dsimp only
  rw [if_neg (by decide)]
  by_cases hnull : src.environment = none
  · rw [if_pos hnull]
    refine ⟨0, _, m₁, [], rfl, hrel.represents, hrel.frame, .inr ⟨hrel.refused, ?_⟩⟩
    rw [hsrc.empty hnull]
    rfl
  · rw [if_neg hnull, hsrc.count]
    obtain ⟨rc, dest', m', ds', h', hR, hF, hcase⟩ := cloneFrom_spec k es.length 0 hsrc₁
      hrel.represents hdis₁ (hviews ▸ hkeys) (Nat.zero_add _) rfl
    refine ⟨rc, dest', m', ds', h', hR, hrel.frame.trans hF, hcase.imp_right fun hc => ?_⟩
    exact ⟨hc.1.trans hrel.refused, hc.2.trans hviews⟩

end Racoon.Env
