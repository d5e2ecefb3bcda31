import Racoon.Lib.DoublyLinked
import Racoon.Sharing.SharedMemory

/-!
# The list of a region

`Chain infos l` says that the nodes `l` form a well-formed doubly linked list with
one entry for a process at most. `entries infos l` is what the list says about
each process. A search finds the entry of a process, an insertion or a removal
changes what is said about one process, and an assignment that keeps the links
and the process changes the entry in place.
-/

namespace Racoon.Sharing
open Lib

/-- What an entry says about its process. -/
@[ext] structure Entry where
  location : ℕ
  pages : ℤ
  flags : ℕ
  usage : ℤ

def ShmemInfo.entry (v : ShmemInfo) : Entry := ⟨v.virtualLocation, v.virtualPages, v.flags, v.usage⟩

abbrev Heap := ℕ → Option ShmemInfo

def belongs (infos : Heap) (pid : ℤ) (p : ℕ) : Bool := (infos p).any fun v => v.pid = pid

def entries (infos : Heap) (l : List ℕ) (pid : ℤ) : Option Entry :=
  (l.find? (belongs infos pid)).bind fun p => (infos p).map ShmemInfo.entry

structure Chain (infos : Heap) (l : List ℕ) : Prop where
  linked : Linked (via ShmemInfo.next infos) (via ShmemInfo.prev infos) none l none
  nodup : l.Nodup
  alive : ∀ p ∈ l, ∃ v, infos p = some v
  bound : ∀ p ∈ l, p < walkBound
  single : ∀ p ∈ l, ∀ q ∈ l, ∀ v w, infos p = some v → infos q = some w → v.pid = w.pid → p = q
  idle : ∀ p ∈ l, ∀ v, infos p = some v → v.tmp = none

variable {infos infos' : Heap} {l xs ys : List ℕ} {p : ℕ} {pid : ℤ} {v : ShmemInfo}

theorem belongs_iff : belongs infos pid p = true ↔ ∃ v, infos p = some v ∧ v.pid = pid := by
  simp [belongs, Option.any_eq_true]

theorem chain_nil (infos : Heap) : Chain infos [] :=
  ⟨trivial, List.nodup_nil, by simp, by simp, by simp, by simp⟩

namespace Chain

theorem congr (h : Chain infos l) (he : ∀ p ∈ l, infos' p = infos p) :
    Chain infos' l ∧ entries infos' l = entries infos l := by
  have hvia : ∀ (field : ShmemInfo → Option ℕ), ∀ p ∈ l, via field infos' p = via field infos p :=
    fun field p hp => by rw [via, he p hp, via]
  refine ⟨⟨h.linked.congr (hvia _) (hvia _), h.nodup, fun p hp => ?_, h.bound, ?_, ?_⟩, ?_⟩
  · rw [he p hp]
    exact h.alive p hp
  · intro p hp q hq
    rw [he p hp, he q hq]
    exact h.single p hp q hq
  · intro p hp
    rw [he p hp]
    exact h.idle p hp
  · funext pid
    have hb : l.find? (belongs infos' pid) = l.find? (belongs infos pid) :=
      List.find?_congr fun p hp => by rw [belongs, he p hp, belongs]
    rw [entries, entries, hb]
    cases hf : l.find? (belongs infos pid) with
    | none => rfl
    | some p => rw [Option.bind_some, Option.bind_some, he p (List.mem_of_find?_eq_some hf)]

theorem length_le (h : Chain infos l) : l.length ≤ walkBound := by
  have hsub : l ⊆ List.range walkBound := fun p hp => List.mem_range.mpr (h.bound p hp)
  simpa using (h.nodup.subperm hsub).length_le

/-- The node that a search for a process ends at. -/
theorem find_eq (h : Chain infos l) (hp : p ∈ l) (hv : infos p = some v) :
    l.find? (belongs infos v.pid) = some p := by
  cases hf : l.find? (belongs infos v.pid) with
  | none =>
    rw [List.find?_eq_none] at hf
    exact absurd (belongs_iff.mpr ⟨v, hv, rfl⟩) (hf p hp)
  | some q =>
    obtain ⟨w, hw, hpid⟩ := belongs_iff.mp (List.find?_some hf)
    rw [h.single q (List.mem_of_find?_eq_some hf) p hp w v hw hv hpid]

theorem entries_eq (h : Chain infos l) (hp : p ∈ l) (hv : infos p = some v) :
    entries infos l v.pid = some v.entry := by
  rw [entries, h.find_eq hp hv, Option.bind_some, hv, Option.map_some]

theorem entries_eq_some (h : Chain infos l) {e : Entry} : entries infos l pid = some e ↔
    ∃ p ∈ l, ∃ v, infos p = some v ∧ v.pid = pid ∧ v.entry = e := by
  constructor
  · intro he
    obtain ⟨p, hf, he⟩ := Option.bind_eq_some_iff.mp he
    obtain ⟨v, hv, hpid⟩ := belongs_iff.mp (List.find?_some hf)
    rw [hv] at he
    exact ⟨p, List.mem_of_find?_eq_some hf, v, hv, hpid, by simpa using he⟩
  · rintro ⟨p, hp, v, hv, rfl, rfl⟩
    exact h.entries_eq hp hv

theorem entries_eq_none (h : Chain infos l) : entries infos l pid = none ↔
    ∀ p ∈ l, ∀ v, infos p = some v → v.pid ≠ pid := by
  rw [Option.eq_none_iff_forall_not_mem]
  constructor
  · rintro hn p hp v hv rfl
    exact hn v.entry (h.entries_eq hp hv)
  · intro hn e he
    obtain ⟨p, hp, v, hv, hpid, -⟩ := h.entries_eq_some.mp he
    exact hn p hp v hv hpid

theorem findInfo_eq (h : Chain infos l) (pid : ℤ) :
    findInfo infos pid walkBound l.head? = .ok (l.find? (belongs infos pid)) := by
  suffices hw : ∀ l left prev, l.length ≤ left → (∀ p ∈ l, ∃ v, infos p = some v) →
      Linked (via ShmemInfo.next infos) (via ShmemInfo.prev infos) prev l none →
      findInfo infos pid left l.head? = .ok (l.find? (belongs infos pid)) from
    hw l walkBound none h.length_le h.alive h.linked
  intro l
  induction l with
  | nil => intro left prev _ _ _; cases left <;> rfl
  | cons p rest ih =>
    intro left prev hlen halive hlinked
    obtain ⟨left, rfl⟩ : ∃ n, left = n + 1 := ⟨left - 1, by simp at hlen; omega⟩
    obtain ⟨v, hv⟩ := halive p (by simp)
    obtain ⟨-, hnext, hrest⟩ := hlinked
    rw [via_of hv, Option.or_none] at hnext
    have hb : belongs infos pid p = decide (v.pid = pid) := by simp [belongs, hv]
    rw [List.head?_cons, findInfo, load_some hv, ok_bind, List.find?_cons, hb]
    by_cases hpid : v.pid = pid
    · simp [hpid]
    · simp only [hpid, if_false, decide_false]
      rw [hnext]
      exact ih left (some p) (by simpa using hlen) (fun q hq => halive q (by simp [hq])) hrest

/-- A change of the nodes that keeps what each entry says. -/
theorem entries_update {l' : List ℕ} (h : Chain infos l) (h' : Chain infos' l') {pid : ℤ}
    {o : Option Entry} (hpid : entries infos' l' pid = o)
    (hother : ∀ q v, infos q = some v → v.pid ≠ pid → (q ∈ l ↔ q ∈ l') ∧
      (q ∈ l → ∃ w, infos' q = some w ∧ w.pid = v.pid ∧ w.entry = v.entry))
    (hnew : ∀ q ∈ l', ∀ w, infos' q = some w → w.pid ≠ pid →
      ∃ v, infos q = some v ∧ v.pid = w.pid) :
    entries infos' l' = Function.update (entries infos l) pid o := by
  funext x
  by_cases hx : x = pid
  · rw [hx, Function.update_self, hpid]
  · rw [Function.update_of_ne hx]
    apply Option.ext
    intro e
    rw [h.entries_eq_some, h'.entries_eq_some]
    constructor
    · rintro ⟨q, hq, w, hw, rfl, rfl⟩
      obtain ⟨v, hv, hvw⟩ := hnew q hq w hw hx
      obtain ⟨hmem, hkeep⟩ := hother q v hv (hvw ▸ hx)
      obtain ⟨w', hw', hp', he'⟩ := hkeep (hmem.mpr hq)
      rw [hw] at hw'
      cases hw'
      exact ⟨q, hmem.mpr hq, v, hv, hvw, he'.symm⟩
    · rintro ⟨q, hq, v, hv, rfl, rfl⟩
      obtain ⟨hmem, hkeep⟩ := hother q v hv hx
      obtain ⟨w, hw, hp, he⟩ := hkeep hq
      exact ⟨q, hmem.mp hq, w, hw, hp, he⟩

/-- An assignment that keeps the links and the process. -/
theorem set (h : Chain infos l) (hp : p ∈ l) (hv : infos p = some v) {w : ShmemInfo}
    (hpid : w.pid = v.pid) (hnext : w.next = v.next) (hprev : w.prev = v.prev)
    (htmp : w.tmp = none) : Chain (Function.update infos p (some w)) l ∧
      entries (Function.update infos p (some w)) l =
        Function.update (entries infos l) v.pid (some w.entry) := by
  have hat : ∀ q u, Function.update infos p (some w) q = some u →
      ∃ u', infos q = some u' ∧ u'.pid = u.pid := by
    intro q u hu
    by_cases hq : q = p
    · rw [hq, Function.update_self] at hu
      cases hu
      exact ⟨v, hq ▸ hv, hpid.symm⟩
    · rw [Function.update_of_ne hq] at hu
      exact ⟨u, hu, rfl⟩
  have hchain : Chain (Function.update infos p (some w)) l := by
    constructor
    · rw [via_update_of_eq hv hnext, via_update_of_eq hv hprev]
      exact h.linked
    · exact h.nodup
    · intro q hq
      by_cases hqp : q = p
      · exact ⟨w, by rw [hqp, Function.update_self]⟩
      · rw [Function.update_of_ne hqp]
        exact h.alive q hq
    · exact h.bound
    · intro q hq r hr u₁ u₂ hu₁ hu₂ he
      obtain ⟨u₁', hu₁', he₁⟩ := hat q u₁ hu₁
      obtain ⟨u₂', hu₂', he₂⟩ := hat r u₂ hu₂
      exact h.single q hq r hr u₁' u₂' hu₁' hu₂' (he₁.trans (he.trans he₂.symm))
    · intro q hq u hu
      by_cases hqp : q = p
      · rw [hqp, Function.update_self] at hu
        cases hu
        exact htmp
      · rw [Function.update_of_ne hqp] at hu
        exact h.idle q hq u hu
  refine ⟨hchain, h.entries_update hchain ?_ (fun q u hu hne => ⟨Iff.rfl, fun _ => ?_⟩) ?_⟩
  · rw [← hpid]
    exact hchain.entries_eq hp (Function.update_self ..)
  · have hq : q ≠ p := fun he => hne (by rw [he, hv] at hu; cases hu; rfl)
    exact ⟨u, by rw [Function.update_of_ne hq, hu], rfl, rfl⟩
  · exact fun q _ u hu _ => hat q u hu

end Chain

theorem setNext_eq (infos : Heap) (x next : Option ℕ)
    (h : ∀ q, x = some q → ∃ v, infos q = some v) :
    ∃ infos', setNext infos x next = .ok infos' ∧
      ∀ q, infos' q = (infos q).map fun v => if x = some q then { v with next := next } else v := by
  cases x with
  | none => exact ⟨infos, rfl, fun q => by simp⟩
  | some a =>
    obtain ⟨v, hv⟩ := h a rfl
    refine ⟨_, modify_some hv _, fun q => ?_⟩
    by_cases hq : q = a
    · simp [hq, hv]
    · simp [hq, Ne.symm hq]

theorem setPrev_eq (infos : Heap) (x prev : Option ℕ)
    (h : ∀ q, x = some q → ∃ v, infos q = some v) :
    ∃ infos', setPrev infos x prev = .ok infos' ∧
      ∀ q, infos' q = (infos q).map fun v => if x = some q then { v with prev := prev } else v := by
  cases x with
  | none => exact ⟨infos, rfl, fun q => by simp⟩
  | some a =>
    obtain ⟨v, hv⟩ := h a rfl
    refine ⟨_, modify_some hv _, fun q => ?_⟩
    by_cases hq : q = a
    · simp [hq, hv]
    · simp [hq, Ne.symm hq]

theorem listInsertBefore_head {position : ℕ} {w : ShmemInfo} (hne : position ≠ p)
    (hv : infos p = some v) (hw : infos position = some w) (hprev : w.prev = none) :
    listInsertBefore infos position p =
      .ok (Function.update (Function.update infos p
        (some { v with prev := none, next := some position })) position
        (some { w with prev := some p })) := by
  have hw' : Function.update infos p (some { v with prev := none, next := some position })
      position = some w := by
    rw [Function.update_of_ne hne, hw]
  rw [listInsertBefore, load_some hw, ok_bind, modify_some hv, ok_bind, hprev, setPrev,
    modify_some hw', ok_bind, setNext]

namespace Chain

/-- A new node at the head. -/
theorem push (h : Chain infos l) (hp : infos p = none) (hb : p < walkBound)
    (hn : entries infos l v.pid = none) (hprev : v.prev = none) (hnext : v.next = none)
    (htmp : v.tmp = none) :
    ∃ infos', pushInfo (Function.update infos p (some v)) l.head? p = .ok infos' ∧
      Chain infos' (p :: l) ∧
      entries infos' (p :: l) = Function.update (entries infos l) v.pid (some v.entry) ∧
      infos' p = some { v with prev := none, next := l.head? } ∧
      ∀ q, q ∉ p :: l → infos' q = infos q := by
  have hpl : p ∉ l := fun hm => by
    obtain ⟨w, hw⟩ := h.alive p hm
    rw [hp] at hw
    cases hw
  obtain ⟨infos', hrun, hself, hrest⟩ : ∃ infos',
      pushInfo (Function.update infos p (some v)) l.head? p = .ok infos' ∧
      infos' p = some { v with prev := none, next := l.head? } ∧
      ∀ q, q ≠ p → infos' q =
        (infos q).map fun w => if l.head? = some q then { w with prev := some p } else w := by
    cases l with
    | nil =>
      refine ⟨_, rfl, ?_, fun q hq => ?_⟩
      · rw [Function.update_self]
        cases v
        simp_all
      · rw [Function.update_of_ne hq]
        simp
    | cons a rest =>
      obtain ⟨w, hw⟩ := h.alive a (by simp)
      have hap : a ≠ p := fun he => hpl (by simp [he])
      have hwprev : w.prev = none := by
        have := h.linked.1
        rwa [via_of hw] at this
      have hw₁ : Function.update infos p (some v) a = some w := by
        rw [Function.update_of_ne hap, hw]
      refine ⟨_, listInsertBefore_head hap (Function.update_self ..) hw₁ hwprev, ?_, fun q hq => ?_⟩
      · rw [Function.update_of_ne hap.symm, Function.update_self, List.head?_cons]
      · by_cases hqa : q = a
        · rw [hqa, Function.update_self, hw]
          simp
        · rw [Function.update_of_ne hqa, Function.update_of_ne hq, Function.update_of_ne hq]
          simp [Ne.symm hqa]
  have hat : ∀ q ∈ l, ∀ u, infos' q = some u →
      ∃ w, infos q = some w ∧ w.pid = u.pid ∧ w.tmp = u.tmp := by
    intro q hq u hu
    rw [hrest q fun he => hpl (he ▸ hq)] at hu
    obtain ⟨w, hw, rfl⟩ := Option.map_eq_some_iff.mp hu
    refine ⟨w, hw, ?_⟩
    split_ifs <;> exact ⟨rfl, rfl⟩
  have hvia : ∀ y ∈ l, via ShmemInfo.next infos' y = via ShmemInfo.next infos y ∧
      via ShmemInfo.prev infos' y =
        if l.head? = some y then some p else via ShmemInfo.prev infos y := by
    intro y hy
    obtain ⟨w, hw⟩ := h.alive y hy
    have hw' := hrest y fun he => hpl (he ▸ hy)
    rw [hw, Option.map_some] at hw'
    rw [via_of hw', via_of hw', via_of hw, via_of hw]
    split_ifs <;> exact ⟨rfl, rfl⟩
  have hchain : Chain infos' (p :: l) := by
    constructor
    · have hl : Linked _ _ none ([] ++ l) none := h.linked
      apply @Linked.link _ _ _ _ _ _ _ _ [] _ _ hl h.nodup
      · rw [via_of hself, Option.or_none]
      · rw [via_of hself]
        rfl
      · intro y hy
        rw [(hvia y hy).1]
        simp
      · exact fun y hy => (hvia y hy).2
    · exact List.nodup_cons.mpr ⟨hpl, h.nodup⟩
    · intro q hq
      rcases List.mem_cons.mp hq with rfl | hq
      · exact ⟨_, hself⟩
      · obtain ⟨w, hw⟩ := h.alive q hq
        exact ⟨_, by rw [hrest q fun he => hpl (he ▸ hq), hw, Option.map_some]⟩
    · intro q hq
      rcases List.mem_cons.mp hq with rfl | hq
      · exact hb
      · exact h.bound q hq
    · have hhead : ∀ q ∈ l, ∀ u, infos' q = some u → u.pid ≠ v.pid := by
        intro q hq u hu
        obtain ⟨w, hw, hpid, -⟩ := hat q hq u hu
        rw [← hpid]
        exact h.entries_eq_none.mp hn q hq w hw
      intro q hq r hr u₁ u₂ hu₁ hu₂ he
      by_cases hqp : q = p <;> by_cases hrp : r = p
      · rw [hqp, hrp]
      · rw [hqp, hself] at hu₁
        cases hu₁
        exact absurd he.symm (hhead r (List.mem_of_ne_of_mem hrp hr) u₂ hu₂)
      · rw [hrp, hself] at hu₂
        cases hu₂
        exact absurd he (hhead q (List.mem_of_ne_of_mem hqp hq) u₁ hu₁)
      · have hq := List.mem_of_ne_of_mem hqp hq
        have hr := List.mem_of_ne_of_mem hrp hr
        obtain ⟨w₁, hw₁, he₁, -⟩ := hat q hq u₁ hu₁
        obtain ⟨w₂, hw₂, he₂, -⟩ := hat r hr u₂ hu₂
        exact h.single q hq r hr w₁ w₂ hw₁ hw₂ (he₁.trans (he.trans he₂.symm))
    · intro q hq u hu
      by_cases hqp : q = p
      · rw [hqp, hself] at hu
        cases hu
        exact htmp
      · have hq := List.mem_of_ne_of_mem hqp hq
        obtain ⟨w, hw, -, ht⟩ := hat q hq u hu
        exact ht.symm.trans (h.idle q hq w hw)
  refine ⟨infos', hrun, hchain, h.entries_update hchain ?_
    (fun q w hw hne => ⟨?_, fun hq => ?_⟩) ?_, hself, fun q hq => ?_⟩
  · have he := hchain.entries_eq (List.mem_cons_self ..) hself
    exact he
  · have hqp : q ≠ p := fun he => by rw [he, hp] at hw; cases hw
    simp [hqp]
  · have hw' := hrest q fun he => hpl (he ▸ hq)
    rw [hw, Option.map_some] at hw'
    refine ⟨_, hw', ?_⟩
    split_ifs <;> exact ⟨rfl, rfl⟩
  · intro q hq u hu hne
    rcases List.mem_cons.mp hq with rfl | hq
    · rw [hself] at hu
      cases hu
      exact absurd rfl hne
    · obtain ⟨w, hw, hpid, -⟩ := hat q hq u hu
      exact ⟨w, hw, hpid⟩
  · obtain ⟨hqp, hql⟩ : q ≠ p ∧ q ∉ l := by simpa using hq
    rw [hrest q hqp]
    have hhead : l.head? ≠ some q := fun he => hql (List.mem_of_mem_head? he)
    simp [hhead]

/-- A node leaves the list and is freed. -/
theorem erase (h : Chain infos (xs ++ p :: ys)) (hv : infos p = some v) :
    ∃ infos', listRemove infos p = .ok infos' ∧
      Chain (Function.update infos' p none) (xs ++ ys) ∧
      entries (Function.update infos' p none) (xs ++ ys) =
        Function.update (entries infos (xs ++ p :: ys)) v.pid none ∧
      (∀ q, q ∉ xs ++ p :: ys → Function.update infos' p none q = infos q) ∧
      (if (xs ++ p :: ys).head? = some p then v.next else (xs ++ p :: ys).head?) =
        (xs ++ ys).head? := by
  have hsub : ∀ q ∈ xs ++ ys, q ∈ xs ++ p :: ys := fun q hq => by
    rcases List.mem_append.mp hq with hq | hq <;> simp [hq]
  have hmid := (List.nodup_middle.mp h.nodup)
  have hpl : p ∉ xs ++ ys := (List.nodup_cons.mp hmid).1
  obtain ⟨hprev, hnext⟩ := h.linked.at_mid
  rw [via_of hv, Option.or_none] at hprev hnext
  have hlast : ∀ q, xs.getLast? = some q → q ∈ xs ++ ys :=
    fun q hq => List.mem_append_left _ (List.mem_of_getLast? hq)
  have hfirst : ∀ q, ys.head? = some q → q ∈ xs ++ ys :=
    fun q hq => List.mem_append_right _ (List.mem_of_mem_head? hq)
  obtain ⟨infos₁, hrun₁, h₁⟩ := setNext_eq infos v.prev v.next
    fun q hq => h.alive q (hsub q (hlast q (hprev ▸ hq)))
  obtain ⟨infos₂, hrun₂, h₂⟩ := setPrev_eq infos₁ v.next v.prev
    fun q hq => by
      obtain ⟨w, hw⟩ := h.alive q (hsub q (hfirst q (hnext ▸ hq)))
      exact ⟨_, by rw [h₁, hw, Option.map_some]⟩
  have hp₁ : ¬ v.prev = some p := fun he => hpl (hlast p (hprev ▸ he))
  have hp₂ : ¬ v.next = some p := fun he => hpl (hfirst p (hnext ▸ he))
  have hpv : infos₂ p = some v := by
    rw [h₂, h₁, hv, Option.map_some, Option.map_some, if_neg hp₁, if_neg hp₂]
  have hrest : ∀ q, q ≠ p → Function.update (Function.update infos₂ p
      (some { v with prev := none, next := none })) p none q =
        (infos q).map fun w =>
          { w with
            next := if xs.getLast? = some q then ys.head? else w.next
            prev := if ys.head? = some q then xs.getLast? else w.prev } := by
    intro q hq
    rw [Function.update_of_ne hq, Function.update_of_ne hq, h₂, h₁, Option.map_map, hprev, hnext]
    congr 1
    funext w
    simp only [Function.comp]
    split_ifs <;> rfl
  have hrun : listRemove infos p =
      .ok (Function.update infos₂ p (some { v with prev := none, next := none })) := by
    rw [listRemove, load_some hv, ok_bind, hrun₁, ok_bind, hrun₂, ok_bind, modify_some hpv]
  generalize Function.update infos₂ p (some { v with prev := none, next := none }) = infos₃ at *
  have hat : ∀ q ∈ xs ++ ys, ∀ w, infos q = some w →
      Function.update infos₃ p none q = some
        { w with
          next := if xs.getLast? = some q then ys.head? else w.next
          prev := if ys.head? = some q then xs.getLast? else w.prev } := by
    intro q hq w hw
    rw [hrest q fun he => hpl (he ▸ hq), hw, Option.map_some]
  have hback : ∀ q ∈ xs ++ ys, ∀ u, Function.update infos₃ p none q = some u →
      ∃ w, infos q = some w ∧ w.pid = u.pid ∧ w.tmp = u.tmp := by
    intro q hq u hu
    obtain ⟨w, hw⟩ := h.alive q (hsub q hq)
    rw [hat q hq w hw] at hu
    cases hu
    exact ⟨w, hw, rfl, rfl⟩
  have hchain : Chain (Function.update infos₃ p none) (xs ++ ys) := by
    constructor
    · apply h.linked.unlink h.nodup
      · intro y hy
        obtain ⟨w, hw⟩ := h.alive y (hsub y hy)
        rw [via_of (hat y hy w hw), via_of hw, Option.or_none]
      · intro y hy
        obtain ⟨w, hw⟩ := h.alive y (hsub y hy)
        rw [via_of (hat y hy w hw), via_of hw, Option.or_none]
    · exact (List.nodup_cons.mp hmid).2
    · intro q hq
      obtain ⟨w, hw⟩ := h.alive q (hsub q hq)
      exact ⟨_, hat q hq w hw⟩
    · exact fun q hq => h.bound q (hsub q hq)
    · intro q hq r hr u₁ u₂ hu₁ hu₂ he
      obtain ⟨w₁, hw₁, he₁, -⟩ := hback q hq u₁ hu₁
      obtain ⟨w₂, hw₂, he₂, -⟩ := hback r hr u₂ hu₂
      exact h.single q (hsub q hq) r (hsub r hr) w₁ w₂ hw₁ hw₂ (he₁.trans (he.trans he₂.symm))
    · intro q hq u hu
      obtain ⟨w, hw, -, ht⟩ := hback q hq u hu
      exact ht.symm.trans (h.idle q (hsub q hq) w hw)
  refine ⟨infos₃, hrun, hchain, h.entries_update hchain ?_ (fun q w hw hne => ?_) ?_,
    fun q hq => ?_, ?_⟩
  · rw [hchain.entries_eq_none]
    intro q hq u hu hpid
    obtain ⟨w, hw, he, -⟩ := hback q hq u hu
    exact hpl (h.single q (hsub q hq) p (by simp) w v hw hv (he.trans hpid) ▸ hq)
  · have hqp : q ≠ p := fun he => hne (by rw [he, hv] at hw; cases hw; rfl)
    have hmem : q ∈ xs ++ p :: ys ↔ q ∈ xs ++ ys := by simp [hqp]
    exact ⟨hmem, fun hq => ⟨_, hat q (hmem.mp hq) w hw, rfl, rfl⟩⟩
  · intro q hq u hu _
    obtain ⟨w, hw, he, -⟩ := hback q hq u hu
    exact ⟨w, hw, he⟩
  · have hqp : q ≠ p := fun he => hq (by simp [he])
    have hql : q ∉ xs ++ ys := fun hm => hq (hsub q hm)
    have hl : ¬ xs.getLast? = some q := fun he => hql (hlast q he)
    have hf : ¬ ys.head? = some q := fun he => hql (hfirst q he)
    rw [hrest q hqp]
    simp [hl, hf]
  · cases xs with
    | nil => simp [hnext]
    | cons x xs =>
      have hxp : x ≠ p := fun he => hpl (by simp [he])
      simp [hxp]

end Chain
end Racoon.Sharing
