import Racoon.Ds.Adoption
import Racoon.Ds.ProbeFaults
import Racoon.Processes.Threads

/-!
# Walks over the threads

The list, the tree and the hash table of a process hold the same threads along every
run, and the list begins with the first thread, as long as that one, when it goes, is
followed by the same thread in the list and in the tree.
-/

namespace Racoon.Threads
open Lib Families Gc HashTables
open Ipc (ThreadKey)

/-! ### The pointers of the threads -/

section Pointers
variable {h h' : Kin} {M : Set ℕ} {kids : Option ℕ → List ℕ} {age : ℕ → ℕ} {a : Option ℕ}
  {tr bound : ℕ} {next : Option ℕ} {xs ys l₁ l₂ : List ℕ}

/-- By induction on the rounds; each puts a child right behind the thread. -/
theorem orphanFrom_forest (hF : Forest h M none kids age) (hroots : kids none = xs ++ tr :: ys)
    (hok : orphanFrom tr bound h = .ok h') :
    ∃ kids', Forest h' M none kids' age ∧ kids' (some tr) = [] ∧
      kids' none = xs ++ tr :: ((kids (some tr)).reverse ++ ys) ∧ SameList h h' := by
  induction bound generalizing h kids ys with
  | zero => cases hok
  | succ bound ih =>
    have htr : tr ∈ M := (hF.mem none tr (hroots ▸ List.mem_append_right xs List.mem_cons_self)).1
    obtain ⟨x, hx, hok⟩ := bind_eq_ok.mp hok
    have hchild := hF.child tr htr
    rw [via_of (load_eq_ok.mp hx)] at hchild
    rw [hchild] at hok
    cases hk : kids (some tr) with
    | nil =>
      rw [hk] at hok
      cases hok
      exact ⟨kids, hF, hk, by simpa using hroots, rfl, rfl⟩
    | cons child rest =>
      rw [hk] at hok
      obtain ⟨h₁, h₁ok, hok⟩ := bind_eq_ok.mp hok
      obtain ⟨h₂, h₂ok, hok⟩ := bind_eq_ok.mp hok
      have hchild : child ∈ M := (hF.mem _ child (hk ▸ List.mem_cons_self)).1
      have hF₁ := hF.remove (hk.trans (List.nil_append _).symm) h₁ok
      have hF₂ := hF₁.addSibling hchild (q := none) (by simpa using hroots) nofun h₂ok
      obtain ⟨kids', hF', hnone, hroots', hlist⟩ := ih hF₂ (Function.update_self ..) hok
      refine ⟨kids', hF', hnone, ?_, ((familyRemove_sameList h₁ok).trans
        (familyAddSibling_sameList h₂ok)).trans hlist⟩
      simpa using hroots'

theorem untie_eq_ok (hok : untie bound h tr = .ok (h', next)) : ∃ x h₁ h₂,
    h tr = some x ∧
    (match x.parent with
      | some parent => familyAdopt bound h parent tr
      | none => orphanFrom tr bound h) = .ok h₁ ∧
    next = via Ties.siblingNext h₁ tr ∧ familyRemove h₁ tr = .ok h₂ ∧
      listRemove h₂ tr = .ok h' := by
  obtain ⟨x, hx, hok⟩ := bind_eq_ok.mp hok
  refine ⟨x, ?_⟩
  cases hp : x.parent with
  | none =>
    rw [hp] at hok
    obtain ⟨h₁, h₁ok, hok⟩ := bind_eq_ok.mp hok
    obtain ⟨y, hy, hok⟩ := bind_eq_ok.mp hok
    obtain ⟨h₂, h₂ok, hok⟩ := bind_eq_ok.mp hok
    obtain ⟨h₃, h₃ok, hok⟩ := bind_eq_ok.mp hok
    cases hok
    exact ⟨h₁, h₂, load_eq_ok.mp hx, h₁ok, (via_of (load_eq_ok.mp hy)).symm, h₂ok, h₃ok⟩
  | some parent =>
    rw [hp] at hok
    obtain ⟨h₁, h₁ok, hok⟩ := bind_eq_ok.mp hok
    obtain ⟨y, hy, hok⟩ := bind_eq_ok.mp hok
    obtain ⟨h₂, h₂ok, hok⟩ := bind_eq_ok.mp hok
    obtain ⟨h₃, h₃ok, hok⟩ := bind_eq_ok.mp hok
    cases hok
    exact ⟨h₁, h₂, load_eq_ok.mp hx, h₁ok, (via_of (load_eq_ok.mp hy)).symm, h₂ok, h₃ok⟩

/-- The thread is out of the tree and the list. A first sibling without a parent is followed by the
last of its children, or by the next sibling. -/
structure Untied (h h' : Kin) (M : Set ℕ) (kids kids' : Option ℕ → List ℕ) (age : ℕ → ℕ) (tr : ℕ)
    (next : Option ℕ) : Prop where
  forest : Forest h' M (some tr) kids' age
  childless : kids' (some tr) = []
  first : (kids' none).head? = if (kids none).head? = some tr then next else (kids none).head?
  next : ∀ ys, kids none = tr :: ys → next = ((kids (some tr)).reverse ++ ys).head?

theorem untie_untied (hF : Forest h M none kids age) (htr : tr ∈ M)
    (hl : Listed h (l₁ ++ tr :: l₂)) (hsub : ∀ x ∈ l₁ ++ l₂, x ∈ M)
    (hok : untie bound h tr = .ok (h', next)) :
    (∃ kids', Untied h h' M kids kids' age tr next) ∧ Listed h' (l₁ ++ l₂) := by
  obtain ⟨x, h₁, h₂, hx, h₁ok, hnext, h₂ok, hok⟩ := untie_eq_ok hok
  obtain ⟨v, -, he⟩ := listRemove_edited hok
  have hlast : ∀ {kids'}, Forest h₂ M (some tr) kids' age → Forest h' M (some tr) kids' age :=
    fun hF₂ => hF₂.of_edited he (fun _ _ => rfl) (fun _ _ => rfl) (fun _ _ => rfl) fun _ _ => rfl
  have hlist : ∀ {kids'}, Forest h₂ M (some tr) kids' age → SameList h h₂ →
      Listed h' (l₁ ++ l₂) :=
    fun hF₂ hs => (hl.congr hs).remove (fun y hy => hF₂.present y (hsub y hy)) hok
  have hown := hF.own tr htr nofun
  rw [via_of hx] at hown
  cases hp : x.parent with
  | some p =>
    rw [hp] at h₁ok hown
    have hroot : tr ∉ kids none := fun hr => nomatch hF.apart hr hown
    obtain ⟨hF₁, hs⟩ := hF.adopt hown h₁ok
    obtain ⟨hM, -, hp₁⟩ := hF.mem _ tr hown
    obtain ⟨-, hage⟩ := hF.older p tr hown
    have hne : some p ≠ some tr := fun h => hage.ne (congrArg age (Option.some.inj h))
    have hmem : tr ∈ (kids (some tr)).reverse ++ kids (some p) := List.mem_append_right _ hown
    obtain ⟨xs, ys, hsplit⟩ := List.append_of_mem hmem
    have hF₂ := hF₁.remove (q := some p) (by rw [Function.update_self, hsplit]) h₂ok
    refine ⟨⟨_, hlast hF₂, ?_, ?_, fun ys hys => ?_⟩,
      hlist hF₂ (hs.trans (familyRemove_sameList h₂ok))⟩
    · simp [Function.update_of_ne hne.symm]
    · simp only [Function.update_of_ne (show (none : Option ℕ) ≠ some p from nofun),
        Function.update_of_ne (show (none : Option ℕ) ≠ some tr from nofun)]
      exact (if_neg fun h => hroot (List.mem_of_mem_head? h)).symm
    · exact absurd (hys ▸ List.mem_cons_self) hroot
  | none =>
    rw [hp] at h₁ok hown
    obtain ⟨xs, ys, hroots⟩ := List.append_of_mem hown
    obtain ⟨kids₁, hF₁, hchildless, hroots₁, hs⟩ := orphanFrom_forest hF hroots h₁ok
    have hF₂ := hF₁.remove hroots₁ h₂ok
    have hbehind := (hF₁.linked none)
    rw [hroots₁] at hbehind
    have hnext := hnext.trans hbehind.at_mid.2
    rw [Option.or_none] at hnext
    have hnodup := hF.nodup none
    rw [hroots] at hnodup
    refine ⟨⟨_, hlast hF₂, ?_, ?_, fun zs hzs => ?_⟩,
      hlist hF₂ (hs.trans (familyRemove_sameList h₂ok))⟩
    · rw [Function.update_of_ne (show some tr ≠ none from nofun), hchildless]
    · rw [Function.update_self, hroots]
      cases xs with
      | nil => simp [hnext]
      | cons y xs =>
        have hne : y ≠ tr := by
          rintro rfl
          exact (List.nodup_cons.mp hnodup).1 (List.mem_append_right _ List.mem_cons_self)
        simp [hne]
    · cases xs with
      | nil =>
        rw [hroots] at hzs
        cases hzs
        exact hnext
      | cons y xs =>
        rw [hroots] at hzs
        cases hzs
        exact absurd (List.mem_append_right xs List.mem_cons_self) (List.nodup_cons.mp hnodup).1

/-- A new thread in the tree and, behind the first one, in the list. -/
theorem tie_tied {head parent head' : Option ℕ} {l : List ℕ} (hF : Forest h M (some tr) kids age)
    (htr : h tr = some untied) (hM : ∀ x, x ∈ M ↔ x = tr ∨ x ∈ l) (hl : Listed h l) (hnew : tr ∉ l)
    (hhead : head = l.head?) (hroots : (kids none).head? = l.head?)
    (hparent : ∀ p, parent = some p → p ∈ l ∧ age p < age tr)
    (hok : tie h head parent tr = .ok (h', head')) :
    ∃ kids' l', Forest h' M none kids' age ∧ Listed h' l' ∧ l'.Perm (tr :: l) ∧
      head' = l'.head? ∧ (kids' none).head? = l'.head? := by
  have htrM : tr ∈ M := (hM tr).mpr (.inl rfl)
  cases l with
  | nil =>
    cases hhead
    cases hok
    have hnone : kids none = [] := List.head?_eq_none_iff.mp hroots
    have honly : ∀ x ∈ M, x = tr := fun x hx => ((hM x).mp hx).resolve_right List.not_mem_nil
    have hput : Forest.Put h h M tr none [] [] := by
      refine ⟨fun x v hv => ⟨v, hv⟩, fun x hx => ?_, fun x hx => (if_neg nofun).symm,
        fun x hx => ?_, fun x hx => ?_⟩
      all_goals
        rw [honly x hx, via_of htr, if_pos rfl]
        rfl
    refine ⟨_, [tr], hF.put htrM (by rw [hnone]; rfl) (fun p hp => by cases hp) hput,
      ⟨List.nodup_singleton tr, ?_⟩, .refl _, rfl, by rw [Function.update_self]; rfl⟩
    exact ⟨via_of htr, via_of htr, trivial⟩
  | cons head l =>
    cases hhead
    obtain ⟨h₁, h₁ok, hok⟩ := bind_eq_ok.mp hok
    obtain ⟨h₂, h₂ok, hok⟩ := bind_eq_ok.mp hok
    cases hok
    obtain ⟨kids', hF₁, hroots₁, hs⟩ : ∃ kids', Forest h₁ M none kids' age ∧
        (kids' none).head? = some head ∧ SameList h h₁ := by
      cases parent with
      | none =>
        obtain ⟨ys, hys⟩ := List.head?_eq_some_iff.mp hroots
        refine ⟨_, hF.addSibling htrM (hys.trans (List.nil_append _).symm) nofun h₁ok, ?_,
          familyAddSibling_sameList h₁ok⟩
        rw [Function.update_self]
        rfl
      | some p =>
        obtain ⟨hp, hage⟩ := hparent p rfl
        refine ⟨_, hF.addChild htrM htr ((hM p).mpr (.inr hp)) hage h₁ok, ?_,
          familyAddChild_sameList h₁ok⟩
        rw [Function.update_of_ne (show (none : Option ℕ) ≠ some p from nofun)]
        exact hroots
    obtain ⟨w, hw⟩ := hF₁.present tr htrM
    obtain ⟨v, -, he⟩ := listInsertAfter_edited h₂ok
    refine ⟨kids', head :: tr :: l, hF₁.of_edited he (fun _ _ => rfl) (fun _ _ => rfl)
      (fun _ _ => rfl) fun _ _ => rfl, ?_, .swap tr head l, rfl, hroots₁⟩
    have hl' : Listed h₁ ([] ++ head :: l) := hl.congr hs
    exact hl'.insertAfter hnew
      (fun x hx => hF₁.present x ((hM x).mpr (.inr hx))) hw h₂ok

end Pointers

/-! ### Runs -/

/-- A table of threads, whatever keys they have. -/
structure Tabled (t : HashTable (Option ℕ)) (S : Multiset (Option ℕ)) : Prop where
  stored : Slots.contents t.table t.size = S
  total : t.total = S.card
  size_pos : 0 < t.size
  size_le : t.size ≤ 2 ^ 30
  percent : t.percent ≤ 100

section Tables
variable {g : Setting} {k : Kernel} {temp : ThreadKey} {t : HashTable (Option ℕ)}
  {c : Counted (Option ℕ)} {requests : ℕ} {S : Multiset (Option ℕ)} {data : Option ℕ} {rc : ℤ}

theorem isInt_key (k : Kernel) (temp : ThreadKey) (t : HashTable (Option ℕ)) (x : Option ℕ) :
    IsInt ((k.threadsHtable t temp).key x) := isInt_magnitude (isInt_int32 _)

theorem Tabled.stores (h : Tabled t S) (k : Kernel) (temp : ThreadKey) :
    Stores (2 ^ 30) (k.threadsHtable t temp) (k.threadsHtable t temp) S :=
  ⟨h.stored, h.total, h.size_pos, h.size_le, rfl, rfl, rfl⟩

theorem Tabled.of_stores {t' : HashTable (Option ℕ)} (h : Tabled t S) {S' : Multiset (Option ℕ)}
    (hs : Stores (2 ^ 30) (k.threadsHtable t temp) t' S') : Tabled t' S' :=
  ⟨hs.stored, hs.total, hs.size_pos, hs.size_le, hs.percent.trans_le h.percent⟩

theorem Tabled.insert (h : Tabled t S) (hg : Bounded g) (hroom : t.total ≠ t.size)
    (hok : htableInsert g.kmalloc ⟨k.threadsHtable t temp, requests⟩ data = .ok (c, rc)) :
    Tabled c.table (data ::ₘ S) := by
  have hcard : S.card < t.total + 1 := by
    rw [h.total]
    exact Nat.lt_succ_self _
  rcases insertWithin_returns (by decide) (isInt_key k temp t)
    (fun n slots hn => (hg n slots hn).le)
    (t.total + 1) ⟨k.threadsHtable t temp, requests⟩ S data (h.stores k temp) hcard with
    ⟨hfull, -⟩ | ⟨-, c₁, hr, hstores, -⟩ | ⟨-, e, hr⟩
  · exact absurd (h.total.trans hfull) hroom
  all_goals
    rw [htableInsert, show (k.threadsHtable t temp).total = t.total from rfl, hr] at hok
    cases hok
  · exact h.of_stores hstores

theorem Tabled.remove (h : Tabled t S) (hg : Bounded g) (hmem : data ∈ S)
    (hok : htableRemove g.kmalloc ⟨k.threadsHtable t temp, requests⟩ data = .ok (c, rc)) :
    Tabled c.table (S.erase data) := by
  rcases (h.stores k temp).remove (c := ⟨k.threadsHtable t temp, requests⟩) (by decide)
    (isInt_key k temp t) (fun n slots hn => (hg n slots hn).le) h.percent hmem with
    ⟨c₁, hr, hstores⟩ | ⟨-, e, hr⟩
  all_goals
    rw [hr] at hok
    cases hok
  · exact h.of_stores hstores

end Tables

/-- What the pointers, the table and the count say of the threads `l` of the process `a`. -/
structure Threaded (k : Kernel) (a : ℕ) (p : Process) (l : List ℕ) (kids : Option ℕ → List ℕ)
    (age : ℕ → ℕ) : Prop where
  process : k.processes a = some p
  live : ∀ x, x ∈ l ↔ Live k a x
  listed : Listed k.threadTree l
  forest : Forest k.threadTree {x | x ∈ l} none kids age
  threads : p.threads = l.head?
  roots : (kids none).head? = l.head?
  table : Tabled p.threadsHtable.table (l.map some : List (Option ℕ))
  count : p.threadCount = l.length

section Steps
variable {g : Setting} {k k' : Kernel} {a tr : ℕ} {p : Process} {l : List ℕ}
  {kids : Option ℕ → List ℕ} {age : ℕ → ℕ}

theorem walk_of_listed {h : Kin} {b : Option ℕ} {l : List ℕ} (hpresent : ∀ x ∈ l, ∃ v, h x = some v)
    (hl : Linked (via Ties.next h) (via Ties.prev h) b l none) : Walk h l.head? l := by
  induction l generalizing b with
  | nil => rfl
  | cons x l ih =>
    obtain ⟨v, hv⟩ := hpresent x List.mem_cons_self
    obtain ⟨-, hnext, hl⟩ := hl
    rw [via_of hv, Option.or_none] at hnext
    refine ⟨rfl, v, hv, ?_⟩
    rw [hnext]
    exact ih (fun y hy => hpresent y (List.mem_cons_of_mem x hy)) hl

theorem Threaded.visits (h : Threaded k a p l kids age) : Visits k a p l := by
  refine ⟨h.process, ?_, h.listed.1, h.live, h.table.stored, h.count, ?_⟩
  · rw [h.threads]
    exact walk_of_listed h.forest.present h.listed.2
  · rw [h.threads, List.head?_eq_none_iff]
    constructor
    · rintro rfl x hx
      cases (h.live x).mpr hx
    · exact fun hnone => List.eq_nil_iff_forall_not_mem.mpr fun x hx => hnone x ((h.live x).mp hx)

/-- A new thread that finds a slot in the table. -/
theorem Threaded.newThread (h : Threaded k a p l kids age) (hg : Bounded g) {parent : Option ℕ}
    {key : ThreadKey} {rc : ℤ} (hparent : ∀ x, parent = some x → Live k a x)
    (hfree : k.threads tr = none)
    (hroom : p.threadsHtable.table.total ≠ p.threadsHtable.table.size)
    (hok : Threads.newThread g k a parent key (some tr) = .ok (k', rc)) :
    ∃ p' l' kids' age', Threaded k' a p' l' kids' age' := by
  have hnew : tr ∉ l := by
    intro hmem
    obtain ⟨t, ht, -⟩ := (h.live tr).mp hmem
    rw [hfree] at ht
    cases ht
  obtain ⟨q, hq, hok⟩ := bind_eq_ok.mp hok
  obtain ⟨⟨tree, threads⟩, htie, hok⟩ := bind_eq_ok.mp hok
  obtain ⟨⟨table, rc'⟩, hinsert, hok⟩ := bind_eq_ok.mp hok
  cases hok
  have hq := deref_eq_ok.mp hq
  rw [show k.processes a = some p from h.process] at hq
  cases hq
  -- the tree and the list
  let n := parent.elim 0 fun x => age x + 1
  have hF := h.forest.enter hnew n
  have hlisted : Listed (Function.update k.threadTree tr (some untied)) l := by
    refine ⟨h.listed.1, h.listed.2.congr (fun x hx => ?_) fun x hx => ?_⟩
    all_goals
      have hne : x ≠ tr := fun hxt => hnew (hxt ▸ hx)
      rw [via_update, if_neg hne]
  have hborn : ∀ x, parent = some x → x ∈ l ∧
      Function.update age tr n x < Function.update age tr n tr := by
    rintro x rfl
    have hx := (h.live x).mpr (hparent x rfl)
    have hne : x ≠ tr := fun hxt => hnew (hxt ▸ hx)
    rw [Function.update_of_ne hne, Function.update_self]
    exact ⟨hx, Nat.lt_succ_self _⟩
  obtain ⟨kids', l', hF', hlisted', hperm, hhead, hroots⟩ := tie_tied hF (Function.update_self ..)
    (fun x => Set.mem_insert_iff) hlisted hnew h.threads h.roots hborn htie
  have hmem : ∀ x, x ∈ l' ↔ x = tr ∨ x ∈ l := fun x => hperm.mem_iff.trans List.mem_cons
  have hset : insert tr {x | x ∈ l} = {x | x ∈ l'} := Set.ext fun x => (hmem x).symm
  rw [hset] at hF'
  have htable := h.table.insert hg hroom hinsert
  have hsame : ((l'.map some : List (Option ℕ)) : Multiset (Option ℕ)) =
      some tr ::ₘ (l.map some : List (Option ℕ)) := Multiset.coe_eq_coe.mpr (hperm.map some)
  refine ⟨_, l', kids', _, ⟨Function.update_self .., fun x => ?_, hlisted', hF', hhead, hroots, ?_,
    ?_⟩⟩
  · rw [hmem, Live]
    simp only [Kernel.setProcess, Function.update_apply]
    by_cases hx : x = tr
    · simp [hx]
    · rw [if_neg hx, h.live]
      exact or_iff_right hx
  · rw [hsame]
    exact htable
  · rw [hperm.length_eq, List.length_cons, Nat.cast_add, ← h.count]
    rfl

theorem getLast?_of_lastSibling {h : Kin} {b : Option ℕ} {c y : ℕ} {xs : List ℕ}
    (hl : Linked (via Ties.siblingNext h) (via Ties.siblingPrev h) b xs none)
    (hhead : xs.head? = some c) (hlast : LastSibling h c y) : xs.getLast? = some y := by
  induction hlast generalizing b xs with
  | @last c hc =>
    obtain ⟨ys, rfl⟩ := List.head?_eq_some_iff.mp hhead
    have hnext := hl.2.1
    rw [hc, Option.or_none] at hnext
    rw [List.head?_eq_none_iff.mp hnext.symm]
    rfl
  | @next c d y hc _ ih =>
    obtain ⟨ys, rfl⟩ := List.head?_eq_some_iff.mp hhead
    have hnext := hl.2.1
    rw [hc, Option.or_none] at hnext
    rw [List.getLast?_cons, ih hl.2.2 hnext.symm]
    rfl

/-- In an orderly call the first thread is followed by its heir. -/
theorem Threaded.heir (h : Threaded k a p (tr :: l) kids age) {ys : List ℕ}
    (hroots : kids none = tr :: ys)
    (hheir : ∀ y, via Ties.next k.threadTree tr = some y → Heir k.threadTree tr y) :
    ((kids (some tr)).reverse ++ ys).head? = l.head? := by
  have hnext := h.listed.2.2.1
  rw [Option.or_none] at hnext
  have hchild := h.forest.child tr List.mem_cons_self
  have hbehind := h.forest.linked none
  rw [hroots] at hbehind
  have hsibling := hbehind.2.1
  rw [Option.or_none] at hsibling
  cases l with
  | nil =>
    -- nobody else is there
    have hnone : (kids (some tr)).reverse ++ ys = [] := by
      refine List.eq_nil_iff_forall_not_mem.mpr fun x hx => ?_
      have honly : ∀ {q}, x ∈ kids q → x = tr := fun hq =>
        List.mem_singleton.mp (h.forest.mem _ x hq).1
      rcases List.mem_append.mp hx with hx | hx
      · have hk := List.mem_reverse.mp hx
        exact absurd (h.forest.older tr x hk).2 (honly hk ▸ lt_irrefl _)
      · have hnodup := h.forest.nodup none
        rw [hroots] at hnodup
        have hxt := honly (q := none) (hroots ▸ List.mem_cons_of_mem tr hx)
        exact (List.nodup_cons.mp hnodup).1 (hxt ▸ hx)
    rw [hnone]
  | cons y l =>
    have hy := hheir y hnext
    rw [Heir, hchild] at hy
    cases hk : kids (some tr) with
    | nil =>
      rw [hk] at hy
      exact hsibling.symm.trans hy
    | cons c cs =>
      rw [hk] at hy
      have hlinked := h.forest.linked (some tr)
      rw [hk] at hlinked
      have hlast := getLast?_of_lastSibling hlinked rfl hy
      rw [List.head?_append, List.head?_reverse, hlast]
      rfl

theorem Threaded.deleteThread (h : Threaded k a p l kids age) (hg : Bounded g) {rc : ℤ}
    (htr : Live k a tr)
    (hheir : p.threads = some tr → ∀ y, via Ties.next k.threadTree tr = some y →
      Heir k.threadTree tr y)
    (hok : Gc.deleteThread g k tr = .ok (k', rc)) :
    ∃ p' l' kids', Threaded k' a p' l' kids' age := by
  have hmem := (h.live tr).mpr htr
  obtain ⟨t, ht, hta⟩ := htr
  obtain ⟨t', ht', hok⟩ := bind_eq_ok.mp hok
  rw [deref_eq_ok.mp ht'] at ht
  cases ht
  obtain ⟨-, -, hok⟩ := bind_eq_ok.mp hok
  obtain ⟨a', ha, hok⟩ := bind_eq_ok.mp hok
  rw [deref_eq_ok.mp ha] at hta
  cases hta
  obtain ⟨q, hq, hok⟩ := bind_eq_ok.mp hok
  rw [h.process] at hq
  cases hq
  obtain ⟨⟨table, rc'⟩, hremove, hok⟩ := bind_eq_ok.mp hok
  obtain ⟨-, -, hok⟩ := bind_eq_ok.mp hok
  obtain ⟨⟨tree, next⟩, huntie, hok⟩ := bind_eq_ok.mp hok
  obtain ⟨x, -, hok⟩ := bind_eq_ok.mp hok
  obtain ⟨-, -, hok⟩ := bind_eq_ok.mp hok
  cases hok
  obtain ⟨l₁, l₂, rfl⟩ := List.append_of_mem hmem
  have hsub : ∀ x ∈ l₁ ++ l₂, x ∈ {x | x ∈ l₁ ++ tr :: l₂} := fun x hx =>
    List.mem_append.mpr ((List.mem_append.mp hx).imp_right (List.mem_cons_of_mem tr))
  obtain ⟨⟨kids', huntied⟩, hlisted⟩ := untie_untied h.forest hmem h.listed hsub huntie
  have hgone : tr ∉ l₁ ++ l₂ := (List.nodup_cons.mp (List.nodup_middle.mp h.listed.1)).1
  have hset : {x | x ∈ l₁ ++ tr :: l₂} \ {tr} = {x | x ∈ l₁ ++ l₂} := by
    ext x
    constructor
    · rintro ⟨hx, hne⟩
      exact (List.mem_append.mp hx).elim (List.mem_append_left _)
        fun hx => List.mem_append_right _ ((List.mem_cons.mp hx).resolve_left hne)
    · exact fun hx => ⟨hsub x hx, fun hxt => hgone (hxt ▸ hx)⟩
  have hforest := huntied.forest.leave huntied.childless
  rw [hset] at hforest
  have hlisted' : Listed (Function.update tree tr none) (l₁ ++ l₂) := by
    refine ⟨hlisted.1, hlisted.2.congr (fun x hx => ?_) fun x hx => ?_⟩
    all_goals
      have hne : x ≠ tr := fun hxt => hgone (hxt ▸ hx)
      rw [via, via, Function.update_of_ne hne]
  -- the first thread of the list and of the tree
  have hheads : (if p.threads = some tr then next else p.threads) = (l₁ ++ l₂).head? ∧
      (kids' none).head? = (l₁ ++ l₂).head? := by
    rw [huntied.first, h.threads, h.roots]
    cases l₁ with
    | nil =>
      have hroots := h.roots
      obtain ⟨ys, hys⟩ := List.head?_eq_some_iff.mp hroots
      have hnext := (huntied.next ys hys).trans (h.heir hys (hheir h.threads))
      rw [List.nil_append, List.head?_cons, if_pos rfl, hnext]
      exact ⟨rfl, rfl⟩
    | cons y l₁ =>
      have hne : (y :: l₁ ++ tr :: l₂).head? ≠ some tr := by
        intro hy
        cases hy
        exact hgone List.mem_cons_self
      rw [if_neg hne]
      exact ⟨rfl, rfl⟩
  have htable := h.table.remove hg (Multiset.mem_coe.mpr (List.mem_map_of_mem hmem)) hremove
  have hsame : ((l₁ ++ tr :: l₂).map some : Multiset (Option ℕ)).erase (some tr) =
      ((l₁ ++ l₂).map some : List (Option ℕ)) := by
    have hperm : ((l₁ ++ tr :: l₂).map some).Perm (some tr :: (l₁ ++ l₂).map some) :=
      List.perm_middle.map some
    rw [Multiset.coe_eq_coe.mpr hperm, ← Multiset.cons_coe, Multiset.erase_cons_head]
  rw [hsame] at htable
  refine ⟨_, l₁ ++ l₂, kids', ⟨Function.update_self .., fun x => ?_, hlisted', hforest, hheads.1,
    hheads.2, htable, ?_⟩⟩
  · rw [Live]
    dsimp only
    by_cases hx : x = tr
    · subst hx
      rw [Function.update_self]
      exact iff_of_false hgone (by simp)
    · rw [Function.update_of_ne hx]
      refine Iff.trans ?_ (h.live x)
      simp [hx]
  · have hlen : (l₁ ++ tr :: l₂).length = (l₁ ++ l₂).length + 1 := List.perm_middle.length_eq
    have hcount := h.count
    rw [hlen] at hcount
    dsimp only
    omega

theorem Started.threaded (h : Started k a p) : Threaded k a p [] (fun _ => []) fun _ => 0 := by
  obtain ⟨key, compare, ht⟩ := h.table
  refine ⟨h.process, fun x => ⟨nofun, fun hx => absurd hx (h.none_live x)⟩,
    ⟨List.nodup_nil, trivial⟩, ?_, h.threads, rfl, ?_, h.count⟩
  · exact ⟨fun x hx => (nomatch hx), fun q x hx => (nomatch hx), fun x hx => (nomatch hx),
      fun _ => List.nodup_nil, fun _ => trivial, fun x hx => (nomatch hx),
      fun p x hx => (nomatch hx)⟩
  · rw [ht]
    exact ⟨Slots.contents_empty 128, rfl, show 0 < 128 by decide, show 128 ≤ 2 ^ 30 by decide,
      show 75 ≤ 100 by decide⟩

theorem Threaded.step {i : Setting × Call} (h : Threaded k a p l kids age) (hg : Bounded i.1)
    (hp : i.2.Permitted k a) (ho : i.2.Orderly k a) (hs : (threadSystem a).step k i = .ok k') :
    ∃ p' l' kids' age', Threaded k' a p' l' kids' age' := by
  obtain ⟨⟨k₁, rc⟩, hok, hs⟩ := bind_eq_ok.mp hs
  cases hs
  obtain ⟨g, c⟩ := i
  cases c with
  | newThread parent key address =>
    cases address with
    | none =>
      cases hok
      exact ⟨p, l, kids, age, h⟩
    | some tr => exact h.newThread hg hp.1 (hp.2 tr rfl) (ho p h.process) hok
  | deleteThread tr =>
    obtain ⟨p', l', kids', h'⟩ := h.deleteThread hg hp (ho p h.process) hok
    exact ⟨p', l', kids', age, h'⟩

/-- In a run of orderly calls the walk comes to every thread. -/
theorem threads_all_visited {s t : Kernel} {is : List (Setting × Call)}
    (h₀ : (threadSystem a).Init s)
    (hr : ((threadSystem a).restrict fun k i => i.2.Orderly k a).Steps s is t) :
    AllVisited t a := by
  have hinv : ∃ p l kids age, Threaded t a p l kids age := by
    refine hr.invariant (P := fun k => ∃ p l kids age, Threaded k a p l kids age) ?_ ?_
    · rintro k i k' ⟨p, l, kids, age, h⟩ ⟨⟨hg, hp⟩, ho⟩ hs
      exact h.step hg hp ho hs
    · obtain ⟨p, h⟩ := h₀
      exact ⟨p, [], _, _, h.threaded⟩
  obtain ⟨p, l, kids, age, h⟩ := hinv
  exact ⟨p, l, h.visits⟩

end Steps

/-- The process 100 with no threads yet. -/
def noThreads : Kernel where
  processLock := ⟨0, 0, 0, false⟩
  processTable := ⟨initHtable 32 75 (fun _ => 0) fun _ _ => 0, 0⟩
  processes x := if x = 100 then
      some ⟨⟨2, fun _ => 0⟩, ⟨0, 0, 0, false⟩, 0, none,
        ⟨initHtable 128 75 (fun _ => 0) fun _ _ => 0, 0⟩, 0, 0⟩
    else none
  processTree _ := none
  threads _ := none
  threadTree _ := none
  cpus := ⟨fun _ => Scheduler.loadScheduler 0 fun _ => ⟨none, 0, 0, 0⟩, 1,
    fun _ => ⟨⟨0, 0, 0⟩, 0, 0⟩⟩

theorem noThreads_started : (threadSystem 100).Init noThreads :=
  ⟨_, rfl, rfl, ⟨_, _, rfl⟩, rfl, fun _ ⟨_, ht, _⟩ => nomatch ht⟩

def noMemory : Setting := ⟨0, none, fun _ _ => false, 8⟩

theorem noMemory_bounded : Bounded noMemory := fun _ _ h => nomatch h

/-- The thread `x` with the id `x`. -/
def start (parent : Option ℕ) (x : ℕ) : Setting × Call :=
  (noMemory, .newThread parent ⟨fun _ => 0, x⟩ (some x))

def stop (x : ℕ) : Setting × Call := (noMemory, .deleteThread x)

theorem start_permitted {k : Kernel} {parent : Option ℕ} {x : ℕ}
    (hp : ∀ y, parent = some y → Live k 100 y) (hx : k.threads x = none) :
    (threadSystem 100).Guard k (start parent x) :=
  ⟨noMemory_bounded, hp, fun y hy => by cases hy; exact hx⟩

/-- The first thread makes a second, and this a third one. When the first is gone the walk comes to
the second alone, as the third is before it in the list. -/
theorem third_not_visited : (threadSystem 100).Init noThreads ∧
    ∃ t, (threadSystem 100).Steps noThreads
        [start none 1, start (some 1) 2, start (some 2) 3, stop 1] t ∧
      Live t 100 3 ∧ ¬ AllVisited t 100 := by
  refine ⟨noThreads_started, ?_⟩
  obtain ⟨t, hsteps, hlive, p, hp, hhead, v, hv, hnext⟩ : ∃ t,
      (threadSystem 100).Steps noThreads [start none 1, start (some 1) 2, start (some 2) 3, stop 1]
        t ∧ Live t 100 3 ∧ ∃ p, t.processes 100 = some p ∧ p.threads = some 2 ∧
        ∃ v, t.threadTree 2 = some v ∧ v.next = none := by
    refine ⟨_, .cons (start_permitted nofun rfl) rfl
      (.cons (start_permitted (fun y hy => ?_) rfl) rfl
        (.cons (start_permitted (fun y hy => ?_) rfl) rfl (.one ⟨noMemory_bounded, ?_⟩ rfl))),
      ⟨_, rfl, rfl⟩, _, rfl, rfl, _, rfl, rfl⟩
    · cases hy
      exact ⟨_, rfl, rfl⟩
    · cases hy
      exact ⟨_, rfl, rfl⟩
    · exact ⟨_, rfl, rfl⟩
  refine ⟨t, hsteps, hlive, ?_⟩
  rintro ⟨q, l, hl⟩
  have hq := hl.process
  rw [hp] at hq
  cases hq
  have hwalk := hl.walk
  have hthird := (hl.live 3).mpr hlive
  rw [hhead] at hwalk
  cases l with
  | nil => cases hwalk
  | cons x l =>
    obtain ⟨hx, w, hw, hwalk⟩ := hwalk
    cases hx
    rw [hv] at hw
    cases hw
    rw [hnext] at hwalk
    cases l with
    | nil => exact absurd (List.mem_singleton.mp hthird) (by decide)
    | cons y l => cases hwalk.1

theorem second_visited : ∃ t, Live t 100 2 ∧ AllVisited t 100 := by
  have hr : ∃ t, ((threadSystem 100).restrict fun k i => i.2.Orderly k 100).Steps noThreads
      [start none 1, start (some 1) 2, stop 1] t ∧ Live t 100 2 := by
    have hroom : ∀ {k : Kernel} {p}, k.processes 100 = some p →
        p.threadsHtable.table.total ≠ p.threadsHtable.table.size →
        ∀ parent x, (start parent x).2.Orderly k 100 := by
      intro k p hp hne parent x q hq
      rw [hp] at hq
      cases hq
      exact hne
    refine ⟨_, .cons ⟨start_permitted nofun rfl, hroom rfl (by decide) none 1⟩ rfl
      (.cons ⟨start_permitted (fun y hy => ?_) rfl, hroom rfl (by decide) (some 1) 2⟩ rfl
        (.one ⟨⟨noMemory_bounded, ?_⟩, ?_⟩ rfl)), ⟨_, rfl, rfl⟩⟩
    · cases hy
      exact ⟨_, rfl, rfl⟩
    · exact ⟨_, rfl, rfl⟩
    · rintro p - - y hy
      cases hy
      exact .last rfl
  obtain ⟨t, hr, hlive⟩ := hr
  exact ⟨t, hlive, threads_all_visited noThreads_started hr⟩

end Racoon.Threads
