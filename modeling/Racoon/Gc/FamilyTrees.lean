import Racoon.Ds.FamilyLinks
import Racoon.Gc.Collector

/-!
# Family trees through births and deaths

Whatever `ds/family.h` does to a forest, and the loop by which `delete_thread` lets the children of
a thread without a parent go, leaves a forest. Nodes without a parent may be in several chains.
-/

namespace Racoon.Families
open Lib Gc

/-- No node is among its own ancestors. -/
def Acyclic (h : Kin) : Prop := (links h).Acyclic

/-- The node is in no chain and has no parent. -/
structure Detached (h : Kin) (fam : ℕ) : Prop where
  mem : fam ∈ nodes h
  ties : (links h).Detached fam

/-- The node is a descendant of the other, or the other itself. -/
def Below (h : Kin) (x y : ℕ) : Prop := (links h).Below x y

section Orphans
variable {h h' : Kin} {tr bound : ℕ} {l : List ℕ}

/-- More rounds than were needed make no difference. -/
theorem orphanFrom_mono {more : ℕ} (hok : orphanFrom tr bound h = .ok h') (hle : bound ≤ more) :
    orphanFrom tr more h = .ok h' := by
  induction bound generalizing h more with
  | zero => cases hok
  | succ bound ih =>
    obtain ⟨more, rfl⟩ : ∃ n, more = n + 1 := ⟨more - 1, by omega⟩
    obtain ⟨x, hx, hok⟩ := bind_eq_ok.mp hok
    rw [orphanFrom, hx, ok_bind]
    cases hc : x.child with
    | none =>
      rw [hc] at hok
      exact hok
    | some child =>
      rw [hc] at hok
      obtain ⟨h₁, h₁ok, hok⟩ := bind_eq_ok.mp hok
      obtain ⟨h₂, h₂ok, hok⟩ := bind_eq_ok.mp hok
      dsimp only
      rw [h₁ok, ok_bind, h₂ok, ok_bind]
      exact ih hok (Nat.le_of_succ_le_succ hle)

/-- By induction on the children that are left; a last round finds none. -/
theorem orphanFrom_links (hw : WellFormed h) (htr : tr ∈ nodes h)
    (hself : (links h).parent tr ≠ some tr) (hl : (links h).Children tr l)
    (hbound : l.length < bound) :
    ∃ h', orphanFrom tr bound h = .ok h' ∧ links h' = Links.releaseAll tr l (links h) ∧
      nodes h' = nodes h := by
  induction l generalizing h bound with
  | nil =>
    obtain ⟨bound, rfl⟩ : ∃ n, bound = n + 1 := ⟨bound - 1, by omega⟩
    obtain ⟨x, hx⟩ := mem_nodes.mp htr
    have hchild : x.child = none := (via_of hx).symm.trans hl.chained.start_eq
    refine ⟨h, ?_, rfl, rfl⟩
    rw [orphanFrom, load_some hx, ok_bind, hchild]
  | cons child l ih =>
    obtain ⟨bound, rfl⟩ : ∃ n, bound = n + 1 := ⟨bound - 1, by omega⟩
    obtain ⟨x, hx⟩ := mem_nodes.mp htr
    have hchild : x.child = some child := (via_of hx).symm.trans hl.chained.1
    have hparent : (links h).parent child = some tr := (hl.mem child).mp List.mem_cons_self
    have hne : child ≠ tr := fun h => hself (h ▸ hparent)
    have hmem : child ∈ nodes h := mem_nodes_of_via hparent
    obtain ⟨h₁, h₁ok, hlinks₁, hn₁⟩ := familyRemove_links hw hmem
    have hw₁ : WellFormed h₁ := by
      unfold WellFormed
      rw [hlinks₁, hn₁]
      exact Links.WellFormed.remove hw child
    obtain ⟨h₂, h₂ok, hlinks₂, hn₂⟩ := familyAddSibling_links hw₁ (hn₁ ▸ htr) (hn₁ ▸ hmem)
    rw [hlinks₁] at hlinks₂
    have hn₂ := hn₂.trans hn₁
    have hw₂ : WellFormed h₂ := by
      unfold WellFormed
      rw [hlinks₂, hn₂]
      exact (Links.WellFormed.remove hw child).addSibling (Links.remove_detached _ child)
    have hself₂ : (links h₂).parent tr ≠ some tr := by
      rw [hlinks₂, Links.release_parent _ hne, if_neg hne.symm]
      exact hself
    obtain ⟨h', hok, hlinks, hn⟩ := ih hw₂ (hn₂ ▸ htr) hself₂
      (hlinks₂ ▸ hl.release hw htr hself) (Nat.lt_of_succ_lt_succ hbound)
    refine ⟨h', ?_, ?_, hn.trans hn₂⟩
    · rw [orphanFrom, load_some hx, ok_bind, hchild]
      dsimp only
      rw [h₁ok, ok_bind, h₂ok, ok_bind, hok]
    · rw [hlinks, hlinks₂]
      rfl

end Orphans

section Operations
variable {h : Kin} {parent fam bro step dead tr : ℕ}

/-- What an operation on the pointers of a forest leaves is a forest of the same nodes. -/
theorem wellFormed_of_links {h' : Kin} {t : Links ℕ} (hlinks : links h' = t)
    (hn : nodes h' = nodes h) (ht : t.WellFormed (nodes h)) : WellFormed h' := by
  unfold WellFormed
  rw [hlinks, hn]
  exact ht

theorem familyAddChild_keeps (hw : WellFormed h) (hparent : parent ∈ nodes h)
    (hfam : Detached h fam) :
    ∃ h', familyAddChild h parent fam = .ok h' ∧ WellFormed h' ∧
      (Acyclic h → ¬ Below h parent fam → Acyclic h') := by
  obtain ⟨h', hok, hlinks, hn⟩ := familyAddChild_links hw hparent hfam.mem
  refine ⟨h', hok, wellFormed_of_links hlinks hn ?_, fun ha hno => ?_⟩
  · exact Links.WellFormed.addChild hw hfam.ties hparent
  · unfold Acyclic
    rw [hlinks]
    exact Links.Acyclic.addChild ha hno

theorem familyAddSibling_keeps (hw : WellFormed h) (hbro : bro ∈ nodes h)
    (hfam : Detached h fam) :
    ∃ h', familyAddSibling h bro fam = .ok h' ∧ WellFormed h' ∧
      (Acyclic h → ¬ Below h bro fam → Acyclic h') := by
  obtain ⟨h', hok, hlinks, hn⟩ := familyAddSibling_links hw hbro hfam.mem
  refine ⟨h', hok, wellFormed_of_links hlinks hn ?_, fun ha hno => ?_⟩
  · exact Links.WellFormed.addSibling hw hfam.ties
  · unfold Acyclic
    rw [hlinks]
    exact Links.Acyclic.addSibling ha fun p hp hpf => hno (.head hp hpf)

theorem familyRemove_keeps (hw : WellFormed h) (hfam : fam ∈ nodes h) :
    ∃ h', familyRemove h fam = .ok h' ∧ WellFormed h' ∧ (Acyclic h → Acyclic h') := by
  obtain ⟨h', hok, hlinks, hn⟩ := familyRemove_links hw hfam
  refine ⟨h', hok, wellFormed_of_links hlinks hn ?_, fun ha => ?_⟩
  · exact Links.WellFormed.remove hw fam
  · unfold Acyclic
    rw [hlinks]
    exact Links.Acyclic.remove ha fam

/-- Any bound on the rounds does that is not below the number of the children. -/
theorem familyAdopt_keeps (hw : WellFormed h) (hstep : step ∈ nodes h) (hdead : dead ∈ nodes h)
    (hne : step ≠ dead) :
    ∃ bound h', (∀ left ≥ bound, familyAdopt left h step dead = .ok h') ∧ WellFormed h' ∧
      (Acyclic h → ¬ Below h step dead → Acyclic h') ∧
      ∀ x, via Ties.parent h' x =
        if via Ties.parent h x = some dead then some step else via Ties.parent h x := by
  obtain ⟨l, hl⟩ := hw.children dead hdead
  obtain ⟨hwell, -, hparent⟩ := Links.giveAll_wellFormed hw hstep hdead hne.symm hl
  obtain ⟨h', hok, hlinks, hn⟩ := familyAdopt_links hw hstep hdead hne.symm hl le_rfl
  refine ⟨l.length, h', fun left hleft => ?_, wellFormed_of_links hlinks hn hwell,
    fun ha hno => ?_, fun x => ?_⟩
  · exact familyAdopt_mono hok hleft
  · unfold Acyclic
    rw [hlinks]
    exact Links.giveAll_acyclic hw hstep hdead hne.symm hl ha hno
  · have hx := hparent x
    rw [← hlinks] at hx
    exact hx

/-- The loop of `delete_thread` for a thread without a parent. -/
theorem orphanFrom_keeps (hw : WellFormed h) (htr : tr ∈ nodes h)
    (hroot : via Ties.parent h tr = none) :
    ∃ bound h', (∀ left ≥ bound, orphanFrom tr left h = .ok h') ∧ WellFormed h' ∧
      (Acyclic h → Acyclic h') ∧ via Ties.child h' tr = none ∧
      ∀ x, via Ties.parent h' x ≠ some tr := by
  obtain ⟨l, hl⟩ := hw.children tr htr
  have hself : (links h).parent tr ≠ some tr := fun hs =>
    absurd (hroot.symm.trans hs) nofun
  obtain ⟨hwell, hnone, -⟩ := Links.releaseAll_wellFormed hw htr hself hl
  obtain ⟨h', hok, hlinks, hn⟩ := orphanFrom_links hw htr hself hl (Nat.lt_succ_self _)
  rw [← hlinks] at hnone
  refine ⟨l.length + 1, h', fun left hleft => orphanFrom_mono hok hleft,
    wellFormed_of_links hlinks hn hwell, fun ha => ?_, hnone.chained, fun x hx => ?_⟩
  · unfold Acyclic
    rw [hlinks]
    exact Links.releaseAll_acyclic hw htr hl ha
  · exact List.not_mem_nil ((hnone.mem x).mpr hx)

end Operations

/-! ### Births and deaths one after the other -/

/-- A forest of `ds_family_tree` nodes. -/
structure IsForest (h : Kin) : Prop where
  wellFormed : WellFormed h
  acyclic : Acyclic h

/-- What may happen to a forest: a node is made, tied, given away with its siblings, taken out or
freed. -/
inductive Change (h : Kin) : Kin → Prop
  | init {fam : ℕ} (hnew : fam ∉ nodes h) : Change h (Function.update h fam (some untied))
  | addChild {parent fam : ℕ} {h' : Kin} (hparent : parent ∈ nodes h) (hfam : Detached h fam)
      (hno : ¬ Below h parent fam) (hok : familyAddChild h parent fam = .ok h') : Change h h'
  | addSibling {bro fam : ℕ} {h' : Kin} (hbro : bro ∈ nodes h) (hfam : Detached h fam)
      (hno : ¬ Below h bro fam) (hok : familyAddSibling h bro fam = .ok h') : Change h h'
  | adopt {step dead left : ℕ} {h' : Kin} (hstep : step ∈ nodes h) (hdead : dead ∈ nodes h)
      (hno : ¬ Below h step dead) (hok : familyAdopt left h step dead = .ok h') : Change h h'
  | remove {fam : ℕ} {h' : Kin} (hfam : fam ∈ nodes h) (hok : familyRemove h fam = .ok h') :
      Change h h'
  | orphan {tr left : ℕ} {h' : Kin} (htr : tr ∈ nodes h) (hroot : via Ties.parent h tr = none)
      (hok : orphanFrom tr left h = .ok h') : Change h h'
  | free {fam : ℕ} (hfam : Detached h fam) (hchild : via Ties.child h fam = none) :
      Change h (Function.update h fam none)

section Runs
variable {h h' : Kin} {fam : ℕ}

theorem links_update_of_blank {w : Option Ties} (hold : ∀ field : Ties → Option ℕ,
    field = Ties.parent ∨ field = Ties.child ∨ field = Ties.siblingPrev ∨
      field = Ties.siblingNext → via field h fam = none ∧ w.bind field = none) :
    links (Function.update h fam w) = links h := by
  have hsame : ∀ field : Ties → Option ℕ, via field h fam = none ∧ w.bind field = none →
      via field (Function.update h fam w) = via field h := by
    intro field hf
    funext y
    by_cases hy : y = fam
    · rw [hy, hf.1, via, Function.update_self, hf.2]
    · rw [via, via, Function.update_of_ne hy]
  refine Links.ext ?_ ?_ ?_ ?_
  all_goals exact hsame _ (hold _ (by simp))

theorem IsForest.init (hf : IsForest h) (hnew : fam ∉ nodes h) :
    IsForest (Function.update h fam (some untied)) := by
  have hlinks : links (Function.update h fam (some untied)) = links h :=
    links_update_of_blank fun field hfield => ⟨via_of_notMem hnew, by
      rcases hfield with rfl | rfl | rfl | rfl <;> rfl⟩
  have hn : nodes (Function.update h fam (some untied)) = insert fam (nodes h) := by
    ext y
    by_cases hy : y = fam <;> simp [nodes, hy]
  refine ⟨?_, ?_⟩
  · unfold WellFormed
    rw [hlinks, hn]
    have hw := hf.wellFormed
    refine ⟨fun x p hp => .inr (hw.present x p hp), fun p hp => ?_, hw.inverse, hw.siblings⟩
    rcases hp with rfl | hp
    · refine ⟨[], List.nodup_nil, via_of_notMem hnew, fun x => ⟨nofun, fun hx => ?_⟩⟩
      exact absurd (hw.present x p hx) hnew
    · exact hw.children p hp
  · unfold Acyclic
    rw [hlinks]
    exact hf.acyclic

theorem IsForest.free (hf : IsForest h) (hfam : Detached h fam)
    (hchild : via Ties.child h fam = none) : IsForest (Function.update h fam none) := by
  have hlinks : links (Function.update h fam none) = links h :=
    links_update_of_blank fun field hfield => ⟨by
      rcases hfield with rfl | rfl | rfl | rfl
      exacts [hfam.ties.parent, hchild, hfam.ties.prev, hfam.ties.next], rfl⟩
  have hn : nodes (Function.update h fam none) = nodes h \ {fam} := by
    ext y
    by_cases hy : y = fam <;> simp [nodes, hy]
  obtain ⟨l, hl⟩ := hf.wellFormed.children fam hfam.mem
  have hnone : l = [] := by
    have hstart := hl.chained.start_eq
    exact List.head?_eq_none_iff.mp (hstart.symm.trans hchild)
  refine ⟨?_, ?_⟩
  · unfold WellFormed
    rw [hlinks, hn]
    have hw := hf.wellFormed
    refine ⟨fun x p hp => ⟨hw.present x p hp, fun hpf => ?_⟩, fun p hp => hw.children p hp.1,
      hw.inverse, hw.siblings⟩
    have hmem := (hl.mem x).mpr (hpf ▸ hp)
    rw [hnone] at hmem
    exact List.not_mem_nil hmem
  · unfold Acyclic
    rw [hlinks]
    exact hf.acyclic

theorem Change.isForest (hf : IsForest h) (hc : Change h h') : IsForest h' := by
  cases hc with
  | init hnew => exact hf.init hnew
  | addChild hparent hfam hno hok =>
    obtain ⟨h₁, h₁ok, hw, ha⟩ := familyAddChild_keeps hf.wellFormed hparent hfam
    cases hok.symm.trans h₁ok
    exact ⟨hw, ha hf.acyclic hno⟩
  | addSibling hbro hfam hno hok =>
    obtain ⟨h₁, h₁ok, hw, ha⟩ := familyAddSibling_keeps hf.wellFormed hbro hfam
    cases hok.symm.trans h₁ok
    exact ⟨hw, ha hf.acyclic hno⟩
  | @adopt step dead left _ hstep hdead hno hok =>
    have hne : step ≠ dead := fun he => hno (he ▸ .refl)
    obtain ⟨bound, h₁, h₁ok, hw, ha, -⟩ := familyAdopt_keeps hf.wellFormed hstep hdead hne
    have hmore := familyAdopt_mono hok (le_max_left left bound)
    cases hmore.symm.trans (h₁ok _ (le_max_right left bound))
    exact ⟨hw, ha hf.acyclic hno⟩
  | remove hfam hok =>
    obtain ⟨h₁, h₁ok, hw, ha⟩ := familyRemove_keeps hf.wellFormed hfam
    cases hok.symm.trans h₁ok
    exact ⟨hw, ha hf.acyclic⟩
  | @orphan tr left _ htr hroot hok =>
    obtain ⟨bound, h₁, h₁ok, hw, ha, -⟩ := orphanFrom_keeps hf.wellFormed htr hroot
    have hmore := orphanFrom_mono hok (le_max_left left bound)
    cases hmore.symm.trans (h₁ok _ (le_max_right left bound))
    exact ⟨hw, ha hf.acyclic⟩
  | free hfam hchild => exact hf.free hfam hchild

/-- Any sequence of births and deaths. -/
theorem changes_isForest (hf : IsForest h) (hc : Relation.ReflTransGen Change h h') :
    IsForest h' := by
  induction hc with
  | refl => exact hf
  | tail _ hstep ih => exact hstep.isForest ih

end Runs

/-- `family_add_child`, `family_add_sibling`, `family_adopt`, `family_remove` and the loop of
`delete_thread`, in this order. A node tied below itself would be its own ancestor; the rest is
kept even then. -/
theorem family_trees_stay_well_formed {h : Kin} (hw : WellFormed h) :
    (∀ parent fam, parent ∈ nodes h → Detached h fam →
      ∃ h', familyAddChild h parent fam = .ok h' ∧ WellFormed h' ∧
        (Acyclic h → ¬ Below h parent fam → Acyclic h')) ∧
    (∀ bro fam, bro ∈ nodes h → Detached h fam →
      ∃ h', familyAddSibling h bro fam = .ok h' ∧ WellFormed h' ∧
        (Acyclic h → ¬ Below h bro fam → Acyclic h')) ∧
    (∀ step dead, step ∈ nodes h → dead ∈ nodes h → step ≠ dead →
      ∃ bound h', (∀ left ≥ bound, familyAdopt left h step dead = .ok h') ∧ WellFormed h' ∧
        (Acyclic h → ¬ Below h step dead → Acyclic h') ∧
        ∀ x, via Ties.parent h' x =
          if via Ties.parent h x = some dead then some step else via Ties.parent h x) ∧
    (∀ fam ∈ nodes h,
      ∃ h', familyRemove h fam = .ok h' ∧ WellFormed h' ∧ (Acyclic h → Acyclic h')) ∧
    ∀ tr ∈ nodes h, via Ties.parent h tr = none →
      ∃ bound h', (∀ left ≥ bound, orphanFrom tr left h = .ok h') ∧ WellFormed h' ∧
        (Acyclic h → Acyclic h') ∧ via Ties.child h' tr = none ∧
        ∀ x, via Ties.parent h' x ≠ some tr :=
  ⟨fun _ _ hparent hfam => familyAddChild_keeps hw hparent hfam,
    fun _ _ hbro hfam => familyAddSibling_keeps hw hbro hfam,
    fun _ _ hstep hdead hne => familyAdopt_keeps hw hstep hdead hne,
    fun _ hfam => familyRemove_keeps hw hfam,
    fun _ htr hroot => orphanFrom_keeps hw htr hroot⟩

/-- Three nodes that nothing ties together. -/
def looseNodes : Kin := fun x => if x < 3 then some untied else none

theorem looseNodes_links : links looseNodes = ⟨fun _ => none, fun _ => none, fun _ => none,
    fun _ => none⟩ := by
  unfold links
  congr 1 <;> funext x <;> by_cases hx : x < 3 <;> simp [via, looseNodes, hx, untied]

theorem looseNodes_wellFormed : WellFormed looseNodes := by
  unfold WellFormed
  rw [looseNodes_links]
  exact ⟨nofun, fun _ _ => ⟨[], List.nodup_nil, rfl, fun _ => ⟨nofun, nofun⟩⟩,
    fun _ _ => ⟨nofun, nofun⟩, nofun⟩

/-- The node 1 becomes a child of 0 and, when that dies, one of 2. -/
theorem looseNodes_adopt : ∃ h₁ bound h₂, familyAddChild looseNodes 0 1 = .ok h₁ ∧
    (∀ left ≥ bound, familyAdopt left h₁ 2 0 = .ok h₂) ∧ WellFormed h₂ := by
  have hmem : ∀ x < 3, x ∈ nodes looseNodes := fun x hx => mem_nodes.mpr ⟨untied, if_pos hx⟩
  have hchild : Detached looseNodes 1 := by
    refine ⟨hmem 1 (by decide), ?_⟩
    rw [looseNodes_links]
    exact ⟨rfl, rfl, rfl⟩
  obtain ⟨h₁, hok₁, hw₁, -⟩ :=
    (family_trees_stay_well_formed looseNodes_wellFormed).1 0 1 (hmem 0 (by decide)) hchild
  obtain ⟨p, -, he⟩ := familyAddChild_edited hok₁
  obtain ⟨bound, h₂, hok₂, hw₂, -⟩ := (family_trees_stay_well_formed hw₁).2.2.1 2 0
    (he.nodes_eq ▸ hmem 2 (by decide)) (he.nodes_eq ▸ hmem 0 (by decide)) (by decide)
  exact ⟨h₁, bound, h₂, hok₁, hok₂, hw₂⟩

end Racoon.Families
