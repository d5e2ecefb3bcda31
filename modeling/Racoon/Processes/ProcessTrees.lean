import Racoon.Processes.Issuing
import Racoon.Processes.ProcessTable

/-!
# Every process is listed, found and below the first

Over any run the hash table, the list and the tree are three views of one registry:
a look-up finds the processes of the list and no others, a new process stands behind
the first one, and when a process goes its parent takes over its children, so that
every process stays a descendant of the first.
-/

namespace Racoon.ProcessTable
open Lib Lib.Lineage Families Gc HashTables RwLocks Strings
open Identifiers (ProcessKey)
open Listing (SMK_NAME_LENGTH)

def keyAt (k : Kernel) (a : ℕ) : Option ProcessKey := (k.processes a).map Gc.Process.key

def parentPid (h : Kin) (keys : ℕ → Option ProcessKey) (a : ℕ) : Option ℤ :=
  (via Ties.parent h a).bind fun b => (keys b).map ProcessKey.pid

/-- What the objects at an address say of a process. -/
def member (h : Kin) (keys : ℕ → Option ProcessKey) (a : ℕ) : Option (Member ℤ CString) :=
  (keys a).map fun key => ⟨key.pid, parentPid h keys a, key.name⟩

/-- The slots hold the processes `l`. -/
structure Stored (t : HashTable (Option ℕ)) (l : List ℕ) : Prop where
  contents : Slots.contents t.table t.size = (l.map some : List (Option ℕ))
  total : t.total = l.length
  size_pos : 0 < t.size
  size_le : t.size ≤ 2 ^ 30
  percent : t.percent = 75

/-- In no tree and in no list. -/
structure Untied (h : Kin) (a : ℕ) : Prop where
  loose : (links h).Loose a
  next : via Ties.next h a = none
  prev : via Ties.prev h a = none

structure Tied (s : Processes) (r : Registry) (l : List ℕ) : Prop where
  root : s.root = l.head?
  listed : Listed s.kernel.processTree l
  forest : IsForest s.kernel.processTree
  nodes : ∀ a, a ∈ nodes s.kernel.processTree ↔ ∃ key, keyAt s.kernel a = some key
  present : ∀ a ∈ l, ∃ key, keyAt s.kernel a = some key
  untied : ∀ a ∉ l, Untied s.kernel.processTree a
  members : l.map (member s.kernel.processTree (keyAt s.kernel)) = r.listed.map some
  made : ∀ a, r.made a = if a ∈ l then none else keyAt s.kernel a
  table : Stored s.kernel.processTable.table l
  lock : s.kernel.processLock.numReaders = 0 ∧ s.kernel.processLock.numWriters = 0 ∧
    s.kernel.processLock.writeRequest = 0
  fits : ∀ a key, keyAt s.kernel a = some key → Fits key.pid
  rooted : Rooted r.listed

def Represents (s : Processes) (r : Registry) : Prop := ∃ l, Tied s r l

variable {g : Setting} {s : Processes} {r : Registry} {l : List ℕ} {a b : ℕ} {pid : ℤ}
  {key : ProcessKey} {k' : Kernel}

theorem Fits.ptableKey_eq (h : Fits pid) : ptableKey pid = pid * 100 := by
  obtain ⟨h₀, hle⟩ := h
  rw [ptableKey, int32_of_le (by omega) (by omega), magnitude, if_neg (by omega)]

theorem processKey_some (k : Kernel) (temp : ProcessKey) (a : ℕ) :
    k.processKey temp (some a) = (keyAt k a).getD temp := rfl

namespace Tied

theorem in_nodes (h : Tied s r l) (ha : a ∈ l) : a ∈ Families.nodes s.kernel.processTree :=
  (h.nodes a).mpr (h.present a ha)

theorem inTable_iff (h : Tied s r l) : InTable s.kernel a ↔ a ∈ l := by
  rw [InTable, h.table.contents, Multiset.mem_coe, List.mem_map]
  exact ⟨fun ⟨x, hx, he⟩ => Option.some.inj he ▸ hx, fun ha => ⟨a, ha, rfl⟩⟩

theorem holds (h : Tied s r l) {temp : ProcessKey} (ht : Fits temp.pid) :
    Holds (2 ^ 30) (s.kernel.processHtable temp) (s.kernel.processHtable temp)
      (l.map some : List (Option ℕ)) := by
  refine ⟨h.table.contents, ?_, h.table.size_pos, h.table.size_le, rfl, rfl, rfl, fun x => ?_⟩
  · rw [Multiset.coe_card, List.length_map]
    exact h.table.total
  · have hfits : Fits (s.kernel.processKey temp x).pid := by
      cases x with
      | none => exact ht
      | some a =>
        rw [processKey_some]
        cases ha : keyAt s.kernel a with
        | none => exact ht
        | some key => exact h.fits a key ha
    change 2 ^ 30 + (ptableKey (s.kernel.processKey temp x).pid).natAbs ≤ 2 ^ 31
    rw [hfits.ptableKey_eq]
    obtain ⟨h₀, hle⟩ := hfits
    omega

/-- The pids of the list. -/
theorem map_pid (h : Tied s r l) :
    l.map (fun a => (keyAt s.kernel a).map ProcessKey.pid) = (r.listed.map Member.id).map some := by
  have hids := congrArg (List.map (Option.map Member.id)) h.members
  rw [List.map_map, List.map_map] at hids
  rw [List.map_map]
  refine Eq.trans (List.map_congr_left fun a _ => ?_)
    (hids.trans (List.map_congr_left fun m _ => rfl))
  rw [Function.comp_apply, member, Option.map_map]
  rfl

theorem pid_mem (h : Tied s r l) (ha : a ∈ l) (hkey : keyAt s.kernel a = some key) :
    key.pid ∈ r.listed.map Member.id := by
  have hmem : some key.pid ∈ l.map fun a => (keyAt s.kernel a).map ProcessKey.pid :=
    List.mem_map.mpr ⟨a, ha, by rw [hkey, Option.map_some]⟩
  rw [h.map_pid] at hmem
  obtain ⟨x, hx, he⟩ := List.mem_map.mp hmem
  exact Option.some.inj he ▸ hx

theorem pid_inj (h : Tied s r l) (ha : a ∈ l) (hb : b ∈ l)
    (he : (keyAt s.kernel a).map ProcessKey.pid = (keyAt s.kernel b).map ProcessKey.pid) :
    a = b := by
  refine List.inj_on_of_nodup_map (f := fun a => (keyAt s.kernel a).map ProcessKey.pid) ?_ ha hb he
  rw [h.map_pid]
  exact h.rooted.nodup.map (Option.some_injective _)

/-- A look-up finds the one process of the list that has the pid. -/
theorem find (h : Tied s r l) (hpid : Fits pid) :
    (s.kernel.findProcess pid = .ok none ∧ pid ∉ r.listed.map Member.id) ∨
    ∃ a ∈ l, ∃ key, keyAt s.kernel a = some key ∧ key.pid = pid ∧
      s.kernel.findProcess pid = .ok (some a) := by
  have htemp : Fits (⟨pid, fun _ => 0⟩ : ProcessKey).pid := hpid
  have hcompare : ∀ a, (s.kernel.processHtable ⟨pid, fun _ => 0⟩).compare (some a) none = 0 ↔
      (s.kernel.processKey ⟨pid, fun _ => 0⟩ (some a)).pid = pid := fun a =>
    Identifiers.ptableCompare_eq_zero (by
      change pid ≠ -1
      obtain ⟨h₀, -⟩ := hpid
      omega)
  rcases (h.holds htemp).retrieve none with ⟨hr, hno⟩ | ⟨e, he, hr, hc⟩
  · refine .inl ⟨by rw [Kernel.findProcess, hr, ok_bind]; rfl, fun hmem => ?_⟩
    have hsome := List.mem_map_of_mem (f := some) hmem
    rw [← h.map_pid] at hsome
    obtain ⟨a, ha, hkey⟩ := List.mem_map.mp hsome
    refine hno (some a) (List.mem_map_of_mem ha) ((hcompare a).mpr ?_)
    rw [processKey_some]
    obtain ⟨key, hkey', hp⟩ := Option.map_eq_some_iff.mp hkey
    rw [hkey', Option.getD_some, hp]
  · obtain ⟨a, ha, rfl⟩ := List.mem_map.mp he
    obtain ⟨key, hkey⟩ := h.present a ha
    have hp := (hcompare a).mp hc
    rw [processKey_some, hkey, Option.getD_some] at hp
    exact .inr ⟨a, ha, key, hkey, hp, by rw [Kernel.findProcess, hr, ok_bind]; rfl⟩

/-! ### Single calls -/

/-- What the parents of the listed processes are called, when the pointers to them change. -/
theorem parentPid_of {h : Kin} {keys keys' : ℕ → Option ProcessKey} {p : Option ℕ}
    (hp : via Ties.parent h a = p) (hkey : ∀ b, p = some b → keys' b = keys b) :
    parentPid h keys' a = p.bind fun b => (keys b).map ProcessKey.pid := by
  rw [parentPid, hp]
  cases p with
  | none => rfl
  | some b => rw [Option.bind_some, Option.bind_some, hkey b rfl]

theorem member_congr {h h' : Kin} {keys keys' : ℕ → Option ProcessKey} (hkey : keys' a = keys a)
    (hparent : parentPid h' keys' a = parentPid h keys a) :
    member h' keys' a = member h keys a := by
  rw [member, member, hkey, hparent]

theorem work (h : Tied s r l) (hsame : SameTable s.kernel k') : Tied ⟨k', s.root⟩ r l := by
  have hkeys : keyAt k' = keyAt s.kernel := funext hsame.keys
  obtain ⟨hroot, hlisted, hforest, hnodes, hpresent, huntied, hmembers, hmade, htable, hlock, hfits,
    hrooted⟩ := h
  rw [← hsame.tree] at hlisted hforest hnodes huntied hmembers
  rw [← hkeys] at hnodes hpresent hmade hfits hmembers
  rw [← hsame.table] at htable
  rw [← hsame.lock] at hlock
  exact ⟨hroot, hlisted, hforest, hnodes, hpresent, huntied, hmembers, hmade, htable, hlock, hfits,
    hrooted⟩

/-- A node that nobody knows of yet is untied. -/
theorem via_init {h : Kin} (ha : a ∉ Families.nodes h) {field : Ties → Option ℕ}
    (hf : field Families.untied = none) :
    via field (Function.update h a (some Families.untied)) = via field h := by
  funext y
  rw [via_update]
  split_ifs with hy
  · rw [hy, via_of_notMem ha, hf]
  · rfl

theorem parent_in_nodes (h : Tied s r l) (hp : via Ties.parent s.kernel.processTree a = some b) :
    b ∈ Families.nodes s.kernel.processTree := h.forest.wellFormed.parent_mem hp

theorem newProcess (h : Tied s r l) {name old : CString} (hnew : s.kernel.processes a = none)
    (hpid : Fits pid) :
    Tied ⟨ProcessTable.newProcess s.kernel a pid name old, s.root⟩
      { r with made :=
        Function.update r.made a (some ⟨pid, kstrncpy old name SMK_NAME_LENGTH⟩) } l := by
  have hnone : keyAt s.kernel a = none := by rw [keyAt, hnew, Option.map_none]
  have hnodes : a ∉ Families.nodes s.kernel.processTree := fun ha => by
    obtain ⟨key, hkey⟩ := (h.nodes a).mp ha
    rw [hnone] at hkey
    cases hkey
  have hal : a ∉ l := fun ha => hnodes (h.in_nodes ha)
  have hkey : ∀ b, keyAt (ProcessTable.newProcess s.kernel a pid name old) b =
      if b = a then some ⟨pid, kstrncpy old name SMK_NAME_LENGTH⟩ else keyAt s.kernel b := by
    intro b
    rw [keyAt, ProcessTable.newProcess, Kernel.setProcess]
    dsimp only
    rw [Function.update_apply]
    split_ifs <;> rfl
  have hvia : ∀ field : Ties → Option ℕ, field Families.untied = none →
      via field (ProcessTable.newProcess s.kernel a pid name old).processTree =
        via field s.kernel.processTree := fun field hf => via_init hnodes hf
  have hlinks : links (ProcessTable.newProcess s.kernel a pid name old).processTree =
      links s.kernel.processTree :=
    Links.ext (hvia _ rfl) (hvia _ rfl) (hvia _ rfl) (hvia _ rfl)
  have hold : ∀ b, b ≠ a → keyAt (ProcessTable.newProcess s.kernel a pid name old) b =
      keyAt s.kernel b := fun b hb => (hkey b).trans (if_neg hb)
  have hmember : ∀ b ∈ l, member (ProcessTable.newProcess s.kernel a pid name old).processTree
      (keyAt (ProcessTable.newProcess s.kernel a pid name old)) b =
        member s.kernel.processTree (keyAt s.kernel) b := by
    intro b hb
    refine member_congr (hold b fun he => hal (he ▸ hb))
      (parentPid_of (congrFun (hvia _ rfl) b) fun p hp => hold p fun he => ?_)
    exact hnodes (he ▸ h.parent_in_nodes hp)
  refine ⟨h.root, ?_, h.forest.init hnodes, fun b => ?_, fun b hb => ?_, fun b hb => ?_, ?_,
    fun b => ?_, h.table, h.lock, fun b key hb => ?_, h.rooted⟩
  · exact h.listed.congr ⟨hvia _ rfl, hvia _ rfl⟩
  · rw [hkey]
    change b ∈ Families.nodes (Function.update s.kernel.processTree a (some Families.untied)) ↔ _
    by_cases hb : b = a
    · simp [Families.nodes, hb]
    · rw [if_neg hb, ← h.nodes b]
      simp [Families.nodes, hb]
  · rw [hold b fun he => hal (he ▸ hb)]
    exact h.present b hb
  · obtain ⟨hloose, hnext, hprev⟩ := h.untied b hb
    exact ⟨hlinks ▸ hloose, (congrFun (hvia _ rfl) b).trans hnext,
      (congrFun (hvia _ rfl) b).trans hprev⟩
  · exact (List.map_congr_left hmember).trans h.members
  · dsimp only
    rw [Function.update_apply, hkey, h.made b]
    by_cases hb : b = a
    · rw [if_pos hb, if_pos hb, if_neg (hb ▸ hal)]
    · rw [if_neg hb, if_neg hb]
  · rw [hkey] at hb
    split_ifs at hb
    · cases hb
      exact hpid
    · exact h.fits b key hb

end Tied
theorem Stored.perm {t : HashTable (Option ℕ)} {xs ys : List ℕ} (h : Stored t xs)
    (hp : xs.Perm ys) :
    Stored t ys :=
  ⟨h.contents.trans (Multiset.coe_eq_coe.mpr (hp.map some)), h.total.trans hp.length_eq, h.size_pos,
    h.size_le, h.percent⟩

theorem Stored.of_holds {t₀ t : HashTable (Option ℕ)} {xs : List ℕ}
    (h : Holds (2 ^ 30) t₀ t (xs.map some : List (Option ℕ))) (hp : t₀.percent = 75) :
    Stored t xs := by
  refine ⟨h.stored, ?_, h.size_pos, h.size_le, h.percent.trans hp⟩
  rw [h.total, Multiset.coe_card, List.length_map]

namespace Tied

theorem store (h : Tied s r l) (hkey : Fits key.pid)
    (hg : ∀ n m, g.kmalloc n m = true → m ≤ 2 ^ 30)
    (hroom : s.kernel.processTable.table.total ≠ s.kernel.processTable.table.size) (a : ℕ) :
    ∃ c, htableInsert g.kmalloc ⟨s.kernel.processHtable key, s.kernel.processTable.requests⟩
      (some a) = .ok (c, 0) ∧ Stored c.table (a :: l) := by
  have hholds := h.holds hkey
  have hcard : (l.map some : Multiset (Option ℕ)).card <
      (s.kernel.processHtable key).total + 1 := by
    rw [hholds.total]
    exact Nat.lt_succ_self _
  rcases insertWithin_spec hg _ ⟨s.kernel.processHtable key, s.kernel.processTable.requests⟩ _
    (some a) hholds hcard with ⟨hfull, -⟩ | ⟨-, c, hok, hc, -⟩
  · exact absurd (hholds.total.trans hfull) hroom
  · exact ⟨c, hok, .of_holds hc h.table.percent⟩

theorem drop (h : Tied s r l) (hkey : Fits key.pid)
    (hg : ∀ n m, g.kmalloc n m = true → m ≤ 2 ^ 30) {xs ys : List ℕ} (hl : l = xs ++ a :: ys) :
    ∃ c, htableRemove g.kmalloc ⟨s.kernel.processHtable key, s.kernel.processTable.requests⟩
      (some a) = .ok (c, 0) ∧ Stored c.table (xs ++ ys) := by
  have hperm : l.Perm (a :: (xs ++ ys)) := hl ▸ List.perm_middle
  have hmem : some a ∈ (l.map some : Multiset (Option ℕ)) :=
    Multiset.mem_coe.mpr (List.mem_map_of_mem (hl ▸ by simp))
  have hpercent : (s.kernel.processHtable key).percent = 75 := h.table.percent
  obtain ⟨c, hok, hc⟩ := Holds.remove
    (c := ⟨s.kernel.processHtable key, s.kernel.processTable.requests⟩) hg
    (hpercent.trans_le (by decide)) (h.holds hkey) hmem
  refine ⟨c, hok, .of_holds ?_ hpercent⟩
  have hrest : ((l.map some : List (Option ℕ)) : Multiset (Option ℕ)).erase (some a) =
      ((xs ++ ys).map some : List (Option ℕ)) := by
    rw [Multiset.coe_eq_coe.mpr (hperm.map some), List.map_cons, ← Multiset.cons_coe,
      Multiset.erase_cons_head]
  rw [← hrest]
  exact hc

/-- The pid of a process that is not listed, when no listed one has it. -/
theorem pid_notMem (h : Tied s r l) (hfree : ∀ b q, InTable s.kernel b →
    s.kernel.processes b = some q → q.key.pid ≠ pid) : pid ∉ r.listed.map Member.id := by
  intro hmem
  have hsome := List.mem_map_of_mem (f := some) hmem
  rw [← h.map_pid] at hsome
  obtain ⟨b, hb, hkey⟩ := List.mem_map.mp hsome
  obtain ⟨key, hkey', hp⟩ := Option.map_eq_some_iff.mp hkey
  obtain ⟨q, hq, rfl⟩ := Option.map_eq_some_iff.mp hkey'
  exact hfree b q (h.inTable_iff.mpr hb) hq hp

theorem insert_first (h : Tied s r []) {p : Gc.Process} {c : Counted (Option ℕ)}
    (hp : s.kernel.processes a = some p) (hc : Stored c.table [a]) (parent : ℤ) :
    Tied ⟨{ s.kernel with processTable := c }, some a⟩
      ⟨enlist parent p.key.pid p.key.name r.listed, Function.update r.made a none⟩ [a] := by
  have hkey : keyAt s.kernel a = some p.key := by rw [keyAt, hp, Option.map_some]
  have hnil : r.listed = [] := List.map_eq_nil_iff.mp h.members.symm
  obtain ⟨hloose, hnext, hprev⟩ := h.untied a (List.not_mem_nil)
  refine ⟨rfl, ?_, h.forest, h.nodes, fun b hb => ?_, fun b _ => h.untied b List.not_mem_nil, ?_,
    fun b => ?_, hc, h.lock, h.fits, h.rooted.enlist ?_ fun hne => absurd hnil hne⟩
  · exact ⟨List.nodup_singleton a, hprev, hnext, trivial⟩
  · rw [List.mem_singleton.mp hb]
    exact ⟨_, hkey⟩
  · rw [hnil]
    change [member s.kernel.processTree (keyAt s.kernel) a] = _
    have hnone : via Ties.parent s.kernel.processTree a = none := hloose.parent
    rw [member, hkey, parentPid, hnone]
    rfl
  · have hmade := h.made b
    rw [if_neg List.not_mem_nil] at hmade
    dsimp only
    rw [Function.update_apply, hmade]
    by_cases hb : b = a
    · rw [if_pos hb, if_pos (List.mem_singleton.mpr hb)]
    · rw [if_neg hb, if_neg fun h => hb (List.mem_singleton.mp h)]
      rfl
  · rw [hnil]
    exact List.not_mem_nil

theorem insert_behind {root : ℕ} {rest : List ℕ} (h : Tied s r (root :: rest)) {p : Gc.Process}
    {c : Counted (Option ℕ)} {parent : ℤ} (lock : Rwlock) (hp : s.kernel.processes a = some p)
    (ha : a ∉ root :: rest) (hb : b ∈ root :: rest) (hparent : keyAt s.kernel b = some key)
    (hkey : key.pid = parent) (hfree : p.key.pid ∉ r.listed.map Member.id)
    (hc : Stored c.table (a :: root :: rest))
    (hlock : lock.numReaders = 0 ∧ lock.numWriters = 0 ∧ lock.writeRequest = 0) :
    ∃ h₁ tree, familyAddChild s.kernel.processTree b a = .ok h₁ ∧
      listInsertAfter h₁ root a = .ok tree ∧
      Tied
        ⟨{ s.kernel with processLock := lock, processTree := tree, processTable := c }, some root⟩
        ⟨enlist parent p.key.pid p.key.name r.listed, Function.update r.made a none⟩
        (root :: a :: rest) := by
  have hnew : keyAt s.kernel a = some p.key := by rw [keyAt, hp, Option.map_some]
  have hw := h.forest.wellFormed
  have hbn := h.in_nodes hb
  have han := (h.nodes a).mpr ⟨_, hnew⟩
  obtain ⟨hloose, -, -⟩ := h.untied a ha
  have hba : b ≠ a := fun he => ha (he ▸ hb)
  obtain ⟨h₁, h₁ok, hlinks₁, hn₁⟩ := familyAddChild_links hw hbn han
  have hlist₁ : Listed h₁ ([] ++ root :: rest) := h.listed.congr (familyAddChild_sameList h₁ok)
  obtain ⟨tree, hok, hlinks, hn, hlist, hbut⟩ := listInsertAfter_listed hlist₁
    (fun x hx => hn₁ ▸ h.in_nodes hx) ha (hn₁ ▸ han)
  have hlinks := hlinks.trans hlinks₁
  have hn := hn.trans hn₁
  have hwell := wellFormed_of_links hlinks hn (Links.WellFormed.addChild hw hloose.toDetached hbn)
  have hacyclic : Acyclic tree := by
    unfold Acyclic
    rw [hlinks]
    exact Links.Acyclic.addChild h.forest.acyclic (hloose.not_below hw hba)
  have hpar : ∀ y, via Ties.parent tree y =
      if y = a then some b else via Ties.parent s.kernel.processTree y := fun y =>
    congrFun (congrArg Links.parent hlinks) y
  refine ⟨h₁, tree, h₁ok, hok, rfl, hlist, ⟨hwell, hacyclic⟩, fun y => ?_, fun y hy => ?_,
    fun y hy => ?_, ?_, fun y => ?_, hc.perm (.swap ..), hlock, h.fits, h.rooted.enlist hfree ?_⟩
  · rw [hn]
    exact h.nodes y
  · by_cases hya : y = a
    · exact hya ▸ ⟨_, hnew⟩
    · exact h.present y (by simp at hy ⊢; tauto)
  · have hya : y ≠ a := fun he => hy (by simp [he])
    have hyl : y ∉ root :: rest := fun hm => hy (by simp at hm ⊢; tauto)
    obtain ⟨hyloose, hynext, hyprev⟩ := h.untied y hyl
    obtain ⟨hnext, hprev⟩ := hbut y hy
    refine ⟨?_, hnext.trans ?_, hprev.trans ?_⟩
    · change (links tree).Loose y
      rw [hlinks]
      exact hyloose.addChild hw hbn (fun he => hyl (he ▸ hb)) hya
    · exact (congrFun (familyAddChild_sameList h₁ok).1 y).trans hynext
    · exact (congrFun (familyAddChild_sameList h₁ok).2 y).trans hyprev
  · have hold : ∀ y ∈ root :: rest, member tree (keyAt s.kernel) y =
        member s.kernel.processTree (keyAt s.kernel) y := by
      intro y hy
      refine member_congr rfl (parentPid_of ((hpar y).trans (if_neg ?_)) fun _ _ => rfl)
      exact fun he => ha (he ▸ hy)
    have hself : member tree (keyAt s.kernel) a =
        some ⟨p.key.pid, some parent, p.key.name⟩ := by
      rw [member, parentPid_of ((hpar a).trans (if_pos rfl)) fun _ _ => rfl, hnew, Option.map_some,
        Option.bind_some, hparent, Option.map_some, hkey]
    have hmembers := h.members
    cases hr : r.listed with
    | nil =>
      rw [hr] at hmembers
      cases hmembers
    | cons m ms =>
      rw [hr, List.map_cons, List.map_cons, List.cons.injEq] at hmembers
      change (root :: a :: rest).map (member tree (keyAt s.kernel)) = _
      rw [List.map_cons, List.map_cons, hold root List.mem_cons_self, hself, hmembers.1,
        List.map_congr_left fun y hy => hold y (List.mem_cons_of_mem _ hy), hmembers.2]
      rfl
  · have hmade := h.made y
    dsimp only
    rw [Function.update_apply, hmade]
    by_cases hya : y = a
    · rw [if_pos hya, if_pos (by simp [hya])]
    · rw [if_neg hya]
      simp only [List.mem_cons, hya, false_or]
      rfl
  · exact fun _ => hkey ▸ h.pid_mem hb hparent

theorem insertProcess (h : Tied s r l) {parent : ℤ}
    (hg : (Call.insertProcess parent a).Guard g s) :
    ∃ s' pid, ProcessTable.insertProcess g s parent a = .ok (s', pid) ∧ ∃ key, r.made a = some key ∧
      Represents s' ⟨enlist parent key.pid key.name r.listed, Function.update r.made a none⟩ := by
  obtain ⟨hnot, hkmalloc, hroom, ⟨p, hp, hfree⟩, hparent⟩ := hg
  rw [h.inTable_iff] at hnot
  have hkey : keyAt s.kernel a = some p.key := by rw [keyAt, hp, Option.map_some]
  have hmade : r.made a = some p.key := by rw [h.made, if_neg hnot, hkey]
  obtain ⟨c, hok, hc⟩ := h.store (h.fits a _ hkey) hkmalloc hroom a
  cases l with
  | nil =>
    refine ⟨_, p.key.pid, ?_, p.key, hmade, [a], h.insert_first hp hc parent⟩
    rw [ProcessTable.insertProcess, h.root]
    dsimp only [List.head?_nil]
    rw [hp, deref_some, ok_bind, hok, ok_bind]
  | cons root rest =>
    obtain ⟨hfits, b, q, hb, hq, hpid⟩ := hparent (by rw [h.root]; simp)
    rw [h.inTable_iff] at hb
    have hkeyb : keyAt s.kernel b = some q.key := by rw [keyAt, hq, Option.map_some]
    have hfind : s.kernel.findProcess parent = .ok (some b) := by
      rcases h.find hfits with ⟨-, hno⟩ | ⟨b', hb', key', hkey', hpid', hf⟩
      · exact absurd (hpid ▸ h.pid_mem hb hkeyb) hno
      · have he : b' = b := h.pid_inj hb' hb (by
          rw [hkey', hkeyb, Option.map_some, Option.map_some, hpid', hpid])
        exact he ▸ hf
    obtain ⟨hr, hwr, hreq⟩ := h.lock
    obtain ⟨h₁, tree, h₁ok, htree, htied⟩ := h.insert_behind
      (rwlockRelease { s.kernel.processLock with numWriters := 1 }) hp hnot hb hkeyb hpid
      (h.pid_notMem hfree) hc ⟨hr, rfl, rfl⟩
    refine ⟨_, p.key.pid, ?_, p.key, hmade, _, htied⟩
    rw [ProcessTable.insertProcess, h.root]
    dsimp only [List.head?_cons]
    rw [assert_of hfits.1, ok_bind, rwlockGetWriteAccess_eq_ok.mpr ⟨⟨hr, hwr⟩, rfl⟩, ok_bind, hfind,
      ok_bind, assert_of (by simp), ok_bind, deref_some, ok_bind, h₁ok, ok_bind, htree, ok_bind, hp,
      deref_some, ok_bind, hok, ok_bind]

/-! ### The end of a process -/

/-- Nobody out of the list is a parent. -/
theorem parent_mem (h : Tied s r l) (hp : via Ties.parent s.kernel.processTree a = some b) :
    b ∈ l := by
  by_contra hb
  exact (h.untied b hb).loose.not_parent h.forest.wellFormed hp

theorem via_free {h : Kin} (field : Ties → Option ℕ) (a b : ℕ) :
    via field (Function.update h a none) b = if b = a then none else via field h b := by
  rw [via, Function.update_apply]
  split_ifs <;> rfl

/-- What becomes of the tree and the list. -/
structure Unhooked (h h' : Kin) (xs ys : List ℕ) (a b : ℕ) : Prop where
  forest : IsForest h'
  nodes : ∀ y, y ∈ Families.nodes h' ↔ y ∈ Families.nodes h ∧ y ≠ a
  listed : Listed h' (xs ++ ys)
  parent : ∀ y, y ≠ a → via Ties.parent h' y =
    if via Ties.parent h y = some a then some b else via Ties.parent h y
  untied : ∀ y ∉ xs ++ ys, Untied h' y

theorem unhook {xs ys : List ℕ} (h : Tied s r (xs ++ a :: ys))
    (hb : via Ties.parent s.kernel.processTree a = some b)
    (hbound : (xs ++ a :: ys).length ≤ g.bound) :
    ∃ h₁ h₂ h₃, familyAdopt g.bound s.kernel.processTree b a = .ok h₁ ∧
      familyRemove h₁ a = .ok h₂ ∧ listRemove h₂ a = .ok h₃ ∧
      Unhooked s.kernel.processTree (Function.update h₃ a none) xs ys a b := by
  have hw := h.forest.wellFormed
  have ha : a ∈ xs ++ a :: ys := by simp
  have hbl := h.parent_mem hb
  have han := h.in_nodes ha
  have hbn := h.in_nodes hbl
  have hne : a ≠ b := fun he => h.forest.acyclic a (.single (he ▸ hb))
  have hbelow : ¬ (links s.kernel.processTree).Below b a := fun hba =>
    h.forest.acyclic a (.head' hb hba)
  obtain ⟨kids, hkids⟩ := hw.children a han
  have hkidsl : ∀ y ∈ kids, y ∈ xs ++ a :: ys := by
    intro y hy
    by_contra hyl
    have hnone := (h.untied y hyl).loose.parent
    rw [(hkids.mem y).mp hy] at hnone
    cases hnone
  have hlen : kids.length ≤ g.bound :=
    (hkids.nodup.subperm hkidsl).length_le.trans hbound
  obtain ⟨h₁, h₁ok, hlinks₁, hn₁⟩ := familyAdopt_links hw hbn han hne hkids hlen
  obtain ⟨hgiven, hnone, hparent⟩ := Links.giveAll_wellFormed hw hbn han hne hkids
  rw [← hlinks₁] at hgiven hnone hparent
  have hw₁ : WellFormed h₁ := by
    unfold WellFormed
    rw [hn₁]
    exact hgiven
  obtain ⟨h₂, h₂ok, hlinks₂, hn₂⟩ := familyRemove_links hw₁ (hn₁ ▸ han)
  have hlist₂ : Listed h₂ (xs ++ a :: ys) :=
    h.listed.congr ((familyAdopt_sameList h₁ok).trans (familyRemove_sameList h₂ok))
  obtain ⟨h₃, h₃ok, hlinks₃, hn₃, hlist₃, hbut⟩ := listRemove_listed hlist₂
    fun x hx => hn₂ ▸ hn₁ ▸ h.in_nodes hx
  have hlinks := hlinks₃.trans hlinks₂
  have hn := hn₃.trans (hn₂.trans hn₁)
  have hforest₂ : IsForest h₂ := changes_isForest h.forest
    (.tail (.single (.adopt hbn han hbelow h₁ok)) (.remove (hn₁ ▸ han) h₂ok))
  have hforest : IsForest h₃ := by
    refine ⟨wellFormed_of_links hlinks₃ hn₃ hforest₂.wellFormed, ?_⟩
    unfold Acyclic
    rw [hlinks₃]
    exact hforest₂.acyclic
  have hdetached : Detached h₃ a := ⟨hn ▸ han, hlinks ▸ Links.remove_detached _ a⟩
  have hpar : (links h₁).parent a = some b := by
    rw [hparent a, show (links s.kernel.processTree).parent a = some b from hb,
      if_neg fun he => hne (Option.some.inj he).symm]
  have hchild : via Ties.child h₃ a = none := by
    have hc := congrFun (congrArg Links.child hlinks) a
    simp only [Links.remove, hpar, Option.some.injEq, hne.symm, if_false] at hc
    exact hc.trans hnone.chained
  have hnodup := h.listed.1
  rw [List.nodup_middle, List.nodup_cons] at hnodup
  refine ⟨h₁, h₂, h₃, h₁ok, h₂ok, h₃ok, hforest.free hdetached hchild, fun y => ?_, ?_,
    fun y hy => ?_, fun y hy => ?_⟩
  · rw [← hn]
    by_cases hya : y = a <;> simp [Families.nodes, hya]
  · have hsame : ∀ y ∈ xs ++ ys, ∀ field : Ties → Option ℕ,
        via field (Function.update h₃ a none) y = via field h₃ y := fun y hy field =>
      (via_free field a y).trans (if_neg fun he : y = a => hnodup.1 (he ▸ hy))
    exact ⟨hlist₃.1, hlist₃.2.congr (fun y hy => hsame y hy _) fun y hy => hsame y hy _⟩
  · have hp := congrFun (congrArg Links.parent hlinks) y
    simp only [Links.remove, if_neg hy] at hp
    rw [via_free, if_neg hy]
    exact hp.trans (hparent y)
  · have hvia : ∀ field : Ties → Option ℕ, (y ≠ a → via field h₃ y = none) →
        via field (Function.update h₃ a none) y = none := by
      intro field hf
      rw [via_free]
      split_ifs with hya
      · rfl
      · exact hf hya
    have hyl : y ≠ a → y ∉ xs ++ a :: ys := fun hya hm => hy (by simp at hm ⊢; tauto)
    have hloose : y ≠ a → (links h₃).Loose y := by
      intro hya
      rw [hlinks, hlinks₁]
      rw [hlinks₁] at hgiven
      have hyb : y ≠ b := fun he => hyl hya (he ▸ hbl)
      have hyk : y ∉ kids := fun hk => hyl hya (hkidsl y hk)
      exact ((h.untied y (hyl hya)).loose.giveAll hw hbn hyb hyk).remove hgiven a
    have hlist := (familyAdopt_sameList h₁ok).trans (familyRemove_sameList h₂ok)
    refine ⟨⟨⟨?_, ?_, ?_⟩, ?_⟩, ?_, ?_⟩
    · exact hvia _ fun hya => (hloose hya).parent
    · exact hvia _ fun hya => (hloose hya).prev
    · exact hvia _ fun hya => (hloose hya).next
    · exact hvia _ fun hya => (hloose hya).child
    · exact hvia _ fun hya => (hbut y (hyl hya)).1.trans
        ((congrFun hlist.1 y).trans (h.untied y (hyl hya)).next)
    · exact hvia _ fun hya => (hbut y (hyl hya)).2.trans
        ((congrFun hlist.2 y).trans (h.untied y (hyl hya)).prev)

end Tied
theorem map_split {α β : Type} {f : α → Option β} {xs ys : List α} {x : α} {zs : List β}
    (h : (xs ++ x :: ys).map f = zs.map some) : ∃ us d vs, zs = us ++ d :: vs ∧
      xs.map f = us.map some ∧ f x = some d ∧ ys.map f = vs.map some := by
  rw [List.map_append, List.map_cons] at h
  obtain ⟨us, ws, rfl, hus, hws⟩ := List.append_eq_map_iff.mp h
  obtain ⟨d, vs, rfl, hd, hvs⟩ := List.map_eq_cons_iff.mp hws
  exact ⟨us, d, vs, rfl, hus.symm, hd.symm, hvs.symm⟩

namespace Tied

/-- The children of the process that goes have its parent. -/
theorem member_unhooked {xs ys : List ℕ} {h' : Kin} {keys : ℕ → Option ProcessKey}
    (h : Tied s r (xs ++ a :: ys)) (hun : Unhooked s.kernel.processTree h' xs ys a b)
    (hkey : keyAt s.kernel a = some key) (hb : via Ties.parent s.kernel.processTree a = some b)
    (hkeys : ∀ y, y ≠ a → keys y = keyAt s.kernel y) {y : ℕ} (hya : y ≠ a) :
    member h' keys y = (member s.kernel.processTree (keyAt s.kernel) y).map
      (inherit key.pid (parentPid s.kernel.processTree (keyAt s.kernel) a)) := by
  have hal : a ∈ xs ++ a :: ys := by simp
  have hne : b ≠ a := fun he => h.forest.acyclic a (.single (he ▸ hb))
  have hparent := hun.parent y hya
  rw [member, member, hkeys y hya, Option.map_map]
  congr 1
  funext q
  rw [Function.comp_apply, inherit]
  dsimp only
  by_cases hp : via Ties.parent s.kernel.processTree y = some a
  · rw [if_pos hp] at hparent
    rw [parentPid_of hparent fun c hc => hkeys c (Option.some.inj hc ▸ hne),
      parentPid_of hp fun _ _ => rfl, Option.bind_some, Option.bind_some, hkey, Option.map_some,
      if_pos rfl, parentPid, hb, Option.bind_some]
  · rw [if_neg hp] at hparent
    have hsame : parentPid h' keys y = parentPid s.kernel.processTree (keyAt s.kernel) y :=
      parentPid_of hparent fun c hc => hkeys c fun he => hp (he ▸ hc)
    rw [hsame, if_neg]
    intro hpid
    obtain ⟨c, hc, hcpid⟩ := Option.bind_eq_some_iff.mp hpid
    have he : c = a := h.pid_inj (h.parent_mem hc) hal (by rw [hcpid, hkey, Option.map_some])
    exact hp (he ▸ hc)

/-- `remove_process` and `delete_process` -/
theorem remove {xs ys : List ℕ} (h : Tied s r (xs ++ a :: ys)) (hxs : xs ≠ [])
    {p : Gc.Process} (hp : s.kernel.processes a = some p)
    (hg : ∀ n m, g.kmalloc n m = true → m ≤ 2 ^ 30) (hbound : (xs ++ a :: ys).length ≤ g.bound) :
    ∃ k₁ k₂, removeProcess g s.kernel a = .ok k₁ ∧ deleteProcess k₁ a = .ok k₂ ∧
      Tied ⟨k₂, s.root⟩ { r with listed := delist p.key.pid r.listed } (xs ++ ys) := by
  have hal : a ∈ xs ++ a :: ys := by simp
  have hkey : keyAt s.kernel a = some p.key := by rw [keyAt, hp, Option.map_some]
  have hnodup := h.listed.1
  rw [List.nodup_middle, List.nodup_cons] at hnodup
  have hney : ∀ y ∈ xs ++ ys, y ≠ a := fun y hy he => hnodup.1 (he ▸ hy)
  obtain ⟨us, d, vs, hr, hus, hd, hvs⟩ := map_split h.members
  rw [member, hkey, Option.map_some, Option.some.injEq] at hd
  have hrooted := h.rooted
  rw [hr] at hrooted
  have husne : us ≠ [] := by
    rintro rfl
    exact hxs (List.map_eq_nil_iff.mp hus)
  obtain ⟨pp, hpp⟩ := hrooted.parent husne
  have hppid : parentPid s.kernel.processTree (keyAt s.kernel) a = some pp := by
    rw [← hpp, ← hd]
  obtain ⟨b, hb, hbpid⟩ := Option.bind_eq_some_iff.mp hppid
  obtain ⟨h₁, h₂, h₃, h₁ok, h₂ok, h₃ok, hun⟩ := h.unhook hb hbound
  obtain ⟨c, hdrop, hc⟩ := h.drop (h.fits a _ hkey) hg rfl
  obtain ⟨hreaders, hwriters, hrequest⟩ := h.lock
  obtain ⟨v, hv⟩ := mem_nodes.mp (h.in_nodes hal)
  have hvp : v.parent = some b := (via_of hv).symm.trans hb
  have hkeys : ∀ y, (Function.update s.kernel.processes a none y).map Gc.Process.key =
      if y = a then none else keyAt s.kernel y := by
    intro y
    rw [Function.update_apply]
    split_ifs <;> rfl
  refine ⟨{ s.kernel with
      processLock := rwlockRelease { s.kernel.processLock with numWriters := 1 }
      processTree := h₃
      processTable := c }, { s.kernel with
      processLock := rwlockRelease { s.kernel.processLock with numWriters := 1 }
      processTree := Function.update h₃ a none
      processTable := c
      processes := Function.update s.kernel.processes a none }, ?_, ?_, ?_, hun.listed, hun.forest,
    fun y => ?_, fun y hy => ?_, hun.untied, ?_, fun y => ?_, hc, ⟨hreaders, rfl, rfl⟩,
    fun y q hq => ?_, ?_⟩
  · rw [removeProcess, rwlockGetWriteAccess_eq_ok.mpr ⟨⟨hreaders, hwriters⟩, rfl⟩, ok_bind,
      load_some hv, ok_bind, assert_of (by simp [hvp]), ok_bind, hvp, deref_some, ok_bind, h₁ok,
      ok_bind, h₂ok, ok_bind, h₃ok, ok_bind, hp, deref_some, ok_bind, hdrop, ok_bind]
  · rw [deleteProcess]
    dsimp only
    rw [hp, deref_some, ok_bind]
  · rw [h.root]
    cases xs with
    | nil => exact absurd rfl hxs
    | cons x xs => rfl
  · refine (hun.nodes y).trans ?_
    change _ ↔ ∃ q, (Function.update s.kernel.processes a none y).map Gc.Process.key = some q
    rw [hkeys, h.nodes y]
    by_cases hya : y = a <;> simp [hya]
  · change ∃ q, (Function.update s.kernel.processes a none y).map Gc.Process.key = some q
    rw [hkeys, if_neg (hney y hy)]
    exact h.present y (by simp at hy ⊢; tauto)
  · have hmember : ∀ y ∈ xs ++ ys, member (Function.update h₃ a none)
        (fun y => (Function.update s.kernel.processes a none y).map Gc.Process.key) y =
        (member s.kernel.processTree (keyAt s.kernel) y).map (inherit d.id d.parent) := by
      intro y hy
      rw [← hd]
      exact h.member_unhooked hun hkey hb (fun z hz => (hkeys z).trans (if_neg hz)) (hney y hy)
    refine (List.map_congr_left hmember).trans ?_
    have hpid : p.key.pid = d.id := by rw [← hd]
    dsimp only
    rw [hpid, hr, delist_append hrooted.nodup, List.map_map]
    have hboth : (xs ++ ys).map (member s.kernel.processTree (keyAt s.kernel)) =
        (us ++ vs).map some := by
      rw [List.map_append, List.map_append, hus, hvs]
    have hinherit := congrArg (List.map (Option.map (inherit d.id d.parent))) hboth
    rw [List.map_map, List.map_map] at hinherit
    exact hinherit.trans (List.map_congr_left fun _ _ => rfl)
  · change r.made y = if y ∈ xs ++ ys then none else
      (Function.update s.kernel.processes a none y).map Gc.Process.key
    rw [h.made y, hkeys]
    by_cases hya : y = a
    · rw [if_pos (hya ▸ hal), if_pos hya, ite_self]
    · rw [if_neg hya]
      simp [hya]
  · change (Function.update s.kernel.processes a none y).map Gc.Process.key = some q at hq
    rw [hkeys] at hq
    split_ifs at hq
    exact h.fits y q hq
  · refine h.rooted.delist fun m hm he => ?_
    have hpid : p.key.pid = d.id := by rw [← hd]
    rw [hr] at hm
    cases us with
    | nil => exact husne rfl
    | cons u us =>
      cases hm
      have hnd := hrooted.nodup
      rw [List.cons_append, List.map_cons, List.nodup_cons] at hnd
      exact hnd.1 (by rw [he, hpid]; simp)

end Tied
/-! ### Threads are not the table's business -/

theorem SameTable.refl (k : Kernel) : SameTable k k := ⟨rfl, rfl, rfl, fun _ => rfl⟩

theorem SameTable.trans {k k₁ k₂ : Kernel} (h : SameTable k k₁) (h' : SameTable k₁ k₂) :
    SameTable k k₂ :=
  ⟨h'.tree.trans h.tree, h'.table.trans h.table, h'.lock.trans h.lock,
    fun a => (h'.keys a).trans (h.keys a)⟩

theorem setProcess_sameTable {k : Kernel} {p p' : Gc.Process} (hp : k.processes a = some p)
    (hkey : p'.key = p.key) : SameTable k (k.setProcess a p') := by
  refine ⟨rfl, rfl, rfl, fun b => ?_⟩
  rw [Kernel.setProcess]
  dsimp only
  rw [Function.update_apply]
  split_ifs with hb
  · rw [hb, hp, Option.map_some, Option.map_some, hkey]
  · rfl

theorem deleteThread_sameTable {k : Kernel} {tr : ℕ} {rc : ℤ}
    (h : deleteThread g k tr = .ok (k', rc)) : SameTable k k' := by
  unfold deleteThread at h
  obtain ⟨t, -, h⟩ := bind_eq_ok.mp h
  obtain ⟨-, -, h⟩ := bind_eq_ok.mp h
  obtain ⟨a, -, h⟩ := bind_eq_ok.mp h
  obtain ⟨p, hp, h⟩ := bind_eq_ok.mp h
  obtain ⟨⟨table, _⟩, -, h⟩ := bind_eq_ok.mp h
  obtain ⟨-, -, h⟩ := bind_eq_ok.mp h
  obtain ⟨⟨tree, next⟩, -, h⟩ := bind_eq_ok.mp h
  obtain ⟨x, -, h⟩ := bind_eq_ok.mp h
  obtain ⟨-, -, h⟩ := bind_eq_ok.mp h
  cases h
  refine ⟨rfl, rfl, rfl, fun b => ?_⟩
  refine (setProcess_sameTable (deref_eq_ok.mp hp) ?_).keys b
  rfl

theorem setState_sameTable {k : Kernel} {tr state : ℕ} (h : setState g k tr state = .ok k') :
    SameTable k k' := by
  obtain ⟨cpus, -, h⟩ := bind_eq_ok.mp h
  cases h
  exact ⟨rfl, rfl, rfl, fun _ => rfl⟩

theorem deleteThreads_sameTable {k : Kernel} {left : ℕ}
    (h : deleteThreads g a left k = .ok k') : SameTable k k' := by
  induction left generalizing k with
  | zero => cases h
  | succ left ih =>
    rw [deleteThreads] at h
    obtain ⟨p, -, h⟩ := bind_eq_ok.mp h
    split at h
    · cases h
      exact .refl _
    · obtain ⟨k₁, hset, h⟩ := bind_eq_ok.mp h
      obtain ⟨⟨k₂, rc⟩, hdel, h⟩ := bind_eq_ok.mp h
      obtain ⟨-, -, h⟩ := bind_eq_ok.mp h
      exact (setState_sameTable hset).trans ((deleteThread_sameTable hdel).trans (ih h))

/-- A reader that comes and goes leaves a free lock as it was. -/
theorem rwlockRelease_read {rw : Rwlock} (hr : rw.numReaders = 0) (hw : rw.numWriters = 0) :
    rwlockRelease { rw with numReaders := add32 rw.numReaders 1 } = rw := by
  obtain ⟨readers, writers, request, spinlock⟩ := rw
  dsimp only at hr hw
  subst hr hw
  simp [rwlockRelease, add32, sub32]

namespace Tied

theorem gcDoProcess (h : Tied s r l) (hg : (Call.gcDoProcess pid).Guard g s) :
    ∃ k' rc, Gc.gcDoProcess g (fun _ k => k) s.kernel pid = .ok (k', rc) ∧
      Represents ⟨k', s.root⟩ { r with listed := delist pid r.listed } := by
  obtain ⟨hpid, hkmalloc, hbound, hgo⟩ := hg
  obtain ⟨hreaders, hwriters, hrequest⟩ := h.lock
  obtain ⟨left, hleft⟩ : ∃ left, g.bound = left + 1 := Nat.exists_eq_add_one_of_ne_zero (by omega)
  have hread := rwlockGetReadAccess_eq_ok.mpr ⟨⟨hwriters, hrequest⟩, rfl⟩
  have hlock := rwlockRelease_read hreaders hwriters
  rw [Gc.gcDoProcess, hleft, awaitThreads]
  rcases h.find hpid with ⟨hf, hno⟩ | ⟨a, ha, key, hkey, hkpid, hf⟩
  · have hcheck : checkoutProcess s.kernel pid .writer = .ok (s.kernel, none) := by
      rw [checkoutProcess, hread, ok_bind]
      change (s.kernel.findProcess pid >>= _) = _
      rw [hf, ok_bind]
      dsimp only
      rw [hlock]
    refine ⟨s.kernel, -1, ?_, l, ?_⟩
    · rw [hcheck, ok_bind, ok_bind]
    · rw [delist_of_notMem hno]
      exact h
  · obtain ⟨p, hp, rfl⟩ := Option.map_eq_some_iff.mp hkey
    obtain ⟨hroot, hstate, hthreads, hr, hw, hdelete⟩ := hgo a p (h.inTable_iff.mpr ha) hp hkpid
    obtain ⟨xs, ys, rfl⟩ := List.append_of_mem ha
    have hxs : xs ≠ [] := by
      rintro rfl
      exact hroot h.root
    set k₁ := Kernel.setProcess { s.kernel with
      processLock := { s.kernel.processLock with
        numReaders := add32 s.kernel.processLock.numReaders 1 } } a
      { p with lock := { p.lock with numWriters := 1 } } with hk₁
    have hcheck : checkoutProcess s.kernel pid .writer = .ok (k₁, some a) := by
      rw [checkoutProcess, hread, ok_bind]
      change (s.kernel.findProcess pid >>= _) = _
      rw [hf, ok_bind]
      dsimp only
      rw [hp, deref_some, ok_bind, rwlockGet, rwlockGetWriteAccess_eq_ok.mpr ⟨⟨hr, hw⟩, rfl⟩,
        ok_bind]
    obtain ⟨k₂, hk₂⟩ := hdelete k₁ hcheck
    have hsame : SameTable s.kernel (releaseProcesses k₂) := by
      have hset : SameTable s.kernel
          (s.kernel.setProcess a { p with lock := { p.lock with numWriters := 1 } }) :=
        setProcess_sameTable hp rfl
      obtain ⟨htree, htable, hl₂, hkeys⟩ := deleteThreads_sameTable hk₂
      refine ⟨htree, htable, ?_, fun b => (hkeys b).trans (hset.keys b)⟩
      rw [releaseProcesses, hl₂]
      exact hlock
    have hp₁ : k₁.processes a = some { p with lock := { p.lock with numWriters := 1 } } :=
      Function.update_self ..
    obtain ⟨q, hq, hqkey⟩ := Option.map_eq_some_iff.mp ((hsame.keys a).trans hkey)
    have hlen : (xs ++ a :: ys).length ≤ g.bound := by
      have htotal := h.table.total
      omega
    obtain ⟨k₃, k₄, hk₃, hk₄, htied⟩ := (h.work hsame).remove hxs hq hkmalloc hlen
    refine ⟨k₄, 0, ?_, xs ++ ys, ?_⟩
    · rw [hcheck, ok_bind]
      dsimp only
      rw [hp₁, deref_some, ok_bind, assert_of hstate, ok_bind, if_pos hthreads, ok_bind]
      dsimp only
      rw [← hleft, hk₂, ok_bind, hk₃, ok_bind, hk₄, ok_bind]
    · rw [hqkey, hkpid] at htied
      exact htied

theorem init {k : Kernel} (hp : ∀ a, k.processes a = none) (ht : ∀ a, k.processTree a = none) :
    Tied (initProcesses k) ⟨[], fun _ => none⟩ [] := by
  have hkey : ∀ a, keyAt k a = none := fun a => by rw [keyAt, hp, Option.map_none]
  have hvia : ∀ (field : Ties → Option ℕ) a, via field k.processTree a = none := fun field a => by
    rw [via, ht, Option.bind_none]
  have hlinks : links k.processTree =
      ⟨fun _ => none, fun _ => none, fun _ => none, fun _ => none⟩ :=
    Links.ext (funext (hvia _)) (funext (hvia _)) (funext (hvia _)) (funext (hvia _))
  have hnodes : Families.nodes k.processTree = ∅ := by
    ext a
    simp [Families.nodes, ht]
  refine ⟨rfl, ⟨List.nodup_nil, trivial⟩, ⟨?_, ?_⟩, fun a => ?_,
    fun a ha => absurd ha List.not_mem_nil,
    fun a _ => ⟨⟨⟨hvia _ a, hvia _ a, hvia _ a⟩, hvia _ a⟩, hvia _ a, hvia _ a⟩, rfl, fun a => ?_,
    ?_, ⟨rfl, rfl, rfl⟩, fun a key ha => ?_, rooted_nil⟩
  · change (links k.processTree).WellFormed (Families.nodes k.processTree)
    rw [hlinks, hnodes]
    exact ⟨fun x p hx => (by cases hx), fun p hp => absurd hp (Set.notMem_empty p),
      fun x y => by simp, fun x y hx => (by cases hx)⟩
  · change (links k.processTree).Acyclic
    rw [hlinks]
    exact fun x hx => by
      obtain ⟨y, hy, -⟩ := Relation.TransGen.head'_iff.mp hx
      cases hy
  · change a ∈ Families.nodes k.processTree ↔ ∃ key, keyAt k a = some key
    rw [hnodes, hkey]
    simp
  · exact (hkey a).symm
  · exact ⟨Slots.contents_empty 128, rfl, (by decide : 0 < 128), (by decide : 128 ≤ 2 ^ 30), rfl⟩
  · change keyAt k a = some key at ha
    rw [hkey] at ha
    cases ha

/-- Whatever the calls do with pointers and slots, it means what it should for the registry. -/
theorem step (h : Tied s r l) {i : Setting × Call} (hg : i.2.Guard i.1 s) :
    ∃ s' r', i.2.exec i.1 s = .ok s' ∧ Call.Spec r i r' ∧ Represents s' r' := by
  obtain ⟨g, c⟩ := i
  cases c with
  | newProcess a pid name old => exact ⟨_, _, rfl, rfl, l, h.newProcess hg.1 hg.2⟩
  | insertProcess parent a =>
    obtain ⟨s', pid, hok, key, hmade, hs'⟩ := h.insertProcess hg
    refine ⟨s', _, ?_, ⟨key, hmade, rfl⟩, hs'⟩
    rw [Call.exec, hok, ok_bind]
  | gcDoProcess pid =>
    obtain ⟨k', rc, hok, hs'⟩ := h.gcDoProcess hg
    refine ⟨⟨k', s.root⟩, _, ?_, rfl, hs'⟩
    rw [Call.exec, hok, ok_bind]
  | work k => exact ⟨_, _, rfl, rfl, l, h.work hg⟩

end Tied

def noProcesses : Kernel where
  processLock := initRwlock
  processTable := emptyHtable
  processes _ := none
  processTree _ := none
  threads _ := none
  threadTree _ := none
  cpus := ⟨fun _ => Scheduler.loadScheduler 0 fun _ => ⟨none, 0, 0, 0⟩, 1,
    fun _ => ⟨⟨0, 0, 0⟩, 0, 0⟩⟩

def still : Setting := ⟨0, none, fun _ _ => false, 8⟩

/-- The first process with the name `A`, and one below it with the name `B`. -/
def twoProcesses : List (Setting × Call) :=
  [(still, .newProcess 10 1 Env.nameA fun _ => 0), (still, .insertProcess 0 10),
    (still, .newProcess 20 2 Env.nameB fun _ => 0), (still, .insertProcess 1 20)]

theorem inTable_iff_mem {k : Kernel} {S : Multiset (Option ℕ)} (a : ℕ)
    (h : Slots.contents k.processTable.table.table k.processTable.table.size = S) :
    InTable k a ↔ some a ∈ S := by rw [InTable, h]

theorem twoProcesses_run : ∃ s, processSystem.Steps (initProcesses noProcesses) twoProcesses s ∧
    ∀ bound, ∃ s', findProcess (bound + 2) s Env.nameB = .ok (s', 2) := by
  refine ⟨_, .cons ⟨rfl, by decide, by decide⟩ rfl <| .cons ?_ rfl <|
    .cons ⟨rfl, by decide, by decide⟩ rfl <| .cons ?_ rfl <| .nil _, fun _ => ⟨_, rfl⟩⟩
  · refine ⟨by decide, fun _ _ h => (by cases h), by decide, ⟨_, rfl, fun b q hb _ => ?_⟩,
      fun h => absurd rfl h⟩
    rw [inTable_iff_mem (S := 0) b (by decide)] at hb
    exact absurd hb (Multiset.notMem_zero _)
  · refine ⟨by decide, fun _ _ h => (by cases h), by decide, ⟨_, rfl, fun b q hb hq => ?_⟩, fun _ =>
      ⟨⟨by decide, by decide⟩, 10, _, by decide, rfl, rfl⟩⟩
    rw [inTable_iff_mem (S := {some 10}) b (by decide)] at hb
    cases Multiset.mem_singleton.mp hb
    cases hq
    decide

theorem noProcesses_init : processSystem.Init (initProcesses noProcesses) :=
  ⟨_, rfl, fun _ => rfl, fun _ => rfl⟩

end Racoon.ProcessTable
