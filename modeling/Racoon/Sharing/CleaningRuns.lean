import Racoon.Sharing.Cleaning

/-!
# The loop of the clean-up

The rounds that are left are bounded by the square of the regions there are, less
the place in the table: a round goes to the next region, or there is a region
less. Whatever lies before the place in the table is as it should be already, so
the first region that is to go is the one that the loop comes to next.
-/

namespace Racoon.Sharing.Cleaning
open Lib Paging
open Locked (Lock getAccess release)
open HashTables (Stores Unfit isInt_int32 htableGet htableRemove htableRetrieve removeAll
  removeAll_eq_self removeAll_succ removeAll_of_fits)

theorem shmemCmp_eq_zero (a b : ℤ) : shmemCmp a b = 0 ↔ a = b := by
  unfold shmemCmp
  split_ifs with heq
  · exact iff_of_true rfl heq
  · exact iff_of_false (by decide) heq
  · exact iff_of_false (by decide) heq

section Regions
variable {pid id : ℤ} {sh : Shmem} {k : Kernel}

theorem doomed_iff : doomed k pid id = true ↔
    k.table id ≠ none ∧ (k.table id).bind (cleaned pid) = none := by
  unfold doomed
  cases k.table id <;> simp

theorem cleaned_stranger (h : sh.pid ≠ pid) : cleaned pid sh = some sh := if_pos h

theorem cleaned_immortal (h : ¬ sh.pid ≠ pid) (hf : sh.flags &&& SHMEM_IMMORTAL = SHMEM_IMMORTAL) :
    cleaned pid sh = some { sh with flags := sh.flags ||| SHMEM_ORPHAN } := by
  rw [cleaned, if_neg h, if_pos hf]

theorem cleaned_mortal (h : ¬ sh.pid ≠ pid)
    (hf : ¬ sh.flags &&& SHMEM_IMMORTAL = SHMEM_IMMORTAL) : cleaned pid sh = none := by
  rw [cleaned, if_neg h, if_neg hf]

/-- An orphan that is made an orphan once more. -/
theorem cleaned_orphan (h : ¬ sh.pid ≠ pid) (hf : sh.flags &&& SHMEM_IMMORTAL = SHMEM_IMMORTAL) :
    cleaned pid { sh with flags := sh.flags ||| SHMEM_ORPHAN } =
      some { sh with flags := sh.flags ||| SHMEM_ORPHAN } := by
  have himmortal : (sh.flags ||| SHMEM_ORPHAN) &&& SHMEM_IMMORTAL = SHMEM_IMMORTAL := by
    rw [Nat.and_or_distrib_right, hf]
    rfl
  have horphan : sh.flags ||| SHMEM_ORPHAN ||| SHMEM_ORPHAN = sh.flags ||| SHMEM_ORPHAN := by
    rw [Nat.or_assoc, Nat.or_self]
  rw [cleaned, if_neg h, if_pos himmortal, horphan]

end Regions

section Table
variable {M : ℕ} {k k' : Kernel} {c : HashTables.Counted ℤ} {id : ℤ} {kmalloc : ℕ → ℕ → Bool}

theorem Indexed.table (h : Indexed M k c) (hid : id ∈ ids c) : ∃ sh, k.table id = some sh :=
  Option.ne_none_iff_exists'.mp ((h.mem id).mp hid)

theorem Indexed.length (h : Indexed M k c) : (ids c).length = c.table.total :=
  h.stores.total.symm

theorem Indexed.retrieve (h : Indexed M k c) (hM : M < 2 ^ 31) (hid : id ∈ ids c) :
    htableRetrieve c.table id = .ok (some id) ∨ ∃ e, htableRetrieve c.table id = .error e :=
  (h.stores.retrieve hM (fun _ => isInt_int32 _) hid fun e _ => shmemCmp_eq_zero e id).imp_right
    And.right

/-- The pointer is taken out of the table, in whatever order the others lie after that. -/
theorem Indexed.remove (h : Indexed M k c) (hM : M < 2 ^ 31)
    (hk : ∀ n slots, kmalloc n slots = true → slots ≤ M) (hid : id ∈ ids c)
    (hnamed : ∀ i sh, k'.table i = some sh → sh.id = i)
    (htable : ∀ i, k'.table i ≠ none ↔ i ≠ id ∧ k.table i ≠ none) :
    (∃ c', htableRemove kmalloc c id = .ok (c', 0) ∧ Indexed M k' c' ∧
      (ids c').length + 1 = (ids c).length) ∨ ∃ e, htableRemove kmalloc c id = .error e := by
  refine (h.stores.remove hM (fun _ => isInt_int32 _) hk (by decide) hid).imp ?_ And.right
  rintro ⟨c', hremove, hstores⟩
  have hstored : (ids c' : Multiset ℤ) = (ids c : Multiset ℤ).erase id := hstores.stored
  have hperm : (ids c').Perm ((ids c).erase id) := Multiset.coe_eq_coe.mp hstored
  refine ⟨c', hremove, ⟨hstored ▸ hstores, ?_, fun i => ?_, hnamed⟩, ?_⟩
  · exact hperm.nodup_iff.mpr (h.nodup.erase id)
  · rw [hperm.mem_iff, h.nodup.mem_erase_iff, h.mem i, htable]
  · rw [hperm.length_eq, List.length_erase_add_one hid]

end Table

/-- What holds at the begin of each round. -/
structure Underway (M : ℕ) (k₀ : Kernel) (chain₀ : ℤ → List ℕ) (pid : ℤ) (s : State)
    (chain : ℤ → List ℕ) : Prop where
  indexed : Indexed M s.kernel s.shmemTable
  listed : Listed s.kernel chain
  backed : Backed (registry s.kernel chain)
  present : ∀ id, s.kernel.table id ≠ none → k₀.table id ≠ none
  after : ∀ id, (s.kernel.table id).bind (cleaned pid) = (k₀.table id).bind (cleaned pid)
  entries : ∀ id, s.kernel.table id ≠ none →
    (registry s.kernel chain).entry id = (registry k₀ chain₀).entry id

/-- The region is as it is left. -/
def Settled (pid : ℤ) (s : State) (id : ℤ) : Prop :=
  (s.kernel.table id).bind (cleaned pid) = s.kernel.table id

namespace Underway
variable {M : ℕ} {k₀ : Kernel} {chain₀ chain : ℤ → List ℕ} {pid id : ℤ} {s : State} {sh : Shmem}
  {m : Memory}

theorem doomed_iff (h : Underway M k₀ chain₀ pid s chain) (ht : s.kernel.table id ≠ none) :
    doomed k₀ pid id = true ↔ (s.kernel.table id).bind (cleaned pid) = none := by
  rw [Cleaning.doomed_iff, h.after]
  exact and_iff_right (h.present id ht)

theorem not_doomed (h : Underway M k₀ chain₀ pid s chain) (hid : id ∈ ids s.shmemTable)
    (hs : Settled pid s id) : doomed k₀ pid id = false := by
  have ht := (h.indexed.mem id).mp hid
  rw [Bool.eq_false_iff, ne_eq, h.doomed_iff ht, hs]
  exact ht

theorem orphan (h : Underway M k₀ chain₀ pid s chain) (ht : s.kernel.table id = some sh)
    (hpid : ¬ sh.pid ≠ pid) (hf : sh.flags &&& SHMEM_IMMORTAL = SHMEM_IMMORTAL) (held : List Lock) :
    Underway M k₀ chain₀ pid ⟨s.kernel.setRegion id
      (some { sh with flags := sh.flags ||| SHMEM_ORPHAN }), s.shmemTable, held⟩ chain := by
  have hsame : ∀ i, (s.kernel.setRegion id
      (some { sh with flags := sh.flags ||| SHMEM_ORPHAN })).table i ≠ none ↔
      s.kernel.table i ≠ none := by
    intro i
    rw [table_setRegion]
    split_ifs with hi
    · simp [hi, ht]
    · rfl
  constructor
  · refine ⟨h.indexed.stores, h.indexed.nodup, fun i => (h.indexed.mem i).trans (hsame i).symm, ?_⟩
    intro i sh' hi
    dsimp only at hi
    rw [table_setRegion] at hi
    split_ifs at hi with hid
    · cases hi
      exact hid ▸ h.indexed.named id sh ht
    · exact h.indexed.named i sh' hi
  · exact listed_setFlags h.listed ht _
  · exact h.backed.setFlags ht _
  · exact fun i hi => h.present i ((hsame i).mp hi)
  · intro i
    rw [← h.after i]
    dsimp only
    rw [table_setRegion]
    split_ifs with hid
    · subst hid
      rw [ht, Option.bind_some, Option.bind_some, cleaned_orphan hpid hf, cleaned_immortal hpid hf]
    · rfl
  · exact fun i hi => h.entries i ((hsame i).mp hi)

/-- A deletion takes the pointer to the region out of the table and then the region itself, or a
probe fails. -/
theorem delete (h : Underway M k₀ chain₀ pid s chain) (hM : M < 2 ^ 31)
    (hk : ∀ n slots, m.kmalloc n slots = true → slots ≤ M) (hheld : s.held = [])
    (hid : id ∈ ids s.shmemTable) (ht : s.kernel.table id = some sh) (hpid : sh.pid = pid)
    (hgone : cleaned pid sh = none) :
    (∃ s' chain', shmemDelete m s pid id = .ok (s', 0) ∧
      htableRetrieve s.shmemTable.table id = .ok (some id) ∧
      htableRemove m.kmalloc s.shmemTable id = .ok (s'.shmemTable, 0) ∧
      Underway M k₀ chain₀ pid s' chain' ∧ s'.held = [] ∧
      (ids s'.shmemTable).length + 1 = (ids s.shmemTable).length) ∨
    ∃ e, shmemDelete m s pid id = .error e ∧
      (htableRetrieve s.shmemTable.table id = .error e ∨
        htableRetrieve s.shmemTable.table id = .ok (some id) ∧
          htableRemove m.kmalloc s.shmemTable id = .error e) := by
  have hget : getAccess s.held .shmemLock = .ok [.shmemLock] := by rw [hheld]; rfl
  have hrelease : release [.shmemLock] .shmemLock = .ok [] := rfl
  obtain ⟨k', chain', hdestroy, hlisted, hbacked, htable, hentries⟩ :=
    destroyRegion_spec h.listed h.backed ht (m.scratch id) (m.tables id)
  have hleft : ∀ i, k'.table i ≠ none ↔ i ≠ id ∧ s.kernel.table i ≠ none := by
    intro i
    rw [htable, Function.update_apply]
    split_ifs with hi
    · simp [hi]
    · simp [hi]
  have hkept : ∀ i, i ≠ id → k'.table i = s.kernel.table i := by
    intro i hi
    rw [htable, Function.update_of_ne hi]
  unfold shmemDelete
  rw [hget, ok_bind]
  rcases h.indexed.retrieve hM hid with hretrieve | ⟨e, hretrieve⟩
  · rw [hretrieve, ok_bind]
    dsimp only
    rw [ht, deref_some, ok_bind, if_neg (not_not.mpr hpid.symm)]
    have hnamed : ∀ i sh', k'.table i = some sh' → sh'.id = i := by
      intro i sh' hi
      have hne := ((hleft i).mp (hi ▸ Option.some_ne_none sh')).1
      exact h.indexed.named i sh' (hkept i hne ▸ hi)
    rcases h.indexed.remove hM hk hid hnamed hleft with ⟨c', hremove, hindexed, hlength⟩ |
      ⟨e, hremove⟩
    · left
      rw [hremove, ok_bind]
      dsimp only
      rw [assert, if_pos rfl, ok_bind, hrelease, ok_bind, hdestroy, ok_bind]
      refine ⟨⟨k', c', []⟩, chain', rfl, rfl, rfl, ⟨hindexed, hlisted, hbacked, ?_, ?_, ?_⟩, rfl,
        hlength⟩
      · exact fun i hi => h.present i ((hleft i).mp hi).2
      · intro i
        rw [← h.after i]
        by_cases hi : i = id
        · subst hi
          dsimp only
          rw [htable, Function.update_self, ht, Option.bind_some, hgone]
          rfl
        · dsimp only
          rw [hkept i hi]
      · intro i hi
        obtain ⟨hne, hi⟩ := (hleft i).mp hi
        exact (hentries i hne).trans (h.entries i hi)
    · right
      rw [hremove]
      exact ⟨e, rfl, .inr ⟨rfl, rfl⟩⟩
  · right
    rw [hretrieve]
    exact ⟨e, rfl, .inl rfl⟩

theorem withHeld (h : Underway M k₀ chain₀ pid s chain) (held : List Lock) :
    Underway M k₀ chain₀ pid { s with held := held } chain :=
  ⟨h.indexed, h.listed, h.backed, h.present, h.after, h.entries⟩

theorem settled_of_table (ht : s.kernel.table id = some sh) (hs : cleaned pid sh = some sh) :
    Settled pid s id := by
  rw [Settled, ht]
  exact hs

/-- The end of the table. -/
theorem cleanedUp (h : Underway M k₀ chain₀ pid s chain)
    (hall : ∀ id ∈ ids s.shmemTable, Settled pid s id) :
    CleanedUp k₀ chain₀ pid { s with held := [] } chain := by
  refine ⟨rfl, h.listed, fun id => ?_, h.indexed.mem, h.entries⟩
  rw [← h.after id]
  by_cases hid : id ∈ ids s.shmemTable
  · exact (hall id hid).symm
  · have ht : s.kernel.table id = none := not_not.mp fun ht => hid ((h.indexed.mem id).mpr ht)
    dsimp only
    rw [ht]
    rfl

end Underway

theorem not_ends_error (k₀ : Kernel) (chain₀ : ℤ → List ℕ) (pid : ℤ) (e : Fault) :
    ¬ Ends k₀ chain₀ pid (.error e) := by
  rintro ⟨s, chain, hrun, -⟩
  cases hrun

/-- By induction on the rounds that are left. The regions that the loop has passed are settled. -/
theorem cleanFrom_iff {M : ℕ} {k₀ : Kernel} {chain₀ : ℤ → List ℕ} {pid : ℤ} {m : Memory}
    (hM : M < 2 ^ 31) (hk : ∀ n slots, m.kmalloc n slots = true → slots ≤ M) {left n i : ℕ}
    {s : State} {chain : ℤ → List ℕ} (h : Underway M k₀ chain₀ pid s chain)
    (hheld : s.held = [.shmemLock]) (hn : (ids s.shmemTable).length = n) (hi : i ≤ n)
    (hleft : n * (n + 1) + (n - i) + 1 ≤ left)
    (hpassed : ∀ id ∈ (ids s.shmemTable).take i, Settled pid s id) :
    Ends k₀ chain₀ pid (cleanFrom m pid left i s) ↔
      faultOf (removeAll m.kmalloc (doomed k₀ pid) n s.shmemTable) = none := by
  induction left generalizing n i s chain with
  | zero => omega
  | succ left ih =>
    have hrelease : release s.held .shmemLock = .ok [] := by rw [hheld]; rfl
    rw [cleanFrom, h.indexed.stores.get i]
    have hget : (Slots.items s.shmemTable.table.table s.shmemTable.table.size)[i]? =
        (ids s.shmemTable)[i]? := rfl
    rw [hget]
    by_cases hend : i = n
    · -- every region is passed
      have hall : ∀ id ∈ ids s.shmemTable, Settled pid s id := by
        rwa [hend, ← hn, List.take_length] at hpassed
      rw [List.getElem?_eq_none (by omega), hrelease, ok_bind,
        removeAll_eq_self (fun id hid => h.not_doomed hid (hall id hid))]
      exact iff_of_true ⟨_, chain, rfl, h.cleanedUp hall⟩ rfl
    have hlt : i < (ids s.shmemTable).length := by omega
    obtain ⟨id, hid⟩ : ∃ id, (ids s.shmemTable)[i]? = some id := ⟨_, List.getElem?_eq_getElem hlt⟩
    have hmem : id ∈ ids s.shmemTable := List.mem_of_getElem? hid
    have hnext : ∀ x ∈ (ids s.shmemTable).take (i + 1),
        x ∈ (ids s.shmemTable).take i ∨ x = id := by
      intro x hx
      rw [List.take_add_one, hid] at hx
      simpa using hx
    obtain ⟨sh, ht⟩ := h.indexed.table hmem
    rw [hid]
    dsimp only
    rw [ht, deref_some, ok_bind]
    by_cases hpid : sh.pid ≠ pid
    · rw [if_pos hpid, ← Nat.cast_succ]
      refine ih h hheld hn (by omega) (by omega) fun x hx => ?_
      rcases hnext x hx with hx | rfl
      · exact hpassed x hx
      · exact Underway.settled_of_table ht (cleaned_stranger hpid)
    rw [if_neg hpid]
    by_cases hf : sh.flags &&& SHMEM_IMMORTAL = SHMEM_IMMORTAL
    · have hregion : getAccess s.held (.region id) = .ok [.region id, .shmemLock] := by
        rw [hheld]
        rfl
      have hfree : release [.region id, .shmemLock] (.region id) = .ok [.shmemLock] := by
        simp [release]
      rw [if_pos hf, hregion, ok_bind, hfree, ok_bind, ← Nat.cast_succ]
      refine ih (h.orphan ht hpid hf _) rfl hn (by omega) (by omega) fun x hx => ?_
      have hself : Settled pid ⟨s.kernel.setRegion id
          (some { sh with flags := sh.flags ||| SHMEM_ORPHAN }), s.shmemTable, [.shmemLock]⟩ id :=
        Underway.settled_of_table ((table_setRegion ..).trans (if_pos rfl)) (cleaned_orphan hpid hf)
      by_cases hxid : x = id
      · exact hxid ▸ hself
      · have hx := hpassed x ((hnext x hx).resolve_right hxid)
        rw [Settled, table_setRegion, if_neg hxid]
        exact hx
    rw [if_neg hf, hrelease, ok_bind, h.indexed.named id sh ht]
    have hgone : cleaned pid sh = none := cleaned_mortal hpid hf
    obtain ⟨n, rfl⟩ : ∃ r, n = r + 1 := ⟨n - 1, by omega⟩
    -- the loop deletes the first region that is to go
    have hfirst : (ids s.shmemTable).find? (doomed k₀ pid) = some id := by
      have hsplit : ids s.shmemTable = (ids s.shmemTable).take i ++
          id :: (ids s.shmemTable).drop (i + 1) := by
        conv_lhs => rw [← List.take_append_drop i (ids s.shmemTable)]
        rw [List.drop_eq_getElem_cons hlt, (List.getElem?_eq_some_iff.mp hid).2]
      refine List.find?_eq_some_iff_append.mpr ⟨?_, _, _, hsplit, fun x hx => ?_⟩
      · rw [h.doomed_iff (ht ▸ Option.some_ne_none sh), ht]
        exact hgone
      · rw [h.not_doomed (List.mem_of_mem_take hx) (hpassed x hx)]
        rfl
    rw [removeAll_succ hfirst]
    rcases (h.withHeld []).delete hM hk rfl hmem ht (not_not.mp hpid) hgone with
      ⟨s', chain', hdelete, hretrieve, hremove, h', hheld', hlength⟩ | ⟨e, hdelete, hfail⟩
    · have haccess : getAccess s'.held .shmemLock = .ok [.shmemLock] := by rw [hheld']; rfl
      dsimp only at hretrieve hremove hlength
      rw [hdelete, ok_bind, hretrieve, ok_bind, hremove, ok_bind]
      dsimp only
      rw [if_neg (not_not.mpr rfl), haccess, ok_bind]
      refine ih (n := n) (i := 0) (h'.withHeld _) rfl ?_ (Nat.zero_le n) ?_ (by simp)
      · dsimp only
        omega
      · rw [Nat.sub_zero]
        have hsquare : (n + 1) * (n + 1 + 1) = n * (n + 1) + 2 * (n + 1) := by ring
        omega
    · rw [hdelete]
      refine iff_of_false (not_ends_error k₀ chain₀ pid e) ?_
      dsimp only at hfail
      rcases hfail with hretrieve | ⟨hretrieve, hremove⟩
      · rw [hretrieve]
        exact Option.some_ne_none e
      · rw [hretrieve, ok_bind, hremove]
        exact Option.some_ne_none e

/-- The calls that a careful user makes leave the tables of what is mapped in place. -/
theorem backed_of_mapped {r : Registry} (h : Mapped r) : Backed r := by
  intro id pid sh e d hregion hentry husage hmap i hi
  obtain ⟨hpos, hlt, -⟩ := h.region id sh hregion
  have hplaced := h.placed id pid sh e hregion hentry husage
  have hceil := hplaced.user.ceiling
  have hpages : asSize sh.physicalPages = sh.physicalPages.toNat := by
    rw [asSize, Int.emod_eq_of_lt (by omega) (by omega)]
  rw [hpages] at hi
  have hcovers : e.Covers (e.location / PAGE_SIZE + i) :=
    (hplaced.covers_iff _).mpr ⟨by omega, by omega⟩
  have hheld := h.held id pid sh e d hregion hentry husage hmap
  have htable := hasTable_of_present (by omega) (hheld.present hplaced.pages hcovers)
  rwa [Nat.add_mul, ← hplaced.location_eq] at htable

/-- `shmem_clean` does what it should exactly when the table can give up the regions that are to go,
one after another, with all probes in range. That is so whenever the keys of the regions fit. -/
theorem shmemClean_cleans_iff {M : ℕ} (hM : M < 2 ^ 31) {m : Memory}
    (hk : ∀ n slots, m.kmalloc n slots = true → slots ≤ M) {s : State} {chain : ℤ → List ℕ}
    (hi : Indexed M s.kernel s.shmemTable) (hl : Listed s.kernel chain)
    (hb : Backed (registry s.kernel chain)) (hheld : s.held = []) (pid : ℤ) :
    (Cleans m s chain pid ↔ faultOf (removeAll m.kmalloc (doomed s.kernel pid)
      s.shmemTable.table.total s.shmemTable) = none) ∧
    (¬ Unfit M shmemInit (ids s.shmemTable) → Cleans m s chain pid) := by
  have hstart : Underway M s.kernel chain pid { s with held := [.shmemLock] } chain :=
    ⟨hi, hl, hb, fun _ h => h, fun _ => rfl, fun _ _ => rfl⟩
  have haccess : getAccess s.held .shmemLock = .ok [.shmemLock] := by rw [hheld]; rfl
  have hiff : Cleans m s chain pid ↔ faultOf (removeAll m.kmalloc (doomed s.kernel pid)
      s.shmemTable.table.total s.shmemTable) = none := by
    rw [Cleans, shmemClean, haccess, ok_bind]
    refine cleanFrom_iff hM hk (i := 0) hstart rfl hi.length (Nat.zero_le _) ?_ (by simp)
    have hsquare := Nat.succ_mul s.shmemTable.table.total (s.shmemTable.table.total + 1)
    simp only [Nat.succ_eq_add_one] at hsquare
    omega
  exact ⟨hiff, fun hfits => hiff.mpr (removeAll_of_fits hM (fun _ => isInt_int32 _) hk (by decide)
    shmemCmp_eq_zero (doomed s.kernel pid) _ hi.stores hfits)⟩

/-- Regions that nobody uses, with the slots in which their ids lie. -/
def regionsAt (slots : List (ℕ × ℤ)) (owner : ℤ → ℤ) (flags : ℤ → ℕ) : State where
  kernel :=
    { table := fun id =>
        if id ∈ slots.map Prod.snd then
          some (newRegion (fun _ => 0) (fun _ => 1) (owner id) 1 (flags id) 0x100000 0 id)
        else none
      shmemId := 0
      infos := fun _ => none
      maps := fun _ => none
      interrupts := true
      freed := [] }
  shmemTable := ⟨{ shmemInit with total := slots.length, table := (slots.lookup ·) }, 0⟩
  held := []

/-- `kmalloc` has room for tables of up to 64 slots. -/
def grants64 : Memory where
  kmalloc _ slots := decide (slots ≤ 64)
  scratch _ _ := none
  tables _ _ _ := none

section Regions
variable {slots : List (ℕ × ℤ)} {owner : ℤ → ℤ} {flags : ℤ → ℕ}

theorem regionsAt_listed : Listed (regionsAt slots owner flags).kernel fun _ => [] := by
  refine ⟨fun id sh h => ?_, fun _ _ => rfl, fun _ => chain_nil _, by simp, le_rfl⟩
  simp only [regionsAt] at h
  split_ifs at h
  cases h
  rfl

theorem regionsAt_backed : Backed (registry (regionsAt slots owner flags).kernel fun _ => []) := by
  intro id pid sh e d _ hentry
  cases hentry

theorem regionsAt_indexed (hids : ids (regionsAt slots owner flags).shmemTable = slots.map Prod.snd)
    (hnodup : (slots.map Prod.snd).Nodup) :
    Indexed 64 (regionsAt slots owner flags).kernel (regionsAt slots owner flags).shmemTable := by
  have hsize : (regionsAt slots owner flags).shmemTable.table.size = 64 := rfl
  refine ⟨⟨rfl, ?_, hsize ▸ by decide, hsize.le, rfl, rfl, rfl⟩, hids ▸ hnodup, fun id => ?_,
    fun id sh h => ?_⟩
  · rw [Multiset.coe_card, hids, List.length_map]
    rfl
  · rw [hids]
    simp [regionsAt]
  · simp only [regionsAt] at h
    split_ifs at h
    cases h
    rfl

end Regions

/-- Process 1 has the regions 0, which is mortal, and 1, which is immortal. -/
theorem shmemClean_cleans_iff_regionsAt : Cleans grants64
    (regionsAt [(0, 0), (8, 2), (36, 1)] (fun id => if id = 2 then 2 else 1) fun id =>
      if id = 1 then SHMEM_IMMORTAL else SHMEM_RDWR) (fun _ => []) 1 :=
  (shmemClean_cleans_iff (M := 64) (by decide) (fun _ _ h => of_decide_eq_true h)
    (regionsAt_indexed (by decide +kernel) (by decide)) regionsAt_listed regionsAt_backed
      rfl 1).1.mpr (by decide +kernel)

/-- Thirteen regions, 15 of process 1 and the others of process 2. The key of 493921239 is
2147483644. -/
def thirteenRegions : State :=
  regionsAt [(0, 0), (8, 2), (16, 4), (24, 6), (28, 15), (29, 31), (30, 47), (31, 63), (32, 8),
    (36, 1), (44, 3), (52, 5), (60, 493921239)] (fun id => if id = 15 then 1 else 2)
    fun _ => SHMEM_RDWR

/-- The deletion of region 15 makes the table smaller, and for region 493921239 the four slots
before the probes leave the `int` range are taken there. -/
theorem shmemClean_stops :
    Indexed 64 thirteenRegions.kernel thirteenRegions.shmemTable ∧
      Listed thirteenRegions.kernel (fun _ => []) ∧
      Backed (registry thirteenRegions.kernel fun _ => []) ∧
      shmemClean grants64 thirteenRegions 1 = .error .assertion ∧
      ¬ Cleans grants64 thirteenRegions (fun _ => []) 1 := by
  have hstops : shmemClean grants64 thirteenRegions 1 = .error .assertion :=
    faultOf_eq_some.mp (by decide +kernel)
  refine ⟨regionsAt_indexed (by decide +kernel) (by decide), regionsAt_listed, regionsAt_backed,
    hstops, ?_⟩
  rw [Cleans, hstops]
  exact not_ends_error thirteenRegions.kernel (fun _ => []) 1 .assertion

end Racoon.Sharing.Cleaning
