import Racoon.Paging.Mappings

/-!
# Mapping and unmapping touch only their range

A user range is mapped page by page, through tables that are made on the way, and
released again. Nothing is asked of the entries of the kernel here, so that the
directory may also be one that `new_page_directory` does not make. What the processor
finds for an address is `lookup`: whether its page is present, the frame and the flags.
-/

namespace Racoon.Paging

def PAGE_4MB : ℕ := 2 ^ 7
def PAGE_GLOBAL : ℕ := 2 ^ 8

/-- The frame and the flags of the page of an address, if it is present. -/
def PageDirectory.lookup (d : PageDirectory) (address : ℕ) : Option (ℕ × ℕ) :=
  match d.pde (pageTableOf address) with
  | .absent => none
  | .large => some (address / PAGE_SIZE * PAGE_SIZE,
      PAGE_SUPERVISOR ||| PAGE_4MB ||| PAGE_RDWR ||| PAGE_PRESENT ||| PAGE_GLOBAL)
  | .table t =>
    if present (t.entry (pageEntryOf address)) then
      some (frameOf (t.entry (pageEntryOf address)), t.entry (pageEntryOf address) % PAGE_SIZE)
    else none

/-- Each of the entries for the user is absent or a table. -/
def UserTables (d : PageDirectory) : Prop := ∀ i, 512 ≤ i → i < 1016 → d.pde i ≠ .large

/-- Whether an address lies in the range of `n` pages from `v` on. -/
def InRange (v n a : ℕ) : Prop := v ≤ a ∧ a < v + n * PAGE_SIZE

/-- What a call on the pages `s` to `s + n` may change: their words, and entries of the user. -/
structure Confined (d e : PageDirectory) (s n : ℕ) : Prop where
  tables : UserTables e
  kernel : ∀ i, i < 512 ∨ 1016 ≤ i → e.pde i = d.pde i
  word : ∀ p, p < s ∨ s + n ≤ p → e.word p = d.word p

section Words
variable {d e : PageDirectory}

theorem UserTables.pde_ne (hd : UserTables d) {p : ℕ} (hp : 0x80000 ≤ p ∧ p < 0xFE000) :
    d.pde (p / 1024) ≠ .large :=
  hd _ (by omega) (by omega)

theorem Split.userTables (hd : Split d) : UserTables d := by
  intro i hi hi'
  exact (hd i (by omega)).not.mpr (by omega)

theorem page_div {p o : ℕ} (ho : o < PAGE_SIZE) : (p * PAGE_SIZE + o) / PAGE_SIZE = p := by
  rw [Nat.add_comm, Nat.add_mul_div_right _ _ (by decide), Nat.div_eq_of_lt ho, Nat.zero_add]

/-- For an address of the user everything is in the word of its page. -/
theorem lookup_user (hd : UserTables d) {p o : ℕ} (hp : 0x80000 ≤ p ∧ p < 0xFE000)
    (ho : o < PAGE_SIZE) : d.lookup (p * PAGE_SIZE + o) =
      if present (d.word p) then some (frameOf (d.word p), d.word p % PAGE_SIZE) else none := by
  have ha : p * PAGE_SIZE + o < 2 ^ 32 := by
    unfold PAGE_SIZE at *
    omega
  rw [PageDirectory.lookup, PageDirectory.word, pageTableOf_eq ha, pageEntryOf_eq, page_div ho]
  cases h : d.pde (p / 1024) with
  | absent => rfl
  | large => exact absurd h (hd.pde_ne hp)
  | table t => rfl

/-- A page that is present is one of a table. -/
theorem translate_of_present {a : ℕ} (ha : a < 2 ^ 32)
    (h : present (d.word (a / PAGE_SIZE)) = true) :
    translate d a = some (frameOf (d.word (a / PAGE_SIZE)) + a % PAGE_SIZE) := by
  rw [PageDirectory.word] at h ⊢
  rw [translate, pageTableOf_eq ha, pageEntryOf_eq]
  cases ht : d.pde (a / PAGE_SIZE / 1024) with
  | absent => simp [ht, present] at h
  | large => simp [ht, present] at h
  | table t =>
    rw [ht] at h
    exact if_pos h

theorem present_of_translate (hd : UserTables d) {a : ℕ}
    (ha : 0x80000 ≤ a / PAGE_SIZE ∧ a / PAGE_SIZE < 0xFE000) (h : translate d a ≠ none) :
    present (d.word (a / PAGE_SIZE)) = true := by
  have hlt : a < 2 ^ 32 := by
    unfold PAGE_SIZE at ha
    omega
  rw [translate, pageTableOf_eq hlt, pageEntryOf_eq] at h
  rw [PageDirectory.word]
  cases ht : d.pde (a / PAGE_SIZE / 1024) with
  | absent => simp [ht] at h
  | large => exact absurd ht (hd.pde_ne ha)
  | table t =>
    rw [ht] at h
    by_contra hp
    exact h (if_neg hp)

theorem translate_user {p o : ℕ} (hp : p < 2 ^ 20) (ho : o < PAGE_SIZE)
    (h : present (d.word p) = true) :
    translate d (p * PAGE_SIZE + o) = some (frameOf (d.word p) + o) := by
  have ha : p * PAGE_SIZE + o < 2 ^ 32 := by
    unfold PAGE_SIZE at *
    omega
  have hoff : (p * PAGE_SIZE + o) % PAGE_SIZE = o := by
    rw [Nat.mul_add_mod_self_right, Nat.mod_eq_of_lt ho]
  have htrans := translate_of_present ha (by rw [page_div ho, h])
  rwa [page_div ho, hoff] at htrans

end Words

section Ranges
variable {d e f : PageDirectory} {s n : ℕ}

theorem Confined.refl (hd : UserTables d) (s n : ℕ) : Confined d d s n :=
  ⟨hd, fun _ _ => rfl, fun _ _ => rfl⟩

theorem Confined.cons (h : Confined d e s 1) (h' : Confined e f (s + 1) n) :
    Confined d f s (n + 1) where
  tables := h'.tables
  kernel i hi := (h'.kernel i hi).trans (h.kernel i hi)
  word p hp := (h'.word p (by omega)).trans (h.word p (by omega))

theorem Confined.trans (h : Confined d e s n) (h' : Confined e f s n) : Confined d f s n where
  tables := h'.tables
  kernel i hi := (h'.kernel i hi).trans (h.kernel i hi)
  word p hp := (h'.word p hp).trans (h.word p hp)

/-- Writing the entry of a page of the user that has a table. -/
theorem setEntry_user (hd : UserTables d) (hs : 0x80000 ≤ s ∧ s < 0xFE000) {t : PageTable}
    (ht : d.pde (s / 1024) = .table t) (w : ℕ) :
    ∃ e, d.setEntry (s * PAGE_SIZE) w = .ok e ∧ Confined d e s 1 ∧ e.word s = w := by
  have hpage : pageTableOf (s * PAGE_SIZE) = s / 1024 := pageTableOf_page (by omega)
  have hset : ∃ e, d.setEntry (s * PAGE_SIZE) w = .ok e ∧
      ∀ i, i ≠ s / 1024 → e.pde i = d.pde i := by
    rw [PageDirectory.setEntry, hpage, ht]
    exact ⟨_, rfl, fun i hi => Function.update_of_ne hi ..⟩
  obtain ⟨e, he, hother⟩ := hset
  obtain ⟨hword, hlarge⟩ := setEntry_eq (by omega) he
  refine ⟨e, he, ⟨fun i h₁ h₂ => (hlarge i).not.mpr (hd i h₁ h₂), fun i hi => hother i (by omega),
    fun p hp => ?_⟩, ?_⟩
  · rw [hword, if_neg (by omega)]
  · rw [hword, if_pos rfl]

/-- A round of `page_direct_map`: a table is made if there is none, and the page is mapped. -/
theorem mapPage_user (hd : UserTables d) (hs : 0x80000 ≤ s ∧ s < 0xFE000) {tables : ℕ → Option ℕ}
    (ht : tables (s / 1024) ≠ none) (flags w : ℕ) :
    ∃ d₁ e, ensureTable tables flags d (s * PAGE_SIZE) = .ok d₁ ∧
      d₁.setEntry (s * PAGE_SIZE) w = .ok e ∧ Confined d e s 1 ∧ e.word s = w := by
  have hpage : pageTableOf (s * PAGE_SIZE) = s / 1024 := pageTableOf_page (by omega)
  have hensure : ∃ d₁ t, ensureTable tables flags d (s * PAGE_SIZE) = .ok d₁ ∧
      d₁.pde (s / 1024) = .table t ∧ ∀ i, i ≠ s / 1024 → d₁.pde i = d.pde i := by
    rw [ensureTable, pageTablePresent, hpage]
    cases h : d.pde (s / 1024) with
    | absent =>
      obtain ⟨frame, hframe⟩ := Option.ne_none_iff_exists'.mp ht
      rw [hframe]
      exact ⟨_, _, rfl, Function.update_self .., fun i hi => Function.update_of_ne hi ..⟩
    | large => exact absurd h (hd.pde_ne hs)
    | table t => exact ⟨d, t, rfl, h, fun _ _ => rfl⟩
  obtain ⟨d₁, t, h₁, htable, hother⟩ := hensure
  obtain ⟨hword, hlarge⟩ := ensureTable_eq h₁
  have hd₁ : UserTables d₁ := fun i hi hi' => (hlarge i).not.mpr (hd i hi hi')
  obtain ⟨e, he, hconf, hself⟩ := setEntry_user hd₁ hs htable w
  refine ⟨d₁, e, h₁, he, ⟨hconf.tables, fun i hi => ?_, fun p hp => ?_⟩, hself⟩
  · rw [hconf.kernel i hi, hother i (by omega)]
  · rw [hconf.word p hp, hword]

theorem directMapFrom_user {tables : ℕ → Option ℕ} (ht : ∀ i, tables i ≠ none) (flags : ℕ)
    {phys : ℕ} (hd : UserTables d) (hu : UserPages s n) (hphys : phys < 2 ^ 32) :
    ∃ e, directMapFrom tables flags n phys (s * PAGE_SIZE) d = .ok e ∧ Confined d e s n ∧
      ∀ k < n, e.word (s + k) = entryWord (add32 phys (k * PAGE_SIZE)) flags := by
  induction n generalizing phys s d with
  | zero => exact ⟨d, rfl, .refl hd s 0, fun k hk => absurd hk (Nat.not_lt_zero k)⟩
  | succ n ih =>
    have hfloor := hu.floor
    have hceil := hu.ceiling
    obtain ⟨d₁, d₂, h₁, h₂, hconf, hself⟩ := mapPage_user hd ⟨hfloor, by omega⟩ (ht (s / 1024))
      flags (entryWord phys flags)
    obtain ⟨e, he, hrest, hword⟩ := ih hconf.tables hu.next (add32_lt phys PAGE_SIZE)
    refine ⟨e, ?_, hconf.cons hrest, fun k hk => ?_⟩
    · rw [directMapFrom, h₁, ok_bind, h₂, ok_bind, add32_page (by omega), he]
    · cases k with
      | zero =>
        rw [Nat.add_zero, hrest.word s (.inl (Nat.lt_succ_self s)), hself, Nat.zero_mul,
          add32_of_lt (by omega), Nat.add_zero]
      | succ k =>
        have hsucc : PAGE_SIZE + k * PAGE_SIZE = (k + 1) * PAGE_SIZE := by
          unfold PAGE_SIZE
          omega
        have hk' := hword k (by omega)
        rwa [add32_add32, hsucc, Nat.add_assoc, Nat.add_comm 1] at hk'

/-- A round of `page_release`. -/
theorem clearEntry_user (memory : ℕ → ℕ) (hd : UserTables d) (hs : 0x80000 ≤ s ∧ s < 0xFE000) :
    ∃ e, clearEntry memory d (s * PAGE_SIZE) = .ok e ∧ Confined d e s 1 ∧
      present (e.word s) = false := by
  rw [clearEntry, pageEntryPresent_eq (by omega) (hd.pde_ne hs)]
  by_cases hp : present (d.word s) = true
  · have htable : ∃ t, d.pde (s / 1024) = .table t := by
      obtain ⟨t, ht⟩ := hasTable_of_present (by omega) hp
      exact ⟨t, by rwa [pageTableOf_page (by omega)] at ht⟩
    obtain ⟨t, ht⟩ := htable
    obtain ⟨e, he, hconf, hself⟩ := setEntry_user hd hs ht 0
    exact ⟨e, by rw [if_pos hp, he], hconf, by rw [hself]; rfl⟩
  · exact ⟨d, if_neg hp, .refl hd s 1, by simpa using hp⟩

theorem releaseFrom_user (memory : ℕ → ℕ) (hd : UserTables d) (hu : UserPages s n) :
    ∃ e, releaseFrom memory n (s * PAGE_SIZE) d = .ok e ∧ Confined d e s n ∧
      ∀ k < n, present (e.word (s + k)) = false := by
  induction n generalizing s d with
  | zero => exact ⟨d, rfl, .refl hd s 0, fun k hk => absurd hk (Nat.not_lt_zero k)⟩
  | succ n ih =>
    have hfloor := hu.floor
    have hceil := hu.ceiling
    obtain ⟨d₁, h₁, hconf, hself⟩ := clearEntry_user memory hd ⟨hfloor, by omega⟩
    obtain ⟨e, he, hrest, hgone⟩ := ih hconf.tables hu.next
    refine ⟨e, ?_, hconf.cons hrest, fun k hk => ?_⟩
    · rw [releaseFrom, h₁, ok_bind, add32_page (by omega), he]
    · cases k with
      | zero => rwa [Nat.add_zero, hrest.word s (.inl (Nat.lt_succ_self s))]
      | succ k =>
        have hk' := hgone k (by omega)
        rwa [Nat.add_assoc, Nat.add_comm 1] at hk'

/-- Only addresses of the range are looked up differently. -/
theorem Confined.lookup (hd : UserTables d) (h : Confined d e s n) {a : ℕ} (ha : a < 2 ^ 32)
    (hr : ¬ InRange (s * PAGE_SIZE) n a) : e.lookup a = d.lookup a := by
  by_cases hk : pageTableOf a < 512 ∨ 1016 ≤ pageTableOf a
  · rw [PageDirectory.lookup, PageDirectory.lookup, h.kernel _ hk]
  · have hsplit : a = a / PAGE_SIZE * PAGE_SIZE + a % PAGE_SIZE := (Nat.div_add_mod' a _).symm
    have hp : 0x80000 ≤ a / PAGE_SIZE ∧ a / PAGE_SIZE < 0xFE000 := by
      unfold pageTableOf at hk
      unfold PAGE_SIZE
      omega
    have ho : a % PAGE_SIZE < PAGE_SIZE := Nat.mod_lt _ (by decide)
    have hout : a / PAGE_SIZE < s ∨ s + n ≤ a / PAGE_SIZE := by
      unfold InRange PAGE_SIZE at *
      omega
    rw [hsplit, lookup_user h.tables hp ho, lookup_user hd hp ho, h.word _ hout]

/-- The frames from `phys` on are mapped at `v`, and nothing else has changed. -/
structure Maps (d e : PageDirectory) (v n phys : ℕ) : Prop where
  translated : ∀ k < n, ∀ o < PAGE_SIZE,
    translate e (v + k * PAGE_SIZE + o) = some (add32 phys (k * PAGE_SIZE) + o)
  others : ∀ a < 2 ^ 32, ¬ InRange v n a → e.lookup a = d.lookup a

/-- Nothing is mapped in the range, and nothing else has changed. -/
structure Unmaps (d e : PageDirectory) (v n : ℕ) : Prop where
  absent : ∀ a, InRange v n a → e.lookup a = none
  others : ∀ a < 2 ^ 32, ¬ InRange v n a → e.lookup a = d.lookup a

/-- `e` comes from `d` by a mapping that `page_release` takes back. -/
structure MapsLocally (memory : ℕ → ℕ) (d e : PageDirectory) (v n phys : ℕ) : Prop where
  maps : Maps d e v n phys
  released : ∃ f, pageRelease memory e v n = .ok f ∧ Unmaps e f v n ∧
    ((∀ a, InRange v n a → d.lookup a = none) → ∀ a < 2 ^ 32, f.lookup a = d.lookup a)

theorem Confined.maps (hd : UserTables d) (h : Confined d e s n) (hu : UserPages s n) {phys : ℕ}
    (hphys : phys % PAGE_SIZE = 0) {flags : ℕ} (hf : flags < PAGE_SIZE)
    (hw : ∀ k < n, e.word (s + k) = entryWord (add32 phys (k * PAGE_SIZE)) flags) :
    Maps d e (s * PAGE_SIZE) n phys where
  translated k hk o ho := by
    have hfloor := hu.floor
    have hceil := hu.ceiling
    have hpres : present (e.word (s + k)) = true := by
      rw [hw k hk]
      exact present_entryWord _ _
    have haligned : frameOf (add32 phys (k * PAGE_SIZE)) = add32 phys (k * PAGE_SIZE) :=
      Nat.div_mul_cancel (Nat.dvd_of_mod_eq_zero (add32_aligned hphys (Nat.mul_mod_left _ _)))
    rw [← Nat.add_mul, translate_user (by omega) ho hpres, hw k hk,
      frameOf_entryWord _ hf, haligned]
  others _ ha hr := h.lookup hd ha hr

theorem Confined.unmaps (hd : UserTables d) (h : Confined d e s n) (hu : UserPages s n)
    (hgone : ∀ k < n, present (e.word (s + k)) = false) : Unmaps d e (s * PAGE_SIZE) n where
  absent a ha := by
    have hfloor := hu.floor
    have hceil := hu.ceiling
    have hsplit : a = a / PAGE_SIZE * PAGE_SIZE + a % PAGE_SIZE := (Nat.div_add_mod' a _).symm
    have ho : a % PAGE_SIZE < PAGE_SIZE := Nat.mod_lt _ (by decide)
    have hin : s ≤ a / PAGE_SIZE ∧ a / PAGE_SIZE < s + n := by
      unfold InRange PAGE_SIZE at *
      omega
    have hpage := hgone (a / PAGE_SIZE - s) (by omega)
    rw [Nat.add_sub_cancel' hin.1] at hpage
    rw [hsplit, lookup_user h.tables (by omega) ho, hpage, if_neg (by decide)]
  others _ ha hr := h.lookup hd ha hr

theorem mapsLocally_of (memory : ℕ → ℕ) (hd : UserTables d) (h : Confined d e s n)
    (hu : UserPages s n) {phys flags : ℕ} (hphys : phys % PAGE_SIZE = 0) (hf : flags < PAGE_SIZE)
    (hw : ∀ k < n, e.word (s + k) = entryWord (add32 phys (k * PAGE_SIZE)) flags) :
    MapsLocally memory d e (s * PAGE_SIZE) n phys where
  maps := h.maps hd hu hphys hf hw
  released := by
    obtain ⟨f, hrel, hconf, hgone⟩ := releaseFrom_user memory h.tables hu
    have hun := hconf.unmaps h.tables hu hgone
    refine ⟨f, hrel, hun, fun habsent a ha => ?_⟩
    by_cases hr : InRange (s * PAGE_SIZE) n a
    · rw [hun.absent a hr, habsent a hr]
    · exact (h.trans hconf).lookup hd ha hr

theorem userPages_of {v : ℕ} (halign : v % PAGE_SIZE = 0) (hlo : 512 * 2 ^ 22 ≤ v)
    (hhi : v + n * PAGE_SIZE ≤ 1016 * 2 ^ 22) :
    v = v / PAGE_SIZE * PAGE_SIZE ∧ UserPages (v / PAGE_SIZE) n := by
  refine ⟨(Nat.div_mul_cancel (Nat.dvd_of_mod_eq_zero halign)).symm, ?_, ?_⟩ <;>
    unfold PAGE_SIZE at * <;> omega

theorem pageDirectMap_local (memory : ℕ → ℕ) {tables : ℕ → Option ℕ} (ht : ∀ i, tables i ≠ none)
    (hd : UserTables d) {v phys : ℕ} (halign : v % PAGE_SIZE = 0) (hlo : 512 * 2 ^ 22 ≤ v)
    (hhi : v + n * PAGE_SIZE ≤ 1016 * 2 ^ 22) (hphys : phys % PAGE_SIZE = 0)
    (hphys' : phys < 2 ^ 32) (type : ℕ) :
    ∃ e, pageDirectMap tables d phys v n type = .ok e ∧ MapsLocally memory d e v n phys := by
  obtain ⟨hv, hu⟩ := userPages_of halign hlo hhi
  have hcount : ((n : ℤ) % 2 ^ 32).toNat = n := by
    have hn : n ≤ 0xFE000 := (Nat.le_add_left n _).trans hu.ceiling
    omega
  obtain ⟨e, he, hconf, hw⟩ := directMapFrom_user ht (convertPagingTypes type) hd hu hphys'
  rw [← hv] at he
  refine ⟨e, by rw [pageDirectMap, hcount, he], ?_⟩
  rw [hv]
  exact mapsLocally_of memory hd hconf hu hphys (convertPagingTypes_lt type) hw

end Ranges

/-- A range of the user that `page_direct_map` maps, or `page_provide` where it finds it, is the
only one to change, and its release leaves the directory as it was if the range was free. -/
theorem mapping_touches_range (memory : ℕ → ℕ) {tables : ℕ → Option ℕ}
    (ht : ∀ i, tables i ≠ none) {d : PageDirectory} (hd : UserTables d) {phys : ℕ}
    (hphys : phys % PAGE_SIZE = 0) (hphys' : phys < 2 ^ 32) (type n : ℕ) :
    (∀ v, v % PAGE_SIZE = 0 → 512 * 2 ^ 22 ≤ v → v + n * PAGE_SIZE ≤ 1016 * 2 ^ 22 →
      ∃ e, pageDirectMap tables d phys v n type = .ok e ∧ MapsLocally memory d e v n phys) ∧
    ∀ start finish location, pageFindFree memory d start finish n = .ok location →
      512 * 2 ^ 22 ≤ location → location + n * PAGE_SIZE ≤ 1016 * 2 ^ 22 →
      ∃ e, pageProvide memory tables d phys start finish n type = .ok (e, location) ∧
        MapsLocally memory d e location n phys := by
  refine ⟨fun v halign hlo hhi => pageDirectMap_local memory ht hd halign hlo hhi hphys hphys' type,
    fun start finish location hfind hlo hhi => ?_⟩
  have h0 : location ≠ 0 := by omega
  obtain ⟨-, halign, -⟩ := findFreeFrom_eq (Nat.mul_mod_left _ _) hfind h0
  obtain ⟨e, he, hmaps⟩ :=
    pageDirectMap_local memory ht hd halign hlo hhi hphys hphys' type
  refine ⟨e, ?_, hmaps⟩
  rw [pageProvide, hfind, ok_bind, if_neg h0, he, ok_bind]

theorem userTables_new (frame : ℕ) : UserTables (newPageDirectory frame) := by
  intro i hi hi'
  rw [newPageDirectory]
  dsimp only
  rw [if_neg (by omega), if_pos hi']
  simp

/-- Two pages across a table boundary in a new directory. -/
theorem mapping_touches_range_new :
    ∃ e, pageDirectMap (fun i => some i) (newPageDirectory 0) 0x100000 0x803FF000 2 READ_WRITE =
      .ok e ∧ MapsLocally (fun _ => 0) (newPageDirectory 0) e 0x803FF000 2 0x100000 :=
  (mapping_touches_range (fun _ => 0) (by simp) (userTables_new 0) (by decide) (by decide)
    READ_WRITE 2).1 0x803FF000 (by decide) (by decide) (by decide)

end Racoon.Paging
