import Racoon.Exec.Copying

/-!
# What a loaded program finds in its memory

The loop over the program headers maps the pages of one segment after the other, and
after each of them copies its bytes. A page that is new holds what its frame held
before. With free memory for all pages that the segments ask for, what a program finds
is therefore known byte by byte, and it is the image exactly if every byte had its page
when it was copied.
-/

namespace Racoon.Exec
open Lib Paging
open PhysicalMemory (Ready SamePool pageAddr)
open Env (SMK_OK)
open Ualloc (State userEnsure Grown Keeps New Supplied Extends Enough)

/-! ### The loop over the program headers -/

/-- The pages have been mapped for the first `n` program headers of the image `m₀`, and the bytes
copied for the first `c`; `μ` is what memory held before. -/
structure Progress (m₀ μ : Bytes) (start finish : ℕ) (s₀ s : State) (m : Bytes) (n c : ℕ) :
    Prop where
  supplied : Supplied s (neededPages m₀ start)
  grown : Grown s₀.pm s.pm s₀.map s.map
  pages : ∀ p, present (s.map.word p) = true ↔ ∃ j < n, Maps m₀ start j p
  image : SameImage m₀ m start finish
  untouched : ∀ b < s₀.pm.memoryPages, s.pm.isSet b = false → ∀ o < PAGE_SIZE,
    m (pageAddr s₀.pm b + o) = μ (pageAddr s₀.pm b + o)
  copied : ∀ j < c, IsSegment m₀ start j → ∀ k < (phdr m₀ start j).pFilesz,
    (∃ j' ≤ j, Maps m₀ start j' (((phdr m₀ start j).pVaddr + k) / PAGE_SIZE)) →
    m (target s.map ((phdr m₀ start j).pVaddr + k)) = m₀ (start + (phdr m₀ start j).pOffset + k)
  lost : ∀ j < c, IsSegment m₀ start j → ∀ k < (phdr m₀ start j).pFilesz,
    New s₀.map s.map (((phdr m₀ start j).pVaddr + k) / PAGE_SIZE) →
    (∀ j' ≤ j, ¬ Maps m₀ start j' (((phdr m₀ start j).pVaddr + k) / PAGE_SIZE)) →
    m (target s.map ((phdr m₀ start j).pVaddr + k)) =
      μ (target s.map ((phdr m₀ start j).pVaddr + k))

section Steps
variable {m₀ μ m m' : Bytes} {start finish i : ℕ} {s₀ s t : State}

theorem Empty.new_iff (h : Empty s₀) {p : ℕ} :
    New s₀.map s.map p ↔ present (s.map.word p) = true := by
  rw [New, h.word]
  exact and_iff_right rfl

namespace Progress

/-- Pages for one header more: what is in a new page is what was there before. -/
theorem map (h0 : Empty s₀) (h : Progress m₀ μ start finish s₀ s m i i)
    (hseg : IsSegment m₀ start i)
    (he : Extends s t (neededPages m₀ start) ((phdr m₀ start i).pVaddr / PAGE_SIZE)
      (pageCount (phdr m₀ start i).pMemsz)) :
    Progress m₀ μ start finish s₀ t m (i + 1) i := by
  have hgrown := h.grown.trans he.grown
  have hclear : ∀ b, t.pm.isSet b = false → s.pm.isSet b = false := by
    intro b hb
    rw [Bool.eq_false_iff]
    intro hset
    rw [he.grown.used b hset] at hb
    cases hb
  have hsame : ∀ a, present (s.map.word (a / PAGE_SIZE)) = true →
      target t.map a = target s.map a := by
    intro a ha
    rw [target, target, he.grown.keeps _ ha]
  refine ⟨he.supplied, hgrown, fun p => ?_, h.image,
    fun b hb hb' o ho => h.untouched b hb (hclear b hb') o ho, fun j hj hs k hk hm => ?_,
    fun j hj hs k hk hnew hm => ?_⟩
  · rw [he.present, Bool.or_eq_true, h.pages, decide_eq_true_iff]
    constructor
    · rintro (⟨j, hj, hm⟩ | hp)
      · exact ⟨j, by omega, hm⟩
      · exact ⟨i, by omega, hseg, hp⟩
    · rintro ⟨j, hj, hm⟩
      by_cases hji : j = i
      · subst hji
        exact .inr hm.2
      · exact .inl ⟨j, by omega, hm⟩
  · obtain ⟨j', hj', hm⟩ := hm
    rw [hsame _ ((h.pages _).mpr ⟨j', by omega, hm⟩)]
    exact h.copied j hj hs k hk ⟨j', hj', hm⟩
  · by_cases hp : present (s.map.word (((phdr m₀ start j).pVaddr + k) / PAGE_SIZE)) = true
    · rw [hsame _ hp]
      exact h.lost j hj hs k hk (h0.new_iff.mpr hp) hm
    · obtain ⟨b, hb, hframe, hfree, -⟩ := he.grown.fresh _ ⟨by simpa using hp, hnew.2⟩
      rw [h.grown.pool.pages] at hb
      rw [h.grown.pool.pageAddr] at hframe
      rw [target, hframe]
      exact h.untouched b hb hfree _ (Nat.mod_lt _ (by decide))

/-- The bytes for it: none of the frames and nothing of the image is written that should not be. -/
theorem copy (hw : WellFormed m₀ start finish) (hres : Reserved s₀.pm start finish) (h0 : Empty s₀)
    (h : Progress m₀ μ start finish s₀ s m (i + 1) i) (hseg : IsSegment m₀ start i)
    (hcopy : copyFrom s.map (phdr m₀ start i).pVaddr (start + (phdr m₀ start i).pOffset)
      (phdr m₀ start i).pFilesz 0 m = .ok m') :
    Progress m₀ μ start finish s₀ s m' (i + 1) (i + 1) := by
  obtain ⟨hinside, hpos, hle, hfloor, hceil⟩ := hw.fits i hseg
  have htop := hw.top
  have hmod : ∀ a, a % PAGE_SIZE < PAGE_SIZE := fun a => Nat.mod_lt _ (by decide)
  have hdest : (phdr m₀ start i).pVaddr + (0 + (phdr m₀ start i).pFilesz) ≤ 2 ^ 32 := by omega
  have hsrc : start + (phdr m₀ start i).pOffset + (0 + (phdr m₀ start i).pFilesz) ≤ 2 ^ 32 := by
    omega
  have himage := fun a x => target_ne_image (x := x) hres h0 h.grown a
  have hframe : ∀ {x}, (∀ k < (phdr m₀ start i).pFilesz,
      target s.map ((phdr m₀ start i).pVaddr + k) ≠ x) → m' x = m x :=
    fun hx => copyFrom_frame hdest hsrc hcopy fun k _ hk => hx k (by omega)
  -- what is written belongs to this segment alone
  have hown : ∀ j < i, IsSegment m₀ start j → ∀ k < (phdr m₀ start j).pFilesz,
      New s₀.map s.map (((phdr m₀ start j).pVaddr + k) / PAGE_SIZE) →
      m' (target s.map ((phdr m₀ start j).pVaddr + k)) =
        m (target s.map ((phdr m₀ start j).pVaddr + k)) := by
    intro j hj hs k hk hnew
    refine hframe fun k' hk' heq => ?_
    have haddr := target_inj h0 h.grown hnew.2 heq.symm
    have hlej := (hw.fits j hs).le
    have hapart := hw.apart i j hseg hs (by omega)
    unfold Phdr.Apart at hapart
    omega
  refine ⟨h.supplied, h.grown, h.pages, fun a h₁ h₂ => ?_, fun b hb hclear o ho => ?_,
    fun j hj hs k hk hm => ?_, fun j hj hs k hk hnew hm => ?_⟩
  · rw [hframe fun k _ => himage _ a h₁ h₂]
    exact h.image a h₁ h₂
  · rw [hframe fun k hk heq => ?_]
    · exact h.untouched b hb hclear o ho
    · have hfree : s₀.pm.isSet b = false := by
        rw [Bool.eq_false_iff]
        intro hset
        rw [h.grown.used b hset] at hclear
        cases hclear
      have hge := h0.pageAddr_ge hb hfree
      have hlt := hmod ((phdr m₀ start i).pVaddr + k)
      obtain ⟨-, ht⟩ | ⟨-, c, hc, ht, -, hset⟩ :=
        target_cases h0 h.grown ((phdr m₀ start i).pVaddr + k)
      · omega
      · have hcb : c = b := eq_of_frame_add h0 hc hb hlt ho (by rw [← ht, heq])
        rw [hcb, hclear] at hset
        cases hset
  · obtain ⟨j', hj', hm⟩ := hm
    have hp := (h.pages _).mpr ⟨j', by omega, hm⟩
    by_cases hji : j = i
    · subst hji
      have hread := copyFrom_byte hdest hsrc hcopy (Nat.zero_le k) (by omega)
        (fun k' _ _ => himage _ _ (by omega) (by omega)) fun k' _ _ heq => by
          have haddr := target_inj h0 h.grown hp heq
          omega
      rw [hread]
      exact h.image _ (by omega) (by omega)
    · rw [hown j (by omega) hs k hk (h0.new_iff.mpr hp)]
      exact h.copied j (by omega) hs k hk ⟨j', hj', hm⟩
  · by_cases hji : j = i
    · subst hji
      obtain ⟨j', hj', hm'⟩ := (h.pages _).mp hnew.2
      exact absurd hm' (hm j' (by omega))
    · rw [hown j (by omega) hs k hk hnew]
      exact h.lost j (by omega) hs k hk hnew hm

/-- Another header is passed over. -/
theorem skip (h : Progress m₀ μ start finish s₀ s m i i) (hno : ¬ IsSegment m₀ start i) :
    Progress m₀ μ start finish s₀ s m (i + 1) (i + 1) := by
  have hlt : ∀ j, IsSegment m₀ start j → j < i + 1 → j < i := by
    intro j hs hj
    by_contra hge
    have hji : j = i := by omega
    subst hji
    exact hno hs
  refine ⟨h.supplied, h.grown, fun p => (h.pages p).trans ⟨?_, ?_⟩, h.image, h.untouched,
    fun j hj hs => h.copied j (hlt j hs hj) hs, fun j hj hs => h.lost j (hlt j hs hj) hs⟩
  · rintro ⟨j, hj, hm⟩
    exact ⟨j, by omega, hm⟩
  · rintro ⟨j, hj, hm⟩
    exact ⟨j, hlt j hm.1 hj, hm⟩

end Progress

end Steps

section Runs
variable {m₀ m m' μ μ₀ : Bytes} {start finish i left : ℕ} {s₀ s t : State} {memory : ℕ → ℕ}
  {kmalloc : ℕ → ℕ → Option ℕ}

theorem execMapIn_eq_some {kmalloc : ℕ → Option ℕ} {source destination size copy : ℕ} :
    execMapIn s m kmalloc memory source destination size copy = .ok (some (t, m')) ↔
      pageCount size ≠ 0 ∧ copy ≠ 0 ∧ asSize (int32 copy) = copy ∧
      userEnsure s kmalloc memory destination (pageCount size) = .ok (t, SMK_OK) ∧
      copyFrom t.map destination source (int32 copy).toNat 0 m = .ok m' := by
  constructor
  · intro h
    obtain ⟨_, hsome, h⟩ := bind_eq_ok.mp h
    obtain ⟨⟨s₁, rc⟩, hensure, h⟩ := bind_eq_ok.mp h
    dsimp only at h
    by_cases hrc : rc = 0
    · rw [if_neg (not_not.mpr hrc)] at h
      obtain ⟨⟨m₁, copied⟩, hcopy, h⟩ := bind_eq_ok.mp h
      obtain ⟨m₂, hfrom, hcopy⟩ := bind_eq_ok.mp hcopy
      cases hcopy
      dsimp only at h
      by_cases hcount : asSize (int32 copy) = copy
      · rw [if_neg (not_not.mpr hcount)] at h
        cases h
        obtain ⟨hpages, hne⟩ := assert_eq_ok.mp hsome
        subst hrc
        exact ⟨hpages, hne, hcount, hensure, hfrom⟩
      · rw [if_pos hcount] at h
        cases h
    · rw [if_pos hrc] at h
      cases h
  · rintro ⟨hpages, hne, hcount, hensure, hfrom⟩
    rw [execMapIn, assert_of ⟨hpages, hne⟩, ok_bind, hensure, ok_bind]
    dsimp only
    rw [if_neg (by simp [SMK_OK]), pageCopyIn, hfrom, ok_bind, ok_bind]
    dsimp only
    rw [if_neg (not_not.mpr hcount)]

/-- A round of the loop: the headers are those of the image, which is still there. -/
theorem loadSegments_cases (hw : WellFormed m₀ start finish)
    (himage : SameImage m₀ m start finish) :
    loadSegments kmalloc memory start (left + 1) i s m = .ok (some (t, m')) ↔
      (ePhnum m₀ start ≤ i ∧ t = s ∧ m' = m) ∨
      (i < ePhnum m₀ start ∧ ¬ IsSegment m₀ start i ∧
        loadSegments kmalloc memory start left (i + 1) s m = .ok (some (t, m'))) ∨
      IsSegment m₀ start i ∧ ∃ s₁ m₁,
        execMapIn s m (kmalloc i) memory (start + (phdr m₀ start i).pOffset)
          (phdr m₀ start i).pVaddr (phdr m₀ start i).pMemsz (phdr m₀ start i).pFilesz =
            .ok (some (s₁, m₁)) ∧
        loadSegments kmalloc memory start left (i + 1) s₁ m₁ = .ok (some (t, m')) := by
  rw [loadSegments, hw.ePhnum_congr himage]
  by_cases hi : i < ePhnum m₀ start
  · rw [if_pos hi, hw.phdr_congr himage hi]
    dsimp only
    by_cases hl : (phdr m₀ start i).Loadable
    · have hfits := hw.fits i ⟨hi, hl⟩
      have htop := hw.top
      have haddr : add32 start (phdr m₀ start i).pOffset = start + (phdr m₀ start i).pOffset := by
        have := hfits.inside
        have := hfits.pos
        exact add32_of_lt (by omega)
      rw [if_pos hl, haddr]
      constructor
      · intro h
        obtain ⟨o, hmap, h⟩ := bind_eq_ok.mp h
        cases o with
        | none => cases h
        | some r => exact .inr (.inr ⟨⟨hi, hl⟩, r.1, r.2, hmap, h⟩)
      · rintro (⟨hge, -⟩ | ⟨-, hno, -⟩ | ⟨-, s₁, m₁, hmap, h⟩)
        · omega
        · exact absurd ⟨hi, hl⟩ hno
        · rw [hmap, ok_bind]
          exact h
    · rw [if_neg hl]
      constructor
      · exact fun h => .inr (.inl ⟨hi, fun hs => hl hs.2, h⟩)
      · rintro (⟨hge, -⟩ | ⟨-, -, h⟩ | ⟨hs, -⟩)
        · omega
        · exact h
        · exact absurd hs.2 hl
  · rw [if_neg hi]
    constructor
    · intro h
      cases h
      exact .inl ⟨not_lt.mp hi, rfl, rfl⟩
    · rintro (⟨-, rfl, rfl⟩ | ⟨hlt, -⟩ | ⟨hs, -⟩)
      · rfl
      · exact absurd hlt hi
      · exact absurd hs.1 hi

namespace Progress

/-- `exec_map_in` for the header that is next. -/
theorem step (hw : WellFormed m₀ start finish) (hres : Reserved s₀.pm start finish) (h0 : Empty s₀)
    (h : Progress m₀ μ start finish s₀ s m i i) (hseg : IsSegment m₀ start i)
    {kmalloc : ℕ → Option ℕ}
    (hmap : execMapIn s m kmalloc memory (start + (phdr m₀ start i).pOffset)
      (phdr m₀ start i).pVaddr (phdr m₀ start i).pMemsz (phdr m₀ start i).pFilesz =
        .ok (some (t, m'))) :
    Progress m₀ μ start finish s₀ t m' (i + 1) (i + 1) := by
  obtain ⟨-, -, -, hensure, hcopy⟩ := execMapIn_eq_some.mp hmap
  have hfits := hw.fits i hseg
  have hsize : (int32 (phdr m₀ start i).pFilesz).toNat = (phdr m₀ start i).pFilesz := by
    have := hfits.le
    have := hfits.floor
    have := hfits.ceiling
    rw [int32_of_le (by omega) (by omega)]
    exact Int.toNat_natCast _
  rw [hsize] at hcopy
  have hext := Ualloc.userEnsure_extends (hw.range hseg) h.supplied hensure
  exact (h.map h0 hseg hext).copy hw hres h0 hseg hcopy

/-- By induction on the rounds that are left. -/
theorem load (hw : WellFormed m₀ start finish) (hres : Reserved s₀.pm start finish) (h0 : Empty s₀)
    (h : Progress m₀ μ start finish s₀ s m i i) (hi : i ≤ ePhnum m₀ start)
    (hleft : ePhnum m₀ start ≤ i + left)
    (hrun : loadSegments kmalloc memory start left i s m = .ok (some (t, m'))) :
    Progress m₀ μ start finish s₀ t m' (ePhnum m₀ start) (ePhnum m₀ start) := by
  induction left generalizing i s m with
  | zero =>
    cases hrun
    rwa [show ePhnum m₀ start = i by omega]
  | succ left ih =>
    obtain ⟨hge, rfl, rfl⟩ | ⟨hlt, hno, hrun⟩ | ⟨hseg, s₁, m₁, hmap, hrun⟩ :=
      (loadSegments_cases hw h.image).mp hrun
    · rwa [show ePhnum m₀ start = i by omega]
    · exact ih (h.skip hno) (by omega) (by omega) hrun
    · have hlt := hseg.1
      exact ih (h.step hw hres h0 hseg hmap) (by omega) (by omega) hrun

/-- What else memory holds has no influence on the map. -/
theorem load_total (hw : WellFormed m₀ start finish) (hres : Reserved s₀.pm start finish)
    (h0 : Empty s₀) (h : Progress m₀ m₀ start finish s₀ s m i i)
    (h' : Progress m₀ μ₀ start finish s₀ s μ i i)
    (hrun : loadSegments kmalloc memory start left i s m = .ok (some (t, m'))) :
    ∃ μ', loadSegments kmalloc memory start left i s μ = .ok (some (t, μ')) := by
  induction left generalizing i s m μ with
  | zero =>
    cases hrun
    exact ⟨μ, rfl⟩
  | succ left ih =>
    obtain ⟨hge, rfl, rfl⟩ | ⟨hlt, hno, hrun⟩ | ⟨hseg, s₁, m₁, hmap, hrun⟩ :=
      (loadSegments_cases hw h.image).mp hrun
    · exact ⟨μ, (loadSegments_cases hw h'.image).mpr (.inl ⟨hge, rfl, rfl⟩)⟩
    · obtain ⟨μ', hμ⟩ := ih (h.skip hno) (h'.skip hno) hrun
      exact ⟨μ', (loadSegments_cases hw h'.image).mpr (.inr (.inl ⟨hlt, hno, hμ⟩))⟩
    · obtain ⟨hpages, hne, hcount, hensure, hcopy⟩ := execMapIn_eq_some.mp hmap
      obtain ⟨μ₁, hcopy'⟩ := copyFrom_total hcopy μ
      have hmap' := execMapIn_eq_some.mpr ⟨hpages, hne, hcount, hensure, hcopy'⟩
      obtain ⟨μ', hμ⟩ := ih (h.step hw hres h0 hseg hmap) (h'.step hw hres h0 hseg hmap') hrun
      exact ⟨μ', (loadSegments_cases hw h'.image).mpr (.inr (.inr ⟨hseg, s₁, μ₁, hmap', hμ⟩))⟩

end Progress

/-! ### The whole call -/

/-- The directory is made of one of the free pages. -/
theorem newProcess_eq (hr : Ready s.pm) (hroom : Roomy s.pm m start) (h : newProcess s = .ok s₀) :
    Empty s₀ ∧ Supplied s₀ (neededPages m start) ∧ SamePool s.pm s₀.pm ∧
      ∀ b, s.pm.isSet b = true → s₀.pm.isSet b = true := by
  obtain ⟨⟨pm, frame⟩, halloc, h⟩ := bind_eq_ok.mp h
  dsimp only at h
  by_cases hz : frame = 0
  · rw [if_pos hz] at h
    cases h
  · rw [if_neg hz] at h
    cases h
    obtain ⟨hr', hpool, ⟨hzero, -⟩ | ⟨b, -, htaken⟩⟩ := hr.alloc le_rfl halloc
    · exact absurd hzero hz
    · refine ⟨⟨hr', fun p => ?_⟩, ⟨hr', userTables_new frame, ?_⟩, hpool, fun b hb => ?_⟩
      · simp only [PageDirectory.word, newPageDirectory]
        split_ifs <;> rfl
      · have hpages := Finset.card_le_card (Finset.filter_subset
          (fun p => present ((newPageDirectory frame).word p) = false) (neededPages m start))
        have htables := Finset.card_le_card (Finset.filter_subset
          (fun i => tableFlags (newPageDirectory frame) i = none)
          ((neededPages m start).image (· / 1024)))
        have hcount := htaken.count
        unfold Roomy at hroom
        unfold Enough Ualloc.missing Ualloc.missingTables
        dsimp only
        omega
      · rw [htaken.set, hb, Bool.or_true]

theorem Progress.init (h0 : Empty s₀) (hs : Supplied s₀ (neededPages m₀ start))
    (himage : SameImage m₀ μ start finish) : Progress m₀ μ start finish s₀ s₀ μ 0 0 := by
  refine ⟨hs, .refl hs.tables _, fun p => ?_, himage, fun _ _ _ _ _ => rfl, by simp, by simp⟩
  rw [h0.word]
  simp [present]

theorem newThread_keeps {k : Answers} (h : newThread s k memory = .ok t) : Keeps s.map t.map := by
  rw [newThread] at h
  by_cases hk : k.thread = false
  · rw [if_pos hk] at h
    cases h
    exact .refl _
  · rw [if_neg hk] at h
    obtain ⟨free, -, h⟩ := bind_eq_ok.mp h
    obtain ⟨⟨s₁, rc⟩, hensure, h⟩ := bind_eq_ok.mp h
    obtain ⟨_, -, h⟩ := bind_eq_ok.mp h
    obtain ⟨_, -, h⟩ := bind_eq_ok.mp h
    obtain ⟨_, -, h⟩ := bind_eq_ok.mp h
    cases h
    have hkeeps := Ualloc.userEnsure_keeps hensure
    exact hkeeps

theorem execMemoryRegion_eq_some {k : Answers} {pid pid' : ℕ} :
    execMemoryRegion s m k memory pid start = .ok (some (pid', t, m')) ↔
      validElf m start = true ∧ k.process = true ∧ k.checkout = true ∧ pid' = pid ∧
      ∃ s₀ s₁, newProcess s = .ok s₀ ∧
        loadSegments k.records memory start (2 ^ 16) 0 s₀ m = .ok (some (s₁, m')) ∧
        newThread s₁ k memory = .ok t := by
  rw [execMemoryRegion]
  cases hvalid : validElf m start with
  | false => simp
  | true =>
    cases hprocess : k.process with
    | false => simp
    | true =>
      simp only [Bool.true_eq_false, if_false, true_and]
      constructor
      · intro h
        obtain ⟨s₀, hnew, h⟩ := bind_eq_ok.mp h
        obtain ⟨o, hload, h⟩ := bind_eq_ok.mp h
        cases o with
        | none => cases h
        | some r =>
          dsimp only at h
          cases hcheckout : k.checkout with
          | false =>
            rw [hcheckout, if_pos rfl] at h
            cases h
          | true =>
            rw [hcheckout, if_neg (by simp)] at h
            obtain ⟨s₂, hthread, h⟩ := bind_eq_ok.mp h
            cases h
            exact ⟨rfl, rfl, s₀, r.1, hnew, hload, hthread⟩
      · rintro ⟨hcheckout, rfl, s₀, s₁, hnew, hload, hthread⟩
        rw [hnew, ok_bind, hload, ok_bind]
        dsimp only
        rw [hcheckout, if_neg (by simp), hthread, ok_bind]

end Runs

section Results
variable {m₀ m' μ : Bytes} {start finish a i : ℕ} {s₀ s : State} {d : PageDirectory}

/-- Where everything is asked for in time, everything is loaded. -/
theorem Progress.loaded (hw : WellFormed m₀ start finish)
    (h : Progress m₀ μ start finish s₀ s m' (ePhnum m₀ start) (ePhnum m₀ start))
    (hkeeps : Keeps s.map d) (hcov : Covered m₀ start) : Loaded m₀ start d m' := by
  intro i hseg
  have hfits := hw.fits i hseg
  obtain ⟨hmapped, hbytes⟩ := hcov i hseg
  have hfound : ∀ {a j}, (phdr m₀ start i).pVaddr ≤ a →
      a < (phdr m₀ start i).pVaddr + (phdr m₀ start i).pMemsz →
      Maps m₀ start j (a / PAGE_SIZE) → Paging.translate d a = some (target s.map a) := by
    intro a j h₁ h₂ hm
    have hp := (h.pages _).mpr ⟨j, hm.1.1, hm⟩
    have hceil := hfits.ceiling
    rw [translate_target (by omega) (hkeeps.present hp), target, target, hkeeps _ hp]
  refine ⟨fun a h₁ h₂ => ?_, fun k hk => ?_⟩
  · obtain ⟨j, hm⟩ := hmapped a h₁ h₂
    rw [hfound h₁ h₂ hm]
    exact Option.some_ne_none _
  · have hle := hfits.le
    obtain ⟨j, hj, hm⟩ := hbytes k hk
    exact ⟨_, hfound (Nat.le_add_right _ _) (by omega) hm,
      h.copied i hseg.1 hseg k hk ⟨j, hj, hm⟩⟩

/-- A page that is there has been asked for. -/
theorem Progress.maps (hw : WellFormed m₀ start finish)
    (h : Progress m₀ μ start finish s₀ s m' (ePhnum m₀ start) (ePhnum m₀ start))
    (hseg : IsSegment m₀ start i) (h₁ : (phdr m₀ start i).pVaddr ≤ a)
    (h₂ : a < (phdr m₀ start i).pVaddr + (phdr m₀ start i).pMemsz)
    (ha : Paging.translate s.map a ≠ none) : ∃ j, Maps m₀ start j (a / PAGE_SIZE) := by
  have hp := present_of_translate h.supplied.tables ((hw.fits i hseg).user h₁ h₂) ha
  obtain ⟨j, -, hm⟩ := (h.pages _).mp hp
  exact ⟨j, hm⟩

end Results

theorem add_one_ne {b : UInt8} : b + 1 ≠ b := by
  intro h
  have hval := congrArg UInt8.toNat h
  have := b.toNat_lt
  rw [UInt8.toNat_add] at hval
  have hone : (1 : UInt8).toNat = 1 := rfl
  omega

/-- With enough memory, an image is loaded, whatever else memory holds, exactly if the pages counted
for its segments cover them in time. -/
theorem execMemoryRegion_loads_iff {s : State} {m : Bytes} {k : Answers} {memory : ℕ → ℕ}
    {pid start finish : ℕ} (hr : Ready s.pm) (hw : WellFormed m start finish)
    (hres : Reserved s.pm start finish) (hroom : Roomy s.pm m start)
    (hrun : ∃ r, execMemoryRegion s m k memory pid start = .ok (some r)) :
    (∀ μ k' r, SameImage m μ start finish → k'.records = k.records →
      execMemoryRegion s μ k' memory pid start = .ok (some r) → Loaded m start r.2.1.map r.2.2) ↔
        Covered m start := by
  obtain ⟨⟨pid', t, m'⟩, hrun⟩ := hrun
  obtain ⟨hvalid, -, -, -, s₀, s₁, hnew, hload, -⟩ := execMemoryRegion_eq_some.mp hrun
  obtain ⟨h0, hsupplied, hpool, hused⟩ := newProcess_eq hr hroom hnew
  have hres₀ : Reserved s₀.pm start finish := by
    refine ⟨hres.nonnull, fun a h₁ h₂ b hb heq => hused b (hres.used a h₁ h₂ b ?_ ?_)⟩
    · rwa [hpool.pages] at hb
    · rwa [hpool.pageAddr] at heq
  have hphnum : ePhnum m start ≤ 0 + 2 ^ 16 := by
    have := Bytes.read_lt 2 m (start + 44)
    unfold ePhnum
    omega
  have hprogress : ∀ {μ μ' t}, SameImage m μ start finish →
      loadSegments k.records memory start (2 ^ 16) 0 s₀ μ = .ok (some (t, μ')) →
      Progress m μ start finish s₀ t μ' (ePhnum m start) (ePhnum m start) :=
    fun himage hload =>
      (Progress.init h0 hsupplied himage).load hw hres₀ h0 (Nat.zero_le _) hphnum hload
  constructor
  · intro hall
    -- the memory may hold anything, and the first thread get no stack
    have hquiet : ∀ μ, SameImage m μ start finish → ∃ μ',
        Progress m μ start finish s₀ s₁ μ' (ePhnum m start) (ePhnum m start) ∧
          Loaded m start s₁.map μ' := by
      intro μ himage
      have hself : SameImage m m start finish := fun _ _ _ => rfl
      obtain ⟨μ', hμ⟩ := (Progress.init h0 hsupplied hself).load_total hw hres₀ h0
        (Progress.init h0 hsupplied himage) hload
      have hvalid' : validElf μ start = true := by rw [hw.validElf_congr himage, hvalid]
      exact ⟨μ', hprogress himage hμ, hall μ ⟨true, k.records, true, false, fun _ => none⟩
        (pid, s₁, μ') himage rfl (execMemoryRegion_eq_some.mpr
          ⟨hvalid', rfl, rfl, rfl, s₀, s₁, hnew, hμ, rfl⟩)⟩
    intro i hseg
    have hfits := hw.fits i hseg
    obtain ⟨m₁, hm₁, hloaded⟩ := hquiet m fun _ _ _ => rfl
    have hmaps := fun a h₁ h₂ => hm₁.maps hw hseg h₁ h₂ ((hloaded i hseg).mapped a h₁ h₂)
    refine ⟨hmaps, fun n hn => ?_⟩
    -- a byte that was copied too early is not there if the frame held another one
    by_contra hearly
    push Not at hearly
    have hle := hfits.le
    have hfloor := hfits.floor
    have hceil := hfits.ceiling
    obtain ⟨j, hm⟩ := hmaps ((phdr m start i).pVaddr + n) (Nat.le_add_right _ _) (by omega)
    have hp := (hm₁.pages _).mpr ⟨j, hm.1.1, hm⟩
    obtain ⟨μ', hμ', hloaded'⟩ := hquiet (Function.update m
      (target s₁.map ((phdr m start i).pVaddr + n)) (m (start + (phdr m start i).pOffset + n) + 1))
      fun a h₁ h₂ => Function.update_of_ne (target_ne_image hres₀ h0 hm₁.grown _ h₁ h₂).symm ..
    obtain ⟨phys, hphys, hbyte⟩ := (hloaded' i hseg).bytes n hn
    rw [translate_target (by omega) hp] at hphys
    cases hphys
    rw [hμ'.lost i hseg.1 hseg n hn (h0.new_iff.mpr hp) hearly, Function.update_self] at hbyte
    exact add_one_ne hbyte
  · rintro hcov μ k' ⟨pid', t, μ'⟩ himage hrecords hexec
    obtain ⟨-, -, -, -, s₀', s₁', hnew', hload', hthread⟩ := execMemoryRegion_eq_some.mp hexec
    rw [hnew] at hnew'
    cases hnew'
    rw [hrecords] at hload'
    exact (hprogress himage hload').loaded hw (newThread_keeps hthread) hcov

/-- An image of one segment of two bytes, which begins where the last byte of its address says. -/
def elfBytes (low : UInt8) : List UInt8 :=
  [0x7f, 69, 76, 70, 0, 0, 0, 0, 0, 0, 0, 0, 0, 0, 0, 0, 2, 0, 3, 0, 1, 0, 0, 0, 0, 0, 0, 0x80,
    52, 0, 0, 0, 0, 0, 0, 0, 0, 0, 0, 0, 52, 0, 32, 0, 1, 0, 0, 0, 0, 0, 0, 0,
    1, 0, 0, 0, 84, 0, 0, 0, low, 0x0f, 0, 0x80, 0, 0, 0, 0, 2, 0, 0, 0, 2, 0, 0, 0, 5, 0, 0, 0,
    0, 0x10, 0, 0, 0xAA, 0xBB]

/-- The image at 0x5000. -/
def elfImage (low : UInt8) : Bytes :=
  fun a => if a < 0x5000 then 0 else (elfBytes low).getD (a - 0x5000) 0

/-- Eight pages, of which the first and that of the image are in use. -/
def bootedState : State :=
  ⟨PhysicalMemory.eightPages 0, newPageDirectory 0, fun _ => none, none, [], [], [], []⟩

def answers : Answers := ⟨true, fun _ _ => some 8, true, true, fun _ => some 16⟩

theorem WellFormed.of_one {m : Bytes} {start finish : ℕ} (hn : ePhnum m start = 1)
    (htop : finish ≤ 2 ^ 32) (hheader : start + 52 ≤ finish)
    (hheaders : start + ePhoff m start + 32 ≤ finish)
    (hfits : (phdr m start 0).Fits start finish) : WellFormed m start finish := by
  have hzero : ∀ i, i < ePhnum m start → i = 0 := by
    rw [hn]
    omega
  refine ⟨hheader, htop, fun i hi => ?_, fun i hi => ?_, fun i j hi hj hne => ?_⟩
  · rw [hzero i hi, Nat.mul_zero, Nat.add_zero]
    exact hheaders
  · rw [hzero i hi.1]
    exact hfits
  · exact absurd ((hzero i hi.1).trans (hzero j hj.1).symm) hne

theorem elfImage_wellFormed {low : UInt8} (h : low = 0xFE ∨ low = 0xFF) :
    WellFormed (elfImage low) 0x5000 0x5056 := by
  rcases h with rfl | rfl
  · exact .of_one (by decide) (by decide) (by decide) (by decide)
      ⟨by decide, by decide, by decide, by decide, by decide⟩
  · exact .of_one (by decide) (by decide) (by decide) (by decide)
      ⟨by decide, by decide, by decide, by decide, by decide⟩

theorem exists_of_map {α β : Type} {x : Outcome (Option α)} {f : α → β} {y : β}
    (h : x.toOption.map (Option.map f) = some (some y)) : ∃ r, x = .ok (some r) ∧ f r = y := by
  cases x with
  | error e => cases h
  | ok o =>
    cases o with
    | none => cases h
    | some r => exact ⟨r, rfl, Option.some.inj (Option.some.inj h)⟩

/-- The first byte is where the process finds it; the page of the second one is not mapped, and it
was written to the address 0. -/
theorem segment_end_not_loaded : WellFormed (elfImage 0xFF) 0x5000 0x5056 ∧
    ∃ r, execMemoryRegion bootedState (elfImage 0xFF) answers (fun _ => 0) 7 0x5000 = .ok (some r) ∧
      Paging.translate r.2.1.map 0x80000FFF = some 0x4FFF ∧ r.2.2 0x4FFF = 0xAA ∧ r.2.2 0 = 0xBB ∧
      ¬ Loaded (elfImage 0xFF) 0x5000 r.2.1.map r.2.2 := by
  obtain ⟨r, hexec, hr⟩ := exists_of_map
    (x := execMemoryRegion bootedState (elfImage 0xFF) answers (fun _ => 0) 7 0x5000)
    (f := fun r => (Paging.translate r.2.1.map 0x80000FFF, Paging.translate r.2.1.map 0x80001000,
      r.2.2 0x4FFF, r.2.2 0)) (y := (some 0x4FFF, none, 0xAA, 0xBB)) (by decide +kernel)
  simp only [Prod.mk.injEq] at hr
  obtain ⟨hfirst, hsecond, hbyte, hzero⟩ := hr
  refine ⟨elfImage_wellFormed (.inr rfl), r, hexec, hfirst, hbyte, hzero, fun hl => ?_⟩
  exact (hl 0 ⟨by decide, by decide⟩).mapped 0x80001000 (by decide) (by decide) hsecond

theorem booted_ready : Ready bootedState.pm :=
  ⟨PhysicalMemory.eightPages_counted 0, by decide, by decide, by decide⟩

theorem booted_reserved : Reserved bootedState.pm 0x5000 0x5056 := by
  refine ⟨by decide, fun a h₁ h₂ => ?_⟩
  have hpage : a / PAGE_SIZE * PAGE_SIZE = 0x5000 := by
    unfold PAGE_SIZE
    omega
  rw [hpage]
  decide

/-- The segment lies in one page. -/
theorem maps_inside {i p : ℕ} : Maps (elfImage 0xFE) 0x5000 i p ↔ i = 0 ∧ p = 0x80000 := by
  have hn : ePhnum (elfImage 0xFE) 0x5000 = 1 := by decide
  constructor
  · rintro ⟨⟨hi, -⟩, hp⟩
    have hzero : i = 0 := by omega
    subst hzero
    have hcovers : Covers 0x80000FFE 1 p := hp
    unfold Covers PAGE_SIZE at hcovers
    exact ⟨rfl, by omega⟩
  · rintro ⟨rfl, rfl⟩
    decide

theorem booted_roomy : Roomy bootedState.pm (elfImage 0xFE) 0x5000 := by
  have hpages : neededPages (elfImage 0xFE) 0x5000 ⊆ {0x80000} := by
    intro p hp
    obtain ⟨-, i, -, hm⟩ := Finset.mem_filter.mp hp
    exact Finset.mem_singleton.mpr (maps_inside.mp hm).2
  have hone : (neededPages (elfImage 0xFE) 0x5000).card ≤ 1 := Finset.card_le_card hpages
  have htables := Finset.card_image_le (s := neededPages (elfImage 0xFE) 0x5000) (f := (· / 1024))
  have hfree : bootedState.pm.free.card = 6 := by decide
  unfold Roomy
  omega

theorem covered_inside : Covered (elfImage 0xFE) 0x5000 := by
  have hn : ePhnum (elfImage 0xFE) 0x5000 = 1 := by decide
  rintro i ⟨hi, -⟩
  have hzero : i = 0 := by omega
  subst hzero
  have hvaddr : (phdr (elfImage 0xFE) 0x5000 0).pVaddr = 0x80000FFE := by decide
  have hmemsz : (phdr (elfImage 0xFE) 0x5000 0).pMemsz = 2 := by decide
  have hfilesz : (phdr (elfImage 0xFE) 0x5000 0).pFilesz = 2 := by decide
  refine ⟨fun a h₁ h₂ => ⟨0, maps_inside.mpr ⟨rfl, ?_⟩⟩,
    fun k hk => ⟨0, le_rfl, maps_inside.mpr ⟨rfl, ?_⟩⟩⟩
  · unfold PAGE_SIZE
    omega
  · unfold PAGE_SIZE
    omega

theorem loads_inside : ∃ r,
    execMemoryRegion bootedState (elfImage 0xFE) answers (fun _ => 0) 7 0x5000 = .ok (some r) ∧
      Loaded (elfImage 0xFE) 0x5000 r.2.1.map r.2.2 := by
  obtain ⟨r, hexec, -⟩ := exists_of_map
    (x := execMemoryRegion bootedState (elfImage 0xFE) answers (fun _ => 0) 7 0x5000)
    (f := Prod.fst) (y := 7) (by decide +kernel)
  have hall := (execMemoryRegion_loads_iff (k := answers) booted_ready
    (elfImage_wellFormed (.inl rfl)) booted_reserved booted_roomy ⟨r, hexec⟩).mpr covered_inside
  exact ⟨r, hexec, hall _ answers r (fun _ _ _ => rfl) rfl hexec⟩

end Racoon.Exec
