import Racoon.Mm.VmemSource

/-!
# Arenas with the default hooks

`vm_afunc` and `vm_ffunc` call `vmem_alloc` and `vmem_free` on the source. With
them an arena and its source, which may have a source again, are two backings
of the same kind, one over the other. The answers that `kmalloc` will give are
part of the state of each; a refused tag that is needed ends the run with the
use of a `NULL` pointer.
-/

namespace Racoon.Arenas
open Lib
variable {σ : Type}

/-- An answer of `kmalloc` to the request for a tag. -/
abbrev TagAnswer := (tag : ℕ → Option Bt) → Option { t : ℕ // tag t = none }

/-- An arena and the answers it is going to get. -/
structure Supplied (σ : Type) where
  arena : Vmem σ
  kmalloc : ℕ → TagAnswer

def vmAfunc (s : Supplied σ) (size vmflag : ℕ) : Outcome (Supplied σ × ℕ) := do
  let (v, a) ← vmemAlloc ((s.kmalloc 0 s.arena.tag).map Subtype.val) s.arena size vmflag
  .ok (⟨v, fun n => s.kmalloc (n + 1)⟩, a)

def vmFfunc (s : Supplied σ) (ptr _size : ℕ) : Outcome (Supplied σ) := do
  let (v, _) ← vmemFree s.arena ptr
  .ok { s with arena := v }

/-- An arena, over whatever is below it. -/
def arenaBacking (P : Backing Fault σ) : Backing Fault (Supplied σ) where
  alloc := vmAfunc
  free := vmFfunc
  Ok s := ArenaOk P s.arena
  Live s := LiveRange s.arena
  Admits s := ArenaAdmits P s.arena
  Granted s := (s.kmalloc 0 s.arena.tag).isSome ∧ ∀ s', s.arena.source = some s' → P.Granted s'
  Unchanged s t := t.arena = s.arena ∨ Restored P s.arena t.arena
  unchanged_refl _ := .inl rfl
  alloc_returns s n flag hok hn hg := by
    obtain ⟨⟨t, ht⟩, hk⟩ := Option.isSome_iff_exists.mp hg.1
    obtain ⟨res, hres⟩ := hok.alloc_returns hn ht hg.2 flag
    refine ⟨_, bind_eq_ok.mpr ⟨res, ?_, rfl⟩⟩
    rw [hk]
    exact hres
  alloc_cases s n flag t a hok hn heq := by
    obtain ⟨⟨v, b⟩, hcall, heq⟩ := bind_eq_ok.mp heq
    cases heq
    have htmp : ∀ t, (s.kmalloc 0 s.arena.tag).map Subtype.val = some t → s.arena.tag t = none := by
      intro t ht
      obtain ⟨⟨t', ht'⟩, -, rfl⟩ := Option.map_eq_some_iff.mp ht
      exact ht'
    have h := hok.alloc hn htmp hcall
    exact ⟨h.ok, h.admits, h.answer.imp_left fun ha => ⟨ha.1, .inr ha.2.1, ha.2.2⟩⟩
  free_returns s a k n hok hlive := by
    obtain ⟨w, heq, hw, hadmits, -, hlive'⟩ := hok.free hlive
    exact ⟨_, bind_eq_ok.mpr ⟨_, heq, rfl⟩, hw, hadmits, hlive'⟩

inductive LayerCall
  | alloc (rsize vmflag : ℕ)
  | free (addr : ℕ)

/-- No size wraps when it is rounded up, in the arena or below. -/
def NonWrapping (P : Backing Fault σ) (v : Vmem (Supplied σ)) (n : ℕ) : Prop :=
  n = 0 ∨ ArenaAdmits (arenaBacking P) v n

/-- Nothing is allocated. -/
def Untouched (v : Vmem σ) : Prop := ∀ t g, v.tag t = some g → g.allocated = .free

/-- Runs of an arena over a source that has no other client. -/
def layers (P : Backing Fault σ) : System (Supplied (Supplied σ)) LayerCall Fault where
  Init s := s.arena.afunc = vmAfunc ∧ s.arena.ffunc = vmFfunc ∧ Untouched s.arena ∧
    (∃ G fl, Represents s.arena G fl ∧ ∀ r ∈ G, r.addr ≠ 0) ∧
    ∃ source, s.arena.source = some source ∧ Untouched source.arena ∧ ArenaOk P source.arena
  Guard s
    | .alloc rsize _ => NonWrapping P s.arena rsize
    | .free addr => Live s.arena addr
  step s
    | .alloc rsize vmflag => do
      let (s, _) ← vmAfunc s rsize vmflag
      .ok s
    | .free addr => vmFfunc s addr 0

/-- What is allocated in the source is what backs the arena, range by range. -/
structure Balanced (v : Vmem (Supplied σ)) (source : Vmem σ) : Prop where
  backed : ∀ t g, v.tag t = some g → g.allocated = .allocated →
    ∃ n, g.size ≤ n ∧ LiveRange source g.sourceAddr n
  only : ∀ a n, LiveRange source a n →
    ∃ t g, v.tag t = some g ∧ g.allocated = .allocated ∧ g.sourceAddr = a
  distinct : ∀ t t' g g', v.tag t = some g → v.tag t' = some g' → g.allocated = .allocated →
    g'.allocated = .allocated → g.sourceAddr = g'.sourceAddr → t = t'

/-- The invariant of a run. -/
def Layered (P : Backing Fault σ) (s : Supplied (Supplied σ)) : Prop :=
  ArenaOk (arenaBacking P) s.arena ∧ s.arena.source ≠ none

theorem Untouched.entry {v : Vmem σ} (h : Untouched v) (t s a n : ℕ) : ¬ Entry v t s a n := by
  rintro ⟨g, hg, hstate, -⟩
  cases (h t g hg).symm.trans hstate

theorem entry_of_allocated {v : Vmem σ} {t : ℕ} {g : Bt} (hg : v.tag t = some g)
    (h : g.allocated = .allocated) : Entry v t g.sourceAddr g.addr g.size :=
  ⟨g, hg, h, rfl, rfl, rfl⟩

section Runs
variable {P : Backing Fault σ} {s t u : Supplied (Supplied σ)} {source : Supplied σ}
  {calls : List LayerCall} {a : ℕ}

theorem Layered.init (h : (layers P).Init s) : Layered P s := by
  obtain ⟨hafunc, hffunc, huntouched, hv, source, hs, hbelow, hok⟩ := h
  refine ⟨⟨hv, fun s' hs' => ?_⟩, by simp [hs]⟩
  cases hs.symm.trans hs'
  exact ⟨hafunc, hffunc, hok, .nothing (fun t a n ⟨b, he⟩ => huntouched.entry t a b n he)
    fun a n ⟨t, b, he⟩ => hbelow.entry t b a n he⟩

theorem Layered.balanced (h : Layered P s) (hs : s.arena.source = some source) :
    Balanced s.arena source.arena := by
  have hledger := (h.1.source source hs).ledger
  refine ⟨fun t g hg hstate => ?_, fun a n hlive => ?_,
    fun t t' g g' hg hg' hstate hstate' he => ?_⟩
  · exact (hledger.backed t _ _ ⟨_, entry_of_allocated hg hstate⟩).2
  · obtain ⟨t, n', a', g, hg, hstate, hsource, -⟩ := hledger.only a n hlive
    exact ⟨t, g, hg, hstate, hsource⟩
  · exact hledger.distinct t t' _ _ _ ⟨_, entry_of_allocated hg hstate⟩
      ⟨_, he ▸ entry_of_allocated hg' hstate'⟩

/-- A call for no bytes does nothing. -/
theorem vmAfunc_zero (s : Supplied σ) (vmflag : ℕ) :
    vmAfunc s 0 vmflag = .ok (⟨s.arena, fun n => s.kmalloc (n + 1)⟩, 0) := by
  rw [vmAfunc, vmemAlloc, if_pos rfl, ok_bind]

theorem Layered.alloc {n vmflag : ℕ} (h : Layered P s) (hn : NonWrapping P s.arena n)
    (heq : vmAfunc s n vmflag = .ok (t, a)) :
    Layered P t ∧ (a = 0 → t.arena = s.arena ∨ Restored (arenaBacking P) s.arena t.arena) := by
  rcases hn with rfl | hn
  · rw [vmAfunc_zero] at heq
    cases heq
    exact ⟨h, fun _ => .inl rfl⟩
  · obtain ⟨⟨v, b⟩, hcall, heq⟩ := bind_eq_ok.mp heq
    cases heq
    have htmp : ∀ t, (s.kmalloc 0 s.arena.tag).map Subtype.val = some t → s.arena.tag t = none := by
      intro t ht
      obtain ⟨⟨t', ht'⟩, -, rfl⟩ := Option.map_eq_some_iff.mp ht
      exact ht'
    have hall := h.1.alloc hn htmp hcall
    refine ⟨⟨hall.ok, fun hnone => h.2 (hall.below.mpr hnone)⟩, fun ha => ?_⟩
    rcases hall.answer with ⟨-, hrestored, -⟩ | ⟨hne, -⟩
    · exact .inr hrestored
    · exact (hne ha).elim

theorem Layered.free (h : Layered P s) (hlive : Live s.arena a) :
    ∃ t, vmFfunc s a 0 = .ok t ∧ Layered P t := by
  obtain ⟨k, g, hg, hstate, rfl⟩ := hlive
  obtain ⟨w, heq, hok, -, hbelow, -⟩ := h.1.free ⟨k, _, entry_of_allocated hg hstate⟩
  exact ⟨_, bind_eq_ok.mpr ⟨_, heq, rfl⟩, hok, fun hnone => h.2 (hbelow.mpr hnone)⟩

theorem Layered.step {call : LayerCall} (h : Layered P s) (hg : (layers P).Guard s call)
    (heq : (layers P).step s call = .ok t) : Layered P t := by
  cases call with
  | alloc n vmflag =>
    obtain ⟨⟨t', b⟩, hcall, heq⟩ := bind_eq_ok.mp heq
    cases heq
    exact (h.alloc hg hcall).1
  | free addr =>
    obtain ⟨t', hcall, ht'⟩ := h.free hg
    cases heq.symm.trans hcall
    exact ht'

theorem Layered.of_steps (hs : (layers P).Init s) (h : (layers P).Steps s calls t) : Layered P t :=
  h.invariant (fun _ _ _ => Layered.step) (.init hs)

/-- The source after an allocation that had to be undone. -/
structure SourceKept (v w : Vmem σ) : Prop where
  tags : w.tags = v.tags
  tag : ∀ t, (w.tag t).map Bt.shown = (v.tag t).map Bt.shown
  same : v.source = none → w = v

/-- The arena and its source after an allocation that returned `NULL`. -/
structure LayersKept (v w : Vmem (Supplied σ)) : Prop where
  tags : w.tags = v.tags
  tag : ∀ t, (w.tag t).map Bt.shown = (v.tag t).map Bt.shown
  tables : SameTables v w
  source : ∀ s, v.source = some s → ∃ s', w.source = some s' ∧ SourceKept s.arena s'.arena

/-- Along every run the allocations live in the source are those that back the arena's allocated
ranges, one each; an allocation that returns `NULL` leaves both as they were, and no call fails for
another reason than the want of a tag. -/
theorem layers_balanced (hs : (layers P).Init s) (h : (layers P).Steps s calls t) :
    (∃ source, t.arena.source = some source ∧ Balanced t.arena source.arena) ∧
    (∀ n vmflag u, NonWrapping P t.arena n → vmAfunc t n vmflag = .ok (u, 0) →
      LayersKept t.arena u.arena) ∧
    (∀ addr, Live t.arena addr → ∃ u, vmFfunc t addr 0 = .ok u) ∧
    ∀ n vmflag, NonWrapping P t.arena n → (arenaBacking (arenaBacking P)).Granted t →
      ∃ res, vmAfunc t n vmflag = .ok res := by
  have ht := Layered.of_steps hs h
  obtain ⟨source, hsource⟩ := Option.ne_none_iff_exists'.mp ht.2
  refine ⟨⟨source, hsource, ht.balanced hsource⟩, fun n vmflag u hn heq => ?_, fun addr hlive => ?_,
    fun n vmflag hn hgranted => ?_⟩
  · have hkept : ∀ {v w : Vmem σ}, w = v ∨ Restored P v w → SourceKept v w := by
      rintro v w (rfl | hr)
      · exact ⟨rfl, fun _ => rfl, fun _ => rfl⟩
      · exact ⟨hr.tags, hr.tag, hr.same⟩
    rcases (ht.alloc hn heq).2 rfl with hsame | hr
    · obtain ⟨G, fl, hv, -⟩ := ht.1.represents
      rw [hsame]
      exact ⟨rfl, fun _ => rfl, hv.sameTables hv ⟨rfl, rfl, rfl, rfl, rfl, rfl⟩,
        fun s hs => ⟨s, hs, hkept (.inl rfl)⟩⟩
    · refine ⟨hr.tags, hr.tag, hr.tables, fun s hs => ?_⟩
      obtain ⟨s', hs', hunchanged⟩ := hr.below s hs
      exact ⟨s', hs', hkept hunchanged⟩
  · obtain ⟨u, hu, -⟩ := ht.free hlive
    exact ⟨u, hu⟩
  · rcases hn with rfl | hn
    · exact ⟨_, vmAfunc_zero t vmflag⟩
    · exact (arenaBacking (arenaBacking P)).alloc_returns t n vmflag ht.1 hn hgranted

end Runs
section Examples

/-- An arena with pages of 4096 bytes and one span. -/
def pages (afunc : σ → ℕ → ℕ → Outcome (σ × ℕ)) (ffunc : σ → ℕ → ℕ → Outcome σ)
    (source : Option σ) (addr size : ℕ) : Outcome (Vmem σ) := do
  let v ← vmemCreate 4096 65536 afunc ffunc source
  let (v, _) ← vmemAdd (some 1) true (some 1) v addr size
  .ok v

theorem pages_represents {afunc : σ → ℕ → ℕ → Outcome (σ × ℕ)} {ffunc : σ → ℕ → ℕ → Outcome σ}
    {source : Option σ} {addr size : ℕ} {v : Vmem σ} (hpos : 0 < size) (haddr : addr ≠ 0)
    (hdvd : 4096 ∣ size) (htop : addr + size < 2 ^ 32)
    (h : pages afunc ffunc source addr size = .ok v) :
    v.afunc = afunc ∧ v.ffunc = ffunc ∧ v.source = source ∧ Untouched v ∧
      ∃ G fl, Represents v G fl ∧ ∀ r ∈ G, r.addr ≠ 0 := by
  obtain ⟨v₀, hcreate, h⟩ := bind_eq_ok.mp h
  obtain ⟨hsource, hv₀⟩ := vmemCreate_represents hcreate
  cases hcreate
  obtain ⟨w, G₁, G₂, fl', hadd, hkept, hG, hw⟩ := hv₀.vmemAdd_eq (s := 1) (t := 1) hpos hdvd htop
    (show size / 4096 < 2 ^ 30 by omega) nofun rfl rfl
  rw [hadd, ok_bind] at h
  cases h
  obtain ⟨rfl, rfl⟩ := List.append_eq_nil_iff.mp hG.symm
  refine ⟨hkept.afunc, hkept.ffunc, hkept.source, fun t g hg => ?_, _, fl', hw, fun r hr => ?_⟩
  · obtain ⟨x, hx, rfl⟩ := List.mem_map.mp (hw.skeleton.only t g hg)
    obtain ⟨g', hg', -, -, hstate⟩ := hw.skeleton.get hx
    cases hg.symm.trans hg'
    obtain rfl : x = ⟨1, addr, size, .free⟩ := by simpa [rangesOf, newRegion] using hx
    exact hstate
  · obtain rfl : r = newRegion 1 1 addr size := by simpa using hr
    exact haddr

def freshTag (n : ℕ) : TagAnswer := fun tag =>
  match h : tag (n + 2) with
  | none => some ⟨n + 2, h⟩
  | some _ => none

/-- The arena in a result, or another one. -/
def arenaIn (x : Outcome (Vmem σ)) (d : Vmem σ) : Vmem σ :=
  match x with
  | .ok v => v
  | .error _ => d

def noArena : Vmem σ :=
  ⟨4096, 65536, 5, fun _ _ _ => .error .badAccess, fun _ _ _ => .error .badAccess, none, none, none,
    fun _ => none, fun _ => none, fun _ => none⟩

/-- Two pages. -/
def twoPages : Supplied Unit :=
  ⟨arenaIn (pages (fun _ _ _ => .error .badAccess) (fun _ _ _ => .error .badAccess) none 0x10000
    8192) noArena, freshTag⟩

/-- Three pages over two. -/
def threePages : Supplied (Supplied Unit) :=
  ⟨arenaIn (pages vmAfunc vmFfunc (some twoPages) 0x80000000 12288) noArena, freshTag⟩

theorem arenaIn_ok {x : Outcome (Vmem σ)} {d : Vmem σ} (h : faultOf x = none) :
    x = .ok (arenaIn x d) := by
  cases x with
  | ok v => rfl
  | error e => cases h

theorem init_threePages : (layers (.none Fault Unit)).Init threePages := by
  obtain ⟨-, -, hsource, huntouched, hv⟩ := pages_represents (by decide) (by decide) ⟨2, rfl⟩
    (by decide) (arenaIn_ok (d := noArena) (by decide) :
      pages (fun (_ : Unit) _ _ => .error .badAccess) (fun _ _ _ => .error .badAccess) none 0x10000
        8192 = .ok _)
  obtain ⟨hafunc, hffunc, hsource', huntouched', hv'⟩ := pages_represents (by decide) (by decide)
    ⟨3, rfl⟩ (by decide) (arenaIn_ok (d := noArena) (by decide) :
      pages vmAfunc vmFfunc (some twoPages) 0x80000000 12288 = .ok _)
  refine ⟨hafunc, hffunc, huntouched', hv', twoPages, hsource', huntouched, hv, fun s hs => ?_⟩
  cases hsource.symm.trans hs

def afterCall (s : Supplied (Supplied Unit)) (call : LayerCall) : Supplied (Supplied Unit) :=
  match (layers (.none Fault Unit)).step s call with
  | .ok t => t
  | .error _ => s

def pageTaken : Supplied (Supplied Unit) := afterCall threePages (.alloc 4096 0)

def twoTaken : Supplied (Supplied Unit) := afterCall pageTaken (.alloc 4096 0)

/-- The last page is free again, and its tag still has a `source_addr`. -/
def pageFreed : Supplied (Supplied Unit) := afterCall twoTaken (.free 0x80002000)

/-- The first page is taken, and the source exhausted. -/
def firstTaken : Supplied (Supplied Unit) := afterCall pageFreed (.alloc 4096 vmemSearch)

theorem step_afterCall {s : Supplied (Supplied Unit)} {call : LayerCall}
    (h : faultOf ((layers (.none Fault Unit)).step s call) = none) :
    (layers (.none Fault Unit)).step s call = .ok (afterCall s call) := by
  unfold afterCall
  cases hc : (layers (.none Fault Unit)).step s call with
  | ok t => rfl
  | error e => simp [hc, faultOf] at h

theorem nonWrapping_page {s : Supplied (Supplied Unit)} (hq : s.arena.quantum = 4096)
    (hs : s.arena.source.map (fun b => (b.arena.quantum, b.arena.source.isNone)) =
      some (4096, true)) : NonWrapping (.none Fault Unit) s.arena 4096 := by
  refine .inr ⟨by decide, fun h => ?_, fun b hb => ?_⟩
  · rw [hq] at h
    exact absurd rfl h
  · rw [hb, Option.map_some, Option.some.injEq, Prod.mk.injEq] at hs
    have hround : roundUp s.arena.quantum 4096 = 4096 := by
      rw [hq]
      rfl
    rw [hround]
    refine ⟨by decide, fun h => ?_, fun c hc => ?_⟩
    · rw [hs.1] at h
      exact absurd rfl h
    · rw [hc] at hs
      cases hs.2

theorem steps_firstTaken : (layers (.none Fault Unit)).Steps threePages
    [.alloc 4096 0, .alloc 4096 0, .free 0x80002000, .alloc 4096 vmemSearch] firstTaken := by
  have h₁ : (layers (.none Fault Unit)).step threePages (.alloc 4096 0) = .ok pageTaken :=
    step_afterCall (by decide)
  have h₂ : (layers (.none Fault Unit)).step pageTaken (.alloc 4096 0) = .ok twoTaken :=
    step_afterCall (by decide)
  have h₃ : (layers (.none Fault Unit)).step twoTaken (.free 0x80002000) = .ok pageFreed :=
    step_afterCall (by decide)
  have h₄ : (layers (.none Fault Unit)).step pageFreed (.alloc 4096 vmemSearch) = .ok firstTaken :=
    step_afterCall (by decide)
  have hlive : ∀ g, twoTaken.arena.tag 2 = some g → Live twoTaken.arena g.addr :=
    fun g hg => ⟨2, g, hg, by cases hg; rfl, rfl⟩
  exact .cons (nonWrapping_page rfl rfl) h₁ <| .cons (nonWrapping_page rfl rfl) h₂ <|
    .cons (hlive _ rfl) h₃ <| .one (nonWrapping_page rfl rfl) h₄

theorem layers_balanced_pages :
    ∃ source, firstTaken.arena.source = some source ∧ Balanced firstTaken.arena source.arena :=
  (layers_balanced init_threePages steps_firstTaken).1

/-- The allocation that the source refuses clears the `source_addr` of the free tag it tried. -/
theorem source_addr_cleared :
    (layers (.none Fault Unit)).Init threePages ∧
      (layers (.none Fault Unit)).Steps threePages
        [.alloc 4096 0, .alloc 4096 0, .free 0x80002000, .alloc 4096 vmemSearch] firstTaken ∧
      NonWrapping (.none Fault Unit) firstTaken.arena 4096 ∧
      ∃ u, vmAfunc firstTaken 4096 0 = .ok (u, 0) ∧
        (firstTaken.arena.tag 2).map Bt.sourceAddr = some 0x11000 ∧
        (u.arena.tag 2).map Bt.sourceAddr = some 0 := by
  have hanswer : (match vmAfunc firstTaken 4096 0 with
      | .ok (u, a) => some (a, (u.arena.tag 2).map Bt.sourceAddr)
      | .error _ => none) = some (0, some 0) := by decide
  refine ⟨init_threePages, steps_firstTaken, nonWrapping_page rfl rfl, ?_⟩
  cases hc : vmAfunc firstTaken 4096 0 with
  | error e => simp [hc] at hanswer
  | ok res =>
    rw [hc] at hanswer
    obtain ⟨ha, hu⟩ := Prod.mk.inj (Option.some.inj hanswer)
    obtain ⟨u, a⟩ := res
    subst ha
    exact ⟨u, rfl, by decide, hu⟩

end Examples
end Racoon.Arenas
