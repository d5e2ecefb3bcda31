import Racoon.Mm.VmemAlloc
import Racoon.Mm.VmemFree
import Racoon.Mm.VmemAdd

/-!
# Runs of an arena without a source

The environment adds ranges, allocates and releases; the addresses of new tags
and spans are the answers of `kmalloc`, which never fails here. The code keeps
its lists, tables and free lists together as long as every range added has
fewer than `2^30` quanta. For a longer one `slots * sizeof( vmem_bt_t* )` wraps
and the table of the span is too small.
-/

namespace Racoon.Arenas
open Lib
variable {σ : Type}

/-- The arena and the ranges added so far. -/
structure ArenaRun (σ : Type) where
  arena : Vmem σ
  added : List Block

inductive ArenaCall
  | add (span bt addr size : ℕ)
  | alloc (tmp rsize vmflag : ℕ)
  | free (addr : ℕ)

/-- The start of an allocated range. -/
def Live (v : Vmem σ) (addr : ℕ) : Prop :=
  ∃ t g, v.tag t = some g ∧ g.allocated = .allocated ∧ g.addr = addr

namespace ArenaCall

def Guard (s : ArenaRun σ) : ArenaCall → Prop
  | add span bt addr size =>
    (s.arena.span span = none ∧ s.arena.tag bt = none) ∧
      (0 < size ∧ s.arena.quantum ∣ size ∧ addr + size < 2 ^ 32) ∧
      ∀ b ∈ s.added, Block.Apart (addr, size) b
  | alloc tmp rsize _ => s.arena.tag tmp = none ∧ 0 < rsize ∧ RoundsUp s.arena.quantum rsize
  | free addr => Live s.arena addr

def step (s : ArenaRun σ) : ArenaCall → Outcome (ArenaRun σ)
  | add span bt addr size => do
    let (v, _) ← vmemAdd (some span) true (some bt) s.arena addr size
    .ok ⟨v, (addr, size) :: s.added⟩
  | alloc tmp rsize vmflag => do
    let (v, _) ← vmemAlloc (some tmp) s.arena rsize vmflag
    .ok ⟨v, s.added⟩
  | free addr => do
    let (v, _) ← vmemFree s.arena addr
    .ok ⟨v, s.added⟩

/-- The table of a span added by the call is not too long for 32 bits. -/
def FewQuanta (s : ArenaRun σ) : ArenaCall → Prop
  | add _ _ _ size => size / s.arena.quantum < 2 ^ 30
  | alloc .. => True
  | free _ => True

end ArenaCall

/-- Runs of an arena made by `vmem_create` without a source. -/
def vmemSystem (σ : Type) : System (ArenaRun σ) ArenaCall Fault where
  Init s := s.added = [] ∧ ∃ quantum qcacheMax afunc ffunc,
    vmemCreate quantum qcacheMax afunc ffunc none = .ok s.arena
  Guard := ArenaCall.Guard
  step := ArenaCall.step

def Region.block (r : Region) : Block := (r.addr, r.size)

/-- The invariant of a run. -/
def ArenaRun.Ok (s : ArenaRun σ) : Prop :=
  s.arena.source = none ∧ ∃ G fl, Represents s.arena G fl ∧ (G.map Region.block).Perm s.added

theorem vmemCreate_represents {quantum qcacheMax : ℕ} {afunc : σ → ℕ → ℕ → Outcome (σ × ℕ)}
    {ffunc : σ → ℕ → ℕ → Outcome σ} {source : Option σ} {v : Vmem σ}
    (h : vmemCreate quantum qcacheMax afunc ffunc source = .ok v) :
    v.source = source ∧ Represents v [] fun _ => [] := by
  unfold vmemCreate at h
  split_ifs at h with hq
  obtain ⟨bits, -, hv⟩ := bind_eq_ok.mp h
  cases hv
  refine ⟨rfl, ⟨⟨Nat.pos_of_ne_zero hq, ⟨nofun, .nil⟩, rfl, ⟨fun _ => none, trivial⟩, nofun, rfl,
    trivial, nofun, nofun⟩, nofun, ⟨fun _ _ => rfl, fun _ _ => rfl, fun _ => trivial,
    fun _ => .nil, nofun, nofun, nofun⟩, fun c t => ?_⟩, nofun⟩
  simp [rangesOf]

theorem block_replace {G₁ G₂ : List Region} {r : Region} {ranges : List Range} :
    (G₁ ++ { r with ranges := ranges } :: G₂).map Region.block =
      (G₁ ++ r :: G₂).map Region.block := by
  simp [Region.block]

theorem run_preserved :
    ((vmemSystem σ).restrict ArenaCall.FewQuanta).Preserves ArenaRun.Ok := by
  rintro s call ⟨hsource, G, fl, hG, hperm⟩ ⟨hguard, hfew⟩
  cases call with
  | add span bt addr size =>
    obtain ⟨⟨hspan, hbt⟩, ⟨hpos, hdvd, htop⟩, hapart⟩ := hguard
    obtain ⟨w, G₁, G₂, fl', heq, hkept, rfl, hw⟩ := hG.vmemAdd_eq hpos hdvd htop hfew
      (fun r hr => hapart _ (hperm.subset (List.mem_map_of_mem hr))) hspan hbt
    refine ⟨⟨w, (addr, size) :: s.added⟩, bind_eq_ok.mpr ⟨_, heq, rfl⟩, hkept.source.trans hsource,
      _, fl', hw, ?_⟩
    rw [List.map_append, List.map_cons]
    refine List.perm_middle.trans (List.Perm.cons _ ?_)
    rwa [← List.map_append]
  | alloc tmp rsize vmflag =>
    obtain ⟨htmp, hpos, hround⟩ := hguard
    obtain ⟨w, a, heq, hkept, hcases⟩ := hG.vmemAlloc_eq hsource hpos hround htmp vmflag
    refine ⟨⟨w, s.added⟩, bind_eq_ok.mpr ⟨_, heq, rfl⟩, hkept.source.trans hsource, ?_⟩
    rcases hcases with ⟨rfl, -⟩ | ⟨G₁, r, G₂, l, x, m, fl', rfl, -, -, -, hw⟩
    · exact ⟨G, fl, hG, hperm⟩
    · exact ⟨_, fl', hw, block_replace ▸ hperm⟩
  | free addr =>
    obtain ⟨t, g, hg, hstate, rfl⟩ := hguard
    obtain ⟨x, hx, rfl⟩ := List.mem_map.mp (hG.skeleton.only t g hg)
    obtain ⟨g', hg', haddr, -, hxstate⟩ := hG.skeleton.get hx
    rw [hg] at hg'
    cases hg'
    obtain ⟨G₁, G₂, r, l, m, rfl, hr⟩ := exists_place hx
    obtain ⟨w, ranges, fl', heq, hkept, -, hw⟩ := hG.vmemFree_eq hsource hr
      (hxstate.symm.trans hstate)
    exact ⟨⟨w, s.added⟩, bind_eq_ok.mpr ⟨_, haddr ▸ heq, rfl⟩,
      hkept.source.trans hsource, _, fl', hw, block_replace ▸ hperm⟩

namespace Represents
variable {v : Vmem σ} {G : List Region} {fl : ℕ → List ℕ}

/-- The ranges of a region are those that lie in its span. -/
theorem ranges_eq_filter (h : Represents v G fl) {r : Region} (hr : r ∈ G) :
    r.ranges = (rangesOf G).filter fun x => r.addr ≤ x.addr ∧ x.addr < r.addr + r.size := by
  obtain ⟨G₁, G₂, rfl⟩ := List.append_of_mem hr
  have hin : r.ranges.filter (fun x => r.addr ≤ x.addr ∧ x.addr < r.addr + r.size) = r.ranges :=
    List.filter_eq_self.mpr fun x hx => by
      have := (h.skeleton.layout.region r (by simp)).bounds hx
      exact decide_eq_true ⟨by omega, by omega⟩
  have hbefore : (rangesOf G₁).filter (fun x => r.addr ≤ x.addr ∧ x.addr < r.addr + r.size) = [] :=
    List.filter_eq_nil_iff.mpr fun x hx => by
      have := h.skeleton.layout.before hx
      have := (h.skeleton.layout.bounds ((mem_rangesOf_mid rfl).mpr (.inl hx))).1
      simp only [decide_eq_true_eq]
      omega
  have hbehind : (rangesOf G₂).filter (fun x => r.addr ≤ x.addr ∧ x.addr < r.addr + r.size) = [] :=
    List.filter_eq_nil_iff.mpr fun x hx => by
      have := h.skeleton.layout.behind hx
      simp only [decide_eq_true_eq]
      omega
  rw [rangesOf_mid, List.filter_append, List.filter_append, hin, hbefore, hbehind]
  simp

/-- A tag is once in the list of its class, and nowhere else. -/
theorem count_eq (h : Represents v G fl) {x : Range} (hx : x ∈ rangesOf G) (c : ℕ) :
    (fl c).count x.tag =
      if x.state = .free ∧ c < v.cacheBits ∧ classOf v.quantum x.size = c then 1 else 0 := by
  split_ifs with hc
  · exact List.count_eq_one_of_mem (h.chains.nodup c) ((h.mem_iff hx hc.1 (by simp) c).mpr hc.2)
  · refine List.count_eq_zero_of_not_mem fun hm => hc ?_
    obtain ⟨g, hg, -, -, hstate⟩ := h.skeleton.get hx
    have hfree : x.state = .free := hstate.symm.trans (h.free_of_mem hm hg).2.1
    exact ⟨hfree, (h.mem_iff hx hfree (by simp) c).mp hm⟩

end Represents

/-- After every run that adds no range of `2^30` quanta or more the arena is well formed, and no
call fails. -/
theorem arena_well_formed {s t : ArenaRun σ} {calls : List ArenaCall} (hs : (vmemSystem σ).Init s)
    (h : ((vmemSystem σ).restrict ArenaCall.FewQuanta).Steps s calls t) :
    (∃ G fl, Represents t.arena G fl ∧ (G.map Region.block).Perm t.added ∧
      (rangesOf G).Pairwise (fun x y => x.addr < y.addr) ∧
      (∀ r ∈ G, r.ranges =
        (rangesOf G).filter fun x => r.addr ≤ x.addr ∧ x.addr < r.addr + r.size) ∧
      ∀ x ∈ rangesOf G, ∀ c, (fl c).count x.tag = if x.state = .free ∧ c < t.arena.cacheBits ∧
        classOf t.arena.quantum x.size = c then 1 else 0) ∧
    ∀ call, ArenaCall.Guard t call → ArenaCall.FewQuanta t call → ∃ u, call.step t = .ok u := by
  have hinit : ArenaRun.Ok s := by
    obtain ⟨hadded, quantum, qcacheMax, afunc, ffunc, hcreate⟩ := hs
    obtain ⟨hsource, hv⟩ := vmemCreate_represents hcreate
    exact ⟨hsource, [], _, hv, hadded ▸ .nil⟩
  have ht := h.preserves run_preserved hinit
  obtain ⟨-, G, fl, hG, hperm⟩ := id ht
  refine ⟨⟨G, fl, hG, hperm, hG.skeleton.layout.addr_lt, fun r hr => hG.ranges_eq_filter hr,
    fun x hx c => hG.count_eq hx c⟩, fun call hguard hfew => ?_⟩
  obtain ⟨u, hu, -⟩ := run_preserved t call ht ⟨hguard, hfew⟩
  exact ⟨u, hu⟩

section Examples

/-- The hooks are not called without a source. -/
def hook {α : Type} : Outcome α := .error .badAccess

def smallArena (quantum qcacheMax : ℕ) : ArenaRun Unit where
  arena := ⟨quantum, qcacheMax, Nat.log2 (qcacheMax / quantum) + 1, fun _ _ _ => hook,
    fun _ _ _ => hook, none, none, none, fun _ => none, fun _ => none, fun _ => none⟩
  added := []

def after (s : ArenaRun Unit) (call : ArenaCall) : ArenaRun Unit :=
  match call.step s with
  | .ok t => t
  | .error _ => s

theorem step_after {s : ArenaRun Unit} {call : ArenaCall} (h : faultOf (call.step s) = none) :
    call.step s = .ok (after s call) := by
  cases hc : call.step s with
  | ok t => simp [after, hc]
  | error e => simp [hc, faultOf] at h

def addedRun : ArenaRun Unit := after (smallArena 4096 65536) (.add 1 1 0x80000000 8192)

def allocatedRun : ArenaRun Unit := after addedRun (.alloc 2 100 0)

def releasedRun : ArenaRun Unit := after allocatedRun (.free 0x80001000)

theorem arena_well_formed_released : ∃ G fl, Represents releasedRun.arena G fl := by
  have hadd : ArenaCall.step (smallArena 4096 65536) (.add 1 1 0x80000000 8192) = .ok addedRun :=
    step_after (by decide)
  have halloc : ArenaCall.step addedRun (.alloc 2 100 0) = .ok allocatedRun :=
    step_after (by decide)
  have hfree : ArenaCall.step allocatedRun (.free 0x80001000) = .ok releasedRun :=
    step_after (by decide)
  have hlive : ∀ g, allocatedRun.arena.tag 2 = some g → Live allocatedRun.arena g.addr :=
    fun g hg => ⟨2, g, hg, by cases hg; rfl, rfl⟩
  have h : ((vmemSystem Unit).restrict ArenaCall.FewQuanta).Steps (smallArena 4096 65536)
      [.add 1 1 0x80000000 8192, .alloc 2 100 0, .free 0x80001000] releasedRun :=
    .cons ⟨⟨⟨rfl, rfl⟩, ⟨by decide, ⟨2, rfl⟩, by decide⟩, nofun⟩,
        (by decide : 8192 / 4096 < 2 ^ 30)⟩ hadd
      (.cons ⟨⟨rfl, by decide, fun _ => (by decide : 100 + (4096 - 100 % 4096) < 2 ^ 32)⟩, trivial⟩
        halloc (.one ⟨hlive _ rfl, trivial⟩ hfree))
  obtain ⟨⟨G, fl, hG, -⟩, -⟩ := arena_well_formed ⟨rfl, 4096, 65536, _, _, rfl⟩ h
  exact ⟨G, fl, hG⟩

def longRun : ArenaRun Unit := after (smallArena 1 1) (.add 1 1 4096 (2 ^ 30))

/-- A range of `2^30` quanta gets a table of no bytes, and the next allocation reads outside it. -/
theorem hash_table_too_small :
    (vmemSystem Unit).Init (smallArena 1 1) ∧
      (vmemSystem Unit).Steps (smallArena 1 1) [.add 1 1 4096 (2 ^ 30)] longRun ∧
      (longRun.arena.span 1).map (fun sp => (sp.slots, sp.hashBytes)) = some (2 ^ 30, 0) ∧
      ArenaCall.Guard longRun (.alloc 2 1 0) ∧
      (ArenaCall.alloc 2 1 0).step longRun = .error .badAccess := by
  have hadd : ArenaCall.step (smallArena 1 1) (.add 1 1 4096 (2 ^ 30)) = .ok longRun :=
    step_after (by decide)
  exact ⟨⟨rfl, 1, 1, _, _, rfl⟩,
    .one ⟨⟨rfl, rfl⟩, ⟨by decide, one_dvd _, by decide⟩, nofun⟩ hadd,
    by decide, ⟨rfl, by decide, fun h => absurd rfl h⟩, faultOf_eq_some.mp (by decide)⟩

end Examples
end Racoon.Arenas
