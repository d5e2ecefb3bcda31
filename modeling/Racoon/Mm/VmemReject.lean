import Racoon.Mm.VmemSizes

/-!
# Releasing what was not allocated

`vmem_free` looks in the table of the span for the slot of the address and does
not compare the address with that of the tag it finds there. The addresses of
the first quantum of a live range share its slot.
-/

namespace Racoon.Arenas
open Lib
variable {σ : Type} {v w : Vmem σ} {G G₂ : List Region} {r : Region} {x : Range} {fl : ℕ → List ℕ}
  {g : Bt} {sp : Span} {a i t : ℕ}

/-- The regions of an arena share no address. -/
theorem Layout.region_eq {quantum : ℕ} (h : Layout quantum G) {r' : Region} (hr : r ∈ G)
    (hr' : r' ∈ G) (ha : r.addr ≤ a ∧ a < r.addr + r.size)
    (ha' : r'.addr ≤ a ∧ a < r'.addr + r'.size) : r = r' := by
  by_contra hne
  have : Std.Symm fun r r' : Region => Block.Apart (r.addr, r.size) (r'.addr, r'.size) :=
    ⟨fun _ _ => Or.symm⟩
  have hall : G.Pairwise fun r r' => Block.Apart (r.addr, r.size) (r'.addr, r'.size) :=
    h.order.imp fun hle => .inl hle
  rcases hall.forall hr hr' hne with hle | hle
  · dsimp only at hle
    omega
  · dsimp only at hle
    omega

/-- The walk over the spans ends without one of the address. -/
theorem Skeleton.getspanFrom_none (h : Skeleton v G)
    (hout : ∀ r ∈ G, ¬ (r.addr ≤ a ∧ a < r.addr + r.size)) {P : List Region} (hG : P ++ G₂ = G)
    {left : ℕ} (hleft : G₂.length ≤ left) :
    getspanFrom v a left (G₂.map Region.span).head? = .ok none := by
  obtain ⟨prev, hlinks⟩ := h.spanLinks
  induction G₂ generalizing P left with
  | nil => cases left <;> rfl
  | cons s G₂ ih =>
    obtain ⟨left, rfl⟩ := Nat.exists_eq_add_one_of_ne_zero (show left ≠ 0 by
      rintro rfl
      simp at hleft)
    have hsG : s ∈ G := by simp [← hG]
    obtain ⟨sp, hsp, hs⟩ := h.spanHeld s hsG
    have hend : add32 s.addr s.size = s.addr + s.size := add32_of_lt (h.layout.region s hsG).top
    rw [← hG, List.map_append, List.map_cons] at hlinks
    have hnext := hlinks.at_mid.2
    rw [via_of hsp, Option.or_none] at hnext
    rw [List.map_cons, List.head?_cons, getspanFrom, load_some hsp, ok_bind, hs.addr, hs.size,
      hend, if_neg (hout s hsG), hnext]
    exact @ih (P ++ [s]) (by simpa using hG) left (by simpa using hleft)

theorem Skeleton.getspan_none (h : Skeleton v G)
    (hout : ∀ r ∈ G, ¬ (r.addr ≤ a ∧ a < r.addr + r.size)) : vmemGetspan v a = .ok none := by
  rw [vmemGetspan, h.spans]
  exact h.getspanFrom_none hout (show [] ++ G = G from rfl) h.regions_length_le

/-- Where the table has an entry, the address itself is answered. -/
theorem vmemFree_answer {span b : ℕ} (hspan : vmemGetspan v a = .ok (some span))
    (hsp : v.span span = some sp)
    (hread : readHash sp (sub32 a sp.addr / v.quantum) = .ok (some t))
    (h : vmemFree v a = .ok (w, b)) : b = a := by
  rw [vmemFree, hspan, ok_bind] at h
  dsimp only at h
  rw [load_some hsp, ok_bind, hread, ok_bind] at h
  obtain ⟨g, -, h⟩ := bind_eq_ok.mp h
  obtain ⟨v₁, -, h⟩ := bind_eq_ok.mp h
  obtain ⟨v₂, -, h⟩ := bind_eq_ok.mp h
  obtain ⟨-, -, h⟩ := bind_eq_ok.mp h
  obtain ⟨v₃, -, h⟩ := bind_eq_ok.mp h
  obtain ⟨⟨v₄, c⟩, -, h⟩ := bind_eq_ok.mp h
  obtain ⟨v₅, -, h⟩ := bind_eq_ok.mp h
  obtain ⟨v₆, -, h⟩ := bind_eq_ok.mp h
  cases h
  rfl

namespace Represents

/-- The table of the span, read at any address in it. -/
theorem hash_eq_none_iff (h : Represents v G fl) (hr : r ∈ G) (hsp : v.span r.span = some sp)
    (ha : r.addr ≤ a ∧ a < r.addr + r.size) :
    readHash sp (sub32 a sp.addr / v.quantum) = .ok (sp.hash ((a - r.addr) / v.quantum)) ∧
      (sp.hash ((a - r.addr) / v.quantum) = none ↔
        ∀ x ∈ rangesOf G, x.state = .allocated → ¬ (x.addr ≤ a ∧ a < x.addr + v.quantum)) := by
  have hok := h.skeleton.layout.region r hr
  obtain ⟨sp', hsp', hshape⟩ := h.skeleton.spanHeld r hr
  cases hsp'.symm.trans hsp
  have htop := hok.top
  have hlt : (a - r.addr) / v.quantum < r.size / v.quantum :=
    Nat.div_lt_div_of_lt_of_dvd hok.dvd (by omega)
  have hhash := h.hash r hr sp hsp _ (hshape.slots.symm ▸ hlt)
  have hquot := Nat.div_add_mod (a - r.addr) v.quantum
  have hrem := Nat.mod_lt (a - r.addr) h.skeleton.quantum
  rw [Nat.mul_comm] at hquot
  constructor
  · rw [hshape.addr, sub32_of_le (by omega) ha.1]
    exact h.skeleton.readHash_eq hr hsp hlt
  rw [Option.eq_none_iff_forall_not_mem]
  constructor
  · rintro hnone x hx hstate ⟨hle, hnear⟩
    -- a range of which the first quantum holds `a` is in the region of `a`
    obtain ⟨r', hr', hxr⟩ := mem_rangesOf.mp hx
    obtain ⟨hlo, hpos, hhi, -⟩ := (h.skeleton.layout.region r' hr').bounds hxr
    have hq := Nat.le_of_dvd hpos (h.skeleton.layout.quantum_dvd hx)
    obtain rfl := h.skeleton.layout.region_eq hr hr' ha ⟨by omega, by omega⟩
    have hmul := hok.slot_mul hxr
    have hslot : (a - r.addr) / v.quantum = slotOf v.quantum r x := by
      refine Nat.div_eq_of_lt_le (by omega) ?_
      rw [Nat.add_mul, Nat.one_mul]
      omega
    have hentry := h.entry_eq hr hsp hxr
    rw [entryOf, if_pos hstate] at hentry
    exact hnone x.tag (hslot ▸ hentry)
  · rintro hnone t ht
    obtain ⟨x, hx, -, hstate, haddr⟩ := (hhash t).mp ht
    exact hnone x (mem_rangesOf.mpr ⟨r, hr, hx⟩) hstate ⟨by omega, by omega⟩

end Represents

/-- An address at which no live range starts is refused, and nothing is changed, exactly when it is
not in the first quantum of a live range. -/
theorem vmemFree_refused_iff (h : Represents v G fl) (hdead : ¬ Live v a) :
    vmemFree v a = .ok (v, 0) ↔ ∀ t g, v.tag t = some g → g.allocated = .allocated →
      ¬ (g.addr < a ∧ a < g.addr + v.quantum) := by
  -- in terms of the ranges
  have hranges : (∀ t g, v.tag t = some g → g.allocated = .allocated →
      ¬ (g.addr < a ∧ a < g.addr + v.quantum)) ↔
      ∀ x ∈ rangesOf G, x.state = .allocated → ¬ (x.addr ≤ a ∧ a < x.addr + v.quantum) := by
    constructor
    · intro hnone x hx hstate hin
      obtain ⟨g, hg, haddr, -, hgstate⟩ := h.skeleton.get hx
      have hlive := hgstate.trans hstate
      have hne : g.addr ≠ a := fun e => hdead ⟨x.tag, g, hg, hlive, e⟩
      exact hnone x.tag g hg hlive ⟨by omega, by omega⟩
    · intro hnone t g hg hlive hin
      obtain ⟨x, hx, rfl⟩ := List.mem_map.mp (h.skeleton.only t g hg)
      obtain ⟨g', hg', haddr, -, hstate⟩ := h.skeleton.get hx
      cases hg'.symm.trans hg
      exact hnone x hx (hstate.symm.trans hlive) ⟨by omega, by omega⟩
  rw [hranges]
  by_cases hin : ∃ r ∈ G, r.addr ≤ a ∧ a < r.addr + r.size
  · obtain ⟨r, hr, ha⟩ := hin
    obtain ⟨sp, hsp, -⟩ := h.skeleton.spanHeld r hr
    obtain ⟨hread, hiff⟩ := h.hash_eq_none_iff hr hsp ha
    rw [← hiff]
    constructor
    · intro hrefused
      cases hentry : sp.hash ((a - r.addr) / v.quantum) with
      | none => rfl
      | some t =>
        -- a range is released, and `a` is behind its start
        rw [hentry] at hread
        have hzero := vmemFree_answer (h.skeleton.getspan_eq hr ha) hsp hread hrefused
        refine absurd (hiff.mpr fun x hx hstate hnear => ?_) (by simp [hentry])
        obtain ⟨g, hg, haddr, -, hgstate⟩ := h.skeleton.get hx
        exact hdead ⟨x.tag, g, hg, hgstate.trans hstate, by omega⟩
    · intro hnone
      rw [vmemFree, h.skeleton.getspan_eq hr ha, ok_bind]
      dsimp only
      rw [load_some hsp, ok_bind, hread, hnone, ok_bind]
  · push Not at hin
    have hout : ∀ r ∈ G, ¬ (r.addr ≤ a ∧ a < r.addr + r.size) := fun r hr hc =>
      (hin r hr hc.1).not_gt hc.2
    refine iff_of_true ?_ fun x hx _ hnear => ?_
    · rw [vmemFree, h.skeleton.getspan_none hout, ok_bind]
    · obtain ⟨r, hr, hxr⟩ := mem_rangesOf.mp hx
      obtain ⟨hlo, hpos, hhi, -⟩ := (h.skeleton.layout.region r hr).bounds hxr
      have hq := Nat.le_of_dvd hpos (h.skeleton.layout.quantum_dvd hx)
      exact hout r hr ⟨by omega, by omega⟩

/-- An arena of two quanta, of which the second is allocated. -/
theorem allocatedRun_represents : ∃ G fl, Represents allocatedRun.arena G fl := by
  obtain ⟨hsource, G, fl, hG, -⟩ := addedRun_represents
  have halloc : ArenaCall.step addedRun (.alloc 2 100 0) = .ok allocatedRun :=
    step_after (by decide)
  obtain ⟨⟨w, a⟩, heq, hw⟩ := bind_eq_ok.mp halloc
  obtain ⟨w', a', heq', -, hcases⟩ := hG.vmemAlloc_eq hsource (by decide : 0 < 100)
    (fun _ => (by decide : 100 + (4096 - 100 % 4096) < 2 ^ 32))
    (show addedRun.arena.tag 2 = none from rfl) 0
  cases heq.symm.trans heq'
  have harena : w = allocatedRun.arena := congrArg ArenaRun.arena (Except.ok.inj hw)
  rcases hcases with ⟨rfl, -⟩ | ⟨G₁, r, G₂, l, x, m, fl', -, -, -, -, hw'⟩
  · exact ⟨G, fl, harena ▸ hG⟩
  · exact ⟨_, fl', harena ▸ hw'⟩

theorem allocatedRun_live : Live allocatedRun.arena a ↔ a = 0x80001000 := by
  constructor
  · rintro ⟨t, g, hg, hlive, rfl⟩
    match t with
    | 0 => cases hg
    | 1 =>
      cases hg
      cases hlive
    | 2 =>
      cases hg
      rfl
    | t + 3 => cases (show allocatedRun.arena.tag (t + 3) = none from rfl).symm.trans hg
  · rintro rfl
    exact ⟨2, _, rfl, rfl, rfl⟩

theorem vmemFree_refused_iff_small :
    vmemFree allocatedRun.arena 0x80000000 = .ok (allocatedRun.arena, 0) := by
  obtain ⟨G, fl, hG⟩ := allocatedRun_represents
  refine (vmemFree_refused_iff hG (mt allocatedRun_live.mp (by decide))).mpr
    fun t g hg hlive hnear => ?_
  have := allocatedRun_live.mp ⟨t, g, hg, hlive, rfl⟩
  omega

/-- The live range is released by an address that is 4 bytes behind its start. -/
theorem inside_released :
    (∃ G fl, Represents allocatedRun.arena G fl) ∧ ¬ Live allocatedRun.arena 0x80001004 ∧
      (vmemFree allocatedRun.arena 0x80001004).toOption.map
        (fun p => (p.2, (p.1.tag 1).map fun g => (g.size, g.allocated))) =
          some (0x80001004, some (8192, .free)) ∧
      vmemFree allocatedRun.arena 0x80001004 ≠ .ok (allocatedRun.arena, 0) := by
  have hfree : (vmemFree allocatedRun.arena 0x80001004).toOption.map
      (fun p => (p.2, (p.1.tag 1).map fun g => (g.size, g.allocated))) =
        some (0x80001004, some (8192, .free)) := by decide
  refine ⟨allocatedRun_represents, mt allocatedRun_live.mp (by decide), hfree, fun he => ?_⟩
  rw [he] at hfree
  cases hfree

end Racoon.Arenas
