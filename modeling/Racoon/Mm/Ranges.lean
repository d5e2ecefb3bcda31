import Racoon.Mm.Vmem
import Racoon.Lib.Tiling
import Racoon.Lib.Blocks

/-!
# What an arena stands for

Apart from its lists and tables an arena is a list of regions, one for each
span, each tiled by ranges. Allocating cuts a free range in two and takes the
right part; releasing melts the range with its free neighbours. `Layout` is
kept by both, whatever represents the ranges.
-/

namespace Racoon.Arenas
open Lib

/-- A boundary tag, without its pointers. -/
structure Range where
  tag : ℕ
  addr : ℕ
  size : ℕ
  state : Allocation

/-- A span and the ranges in it. -/
structure Region where
  span : ℕ
  addr : ℕ
  size : ℕ
  ranges : List Range

/-- Two neighbours are not both free. -/
def Separate (x y : Range) : Prop := ¬ (x.state = .free ∧ y.state = .free)

structure Region.Ok (quantum : ℕ) (r : Region) : Prop where
  dvd : quantum ∣ r.size
  pos : 0 < r.size
  top : r.addr + r.size < 2 ^ 32
  tiles : Tiles Range.addr Range.size r.addr r.ranges (r.addr + r.size)
  whole : ∀ x ∈ r.ranges, quantum ∣ x.size

structure Layout (quantum : ℕ) (G : List Region) : Prop where
  region : ∀ r ∈ G, r.Ok quantum
  order : G.Pairwise fun r r' => r.addr + r.size ≤ r'.addr

def Separated (G : List Region) : Prop := ∀ r ∈ G, r.ranges.IsChain Separate

/-- All ranges, in the order of the tags. -/
def rangesOf (G : List Region) : List Range := G.flatMap Region.ranges

def tagsOf (G : List Region) : List ℕ := (rangesOf G).map Range.tag

section
variable {quantum : ℕ} {G G₁ G₂ : List Region} {r : Region} {x y p n : Range} {l m : List Range}

theorem rangesOf_append : rangesOf (G₁ ++ G₂) = rangesOf G₁ ++ rangesOf G₂ := by
  simp [rangesOf]

theorem tagsOf_append : tagsOf (G₁ ++ G₂) = tagsOf G₁ ++ tagsOf G₂ := by
  simp [tagsOf, rangesOf_append]

theorem rangesOf_mid : rangesOf (G₁ ++ r :: G₂) = rangesOf G₁ ++ r.ranges ++ rangesOf G₂ := by
  simp [rangesOf]

theorem tagsOf_mid {ranges : List Range} (h : r.ranges = ranges) :
    tagsOf (G₁ ++ r :: G₂) = tagsOf G₁ ++ ranges.map Range.tag ++ tagsOf G₂ := by
  simp [tagsOf, rangesOf_mid, h]

theorem mem_rangesOf_mid {ranges : List Range} (h : r.ranges = ranges) :
    x ∈ rangesOf (G₁ ++ r :: G₂) ↔ x ∈ rangesOf G₁ ∨ x ∈ ranges ∨ x ∈ rangesOf G₂ := by
  simp [rangesOf_mid, h]

theorem mem_rangesOf : x ∈ rangesOf G ↔ ∃ r ∈ G, x ∈ r.ranges := by
  simp [rangesOf]

/-- The region and the place in it of a range. -/
theorem exists_place (hx : x ∈ rangesOf G) : ∃ G₁ G₂ r l m, G = G₁ ++ r :: G₂ ∧
    r.ranges = l ++ x :: m := by
  obtain ⟨r, hr, hxr⟩ := mem_rangesOf.mp hx
  obtain ⟨l, m, h⟩ := List.append_of_mem hxr
  obtain ⟨G₁, G₂, rfl⟩ := List.append_of_mem hr
  exact ⟨G₁, G₂, r, l, m, rfl, h⟩

namespace Region.Ok

theorem bounds (h : r.Ok quantum) (hx : x ∈ r.ranges) :
    r.addr ≤ x.addr ∧ 0 < x.size ∧ x.addr + x.size ≤ r.addr + r.size ∧
    x.addr + x.size < 2 ^ 32 := by
  obtain ⟨hlo, hpos, hhi⟩ := h.tiles.mem hx
  exact ⟨hlo, hpos, hhi, hhi.trans_lt h.top⟩

/-- A range starts a whole number of quanta into its region. -/
theorem aligned (h : r.Ok quantum) (hx : x ∈ r.ranges) : quantum ∣ x.addr - r.addr := by
  obtain ⟨l, m, hl⟩ := List.append_of_mem hx
  have ht := (tiles_mid.mp (hl ▸ h.tiles)).1
  have hw : ∀ y ∈ l, quantum ∣ y.size := fun y hy => h.whole y (by simp [hl, hy])
  clear hl hx h
  generalize r.addr = lo at ht ⊢
  induction l generalizing lo with
  | nil =>
    cases ht
    simp
  | cons y l ih =>
    obtain ⟨rfl, hpos, ht⟩ := ht
    have hle := ht.le
    have hrest := ih (fun z hz => hw z (by simp [hz])) _ ht
    have hsplit : x.addr - y.addr = y.size + (x.addr - (y.addr + y.size)) := by omega
    rw [hsplit]
    exact Nat.dvd_add (hw y (by simp)) hrest

/-- The middle of a tiling is replaced by pieces that cover the same. -/
theorem replace (h : r.Ok quantum) (mid : List Range) {mid' : List Range}
    (hr : r.ranges = l ++ mid ++ m)
    (hmid : ∀ lo hi, Tiles Range.addr Range.size lo mid hi →
      Tiles Range.addr Range.size lo mid' hi)
    (hw : (∀ x ∈ mid, quantum ∣ x.size) → ∀ x ∈ mid', quantum ∣ x.size) :
    { r with ranges := l ++ mid' ++ m }.Ok quantum where
  dvd := h.dvd
  pos := h.pos
  top := h.top
  tiles := by
    obtain ⟨b, hlm, hm⟩ := tiles_append.mp (hr ▸ h.tiles)
    obtain ⟨a, hl, hmid₀⟩ := tiles_append.mp hlm
    exact tiles_append.mpr ⟨b, tiles_append.mpr ⟨a, hl, hmid a b hmid₀⟩, hm⟩
  whole y hy := by
    simp only [List.mem_append] at hy
    rcases hy with (hy | hy) | hy
    · exact h.whole y (by simp [hr, hy])
    · exact hw (fun x hx => h.whole x (by simp [hr, hx])) y hy
    · exact h.whole y (by simp [hr, hy])

end Region.Ok

namespace Layout

theorem quantum_dvd (h : Layout quantum G) (hx : x ∈ rangesOf G) : quantum ∣ x.size := by
  obtain ⟨r, hr, hx⟩ := mem_rangesOf.mp hx
  exact (h.region r hr).whole x hx

theorem bounds (h : Layout quantum G) (hx : x ∈ rangesOf G) :
    0 < x.size ∧ x.addr + x.size < 2 ^ 32 := by
  obtain ⟨r, hr, hx⟩ := mem_rangesOf.mp hx
  obtain ⟨-, hpos, -, htop⟩ := (h.region r hr).bounds hx
  exact ⟨hpos, htop⟩

/-- One range of the arena lies behind the other. -/
theorem sorted (h : Layout quantum G) :
    (rangesOf G).Pairwise fun x y => x.addr + x.size ≤ y.addr := by
  refine List.pairwise_flatMap.mpr ⟨fun r hr => (h.region r hr).tiles.sorted, ?_⟩
  refine h.order.imp_of_mem fun hr hr' hle x hx y hy => ?_
  have := (h.region _ hr).bounds hx
  have := (h.region _ hr').bounds hy
  omega

theorem addr_lt (h : Layout quantum G) : (rangesOf G).Pairwise fun x y => x.addr < y.addr :=
  h.sorted.imp_of_mem fun hx _ hle => by
    have := (h.bounds hx).1
    omega

/-- Two ranges share no byte. -/
theorem apart (h : Layout quantum G) (hx : x ∈ rangesOf G) (hy : y ∈ rangesOf G) (hne : x ≠ y) :
    Block.Apart (x.addr, x.size) (y.addr, y.size) := by
  have : Std.Symm fun x y : Range => Block.Apart (x.addr, x.size) (y.addr, y.size) :=
    ⟨fun _ _ => Or.symm⟩
  have hall : (rangesOf G).Pairwise fun x y => Block.Apart (x.addr, x.size) (y.addr, y.size) :=
    h.sorted.imp fun hle => .inl hle
  exact hall.forall hx hy hne

/-- A range is known by its start. -/
theorem addr_inj (h : Layout quantum G) (hx : x ∈ rangesOf G) (hy : y ∈ rangesOf G)
    (he : x.addr = y.addr) : x = y :=
  List.inj_on_of_nodup_map (List.pairwise_map.mpr (h.addr_lt.imp fun hlt => hlt.ne)) hx hy he

/-- The ranges of the regions around one of them. -/
theorem before (h : Layout quantum (G₁ ++ r :: G₂)) (hx : x ∈ rangesOf G₁) :
    x.addr + x.size ≤ r.addr := by
  obtain ⟨s, hs, hx⟩ := mem_rangesOf.mp hx
  have hle := (List.pairwise_append.mp h.order).2.2 s hs r (by simp)
  have := (h.region s (by simp [hs])).bounds hx
  omega

theorem behind (h : Layout quantum (G₁ ++ r :: G₂)) (hx : x ∈ rangesOf G₂) :
    r.addr + r.size ≤ x.addr := by
  obtain ⟨s, hs, hx⟩ := mem_rangesOf.mp hx
  have hle := (List.pairwise_cons.mp (List.pairwise_append.mp h.order).2.1).1 s hs
  have := (h.region s (by simp [hs])).bounds hx
  omega

/-- Where a block belongs that shares no byte with the regions. -/
theorem exists_gap {addr size : ℕ} (h : Layout quantum G)
    (hapart : ∀ r ∈ G, Block.Apart (addr, size) (r.addr, r.size)) :
    ∃ G₁ G₂, G = G₁ ++ G₂ ∧ (∀ r ∈ G₁, r.addr + r.size ≤ addr) ∧
      ∀ r ∈ G₂, addr + size ≤ r.addr := by
  induction G with
  | nil => exact ⟨[], [], rfl, by simp, by simp⟩
  | cons r G ih =>
    obtain ⟨hle, horder⟩ := List.pairwise_cons.mp h.order
    rcases hapart r (by simp) with hr | hr
    · refine ⟨[], r :: G, rfl, by simp, fun s hs => ?_⟩
      rcases List.mem_cons.mp hs with rfl | hs
      · exact hr
      · have := hle s hs
        dsimp only at hr
        omega
    · obtain ⟨G₁, G₂, rfl, h₁, h₂⟩ := ih ⟨fun s hs => h.region s (by simp [hs]), horder⟩
        fun s hs => hapart s (by simp [hs])
      exact ⟨r :: G₁, G₂, rfl, List.forall_mem_cons.mpr ⟨hr, h₁⟩, h₂⟩

theorem insert (h : Layout quantum (G₁ ++ G₂)) (hr : r.Ok quantum)
    (h₁ : ∀ s ∈ G₁, s.addr + s.size ≤ r.addr) (h₂ : ∀ s ∈ G₂, r.addr + r.size ≤ s.addr) :
    Layout quantum (G₁ ++ r :: G₂) where
  region s hs := by
    simp only [List.mem_append, List.mem_cons] at hs
    rcases hs with hs | rfl | hs
    · exact h.region s (by simp [hs])
    · exact hr
    · exact h.region s (by simp [hs])
  order := by
    obtain ⟨hG₁, hG₂, hends⟩ := List.pairwise_append.mp h.order
    refine List.pairwise_append.mpr ⟨hG₁, List.pairwise_cons.mpr ⟨h₂, hG₂⟩, fun s hs s' hs' => ?_⟩
    rcases List.mem_cons.mp hs' with rfl | hs'
    · exact h₁ s hs
    · exact hends s hs s' hs'

theorem replace (h : Layout quantum (G₁ ++ r :: G₂)) {ranges : List Range}
    (hr : { r with ranges := ranges }.Ok quantum) :
    Layout quantum (G₁ ++ { r with ranges := ranges } :: G₂) where
  region s hs := by
    simp only [List.mem_append, List.mem_cons] at hs
    rcases hs with hs | rfl | hs
    · exact h.region s (by simp [hs])
    · exact hr
    · exact h.region s (by simp [hs])
  order := by
    have ho := h.order
    rw [List.pairwise_append, List.pairwise_cons] at ho ⊢
    refine ⟨ho.1, ho.2.1, fun a ha b hb => ?_⟩
    rcases List.mem_cons.mp hb with rfl | hb
    · exact ho.2.2 a ha r (by simp)
    · exact ho.2.2 a ha b (by simp [hb])

end Layout

theorem separate_insert (hl : l.IsChain Separate) (hm : m.IsChain Separate)
    (hleft : ∀ z ∈ l.getLast?, Separate z y) (hright : ∀ z ∈ m.head?, Separate y z) :
    (l ++ [y] ++ m).IsChain Separate := by
  refine List.isChain_append.mpr ⟨List.isChain_append.mpr ⟨hl, .singleton y, ?_⟩, hm, ?_⟩
  · rintro z hz _ ⟨⟩
    exact hleft z hz
  · intro y' hy' z hz
    rw [List.getLast?_append_cons, List.getLast?_singleton, Option.mem_def,
      Option.some.injEq] at hy'
    exact hy' ▸ hright z hz

theorem Separated.replace (h : Separated (G₁ ++ r :: G₂)) {ranges : List Range}
    (hr : ranges.IsChain Separate) : Separated (G₁ ++ { r with ranges := ranges } :: G₂) := by
  intro s hs
  simp only [List.mem_append, List.mem_cons] at hs
  rcases hs with hs | rfl | hs
  · exact h s (by simp [hs])
  · exact hr
  · exact h s (by simp [hs])

end
end Racoon.Arenas
