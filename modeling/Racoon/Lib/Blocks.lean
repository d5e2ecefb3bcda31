import Mathlib.Tactic
import Mathlib.Order.Interval.Finset.Nat

/-!
# Memory blocks

What an allocator promises about the blocks that are live: they lie inside the
address space, none starts at the null address, and no two of them share a byte.
-/

namespace Racoon.Lib

/-- The start of a block and its length. -/
abbrev Block := ℕ × ℕ

def Block.Apart (b c : Block) : Prop := b.1 + b.2 ≤ c.1 ∨ c.1 + c.2 ≤ b.1

def Block.Inside (top : ℕ) (b : Block) : Prop := 0 < b.1 ∧ b.1 + b.2 ≤ top

/-- A block does not begin within another one. -/
theorem Block.Apart.start_ne {b c : Block} {a : ℕ} (h : b.Apart c) (hc : 0 < c.2) (hb : b.1 ≤ a)
    (ha : a < b.1 + b.2) : c.1 ≠ a := by
  unfold Block.Apart at h
  omega

instance : Std.Symm Block.Apart := ⟨fun _ _ => Or.symm⟩

/-- Blocks that begin elsewhere stay when the block at `a` is given back. -/
theorem subperm_eraseP {bs cs : List Block} {a : ℕ} (h : bs.Subperm cs) (ha : ∀ b ∈ bs, b.1 ≠ a) :
    bs.Subperm (cs.eraseP (·.1 = a)) := by
  obtain ⟨ds, hp, hs⟩ := h
  have hkeep : ds.eraseP (·.1 = a) = ds :=
    List.eraseP_of_forall_not fun b hb => by simpa using ha b (hp.mem_iff.mp hb)
  exact ⟨ds, hp, hkeep ▸ hs.eraseP⟩

structure Allocated (top : ℕ) (blocks : List Block) : Prop where
  inside : ∀ b ∈ blocks, b.Inside top
  apart : blocks.Pairwise Block.Apart

/-- An allocation function is given the live blocks and a size. -/
def Grants (top : ℕ) (kmalloc : List Block → ℕ → Option ℕ) : Prop :=
  ∀ blocks size a, kmalloc blocks size = some a →
    Block.Inside top (a, size) ∧ ∀ b ∈ blocks, Block.Apart (a, size) b

namespace Allocated
variable {top : ℕ} {blocks : List Block}

theorem grant (h : Allocated top blocks) {kmalloc : List Block → ℕ → Option ℕ}
    (hk : Grants top kmalloc) {size a : ℕ} (ha : kmalloc blocks size = some a) :
    Allocated top ((a, size) :: blocks) where
  inside := List.forall_mem_cons.mpr ⟨(hk _ _ _ ha).1, h.inside⟩
  apart := List.pairwise_cons.mpr ⟨(hk _ _ _ ha).2, h.apart⟩

theorem sublist (h : Allocated top blocks) {blocks' : List Block} (hs : blocks'.Sublist blocks) :
    Allocated top blocks' where
  inside b hb := h.inside b (hs.subset hb)
  apart := h.apart.sublist hs

theorem apart_of_ne (h : Allocated top blocks) {b c : Block} (hb : b ∈ blocks) (hc : c ∈ blocks)
    (hne : b ≠ c) : b.Apart c :=
  h.apart.forall hb hc hne

theorem subperm (h : Allocated top blocks) {blocks' : List Block} (hs : blocks'.Subperm blocks) :
    Allocated top blocks' := by
  obtain ⟨bs, hp, hsub⟩ := hs
  have hbs := h.sublist hsub
  exact ⟨fun b hb => hbs.inside b (hp.mem_iff.mpr hb), hbs.apart.perm hp Or.symm⟩

theorem sum_le (h : Allocated top blocks) : (blocks.map Prod.snd).sum ≤ top := by
  suffices ∃ F ⊆ Finset.range top, F.card = (blocks.map Prod.snd).sum ∧
      ∀ x ∈ F, ∃ b ∈ blocks, b.1 ≤ x ∧ x < b.1 + b.2 by
    obtain ⟨F, hF, hcard, -⟩ := this
    simpa [hcard] using Finset.card_le_card hF
  induction blocks with
  | nil => exact ⟨∅, by simp⟩
  | cons b blocks ih =>
    obtain ⟨hb, hapart⟩ := List.pairwise_cons.mp h.apart
    obtain ⟨F, hF, hcard, hcover⟩ := ih (h.sublist (List.sublist_cons_self b blocks))
    have hin := (h.inside b (by simp)).2
    refine ⟨Finset.Ico b.1 (b.1 + b.2) ∪ F, ?_, ?_, ?_⟩
    · refine Finset.union_subset (fun x hx => ?_) hF
      rw [Finset.mem_Ico] at hx
      rw [Finset.mem_range]
      omega
    · rw [Finset.card_union_of_disjoint, hcard]
      · simp
      · refine Finset.disjoint_left.mpr fun x hx hxF => ?_
        obtain ⟨c, hc, hcx⟩ := hcover x hxF
        have := hb c hc
        rw [Finset.mem_Ico] at hx
        unfold Block.Apart at this
        omega
    · intro x hx
      rcases Finset.mem_union.mp hx with hx | hx
      · exact ⟨b, by simp, Finset.mem_Ico.mp hx⟩
      · obtain ⟨c, hc, hcx⟩ := hcover x hx
        exact ⟨c, by simp [hc], hcx⟩

end Allocated
end Racoon.Lib
