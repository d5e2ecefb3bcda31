import Racoon.Env.RemoveEnvironment

/-!
# Room for environments

A heap that always answers from behind its last block. A call on an environment
needs room for the data it is given and for one array, so that no request of it
is refused as long as the memory is not used up.
-/

namespace Racoon.Env
open Strings

/-- All blocks lie below `top`. -/
def Memory.Below (m : Memory) (top : ℕ) : Prop :=
  ∀ a B, m.block a = some B → a < top ∧ a + B.room ≤ top

theorem Memory.Below.fits {m : Memory} {top size : ℕ} (h : m.Below top) (hs : top + size ≤ 2 ^ 32) :
    m.Fits top size where
  fresh := by
    cases ht : m.block top with
    | none => rfl
    | some B => exact absurd (h top B ht).1 (lt_irrefl top)
  inside := hs
  below b B hb _ := (h b B hb).2
  above b B hb hlt := absurd (h b B hb).1 (by omega)

open Classical in
/-- The heap that puts each block behind the last one. -/
noncomputable def bump : Kalloc where
  slot m size :=
    if h : ∃ top, m.Below top ∧ top + size ≤ 2 ^ 32 then
      some ⟨Nat.find h, (Nat.find_spec h).1.fits (Nat.find_spec h).2⟩
    else none
  litter _ := 0
  litterInfo _ := ⟨fun _ => 0, 0, 0⟩

/-- No request was refused, and behind the last block there are `n` bytes. -/
def Room (n : ℕ) (m : Memory) : Prop := m.refused = false ∧ ∃ top, m.Below top ∧ top + n ≤ 2 ^ 32

namespace Room
variable {n : ℕ} {m m' : Memory}

theorem mono {k : ℕ} (h : Room n m) (hk : k ≤ n) : Room k m := by
  obtain ⟨hr, top, hb, ht⟩ := h
  exact ⟨hr, top, hb, by omega⟩

theorem free (h : Room n m) (a : ℕ) : Room n (m.free a) := by
  obtain ⟨hr, top, hb, ht⟩ := h
  refine ⟨hr, top, fun x X hx => ?_, ht⟩
  rw [Memory.block_free] at hx
  split_ifs at hx
  exact hb x X hx

theorem change (h : Room n m) (a : ℕ) {f : Block → Block} (hf : ∀ b, (f b).room ≤ b.room) :
    Room n (m.change a f hf) := by
  obtain ⟨hr, top, hb, ht⟩ := h
  refine ⟨hr, top, fun x X hx => ?_, ht⟩
  obtain ⟨B, hB, hle⟩ := Memory.block_of_change hf hx
  have := hb x B hB
  omega

/-- A request is granted and takes the room it asks for. -/
theorem kmalloc {size : ℕ} (h : Room (size + n) m) (hs : 0 < size) (c : Contents) :
    ∃ p m', Env.kmalloc bump m size c = .ok (some p, m') ∧ Room n m' := by
  obtain ⟨hr, top, hb, ht⟩ := h
  have hex : ∃ top, m.Below top ∧ top + size ≤ 2 ^ 32 := ⟨top, hb, by omega⟩
  classical
  have hslot : bump.slot m size =
      some ⟨Nat.find hex, (Nat.find_spec hex).1.fits (Nat.find_spec hex).2⟩ := dif_pos hex
  have hfind : Nat.find hex ≤ top := Nat.find_min' hex ⟨hb, by omega⟩
  refine ⟨Nat.find hex, m.alloc ((Nat.find_spec hex).1.fits (Nat.find_spec hex).2) c, ?_, hr,
    Nat.find hex + size, fun x X hx => ?_, by omega⟩
  · rw [Env.kmalloc, hslot]
  · rw [Memory.block_alloc] at hx
    split_ifs at hx with hxa
    · cases hx
      exact ⟨by omega, by rw [hxa]⟩
    · have := (Nat.find_spec hex).1 x X hx
      omega

theorem kfree {a : ℕ} (h : Room n m) (hm : Env.kfree m a = .ok m') : Room n m' := by
  obtain ⟨-, -, hm⟩ := bind_eq_ok.mp hm
  cases hm
  exact h.free a

theorem copyInto {a size : ℕ} {src : Buffer} (h : Room n m)
    (hm : Env.copyInto m a src size = .ok m') : Room n m' := by
  obtain ⟨d, -, hm⟩ := bind_eq_ok.mp hm
  cases hm
  exact h.change a _

theorem setEntry {env : Option ℕ} {i : ℕ} {x : EnvironInfo} (h : Room n m)
    (hm : Env.setEntry m env i x = .ok m') : Room n m' := by
  obtain ⟨⟨a, e⟩, -, hm⟩ := bind_eq_ok.mp hm
  cases hm
  exact h.change a _

theorem krealloc {ptr p : Option ℕ} {size : ℕ} (h : Room (size + n) m)
    (hm : Env.krealloc bump m ptr size = .ok (p, m')) : Room n m' := by
  have hle : Room n m := h.mono (Nat.le_add_left n size)
  cases ptr with
  | none =>
    by_cases h0 : size = 0
    · rw [Env.krealloc, if_pos h0] at hm
      cases hm
      exact hle
    · rw [krealloc_null bump m h0] at hm
      obtain ⟨q, m₁, hk, hroom⟩ := h.kmalloc (Nat.pos_of_ne_zero h0) (.environ bump.litterInfo)
      cases hk.symm.trans hm
      exact hroom
  | some a =>
    by_cases h0 : size = 0
    · rw [Env.krealloc, if_pos h0] at hm
      obtain ⟨m₁, hfree, hm⟩ := bind_eq_ok.mp hm
      cases hm
      exact hle.kfree hfree
    rw [Env.krealloc, if_neg h0] at hm
    obtain ⟨b, -, hm⟩ := bind_eq_ok.mp hm
    split_ifs at hm with hb
    · cases hm
      exact hle.change a _
    · obtain ⟨q, m₁, hk, hroom⟩ := h.kmalloc (Nat.pos_of_ne_zero h0) (moved bump.litterInfo b)
      rw [hk, ok_bind] at hm
      obtain ⟨m₂, hfree, hm⟩ := bind_eq_ok.mp hm
      cases hm
      exact hroom.kfree hfree

/-- What `set_environment` asks for at most: the data and an array with one more entry. -/
theorem setEnvironment {proc proc' : Process} {name : CString} {data : Buffer} {size : ℕ} {rc : ℤ}
    (h : Room (size + (arrayBytes (proc.environmentCount + 1) + n)) m) (hs : 0 < size)
    (hm : Env.setEnvironment bump m proc (some name) (some data) size = .ok (rc, proc', m')) :
    Room n m' := by
  obtain ⟨p, m₁, hk, h₁⟩ := h.kmalloc hs (.bytes bump.litter)
  simp only [Env.setEnvironment, setEnvironmentWith, if_neg hs.ne', hk, ok_bind] at hm
  obtain ⟨i, -, hm⟩ := bind_eq_ok.mp hm
  split_ifs at hm with hi
  · obtain ⟨e, -, hm⟩ := bind_eq_ok.mp hm
    obtain ⟨m₂, hfree, hm⟩ := bind_eq_ok.mp hm
    obtain ⟨m₃, hset, hm⟩ := bind_eq_ok.mp hm
    obtain ⟨m₄, hcopy, hm⟩ := bind_eq_ok.mp hm
    cases hm
    exact (((h₁.mono (Nat.le_add_left n _)).kfree hfree).setEntry hset).copyInto hcopy
  · obtain ⟨⟨env, m₂⟩, hrealloc, hm⟩ := bind_eq_ok.mp hm
    have h₂ := h₁.krealloc hrealloc
    dsimp only at hm
    split_ifs at hm with henv
    · obtain ⟨m₃, hfree, hm⟩ := bind_eq_ok.mp hm
      cases hm
      exact h₂.kfree hfree
    · obtain ⟨m₃, hcopy, hm⟩ := bind_eq_ok.mp hm
      obtain ⟨e, -, hm⟩ := bind_eq_ok.mp hm
      obtain ⟨m₄, hset, hm⟩ := bind_eq_ok.mp hm
      cases hm
      exact (h₂.copyInto hcopy).setEntry hset

theorem removeFrom {env : Option ℕ} {name : CString} {i left : ℕ} {found found' : Bool}
    (h : Room n m) (hm : Env.removeFrom env name i left found m = .ok (found', m')) :
    Room n m' := by
  induction left generalizing i found m with
  | zero =>
    cases hm
    exact h
  | succ left ih =>
    cases found with
    | false =>
      obtain ⟨e, -, hm⟩ := bind_eq_ok.mp hm
      split_ifs at hm with hname
      · obtain ⟨m₁, hfree, hm⟩ := bind_eq_ok.mp hm
        exact ih (h.kfree hfree) hm
      · exact ih h hm
    | true =>
      obtain ⟨e, -, hm⟩ := bind_eq_ok.mp hm
      obtain ⟨m₁, hset, hm⟩ := bind_eq_ok.mp hm
      exact ih (h.setEntry hset) hm

theorem removeEnvironment {proc proc' : Process} {name : CString} {rc : ℤ}
    (h : Room (arrayBytes (proc.environmentCount - 1) + n) m)
    (hm : Env.removeEnvironment bump m proc name = .ok (rc, proc', m')) : Room n m' := by
  obtain ⟨⟨found, m₁⟩, hremove, hm⟩ := bind_eq_ok.mp hm
  have h₁ := h.removeFrom hremove
  dsimp only at hm
  split_ifs at hm with hfound
  · cases hm
    exact h₁.mono (Nat.le_add_left n _)
  · obtain ⟨⟨env, m₂⟩, hrealloc, hm⟩ := bind_eq_ok.mp hm
    cases hm
    exact h₁.krealloc hrealloc

end Room

end Racoon.Env
