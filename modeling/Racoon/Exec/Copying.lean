import Racoon.Exec.Image
import Racoon.Paging.ByteCopies

/-!
# Copying through a map

`page_copy_in` writes each byte to the frame of its page, or into the page at 0 if that
page is not present. Frames of a new process were free and are apart from one another,
so that a byte that has been copied stays, and so does the image.
-/

namespace Racoon.Exec
open Lib Paging
open PhysicalMemory (Physmem Ready pageAddr pageAddr_injective)
open Ualloc (State Grown New)

/-- Where `page_copy_in` writes the byte for an address. -/
def target (d : PageDirectory) (a : ℕ) : ℕ := frameOf (d.word (a / PAGE_SIZE)) + a % PAGE_SIZE

/-- The processor finds it there too. -/
theorem translate_target {d : PageDirectory} {a : ℕ} (ha : a < 2 ^ 32)
    (hp : present (d.word (a / PAGE_SIZE)) = true) : Paging.translate d a = some (target d a) :=
  translate_of_present ha hp

section Copying
variable {d : PageDirectory} {dest src n i : ℕ} {m m' μ : Bytes}

theorem pageEntry_eq {a found : ℕ} (ha : a < 2 ^ 32) (h : pageEntry d a = .ok found) :
    found = frameOf (d.word (a / PAGE_SIZE)) := by
  rw [pageEntry, pageTableOf_eq ha, pageEntryOf_eq] at h
  rw [PageDirectory.word]
  cases ht : d.pde (a / PAGE_SIZE / 1024) with
  | absent => simp [ht] at h
  | large => simp [ht] at h
  | table t =>
    rw [ht] at h
    cases h
    rfl

/-- A round writes one byte. -/
theorem copyFrom_succ (hdest : dest + i < 2 ^ 32) (hsrc : src + i < 2 ^ 32)
    (h : copyFrom d dest src (n + 1) i m = .ok m') :
    copyFrom d dest src n (i + 1)
      (Function.update m (target d (dest + i)) (m (src + i))) = .ok m' := by
  obtain ⟨found, hfound, h⟩ := bind_eq_ok.mp h
  obtain ⟨m₁, hstore, h⟩ := bind_eq_ok.mp h
  rw [add32_of_lt hdest] at hfound hstore
  rw [add32_of_lt hsrc, pageEntry_eq hdest hfound, storeByte] at hstore
  by_cases hlow : frameOf (d.word ((dest + i) / PAGE_SIZE)) + (dest + i) % PAGE_SIZE < 512 * 2 ^ 22
  · rw [if_pos hlow] at hstore
    cases hstore
    exact h
  · rw [if_neg hlow] at hstore
    cases hstore

theorem copyFrom_frame (hdest : dest + (i + n) ≤ 2 ^ 32) (hsrc : src + (i + n) ≤ 2 ^ 32)
    (h : copyFrom d dest src n i m = .ok m') {x : ℕ}
    (hx : ∀ k, i ≤ k → k < i + n → target d (dest + k) ≠ x) : m' x = m x := by
  induction n generalizing i m with
  | zero =>
    cases h
    rfl
  | succ n ih =>
    rw [ih (by omega) (by omega) (copyFrom_succ (by omega) (by omega) h)
      fun k h₁ h₂ => hx k (by omega) (by omega)]
    exact Function.update_of_ne (hx i le_rfl (by omega)).symm ..

/-- A byte arrives, unless what is written there or read for it is written again. -/
theorem copyFrom_byte (hdest : dest + (i + n) ≤ 2 ^ 32) (hsrc : src + (i + n) ≤ 2 ^ 32)
    (h : copyFrom d dest src n i m = .ok m') {k : ℕ} (hi : i ≤ k) (hk : k < i + n)
    (hread : ∀ k', i ≤ k' → k' < i + n → target d (dest + k') ≠ src + k)
    (honce : ∀ k', i ≤ k' → k' < i + n → target d (dest + k) = target d (dest + k') → k' = k) :
    m' (target d (dest + k)) = m (src + k) := by
  induction n generalizing i m with
  | zero => omega
  | succ n ih =>
    have hrest := copyFrom_succ (by omega) (by omega) h
    by_cases hki : k = i
    · have hlater : ∀ k', i + 1 ≤ k' → k' < i + 1 + n →
          target d (dest + k') ≠ target d (dest + k) := by
        intro k' h₁ h₂ heq
        have := honce k' (by omega) (by omega) heq.symm
        omega
      rw [copyFrom_frame (by omega) (by omega) hrest hlater, hki, Function.update_self]
    · rw [ih (by omega) (by omega) hrest (by omega) (by omega)
        (fun k' h₁ h₂ => hread k' (by omega) (by omega))
        (fun k' h₁ h₂ => honce k' (by omega) (by omega))]
      exact Function.update_of_ne (hread i le_rfl (by omega)).symm ..

/-- Whether the copy goes through does not depend on the bytes. -/
theorem copyFrom_total (h : copyFrom d dest src n i m = .ok m') (μ : Bytes) :
    ∃ μ', copyFrom d dest src n i μ = .ok μ' := by
  induction n generalizing i m μ with
  | zero => exact ⟨μ, rfl⟩
  | succ n ih =>
    obtain ⟨found, hfound, h⟩ := bind_eq_ok.mp h
    obtain ⟨m₁, hstore, h⟩ := bind_eq_ok.mp h
    rw [storeByte] at hstore
    by_cases hlow : found + add32 dest i % PAGE_SIZE < 512 * 2 ^ 22
    · rw [if_pos hlow] at hstore
      obtain ⟨μ', hμ⟩ := ih h
        (Function.update μ (found + add32 dest i % PAGE_SIZE) (μ (add32 src i)))
      refine ⟨μ', ?_⟩
      rw [copyFrom, hfound, ok_bind, storeByte, if_pos hlow, ok_bind]
      exact hμ
    · rw [if_neg hlow] at hstore
      cases hstore

/-- With the directory in memory, apart from what is written, the copy is that of the whole
memory. -/
theorem copyFrom_copyInFrom {m₀ : Bytes} {directory left : ℕ}
    (hentry : ∀ k < n, ∀ f, pageEntry d (add32 dest k) = .ok f →
      f = frameAt m₀ directory (add32 dest k))
    (htables : ∀ k < n, ∀ j < n, ¬ Translates m₀ directory (add32 dest k)
      (byteAt m₀ directory (add32 dest j)))
    (hi : i + left = n)
    (hm : ∀ k < n, ∀ x, Translates m₀ directory (add32 dest k) x → m x = m₀ x)
    (h : copyFrom d dest src left i m = .ok m') : copyInFrom directory dest src left i m = m' := by
  induction left generalizing i m with
  | zero =>
    cases h
    rfl
  | succ left ih =>
    obtain ⟨found, hfound, h⟩ := bind_eq_ok.mp h
    obtain ⟨m₁, hstore, h⟩ := bind_eq_ok.mp h
    rw [hentry i (by omega) found hfound, ← byteAt, storeByte] at hstore
    by_cases hlow : byteAt m₀ directory (add32 dest i) < 512 * 2 ^ 22
    · rw [if_pos hlow] at hstore
      cases hstore
      rw [copyInFrom, byteAt_congr (hm i (by omega))]
      refine ih (by omega) (fun k hk x hx => ?_) h
      have hne : x ≠ byteAt m₀ directory (add32 dest i) := fun he =>
        htables k hk i (by omega) (he ▸ hx)
      rw [Function.update_of_ne hne, hm k hk x hx]
    · rw [if_neg hlow] at hstore
      cases hstore

end Copying

/-! ### Frames of the new process -/

/-- A process that has no pages yet. -/
structure Empty (s : State) : Prop where
  ready : Ready s.pm
  word : ∀ p, s.map.word p = 0

section Frames
variable {s₀ s : State} {a b : ℕ}

theorem Empty.pageAddr_ge (h : Empty s₀) (hb : b < s₀.pm.memoryPages)
    (hclear : s₀.pm.isSet b = false) : PAGE_SIZE ≤ pageAddr s₀.pm b := by
  have hmod := PhysicalMemory.pageAddr_aligned h.ready.aligned b
  have hne : pageAddr s₀.pm b ≠ 0 := by
    intro hz
    rw [h.ready.counted.null b hb hz] at hclear
    cases hclear
  unfold PhysicalMemory.PAGE_SIZE at hmod
  unfold PAGE_SIZE
  omega

theorem page_of_pageAddr (h : Empty s₀) {o : ℕ} (ho : o < PAGE_SIZE) :
    (pageAddr s₀.pm b + o) / PAGE_SIZE * PAGE_SIZE = pageAddr s₀.pm b := by
  have hmod := PhysicalMemory.pageAddr_aligned h.ready.aligned b
  unfold PhysicalMemory.PAGE_SIZE at hmod
  unfold PAGE_SIZE at *
  omega

/-- Frames that were free, at two offsets. -/
theorem eq_of_frame_add (h : Empty s₀) {c o o' : ℕ} (hb : b < s₀.pm.memoryPages)
    (hc : c < s₀.pm.memoryPages) (ho : o < PAGE_SIZE) (ho' : o' < PAGE_SIZE)
    (heq : pageAddr s₀.pm b + o = pageAddr s₀.pm c + o') : b = c := by
  refine pageAddr_injective hb hc ?_
  rw [← page_of_pageAddr h ho, heq, page_of_pageAddr h ho']

/-- A byte goes to the page at 0, or to a frame that was free. -/
theorem target_cases (h : Empty s₀) (hG : Grown s₀.pm s.pm s₀.map s.map) (a : ℕ) :
    (present (s.map.word (a / PAGE_SIZE)) = false ∧ target s.map a = a % PAGE_SIZE) ∨
      New s₀.map s.map (a / PAGE_SIZE) ∧ ∃ b < s₀.pm.memoryPages,
        target s.map a = pageAddr s₀.pm b + a % PAGE_SIZE ∧ s₀.pm.isSet b = false ∧
        s.pm.isSet b = true := by
  have hzero : present (s₀.map.word (a / PAGE_SIZE)) = false := by
    rw [h.word]
    rfl
  by_cases hp : present (s.map.word (a / PAGE_SIZE)) = true
  · obtain ⟨b, hb, hframe, hclear, hset⟩ := hG.fresh _ ⟨hzero, hp⟩
    exact .inr ⟨⟨hzero, hp⟩, b, hb, by rw [target, hframe], hclear, hset⟩
  · have hword : s.map.word (a / PAGE_SIZE) = 0 := by
      rcases hG.word (a / PAGE_SIZE) with hw | hw
      · rw [hw, h.word]
      · exact absurd hw hp
    refine .inl ⟨by simpa using hp, ?_⟩
    rw [target, hword, frameOf, Nat.zero_div, Nat.zero_mul, Nat.zero_add]

/-- An address whose page is present shares its byte with no other. -/
theorem target_inj (h : Empty s₀) (hG : Grown s₀.pm s.pm s₀.map s.map) {a' : ℕ}
    (hp : present (s.map.word (a / PAGE_SIZE)) = true) (heq : target s.map a = target s.map a') :
    a' = a := by
  have hmod : a % PAGE_SIZE < PAGE_SIZE := Nat.mod_lt _ (by decide)
  have hmod' : a' % PAGE_SIZE < PAGE_SIZE := Nat.mod_lt _ (by decide)
  obtain ⟨hn, -⟩ | ⟨hnew, b, hb, ht, hclear, -⟩ := target_cases h hG a
  · rw [hp] at hn
    cases hn
  · have hge := h.pageAddr_ge hb hclear
    obtain ⟨-, ht'⟩ | ⟨hnew', c, hc, ht', -, -⟩ := target_cases h hG a'
    · omega
    · have hbc : b = c := eq_of_frame_add h hb hc hmod hmod' (by rw [← ht, heq, ht'])
      have hoff : a % PAGE_SIZE = a' % PAGE_SIZE := by
        rw [ht, ht', hbc] at heq
        omega
      have hpage : a / PAGE_SIZE = a' / PAGE_SIZE := by
        refine hG.apart _ _ hnew hnew' ?_
        unfold target at heq
        omega
      rw [← Nat.div_add_mod a PAGE_SIZE, ← Nat.div_add_mod a' PAGE_SIZE, hpage, hoff]

/-- Nothing of the image is written. -/
theorem target_ne_image {start finish x : ℕ} (hres : Reserved s₀.pm start finish) (h0 : Empty s₀)
    (hG : Grown s₀.pm s.pm s₀.map s.map) (a : ℕ) (h₁ : start ≤ x) (h₂ : x < finish) :
    target s.map a ≠ x := by
  intro heq
  have hnull := hres.nonnull
  have ha : a % PAGE_SIZE < PAGE_SIZE := Nat.mod_lt _ (by decide)
  obtain ⟨-, ht⟩ | ⟨-, b, hb, ht, hclear, -⟩ := target_cases h0 hG a
  · omega
  · have hused := hres.used x h₁ h₂ b hb (by rw [← heq, ht, page_of_pageAddr h0 ha])
    rw [hclear] at hused
    cases hused

end Frames

end Racoon.Exec
