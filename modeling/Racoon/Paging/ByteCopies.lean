import Racoon.Lib.Scatter
import Racoon.Paging.Locality

/-!
# Copies into and out of an address space

`page_copy_in` and `page_copy_out` look up each byte in the directory of the other process,
as it is in memory: the kernel has the frames, the directories and the tables at their
physical addresses. What they find agrees with the processor where the page is one of
4 KB that is present.
-/

namespace Racoon.Paging
open Lib

/-- The entry of a directory in memory for an address. -/
def pdeAt (m : Bytes) (directory address : ℕ) : ℕ :=
  Bytes.read 4 m (directory + 4 * pageTableOf address)

/-- The macro `page_table`. -/
def tableAt (m : Bytes) (directory address : ℕ) : ℕ := frameOf (pdeAt m directory address)

def pteAt (m : Bytes) (directory address : ℕ) : ℕ :=
  Bytes.read 4 m (tableAt m directory address + 4 * pageEntryOf address)

/-- The macro `page_entry`. -/
def frameAt (m : Bytes) (directory address : ℕ) : ℕ := frameOf (pteAt m directory address)

/-- Where the copies take the byte for an address to be. -/
def byteAt (m : Bytes) (directory address : ℕ) : ℕ :=
  frameAt m directory address + address % PAGE_SIZE

/-- The loop of `page_copy_in`. -/
def copyInFrom (directory dest src : ℕ) : ℕ → ℕ → Bytes → Bytes
  | 0, _, m => m
  | left + 1, i, m =>
    copyInFrom directory dest src left (i + 1)
      (Function.update m (byteAt m directory (add32 dest i)) (m (add32 src i)))

def pageCopyIn (directory : ℕ) (m : Bytes) (dest src : ℕ) (bytes : ℤ) : Bytes × ℤ :=
  (copyInFrom directory dest src bytes.toNat 0 m, bytes)

/-- The loop of `page_copy_out`. -/
def copyOutFrom (directory dest src : ℕ) : ℕ → ℕ → Bytes → Bytes
  | 0, _, m => m
  | left + 1, i, m =>
    copyOutFrom directory dest src left (i + 1)
      (Function.update m (add32 dest i) (m (byteAt m directory (add32 src i))))

def pageCopyOut (directory : ℕ) (m : Bytes) (dest src : ℕ) (bytes : ℤ) : Bytes × ℤ :=
  (copyOutFrom directory dest src bytes.toNat 0 m, bytes)

/-- The physical address that the processor finds, if there is one. -/
def walk (m : Bytes) (directory address : ℕ) : Option ℕ :=
  if present (pdeAt m directory address) = false then none
  else if pdeAt m directory address &&& PAGE_4MB ≠ 0 then
    some (pdeAt m directory address / 2 ^ 22 * 2 ^ 22 + address % 2 ^ 22)
  else if present (pteAt m directory address) = false then none
  else some (byteAt m directory address)

/-- The page of an address is present, and has 4 KB. -/
structure SmallPage (m : Bytes) (directory address : ℕ) : Prop where
  table : present (pdeAt m directory address) = true
  small : pdeAt m directory address &&& PAGE_4MB = 0
  page : present (pteAt m directory address) = true

/-- A byte of the two words that translate an address. -/
def Translates (m : Bytes) (directory address x : ℕ) : Prop :=
  (∃ b < 4, x = directory + 4 * pageTableOf address + b) ∨
    ∃ b < 4, x = tableAt m directory address + 4 * pageEntryOf address + b

/-- The `n` bytes from an address on, with pages that are present and have frames of their own, none
of which holds a table that translates them. -/
structure Backed (m : Bytes) (directory start n : ℕ) : Prop where
  pages : ∀ i < n, SmallPage m directory (add32 start i)
  frames : ∀ i < n, ∀ j < n,
    frameAt m directory (add32 start i) = frameAt m directory (add32 start j) →
      add32 start i / PAGE_SIZE = add32 start j / PAGE_SIZE
  tables : ∀ i < n, ∀ j < n, ¬ Translates m directory (add32 start i)
    (byteAt m directory (add32 start j))

/-- The bytes of a buffer lie apart from those behind the range. -/
def BufferApart (m : Bytes) (directory start n buffer : ℕ) : Prop :=
  ∀ i < n, ∀ j < n, byteAt m directory (add32 start i) ≠ add32 buffer j

section Lookups
variable {m m' : Bytes} {directory address : ℕ}

theorem walk_small (h : SmallPage m directory address) :
    walk m directory address = some (byteAt m directory address) := by
  rw [walk, if_neg (by rw [h.table]; decide), if_neg (not_not.mpr h.small),
    if_neg (by rw [h.page]; decide)]

/-- The words of an address are the same in both memories. -/
theorem words_congr (h : ∀ x, Translates m directory address x → m' x = m x) :
    pdeAt m' directory address = pdeAt m directory address ∧
      pteAt m' directory address = pteAt m directory address := by
  have hpde : pdeAt m' directory address = pdeAt m directory address :=
    Bytes.read_congr fun b hb => h _ (.inl ⟨b, hb, rfl⟩)
  refine ⟨hpde, ?_⟩
  rw [pteAt, tableAt, hpde]
  exact Bytes.read_congr fun b hb => h _ (.inr ⟨b, hb, rfl⟩)

theorem byteAt_congr (h : ∀ x, Translates m directory address x → m' x = m x) :
    byteAt m' directory address = byteAt m directory address := by
  rw [byteAt, frameAt, (words_congr h).2]
  rfl

theorem walk_congr (h : ∀ x, Translates m directory address x → m' x = m x) :
    walk m' directory address = walk m directory address := by
  obtain ⟨hpde, hpte⟩ := words_congr h
  simp only [walk, hpde, hpte, byteAt_congr h]

end Lookups

/-- Addresses in two frames. -/
theorem frameOf_of_add {x y o o' : ℕ} (ho : o < PAGE_SIZE) (ho' : o' < PAGE_SIZE)
    (h : frameOf x + o = frameOf y + o') : frameOf x = frameOf y := by
  have hpage := congrArg (· / PAGE_SIZE) h
  dsimp only [frameOf] at hpage
  rw [page_div ho, page_div ho'] at hpage
  rw [frameOf, frameOf, hpage]

/-- The bytes of a range that is no longer than the address space have different addresses. -/
theorem add32_injective {a n i j : ℕ} (hn : n ≤ 2 ^ 32) (hi : i < n) (hj : j < n)
    (h : add32 a i = add32 a j) : i = j := by
  have hmod : i ≡ j [MOD 2 ^ 32] := Nat.ModEq.add_left_cancel' a h
  exact hmod.eq_of_lt_of_lt (hi.trans_le hn) (hj.trans_le hn)

section Copies
variable {m m₀ : Bytes} {directory start n src buffer left i : ℕ}

/-- Different bytes of the range are byteAt at different places. -/
theorem Backed.byteAt_injective (h : Backed m directory start n) (hn : n ≤ 2 ^ 32) (hi : i < n)
    {j : ℕ} (hj : j < n)
    (heq : byteAt m directory (add32 start i) = byteAt m directory (add32 start j)) : i = j := by
  have hi' : add32 start i % PAGE_SIZE < PAGE_SIZE := Nat.mod_lt _ (by decide)
  have hj' : add32 start j % PAGE_SIZE < PAGE_SIZE := Nat.mod_lt _ (by decide)
  have hframe : frameAt m directory (add32 start i) = frameAt m directory (add32 start j) :=
    frameOf_of_add hi' hj' heq
  have hpage := h.frames i hi j hj hframe
  have haddress : add32 start i = add32 start j := by
    rw [byteAt, byteAt, hframe] at heq
    rw [← Nat.div_add_mod (add32 start i) PAGE_SIZE, hpage, Nat.add_left_cancel heq,
      Nat.div_add_mod]
  exact add32_injective hn hi hj haddress

/-- While the bytes are copied the tables stay as they are. -/
theorem copyInFrom_eq (h : Backed m₀ directory start n) (hi : i + left = n)
    (hm : ∀ k < n, ∀ x, Translates m₀ directory (add32 start k) x → m x = m₀ x) :
    copyInFrom directory start src left i m =
      Bytes.scatter (fun k => byteAt m₀ directory (add32 start k)) (add32 src) left i m := by
  induction left generalizing i m with
  | zero => rfl
  | succ left ih =>
    rw [copyInFrom, Bytes.scatter, byteAt_congr (hm i (by omega))]
    refine ih (by omega) fun k hk x hx => ?_
    have hne : x ≠ byteAt m₀ directory (add32 start i) := fun he =>
      h.tables k hk i (by omega) (he ▸ hx)
    rw [Function.update_of_ne hne, hm k hk x hx]

theorem copyOutFrom_eq (hi : i + left = n)
    (hbuffer : ∀ k < n, ∀ j < n, ¬ Translates m₀ directory (add32 start k) (add32 buffer j))
    (hm : ∀ k < n, ∀ x, Translates m₀ directory (add32 start k) x → m x = m₀ x) :
    copyOutFrom directory buffer start left i m =
      Bytes.scatter (add32 buffer) (fun k => byteAt m₀ directory (add32 start k)) left i m := by
  induction left generalizing i m with
  | zero => rfl
  | succ left ih =>
    rw [copyOutFrom, Bytes.scatter, byteAt_congr (hm i (by omega))]
    refine ih (by omega) fun k hk x hx => ?_
    have hne : x ≠ add32 buffer i := fun he => hbuffer k hk i (by omega) (he ▸ hx)
    rw [Function.update_of_ne hne, hm k hk x hx]

end Copies

/-- `page_copy_in` stores the source behind the range and changes nothing else, and `page_copy_out`
then yields what was copied in, where its buffer does not hold a word that translates the range. -/
theorem page_copies_round_trip {m : Bytes} {directory dest src : ℕ} {bytes : ℤ}
    (hb : bytes < 2 ^ 31) (h : Backed m directory dest bytes.toNat)
    (hsrc : BufferApart m directory dest bytes.toNat src) :
    ∃ m', pageCopyIn directory m dest src bytes = (m', bytes) ∧
      (∀ i < bytes.toNat, ∃ p, walk m directory (add32 dest i) = some p ∧
        walk m' directory (add32 dest i) = some p ∧ m' p = m (add32 src i)) ∧
      (∀ x, (∀ i < bytes.toNat, walk m directory (add32 dest i) ≠ some x) → m' x = m x) ∧
      ∀ buffer, BufferApart m directory dest bytes.toNat buffer →
        (∀ i < bytes.toNat, ∀ j < bytes.toNat,
          ¬ Translates m directory (add32 dest i) (add32 buffer j)) →
        ∃ m'', pageCopyOut directory m' buffer dest bytes = (m'', bytes) ∧
          ∀ i < bytes.toNat, m'' (add32 buffer i) = m (add32 src i) := by
  have hn : bytes.toNat ≤ 2 ^ 32 := by omega
  rw [pageCopyIn]
  simp only [pageCopyOut]
  generalize bytes.toNat = n at *
  have hin : copyInFrom directory dest src n 0 m =
      Bytes.scatter (fun k => byteAt m directory (add32 dest k)) (add32 src) n 0 m :=
    copyInFrom_eq h (Nat.zero_add n) fun _ _ _ _ => rfl
  have hbyte : ∀ i < n, copyInFrom directory dest src n 0 m (byteAt m directory (add32 dest i)) =
      m (add32 src i) := by
    intro i hi
    rw [hin]
    exact @Bytes.scatter_byte (fun k => byteAt m directory (add32 dest k)) (add32 src) n 0 m i
      (Nat.zero_le i) (by omega) (fun j _ hj heq => h.byteAt_injective hn (by omega) hi heq)
      fun j _ hj => hsrc j (by omega) i hi
  have hother : ∀ x, (∀ i < n, byteAt m directory (add32 dest i) ≠ x) →
      copyInFrom directory dest src n 0 m x = m x := by
    intro x hx
    rw [hin]
    exact Bytes.scatter_frame fun k _ hk => hx k (by omega)
  have htables : ∀ k < n, ∀ x, Translates m directory (add32 dest k) x →
      copyInFrom directory dest src n 0 m x = m x := fun k hk x hx =>
    hother x fun i hi heq => h.tables k hk i hi (heq ▸ hx)
  refine ⟨_, rfl, fun i hi => ⟨_, walk_small (h.pages i hi), ?_, hbyte i hi⟩, fun x hx => ?_,
    fun buffer hbuffer hclear => ⟨_, rfl, fun i hi => ?_⟩⟩
  · rw [walk_congr (htables i hi), walk_small (h.pages i hi)]
  · exact hother x fun i hi heq => hx i hi (heq ▸ walk_small (h.pages i hi))
  · have hout := copyOutFrom_eq (Nat.zero_add n) hclear htables
    rw [hout]
    refine (@Bytes.scatter_byte (add32 buffer) (fun k => byteAt m directory (add32 dest k)) n 0 _ i
      (Nat.zero_le i) (by omega) (fun j _ hj heq => add32_injective hn (by omega) hi heq)
      fun j _ hj heq => hbuffer i hi j (by omega) heq.symm).trans (hbyte i hi)

/-- A directory at 0x1000 with one table, for two frames that do not follow each other. -/
def twoFrames : Bytes :=
  Bytes.write 4 (Bytes.write 4 (Bytes.write 4 (fun a => UInt8.ofNat a) 0x1800 0x2007) 0x2000 0x7007)
    0x2004 0x5007

theorem twoFrames_backed : Backed twoFrames 0x1000 0x80000FFE 4 := by
  have hpages : ∀ i < 4, present (pdeAt twoFrames 0x1000 (add32 0x80000FFE i)) = true ∧
      pdeAt twoFrames 0x1000 (add32 0x80000FFE i) &&& PAGE_4MB = 0 ∧
      present (pteAt twoFrames 0x1000 (add32 0x80000FFE i)) = true := by decide +kernel
  refine ⟨fun i hi => ?_, by decide +kernel, ?_⟩
  · obtain ⟨htable, hsmall, hpage⟩ := hpages i hi
    exact ⟨htable, hsmall, hpage⟩
  · unfold Translates
    decide +kernel

/-- Four bytes across the boundary of their pages. -/
theorem page_copies_two_frames : ∃ m', pageCopyIn 0x1000 twoFrames 0x80000FFE 0x9010 4 = (m', 4) ∧
    ∀ i < 4, ∃ p, walk twoFrames 0x1000 (add32 0x80000FFE i) = some p ∧
      walk m' 0x1000 (add32 0x80000FFE i) = some p ∧ m' p = twoFrames (add32 0x9010 i) := by
  have hsrc : BufferApart twoFrames 0x1000 0x80000FFE 4 0x9010 := by
    unfold BufferApart
    decide +kernel
  obtain ⟨m', hrun, hbytes, -⟩ := page_copies_round_trip (show (4 : ℤ) < 2 ^ 31 by decide)
    twoFrames_backed hsrc
  exact ⟨m', hrun, hbytes⟩

/-- The four bytes are copied out over the entry of the second page. The first two of them change
it, and the next two come from elsewhere. -/
theorem copy_out_over_table : Backed twoFrames 0x1000 0x80000FFE 4 ∧
    BufferApart twoFrames 0x1000 0x80000FFE 4 0x9010 ∧
    BufferApart twoFrames 0x1000 0x80000FFE 4 0x2004 ∧
    (pageCopyOut 0x1000 (pageCopyIn 0x1000 twoFrames 0x80000FFE 0x9010 4).1 0x2004 0x80000FFE 4).1
      (add32 0x2004 2) ≠ twoFrames (add32 0x9010 2) := by
  unfold BufferApart
  exact ⟨twoFrames_backed, by decide +kernel, by decide +kernel, by decide +kernel⟩

end Racoon.Paging
