import Racoon.Machine
import Racoon.Lib.Run
import Racoon.Lib.Prefix
import Racoon.Lib.Bitmap

/-!
# The physical page allocator of `mm/physmem.c`

One bit a page says whether the page is in use and `s_freePages` counts the
clear ones. `memory_alloc` scans for a run of clear bits from a rotating hint,
jumping past used pages and past the end of memory; `memory_free` clears the
bits of a block again. Whatever the bitmap, the hint and the length, the block
found is clear and inside the bitmap, so that live blocks never share a page.
-/

namespace Racoon.PhysicalMemory
open Lib

def PAGE_SIZE : ℕ := 4096
def BLOCK_BITS : ℕ := 32

/-- The file's static variables. The managed pages are distinct pages of a 32-bit address space:
`bootstrap_memory` counts them by dividing a 32-bit length by the page size. -/
structure Physmem where
  memoryBitmap : ℕ → BitVec BLOCK_BITS
  memoryPages : ℕ
  memoryOffset : ℕ
  freePages : ℤ
  lastPage : ℤ
  pages_le : memoryPages ≤ 2 ^ 20

def Physmem.isSet (pm : Physmem) (page : ℕ) : Bool := Bitmap.test pm.memoryBitmap page

/-- The block the scan looks at in round `i`: `(i + s_lastPage) % memory_pages`, unsigned. -/
def blockAt (pm : Physmem) (i : ℕ) : ℕ :=
  ((i + pm.lastPage) % 2 ^ 32).toNat % pm.memoryPages

/-- The loop of `memory_multiple_alloc` for the value `i` of its counter: the block found, if any.
The counter is compared unsigned and advances past the page that stopped the round. -/
def scan (pm : Physmem) (pages : ℕ) : ℕ → ℕ → Outcome (Option ℕ)
  | 0, _ => .error .diverges
  | fuel + 1, i =>
    if i < pm.memoryPages then
      let block := blockAt pm i
      if pm.memoryPages < add32 block pages then
        scan pm pages fuel (add32 (add32 i (sub32 pages 2)) 1)
      else
        let j := search (fun k => pm.isSet (block + k)) id 0 pages
        if j < pages then scan pm pages fuel (add32 (add32 i j) 1) else .ok (some block)
    else .ok none

def setPages (pm : Physmem) (block : ℕ) : ℕ → Physmem
  | 0 => pm
  | n + 1 =>
    let pm := setPages pm block n
    { pm with
      memoryBitmap := Bitmap.set pm.memoryBitmap (block + n)
      freePages := pm.freePages - 1 }

def pageAddr (pm : Physmem) (block : ℕ) : ℕ := add32 (block * PAGE_SIZE) pm.memoryOffset

def memoryMultipleAlloc (pm : Physmem) (pages : ℕ) : Outcome (Physmem × ℕ) := do
  match ← scan pm pages (pm.memoryPages + 1) 0 with
  | none => .ok (pm, 0)
  | some block =>
    .ok ({ setPages pm block pages with lastPage := block + pages }, pageAddr pm block)

def memoryAlloc (pm : Physmem) (pages : ℕ) : Outcome (Physmem × ℕ) := do
  assert (0 < pages)
  if pages < (pm.freePages % 2 ^ 32).toNat then memoryMultipleAlloc pm pages else .ok (pm, 0)

def unsetPages (pm : Physmem) (start : ℕ) : ℕ → Outcome Physmem
  | 0 => .ok pm
  | n + 1 => do
    let pm ← unsetPages pm start n
    assert (pm.isSet (start + n) = true)
    .ok { pm with
      memoryBitmap := Bitmap.clear pm.memoryBitmap (start + n)
      freePages := pm.freePages + 1 }

def memoryFree (pm : Physmem) (pages position : ℕ) : Outcome Physmem := do
  let pos := sub32 position pm.memoryOffset
  assert (pos % PAGE_SIZE = 0)
  unsetPages pm (pos / PAGE_SIZE) pages

/-- The pages below `memory_pages` that are not in use. -/
def Physmem.free (pm : Physmem) : Finset ℕ := Bitmap.free pm.memoryBitmap pm.memoryPages

/-- The counter agrees with the bitmap, and the page at address 0, if managed, is in use. -/
structure Physmem.Counted (pm : Physmem) : Prop where
  count : pm.freePages = pm.free.card
  null : ∀ b < pm.memoryPages, pageAddr pm b = 0 → pm.isSet b = true

theorem test_set (m : ℕ → BitVec BLOCK_BITS) (i j : ℕ) :
    Bitmap.test (Bitmap.set m i) j = (decide (j = i) || Bitmap.test m j) :=
  Bitmap.test_set (by decide) m i j

theorem test_clear (m : ℕ → BitVec BLOCK_BITS) (i j : ℕ) :
    Bitmap.test (Bitmap.clear m i) j = (decide (j ≠ i) && Bitmap.test m j) :=
  Bitmap.test_clear (by decide) m i j

@[simp] theorem setPages_memoryPages (pm : Physmem) (block n : ℕ) :
    (setPages pm block n).memoryPages = pm.memoryPages := by
  induction n with
  | zero => rfl
  | succ n ih => exact ih

@[simp] theorem setPages_memoryOffset (pm : Physmem) (block n : ℕ) :
    (setPages pm block n).memoryOffset = pm.memoryOffset := by
  induction n with
  | zero => rfl
  | succ n ih => exact ih

theorem isSet_setPages (pm : Physmem) (block n p : ℕ) :
    (setPages pm block n).isSet p = (decide (block ≤ p ∧ p < block + n) || pm.isSet p) := by
  induction n with
  | zero => simp [setPages]
  | succ n ih =>
    change Bitmap.test (Bitmap.set _ _) p = _
    rw [test_set]
    change (decide (p = block + n) || (setPages pm block n).isSet p) = _
    rw [ih, ← Bool.or_assoc]
    congr 1
    rw [← Bool.decide_or]
    exact decide_eq_decide.mpr (by omega)

/-- Each page set was clear, so the counter follows the bitmap. -/
theorem card_setPages {pm : Physmem} (h : pm.freePages = pm.free.card) {block n : ℕ}
    (hn : block + n ≤ pm.memoryPages) (hc : ∀ p, block ≤ p → p < block + n → pm.isSet p = false) :
    (setPages pm block n).freePages = (setPages pm block n).free.card := by
  induction n with
  | zero => exact h
  | succ n ih =>
    have hi := ih (by omega) fun p hp hlt => hc p hp (by omega)
    have ht : (setPages pm block n).isSet (block + n) = false := by
      rw [isSet_setPages, hc _ (by omega) (by omega)]
      simp
    have hcard := Bitmap.card_free_set (w := BLOCK_BITS) (by decide)
      (n := (setPages pm block n).memoryPages) (by simp; omega) ht
    change (setPages pm block n).freePages - 1 = ((Bitmap.free (Bitmap.set _ _) _).card : ℤ)
    rw [hi]
    change ((Bitmap.free (setPages pm block n).memoryBitmap _).card : ℤ) - 1 = _
    rw [← hcard]
    push_cast
    exact add_sub_cancel_right _ _

theorem blockAt_lt (pm : Physmem) {i : ℕ} (hi : i < pm.memoryPages) :
    blockAt pm i < pm.memoryPages :=
  Nat.mod_lt _ (Nat.zero_lt_of_lt hi)

/-- By induction on the rounds: the counter only grows, so the scan ends, and the block it ends
with was seen clear to its end. -/
theorem scan_spec {pm : Physmem} {pages : ℕ} (h1 : 1 ≤ pages) (hp : pages ≤ pm.memoryPages) :
    ∀ (fuel i : ℕ), pm.memoryPages - i < fuel → ∃ r, scan pm pages fuel i = .ok r ∧
      ∀ b, r = some b → b + pages ≤ pm.memoryPages ∧
        ∀ p, b ≤ p → p < b + pages → pm.isSet p = false := by
  have hle := pm.pages_le
  intro fuel
  induction fuel with
  | zero => exact fun _ hf => absurd hf (Nat.not_lt_zero _)
  | succ fuel ih =>
    intro i hf
    simp only [scan]
    split_ifs with hi hb hj
    · have hblock := blockAt_lt pm hi
      rw [add32_of_lt (by omega)] at hb
      have hs : sub32 pages 2 = pages - 2 := sub32_of_le (by omega) (by omega)
      rw [hs, add32_of_lt (a := i) (by omega), add32_of_lt (by omega)]
      exact ih _ (by omega)
    · rw [add32_of_lt (a := i) (by omega), add32_of_lt (by omega)]
      exact ih _ (by omega)
    · have hblock := blockAt_lt pm hi
      rw [add32_of_lt (by omega)] at hb
      refine ⟨_, rfl, fun b he => ?_⟩
      cases he
      refine ⟨by omega, fun p hp hlt => ?_⟩
      have hc := of_search_ge (not_lt.mp hj) (i := p - blockAt pm i) (by omega)
      simpa [Nat.add_sub_cancel' hp] using hc
    · exact ⟨none, rfl, nofun⟩

/-- What `memory_alloc(n)` may do to the bitmap: nothing when it returns `NULL`, and otherwise
take `n` consecutive clear pages. -/
def AllocSpec (pm : Physmem) (n : ℕ) (pm' : Physmem) (ptr : ℕ) : Prop :=
  (ptr = 0 ∧ pm'.memoryBitmap = pm.memoryBitmap ∧ pm'.freePages = pm.freePages) ∨
  ∃ b, ptr = pageAddr pm b ∧ ptr ≠ 0 ∧ b + n ≤ pm.memoryPages ∧
    (∀ p, b ≤ p → p < b + n → pm.isSet p = false ∧ pm'.isSet p = true) ∧
    ∀ p, ¬ (b ≤ p ∧ p < b + n) → pm'.isSet p = pm.isSet p

theorem Physmem.Counted.of_eq {pm pm' : Physmem} (h : pm.Counted)
    (hp : pm'.memoryPages = pm.memoryPages) (ho : pm'.memoryOffset = pm.memoryOffset)
    (hc : pm'.freePages = pm'.free.card) (hs : ∀ b < pm.memoryPages, pageAddr pm b = 0 →
      pm.isSet b = true → pm'.isSet b = true) : pm'.Counted where
  count := hc
  null b hb hz := by
    rw [hp] at hb
    rw [pageAddr, ho] at hz
    exact hs b hb hz (h.null b hb hz)

theorem memoryAlloc_spec {pm : Physmem} (h : pm.Counted) {n : ℕ} (h1 : 1 ≤ n) :
    ∃ pm' ptr, memoryAlloc pm n = .ok (pm', ptr) ∧ AllocSpec pm n pm' ptr ∧ pm'.Counted ∧
      pm'.memoryPages = pm.memoryPages ∧ pm'.memoryOffset = pm.memoryOffset := by
  have hle := pm.pages_le
  have hcard : pm.free.card ≤ pm.memoryPages := Bitmap.card_free_le _ _
  have hpos : 0 < n := h1
  simp only [memoryAlloc, assert_of hpos, ok_bind]
  split_ifs with hn
  · have hnp : n ≤ pm.memoryPages := by
      rw [h.count] at hn
      omega
    obtain ⟨r, hr, hb⟩ := scan_spec h1 hnp (pm.memoryPages + 1) 0 (by omega)
    simp only [memoryMultipleAlloc, hr, ok_bind]
    cases r with
    | none => exact ⟨pm, 0, rfl, .inl ⟨rfl, rfl, rfl⟩, h, rfl, rfl⟩
    | some b =>
      obtain ⟨hbn, hclear⟩ := hb b rfl
      have hne : pageAddr pm b ≠ 0 := fun hz => by
        have hset := h.null b (by omega) hz
        simp [hclear b le_rfl (by omega)] at hset
      have hset := isSet_setPages pm b n
      refine ⟨_, _, rfl, .inr ⟨b, rfl, hne, hbn, fun p hp hlt => ⟨hclear p hp hlt, ?_⟩,
        fun p hp => ?_⟩, ?_, setPages_memoryPages pm b n, setPages_memoryOffset pm b n⟩
      · exact (hset p).trans (by simp [hp, hlt])
      · exact (hset p).trans (by simp [hp])
      · refine h.of_eq (setPages_memoryPages pm b n) (setPages_memoryOffset pm b n)
          (card_setPages h.count hbn hclear) fun p _ _ hp => ?_
        exact (hset p).trans (by simp [hp])
  · exact ⟨pm, 0, rfl, .inl ⟨rfl, rfl, rfl⟩, h, rfl, rfl⟩

/-- What `memory_free` does to the bits of a block of `n` pages at index `b`. -/
def FreeSpec (pm : Physmem) (n b : ℕ) (pm' : Physmem) : Prop :=
  ∀ p, pm'.isSet p = (decide (¬ (b ≤ p ∧ p < b + n)) && pm.isSet p)

theorem unsetPages_spec {pm : Physmem} (h : pm.freePages = pm.free.card) {b n : ℕ}
    (hn : b + n ≤ pm.memoryPages) (hs : ∀ p, b ≤ p → p < b + n → pm.isSet p = true) :
    ∃ pm', unsetPages pm b n = .ok pm' ∧ FreeSpec pm n b pm' ∧ pm'.freePages = pm'.free.card ∧
      pm'.memoryPages = pm.memoryPages ∧ pm'.memoryOffset = pm.memoryOffset := by
  induction n with
  | zero => exact ⟨pm, rfl, fun p => by simp, h, rfl, rfl⟩
  | succ n ih =>
    obtain ⟨pm₁, hr, hf, hc, hp, ho⟩ := ih (by omega) fun p hp hlt => hs p hp (by omega)
    have ht : pm₁.isSet (b + n) = true := by
      rw [hf, hs _ (by omega) (by omega)]
      simp
    let pm₂ : Physmem := { pm₁ with
      memoryBitmap := Bitmap.clear pm₁.memoryBitmap (b + n)
      freePages := pm₁.freePages + 1 }
    have hrun : unsetPages pm b (n + 1) = .ok pm₂ := by
      simp only [unsetPages, hr, ok_bind, assert_of ht, pm₂]
    refine ⟨pm₂, hrun, fun p => ?_, ?_, hp, ho⟩
    · change Bitmap.test (Bitmap.clear _ _) p = _
      rw [test_clear]
      change (decide (p ≠ b + n) && pm₁.isSet p) = _
      rw [hf, ← Bool.and_assoc]
      congr 1
      rw [← Bool.decide_and]
      exact decide_eq_decide.mpr (by omega)
    · have hcard := Bitmap.card_free_clear (w := BLOCK_BITS) (by decide)
        (n := pm₁.memoryPages) (by omega) ht
      change pm₁.freePages + 1 = ((Bitmap.free (Bitmap.clear _ _) _).card : ℤ)
      rw [hcard, hc]
      rfl

/-- The page index that `memory_free` recovers from an address. -/
def pageIndex (pm : Physmem) (ptr : ℕ) : ℕ := sub32 ptr pm.memoryOffset / PAGE_SIZE

theorem sub32_pageAddr (pm : Physmem) {b : ℕ} (hb : b < pm.memoryPages) :
    sub32 (pageAddr pm b) pm.memoryOffset = b * PAGE_SIZE := by
  have hle := pm.pages_le
  simp only [pageAddr, add32, sub32, PAGE_SIZE]
  omega

theorem pageIndex_pageAddr (pm : Physmem) {b : ℕ} (hb : b < pm.memoryPages) :
    pageIndex pm (pageAddr pm b) = b := by
  rw [pageIndex, sub32_pageAddr pm hb]
  exact Nat.mul_div_cancel b (by decide)

/-- A block: the address of its first page and its length in pages. -/
abbrev Block := ℕ × ℕ

/-- A block that was handed out: its pages are managed and in use, and none is the page at 0. -/
structure Held (pm : Physmem) (x : Block) : Prop where
  pos : 1 ≤ x.2
  addr : x.1 = pageAddr pm (pageIndex pm x.1)
  inside : pageIndex pm x.1 + x.2 ≤ pm.memoryPages
  used : ∀ p, pageIndex pm x.1 ≤ p → p < pageIndex pm x.1 + x.2 → pm.isSet p = true
  nonnull : ∀ p, pageIndex pm x.1 ≤ p → p < pageIndex pm x.1 + x.2 → pageAddr pm p ≠ 0

def Apart (pm : Physmem) (x y : Block) : Prop :=
  pageIndex pm x.1 + x.2 ≤ pageIndex pm y.1 ∨ pageIndex pm y.1 + y.2 ≤ pageIndex pm x.1

theorem Apart.symm {pm : Physmem} {x y : Block} (h : Apart pm x y) : Apart pm y x := Or.symm h

theorem pageIndex_congr {pm pm' : Physmem} (ho : pm'.memoryOffset = pm.memoryOffset) (ptr : ℕ) :
    pageIndex pm' ptr = pageIndex pm ptr := by
  rw [pageIndex, pageIndex, ho]

/-- A block stays held while its own bits stay set. -/
theorem Held.of_eq {pm pm' : Physmem} {x : Block} (h : Held pm x)
    (hp : pm'.memoryPages = pm.memoryPages) (ho : pm'.memoryOffset = pm.memoryOffset)
    (hs : ∀ p, pageIndex pm x.1 ≤ p → p < pageIndex pm x.1 + x.2 → pm'.isSet p = true) :
    Held pm' x := by
  have hi := pageIndex_congr ho x.1
  have ha (b : ℕ) : pageAddr pm' b = pageAddr pm b := by rw [pageAddr, pageAddr, ho]
  refine ⟨h.pos, ?_, ?_, ?_, ?_⟩ <;> rw [hi]
  · rw [ha]
    exact h.addr
  · rw [hp]
    exact h.inside
  · exact hs
  · intro p hp hlt
    rw [ha]
    exact h.nonnull p hp hlt

theorem Held.free {pm : Physmem} {x : Block} (h : Held pm x) (hc : pm.freePages = pm.free.card) :
    ∃ pm', memoryFree pm x.2 x.1 = .ok pm' ∧ FreeSpec pm x.2 (pageIndex pm x.1) pm' ∧
      pm'.freePages = pm'.free.card ∧ pm'.memoryPages = pm.memoryPages ∧
      pm'.memoryOffset = pm.memoryOffset := by
  have hlt : pageIndex pm x.1 < pm.memoryPages := by
    have := h.inside
    have := h.pos
    omega
  have hpos : sub32 x.1 pm.memoryOffset % PAGE_SIZE = 0 := by
    rw [h.addr, sub32_pageAddr pm hlt]
    exact Nat.mul_mod_left _ _
  obtain ⟨pm', hr, hrest⟩ := unsetPages_spec hc h.inside h.used
  refine ⟨pm', ?_, hrest⟩
  simp only [memoryFree, assert_of hpos, ok_bind]
  exact hr

/-- Blocks whose pages are in use are apart from a block whose pages are clear. -/
theorem Held.apart_of_clear {pm : Physmem} {x y : Block} (h : Held pm y) (hx : 1 ≤ x.2)
    (hc : ∀ p, pageIndex pm x.1 ≤ p → p < pageIndex pm x.1 + x.2 → pm.isSet p = false) :
    Apart pm x y := by
  by_contra hn
  unfold Apart at hn
  have hy := h.pos
  have hu := h.used (max (pageIndex pm x.1) (pageIndex pm y.1)) (by omega) (by omega)
  rw [hc _ (by omega) (by omega)] at hu
  cases hu

/-- The allocator with the blocks that are currently held. -/
structure State where
  pm : Physmem
  held : List Block

structure Sound (s : State) : Prop where
  counted : s.pm.Counted
  held : ∀ x ∈ s.held, Held s.pm x
  apart : s.held.Pairwise (Apart s.pm)

inductive Call
  | alloc (pages : ℕ)
  | free (block : Block)

def Call.exec (s : State) : Call → Outcome State
  | .alloc pages => do
    let (pm, ptr) ← memoryAlloc s.pm pages
    .ok ⟨pm, if ptr = 0 then s.held else (ptr, pages) :: s.held⟩
  | .free block => do
    let pm ← memoryFree s.pm block.2 block.1
    .ok ⟨pm, s.held.erase block⟩

def Call.Permitted (s : State) : Call → Prop
  | .alloc pages => 1 ≤ pages ∧ pages < 2 ^ 32
  | .free block => block ∈ s.held

def physmemSystem (s₀ : State) : System State Call Fault where
  Init s := s = s₀
  Guard s c := c.Permitted s
  step s c := c.exec s

theorem Sound.congr {s : State} (h : Sound s) {pm : Physmem} (hcount : pm.Counted)
    (hp : pm.memoryPages = s.pm.memoryPages) (ho : pm.memoryOffset = s.pm.memoryOffset)
    (hs : ∀ p, s.pm.isSet p = true → pm.isSet p = true) : Sound ⟨pm, s.held⟩ where
  counted := hcount
  held x hx := (h.held x hx).of_eq hp ho fun p hle hlt => hs p ((h.held x hx).used p hle hlt)
  apart := h.apart.imp fun {x y} ha => by
    simpa only [Apart, pageIndex_congr ho] using ha

theorem Sound.alloc {s : State} (h : Sound s) {n : ℕ} (h1 : 1 ≤ n) :
    ∃ t, (Call.alloc n).exec s = .ok t ∧ Sound t := by
  obtain ⟨pm, ptr, hr, hspec, hcount, hp, ho⟩ := memoryAlloc_spec h.counted h1
  refine ⟨⟨pm, if ptr = 0 then s.held else (ptr, n) :: s.held⟩,
    by simp only [Call.exec, hr, ok_bind], ?_⟩
  rcases hspec with ⟨hz, hm, _⟩ | ⟨b, hptr, hz, hbn, hb, hrest⟩
  · rw [if_pos hz]
    exact h.congr hcount hp ho fun p hs => by rwa [Physmem.isSet, hm]
  · rw [if_neg hz]
    have hmono : ∀ p, s.pm.isSet p = true → pm.isSet p = true := by
      intro p hs
      by_cases hpb : b ≤ p ∧ p < b + n
      · exact (hb p hpb.1 hpb.2).2
      · rw [hrest p hpb]
        exact hs
    have hold := h.congr hcount hp ho hmono
    have hidx : pageIndex s.pm ptr = b := hptr ▸ pageIndex_pageAddr s.pm (by omega)
    have hidx' : pageIndex pm ptr = b := (pageIndex_congr ho ptr).trans hidx
    have haddr (p : ℕ) : pageAddr pm p = pageAddr s.pm p := by rw [pageAddr, pageAddr, ho]
    have hnew : Held pm (ptr, n) := by
      refine ⟨h1, ?_, ?_, ?_, ?_⟩ <;> rw [hidx']
      · rw [haddr]
        exact hptr
      · rw [hp]
        exact hbn
      · exact fun p hle hlt => (hb p hle hlt).2
      · intro p hle hlt hzero
        rw [haddr] at hzero
        have hset := h.counted.null p (by omega) hzero
        rw [(hb p hle hlt).1] at hset
        cases hset
    refine ⟨hcount, ?_, ?_⟩
    · rintro x (_ | ⟨_, hx⟩)
      · exact hnew
      · exact hold.held x hx
    · refine List.pairwise_cons.mpr ⟨fun y hy => ?_, hold.apart⟩
      have ha : Apart s.pm (ptr, n) y := (h.held y hy).apart_of_clear h1 fun p hle hlt => by
        rw [hidx] at hle hlt
        exact (hb p hle hlt).1
      simpa only [Apart, pageIndex_congr ho] using ha

theorem Sound.free {s : State} (h : Sound s) {x : Block} (hx : x ∈ s.held) :
    ∃ t, (Call.free x).exec s = .ok t ∧ Sound t := by
  have hheld := h.held x hx
  obtain ⟨pm, hr, hspec, hcount, hp, ho⟩ := hheld.free h.counted.count
  refine ⟨⟨pm, s.held.erase x⟩, by simp only [Call.exec, hr, ok_bind], ?_⟩
  have hpair : (x :: s.held.erase x).Pairwise (Apart s.pm) :=
    (List.perm_cons_erase hx).pairwise_iff (fun {_ _} => Apart.symm) |>.mp h.apart
  obtain ⟨hx', hrest⟩ := List.pairwise_cons.mp hpair
  refine ⟨h.counted.of_eq hp ho hcount fun b _ hz hs => ?_, fun y hy => ?_, ?_⟩
  · have hout : ¬ (pageIndex s.pm x.1 ≤ b ∧ b < pageIndex s.pm x.1 + x.2) :=
      fun hin => hheld.nonnull b hin.1 hin.2 hz
    rw [hspec, hs, Bool.and_true]
    exact decide_eq_true hout
  · have hy' := h.held y (List.mem_of_mem_erase hy)
    refine hy'.of_eq hp ho fun p hle hlt => ?_
    have ha : Apart s.pm x y := hx' y hy
    have hout : ¬ (pageIndex s.pm x.1 ≤ p ∧ p < pageIndex s.pm x.1 + x.2) := by
      unfold Apart at ha
      omega
    rw [hspec, hy'.used p hle hlt, Bool.and_true]
    exact decide_eq_true hout
  · refine hrest.imp fun {y z} ha => ?_
    simpa only [Apart, pageIndex_congr ho] using ha

theorem sound_preserved (s₀ : State) : (physmemSystem s₀).Preserves Sound := by
  intro s c hs hc
  cases c with
  | alloc n => exact hs.alloc hc.1
  | free x => exact hs.free hc

/-- The page allocator along every run: counter, bitmap and live blocks agree, an allocation
takes clear pages only, and a release gives back the pages of its block only. -/
theorem physical_page_bitmap {s₀ s : State} {cs : List Call} (h₀ : Sound s₀)
    (h : (physmemSystem s₀).Steps s₀ cs s) :
    Sound s ∧
    (∀ n, 1 ≤ n → n < 2 ^ 32 → ∃ pm ptr, memoryAlloc s.pm n = .ok (pm, ptr) ∧
      AllocSpec s.pm n pm ptr) ∧
    ∀ x ∈ s.held, ∃ pm, memoryFree s.pm x.2 x.1 = .ok pm ∧
      FreeSpec s.pm x.2 (pageIndex s.pm x.1) pm := by
  have hs := h.preserves (sound_preserved s₀) h₀
  refine ⟨hs, fun n h1 _ => ?_, fun x hx => ?_⟩
  · obtain ⟨pm, ptr, hr, hspec, _⟩ := memoryAlloc_spec hs.counted h1
    exact ⟨pm, ptr, hr, hspec⟩
  · obtain ⟨pm, hr, hspec, _⟩ := (hs.held x hx).free hs.counted.count
    exact ⟨pm, hr, hspec⟩

/-- Four pages from address 0: the first is reserved, the next two are a live block. -/
def fourPages : State := ⟨⟨fun _ => 7, 4, 0, 1, 0, by norm_num⟩, [(4096, 2)]⟩

theorem sound_fourPages : Sound fourPages := by
  refine ⟨⟨by decide, ?_⟩, ?_, List.pairwise_singleton _ _⟩
  · change ∀ b < 4, _
    decide
  · intro x hx
    rw [List.mem_singleton.mp hx]
    have hi : pageIndex fourPages.pm 4096 = 1 := by decide
    refine ⟨by decide, by decide, by decide, ?_, ?_⟩ <;> rw [hi] <;> intro p hp hlt <;>
      interval_cases p <;> decide

theorem physical_page_bitmap_fourPages : ∃ s, s.held = [] ∧ Sound s ∧
    ∀ n, 1 ≤ n → n < 2 ^ 32 → ∃ pm ptr, memoryAlloc s.pm n = .ok (pm, ptr) ∧
      AllocSpec s.pm n pm ptr := by
  have h : (physmemSystem fourPages).Steps fourPages [.free (4096, 2)] _ := .one (.head _) rfl
  obtain ⟨hs, ha, _⟩ := physical_page_bitmap sound_fourPages h
  exact ⟨_, rfl, hs, ha⟩

end Racoon.PhysicalMemory
