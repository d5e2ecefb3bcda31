import Racoon.Exec.Loader
import Racoon.Ualloc.Growth

/-!
# Images

What an ELF image asks of the loader, and when it gets it. The pages of a segment are
counted from its size alone, but they begin where the segment does, in the middle of a
page perhaps. Its last page is then mapped only if another segment asks for it, and the
bytes of the file get there only if that segment comes before.
-/

namespace Racoon.Exec
open Lib Paging
open PhysicalMemory (Physmem pageAddr)

/-- The program header `i` is that of a loadable segment. -/
def IsSegment (m : Bytes) (start i : ℕ) : Prop := i < ePhnum m start ∧ (phdr m start i).Loadable

instance (m : Bytes) (start i : ℕ) : Decidable (IsSegment m start i) :=
  inferInstanceAs (Decidable (_ ∧ _))

/-- The bytes of a segment are inside the image, and its pages in the range of the user. -/
structure Phdr.Fits (ph : Phdr) (start finish : ℕ) : Prop where
  inside : start + ph.pOffset + ph.pFilesz ≤ finish
  pos : 1 ≤ ph.pFilesz
  le : ph.pFilesz ≤ ph.pMemsz
  floor : 512 * 2 ^ 22 ≤ ph.pVaddr
  ceiling : ph.pVaddr + ph.pMemsz ≤ 1016 * 2 ^ 22

def Phdr.Apart (x y : Phdr) : Prop :=
  x.pVaddr + x.pMemsz ≤ y.pVaddr ∨ y.pVaddr + y.pMemsz ≤ x.pVaddr

/-- The image is `[start, finish)`. -/
structure WellFormed (m : Bytes) (start finish : ℕ) : Prop where
  header : start + 52 ≤ finish
  top : finish ≤ 2 ^ 32
  headers : ∀ i < ePhnum m start,
    start + ePhoff m start + ePhentsize m start * i + 32 ≤ finish
  fits : ∀ i, IsSegment m start i → (phdr m start i).Fits start finish
  apart : ∀ i j, IsSegment m start i → IsSegment m start j → i ≠ j →
    (phdr m start i).Apart (phdr m start j)

/-- The image is in pages that are in use, and not in the one at 0. -/
structure Reserved (pm : Physmem) (start finish : ℕ) : Prop where
  nonnull : PAGE_SIZE ≤ start
  used : ∀ a, start ≤ a → a < finish → ∀ b < pm.memoryPages,
    pageAddr pm b = a / PAGE_SIZE * PAGE_SIZE → pm.isSet b = true

/-- For the program header `i` the page `p` is asked for. -/
def Maps (m : Bytes) (start i p : ℕ) : Prop :=
  IsSegment m start i ∧ Covers (phdr m start i).pVaddr (pageCount (phdr m start i).pMemsz) p

instance (m : Bytes) (start i p : ℕ) : Decidable (Maps m start i p) :=
  inferInstanceAs (Decidable (_ ∧ _))

/-- The pages that the segments ask for. -/
def neededPages (m : Bytes) (start : ℕ) : Finset ℕ :=
  (Finset.range (2 ^ 20)).filter fun p => ∃ i < ePhnum m start, Maps m start i p

/-- More pages are free than are taken: one for the directory, one for each table and two for each
page. -/
def Roomy (pm : Physmem) (m : Bytes) (start : ℕ) : Prop :=
  2 * (neededPages m start).card + ((neededPages m start).image (· / 1024)).card + 1 < pm.free.card

/-- Every page of a segment is asked for, and those with bytes of the file for a segment that is not
behind it. -/
structure Phdr.Covered (ph : Phdr) (m : Bytes) (start i : ℕ) : Prop where
  mapped : ∀ a, ph.pVaddr ≤ a → a < ph.pVaddr + ph.pMemsz → ∃ j, Maps m start j (a / PAGE_SIZE)
  bytes : ∀ k < ph.pFilesz, ∃ j ≤ i, Maps m start j ((ph.pVaddr + k) / PAGE_SIZE)

def Covered (m : Bytes) (start : ℕ) : Prop :=
  ∀ i, IsSegment m start i → (phdr m start i).Covered m start i

/-- A segment of the image `m` is mapped, with the bytes of the file in the memory `m'`. -/
structure Phdr.Loaded (ph : Phdr) (m : Bytes) (start : ℕ) (d : PageDirectory) (m' : Bytes) :
    Prop where
  mapped : ∀ a, ph.pVaddr ≤ a → a < ph.pVaddr + ph.pMemsz → Paging.translate d a ≠ none
  bytes : ∀ k < ph.pFilesz, ∃ phys, Paging.translate d (ph.pVaddr + k) = some phys ∧
    m' phys = m (start + ph.pOffset + k)

def Loaded (m : Bytes) (start : ℕ) (d : PageDirectory) (m' : Bytes) : Prop :=
  ∀ i, IsSegment m start i → (phdr m start i).Loaded m start d m'

/-- Memories with the same image in them. -/
def SameImage (m m' : Bytes) (start finish : ℕ) : Prop := ∀ a, start ≤ a → a < finish → m' a = m a

theorem Phdr.Fits.user {ph : Phdr} {start finish a : ℕ} (h : ph.Fits start finish)
    (h₁ : ph.pVaddr ≤ a) (h₂ : a < ph.pVaddr + ph.pMemsz) :
    0x80000 ≤ a / PAGE_SIZE ∧ a / PAGE_SIZE < 0xFE000 := by
  have := h.floor
  have := h.ceiling
  unfold PAGE_SIZE
  omega

namespace WellFormed
variable {m m' : Bytes} {start finish i : ℕ}

theorem read_congr {n a : ℕ} (h : SameImage m m' start finish) (ha : start ≤ a)
    (hn : a + n ≤ finish) : Bytes.read n m' a = Bytes.read n m a :=
  Bytes.read_congr fun i hi => h (a + i) (by omega) (by omega)

theorem ePhnum_congr (hw : WellFormed m start finish) (h : SameImage m m' start finish) :
    ePhnum m' start = ePhnum m start := by
  have := hw.header
  exact read_congr h (by omega) (by omega)

theorem validElf_congr (hw : WellFormed m start finish) (h : SameImage m m' start finish) :
    validElf m' start = validElf m start := by
  have := hw.header
  simp only [validElf, h start le_rfl (by omega), h (start + 1) (by omega) (by omega),
    h (start + 2) (by omega) (by omega), h (start + 3) (by omega) (by omega)]

theorem phdr_congr (hw : WellFormed m start finish) (h : SameImage m m' start finish)
    (hi : i < ePhnum m start) : phdr m' start i = phdr m start i := by
  have hheader := hw.header
  have hin := hw.headers i hi
  have htop := hw.top
  have hoff : ePhoff m' start = ePhoff m start := read_congr h (by omega) (by omega)
  have hsize : ePhentsize m' start = ePhentsize m start := read_congr h (by omega) (by omega)
  have haddr : add32 (add32 start (ePhoff m start)) (ePhentsize m start * i) =
      start + ePhoff m start + ePhentsize m start * i := by
    rw [add32_of_lt (a := start) (by omega), add32_of_lt (by omega)]
  rw [phdr, phdr, hoff, hsize, haddr]
  generalize hat : start + ePhoff m start + ePhentsize m start * i = a at hin
  have ha : start ≤ a := by omega
  simp only [phdrAt, Phdr.mk.injEq]
  exact ⟨read_congr h (by omega) (by omega), read_congr h (by omega) (by omega),
    read_congr h (by omega) (by omega), read_congr h (by omega) (by omega),
    read_congr h (by omega) (by omega)⟩

/-- The pages that are asked for are those of the user. -/
theorem range (hw : WellFormed m start finish) (hi : IsSegment m start i) :
    Ualloc.Range (neededPages m start) (phdr m start i).pVaddr
      (pageCount (phdr m start i).pMemsz) := by
  obtain ⟨-, -, -, hfloor, hceil⟩ := hw.fits i hi
  have hcount : (phdr m start i).pVaddr / PAGE_SIZE + pageCount (phdr m start i).pMemsz ≤
      0xFE000 := by
    unfold pageCount PAGE_SIZE
    split_ifs <;> omega
  refine ⟨⟨?_, hcount⟩, fun p h₁ h₂ => ?_⟩
  · unfold PAGE_SIZE
    omega
  · exact Finset.mem_filter.mpr ⟨Finset.mem_range.mpr (by omega), i, hi.1, hi, h₁, h₂⟩

end WellFormed

end Racoon.Exec
