import Racoon.Dmesg.Termination
import Racoon.Lib.Ring
import Racoon.Lib.Run

/-!
# The log of the kernel

`dmesg` formats its text into a buffer of its own and copies it into a ring. The place of
the next character is kept modulo the size of the ring, and `get_dmesg` takes it for the
number of the characters that are stored. So what was logged can be read back until the
ring is full, and from then on only as much of it as there is before that place.

The text is put on the screen as well, which is left out.
-/

namespace Racoon.Dmesg
open Lib

def DMESG_TMPSIZE : ℕ := 512
def DMESG_BUFSIZE : ℕ := 16384

structure Log where
  dmesgBuffer : ℕ → ℤ
  dmesgPosition : ℕ

/-- The loop that copies `rc` characters of the buffer of `dmesg`. -/
def copyLoop (mem : Memory) (buffer position : ℕ) : ℕ → ℕ → (ℕ → ℤ) → ℕ → ℤ
  | 0, _, cells => cells
  | left + 1, i, cells =>
    copyLoop mem buffer position left (i + 1)
      (Function.update cells ((position + i) % DMESG_BUFSIZE) (mem (buffer + i)))

/-- The memory that `sdmesg` has left behind comes with the result. -/
def dmesg (s : Log) (mem : Memory) (buffer : ℕ) (format : List ℤ) (ap : List Arg) :
    Outcome (Log × Memory × ℤ) := do
  let (mem, rc, _) ← sdmesg mem buffer DMESG_TMPSIZE format ap
  .ok (⟨copyLoop mem buffer s.dmesgPosition rc.toNat 0 s.dmesgBuffer,
    ((s.dmesgPosition + rc).tmod DMESG_BUFSIZE).toNat⟩, mem, rc)

/-- What is returned and the bytes that are copied. `kmemcpy` takes a size without sign, and the
cells behind the ring are what the memory holds there. -/
def getDmesg (s : Log) (len : ℤ) : ℤ × List ℤ :=
  let size := if len < s.dmesgPosition then len else s.dmesgPosition
  (size, (List.range (size % 2 ^ 32).toNat).map s.dmesgBuffer)

def newLog : Log := ⟨fun _ => 0, 0⟩

/-- The text that a call has put into its buffer. -/
def textOf (mem : Memory) (buffer : ℕ) (rc : ℤ) : List ℤ :=
  (List.range rc.toNat).map fun i => mem (buffer + i)

/-- The arguments of a call, and where its buffer is. -/
structure Call where
  mem : Memory
  buffer : ℕ
  format : List ℤ
  ap : List Arg

/-- Any calls of `dmesg`, with the characters that were logged. -/
def logSystem : System (Log × List ℤ) Call Fault where
  Init s := s = (newLog, [])
  Guard _ _ := True
  step s c := do
    let (log, mem, rc) ← dmesg s.1 c.mem c.buffer c.format c.ap
    .ok (log, s.2 ++ textOf mem c.buffer rc)

/-- `get_dmesg` returns as many characters as there are, and they were logged one after the
other. -/
structure ReadsBack (s : Log) (logged : List ℤ) (len : ℤ) : Prop where
  size : (getDmesg s len).1 = min len (min logged.length DMESG_BUFSIZE)
  bytes : (getDmesg s len).2 <:+: logged

/-! ### The result of `sdmesg` -/

section Results
variable {ap : List Arg}

theorem vaString_eq_ok {r : Option (List ℤ) × List Arg} (h : vaString ap = .ok r) :
    ap = .string r.1 :: r.2 := by
  cases ap with
  | nil => cases h
  | cons a ap =>
    cases a with
    | string s =>
      cases h
      rfl
    | word n => cases h

theorem vaWord_eq_ok {r : BitVec 32 × List Arg} (h : vaWord ap = .ok r) :
    ap = .word r.1 :: r.2 := by
  cases ap with
  | nil => cases h
  | cons a ap =>
    cases a with
    | string s => cases h
    | word n =>
      cases h
      rfl

theorem advance_ap {t s' : Cursor} {x : Outcome (Memory × ℤ)}
    (h : (x >>= fun r => Except.ok (t.advance r)) = .ok s') : s'.ap = t.ap := by
  obtain ⟨r, -, h⟩ := bind_eq_ok.mp h
  cases h
  rfl

theorem wordPiece_of_ok (f : BitVec 32 → Piece) {k : BitVec 32 × List Arg → Outcome Cursor}
    {s' : Cursor} (h : vaWord ap >>= k = .ok s') (hk : ∀ x, k x = .ok s' → s'.ap = x.2) :
    ∃ ps, wordPiece f ap = some (ps, s'.ap) := by
  obtain ⟨x, hva, h⟩ := bind_eq_ok.mp h
  rw [vaWord_eq_ok hva, hk x h]
  exact ⟨_, rfl⟩

/-- The arguments that a letter takes are there if the call goes through. -/
theorem pieceOf_of_ok {buffer : ℕ} {maxLen c : ℤ} {s s' : Cursor}
    (h : sdmesgSwitch buffer maxLen c s = .ok s') :
    ∃ ps, pieceOf c s.ap = some (ps, s'.ap) := by
  unfold sdmesgSwitch at h
  dsimp only at h
  by_cases hbang : c = chr '!'
  · rw [if_pos hbang] at h
    cases h
    subst hbang
    exact ⟨[], rfl⟩
  rw [if_neg hbang] at h
  unfold pieceOf
  by_cases hs : c = chr 's'
  · rw [if_pos hs] at h ⊢
    obtain ⟨⟨string, ap⟩, hva, h⟩ := bind_eq_ok.mp h
    cases h
    rw [vaString_eq_ok hva]
    exact ⟨_, rfl⟩
  rw [if_neg hs] at h ⊢
  by_cases hi : c = chr 'i'
  · rw [if_pos hi] at h ⊢
    exact wordPiece_of_ok _ h fun _ => advance_ap
  rw [if_neg hi] at h ⊢
  by_cases hu : c = chr 'u'
  · rw [if_pos hu] at h ⊢
    exact wordPiece_of_ok _ h fun _ => advance_ap
  rw [if_neg hu] at h ⊢
  by_cases hb : c = chr 'b'
  · rw [if_pos hb] at h ⊢
    exact wordPiece_of_ok _ h fun _ => advance_ap
  rw [if_neg hb] at h ⊢
  by_cases hx : c = chr 'x'
  · rw [if_pos hx] at h
    rw [if_pos (.inl hx)]
    exact wordPiece_of_ok _ h fun _ => advance_ap
  rw [if_neg hx] at h
  by_cases hp : c = chr 'p'
  · rw [if_pos hp] at h
    rw [if_pos (.inr hp)]
    exact wordPiece_of_ok _ h fun _ => advance_ap
  · rw [if_neg hp] at h
    cases h
    exact ⟨[], if_neg (not_or.mpr ⟨hx, hp⟩)⟩

theorem pieces_of_ok {buffer : ℕ} {maxLen : ℤ} {modifier : Bool} {format : List ℤ}
    {s s' : Cursor} (h : sdmesgLoop buffer maxLen modifier format s = .ok s') :
    ∃ ps, pieces modifier format s.ap = some ps := by
  induction format generalizing modifier s with
  | nil => exact ⟨[], rfl⟩
  | cons c format ih =>
    rw [sdmesgLoop] at h
    rw [pieces]
    by_cases hc : c = 0
    · exact ⟨[], if_pos hc⟩
    rw [if_neg hc] at h ⊢
    cases modifier with
    | true =>
      rw [if_pos rfl] at h ⊢
      obtain ⟨s₁, hswitch, h⟩ := bind_eq_ok.mp h
      obtain ⟨ps, hps⟩ := pieceOf_of_ok hswitch
      obtain ⟨qs, hqs⟩ := ih h
      exact ⟨ps ++ qs, by rw [hps, Option.bind_some, hqs, Option.map_some]⟩
    | false =>
      rw [if_neg Bool.false_ne_true] at h ⊢
      by_cases hpc : c = chr '%'
      · rw [if_pos hpc] at h ⊢
        exact ih h
      · rw [if_neg hpc] at h ⊢
        obtain ⟨qs, hqs⟩ := ih h
        exact ⟨_, congrArg (Option.map _) hqs⟩

/-- `sdmesg` counts up from 0. -/
theorem sdmesg_nonneg {mem mem' : Memory} {buffer maxLen flags : ℕ} {format : List ℤ} {rc : ℤ}
    (h : sdmesg mem buffer maxLen format ap = .ok (mem', rc, flags)) : 0 ≤ rc := by
  obtain ⟨s, hloop, -⟩ := bind_eq_ok.mp h
  obtain ⟨ps, hps⟩ := pieces_of_ok hloop
  obtain ⟨flags', hrun⟩ := sdmesg_eq mem buffer maxLen hps
  rw [hrun] at h
  cases h
  exact Int.natCast_nonneg _

end Results

/-! ### The ring -/

/-- The ring holds what was logged last, and the position is where the next character goes. -/
structure Holds (s : Log) (logged : List ℤ) : Prop where
  position : s.dmesgPosition = logged.length % DMESG_BUFSIZE
  cell : ∀ (i : ℕ) (hi : i < logged.length), logged.length ≤ i + DMESG_BUFSIZE →
    s.dmesgBuffer (i % DMESG_BUFSIZE) = logged[i]

section Ring
variable {s : Log} {logged : List ℤ} {len : ℤ}

theorem Holds.snoc (h : Holds s logged) (c : ℤ) :
    Holds ⟨Function.update s.dmesgBuffer s.dmesgPosition c,
      (s.dmesgPosition + 1) % DMESG_BUFSIZE⟩ (logged ++ [c]) := by
  constructor
  · rw [h.position, Nat.mod_add_mod, List.length_append, List.length_singleton]
  · intro i hi hnear
    rw [List.length_append, List.length_singleton] at hi hnear
    dsimp only
    rw [h.position]
    by_cases hlast : i = logged.length
    · subst hlast
      rw [Function.update_self, List.getElem_concat_length rfl]
    · have hne : i % DMESG_BUFSIZE ≠ logged.length % DMESG_BUFSIZE := by
        have hplace : (0 + i) % DMESG_BUFSIZE ≠ (0 + logged.length) % DMESG_BUFSIZE :=
          ring_place_ne (by omega) (by omega)
        rwa [Nat.zero_add, Nat.zero_add] at hplace
      rw [Function.update_of_ne hne, h.cell i (by omega) (by omega)]
      exact (List.getElem_append_left (by omega)).symm

/-- By induction on the characters that are left. -/
theorem Holds.copyLoop (mem : Memory) (buffer : ℕ) {cells : ℕ → ℤ} {position i : ℕ} (left : ℕ)
    (h : Holds ⟨cells, (position + i) % DMESG_BUFSIZE⟩ logged) :
    Holds ⟨Dmesg.copyLoop mem buffer position left i cells,
      (position + (i + left)) % DMESG_BUFSIZE⟩
      (logged ++ (List.range left).map fun k => mem (buffer + (i + k))) := by
  induction left generalizing i logged cells with
  | zero =>
    rw [List.range_zero, List.map_nil, List.append_nil]
    exact h
  | succ left ih =>
    have hnext := h.snoc (mem (buffer + i))
    rw [Nat.mod_add_mod, Nat.add_assoc] at hnext
    have hrest := ih hnext
    have htext : (List.range left).map (fun k => mem (buffer + (i + 1 + k))) =
        (List.range left).map ((fun k => mem (buffer + (i + k))) ∘ Nat.succ) := by
      refine List.map_congr_left fun k _ => ?_
      rw [Function.comp, Nat.add_assoc, Nat.add_comm 1]
    rw [htext, Nat.add_assoc, Nat.add_comm 1] at hrest
    rw [List.range_succ_eq_map, List.map_cons, List.map_map, Nat.add_zero, List.append_cons]
    exact hrest

theorem Holds.step {t : Log × List ℤ} {c : Call} (h : Holds s logged)
    (hstep : logSystem.step (s, logged) c = .ok t) : Holds t.1 t.2 := by
  obtain ⟨⟨log, mem', rc⟩, hdmesg, hstep⟩ := bind_eq_ok.mp hstep
  cases hstep
  obtain ⟨⟨mem'', rc', flags⟩, hsdmesg, hdmesg⟩ := bind_eq_ok.mp hdmesg
  cases hdmesg
  obtain ⟨n, rfl⟩ := Int.eq_ofNat_of_zero_le (sdmesg_nonneg hsdmesg)
  have hstart : Holds ⟨s.dmesgBuffer, (s.dmesgPosition + 0) % DMESG_BUFSIZE⟩ logged := by
    refine ⟨?_, h.cell⟩
    rw [Nat.add_zero, h.position, Nat.mod_mod]
  have hplace : ((s.dmesgPosition + (n : ℤ)).tmod DMESG_BUFSIZE).toNat =
      (s.dmesgPosition + n) % DMESG_BUFSIZE := by
    rw [← Nat.cast_add, ← Int.ofNat_tmod, Int.toNat_natCast]
  simpa only [Nat.zero_add, textOf, Int.toNat_natCast, hplace] using
    hstart.copyLoop mem' c.buffer n

theorem holds_of_reach {s : Log × List ℤ} (h : logSystem.Reach s) : Holds s.1 s.2 := by
  obtain ⟨s₀, cs, rfl, hrun⟩ := h
  have hinit : Holds newLog [] := ⟨rfl, fun i hi => absurd hi (Nat.not_lt_zero i)⟩
  exact hrun.invariant (P := fun s => Holds s.1 s.2) (fun s c t hs _ hstep => hs.step hstep) hinit

theorem getDmesg_size (h : Holds s logged) (len : ℤ) :
    (getDmesg s len).1 = min len (logged.length % DMESG_BUFSIZE : ℕ) := by
  rw [getDmesg, h.position]
  dsimp only
  split_ifs <;> omega

/-- What is copied begins with the first character of the current round. -/
theorem getDmesg_bytes (h : Holds s logged) (hlen : 0 ≤ len) :
    (getDmesg s len).2 = (logged.drop (logged.length / DMESG_BUFSIZE * DMESG_BUFSIZE)).take
      (getDmesg s len).1.toNat := by
  have hsize := getDmesg_size h len
  have hdiv := Nat.div_add_mod' logged.length DMESG_BUFSIZE
  have hlt : logged.length % DMESG_BUFSIZE < DMESG_BUFSIZE := Nat.mod_lt _ (by decide)
  have hring : DMESG_BUFSIZE = 16384 := rfl
  have hle : (getDmesg s len).1.toNat ≤ logged.length % DMESG_BUFSIZE := by omega
  change (List.range ((getDmesg s len).1 % 2 ^ 32).toNat).map s.dmesgBuffer = _
  rw [Int.emod_eq_of_lt (by omega) (by omega)]
  generalize (getDmesg s len).1.toNat = n at hle
  apply List.ext_getElem
  · rw [List.length_map, List.length_range, List.length_take, List.length_drop]
    omega
  · intro i hi hi'
    rw [List.length_map, List.length_range] at hi
    have hcell := h.cell (logged.length / DMESG_BUFSIZE * DMESG_BUFSIZE + i) (by omega) (by omega)
    rw [Nat.mul_add_mod_self_right, Nat.mod_eq_of_lt (by omega)] at hcell
    rw [List.getElem_map, List.getElem_range, List.getElem_take, List.getElem_drop, hcell]

/-- The log can be read back until the ring is full, and after that up to the place of the next
character. -/
theorem get_dmesg_reads_back_iff {s : Log × List ℤ} (h : logSystem.Reach s) {len : ℤ}
    (hlen : 0 ≤ len) : ReadsBack s.1 s.2 len ↔
      s.2.length < DMESG_BUFSIZE ∨ len ≤ (s.2.length % DMESG_BUFSIZE : ℕ) := by
  have hholds := holds_of_reach h
  have hsize := getDmesg_size hholds len
  have hle : s.2.length % DMESG_BUFSIZE ≤ s.2.length := Nat.mod_le _ _
  have hlt : s.2.length % DMESG_BUFSIZE < DMESG_BUFSIZE := Nat.mod_lt _ (by decide)
  constructor
  · intro hback
    have hall := hback.size
    omega
  · intro hroom
    constructor
    · rcases hroom with hfew | hnear
      · rw [hsize, Nat.mod_eq_of_lt hfew]
        omega
      · omega
    · rw [getDmesg_bytes hholds hlen]
      exact (List.take_prefix _ _).isInfix.trans (List.drop_suffix _ _).isInfix

end Ring

/-- A call that logs `n` times the letter a. -/
def letters (n : ℕ) : Call :=
  ⟨fun _ => 0, 0, [chr '%', chr 's'], [.string (some (List.replicate n (chr 'a')))]⟩

theorem letters_logged {n : ℕ} (h : n < DMESG_TMPSIZE) (s : Log × List ℤ) :
    ∃ t, logSystem.step s (letters n) = .ok t ∧ t.2.length = s.2.length + n := by
  have htext : stringText (some (List.replicate n (chr 'a'))) = List.replicate n (chr 'a') := by
    rw [stringText, List.takeWhile_replicate, if_pos (by decide)]
  have hp : pieces false (letters n).format (letters n).ap =
      some [.text (List.replicate n (chr 'a'))] := congrArg (fun l => some [Piece.text l]) htext
  have hlen : (output [.text (List.replicate n (chr 'a'))]).length = n := by
    simp [output, Piece.output]
  obtain ⟨flags, hrun⟩ := sdmesg_eq (letters n).mem (letters n).buffer DMESG_TMPSIZE hp
  rw [emitAll_of_lt (letters n).buffer (by dsimp only; omega)] at hrun
  refine ⟨_, by rw [logSystem]; dsimp only; rw [dmesg, hrun]; rfl, ?_⟩
  simp [textOf, hlen]

theorem exists_letters (k : ℕ) : ∃ s, logSystem.Reach s ∧ s.2.length = k * 256 := by
  induction k with
  | zero => exact ⟨_, .of_init rfl, rfl⟩
  | succ k ih =>
    obtain ⟨s, hs, hlen⟩ := ih
    obtain ⟨t, hstep, ht⟩ := letters_logged (show 256 < DMESG_TMPSIZE by decide) s
    refine ⟨t, hs.step trivial hstep, ?_⟩
    omega

/-- Two letters are read back with a buffer for ten. -/
theorem get_dmesg_reads_two :
    ∃ s, logSystem.Reach s ∧ s.2 = [chr 'a', chr 'a'] ∧ ReadsBack s.1 s.2 10 := by
  obtain ⟨t, ht⟩ : ∃ t, logSystem.step (newLog, []) (letters 2) = .ok t := ⟨_, rfl⟩
  have hlogged : t.2 = [chr 'a', chr 'a'] := by
    cases ht
    rfl
  have hreach : logSystem.Reach t := .step (.of_init rfl) trivial ht
  refine ⟨t, hreach, hlogged, (get_dmesg_reads_back_iff hreach (by decide)).mpr (.inl ?_)⟩
  rw [hlogged]
  decide

/-- When the ring has just been filled nothing is read. -/
theorem full_ring_reads_nothing : ∃ s, logSystem.Reach s ∧ s.2.length = 16384 ∧
    getDmesg s.1 1 = (0, []) ∧ ¬ ReadsBack s.1 s.2 1 := by
  obtain ⟨s, hs, hlen⟩ := exists_letters 64
  have hsize := getDmesg_size (holds_of_reach hs) 1
  rw [hlen] at hsize
  have hzero : (getDmesg s.1 1).1 = 0 := hsize
  have hnone : getDmesg s.1 1 = (0, []) := by
    refine Prod.ext hzero ?_
    rw [getDmesg_bytes (holds_of_reach hs) (by decide), hzero]
    rfl
  refine ⟨s, hs, hlen, hnone, fun hback => ?_⟩
  have hone := hback.size
  rw [hzero, hlen] at hone
  exact absurd hone (by decide)

end Racoon.Dmesg
