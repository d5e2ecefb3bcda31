import Mathlib.Data.List.TakeWhile
import Racoon.Dmesg.Sdmesg

/-!
# When `sdmesg` terminates its text

The buffer holds a terminating zero where the text is shorter than the buffer.
Where the text reaches the end there is none, except behind a negative number
that is cut off: there the position falls back by the sign that was not counted,
and the zero is written over the last character if nothing follows.
-/

namespace Racoon.Dmesg
open Numerals

/-- The converter prints the text that the piece stands for. -/
def Piece.Sound : Piece → Prop
  | .int n => n.toInt ≠ -2 ^ 31
  | .uint n => n.toNat < 2 ^ 31
  | .bin n => n ≠ 0
  | _ => True

/-- The whole text and its zero have room. -/
def FitsWhole (maxLen : ℕ) (ps : List Piece) : Prop :=
  (∀ x ∈ ps, x.Sound) ∧ (expansion ps).length < maxLen

/-- The buffer ends inside a negative number, or right behind it, and nothing is printed
after it. -/
def CutAtSign (maxLen : ℕ) (ps : List Piece) : Prop :=
  ∃ pre n post, ps = pre ++ .int n :: post ∧ (∀ x ∈ pre, x.Sound) ∧ expansion post = [] ∧
    n.toInt < 0 ∧ (expansion pre).length + 2 ≤ maxLen ∧
    maxLen ≤ (expansion pre).length + (Piece.int n).expansion.length ∧
    (n.toInt ≠ -2 ^ 31 ∨ (expansion pre).length + 2 = maxLen)

/-- `sdmesg` writes only its buffer and leaves there, with a zero behind it, the text cut at
`maxLen - 1`; its result is the length of that. -/
def Terminates (mem : Memory) (buffer maxLen : ℕ) (format : List ℤ) (ap : List Arg)
    (text : List ℤ) : Prop :=
  ∃ mem' n flags, sdmesg mem buffer maxLen format ap = .ok (mem', (n : ℕ), flags) ∧
    (∀ i, i < buffer ∨ buffer + maxLen ≤ i → mem' i = mem i) ∧
    n < maxLen ∧ mem' (buffer + n) = 0 ∧ (∀ k < n, mem' (buffer + k) ≠ 0) ∧
    (List.range n).map (fun k => mem' (buffer + k)) = text.take (maxLen - 1)

section Pieces

theorem binText_eq {n : ℕ} (h : n ≠ 0) : binText n = binaryText n := by
  rw [binText, binaryText, numeral, if_neg h, List.reverse_reverse]

theorem Piece.Sound.output_eq {x : Piece} (h : x.Sound) : x.output = x.expansion := by
  cases x with
  | text t => rfl
  | hex n => rfl
  | int n =>
    have h₁ := le_toInt n
    have h₂ := toInt_lt n
    have h : n.toInt ≠ -2 ^ 31 := h
    exact intText_of_lt (by omega)
  | uint n => exact uintText_of_lt h
  | bin n =>
    have h : n ≠ 0 := h
    exact binText_eq fun h0 => h (BitVec.eq_of_toNat_eq h0)

theorem output_eq_of_sound {ps : List Piece} (h : ∀ x ∈ ps, x.Sound) :
    output ps = expansion ps := by
  induction ps with
  | nil => rfl
  | cons x ps ih =>
    rw [output, expansion, List.flatMap_cons, List.flatMap_cons,
      (h x List.mem_cons_self).output_eq, ← output, ← expansion,
      ih fun y hy => h y (List.mem_cons_of_mem x hy)]

/-- A piece that is not sound goes wrong at a character of both texts. -/
theorem Piece.exists_ne {x : Piece} (h : ¬ x.Sound) :
    ∃ j, j < x.output.length ∧ j < x.expansion.length ∧ x.output[j]? ≠ x.expansion[j]? := by
  cases x with
  | text t => exact absurd trivial h
  | hex n => exact absurd trivial h
  | uint n =>
    have hn : 2 ^ 31 ≤ n.toNat := not_lt.mp h
    obtain ⟨c, t, ht, hc⟩ := uintText_of_le hn n.isLt
    obtain ⟨d, l, hl⟩ := List.exists_cons_of_ne_nil (numeral_ne_nil 10 n.toNat)
    refine ⟨0, ?_, ?_, ?_⟩
    · simp [Piece.output, ht]
    · simp [Piece.expansion, printed, hl]
    · have := chr_zero_le_digitChar d
      simp only [Piece.output, ht, Piece.expansion, printed, hl, List.map_cons,
        List.getElem?_cons_zero, ne_eq, Option.some.injEq]
      omega
  | bin n =>
    obtain rfl : n = 0 := not_not.mp h
    exact ⟨0, by decide, by decide, by decide⟩
  | int n =>
    have hn : n.toInt = -2 ^ 31 := not_not.mp h
    refine ⟨1, ?_, ?_, ?_⟩ <;> simp only [Piece.output, Piece.expansion, hn] <;> decide

theorem exists_ne_of_not_sound {ps : List Piece} (h : ¬ ∀ x ∈ ps, x.Sound) :
    ∃ j, j < (output ps).length ∧ j < (expansion ps).length ∧
      (output ps)[j]? ≠ (expansion ps)[j]? := by
  induction ps with
  | nil => exact absurd (by simp) h
  | cons x ps ih =>
    simp only [output, expansion, List.flatMap_cons, List.length_append] at ih ⊢
    by_cases hx : x.Sound
    · obtain ⟨j, h₁, h₂, hne⟩ := ih fun hall => h (by simpa using ⟨hx, hall⟩)
      rw [hx.output_eq]
      refine ⟨x.expansion.length + j, by omega, by omega, ?_⟩
      rw [List.getElem?_append_right (by omega), List.getElem?_append_right (by omega),
        Nat.add_sub_cancel_left]
      exact hne
    · obtain ⟨j, h₁, h₂, hne⟩ := x.exists_ne hx
      refine ⟨j, by omega, by omega, ?_⟩
      rw [List.getElem?_append_left h₁, List.getElem?_append_left h₂]
      exact hne

/-- Texts that agree as far as the pieces in front go show these to be sound. -/
theorem sound_of_take_eq {ps : List Piece} {l l' : List ℤ} {m : ℕ} (hm : (output ps).length ≤ m)
    (h : (output ps ++ l).take m = (expansion ps ++ l').take m) : ∀ x ∈ ps, x.Sound := by
  by_contra hs
  obtain ⟨j, h₁, h₂, hne⟩ := exists_ne_of_not_sound hs
  apply hne
  have hj := congrArg (·[j]?) h
  simp only [List.getElem?_take, if_pos (h₁.trans_le hm)] at hj
  rwa [List.getElem?_append_left h₁, List.getElem?_append_left h₂] at hj

theorem expansion_eq_nil_iff (ps : List Piece) : expansion ps = [] ↔ output ps = [] := by
  simp only [expansion, output, List.flatMap_eq_nil_iff]
  refine forall₂_congr fun x _ => ?_
  cases x with
  | text t => rfl
  | hex n => rfl
  | uint n => simp [Piece.expansion, Piece.output, printed, numeral_ne_nil, uintText_ne_nil]
  | bin n => simp [Piece.expansion, Piece.output, binaryText, binText]
  | int n =>
    simp only [Piece.expansion, Piece.output, signed, intText]
    split <;> simp [printed, numeral_ne_nil, uintText_ne_nil]

end Pieces

section Run

variable {buffer maxLen : ℕ} {s : Memory × ℕ}

theorem output_cons (x : Piece) (ps : List Piece) : output (x :: ps) = x.output ++ output ps :=
  List.flatMap_cons

theorem output_append (ps qs : List Piece) : output (ps ++ qs) = output ps ++ output qs :=
  List.flatMap_append

theorem Piece.Slips.le {x : Piece} {len : ℕ} (h : x.Slips len) :
    2 ≤ len ∧ len ≤ x.output.length := by
  cases x with
  | int n =>
    have h : Dmesg.Slips n.toInt len := h
    unfold Dmesg.Slips at h
    exact ⟨by omega, by simp only [Piece.output]; omega⟩
  | text t => exact absurd h not_false
  | uint n => exact absurd h not_false
  | bin n => exact absurd h not_false
  | hex n => exact absurd h not_false

theorem emit_of_not_slips {x : Piece} (h : ¬ x.Slips (maxLen - s.2)) :
    emit buffer maxLen s x =
      (put s.1 (buffer + s.2) (x.output.take (maxLen - s.2)),
        s.2 + (x.output.take (maxLen - s.2)).length) := by
  unfold emit
  dsimp only
  rw [if_neg h]

variable (buffer) in
/-- Where there is room for all of the text and one more character, all is written. -/
theorem emitAll_of_lt {ps : List Piece} (h : s.2 + (output ps).length < maxLen) :
    emitAll buffer maxLen s ps =
      (put s.1 (buffer + s.2) (output ps), s.2 + (output ps).length) := by
  induction ps generalizing s with
  | nil => rfl
  | cons x ps ih =>
    rw [output_cons, List.length_append] at h
    have hs : ¬ x.Slips (maxLen - s.2) := fun hs => by
      have := hs.le
      omega
    have htake : x.output.take (maxLen - s.2) = x.output := List.take_of_length_le (by omega)
    have hx : emit buffer maxLen s x =
        (put s.1 (buffer + s.2) x.output, s.2 + x.output.length) := by
      rw [emit_of_not_slips hs, htake]
    rw [emitAll, List.foldl_cons, hx, ← emitAll, ih (by dsimp only; omega), output_cons,
      put_append, List.length_append, Nat.add_assoc, Nat.add_assoc]

/-- At the end of the buffer nothing is written any more. -/
theorem emitAll_full (h : s.2 = maxLen) (ps : List Piece) : emitAll buffer maxLen s ps = s := by
  induction ps with
  | nil => rfl
  | cons x ps ih =>
    have hs : ¬ x.Slips (maxLen - s.2) := fun hs => by
      have := hs.le
      omega
    have hx : emit buffer maxLen s x = s := by
      rw [emit_of_not_slips hs, h, Nat.sub_self, List.take_zero]
      exact Prod.ext rfl h.symm
    rw [emitAll, List.foldl_cons, hx, ← emitAll, ih]

/-- With one character of room any text fills the buffer. -/
theorem emitAll_last {ps : List Piece} (h : s.2 + 1 = maxLen) :
    (output ps = [] → emitAll buffer maxLen s ps = s) ∧
    (output ps ≠ [] → (emitAll buffer maxLen s ps).2 = maxLen) := by
  induction ps with
  | nil => exact ⟨fun _ => rfl, fun hne => absurd rfl hne⟩
  | cons x ps ih =>
    have hs : ¬ x.Slips (maxLen - s.2) := fun hs => by
      have := hs.le
      omega
    have h1 : maxLen - s.2 = 1 := by omega
    rw [emitAll, List.foldl_cons, ← emitAll, output_cons]
    by_cases hx : x.output = []
    · have hemit : emit buffer maxLen s x = s := by
        rw [emit_of_not_slips hs, hx, List.take_nil]
        rfl
      rw [hemit, hx, List.nil_append]
      exact ih
    · have hpos := List.length_pos_iff.mpr hx
      have hemit : (emit buffer maxLen s x).2 = maxLen := by
        rw [emit_of_not_slips hs, h1, List.length_take, min_eq_left (by omega), h]
      exact ⟨fun he => absurd (List.append_eq_nil_iff.mp he).1 hx, fun _ => by
        rw [emitAll_full hemit, hemit]⟩

/-- Only cells of the buffer are written. -/
theorem emitAll_outside (h : s.2 ≤ maxLen) (ps : List Piece) {i : ℕ}
    (hi : i < buffer ∨ buffer + maxLen ≤ i) : (emitAll buffer maxLen s ps).1 i = s.1 i := by
  induction ps generalizing s with
  | nil => rfl
  | cons x ps ih =>
    rw [emitAll, List.foldl_cons, ← emitAll, ih (emit_le h x), emit]
    obtain hi | hi := hi
    · exact put_of_lt _ _ (by omega)
    · apply put_of_le
      rw [List.length_take]
      omega

/-- The piece whose text reaches the end of the buffer. -/
theorem exists_crossing {ps : List Piece} {p : ℕ} (hp : p < maxLen)
    (h : maxLen ≤ p + (output ps).length) :
    ∃ pre x post, ps = pre ++ x :: post ∧ p + (output pre).length < maxLen ∧
      maxLen ≤ p + (output pre).length + x.output.length := by
  induction ps generalizing p with
  | nil => exact absurd h (by simpa [output] using hp)
  | cons x ps ih =>
    by_cases hx : maxLen ≤ p + x.output.length
    · exact ⟨[], x, ps, rfl, by simpa [output] using hp, by simpa [output] using hx⟩
    · rw [output_cons, List.length_append] at h
      obtain ⟨pre, y, post, rfl, h₁, h₂⟩ := ih (p := p + x.output.length) (by omega) (by omega)
      refine ⟨x :: pre, y, post, rfl, ?_, ?_⟩ <;> rw [output_cons, List.length_append] <;> omega

/-- The state behind the piece that reaches the end. -/
theorem emitAll_crossing (buffer : ℕ) (mem : Memory) (post : List Piece) {pre : List Piece}
    {x : Piece}
    (h₁ : (output pre).length < maxLen) (h₂ : maxLen ≤ (output pre).length + x.output.length) :
    emitAll buffer maxLen (mem, 0) (pre ++ x :: post) =
      emitAll buffer maxLen (put mem buffer ((output pre ++ x.output).take maxLen),
        if x.Slips (maxLen - (output pre).length) then maxLen - 1 else maxLen) post := by
  have hpre : emitAll buffer maxLen (mem, 0) pre = _ := emitAll_of_lt buffer (by simpa using h₁)
  have htake : (output pre ++ x.output).take maxLen =
      output pre ++ x.output.take (maxLen - (output pre).length) := by
    rw [List.take_append, List.take_of_length_le h₁.le]
  rw [emitAll_append, hpre, emitAll, List.foldl_cons, ← emitAll, emit, htake, put_append]
  dsimp only
  simp only [Nat.add_zero, Nat.zero_add]
  congr 2
  by_cases hs : x.Slips (maxLen - (output pre).length)
  · have := hs.le
    rw [if_pos hs, if_pos hs]
    omega
  · rw [if_neg hs, if_neg hs, List.length_take]
    omega

end Run

theorem digitChar_ne_zero (d : ℕ) : digitChar d ≠ 0 := by
  have := chr_zero_le_digitChar d
  have : chr '0' = 48 := rfl
  omega

theorem ne_zero_of_mem_printed {l : List ℕ} {c : ℤ} (h : c ∈ printed l) : c ≠ 0 := by
  obtain ⟨d, -, rfl⟩ := List.mem_map.mp h
  exact digitChar_ne_zero d

theorem ne_zero_of_mem_blanked {k : ℕ} {l : List ℕ} {c : ℤ} (h : c ∈ blanked k l) : c ≠ 0 := by
  induction l generalizing k with
  | nil => exact absurd h List.not_mem_nil
  | cons d l ih =>
    rw [blanked] at h
    split at h
    · obtain rfl | h := List.mem_cons.mp h
      · exact digitChar_ne_zero d
      · obtain rfl | h := List.mem_cons.mp h
        · decide
        · exact ih h
    · obtain rfl | h := List.mem_cons.mp h
      · exact digitChar_ne_zero d
      · exact ih h

theorem ne_zero_of_mem_word {n : BitVec 32} {x : Piece}
    (hx : x = .int n ∨ x = .uint n ∨ x = .bin n ∨ x = .hex n) {c : ℤ} (h : c ∈ x.expansion) :
    c ≠ 0 := by
  obtain rfl | rfl | rfl | rfl := hx
  · simp only [Piece.expansion, signed] at h
    split at h
    · obtain rfl | h := List.mem_cons.mp h
      · decide
      · exact ne_zero_of_mem_printed h
    · exact ne_zero_of_mem_printed h
  · exact ne_zero_of_mem_printed h
  · obtain h | h := List.mem_append.mp h
    · exact ne_zero_of_mem_blanked (List.mem_reverse.mp h)
    · rw [List.mem_singleton.mp h]
      decide
  · obtain rfl | h := List.mem_cons.mp h
    · decide
    · obtain rfl | h := List.mem_cons.mp h
      · decide
      · exact ne_zero_of_mem_printed h

theorem ne_zero_of_mem_stringText {s : Option (List ℤ)} {c : ℤ} (h : c ∈ stringText s) :
    c ≠ 0 := by
  cases s with
  | none =>
    have hall : ∀ c ∈ nullText, c ≠ 0 := by decide
    exact hall c h
  | some str => simpa using List.mem_takeWhile_imp h

theorem ne_zero_of_mem_pieceOf {c : ℤ} {ap : List Arg} {r : List Piece × List Arg}
    (h : pieceOf c ap = some r) : ∀ d ∈ expansion r.1, d ≠ 0 := by
  have hword : ∀ {f : BitVec 32 → Piece}, wordPiece f ap = some r →
      (∀ n, f n = .int n ∨ f n = .uint n ∨ f n = .bin n ∨ f n = .hex n) →
      ∀ d ∈ expansion r.1, d ≠ 0 := by
    intro f hf hkind d hd
    obtain ⟨n, -, hr⟩ := wordPiece_eq_some hf
    rw [hr, expansion, List.flatMap_singleton] at hd
    exact ne_zero_of_mem_word (hkind n) hd
  unfold pieceOf at h
  by_cases hs : c = chr 's'
  · rw [if_pos hs] at h
    obtain ⟨s, -, hr⟩ := stringPiece_eq_some h
    intro d hd
    rw [hr, expansion, List.flatMap_singleton] at hd
    exact ne_zero_of_mem_stringText hd
  rw [if_neg hs] at h
  by_cases hi : c = chr 'i'
  · rw [if_pos hi] at h
    exact hword h (by simp)
  rw [if_neg hi] at h
  by_cases hu : c = chr 'u'
  · rw [if_pos hu] at h
    exact hword h (by simp)
  rw [if_neg hu] at h
  by_cases hb : c = chr 'b'
  · rw [if_pos hb] at h
    exact hword h (by simp)
  rw [if_neg hb] at h
  by_cases hx : c = chr 'x' ∨ c = chr 'p'
  · rw [if_pos hx] at h
    exact hword h (by simp)
  rw [if_neg hx, Option.some.injEq] at h
  simp [← h, expansion]

/-- No character of the text is a zero. -/
theorem ne_zero_of_mem_expansion {modifier : Bool} {format : List ℤ} {ap : List Arg}
    {ps : List Piece} (h : pieces modifier format ap = some ps) : ∀ d ∈ expansion ps, d ≠ 0 := by
  induction format generalizing modifier ap ps with
  | nil =>
    rw [pieces, Option.some.injEq] at h
    simp [← h, expansion]
  | cons c format ih =>
    rw [pieces] at h
    by_cases hc : c = 0
    · rw [if_pos hc, Option.some.injEq] at h
      simp [← h, expansion]
    rw [if_neg hc] at h
    cases modifier with
    | true =>
      rw [if_pos rfl] at h
      obtain ⟨r, hr, h⟩ := Option.bind_eq_some_iff.mp h
      obtain ⟨ps', hps', rfl⟩ := Option.map_eq_some_iff.mp h
      intro d hd
      rw [expansion, List.flatMap_append] at hd
      obtain hd | hd := List.mem_append.mp hd
      · exact ne_zero_of_mem_pieceOf hr d hd
      · exact ih hps' d hd
    | false =>
      rw [if_neg Bool.false_ne_true] at h
      by_cases hpc : c = chr '%'
      · rw [if_pos hpc] at h
        exact ih h
      · rw [if_neg hpc] at h
        obtain ⟨ps', hps', rfl⟩ := Option.map_eq_some_iff.mp h
        intro d hd
        rw [expansion, List.flatMap_cons] at hd
        obtain hd | hd := List.mem_append.mp hd
        · rw [List.mem_singleton.mp hd]
          exact hc
        · exact ih hps' d hd

section Claim

variable {mem : Memory} {buffer maxLen : ℕ} {format : List ℤ} {ap : List Arg} {ps : List Piece}
  (hp : pieces false format ap = some ps)
include hp

variable (mem buffer maxLen) in
theorem sdmesg_eq :
    ∃ flags, sdmesg mem buffer maxLen format ap =
      .ok (if (emitAll buffer maxLen (mem, 0) ps).2 < maxLen then
          Function.update (emitAll buffer maxLen (mem, 0) ps).1
            (buffer + (emitAll buffer maxLen (mem, 0) ps).2) 0
        else (emitAll buffer maxLen (mem, 0) ps).1,
        ((emitAll buffer maxLen (mem, 0) ps).2 : ℕ), flags) := by
  obtain ⟨ap', flags, h⟩ : ∃ ap' flags,
      sdmesgLoop buffer maxLen false format ⟨mem, (0 : ℕ), ap, 0⟩ =
      .ok (behind buffer maxLen mem 0 ap' flags ps) := sdmesgLoop_eq hp (Nat.zero_le maxLen)
  refine ⟨flags, ?_⟩
  rw [Nat.cast_zero] at h
  rw [sdmesg, h, ok_bind, behind]
  dsimp only
  have hbuf (q : ℕ) : ((buffer : ℤ) + (q : ℤ)).toNat = buffer + q := by omega
  rw [hbuf]
  simp only [Nat.cast_lt]

/-- A full buffer has no room for the zero. -/
theorem not_terminates_of_full (h : (emitAll buffer maxLen (mem, 0) ps).2 = maxLen)
    (text : List ℤ) :
    ¬ Terminates mem buffer maxLen format ap text := by
  rintro ⟨mem', n, flags', hok, -, hn, -⟩
  obtain ⟨flags, hr⟩ := sdmesg_eq mem buffer maxLen hp
  rw [hr] at hok
  simp only [Except.ok.injEq, Prod.mk.injEq, Nat.cast_inj] at hok
  omega

theorem terminates_iff {l : List ℤ} {n : ℕ}
    (h : emitAll buffer maxLen (mem, 0) ps = (put mem buffer l, n)) (hn : n < maxLen)
    (hl : n ≤ l.length) :
    Terminates mem buffer maxLen format ap (expansion ps) ↔
      l.take n = (expansion ps).take (maxLen - 1) := by
  have hne := ne_zero_of_mem_expansion hp
  obtain ⟨flags, hr⟩ := sdmesg_eq mem buffer maxLen hp
  rw [h] at hr
  dsimp only at hr
  rw [if_pos hn] at hr
  have hread : (List.range n).map (fun k =>
      Function.update (put mem buffer l) (buffer + n) 0 (buffer + k)) = l.take n := by
    apply List.ext_getElem
    · rw [List.length_map, List.length_range, List.length_take, min_eq_left hl]
    · intro k hk _
      have hk : k < n := by simpa using hk
      rw [List.getElem_map, List.getElem_range, List.getElem_take,
        Function.update_of_ne (by omega), put_getElem mem buffer (by omega)]
  constructor
  · rintro ⟨mem', n', flags', hok, -, -, -, -, ht⟩
    rw [hr] at hok
    simp only [Except.ok.injEq, Prod.mk.injEq, Nat.cast_inj] at hok
    obtain ⟨rfl, rfl, -⟩ := hok
    rw [← hread, ht]
  · intro ht
    refine ⟨_, n, flags, hr, ?_, hn, Function.update_self _ _ _, ?_, by rw [hread, ht]⟩
    · intro i hi
      have hout := emitAll_outside (s := (mem, 0)) (Nat.zero_le maxLen) ps hi
      rw [h] at hout
      rw [Function.update_of_ne (by omega)]
      exact hout
    · intro k hk
      have hmem := List.mem_map_of_mem (f := fun k =>
        Function.update (put mem buffer l) (buffer + n) 0 (buffer + k)) (List.mem_range.mpr hk)
      rw [hread, ht] at hmem
      exact hne _ (List.mem_of_mem_take hmem)

/-- The text leaves room for its zero. -/
theorem terminates_of_short (h : (output ps).length < maxLen) :
    Terminates mem buffer maxLen format ap (expansion ps) ↔ FitsWhole maxLen ps := by
  have hrun : emitAll buffer maxLen (mem, 0) ps = _ := emitAll_of_lt buffer (by simpa using h)
  simp only [Nat.add_zero, Nat.zero_add] at hrun
  rw [terminates_iff hp hrun h le_rfl, List.take_length]
  constructor
  · intro heq
    have hs : ∀ x ∈ ps, x.Sound := by
      have htake : (output ps ++ []).take (maxLen - 1) =
          (expansion ps ++ []).take (maxLen - 1) := by
        rw [List.append_nil, List.append_nil, ← heq, List.take_of_length_le (by omega)]
      exact sound_of_take_eq (by omega) htake
    exact ⟨hs, by rwa [← output_eq_of_sound hs]⟩
  · rintro ⟨hs, hlt⟩
    rw [output_eq_of_sound hs, List.take_of_length_le (by omega)]

end Claim

theorem length_int_output (n : BitVec 32) :
    (Piece.int n).output.length = (Piece.int n).expansion.length := by
  have h₁ := le_toInt n
  have h₂ := toInt_lt n
  exact length_intText (by omega)

/-- The room ends inside a negative number or right behind it, and nothing follows. -/
theorem terminates_of_slip {mem : Memory} {buffer maxLen : ℕ} {format : List ℤ} {ap : List Arg}
    {pre post : List Piece} {n : BitVec 32}
    (hp : pieces false format ap = some (pre ++ .int n :: post))
    (h₁ : (output pre).length < maxLen)
    (hs : (Piece.int n).Slips (maxLen - (output pre).length)) (hpost : output post = []) :
    Terminates mem buffer maxLen format ap (expansion (pre ++ .int n :: post)) ↔
      (∀ x ∈ pre, x.Sound) ∧ (n.toInt ≠ -2 ^ 31 ∨ (output pre).length + 2 = maxLen) := by
  have hle := hs.le
  have hneg : n.toInt < 0 := hs.1
  have hrun := emitAll_crossing buffer mem post h₁
    (x := .int n) (by omega)
  rw [if_pos hs, (emitAll_last (by dsimp only; omega)).1 hpost] at hrun
  have hexp : expansion (pre ++ .int n :: post) = expansion pre ++ (Piece.int n).expansion := by
    rw [expansion, List.flatMap_append, List.flatMap_cons, ← expansion, ← expansion,
      (expansion_eq_nil_iff post).mpr hpost, List.append_nil]
  rw [terminates_iff hp hrun (by omega) (by
    rw [List.length_take, List.length_append]
    omega), List.take_take, min_eq_left (by omega), hexp]
  constructor
  · intro heq
    have hsound := sound_of_take_eq (by omega) heq
    refine ⟨hsound, ?_⟩
    by_contra hc
    obtain ⟨hmin, hroom⟩ := not_or.mp hc
    have hmin : n.toInt = -2 ^ 31 := not_not.mp hmin
    -- the first digit behind the sign is printed, and it is wrong
    have hj := congrArg (·[(output pre).length + 1]?) heq
    have hlt : (output pre).length + 1 < maxLen - 1 := by omega
    simp only [List.getElem?_take, if_pos hlt] at hj
    rw [← output_eq_of_sound hsound, List.getElem?_append_right (by omega),
      List.getElem?_append_right (by omega), Nat.add_sub_cancel_left] at hj
    simp only [Piece.output, Piece.expansion, hmin] at hj
    exact absurd hj (by decide)
  · rintro ⟨hsound, hc⟩
    rw [output_eq_of_sound hsound] at hc hle ⊢
    obtain hmin | hroom := hc
    · have hn : (Piece.int n).Sound := hmin
      rw [hn.output_eq]
    · have hm : maxLen - 1 = (expansion pre).length + 1 := by omega
      rw [hm, List.take_length_add_append, List.take_length_add_append]
      simp only [Piece.output, Piece.expansion, intText, signed, if_pos hneg, List.take_succ_cons,
        List.take_zero]

/-- Exactly when `sdmesg` leaves a terminated text that is the expansion cut to its room. -/
theorem sdmesg_terminates_iff (mem : Memory) (buffer maxLen : ℕ) (format : List ℤ)
    (ap : List Arg) (ps : List Piece) (hp : pieces false format ap = some ps)
    (h : 1 ≤ maxLen) :
    Terminates mem buffer maxLen format ap (expansion ps) ↔
      FitsWhole maxLen ps ∨ CutAtSign maxLen ps := by
  by_cases hlt : (output ps).length < maxLen
  · rw [terminates_of_short hp hlt]
    refine ⟨Or.inl, ?_⟩
    rintro (hfit | ⟨pre, n, post, rfl, hsound, -, -, -, hle, -⟩)
    · exact hfit
    · rw [output_append, output_cons, List.length_append, List.length_append,
        output_eq_of_sound hsound, length_int_output] at hlt
      omega
  constructor
  · intro hterm
    right
    have hge : maxLen ≤ 0 + (output ps).length := by omega
    obtain ⟨pre, x, post, rfl, h₁, h₂⟩ := exists_crossing h hge
    rw [Nat.zero_add] at h₁ h₂
    have hrun := emitAll_crossing buffer mem post h₁ h₂
    have hslip : x.Slips (maxLen - (output pre).length) := by
      by_contra hs
      rw [if_neg hs] at hrun
      refine not_terminates_of_full hp ?_ _ hterm
      rw [hrun]
      exact congrArg Prod.snd (emitAll_full (by rfl) post)
    have hle := hslip.le
    have hpost : output post = [] := by
      by_contra hne
      rw [if_pos hslip] at hrun
      refine not_terminates_of_full hp ?_ _ hterm
      rw [hrun]
      exact (emitAll_last (by dsimp only; omega)).2 hne
    cases x with
    | int n =>
      obtain ⟨hsound, hc⟩ := (terminates_of_slip hp h₁ hslip hpost).mp hterm
      rw [output_eq_of_sound hsound] at hc hle
      rw [length_int_output] at hle
      exact ⟨pre, n, post, rfl, hsound, (expansion_eq_nil_iff post).mpr hpost, hslip.1,
        by omega, by omega, hc⟩
    | text t => exact absurd hslip not_false
    | uint n => exact absurd hslip not_false
    | bin n => exact absurd hslip not_false
    | hex n => exact absurd hslip not_false
  · rintro (⟨hsound, hfit⟩ | ⟨pre, n, post, rfl, hsound, hpost, hneg, hroom, hle, hc⟩)
    · rw [output_eq_of_sound hsound] at hlt
      exact absurd hfit hlt
    · rw [← output_eq_of_sound hsound] at hroom hle hc
      have hslip : (Piece.int n).Slips (maxLen - (output pre).length) := by
        rw [← length_int_output] at hle
        refine ⟨hneg, by omega, ?_⟩
        simp only [Piece.output] at hle
        omega
      exact (terminates_of_slip hp (by omega) hslip ((expansion_eq_nil_iff post).mp hpost)).mpr
        ⟨hsound, hc⟩

/-- A number in an ample buffer. -/
theorem number_terminates : Terminates (fun _ => 1) 0 8 [chr '%', chr 'i'] [.word 7]
    (expansion [.int 7]) :=
  (sdmesg_terminates_iff (fun _ => 1) 0 8 [chr '%', chr 'i'] [.word 7] [.int 7] (by rfl)
    (by norm_num)).mpr (Or.inl ⟨by
      intro x hx
      rw [List.mem_singleton.mp hx]
      exact (by decide : (7 : BitVec 32).toInt ≠ -2 ^ 31), by decide⟩)

/-- Two characters in a buffer of two leave no zero. -/
theorem two_characters_not_terminated :
    ¬ Terminates (fun _ => 1) 0 2 [chr 'o', chr 'k'] [] [chr 'o', chr 'k'] := by
  have hp : pieces false [chr 'o', chr 'k'] [] = some [.text [chr 'o'], .text [chr 'k']] := rfl
  exact not_terminates_of_full hp rfl _

end Racoon.Dmesg
