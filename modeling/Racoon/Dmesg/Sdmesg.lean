import Racoon.Dmesg.Numbers

/-!
# The formatter `sdmesg`

The loop of `sdmesg` over a format and its arguments, what a format is expanded
to, and what the loop leaves in its buffer. A format is a list of pieces, each
with the text that it should print and the text that its converter prints.
-/

namespace Racoon.Dmesg
open Numerals

/-- An argument of the list: a pointer to a string, or a word. -/
inductive Arg
  | string (s : Option (List ℤ))
  | word (n : BitVec 32)
  deriving DecidableEq, Repr

def vaString : List Arg → Outcome (Option (List ℤ) × List Arg)
  | .string s :: ap => .ok (s, ap)
  | _ => .error .badAccess

def vaWord : List Arg → Outcome (BitVec 32 × List Arg)
  | .word n :: ap => .ok (n, ap)
  | _ => .error .badAccess

/-- The variables of `sdmesg` that its loop changes. -/
structure Cursor where
  mem : Memory
  position : ℤ
  ap : List Arg
  flags : ℕ

/-- `position += converter( tmpBuf, len, .. )`. -/
def Cursor.advance (s : Cursor) (r : Memory × ℤ) : Cursor :=
  { s with mem := r.1, position := s.position + r.2 }

/-- The `switch` after a `%`. -/
def sdmesgSwitch (buffer : ℕ) (maxLen : ℤ) (letter : ℤ) (s : Cursor) : Outcome Cursor :=
  let len := maxLen - s.position
  let tmpBuf := (buffer + s.position).toNat
  if letter = chr '!' then .ok { s with flags := s.flags ||| 1 }
  else if letter = chr 's' then do
    let (string, ap) ← vaString s.ap
    .ok ({ s with ap := ap }.advance (dmesgString s.mem tmpBuf len string))
  else if letter = chr 'i' then do
    let (number, ap) ← vaWord s.ap
    let r ← dmesgInt s.mem tmpBuf len number.toInt
    .ok ({ s with ap := ap }.advance r)
  else if letter = chr 'u' then do
    let (number, ap) ← vaWord s.ap
    let r ← dmesgUint s.mem tmpBuf len number.toNat
    .ok ({ s with ap := ap }.advance r)
  else if letter = chr 'b' then do
    let (number, ap) ← vaWord s.ap
    let r ← dmesgBin s.mem tmpBuf len number.toNat
    .ok ({ s with ap := ap }.advance r)
  else if letter = chr 'x' then do
    let (number, ap) ← vaWord s.ap
    let r ← dmesgHex s.mem tmpBuf len number.toNat
    .ok ({ s with ap := ap }.advance r)
  else if letter = chr 'p' then do
    let (ptr, ap) ← vaWord s.ap
    let r ← dmesgPtr s.mem tmpBuf len ptr.toNat
    .ok ({ s with ap := ap }.advance r)
  else .ok s

/-- The loop over the format; `modifier` is set behind a `%`. -/
def sdmesgLoop (buffer : ℕ) (maxLen : ℤ) : Bool → List ℤ → Cursor → Outcome Cursor
  | _, [], s => .ok s
  | modifier, letter :: format, s =>
    if letter = 0 then .ok s
    else if modifier then do
      let s ← sdmesgSwitch buffer maxLen letter s
      sdmesgLoop buffer maxLen false format s
    else if letter = chr '%' then sdmesgLoop buffer maxLen true format s
    else
      let tmpBuf := (buffer + s.position).toNat
      let r := dmesgString s.mem tmpBuf (maxLen - s.position) (some [letter])
      sdmesgLoop buffer maxLen false format (s.advance r)

/-- `sdmesg`: the memory it leaves, its result and the flags. -/
def sdmesg (mem : Memory) (buffer : ℕ) (maxLen : ℤ) (format : List ℤ) (ap : List Arg) :
    Outcome (Memory × ℤ × ℕ) := do
  let s ← sdmesgLoop buffer maxLen false format ⟨mem, 0, ap, 0⟩
  let mem := if s.position < maxLen then
      Function.update s.mem (buffer + s.position).toNat 0 else s.mem
  .ok (mem, s.position, s.flags)

inductive Piece
  | text (t : List ℤ)
  | int (n : BitVec 32)
  | uint (n : BitVec 32)
  | bin (n : BitVec 32)
  | hex (n : BitVec 32)

def stringPiece : List Arg → Option (List Piece × List Arg)
  | .string s :: ap => some ([.text (stringText s)], ap)
  | _ => none

def wordPiece (f : BitVec 32 → Piece) : List Arg → Option (List Piece × List Arg)
  | .word n :: ap => some ([f n], ap)
  | _ => none

/-- The piece of a letter behind a `%`, if it has one, and the arguments behind it. -/
def pieceOf (c : ℤ) (ap : List Arg) : Option (List Piece × List Arg) :=
  if c = chr 's' then stringPiece ap
  else if c = chr 'i' then wordPiece .int ap
  else if c = chr 'u' then wordPiece .uint ap
  else if c = chr 'b' then wordPiece .bin ap
  else if c = chr 'x' ∨ c = chr 'p' then wordPiece .hex ap
  else some ([], ap)

/-- The pieces of a format with its arguments; none where they do not match. -/
def pieces : Bool → List ℤ → List Arg → Option (List Piece)
  | _, [], _ => some []
  | modifier, c :: format, ap =>
    if c = 0 then some []
    else if modifier then
      (pieceOf c ap).bind fun r => (pieces false format r.2).map (r.1 ++ ·)
    else if c = chr '%' then pieces true format ap
    else (pieces false format ap).map (.text [c] :: ·)

/-- The binary digits with a blank before each eighth from the end, and `b`. -/
def binaryText (n : ℕ) : List ℤ := (blanked 0 (numeral 2 n).reverse).reverse ++ [chr 'b']

/-- The text that a piece stands for. -/
def Piece.expansion : Piece → List ℤ
  | .text t => t
  | .int n => signed n.toInt (numeral 10 n.toInt.natAbs)
  | .uint n => printed (numeral 10 n.toNat)
  | .bin n => binaryText n.toNat
  | .hex n => chr '0' :: chr 'x' :: printed (numeral 16 n.toNat)

def expansion (ps : List Piece) : List ℤ := ps.flatMap Piece.expansion

/-- The text that the converter of a piece prints where there is room for it. -/
def Piece.output : Piece → List ℤ
  | .text t => t
  | .int n => intText n.toInt
  | .uint n => uintText n.toNat
  | .bin n => binText n.toNat
  | .hex n => hexText n.toNat

def output (ps : List Piece) : List ℤ := ps.flatMap Piece.output

def Piece.Slips : Piece → ℕ → Prop
  | .int n, len => Dmesg.Slips n.toInt len
  | _, _ => False

instance : ∀ (p : Piece) (len : ℕ), Decidable (p.Slips len)
  | .int n, len => inferInstanceAs (Decidable (Dmesg.Slips n.toInt len))
  | .text _, _ | .uint _, _ | .bin _, _ | .hex _, _ => inferInstanceAs (Decidable False)

/-- What the converter of a piece writes and where it leaves the position. -/
def emit (buffer maxLen : ℕ) (s : Memory × ℕ) (p : Piece) : Memory × ℕ :=
  let t := p.output.take (maxLen - s.2)
  (put s.1 (buffer + s.2) t, s.2 + if p.Slips (maxLen - s.2) then maxLen - s.2 - 1 else t.length)

def emitAll (buffer maxLen : ℕ) (s : Memory × ℕ) (ps : List Piece) : Memory × ℕ :=
  ps.foldl (emit buffer maxLen) s

theorem emit_le {buffer maxLen : ℕ} {s : Memory × ℕ} (h : s.2 ≤ maxLen) (p : Piece) :
    (emit buffer maxLen s p).2 ≤ maxLen := by
  unfold emit
  dsimp only
  split
  · omega
  · rw [List.length_take]
    omega

theorem le_toInt (n : BitVec 32) : -2 ^ 31 ≤ n.toInt := by
  have := n.le_toInt
  norm_num at this ⊢
  omega

theorem toInt_lt (n : BitVec 32) : n.toInt < 2 ^ 31 := by
  have := n.toInt_lt
  norm_num at this ⊢
  omega

section Loop

variable {buffer maxLen : ℕ} {mem : Memory} {p : ℕ} {ap ap' : List Arg} {flags : ℕ}

/-- The cursor behind some pieces. -/
def behind (buffer maxLen : ℕ) (mem : Memory) (p : ℕ) (ap : List Arg) (flags : ℕ)
    (ps : List Piece) : Cursor :=
  ⟨(emitAll buffer maxLen (mem, p) ps).1, (emitAll buffer maxLen (mem, p) ps).2, ap, flags⟩

theorem advance_copyDigits (h : p ≤ maxLen) {x : Piece} (hs : ¬ x.Slips (maxLen - p)) :
    (Cursor.mk mem p ap flags).advance
      (copyDigits mem (buffer + p) ((maxLen : ℤ) - p) 0 x.output) =
      behind buffer maxLen mem p ap flags [x] := by
  have hl : ((maxLen : ℤ) - p).toNat = maxLen - p := by omega
  rw [copyDigits_eq (by omega) (by simp; omega), hl, behind, emitAll, List.foldl_cons,
    List.foldl_nil, emit, Cursor.advance]
  dsimp only
  rw [if_neg hs, Nat.sub_zero, Nat.add_zero, Nat.zero_add]
  push_cast
  rfl

theorem advance_dmesgInt (h : p ≤ maxLen) (n : BitVec 32) :
    (do let r ← dmesgInt mem (buffer + p) ((maxLen : ℤ) - p) n.toInt
        .ok ((Cursor.mk mem p ap flags).advance r)) =
      (.ok (behind buffer maxLen mem p ap flags [.int n]) : Outcome Cursor) := by
  have hl : ((maxLen : ℤ) - p).toNat = maxLen - p := by omega
  have hc : ((maxLen - p : ℕ) : ℤ) = (maxLen : ℤ) - p := by omega
  rw [dmesgInt_eq (le_toInt n) (toInt_lt n) (by omega), ok_bind, hl, behind, emitAll,
    List.foldl_cons, List.foldl_nil, emit, Cursor.advance]
  dsimp only
  by_cases hs : Slips n.toInt ((maxLen : ℤ) - p)
  · have hp : Piece.Slips (.int n) (maxLen - p) := by rwa [Piece.Slips, hc]
    have := hs.2.1
    rw [if_pos hs, if_pos hp]
    congr 2
    push_cast
    omega
  · have hp : ¬ Piece.Slips (.int n) (maxLen - p) := by rwa [Piece.Slips, hc]
    rw [if_neg hs, if_neg hp]
    push_cast
    rfl

theorem wordPiece_eq_some {f : BitVec 32 → Piece} {r : List Piece × List Arg}
    (h : wordPiece f ap = some r) : ∃ n, ap = .word n :: r.2 ∧ r.1 = [f n] := by
  cases ap with
  | nil => exact absurd h (by simp [wordPiece])
  | cons a ap =>
    cases a with
    | string s => exact absurd h (by simp [wordPiece])
    | word n =>
      obtain rfl := Option.some.inj h
      exact ⟨n, rfl, rfl⟩

theorem stringPiece_eq_some {r : List Piece × List Arg} (h : stringPiece ap = some r) :
    ∃ s, ap = .string s :: r.2 ∧ r.1 = [.text (stringText s)] := by
  cases ap with
  | nil => exact absurd h (by simp [stringPiece])
  | cons a ap =>
    cases a with
    | word n => exact absurd h (by simp [stringPiece])
    | string s =>
      obtain rfl := Option.some.inj h
      exact ⟨s, rfl, rfl⟩

theorem sdmesgSwitch_eq (h : p ≤ maxLen) {c : ℤ} {r : List Piece × List Arg}
    (hr : pieceOf c ap = some r) :
    ∃ flags', sdmesgSwitch buffer maxLen c ⟨mem, p, ap, flags⟩ =
      .ok (behind buffer maxLen mem p r.2 flags' r.1) := by
  have hbuf : ((buffer : ℤ) + (p : ℤ)).toNat = buffer + p := by omega
  unfold pieceOf at hr
  unfold sdmesgSwitch
  dsimp only
  rw [hbuf]
  by_cases hbang : c = chr '!'
  · subst hbang
    rw [if_neg (by decide), if_neg (by decide), if_neg (by decide), if_neg (by decide),
      if_neg (by decide), Option.some.injEq] at hr
    subst hr
    exact ⟨flags ||| 1, by rw [if_pos rfl]; rfl⟩
  rw [if_neg hbang]
  refine ⟨flags, ?_⟩
  by_cases hs : c = chr 's'
  · rw [if_pos hs] at hr ⊢
    obtain ⟨s, rfl, h1⟩ := stringPiece_eq_some hr
    rw [vaString, ok_bind, dmesgString_eq, h1]
    exact congrArg Except.ok (advance_copyDigits h (x := .text (stringText s)) not_false)
  rw [if_neg hs] at hr ⊢
  by_cases hi : c = chr 'i'
  · rw [if_pos hi] at hr ⊢
    obtain ⟨n, rfl, h1⟩ := wordPiece_eq_some hr
    rw [vaWord, ok_bind, h1]
    exact advance_dmesgInt h n
  rw [if_neg hi] at hr ⊢
  by_cases hu : c = chr 'u'
  · rw [if_pos hu] at hr ⊢
    obtain ⟨n, rfl, h1⟩ := wordPiece_eq_some hr
    rw [vaWord, ok_bind, h1, dmesgUint_eq n.isLt, ok_bind]
    exact congrArg Except.ok (advance_copyDigits h (x := .uint n) not_false)
  rw [if_neg hu] at hr ⊢
  by_cases hb : c = chr 'b'
  · rw [if_pos hb] at hr ⊢
    obtain ⟨n, rfl, h1⟩ := wordPiece_eq_some hr
    rw [vaWord, ok_bind, h1, dmesgBin_eq n.isLt, ok_bind]
    exact congrArg Except.ok (advance_copyDigits h (x := .bin n) not_false)
  rw [if_neg hb] at hr ⊢
  by_cases hx : c = chr 'x'
  · rw [if_pos (Or.inl hx)] at hr
    rw [if_pos hx]
    obtain ⟨n, rfl, h1⟩ := wordPiece_eq_some hr
    rw [vaWord, ok_bind, h1, dmesgHex_eq n.isLt, ok_bind]
    exact congrArg Except.ok (advance_copyDigits h (x := .hex n) not_false)
  rw [if_neg hx]
  by_cases hptr : c = chr 'p'
  · rw [if_pos (Or.inr hptr)] at hr
    rw [if_pos hptr]
    obtain ⟨n, rfl, h1⟩ := wordPiece_eq_some hr
    rw [vaWord, ok_bind, h1, dmesgPtr, assert_of le_rfl, ok_bind, dmesgHex_eq n.isLt, ok_bind]
    exact congrArg Except.ok (advance_copyDigits h (x := .hex n) not_false)
  rw [if_neg hptr]
  rw [if_neg (not_or.mpr ⟨hx, hptr⟩), Option.some.injEq] at hr
  subst hr
  rfl

theorem emitAll_le {s : Memory × ℕ} (h : s.2 ≤ maxLen) (ps : List Piece) :
    (emitAll buffer maxLen s ps).2 ≤ maxLen := by
  induction ps generalizing s with
  | nil => exact h
  | cons x ps ih => exact ih (emit_le h x)

theorem emitAll_append (s : Memory × ℕ) (ps qs : List Piece) :
    emitAll buffer maxLen s (ps ++ qs) = emitAll buffer maxLen (emitAll buffer maxLen s ps) qs :=
  List.foldl_append

theorem behind_append (ps qs : List Piece) :
    behind buffer maxLen mem p ap flags (ps ++ qs) =
      behind buffer maxLen (emitAll buffer maxLen (mem, p) ps).1
        (emitAll buffer maxLen (mem, p) ps).2 ap flags qs := by
  rw [behind, behind, emitAll_append]

/-- The loop runs the converters of the pieces one after the other. -/
theorem sdmesgLoop_eq {modifier : Bool} {format : List ℤ} {ps : List Piece}
    (hp : pieces modifier format ap = some ps) (h : p ≤ maxLen) :
    ∃ ap' flags', sdmesgLoop buffer maxLen modifier format ⟨mem, p, ap, flags⟩ =
      .ok (behind buffer maxLen mem p ap' flags' ps) := by
  induction format generalizing modifier ap ps mem p flags with
  | nil =>
    rw [pieces, Option.some.injEq] at hp
    exact ⟨ap, flags, by rw [← hp]; rfl⟩
  | cons c format ih =>
    rw [pieces] at hp
    rw [sdmesgLoop]
    by_cases hc : c = 0
    · rw [if_pos hc, Option.some.injEq] at hp
      exact ⟨ap, flags, by rw [if_pos hc, ← hp]; rfl⟩
    rw [if_neg hc] at hp ⊢
    cases modifier with
    | true =>
      rw [if_pos rfl] at hp ⊢
      obtain ⟨r, hr, hp⟩ := Option.bind_eq_some_iff.mp hp
      obtain ⟨ps', hps', rfl⟩ := Option.map_eq_some_iff.mp hp
      obtain ⟨flags', hsw⟩ : ∃ flags', sdmesgSwitch buffer maxLen c ⟨mem, p, ap, flags⟩ =
          .ok (behind buffer maxLen mem p r.2 flags' r.1) := sdmesgSwitch_eq h hr
      rw [hsw, ok_bind]
      simp only [behind_append]
      exact ih hps' (emitAll_le h r.1)
    | false =>
      rw [if_neg Bool.false_ne_true] at hp ⊢
      by_cases hpc : c = chr '%'
      · rw [if_pos hpc] at hp ⊢
        exact ih hp h
      · rw [if_neg hpc] at hp ⊢
        obtain ⟨ps', hps', rfl⟩ := Option.map_eq_some_iff.mp hp
        have hbuf : ((buffer : ℤ) + (p : ℤ)).toNat = buffer + p := by omega
        have htext : stringText (some [c]) = Piece.output (.text [c]) := by
          simp [stringText, Piece.output, hc]
        dsimp only
        rw [hbuf, dmesgString_eq, htext, advance_copyDigits h (x := .text [c]) not_false]
        exact ih hps' (emitAll_le h [.text [c]])

end Loop

end Racoon.Dmesg
