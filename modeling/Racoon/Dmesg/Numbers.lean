import Racoon.Dmesg.Converters

/-!
# Printed numbers read back

What each converter of `dmesg.c` prints is compared with the shortest numeral of
its argument. `dmesg_uint` keeps its number in an `int`, `dmesg_int` forgets its
sign where the text reaches the end of the room, and `dmesg_bin` has no digit
for zero.
-/

namespace Racoon.Dmesg
open Numerals

/-- The call prints the first `len` characters of the text and says how many. -/
def Prints (call : Memory → ℕ → Outcome (Memory × ℤ)) (len : ℤ) (text : List ℤ) : Prop :=
  ∀ mem buffer, call mem buffer =
    .ok (put mem buffer (text.take len.toNat), ((text.take len.toNat).length : ℕ))

def digitOf (c : ℤ) : ℕ := if c < chr 'A' then (c - chr '0').toNat else (c - chr 'A' + 10).toNat

def readDigits (b : ℕ) (text : List ℤ) : ℕ := valueOf b (text.map digitOf)

def readSigned : List ℤ → ℤ
  | [] => 0
  | c :: text => if c = chr '-' then -readDigits 10 text else readDigits 10 (c :: text)

/-- The text after `0x`. -/
def readHex (text : List ℤ) : ℕ := readDigits 16 (text.drop 2)

def withoutBlanks (text : List ℤ) : List ℤ := text.filter (· ≠ chr ' ')

/-- The text before `b`, without its blanks. -/
def readBinary (text : List ℤ) : ℕ := readDigits 2 (withoutBlanks text).dropLast

def printed (l : List ℕ) : List ℤ := l.map digitChar

def signed (n : ℤ) (l : List ℕ) : List ℤ := if n < 0 then chr '-' :: printed l else printed l

theorem digitOf_digitChar {d : ℕ} (h : d < 16) : digitOf (digitChar d) = d := by
  interval_cases d <;> decide

theorem readDigits_printed {b n : ℕ} (hb : b ≤ 16) {l : List ℕ} (h : IsNumeral b n l) :
    readDigits b (printed l) = n := by
  have : (printed l).map digitOf = l := by
    rw [printed, List.map_map]
    conv_rhs => rw [← List.map_id l]
    apply List.map_congr_left
    exact fun d hd => digitOf_digitChar ((h.digits d hd).trans_le hb)
  rw [readDigits, this, h.value]

theorem readSigned_signed {n : ℤ} {l : List ℕ} (h : IsNumeral 10 n.natAbs l) :
    readSigned (signed n l) = n := by
  have hr := readDigits_printed (by norm_num) h
  unfold signed
  by_cases hn : n < 0
  · rw [if_pos hn, readSigned, if_pos rfl, hr]
    omega
  · obtain ⟨d, l', rfl⟩ := List.exists_cons_of_ne_nil h.nonempty
    have hd : digitChar d ≠ chr '-' := by
      have := h.digits d List.mem_cons_self
      interval_cases d <;> decide
    rw [if_neg hn]
    rw [printed, List.map_cons] at hr ⊢
    rw [readSigned, if_neg hd, hr]
    omega

/-- A converter that copies out `t` prints `text` exactly where the two agree on the room. -/
theorem prints_iff {call : Memory → ℕ → Outcome (Memory × ℤ)} {len : ℤ} {t text : List ℤ}
    (hc : ∀ mem buffer, call mem buffer = .ok (copyDigits mem buffer len 0 t)) (ht : t ≠ []) :
    Prints call len text ↔ 0 ≤ len ∧ t.take len.toNat = text.take len.toNat := by
  constructor
  · intro h
    have h0 := h (fun _ => 0) 0
    rw [hc] at h0
    by_cases hl : 0 ≤ len
    · rw [copyDigits_eq hl (by simpa using hl)] at h0
      simp only [Except.ok.injEq, Prod.mk.injEq, Nat.cast_inj, Nat.zero_add, Nat.sub_zero] at h0
      exact ⟨hl, put_inj h0.2 h0.1⟩
    · rw [copyDigits_neg (by omega) ht] at h0
      simp only [Except.ok.injEq, Prod.mk.injEq] at h0
      omega
  · rintro ⟨hl, ht⟩ mem buffer
    rw [hc, copyDigits_eq hl (by simpa using hl), Nat.sub_zero, ht]
    simp

theorem uintText_of_lt {n : ℕ} (h : n < 2 ^ 31) : uintText n = printed (numeral 10 n) := by
  rw [uintText, if_pos h, printed]
  apply List.map_congr_left
  intro d hd
  have : d < 10 := lt_of_mem_numeral (by norm_num) hd
  rw [digitChar, if_pos this]

/-- From `2 ^ 31` on the first character is no digit. -/
theorem uintText_of_le {n : ℕ} (h : 2 ^ 31 ≤ n) (h₂ : n < 2 ^ 32) :
    ∃ c t, uintText n = c :: t ∧ c < chr '0' := by
  obtain ⟨d, l, hl, hd, -⟩ := numeral_eq_cons (b := 10) (by norm_num) (n := 2 ^ 32 - n) (by omega)
  refine ⟨-d + chr '0', l.map fun d : ℕ => -d + chr '0', ?_, by omega⟩
  rw [uintText, if_neg (by omega), hl, List.map_cons]

theorem chr_zero_le_digitChar (d : ℕ) : chr '0' ≤ digitChar d := by
  have : chr '0' = 48 := rfl
  have : chr 'A' = 65 := rfl
  unfold digitChar
  split <;> omega

/-- Numerals and the text for numbers from `2 ^ 31` on differ from the first character. -/
theorem uintText_take_ne {n k : ℕ} (h : 2 ^ 31 ≤ n) (h₂ : n < 2 ^ 32) {l : List ℕ} (hl : l ≠ []) :
    (uintText n).take (k + 1) ≠ (printed l).take (k + 1) := by
  obtain ⟨c, t, ht, hc⟩ := uintText_of_le h h₂
  obtain ⟨d, l, rfl⟩ := List.exists_cons_of_ne_nil hl
  rw [ht, printed, List.map_cons, List.take_succ_cons, List.take_succ_cons]
  intro heq
  have := chr_zero_le_digitChar d
  rw [← (List.cons.inj heq).1] at this
  omega

theorem withoutBlanks_blanked {k : ℕ} {l : List ℕ} (h : ∀ d ∈ l, d < 2) :
    withoutBlanks (blanked k l) = printed l := by
  induction l generalizing k with
  | nil => rfl
  | cons d l ih =>
    have hd : digitChar d ≠ chr ' ' := by
      have := h d List.mem_cons_self
      interval_cases d <;> decide
    have ih := ih (k := k + 1) fun e he => h e (List.mem_cons_of_mem d he)
    unfold withoutBlanks at ih ⊢
    rw [blanked]
    by_cases h8 : (k + 1) % 8 = 0
    · rw [if_pos h8, List.filter_cons_of_pos (by simpa using hd),
        List.filter_cons_of_neg (by simp), ih]
      rfl
    · rw [if_neg h8, List.filter_cons_of_pos (by simpa using hd), ih]
      rfl

theorem withoutBlanks_binText {n : ℕ} (h : n ≠ 0) :
    withoutBlanks (binText n) = printed (numeral 2 n) ++ [chr 'b'] := by
  have hd : ∀ d ∈ Nat.digits 2 n, d < 2 := fun d => Nat.digits_lt_base (by norm_num)
  rw [binText, withoutBlanks, List.filter_append, List.filter_reverse, ← withoutBlanks,
    withoutBlanks_blanked hd, numeral, if_neg h, printed, printed, List.map_reverse]
  rfl

theorem readBinary_of_withoutBlanks {n : ℕ} {l : List ℕ} {text : List ℤ} (h : IsNumeral 2 n l)
    (ht : withoutBlanks text = printed l ++ [chr 'b']) : readBinary text = n := by
  rw [readBinary, ht, List.dropLast_concat, readDigits_printed (by norm_num) h]

section Claims

variable (n : BitVec 32) (len : ℤ)

def UintReadsBack : Prop :=
  ∃ l, IsNumeral 10 n.toNat l ∧ readDigits 10 (printed l) = n.toNat ∧
    Prints (fun mem buffer => dmesgUint mem buffer len n.toNat) len (printed l)

def IntReadsBack : Prop :=
  ∃ l, IsNumeral 10 n.toInt.natAbs l ∧ readSigned (signed n.toInt l) = n.toInt ∧
    Prints (fun mem buffer => dmesgInt mem buffer len n.toInt) len (signed n.toInt l)

def HexReadsBack : Prop :=
  ∃ l, IsNumeral 16 n.toNat l ∧ readHex (chr '0' :: chr 'x' :: printed l) = n.toNat ∧
    Prints (fun mem buffer => dmesgHex mem buffer len n.toNat) len
      (chr '0' :: chr 'x' :: printed l)

def BinReadsBack : Prop :=
  ∃ l text, IsNumeral 2 n.toNat l ∧ withoutBlanks text = printed l ++ [chr 'b'] ∧
    readBinary text = n.toNat ∧
    Prints (fun mem buffer => dmesgBin mem buffer len n.toNat) len text

end Claims

theorem uintReadsBack_iff (n : BitVec 32) (len : ℤ) :
    UintReadsBack n len ↔ 0 ≤ len ∧ (len = 0 ∨ n.toNat < 2 ^ 31) := by
  have hn := n.isLt
  have hnum := isNumeral_numeral (b := 10) (by norm_num) n.toNat
  have hp : ∀ text, Prints (fun mem buffer => dmesgUint mem buffer len n.toNat) len text ↔
      0 ≤ len ∧ (uintText n.toNat).take len.toNat = text.take len.toNat := fun text =>
    prints_iff (fun mem buffer => dmesgUint_eq hn) (uintText_ne_nil n.toNat)
  constructor
  · rintro ⟨l, hl, -, h⟩
    obtain ⟨h₀, heq⟩ := (hp _).mp h
    refine ⟨h₀, or_iff_not_imp_left.mpr fun hne => ?_⟩
    by_contra hge
    obtain ⟨k, hk⟩ : ∃ k, len.toNat = k + 1 := ⟨len.toNat - 1, by omega⟩
    rw [hk] at heq
    exact uintText_take_ne (by omega) hn hl.nonempty heq
  · rintro ⟨h₀, h⟩
    refine ⟨_, hnum, readDigits_printed (by norm_num) hnum, (hp _).mpr ⟨h₀, ?_⟩⟩
    obtain rfl | h := h
    · rfl
    · rw [uintText_of_lt h]

theorem hexReadsBack_iff (n : BitVec 32) (len : ℤ) : HexReadsBack n len ↔ 0 ≤ len := by
  have hn := n.isLt
  have hnum := isNumeral_numeral (b := 16) (by norm_num) n.toNat
  have hp : ∀ text, Prints (fun mem buffer => dmesgHex mem buffer len n.toNat) len text ↔
      0 ≤ len ∧ (hexText n.toNat).take len.toNat = text.take len.toNat := fun text =>
    prints_iff (fun mem buffer => dmesgHex_eq hn) (List.cons_ne_nil _ _)
  constructor
  · rintro ⟨l, -, -, h⟩
    exact ((hp _).mp h).1
  · intro h₀
    exact ⟨_, hnum, readDigits_printed le_rfl hnum, (hp _).mpr ⟨h₀, rfl⟩⟩

theorem binReadsBack_iff (n : BitVec 32) (len : ℤ) :
    BinReadsBack n len ↔ 0 ≤ len ∧ (len = 0 ∨ n ≠ 0) := by
  have hn := n.isLt
  have hnum := isNumeral_numeral (b := 2) (by norm_num) n.toNat
  have hp : ∀ text, Prints (fun mem buffer => dmesgBin mem buffer len n.toNat) len text ↔
      0 ≤ len ∧ (binText n.toNat).take len.toNat = text.take len.toNat := fun text =>
    prints_iff (fun mem buffer => dmesgBin_eq hn) (by simp [binText])
  constructor
  · rintro ⟨l, text, hl, ht, -, h⟩
    obtain ⟨h₀, heq⟩ := (hp _).mp h
    refine ⟨h₀, or_iff_not_imp_left.mpr fun hne => ?_⟩
    rintro rfl
    obtain ⟨k, hk⟩ : ∃ k, len.toNat = k + 1 := ⟨len.toNat - 1, by omega⟩
    obtain ⟨d, l, rfl⟩ := List.exists_cons_of_ne_nil hl.nonempty
    have hd := hl.digits d List.mem_cons_self
    -- the text would begin with `b`, but without its blanks it begins with a digit
    rw [hk] at heq
    cases text with
    | nil => exact absurd heq (by simp [binText, blanked])
    | cons c text =>
      have hc : c = chr 'b' := by
        have hb : binText (BitVec.toNat (0 : BitVec 32)) = [chr 'b'] := by decide
        rw [hb, List.take_succ_cons, List.take_succ_cons] at heq
        exact (List.cons.inj heq).1.symm
      rw [withoutBlanks, List.filter_cons_of_pos (by rw [hc]; decide), printed, List.map_cons,
        List.cons_append] at ht
      have hcd := (List.cons.inj ht).1
      rw [hc] at hcd
      interval_cases d <;> exact absurd hcd (by decide)
  · rintro ⟨h₀, rfl | hne⟩
    · have ht : withoutBlanks (printed (numeral 2 n.toNat) ++ [chr 'b']) =
          printed (numeral 2 n.toNat) ++ [chr 'b'] := by
        apply List.filter_eq_self.mpr
        intro c hc
        obtain hc | hc := List.mem_append.mp hc
        · obtain ⟨d, hd, rfl⟩ := List.mem_map.mp hc
          have := hnum.digits d hd
          interval_cases d <;> decide
        · rw [List.mem_singleton.mp hc]
          decide
      exact ⟨_, _, hnum, ht, readBinary_of_withoutBlanks hnum ht, (hp _).mpr ⟨h₀, rfl⟩⟩
    · have hne : n.toNat ≠ 0 := fun h => hne (BitVec.eq_of_toNat_eq h)
      have ht := withoutBlanks_binText hne
      exact ⟨_, _, hnum, ht, readBinary_of_withoutBlanks hnum ht, (hp _).mpr ⟨h₀, rfl⟩⟩

theorem intText_of_lt {n : ℤ} (h : n.natAbs < 2 ^ 31) :
    intText n = signed n (numeral 10 n.natAbs) := by
  rw [intText, uintText_of_lt h, signed]

theorem length_uintText {n : ℕ} (h : n ≤ 2 ^ 31) :
    (uintText n).length = (numeral 10 n).length := by
  unfold uintText
  by_cases hn : n < 2 ^ 31
  · rw [if_pos hn, List.length_map]
  · obtain rfl : n = 2 ^ 31 := by omega
    rw [if_neg hn, List.length_map]
    rfl

theorem dmesgInt_neg {mem : Memory} {buffer : ℕ} {num len : ℤ} (hl : len < 0) :
    dmesgInt mem buffer len num = .ok (mem, len) := by
  unfold dmesgInt
  by_cases hn : 0 ≤ num
  · have has : asSize num < 2 ^ 32 := by
      unfold asSize
      omega
    rw [if_pos hn, dmesgUint_eq has, copyDigits_neg hl (uintText_ne_nil _)]
  · rw [if_neg hn, dmesgString_eq, copyDigits_neg hl (by decide)]
    exact if_pos rfl

theorem length_intText {n : ℤ} (h : n.natAbs ≤ 2 ^ 31) :
    (intText n).length = (signed n (numeral 10 n.natAbs)).length := by
  unfold intText signed
  by_cases hn : n < 0
  · rw [if_pos hn, if_pos hn, List.length_cons, List.length_cons, length_uintText h, printed,
      List.length_map]
  · rw [if_neg hn, if_neg hn, length_uintText h, printed, List.length_map]

theorem prints_int_iff {num len : ℤ} (h₁ : -2 ^ 31 ≤ num) (h₂ : num < 2 ^ 31) (h₀ : 0 ≤ len) :
    Prints (fun mem buffer => dmesgInt mem buffer len num) len
      (signed num (numeral 10 num.natAbs)) ↔ ¬ Slips num len ∧
        (intText num).take len.toNat = (signed num (numeral 10 num.natAbs)).take len.toNat := by
  have hlen := length_intText (n := num) (by omega)
  constructor
  · intro h
    have h := h (fun _ => 0) 0
    dsimp only at h
    rw [dmesgInt_eq h₁ h₂ h₀] at h
    simp only [Except.ok.injEq, Prod.mk.injEq, List.length_take, ← hlen] at h
    have hs : ¬ Slips num len := by
      intro hs
      have := hs.2.2
      rw [if_pos hs] at h
      omega
    exact ⟨hs, put_inj (by rw [List.length_take, List.length_take, hlen]) h.1⟩
  · rintro ⟨hs, ht⟩ mem buffer
    dsimp only
    rw [dmesgInt_eq h₁ h₂ h₀, if_neg hs, ht]

theorem int_fits_iff {num len : ℤ} (h₁ : -2 ^ 31 ≤ num) (h₂ : num < 2 ^ 31) (h₀ : 0 ≤ len) :
    (¬ Slips num len ∧
      (intText num).take len.toNat = (signed num (numeral 10 num.natAbs)).take len.toNat) ↔
    0 ≤ num ∨ len ≤ 1 ∨
      (num ≠ -2 ^ 31 ∧ ((numeral 10 num.natAbs).length + 1 : ℕ) < len) := by
  constructor
  · rintro ⟨hs, ht⟩
    by_contra hc
    simp only [not_or, not_and, not_le, not_lt] at hc
    obtain ⟨hneg, hl, hc⟩ := hc
    have hlong : (intText num).length < len := by
      by_contra hle
      exact hs ⟨hneg, by omega, by omega⟩
    rw [intText, if_pos hneg, List.length_cons, length_uintText (by omega)] at hlong
    obtain rfl : num = -2 ^ 31 := by
      by_contra hne
      have := hc hne
      omega
    -- the sign is followed by a character that is no digit
    obtain ⟨k, hk⟩ : ∃ k, len.toNat = k + 1 + 1 := ⟨len.toNat - 2, by omega⟩
    rw [hk, intText, if_pos hneg, signed, if_pos hneg, List.take_succ_cons,
      List.take_succ_cons] at ht
    exact uintText_take_ne (by norm_num) (by norm_num) (numeral_ne_nil 10 _) (List.cons.inj ht).2
  · intro hc
    by_cases hm : num = -2 ^ 31
    · have hl : len ≤ 1 := by
        obtain h | h | h := hc
        · omega
        · exact h
        · exact absurd hm h.1
      refine ⟨fun hs => absurd hs.2.1 (by omega), ?_⟩
      obtain h | h : len.toNat = 0 ∨ len.toNat = 1 := by omega
      · rw [h]
        rfl
      · rw [h, intText, if_pos (by omega), signed, if_pos (by omega)]
        rfl
    · have hlen := length_intText (n := num) (by omega)
      refine ⟨?_, by rw [intText_of_lt (by omega)]⟩
      rintro ⟨hneg, h2, hle⟩
      rw [hlen, signed, if_pos hneg, List.length_cons, printed, List.length_map] at hle
      omega

theorem intReadsBack_iff (n : BitVec 32) (len : ℤ) :
    IntReadsBack n len ↔ 0 ≤ len ∧ (0 ≤ n.toInt ∨ len ≤ 1 ∨
      (n.toInt ≠ -2 ^ 31 ∧ ((numeral 10 n.toInt.natAbs).length + 1 : ℕ) < len)) := by
  have hn₁ : -2 ^ 31 ≤ n.toInt := by
    have := n.le_toInt
    norm_num at this ⊢
    omega
  have hn₂ : n.toInt < 2 ^ 31 := by
    have := n.toInt_lt
    norm_num at this ⊢
    omega
  have hnum := isNumeral_numeral (b := 10) (by norm_num) n.toInt.natAbs
  constructor
  · rintro ⟨l, hl, -, h⟩
    obtain rfl := hl.eq (by norm_num)
    have h₀ : 0 ≤ len := by
      by_contra hneg
      have h := h (fun _ => 0) 0
      dsimp only at h
      rw [dmesgInt_neg (by omega)] at h
      simp only [Except.ok.injEq, Prod.mk.injEq] at h
      omega
    exact ⟨h₀, (int_fits_iff hn₁ hn₂ h₀).mp ((prints_int_iff hn₁ hn₂ h₀).mp h)⟩
  · rintro ⟨h₀, h⟩
    exact ⟨_, hnum, readSigned_signed hnum,
      (prints_int_iff hn₁ hn₂ h₀).mpr ((int_fits_iff hn₁ hn₂ h₀).mpr h)⟩

/-- Exactly when each converter prints the numeral that reads back to its argument. -/
theorem numbers_read_back_iff (n : BitVec 32) (len : ℤ) :
    (UintReadsBack n len ↔ 0 ≤ len ∧ (len = 0 ∨ n.toNat < 2 ^ 31)) ∧
    (IntReadsBack n len ↔ 0 ≤ len ∧ (0 ≤ n.toInt ∨ len ≤ 1 ∨
      (n.toInt ≠ -2 ^ 31 ∧ ((numeral 10 n.toInt.natAbs).length + 1 : ℕ) < len))) ∧
    (HexReadsBack n len ↔ 0 ≤ len) ∧
    (BinReadsBack n len ↔ 0 ≤ len ∧ (len = 0 ∨ n ≠ 0)) :=
  ⟨uintReadsBack_iff n len, intReadsBack_iff n len, hexReadsBack_iff n len, binReadsBack_iff n len⟩

/-- The number `2 ^ 31` printed as unsigned begins with a character below `0`. -/
theorem uint_top_bit_not_read_back : ¬ UintReadsBack (BitVec.ofNat 32 (2 ^ 31)) 32 := by
  rw [uintReadsBack_iff]
  decide

end Racoon.Dmesg
