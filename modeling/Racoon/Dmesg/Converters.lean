import Racoon.Lib.Numerals
import Racoon.Machine

/-!
# The converters of `dmesg.c`

Each converter builds its digits from the low end in an array `number` of its
own and copies them out backwards, as long as there is room. Characters are
their codes. A C string is the list of its characters; reading past the end of
the list gives the terminating zero.
-/

namespace Racoon.Dmesg

abbrev Memory := ℕ → ℤ

def chr (c : Char) : ℤ := c.toNat

/-- `number[i++] = c` in an array of `size` characters, newest first. -/
def push (size : ℕ) (number : List ℤ) (c : ℤ) : Outcome (List ℤ) :=
  if number.length < size then .ok (c :: number) else .error .badAccess

/-- The loop `while ( i-- > 0 )` with which the converters end. -/
def copyDigits (mem : Memory) (buffer : ℕ) (len : ℤ) : ℕ → List ℤ → Memory × ℤ
  | count, [] => (mem, count)
  | count, c :: number =>
    if len ≤ count then (mem, len)
    else copyDigits (Function.update mem (buffer + count) c) buffer len (count + 1) number

def uintDigits : ℕ → ℤ → List ℤ → Outcome (List ℤ)
  | 0, _, _ => .error .diverges
  | fuel + 1, tmp, number => do
    let number ← push 32 number (tmp.tmod 10 + chr '0')
    if tmp = 0 then .ok number
    else if tmp.tdiv 10 = 0 then .ok number
    else uintDigits fuel (tmp.tdiv 10) number

/-- `dmesg_uint`; the working copy of the number is an `int`. -/
def dmesgUint (mem : Memory) (buffer : ℕ) (len : ℤ) (num : ℕ) : Outcome (Memory × ℤ) := do
  let number ← uintDigits 32 (int32 num) []
  .ok (copyDigits mem buffer len 0 number)

def stringLoop (mem : Memory) (buffer : ℕ) (len : ℤ) : ℕ → List ℤ → Memory × ℤ
  | count, [] => (mem, count)
  | count, c :: s =>
    if c = 0 then (mem, count)
    else if len ≤ count then (mem, len)
    else stringLoop (Function.update mem (buffer + count) c) buffer len (count + 1) s

def nullText : List ℤ := [chr 'N', chr 'U', chr 'L', chr 'L']

def dmesgString (mem : Memory) (buffer : ℕ) (len : ℤ) : Option (List ℤ) → Memory × ℤ
  | none => stringLoop mem buffer len 0 nullText
  | some str => stringLoop mem buffer len 0 str

def dmesgInt (mem : Memory) (buffer : ℕ) (len num : ℤ) : Outcome (Memory × ℤ) :=
  if 0 ≤ num then dmesgUint mem buffer len (asSize num)
  else
    let (mem, val) := dmesgString mem buffer len (some [chr '-'])
    if val = len then .ok (mem, len)
    else do
      let (mem, val) ← dmesgUint mem (buffer + 1) (len - 1) (asSize (int32 (-num)))
      if len - 1 ≤ val then .ok (mem, val) else .ok (mem, val + 1)

def hexDigits : ℕ → ℕ → List ℤ → Outcome (List ℤ)
  | 0, _, _ => .error .diverges
  | fuel + 1, tmp, number => do
    let letter : ℤ := (tmp % 16 : ℕ)
    let letter := if letter < 10 then letter + chr '0' else letter - 10 + chr 'A'
    let number ← push 64 number letter
    if tmp = 0 then .ok number
    else if tmp / 16 = 0 then .ok number
    else hexDigits fuel (tmp / 16) number

def dmesgHex (mem : Memory) (buffer : ℕ) (len : ℤ) (hex : ℕ) : Outcome (Memory × ℤ) := do
  let number ← hexDigits 64 hex []
  let number ← push 64 number (chr 'x')
  let number ← push 64 number (chr '0')
  .ok (copyDigits mem buffer len 0 number)

/-- `dmesg_ptr`; both sizes are four bytes. -/
def dmesgPtr (mem : Memory) (buffer : ℕ) (len : ℤ) (ptr : ℕ) : Outcome (Memory × ℤ) := do
  assert (4 ≤ 4)
  dmesgHex mem buffer len ptr

def binDigits : ℕ → ℕ → List ℤ → Outcome (List ℤ)
  | 0, _, _ => .error .diverges
  | fuel + 1, tmp, number =>
    if 0 < tmp then do
      let number ← push 128 number (if tmp &&& 1 = 1 then chr '1' else chr '0')
      if tmp = 0 then .ok number
      else
        let number ← if number.length % 9 = 0 then push 128 number (chr ' ') else .ok number
        binDigits fuel (tmp >>> 1) number
    else .ok number

def dmesgBin (mem : Memory) (buffer : ℕ) (len : ℤ) (num : ℕ) : Outcome (Memory × ℤ) := do
  let number ← push 128 [] (chr 'b')
  let number ← binDigits 128 num number
  .ok (copyDigits mem buffer len 0 number)

/-- The characters `l` stored from `a` on. -/
def put (mem : Memory) (a : ℕ) : List ℤ → Memory
  | [] => mem
  | c :: l => put (Function.update mem a c) (a + 1) l

theorem put_append (mem : Memory) (a : ℕ) (l l' : List ℤ) :
    put mem a (l ++ l') = put (put mem a l) (a + l.length) l' := by
  induction l generalizing mem a with
  | nil => rfl
  | cons c l ih =>
    rw [List.cons_append, put, ih, put, List.length_cons, Nat.add_right_comm, ← Nat.add_assoc]

theorem put_of_lt (mem : Memory) {a i : ℕ} (l : List ℤ) (h : i < a) : put mem a l i = mem i := by
  induction l generalizing mem a with
  | nil => rfl
  | cons c l ih => rw [put, ih _ (by omega), Function.update_of_ne (by omega)]

theorem put_of_le (mem : Memory) {a i : ℕ} {l : List ℤ} (h : a + l.length ≤ i) :
    put mem a l i = mem i := by
  induction l generalizing mem a with
  | nil => rfl
  | cons c l ih =>
    rw [List.length_cons] at h
    rw [put, ih _ (by omega), Function.update_of_ne (by omega)]

theorem put_getElem (mem : Memory) (a : ℕ) {l : List ℤ} {k : ℕ} (h : k < l.length) :
    put mem a l (a + k) = l[k] := by
  induction l generalizing mem a k with
  | nil => exact absurd h (Nat.not_lt_zero k)
  | cons c l ih =>
    rw [put]
    cases k with
    | zero => rw [put_of_lt _ _ (by omega), Nat.add_zero, Function.update_self]; rfl
    | succ k =>
      rw [List.length_cons] at h
      have hk := ih (Function.update mem a c) (a + 1) (k := k) (by omega)
      rwa [Nat.add_assoc, Nat.add_comm 1 k] at hk

/-- Two texts that leave the same memory agree as far as both go. -/
theorem put_inj {mem : Memory} {a : ℕ} {l l' : List ℤ} (hl : l.length = l'.length)
    (h : put mem a l = put mem a l') : l = l' := by
  apply List.ext_getElem hl
  intro k hk hk'
  rw [← put_getElem mem a hk, ← put_getElem mem a hk', h]

theorem copyDigits_eq {mem : Memory} {buffer : ℕ} {len : ℤ} (h₀ : 0 ≤ len) {count : ℕ}
    (hc : count ≤ len) (l : List ℤ) :
    copyDigits mem buffer len count l =
      (put mem (buffer + count) (l.take (len.toNat - count)),
        ((count + (l.take (len.toNat - count)).length : ℕ) : ℤ)) := by
  induction l generalizing mem count with
  | nil => simp [copyDigits, put]
  | cons c l ih =>
    rw [copyDigits]
    by_cases h : len ≤ count
    · have : len.toNat - count = 0 := by omega
      rw [if_pos h, this]
      simp only [List.take_zero, put, List.length_nil, add_zero, Prod.mk.injEq, true_and]
      omega
    · obtain ⟨k, hk⟩ : ∃ k, len.toNat - count = k + 1 := ⟨len.toNat - count - 1, by omega⟩
      have hk' : len.toNat - (count + 1) = k := by omega
      rw [if_neg h, ih (by push_cast; omega), hk, hk', List.take_succ_cons, put, Nat.add_assoc,
        List.length_cons, Nat.add_assoc, Nat.add_comm 1]

theorem copyDigits_neg {mem : Memory} {buffer : ℕ} {len : ℤ} (h : len < 0) {l : List ℤ}
    (hl : l ≠ []) : copyDigits mem buffer len 0 l = (mem, len) := by
  obtain ⟨c, l, rfl⟩ := List.exists_cons_of_ne_nil hl
  rw [copyDigits, if_pos (by simpa using h.le)]

theorem push_of_lt {size : ℕ} {number : List ℤ} (h : number.length < size) (c : ℤ) :
    push size number c = .ok (c :: number) := if_pos h

open Numerals

/-- The loop of `dmesg_uint` on `n` or on `-n`: the digits carry the sign. -/
theorem uintDigits_eq {σ : ℤ} (hσ : σ = 1 ∨ σ = -1) {n fuel : ℕ} {number : List ℤ}
    (hf : (numeral 10 n).length ≤ fuel) (hn : number.length + (numeral 10 n).length ≤ 32) :
    uintDigits fuel (σ * n) number =
      .ok ((numeral 10 n).map (fun d : ℕ => σ * d + chr '0') ++ number) := by
  induction fuel generalizing n number with
  | zero => exact absurd (List.length_pos_iff.mpr (numeral_ne_nil 10 n)) (by omega)
  | succ fuel ih =>
    have hmod : (σ * n).tmod 10 = σ * (n % 10 : ℕ) := by
      obtain rfl | rfl := hσ <;> simp [Int.tmod_eq_emod_of_nonneg]
    have hdiv : (σ * n).tdiv 10 = σ * (n / 10 : ℕ) := by
      obtain rfl | rfl := hσ <;> simp [Int.tdiv_eq_ediv_of_nonneg]
    have hz : ∀ m : ℕ, σ * m = 0 ↔ m = 0 := by
      obtain rfl | rfl := hσ <;> simp
    rw [uintDigits, hmod, hdiv, push_of_lt (by
      have := List.length_pos_iff.mpr (numeral_ne_nil 10 n)
      omega), ok_bind]
    simp only [hz]
    by_cases h : n < 10
    · rw [numeral_of_lt h, Nat.mod_eq_of_lt h, Nat.div_eq_of_lt h, if_pos rfl, ite_self]
      rfl
    · rw [numeral_of_le (by norm_num) (not_lt.mp h)] at hf hn ⊢
      rw [List.length_append, List.length_singleton] at hf hn
      have hq : n / 10 ≠ 0 := (Nat.div_pos (not_lt.mp h) (by norm_num)).ne'
      rw [if_neg (by omega), if_neg hq, ih (by omega) (by rw [List.length_cons]; omega)]
      simp

/-- What `dmesg_uint` prints: the working copy of a number from `2 ^ 31` on is negative. -/
def uintText (num : ℕ) : List ℤ :=
  if num < 2 ^ 31 then (numeral 10 num).map fun d : ℕ => d + chr '0'
  else (numeral 10 (2 ^ 32 - num)).map fun d : ℕ => -d + chr '0'

theorem uintDigits_int32 {num : ℕ} (h : num < 2 ^ 32) :
    uintDigits 32 (int32 num) [] = .ok (uintText num) := by
  have hlen : ∀ n < 2 ^ 32, (numeral 10 n).length ≤ 10 := fun n hn =>
    length_numeral_le_of_lt (by norm_num) (by norm_num) (hn.trans (by norm_num))
  unfold uintText
  by_cases hs : num < 2 ^ 31
  · have heq : int32 num = 1 * (num : ℕ) := by
      rw [int32_of_le (by omega) (by exact_mod_cast hs), one_mul]
    have := hlen num h
    rw [if_pos hs, heq, uintDigits_eq (Or.inl rfl) (by omega) (by rw [List.length_nil]; omega)]
    simp
  · have heq : int32 num = -1 * ((2 ^ 32 - num : ℕ) : ℤ) := by
      rw [int32, Int.bmod_def, if_neg (by norm_num; omega)]
      push_cast [h.le]
      omega
    have := hlen (2 ^ 32 - num) (by omega)
    rw [if_neg hs, heq, uintDigits_eq (Or.inr rfl) (by omega) (by rw [List.length_nil]; omega)]
    simp

theorem dmesgUint_eq {mem : Memory} {buffer num : ℕ} {len : ℤ} (h : num < 2 ^ 32) :
    dmesgUint mem buffer len num = .ok (copyDigits mem buffer len 0 (uintText num)) := by
  rw [dmesgUint, uintDigits_int32 h, ok_bind]

/-- The character of a digit below sixteen. -/
def digitChar (d : ℕ) : ℤ := if d < 10 then d + chr '0' else d - 10 + chr 'A'

theorem hexDigits_eq {n fuel : ℕ} {number : List ℤ} (hf : (numeral 16 n).length ≤ fuel)
    (hn : number.length + (numeral 16 n).length ≤ 64) :
    hexDigits fuel n number = .ok ((numeral 16 n).map digitChar ++ number) := by
  induction fuel generalizing n number with
  | zero => exact absurd (List.length_pos_iff.mpr (numeral_ne_nil 16 n)) (by omega)
  | succ fuel ih =>
    have hletter : (if ((n % 16 : ℕ) : ℤ) < 10 then ((n % 16 : ℕ) : ℤ) + chr '0'
        else ((n % 16 : ℕ) : ℤ) - 10 + chr 'A') = digitChar (n % 16) := by
      simp only [digitChar, Nat.cast_lt_ofNat]
    simp only [hexDigits, hletter]
    rw [push_of_lt (by
      have := List.length_pos_iff.mpr (numeral_ne_nil 16 n)
      omega), ok_bind]
    by_cases h : n < 16
    · rw [numeral_of_lt h, Nat.mod_eq_of_lt h, Nat.div_eq_of_lt h, if_pos rfl, ite_self]
      rfl
    · rw [numeral_of_le (by norm_num) (not_lt.mp h)] at hf hn ⊢
      rw [List.length_append, List.length_singleton] at hf hn
      have hq : n / 16 ≠ 0 := (Nat.div_pos (not_lt.mp h) (by norm_num)).ne'
      rw [if_neg (by omega), if_neg hq, ih (by omega) (by rw [List.length_cons]; omega)]
      simp

def hexText (hex : ℕ) : List ℤ := chr '0' :: chr 'x' :: (numeral 16 hex).map digitChar

theorem dmesgHex_eq {mem : Memory} {buffer hex : ℕ} {len : ℤ} (h : hex < 2 ^ 32) :
    dmesgHex mem buffer len hex = .ok (copyDigits mem buffer len 0 (hexText hex)) := by
  have hlen : (numeral 16 hex).length ≤ 8 :=
    length_numeral_le_of_lt (by norm_num) (by norm_num) (h.trans_eq (by norm_num))
  rw [dmesgHex, hexDigits_eq (by omega) (by simpa using by omega), ok_bind, List.append_nil,
    push_of_lt (by rw [List.length_map]; omega), ok_bind,
    push_of_lt (by rw [List.length_cons, List.length_map]; omega), ok_bind]
  rfl

/-- Binary digits from the low end, a blank after each eighth; `k` were written before. -/
def blanked : ℕ → List ℕ → List ℤ
  | _, [] => []
  | k, d :: ds =>
    if (k + 1) % 8 = 0 then digitChar d :: chr ' ' :: blanked (k + 1) ds
    else digitChar d :: blanked (k + 1) ds

theorem binDigits_eq {n fuel k : ℕ} {number : List ℤ} (hf : (Nat.digits 2 n).length < fuel)
    (hk : number.length = k + k / 8 + 1) (hn : k + (Nat.digits 2 n).length ≤ 100) :
    binDigits fuel n number = .ok ((blanked k (Nat.digits 2 n)).reverse ++ number) := by
  induction fuel generalizing n number k with
  | zero => exact absurd hf (Nat.not_lt_zero _)
  | succ fuel ih =>
    rw [binDigits]
    by_cases h : 0 < n
    · have hd : Nat.digits 2 n = n % 2 :: Nat.digits 2 (n / 2) := Nat.digits_def' (by norm_num) h
      have hc : (if n &&& 1 = 1 then chr '1' else chr '0') = digitChar (n % 2) := by
        rw [Nat.and_one_is_mod]
        obtain h2 | h2 := Nat.mod_two_eq_zero_or_one n <;> rw [h2] <;> rfl
      rw [hd, List.length_cons] at hf hn
      rw [if_pos h, hc, push_of_lt (by omega), ok_bind, if_neg h.ne', Nat.shiftRight_one, hd,
        blanked, List.length_cons, hk]
      by_cases h8 : (k + 1) % 8 = 0
      · rw [if_pos (by omega), push_of_lt (by rw [List.length_cons]; omega), ok_bind, if_pos h8]
        dsimp only
        rw [ih (k := k + 1) (by omega) (by simp only [List.length_cons]; omega) (by omega)]
        simp
      · rw [if_neg (by omega), ok_bind, if_neg h8]
        dsimp only
        rw [ih (k := k + 1) (by omega) (by simp only [List.length_cons]; omega) (by omega)]
        simp
    · obtain rfl : n = 0 := by omega
      rw [if_neg h, Nat.digits_zero]
      rfl

/-- What `dmesg_bin` prints: zero has no digit. -/
def binText (num : ℕ) : List ℤ := (blanked 0 (Nat.digits 2 num)).reverse ++ [chr 'b']

theorem dmesgBin_eq {mem : Memory} {buffer num : ℕ} {len : ℤ} (h : num < 2 ^ 32) :
    dmesgBin mem buffer len num = .ok (copyDigits mem buffer len 0 (binText num)) := by
  have hlen : (Nat.digits 2 num).length ≤ 32 := (Nat.digits_length_le_iff (by norm_num) num).mpr h
  rw [dmesgBin, push_of_lt (by simp), ok_bind,
    binDigits_eq (k := 0) (by omega) (by simp) (by omega), ok_bind]
  rfl

theorem stringLoop_eq (mem : Memory) (buffer : ℕ) (len : ℤ) (count : ℕ) (s : List ℤ) :
    stringLoop mem buffer len count s =
      copyDigits mem buffer len count (s.takeWhile (· ≠ 0)) := by
  induction s generalizing mem count with
  | nil => rfl
  | cons c s ih =>
    rw [stringLoop]
    by_cases hc : c = 0
    · rw [if_pos hc, List.takeWhile_cons_of_neg (by simpa using hc), copyDigits]
    · rw [if_neg hc, List.takeWhile_cons_of_pos (by simpa using hc), copyDigits, ih]

/-- What `%s` prints. -/
def stringText : Option (List ℤ) → List ℤ
  | none => nullText
  | some str => str.takeWhile (· ≠ 0)

theorem dmesgString_eq (mem : Memory) (buffer : ℕ) (len : ℤ) (str : Option (List ℤ)) :
    dmesgString mem buffer len str = copyDigits mem buffer len 0 (stringText str) := by
  cases str with
  | none => rw [dmesgString, stringLoop_eq]; rfl
  | some str => rw [dmesgString, stringLoop_eq]; rfl

/-- What `dmesg_int` prints where there is room for it. -/
def intText (num : ℤ) : List ℤ :=
  if num < 0 then chr '-' :: uintText num.natAbs else uintText num.natAbs

/-- The digits behind the sign reach the end of the room: the sign is then not counted. -/
def Slips (num len : ℤ) : Prop := num < 0 ∧ 2 ≤ len ∧ len ≤ (intText num).length

instance (num len : ℤ) : Decidable (Slips num len) := inferInstanceAs (Decidable (_ ∧ _))

theorem uintText_ne_nil (num : ℕ) : uintText num ≠ [] := by
  unfold uintText
  split <;> simpa using numeral_ne_nil 10 _

theorem dmesgInt_eq {mem : Memory} {buffer : ℕ} {num len : ℤ} (h₁ : -2 ^ 31 ≤ num)
    (h₂ : num < 2 ^ 31) (h₀ : 0 ≤ len) :
    dmesgInt mem buffer len num =
      .ok (put mem buffer ((intText num).take len.toNat),
        if Slips num len then len - 1 else ((intText num).take len.toNat).length) := by
  unfold dmesgInt intText
  by_cases hn : 0 ≤ num
  · have hs : ¬ Slips num len := fun h => absurd h.1 (by omega)
    have has : asSize num = num.natAbs := by
      unfold asSize
      omega
    rw [if_pos hn, if_neg (by omega), if_neg hs, has, dmesgUint_eq (by omega),
      copyDigits_eq h₀ (by simpa using h₀)]
    simp
  · have hneg : num < 0 := by omega
    have has : asSize (int32 (-num)) = num.natAbs := by
      unfold asSize int32
      rw [Int.bmod_def]
      split <;> omega
    have hint : (intText num).length = (uintText num.natAbs).length + 1 := by
      rw [intText, if_pos hneg, List.length_cons]
    have hstr : stringText (some [chr '-']) = [chr '-'] := by decide
    have hpos := List.length_pos_iff.mpr (uintText_ne_nil num.natAbs)
    rw [if_neg hn, if_pos hneg, dmesgString_eq, hstr, copyDigits_eq h₀ (by simpa using h₀)]
    dsimp only
    obtain rfl | rfl | h2 : len = 0 ∨ len = 1 ∨ 2 ≤ len := by omega
    · rw [if_pos (by rfl), if_neg (fun h => absurd h.2.1 (by norm_num))]
      rfl
    · rw [if_pos (by rfl), if_neg (fun h => absurd h.2.1 (by norm_num))]
      rfl
    · obtain ⟨k, rfl⟩ : ∃ k : ℕ, len = k + 2 := ⟨(len - 2).toNat, by omega⟩
      have hk : ((k : ℤ) + 2).toNat = k + 2 := by omega
      have hk' : ((k : ℤ) + 2 - 1).toNat = k + 1 := by omega
      have hslip : Slips num (k + 2) ↔ k + 1 ≤ (uintText num.natAbs).length := by
        rw [Slips, hint]
        push_cast
        omega
      have hsign : [chr '-'].take (k + 2) = [chr '-'] := List.take_of_length_le (by simp)
      rw [hk, Nat.sub_zero, hsign, if_neg (by simp; omega), has, dmesgUint_eq (by omega), ok_bind,
        copyDigits_eq (by omega) (by simp; omega), hk', Nat.sub_zero, List.take_succ_cons, put,
        List.length_cons, List.length_take, Nat.add_zero, Nat.add_zero, Nat.zero_add]
      simp only [hslip, put]
      by_cases hl : k + 1 ≤ (uintText num.natAbs).length
      · rw [if_pos hl, if_pos (by push_cast; omega), min_eq_left hl]
        push_cast
        congr 2
        omega
      · rw [if_neg hl, if_neg (by push_cast; omega)]
        rfl

end Racoon.Dmesg
