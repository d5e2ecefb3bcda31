import Mathlib.Tactic

/-!
# Objects in a memory of bytes

A number of `n` bytes is stored with its least significant byte first. A record
whose fields are 32-bit words is described by a `Layout`: the words it is made
of, in order, and how it is read back from them. What is stored can be read
again where its fields fit into words, and bytes apart from it are kept, so two
objects that do not overlap do not disturb one another.
-/

namespace Racoon.Lib

abbrev Bytes := ℕ → UInt8

/-- The objects of `n` bytes at `a` and of `k` bytes at `b` do not overlap. -/
def Clear (a n b k : ℕ) : Prop := a + n ≤ b ∨ b + k ≤ a

theorem Clear.symm {a n b k : ℕ} (h : Clear a n b k) : Clear b k a n := Or.symm h

/-- The `n` bytes at `a` are the same in both memories. -/
def SameAt (a n : ℕ) (m m' : Bytes) : Prop := ∀ i < n, m' (a + i) = m (a + i)

namespace Bytes
variable {m m' : Bytes} {a b n k v : ℕ}

def read : ℕ → Bytes → ℕ → ℕ
  | 0, _, _ => 0
  | n + 1, m, a => read n m a + 256 ^ n * (m (a + n)).toNat

def write (n : ℕ) (m : Bytes) (a v : ℕ) : Bytes :=
  fun b => if a ≤ b ∧ b < a + n then UInt8.ofNat (v / 256 ^ (b - a)) else m b

theorem write_apart (v : ℕ) (h : b < a ∨ a + n ≤ b) : write n m a v b = m b := if_neg (by omega)

theorem read_lt (n : ℕ) (m : Bytes) (a : ℕ) : read n m a < 256 ^ n := by
  induction n with
  | zero => exact Nat.one_pos
  | succ n ih =>
    have hbyte : 256 ^ n * (m (a + n)).toNat ≤ 256 ^ n * 255 :=
      Nat.mul_le_mul_left _ (by have := (m (a + n)).toNat_lt; omega)
    rw [read, pow_succ]
    omega

theorem read_congr (h : SameAt a n m m') : read n m' a = read n m a := by
  induction n with
  | zero => rfl
  | succ n ih => rw [read, read, h n (by omega), ih fun i hi => h i (by omega)]

theorem read_write (m : Bytes) (a v : ℕ) (h : v < 256 ^ n) : read n (write n m a v) a = v := by
  suffices ∀ k ≤ n, read k (write n m a v) a = v % 256 ^ k by
    rw [this n le_rfl, Nat.mod_eq_of_lt h]
  intro k hk
  induction k with
  | zero => simp [read, Nat.mod_one]
  | succ k ih =>
    have hbyte : (write n m a v (a + k)).toNat = v / 256 ^ k % 256 := by
      rw [write, if_pos (by omega), Nat.add_sub_cancel_left, UInt8.toNat_ofNat']
    rw [read, ih (by omega), hbyte, Nat.mod_pow_succ]

theorem read_write_clear (h : Clear a n b k) : read k (write n m a v) b = read k m b :=
  read_congr fun i hi => write_apart v (by unfold Clear at h; omega)

theorem read_div_mod {i : ℕ} (hi : i < n) : read n m a / 256 ^ i % 256 = (m (a + i)).toNat := by
  induction n with
  | zero => omega
  | succ n ih =>
    rw [read]
    rcases Nat.lt_succ_iff_lt_or_eq.mp hi with hi | rfl
    · obtain ⟨d, hd⟩ := Nat.exists_eq_add_of_lt hi
      have hpow : 256 ^ n * (m (a + n)).toNat =
          256 ^ i * (256 * (256 ^ d * (m (a + n)).toNat)) := by
        rw [hd, pow_succ, pow_add]
        ring
      rw [hpow, Nat.add_mul_div_left _ _ (by positivity), Nat.add_mul_mod_self_left, ih hi]
    · rw [Nat.add_mul_div_left _ _ (by positivity), Nat.div_eq_of_lt (read_lt i m a), Nat.zero_add]
      exact Nat.mod_eq_of_lt (m (a + i)).toNat_lt

/-- Bytes that are read and written somewhere. -/
theorem write_read_apply (m m' : Bytes) (a b : ℕ) {i : ℕ} (hi : i < n) :
    write n m a (read n m' b) (a + i) = m' (b + i) := by
  have hbyte := @read_div_mod m' b n i hi
  rw [write, if_pos (by omega), Nat.add_sub_cancel_left]
  refine UInt8.toNat_inj.mp ?_
  rw [UInt8.toNat_ofNat', hbyte]

/-- Writing what is there changes nothing. -/
theorem write_read (n : ℕ) (m : Bytes) (a : ℕ) : write n m a (read n m a) = m := by
  funext b
  by_cases hb : a ≤ b ∧ b < a + n
  · obtain ⟨i, rfl⟩ := Nat.exists_eq_add_of_le hb.1
    exact write_read_apply m m a a (by omega)
  · exact if_neg hb

/-- The words of a record, one after the other. -/
def readWords (m : Bytes) : ℕ → ℕ → List ℕ
  | _, 0 => []
  | a, k + 1 => read 4 m a :: readWords m (a + 4) k

def writeWords : Bytes → ℕ → List ℕ → Bytes
  | m, _, [] => m
  | m, a, v :: vs => writeWords (write 4 m a v) (a + 4) vs

theorem writeWords_apart {vs : List ℕ} (h : b < a ∨ a + 4 * vs.length ≤ b) :
    writeWords m a vs b = m b := by
  induction vs generalizing m a with
  | nil => rfl
  | cons v vs ih =>
    rw [List.length_cons] at h
    rw [writeWords, ih (by omega), write_apart v (by omega)]

theorem readWords_congr (h : SameAt a (4 * k) m m') : readWords m' a k = readWords m a k := by
  induction k generalizing a with
  | zero => rfl
  | succ k ih =>
    rw [readWords, readWords, read_congr fun i hi => h i (by omega), ih fun i hi => ?_]
    simpa only [Nat.add_assoc] using h (4 + i) (by omega)

theorem readWords_writeWords (m : Bytes) (a : ℕ) {vs : List ℕ} (h : ∀ v ∈ vs, v < 2 ^ 32) :
    readWords (writeWords m a vs) a vs.length = vs := by
  induction vs generalizing m a with
  | nil => rfl
  | cons v vs ih =>
    have hkept : SameAt a 4 (write 4 m a v) (writeWords (write 4 m a v) (a + 4) vs) :=
      fun i hi => writeWords_apart (by omega)
    rw [List.length_cons, readWords, writeWords, ih _ _ fun w hw => h w (by simp [hw]),
      read_congr hkept, read_write m a v (h v (by simp))]

theorem lt_of_mem_readWords (h : v ∈ readWords m a k) : v < 2 ^ 32 := by
  induction k generalizing a with
  | zero => cases h
  | succ k ih =>
    rcases List.mem_cons.mp h with rfl | h
    · exact read_lt 4 m a
    · exact ih h

theorem length_readWords (m : Bytes) (a k : ℕ) : (readWords m a k).length = k := by
  induction k generalizing a with
  | zero => rfl
  | succ k ih => rw [readWords, List.length_cons, ih]

theorem writeWords_readWords (m : Bytes) (a k : ℕ) : writeWords m a (readWords m a k) = m := by
  induction k generalizing a with
  | zero => rfl
  | succ k ih => rw [readWords, writeWords, write_read, ih]

end Bytes

/-- Records that are kept as so many words. -/
structure Layout (α : Type*) where
  words : ℕ
  encode : α → List ℕ
  decode : List ℕ → α
  length_encode : ∀ x, (encode x).length = words
  decode_encode : ∀ x, decode (encode x) = x
  encode_decode : ∀ vs : List ℕ, vs.length = words → encode (decode vs) = vs

namespace Layout
variable {α β : Type*} (L : Layout α) {m m' : Bytes} {a b : ℕ} {x : α}

def size : ℕ := 4 * L.words

def get (m : Bytes) (a : ℕ) : α := L.decode (m.readWords a L.words)

def put (m : Bytes) (a : ℕ) (x : α) : Bytes := m.writeWords a (L.encode x)

def Fits (x : α) : Prop := ∀ v ∈ L.encode x, v < 2 ^ 32

theorem fits_get (m : Bytes) (a : ℕ) : L.Fits (L.get m a) := by
  intro v hv
  rw [get, L.encode_decode _ (Bytes.length_readWords m a L.words)] at hv
  exact Bytes.lt_of_mem_readWords hv

theorem get_congr (h : SameAt a L.size m m') : L.get m' a = L.get m a :=
  congrArg L.decode (Bytes.readWords_congr h)

theorem get_put (m : Bytes) (a : ℕ) (h : L.Fits x) : L.get (L.put m a x) a = x := by
  have hread : (L.put m a x).readWords a L.words = L.encode x := by
    rw [← L.length_encode x]
    exact Bytes.readWords_writeWords m a h
  rw [get, hread, L.decode_encode]

theorem put_get (m : Bytes) (a : ℕ) : L.put m a (L.get m a) = m := by
  rw [put, get, L.encode_decode _ (Bytes.length_readWords m a L.words)]
  exact Bytes.writeWords_readWords m a L.words

theorem put_apart (m : Bytes) (x : α) (h : b < a ∨ a + L.size ≤ b) : L.put m a x b = m b :=
  Bytes.writeWords_apart (by rwa [L.length_encode])

theorem get_put_clear (L' : Layout β) (h : Clear a L.size b L'.size) :
    L'.get (L.put m a x) b = L'.get m b :=
  L'.get_congr fun i hi => L.put_apart m x (by unfold Clear at h; omega)

theorem get_write_clear {n v : ℕ} (h : Clear a n b L.size) :
    L.get (m.write n a v) b = L.get m b :=
  L.get_congr fun i hi => Bytes.write_apart v (by unfold Clear at h; omega)

theorem read_put_clear {k : ℕ} (h : Clear a L.size b k) :
    Bytes.read k (L.put m a x) b = Bytes.read k m b :=
  Bytes.read_congr fun i hi => L.put_apart m x (by unfold Clear at h; omega)

end Layout
end Racoon.Lib
