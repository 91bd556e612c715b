/-
Bit strings, and the bits of a byte string.

A standard that is written over strings of bits numbers them from the left, takes
substrings, concatenates and xors them; an implementation does the same with bytes,
shifts and wide integers.  The bits of a byte string are the bits of its bytes, the
most significant first, so concatenation, substrings at byte boundaries and xor carry
over by themselves.  What does not line up with the bytes is compared bit by bit:
`bit` reads a string as a function that is false past its end, and two strings of one
length are equal when they have the same bits.
-/
import Mathlib.Data.List.Basic
import Mathlib.Data.List.Range
import LimniFS.Lib.Parser

namespace Lib

/-- A string of bits, the first one leftmost. -/
abbrev BitString := List Bool

namespace BitString

/-- `zeros(n)`. -/
def zeros (n : Nat) : BitString := List.replicate n false

/-- Bitwise exclusive or of two strings of one length. -/
def xorBits (s t : BitString) : BitString := List.zipWith Bool.xor s t

/-- `S[i..j]`: the bits from the `i`-th to the `j`-th, counted from one. -/
def sub (s : BitString) (i j : Nat) : BitString := (s.drop (i - 1)).take (j + 1 - i)

/-- `num2str(i, n)`. -/
def num2str (i n : Nat) : BitString := List.ofFn fun k : Fin n => i.testBit (n - 1 - k)

/-- `str2num(S)`. -/
def str2num (s : BitString) : Nat := s.foldl (fun n b => 2 * n + b.toNat) 0

/-- The bit at a position counted from zero; false past the end. -/
def bit (s : BitString) (k : Nat) : Bool := s.getD k false

theorem ext_bit {s t : BitString} (hlen : s.length = t.length)
    (h : ∀ k < s.length, s.bit k = t.bit k) : s = t := by
  refine List.ext_getElem hlen fun k hs ht => ?_
  have hk := h k hs
  simpa [bit, List.getD_eq_getElem?_getD, List.getElem?_eq_getElem hs,
    List.getElem?_eq_getElem ht] using hk

theorem bit_of_le {s : BitString} {k : Nat} (h : s.length ≤ k) : s.bit k = false := by
  simp [bit, List.getD_eq_getElem?_getD, List.getElem?_eq_none h]

@[simp] theorem length_zeros (n : Nat) : (zeros n).length = n := List.length_replicate ..

@[simp] theorem bit_zeros (n k : Nat) : (zeros n).bit k = false := by
  by_cases h : k < n
  · simp [bit, zeros, List.getD_eq_getElem?_getD, h]
  · exact bit_of_le (by simpa using h)

theorem bit_append (s t : BitString) (k : Nat) :
    (s ++ t).bit k = if k < s.length then s.bit k else t.bit (k - s.length) := by
  by_cases h : k < s.length
  · simp [bit, List.getD_eq_getElem?_getD, List.getElem?_append_left, h]
  · simp [bit, List.getD_eq_getElem?_getD, List.getElem?_append_right (Nat.le_of_not_lt h), h]

theorem bit_drop (s : BitString) (n k : Nat) : bit (s.drop n) k = s.bit (n + k) := by
  simp [bit, List.getD_eq_getElem?_getD, List.getElem?_drop]

theorem bit_take (s : BitString) (n k : Nat) :
    bit (s.take n) k = if k < n then s.bit k else false := by
  by_cases h : k < n
  · simp [bit, List.getD_eq_getElem?_getD, h]
  · simp [bit, List.getD_eq_getElem?_getD, h]

theorem length_xorBits {s t : BitString} (h : s.length = t.length) : (xorBits s t).length = s.length := by
  simp [xorBits, h]

theorem bit_xorBits {s t : BitString} (h : s.length = t.length) (k : Nat) :
    (xorBits s t).bit k = Bool.xor (s.bit k) (t.bit k) := by
  by_cases hk : k < s.length
  · have ht : k < t.length := h ▸ hk
    simp [bit, xorBits, List.getD_eq_getElem?_getD, List.getElem?_zipWith,
      List.getElem?_eq_getElem hk, List.getElem?_eq_getElem ht]
  · have hs : s.length ≤ k := Nat.le_of_not_lt hk
    rw [bit_of_le (by rw [length_xorBits h]; exact hs), bit_of_le hs, bit_of_le (h ▸ hs)]
    rfl

theorem length_sub {s : BitString} {i j : Nat} (hi : 0 < i) (hj : j ≤ s.length) :
    (s.sub i j).length = j + 1 - i := by
  simp only [sub, List.length_take, List.length_drop]
  omega

theorem bit_sub (s : BitString) {i j k : Nat} (hk : k < j + 1 - i) :
    (s.sub i j).bit k = s.bit (i - 1 + k) := by
  rw [sub, bit_take, if_pos hk, bit_drop]

theorem xorBits_comm (s t : BitString) : xorBits s t = xorBits t s := by
  unfold xorBits
  exact List.zipWith_comm_of_comm (by simp [Bool.xor_comm])

theorem xorBits_xorBits_self {s t : BitString} (h : s.length = t.length) : xorBits (xorBits s t) t = s := by
  have hx := length_xorBits h
  refine ext_bit (by rw [length_xorBits (hx.trans h), hx]) fun k _ => ?_
  rw [bit_xorBits (hx.trans h), bit_xorBits h]
  simp

theorem xorBits_right_cancel {s t u : BitString} (hs : s.length = u.length) (ht : t.length = u.length)
    (h : xorBits s u = xorBits t u) : s = t := by
  rw [← xorBits_xorBits_self hs, ← xorBits_xorBits_self ht, h]

theorem xorBits_left_cancel {s t u : BitString} (hs : s.length = u.length) (ht : t.length = u.length)
    (h : xorBits u s = xorBits u t) : s = t :=
  xorBits_right_cancel hs ht (by rw [xorBits_comm s, xorBits_comm t, h])

end BitString

open BitString

/-! ### The bits of bytes -/

/-- The eight bits of a byte, the most significant first. -/
def byteBits (x : UInt8) : BitString := (List.range 8).map x.toBitVec.getMsbD

/-- The bits of a byte string. -/
def bits (bytes : List UInt8) : BitString := bytes.flatMap byteBits

@[simp] theorem length_byteBits (x : UInt8) : (byteBits x).length = 8 := by simp [byteBits]

theorem bit_byteBits (x : UInt8) (k : Nat) : (byteBits x).bit k = x.toBitVec.getMsbD k := by
  by_cases h : k < 8
  · simp [bit, byteBits, List.getD_eq_getElem?_getD, h]
  · rw [bit_of_le (by simpa using h), BitVec.getMsbD_of_ge _ _ (Nat.le_of_not_lt h)]

@[simp] theorem bits_nil : bits [] = [] := rfl

@[simp] theorem bits_cons (x : UInt8) (rest : List UInt8) :
    bits (x :: rest) = byteBits x ++ bits rest := rfl

@[simp] theorem bits_append (s t : List UInt8) : bits (s ++ t) = bits s ++ bits t :=
  List.flatMap_append ..

@[simp] theorem length_bits (bytes : List UInt8) : (bits bytes).length = 8 * bytes.length := by
  induction bytes with
  | nil => rfl
  | cons x rest ih =>
      rw [bits_cons, List.length_append, length_byteBits, ih, List.length_cons]
      omega

theorem bits_replicate_zero (n : Nat) : bits (List.replicate n 0) = zeros (8 * n) := by
  induction n with
  | zero => rfl
  | succ n ih =>
      rw [List.replicate_succ, bits_cons, ih, zeros, zeros, Nat.mul_succ, Nat.add_comm,
        ← List.replicate_append_replicate]
      rfl

theorem bit_bits (bytes : List UInt8) (k : Nat) :
    (bits bytes).bit k = (bytes.getD (k / 8) 0).toBitVec.getMsbD (k % 8) := by
  induction bytes generalizing k with
  | nil => simp [bit]
  | cons x rest ih =>
      rw [bits_cons, bit_append, length_byteBits]
      by_cases h : k < 8
      · rw [if_pos h, bit_byteBits, Nat.div_eq_of_lt h, Nat.mod_eq_of_lt h]
        rfl
      · have hdiv : k / 8 = (k - 8) / 8 + 1 := by omega
        have hmod : k % 8 = (k - 8) % 8 := by omega
        rw [if_neg h, ih, hdiv, hmod]
        rfl

theorem bits_drop (bytes : List UInt8) (n : Nat) : bits (bytes.drop n) = (bits bytes).drop (8 * n) := by
  induction bytes generalizing n with
  | nil => simp
  | cons x rest ih =>
      cases n with
      | zero => rfl
      | succ n =>
          have hn : 8 * (n + 1) = (byteBits x).length + 8 * n := by
            rw [length_byteBits]
            omega
          rw [List.drop_succ_cons, ih, bits_cons, hn, List.drop_append]
          simp

theorem bits_take (bytes : List UInt8) (n : Nat) : bits (bytes.take n) = (bits bytes).take (8 * n) := by
  by_cases h : n ≤ bytes.length
  · have hsplit : bits bytes = bits (bytes.take n) ++ bits (bytes.drop n) := by
      rw [← bits_append, List.take_append_drop]
    rw [hsplit, List.take_left']
    rw [length_bits, List.length_take, Nat.min_eq_left h]
  · have hlen : (bits bytes).length ≤ 8 * n := by
      rw [length_bits]
      omega
    rw [List.take_of_length_le (by omega), List.take_of_length_le hlen]

theorem byteBits_xor (x y : UInt8) : byteBits (x ^^^ y) = xorBits (byteBits x) (byteBits y) := by
  refine ext_bit (by rw [length_xorBits (by simp)]; simp) fun k _ => ?_
  rw [bit_xorBits (by simp), bit_byteBits, bit_byteBits, bit_byteBits, UInt8.toBitVec_xor,
    BitVec.getMsbD_xor]

theorem bits_zipWith_xor : ∀ {s t : List UInt8}, s.length = t.length →
    bits (List.zipWith (· ^^^ ·) s t) = xorBits (bits s) (bits t)
  | [], [], _ => rfl
  | x :: s, y :: t, h => by
      have hx : (byteBits x).length = (byteBits y).length := by simp
      rw [List.zipWith_cons_cons, bits_cons, bits_cons, bits_cons, byteBits_xor,
        bits_zipWith_xor (Nat.succ.inj h), xorBits, xorBits, xorBits, List.zipWith_append hx]

theorem byteBits_injective {x y : UInt8} (h : byteBits x = byteBits y) : x = y := by
  refine UInt8.eq_of_toBitVec_eq (BitVec.eq_of_getMsbD_eq fun k _ => ?_)
  rw [← bit_byteBits, ← bit_byteBits, h]

theorem bits_injective : ∀ {s t : List UInt8}, bits s = bits t → s = t
  | [], [], _ => rfl
  | [], y :: t, h => by
      have hlen := congrArg List.length h
      simp at hlen
      omega
  | x :: s, [], h => by
      have hlen := congrArg List.length h
      simp at hlen
  | x :: s, y :: t, h => by
      obtain ⟨hx, hs⟩ := List.append_inj h (by simp)
      rw [byteBits_injective hx, bits_injective hs]

/-! ### Bytes from bits -/

/-- The byte with these eight bits. -/
def byteOfBits (s : BitString) : UInt8 := UInt8.ofNat (str2num (s.take 8))

/-- The first `n` bytes of a bit string. -/
def bytesOfBits : Nat → BitString → List UInt8
  | 0, _ => []
  | n + 1, s => byteOfBits s :: bytesOfBits n (s.drop 8)

@[simp] theorem length_bytesOfBits (n : Nat) (s : BitString) : (bytesOfBits n s).length = n := by
  induction n generalizing s with
  | zero => rfl
  | succ n ih => simp [bytesOfBits, ih]

theorem byteOfBits_byteBits (x : UInt8) : UInt8.ofNat (str2num (byteBits x)) = x := by
  have h : ∀ v : BitVec 8, UInt8.ofNat (str2num (byteBits ⟨v⟩)) = ⟨v⟩ := by decide +kernel
  exact h x.toBitVec

theorem bytesOfBits_bits (bytes : List UInt8) : bytesOfBits bytes.length (bits bytes) = bytes := by
  induction bytes with
  | nil => rfl
  | cons x rest ih =>
      have htake : (bits (x :: rest)).take 8 = byteBits x := by
        rw [bits_cons, List.take_left' (length_byteBits x)]
      have hdrop : (bits (x :: rest)).drop 8 = bits rest := by
        rw [bits_cons, List.drop_left' (length_byteBits x)]
      rw [List.length_cons, bytesOfBits, byteOfBits, htake, hdrop, ih, byteOfBits_byteBits]

theorem byteBits_byteOfBits {s : BitString} (h : 8 ≤ s.length) : byteBits (byteOfBits s) = s.take 8 := by
  have hall : ∀ a b c d e f g i : Bool,
      byteBits (UInt8.ofNat (str2num [a, b, c, d, e, f, g, i])) = [a, b, c, d, e, f, g, i] := by
    decide +kernel
  obtain ⟨a, b, c, d, e, f, g, i, rest, rfl⟩ : ∃ a b c d e f g i rest,
      s = a :: b :: c :: d :: e :: f :: g :: i :: rest := by
    match s, h with
    | a :: b :: c :: d :: e :: f :: g :: i :: rest, _ => exact ⟨a, b, c, d, e, f, g, i, rest, rfl⟩
  exact hall a b c d e f g i

theorem bits_bytesOfBits {n : Nat} {s : BitString} (h : s.length = 8 * n) :
    bits (bytesOfBits n s) = s := by
  induction n generalizing s with
  | zero => simp [bytesOfBits, List.eq_nil_of_length_eq_zero h]
  | succ n ih =>
      rw [bytesOfBits, bits_cons, byteBits_byteOfBits (by omega),
        ih (by rw [List.length_drop]; omega), List.take_append_drop]

end Lib
