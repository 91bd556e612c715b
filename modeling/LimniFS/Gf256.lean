/-
The field of 256 elements.

A byte stands for a polynomial over two elements of degree below eight, and arithmetic is
modulo `x^8 + x^4 + x^3 + x + 1`.  Addition is exclusive or.  Multiplication is a loop that
shifts and adds; it is additive in each factor, so the laws of a field need to be looked
at on the eight powers of `x` only.
-/
import Mathlib.Algebra.Field.Basic
import Mathlib.Data.FinEnum
import Mathlib.Data.Nat.Bitwise
import Mathlib.Tactic.Ring
import LimniFS.Core

namespace LimniFS.Gf256

/-! ### The operations -/

def reductionPolynomial : UInt16 := 0x011B

def add (a b : UInt8) : UInt8 := a ^^^ b

/-- One shift of the first factor, reduced. -/
def shifted (a : UInt16) : UInt16 :=
  if a &&& 0x80 ≠ 0 then (a <<< 1) ^^^ reductionPolynomial else a <<< 1

/-- The loop of `mul`; a byte is zero after eight shifts. -/
def mulLoop : Nat → UInt16 → UInt8 → UInt16 → UInt16
  | 0, _, _, acc => acc
  | n + 1, a, b, acc =>
    if b = 0 then acc
    else mulLoop n (shifted a) (b >>> 1) (if b &&& 1 ≠ 0 then acc ^^^ a else acc)

def mul (a b : UInt8) : UInt8 := (mulLoop 8 a.toUInt16 b 0 &&& 0xFF).toUInt8

/-! ### Multiplication is additive in each factor -/

/-- `shifted` on bytes. -/
def timesX (a : UInt8) : UInt8 := (a <<< 1) ^^^ (if a &&& 0x80 ≠ 0 then 0x1B else 0)

/-- The sum `mul` computes: the shifts of `a` at the bits of `b`. -/
def shiftedSum : Nat → UInt8 → UInt8 → UInt8
  | 0, _, _ => 0
  | n + 1, a, b => (if b &&& 1 ≠ 0 then a else 0) ^^^ shiftedSum n (timesX a) (b >>> 1)

theorem shifted_toUInt16 : ∀ a : UInt8, shifted a.toUInt16 = (timesX a).toUInt16 := by
  decide +kernel

theorem shiftedSum_zero_right (n : Nat) : ∀ a : UInt8, shiftedSum n a 0 = 0 := by
  induction n with
  | zero =>
      intro a
      rfl
  | succ n ih =>
      intro a
      rw [shiftedSum, show (0 : UInt8) >>> 1 = 0 from rfl, ih, if_neg (by decide)]
      rfl

theorem mulLoop_eq (n : Nat) : ∀ a b acc : UInt8,
    mulLoop n a.toUInt16 b acc.toUInt16 = (acc ^^^ shiftedSum n a b).toUInt16 := by
  induction n with
  | zero =>
      intro a b acc
      rw [mulLoop, shiftedSum, UInt8.xor_zero]
  | succ n ih =>
      intro a b acc
      unfold mulLoop
      by_cases hb : b = 0
      · rw [if_pos hb, hb, shiftedSum_zero_right, UInt8.xor_zero]
      · rw [if_neg hb, shifted_toUInt16, shiftedSum]
        by_cases hbit : b &&& 1 ≠ 0
        · rw [if_pos hbit, if_pos hbit, ← UInt8.toUInt16_xor, ih, UInt8.xor_assoc]
        · rw [if_neg hbit, if_neg hbit, ih, UInt8.zero_xor]

theorem mul_eq_shiftedSum (a b : UInt8) : mul a b = shiftedSum 8 a b := by
  have hlow : ∀ c : UInt8, (c.toUInt16 &&& 0xFF).toUInt8 = c := by
    intro c
    rw [UInt16.toUInt8_and, UInt8.toUInt8_toUInt16]
    exact UInt8.and_neg_one
  have hloop := mulLoop_eq 8 a b 0
  rw [UInt8.zero_xor] at hloop
  unfold mul
  rw [show (0 : UInt16) = (0 : UInt8).toUInt16 from rfl, hloop, hlow]

theorem and_xor (a b m : UInt8) : (a ^^^ b) &&& m = (a &&& m) ^^^ (b &&& m) := by
  rw [← UInt8.toBitVec_inj]
  ext i hi
  simp [Bool.and_xor_distrib_right]

theorem and_bit {m : UInt8} {i : Nat} (hm : m.toNat = 2 ^ i) (a : UInt8) :
    a &&& m = 0 ∨ a &&& m = m := by
  rw [← UInt8.toNat_inj, ← UInt8.toNat_inj, UInt8.toNat_and, hm, Nat.and_two_pow]
  cases a.toNat.testBit i
  · left
    simp
  · right
    simp

theorem bit_xor {m : UInt8} {i : Nat} (hm : m.toNat = 2 ^ i) (a b c : UInt8) :
    (if (a ^^^ b) &&& m ≠ 0 then c else 0) =
      (if a &&& m ≠ 0 then c else 0) ^^^ (if b &&& m ≠ 0 then c else 0) := by
  rw [and_xor]
  rcases and_bit hm a with ha | ha <;> rcases and_bit hm b with hb | hb <;> rw [ha, hb]
  · simp
  · simp
  · simp
  · simp

theorem timesX_xor (a b : UInt8) : timesX (a ^^^ b) = timesX a ^^^ timesX b := by
  have hbit := bit_xor (m := 0x80) (i := 7) rfl a b 0x1B
  unfold timesX
  rw [UInt8.shiftLeft_xor, hbit]
  ac_rfl

theorem shiftedSum_xor_right (n : Nat) : ∀ a b c : UInt8,
    shiftedSum n a (b ^^^ c) = shiftedSum n a b ^^^ shiftedSum n a c := by
  induction n with
  | zero =>
      intro a b c
      simp [shiftedSum]
  | succ n ih =>
      intro a b c
      have hbit := bit_xor (m := 1) (i := 0) rfl b c a
      rw [shiftedSum, shiftedSum, shiftedSum, UInt8.shiftRight_xor, ih, hbit]
      ac_rfl

theorem shiftedSum_xor_left (n : Nat) : ∀ a b c : UInt8,
    shiftedSum n (a ^^^ b) c = shiftedSum n a c ^^^ shiftedSum n b c := by
  induction n with
  | zero =>
      intro a b c
      simp [shiftedSum]
  | succ n ih =>
      intro a b c
      rw [shiftedSum, shiftedSum, shiftedSum, timesX_xor, ih]
      by_cases hbit : c &&& 1 ≠ 0
      · rw [if_pos hbit, if_pos hbit, if_pos hbit]
        ac_rfl
      · rw [if_neg hbit, if_neg hbit, if_neg hbit]
        simp

theorem shiftedSum_timesX (n : Nat) : ∀ a b : UInt8,
    shiftedSum n (timesX a) b = timesX (shiftedSum n a b) := by
  induction n with
  | zero =>
      intro a b
      rw [shiftedSum, shiftedSum]
      rfl
  | succ n ih =>
      intro a b
      rw [shiftedSum, shiftedSum, timesX_xor, ih]
      by_cases hbit : b &&& 1 ≠ 0
      · rw [if_pos hbit, if_pos hbit]
      · rw [if_neg hbit, if_neg hbit]
        rfl

/-- A map that respects exclusive or. -/
def Additive (f : UInt8 → UInt8) : Prop := ∀ a b, f (a ^^^ b) = f a ^^^ f b

theorem additive_mul_right (a : UInt8) : Additive (mul a) := by
  intro b c
  rw [mul_eq_shiftedSum, mul_eq_shiftedSum, mul_eq_shiftedSum, shiftedSum_xor_right]

theorem additive_mul_left (b : UInt8) : Additive fun a => mul a b := by
  intro a c
  show mul (a ^^^ c) b = mul a b ^^^ mul c b
  rw [mul_eq_shiftedSum, mul_eq_shiftedSum, mul_eq_shiftedSum, shiftedSum_xor_left]

theorem Additive.comp {f g : UInt8 → UInt8} (hf : Additive f) (hg : Additive g) :
    Additive fun a => f (g a) := by
  intro a b
  show f (g (a ^^^ b)) = f (g a) ^^^ f (g b)
  rw [hg, hf]

/-! ### The laws -/

/-- The powers of `x`. -/
def basis : List UInt8 := (List.range 8).map fun i => timesX^[i] 1

theorem basis_eq : basis = [1, 2, 4, 8, 16, 32, 64, 128] := by
  decide

theorem eq_foldl_basis : ∀ a : UInt8,
    a = basis.foldl (fun acc e => acc ^^^ (if a &&& e ≠ 0 then e else 0)) 0 := by
  rw [basis_eq]
  decide +kernel

/-- **Additive maps that agree on the powers of `x` are equal.** -/
theorem Additive.ext {f g : UInt8 → UInt8} (hf : Additive f) (hg : Additive g)
    (h : ∀ e ∈ basis, f e = g e) : ∀ a, f a = g a := by
  have hzero : ∀ {f : UInt8 → UInt8}, Additive f → f 0 = 0 := by
    intro f hf
    have h0 := hf 0 0
    rw [UInt8.xor_self, UInt8.xor_self] at h0
    exact h0
  have hfold : ∀ (a : UInt8) (es : List UInt8), (∀ e ∈ es, f e = g e) → ∀ acc, f acc = g acc →
      f (es.foldl (fun acc e => acc ^^^ (if a &&& e ≠ 0 then e else 0)) acc) =
        g (es.foldl (fun acc e => acc ^^^ (if a &&& e ≠ 0 then e else 0)) acc) := by
    intro a es
    induction es with
    | nil =>
        intro _ acc hacc
        exact hacc
    | cons e es ih =>
        intro hes acc hacc
        obtain ⟨he, hes⟩ := List.forall_mem_cons.mp hes
        refine ih hes _ ?_
        rw [hf, hg, hacc]
        by_cases hbit : a &&& e ≠ 0
        · rw [if_pos hbit, he]
        · rw [if_neg hbit, hzero hf, hzero hg]
  intro a
  have hsum := hfold a basis h 0 ((hzero hf).trans (hzero hg).symm)
  rwa [← eq_foldl_basis a] at hsum

theorem one_mul : ∀ a : UInt8, mul 1 a = a := by
  refine Additive.ext (additive_mul_right 1) (fun _ _ => rfl) ?_
  rw [basis_eq]
  decide +kernel

theorem timesX_mul (a b : UInt8) : mul (timesX a) b = timesX (mul a b) := by
  rw [mul_eq_shiftedSum, mul_eq_shiftedSum, shiftedSum_timesX]

theorem iterate_timesX_mul (i : Nat) (b : UInt8) : mul (timesX^[i] 1) b = timesX^[i] b := by
  induction i with
  | zero => exact one_mul b
  | succ i ih => rw [Function.iterate_succ_apply', Function.iterate_succ_apply', timesX_mul, ih]

theorem mul_comm (a b : UInt8) : mul a b = mul b a := by
  refine Additive.ext (additive_mul_left b) (additive_mul_right b) (fun e he => ?_) a
  refine Additive.ext (additive_mul_right e) (additive_mul_left e) (fun e' he' => ?_) b
  obtain ⟨i, -, rfl⟩ := List.mem_map.mp he
  obtain ⟨j, -, rfl⟩ := List.mem_map.mp he'
  rw [iterate_timesX_mul, iterate_timesX_mul, ← Function.iterate_add_apply,
    ← Function.iterate_add_apply, Nat.add_comm]

theorem mul_assoc (a b c : UInt8) : mul (mul a b) c = mul a (mul b c) := by
  refine Additive.ext ((additive_mul_left c).comp (additive_mul_left b))
    (additive_mul_left (mul b c)) (fun e he => ?_) a
  obtain ⟨i, -, rfl⟩ := List.mem_map.mp he
  clear he
  rw [iterate_timesX_mul, iterate_timesX_mul]
  induction i with
  | zero => rfl
  | succ i ih => rw [Function.iterate_succ_apply', Function.iterate_succ_apply', timesX_mul, ih]

theorem eq_zero_or_one_of_mul_self : ∀ a : UInt8, mul a a = a → a = 0 ∨ a = 1 := by
  decide +kernel

def square (a : UInt8) : UInt8 := mul a a

theorem additive_square : Additive square := by
  intro a b
  unfold square
  have hleft := additive_mul_left (a ^^^ b) a b
  have hcancel : mul a b ^^^ mul a b = 0 := UInt8.xor_self
  simp only at hleft
  rw [hleft, additive_mul_right, additive_mul_right, mul_comm b a]
  calc mul a a ^^^ mul a b ^^^ (mul a b ^^^ mul b b)
      = mul a a ^^^ (mul a b ^^^ mul a b) ^^^ mul b b := by ac_rfl
    _ = mul a a ^^^ mul b b := by rw [hcancel, UInt8.xor_zero]

theorem iterate_square (a : UInt8) : square^[8] a = a := by
  have hadd : ∀ n, Additive square^[n] := by
    intro n
    induction n with
    | zero =>
        intro a b
        rfl
    | succ n ih =>
        intro a b
        rw [Function.iterate_succ_apply, Function.iterate_succ_apply, Function.iterate_succ_apply,
          additive_square, ih]
  have hid : Additive fun a => a := fun a b => rfl
  refine Additive.ext (hadd 8) hid ?_ a
  rw [basis_eq]
  decide +kernel

end LimniFS.Gf256

namespace LimniFS

/-! ### The field -/

/-- A byte as an element of the field. -/
structure GF256 where
  byte : UInt8
  deriving DecidableEq

namespace GF256

theorem ext {a b : GF256} (h : a.byte = b.byte) : a = b := by
  cases a
  cases b
  exact congrArg mk h

instance : CommRing GF256 where
  add a b := ⟨Gf256.add a.byte b.byte⟩
  add_assoc a b c := ext (UInt8.xor_assoc a.byte b.byte c.byte)
  zero := ⟨0⟩
  zero_add _ := ext UInt8.zero_xor
  add_zero _ := ext UInt8.xor_zero
  add_comm a b := ext (UInt8.xor_comm a.byte b.byte)
  nsmul := @nsmulRec _ ⟨⟨0⟩⟩ ⟨fun a b => ⟨Gf256.add a.byte b.byte⟩⟩
  zsmul := @zsmulRec _ ⟨⟨0⟩⟩ ⟨fun a b => ⟨Gf256.add a.byte b.byte⟩⟩ ⟨fun a => a⟩
    (@nsmulRec _ ⟨⟨0⟩⟩ ⟨fun a b => ⟨Gf256.add a.byte b.byte⟩⟩)
  neg a := a
  neg_add_cancel _ := ext UInt8.xor_self
  mul a b := ⟨Gf256.mul a.byte b.byte⟩
  left_distrib a b c := ext (Gf256.additive_mul_right a.byte b.byte c.byte)
  right_distrib a b c := ext (Gf256.additive_mul_left c.byte a.byte b.byte)
  zero_mul a := ext ((Gf256.additive_mul_left a.byte 0 0).trans UInt8.xor_self)
  mul_zero a := ext ((Gf256.additive_mul_right a.byte 0 0).trans UInt8.xor_self)
  mul_assoc a b c := ext (Gf256.mul_assoc a.byte b.byte c.byte)
  one := ⟨1⟩
  one_mul a := ext (Gf256.one_mul a.byte)
  mul_one a := ext ((Gf256.mul_comm a.byte 1).trans (Gf256.one_mul a.byte))
  mul_comm a b := ext (Gf256.mul_comm a.byte b.byte)

theorem neg_eq (a : GF256) : -a = a := rfl

/-- The loop of `gf256::pow`; a `u32` is zero after 32 shifts. -/
def powLoop : Nat → GF256 → Nat → GF256 → GF256
  | 0, _, _, acc => acc
  | n + 1, a, exp, acc =>
    if exp = 0 then acc
    else powLoop n (a * a) (exp / 2) (if exp % 2 = 1 then acc * a else acc)

def pow (a : GF256) (exp : Nat) : GF256 := powLoop 32 a exp 1

def inv (a : GF256) : GF256 := if a = 0 then 0 else pow a 254

theorem powLoop_eq (n : Nat) : ∀ (a acc : GF256) (exp : Nat), exp < 2 ^ n →
    powLoop n a exp acc = acc * a ^ exp := by
  induction n with
  | zero =>
      intro a acc exp h
      obtain rfl : exp = 0 := by omega
      rw [pow_zero, mul_one]
      rfl
  | succ n ih =>
      intro a acc exp h
      unfold powLoop
      by_cases hexp : exp = 0
      · rw [if_pos hexp, hexp, pow_zero, mul_one]
      · have hhalf : exp / 2 < 2 ^ n := by omega
        have hsplit : a ^ exp = (a * a) ^ (exp / 2) * a ^ (exp % 2) := by
          rw [← pow_two, ← pow_mul, ← pow_add, Nat.div_add_mod]
        rw [if_neg hexp, ih _ _ _ hhalf, hsplit]
        by_cases hodd : exp % 2 = 1
        · rw [if_pos hodd, hodd, pow_one]
          ring
        · rw [if_neg hodd, show exp % 2 = 0 by omega, pow_zero, mul_one]

/-- **`pow` is exponentiation.** -/
theorem pow_eq (a : GF256) {exp : Nat} (h : exp < u32Limit) : pow a exp = a ^ exp := by
  have hloop := powLoop_eq 32 a 1 exp h
  rwa [one_mul] at hloop

theorem pow_256 (a : GF256) : a ^ 256 = a := by
  have hiter : ∀ (n : Nat) (a : GF256), a ^ 2 ^ n = ⟨Gf256.square^[n] a.byte⟩ := by
    intro n
    induction n with
    | zero =>
        intro a
        exact pow_one a
    | succ n ih =>
        intro a
        rw [Function.iterate_succ_apply, pow_succ', pow_mul, pow_two]
        exact ih (a * a)
  rw [show 256 = 2 ^ 8 from rfl, hiter 8 a, Gf256.iterate_square]

theorem mul_inv (a : GF256) (ha : a ≠ 0) : a * inv a = 1 := by
  have hback : a ^ 255 * a = a := by
    rw [← pow_succ]
    exact pow_256 a
  have hsquare : a ^ 255 * a ^ 255 = a ^ 255 := by
    calc a ^ 255 * a ^ 255 = a ^ 255 * a * a ^ 254 := by ring
      _ = a ^ 255 := by rw [hback, ← pow_succ']
  unfold inv
  rw [if_neg ha, pow_eq a (by decide), ← pow_succ']
  rcases Gf256.eq_zero_or_one_of_mul_self _ (congrArg byte hsquare) with h | h
  · refine absurd ?_ ha
    rw [← hback, show a ^ 255 = 0 from ext h, zero_mul]
  · exact ext h

instance : Field GF256 where
  inv := inv
  exists_pair_ne := ⟨0, 1, by decide⟩
  mul_inv_cancel := mul_inv
  inv_zero := rfl
  nnqsmul := _
  nnqsmul_def := fun _ _ => rfl
  qsmul := _
  qsmul_def := fun _ _ => rfl

end GF256

end LimniFS
