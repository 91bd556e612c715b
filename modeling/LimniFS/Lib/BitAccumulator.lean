/-
Bits through an accumulator.

A number that digits are shifted into from below is an accumulator; the digits that come out of it are
cut from above, and how many of its bits still count is kept beside it.  The bits above those are left
where they are and fall off the end of the word some time later.

What counts is a string of bits: pushing a digit puts its bits behind the string (`held_push`), and
popping one takes bits off its front (`held_pop`), as long as the string fits the word.  What is above
the string is never looked at, so a word that keeps everything gives the same digits.
-/
import Mathlib.Data.Nat.Bitwise
import Mathlib.Data.List.Flatten

namespace Lib

/-! ### Strings of bits -/

/-- The low `k` bits of a number, the highest first. -/
def bitsOf : Nat → Nat → List Bool
  | 0, _ => []
  | k + 1, n => bitsOf k (n / 2) ++ [n % 2 == 1]

@[simp] theorem bitsOf_length : ∀ k n : Nat, (bitsOf k n).length = k := by
  intro k
  induction k with
  | zero => intro n; rfl
  | succ k ih => intro n; simp [bitsOf, ih]

theorem bitsOf_add (j : Nat) : ∀ k n : Nat, bitsOf (j + k) n = bitsOf j (n / 2 ^ k) ++ bitsOf k n := by
  intro k
  induction k with
  | zero => intro n; simp [bitsOf]
  | succ k ih =>
      intro n
      rw [← Nat.add_assoc, bitsOf, ih, bitsOf, Nat.div_div_eq_div_mul, ← Nat.pow_succ', List.append_assoc]

theorem bitsOf_mod : ∀ k n : Nat, bitsOf k (n % 2 ^ k) = bitsOf k n := by
  intro k
  induction k with
  | zero => intro n; rfl
  | succ k ih =>
      intro n
      have hhigh : n % 2 ^ (k + 1) / 2 = n / 2 % 2 ^ k := by
        rw [Nat.pow_succ', Nat.mod_mul_right_div_self]
      have hlow : n % 2 ^ (k + 1) % 2 = n % 2 := by
        rw [Nat.pow_succ', Nat.mod_mul_right_mod]
      rw [bitsOf, bitsOf, hhigh, hlow, ih]

theorem bitsOf_congr {k m n : Nat} (h : m % 2 ^ k = n % 2 ^ k) : bitsOf k m = bitsOf k n := by
  rw [← bitsOf_mod, h, bitsOf_mod]

theorem bitsOf_shiftLeft_or {j k x y : Nat} (hy : y < 2 ^ k) :
    bitsOf (j + k) (x <<< k ||| y) = bitsOf j x ++ bitsOf k y := by
  have hsum : x <<< k ||| y = 2 ^ k * x + y := by
    rw [Nat.shiftLeft_eq, Nat.mul_comm, Nat.two_pow_add_eq_or_of_lt hy]
  rw [bitsOf_add, hsum, Nat.mul_add_div (Nat.two_pow_pos k), Nat.div_eq_of_lt hy, Nat.add_zero,
    bitsOf_congr (Nat.mul_add_mod _ _ _)]

theorem bitsOf_inj : ∀ {k m n : Nat}, bitsOf k m = bitsOf k n → m < 2 ^ k → n < 2 ^ k → m = n := by
  intro k
  induction k with
  | zero => intro m n _ hm hn; omega
  | succ k ih =>
      intro m n h hm hn
      rw [bitsOf, bitsOf] at h
      obtain ⟨hhigh, hlow⟩ := List.append_inj h (by simp)
      have hsame := ih hhigh (by omega) (by omega)
      have hparity : m % 2 = n % 2 := by
        rcases Nat.mod_two_eq_zero_or_one m with hm' | hm' <;>
          rcases Nat.mod_two_eq_zero_or_one n with hn' | hn' <;> simp [hm', hn'] at hlow ⊢
      omega

theorem bitsOf_zero : ∀ k : Nat, bitsOf k 0 = List.replicate k false := by
  intro k
  induction k with
  | zero => rfl
  | succ k ih => rw [bitsOf, ih, List.replicate_succ']; rfl

theorem bitsOf_eq_zeros {k n : Nat} : bitsOf k n = List.replicate k false ↔ n % 2 ^ k = 0 := by
  rw [← bitsOf_mod, ← bitsOf_zero]
  constructor
  · intro h
    exact bitsOf_inj h (Nat.mod_lt _ (Nat.two_pow_pos k)) (Nat.two_pow_pos k)
  · intro h
    rw [h]

theorem digits_inj {k : Nat} : ∀ {xs ys : List Nat}, 0 < k → (∀ x ∈ xs, x < 2 ^ k) →
    (∀ y ∈ ys, y < 2 ^ k) → xs.flatMap (bitsOf k) = ys.flatMap (bitsOf k) → xs = ys := by
  intro xs
  induction xs with
  | nil =>
      intro ys hk _ _ h
      cases ys with
      | nil => rfl
      | cons y rest =>
          have hlen := congrArg List.length h
          simp at hlen
          omega
  | cons x rest ih =>
      intro ys hk hx hy h
      cases ys with
      | nil =>
          have hlen := congrArg List.length h
          simp at hlen
          omega
      | cons y rest' =>
          rw [List.flatMap_cons, List.flatMap_cons] at h
          obtain ⟨hfirst, hrest⟩ := List.append_inj h (by simp)
          rw [bitsOf_inj hfirst (hx x List.mem_cons_self) (hy y List.mem_cons_self),
            ih hk (fun v hv => hx v (List.mem_cons_of_mem _ hv))
              (fun v hv => hy v (List.mem_cons_of_mem _ hv)) hrest]

theorem flatMap_bitsOf_length (k : Nat) (xs : List Nat) :
    (xs.flatMap (bitsOf k)).length = k * xs.length := by
  induction xs with
  | nil => simp
  | cons x rest ih => rw [List.flatMap_cons, List.length_append, ih, bitsOf_length, List.length_cons,
      Nat.mul_succ, Nat.add_comm]

/-! ### The accumulator -/

/-- A number, and how many of its low bits count. -/
structure Accumulator where
  buffer : Nat
  bits : Nat

/-- What a word keeps of a number agrees with it in the low `size` bits. -/
def KeepsLow (size : Nat) (wrap : Nat → Nat) : Prop := ∀ n, wrap n % 2 ^ size = n % 2 ^ size

theorem keepsLow_mod (size : Nat) : KeepsLow size (· % 2 ^ size) := fun _ => Nat.mod_mod _ _

theorem keepsLow_id (size : Nat) : KeepsLow size id := fun _ => rfl

namespace Accumulator

/-- Shift a digit of `w` bits in. -/
def push (wrap : Nat → Nat) (w v : Nat) (a : Accumulator) : Accumulator :=
  ⟨wrap (a.buffer <<< w) ||| v, a.bits + w⟩

/-- The first digit of `w` bits. -/
def top (w : Nat) (a : Accumulator) : Nat := (a.buffer >>> (a.bits - w)) &&& (2 ^ w - 1)

/-- The first digit of `w` bits no longer counts. -/
def pop (w : Nat) (a : Accumulator) : Accumulator := { a with bits := a.bits - w }

/-- The bits that count. -/
def held (a : Accumulator) : List Bool := bitsOf a.bits a.buffer

@[simp] theorem held_length (a : Accumulator) : a.held.length = a.bits := bitsOf_length _ _
@[simp] theorem push_bits (wrap : Nat → Nat) (w v : Nat) (a : Accumulator) :
    (a.push wrap w v).bits = a.bits + w := rfl
@[simp] theorem pop_bits (w : Nat) (a : Accumulator) : (a.pop w).bits = a.bits - w := rfl

theorem top_lt (w : Nat) (a : Accumulator) : a.top w < 2 ^ w := by
  rw [top, Nat.and_two_pow_sub_one_eq_mod]
  exact Nat.mod_lt _ (Nat.two_pow_pos w)

/-- **A digit is put behind what is held**, if it all fits the word. -/
theorem held_push {size w v : Nat} {wrap : Nat → Nat} (hwrap : KeepsLow size wrap) {a : Accumulator}
    (hroom : a.bits + w ≤ size) (hv : v < 2 ^ w) :
    (a.push wrap w v).held = a.held ++ bitsOf w v := by
  have hkept := hwrap (a.buffer <<< w)
  obtain ⟨extra, hextra⟩ : ∃ extra, size = w + a.bits + extra := ⟨size - (w + a.bits), by omega⟩
  -- the kept number is a multiple of `2 ^ w` that agrees with the buffer above
  have hlow : wrap (a.buffer <<< w) % 2 ^ w = 0 := by
    have hmod := congrArg (· % 2 ^ w) hkept
    simp only [hextra, Nat.pow_add, Nat.mul_assoc, Nat.mod_mul_right_mod] at hmod
    rw [hmod, Nat.shiftLeft_eq, Nat.mul_mod_left]
  obtain ⟨high, hhigh⟩ := Nat.dvd_of_mod_eq_zero hlow
  have hsum : wrap (a.buffer <<< w) ||| v = 2 ^ w * high + v := by
    rw [hhigh, Nat.two_pow_add_eq_or_of_lt hv]
  have hagree : high % 2 ^ a.bits = a.buffer % 2 ^ a.bits := by
    have hmod := congrArg (fun n => n / 2 ^ w % 2 ^ a.bits) hkept
    simp only [hextra, Nat.pow_add, Nat.mul_assoc] at hmod
    rw [Nat.mod_mul_right_div_self, Nat.mod_mul_right_div_self, Nat.mod_mul_right_mod,
      Nat.mod_mul_right_mod, hhigh, Nat.mul_div_cancel_left _ (Nat.two_pow_pos w), Nat.shiftLeft_eq,
      Nat.mul_div_cancel _ (Nat.two_pow_pos w)] at hmod
    exact hmod
  rw [held, push]
  simp only
  rw [bitsOf_add, hsum, Nat.mul_add_div (Nat.two_pow_pos w), Nat.div_eq_of_lt hv, Nat.add_zero, held,
    bitsOf_congr hagree, bitsOf_congr (Nat.mul_add_mod _ _ _)]

/-- **The first digit is taken off the front of what is held.** -/
theorem held_pop {w : Nat} {a : Accumulator} (h : w ≤ a.bits) :
    a.held = bitsOf w (a.top w) ++ (a.pop w).held := by
  obtain ⟨k, hk⟩ : ∃ k, a.bits = w + k := ⟨a.bits - w, by omega⟩
  have hrest : a.bits - w = k := by omega
  rw [held, held, pop, top, hrest, hk, bitsOf_add, Nat.and_two_pow_sub_one_eq_mod, bitsOf_mod,
    Nat.shiftRight_eq_div_pow]

/-! ### Taking digits while there are enough bits -/

/-- Take at most `fuel` digits of `w` bits. -/
def drainLoop (w : Nat) : Nat → Accumulator → List Nat × Accumulator
  | 0, a => ([], a)
  | fuel + 1, a =>
    if w ≤ a.bits then
      let (out, rest) := drainLoop w fuel (a.pop w)
      (a.top w :: out, rest)
    else ([], a)

/-- Take digits of `w` bits while there are enough bits for one. -/
def drain (w : Nat) (a : Accumulator) : List Nat × Accumulator := drainLoop w a.bits a

theorem drainLoop_spec {w : Nat} : ∀ (fuel : Nat) (a : Accumulator),
    a.held = (drainLoop w fuel a).1.flatMap (bitsOf w) ++ (drainLoop w fuel a).2.held ∧
      (∀ v ∈ (drainLoop w fuel a).1, v < 2 ^ w) ∧
      (a.bits < (fuel + 1) * w → (drainLoop w fuel a).2.bits < w) := by
  intro fuel
  induction fuel with
  | zero =>
      intro a
      refine ⟨rfl, fun v hv => absurd hv List.not_mem_nil, fun h => ?_⟩
      rwa [Nat.zero_add, Nat.one_mul] at h
  | succ fuel ih =>
      intro a
      rw [drainLoop]
      by_cases henough : w ≤ a.bits
      · rw [if_pos henough]
        obtain ⟨hheld, hlt, hleft⟩ := ih (a.pop w)
        refine ⟨?_, List.forall_mem_cons.mpr ⟨a.top_lt w, hlt⟩, fun h => hleft ?_⟩
        · rw [held_pop henough, hheld, List.flatMap_cons, List.append_assoc]
        · rw [Nat.succ_mul] at h
          rw [pop_bits]
          omega
      · rw [if_neg henough]
        exact ⟨rfl, fun v hv => absurd hv List.not_mem_nil, fun _ => Nat.lt_of_not_le henough⟩

/-- **Draining cuts what is held into digits**, and leaves less than one. -/
theorem drain_spec {w : Nat} (hw : 0 < w) (a : Accumulator) :
    a.held = (a.drain w).1.flatMap (bitsOf w) ++ (a.drain w).2.held ∧
      (∀ v ∈ (a.drain w).1, v < 2 ^ w) ∧ (a.drain w).2.bits < w := by
  obtain ⟨hheld, hlt, hleft⟩ := drainLoop_spec (w := w) a.bits a
  refine ⟨hheld, hlt, hleft ?_⟩
  calc a.bits < a.bits + 1 := Nat.lt_succ_self _
    _ ≤ (a.bits + 1) * w := Nat.le_mul_of_pos_right _ hw

end Accumulator

end Lib
