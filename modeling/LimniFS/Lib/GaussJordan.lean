/-
Gauss-Jordan elimination, one row operation at a time.

A matrix is a function of two numbers, of which the first `k` rows and `k + k` columns
count: on the left the matrix being reduced, on the right the record of what was done to
it.  `Partial k M c A` says what holds when the first `c` columns are reduced.  Each row
operation keeps it, a pivot can always be found, and when all columns are reduced the
right half is the inverse of `M`.
-/
import Mathlib.Algebra.BigOperators.Ring.Finset
import Mathlib.Algebra.Field.Basic
import Mathlib.Tactic.Ring

namespace Lib.GaussJordan

open Finset

variable {F : Type} [Field F]

/-- The only vector of length `k` that the rows of `M` send to zero is zero. -/
def Regular (k : Nat) (M : Nat → Nat → F) : Prop :=
  ∀ v : Nat → F, (∀ r < k, ∑ j ∈ range k, M r j * v j = 0) → ∀ j < k, v j = 0

/-- The matrix with the identity to its right. -/
def augmented (k : Nat) (M : Nat → Nat → F) (r j : Nat) : F :=
  if j < k then M r j else if j = k + r then 1 else 0

structure Partial (k : Nat) (M : Nat → Nat → F) (c : Nat) (A : Nat → Nat → F) : Prop where
  tracked : ∀ r < k, ∀ j < k, A r j = ∑ i ∈ range k, A r (k + i) * M i j
  regular : Regular k A
  reduced : ∀ j < c, ∀ r < k, A r j = if r = j then 1 else 0

variable {k c : Nat} {M A : Nat → Nat → F}

theorem regular_congr {B : Nat → Nat → F} (h : ∀ r < k, ∀ j < k, A r j = B r j)
    (hA : Regular k A) : Regular k B := by
  intro v hv
  refine hA v fun r hr => ?_
  rw [← hv r hr]
  exact sum_congr rfl fun j hj => by rw [h r hr j (mem_range.mp hj)]

/-- **Before the first step.** -/
theorem partial_augmented (h : Regular k M) : Partial k M 0 (augmented k M) := by
  have hleft : ∀ r j, j < k → augmented k M r j = M r j := by
    intro r j hj
    unfold augmented
    rw [if_pos hj]
  refine ⟨fun r hr j hj => ?_, ?_, nofun⟩
  · rw [hleft r j hj, sum_eq_single r]
    · unfold augmented
      rw [if_neg (by omega), if_pos rfl, one_mul]
    · intro i _ hne
      unfold augmented
      rw [if_neg (by omega), if_neg (by omega), zero_mul]
    · intro hnot
      exact absurd (mem_range.mpr hr) hnot
  · exact regular_congr (fun r _ j hj => (hleft r j hj).symm) h

/-- **There is a pivot**: otherwise the reduced columns would span the next one. -/
theorem Partial.exists_pivot (h : Partial k M c A) (hc : c < k) : ∃ r, c ≤ r ∧ r < k ∧ A r c ≠ 0 := by
  by_contra hnone
  have hzero : ∀ r, c ≤ r → r < k → A r c = 0 := by
    intro r hle hlt
    by_contra hne
    exact hnone ⟨r, hle, hlt, hne⟩
  -- A vector in the kernel with a one in place `c`.
  let v : Nat → F := fun j => if j < c then -A j c else if j = c then 1 else 0
  have hvc : v c = 1 := by simp [v]
  have hkernel : ∀ r < k, ∑ j ∈ range k, A r j * v j = 0 := by
    intro r hr
    have hreduced : ∀ j ∈ range k, A r j * v j =
        (if j = r then (if r < c then -A r c else 0) else 0) + if j = c then A r c else 0 := by
      intro j _
      by_cases hjc : j < c
      · have hvj : v j = -A j c := by simp [v, hjc]
        rw [hvj, h.reduced j hjc r hr, if_neg (by omega : ¬ j = c), add_zero]
        by_cases hrj : r = j
        · rw [if_pos hrj, if_pos hrj.symm, if_pos (by omega), hrj, one_mul]
        · rw [if_neg hrj, if_neg (Ne.symm hrj), zero_mul]
      · by_cases heq : j = c
        · rw [heq, hvc, if_pos rfl, mul_one]
          by_cases hrc : c = r
          · rw [if_pos hrc, if_neg (by omega), zero_add]
          · rw [if_neg hrc, zero_add]
        · have hvj : v j = 0 := by simp [v, hjc, heq]
          rw [hvj, mul_zero, if_neg heq, add_zero]
          by_cases hrj : j = r
          · rw [if_pos hrj, if_neg (by omega)]
          · rw [if_neg hrj]
    rw [sum_congr rfl hreduced, sum_add_distrib, sum_ite_eq', sum_ite_eq',
      if_pos (mem_range.mpr hr), if_pos (mem_range.mpr hc)]
    by_cases hrc : r < c
    · rw [if_pos hrc, neg_add_cancel]
    · rw [if_neg hrc, zero_add]
      exact hzero r (by omega) hr
  have hone := h.regular v hkernel c hc
  rw [hvc] at hone
  exact one_ne_zero hone

/-- Rows `p` and `q` change places. -/
def swapped (p q : Nat) (A : Nat → Nat → F) (r : Nat) : Nat → F :=
  if r = q then A p else if r = p then A q else A r

theorem Partial.swap (h : Partial k M c A) {p q : Nat} (hp : c ≤ p) (hq : c ≤ q) (hpk : p < k)
    (hqk : q < k) : Partial k M c (swapped p q A) := by
  refine ⟨fun r hr j hj => ?_, fun v hv => h.regular v fun r hr => ?_, fun j hj r hr => ?_⟩
  · unfold swapped
    split
    · exact h.tracked p hpk j hj
    · split
      · exact h.tracked q hqk j hj
      · exact h.tracked r hr j hj
  · by_cases hrq : r = q
    · by_cases hpq : q = p
      · have hrow := hv r hr
        unfold swapped at hrow
        rw [if_pos hrq, ← hpq, ← hrq] at hrow
        exact hrow
      · have hrow := hv p hpk
        unfold swapped at hrow
        rw [if_neg (Ne.symm hpq), if_pos rfl] at hrow
        rw [hrq]
        exact hrow
    · by_cases hrp : r = p
      · have hrow := hv q hqk
        unfold swapped at hrow
        rw [if_pos rfl] at hrow
        rw [hrp]
        exact hrow
      · have hrow := hv r hr
        unfold swapped at hrow
        rw [if_neg hrq, if_neg hrp] at hrow
        exact hrow
  · unfold swapped
    split
    · next hrq => rw [h.reduced j hj p hpk, if_neg (by omega), if_neg (by omega)]
    · split
      · next hrp => rw [h.reduced j hj q hqk, if_neg (by omega), if_neg (by omega)]
      · exact h.reduced j hj r hr

/-- Row `p` is multiplied by `s`. -/
def scaled (p : Nat) (s : F) (A : Nat → Nat → F) (r j : Nat) : F :=
  if r = p then A r j * s else A r j

theorem Partial.scale (h : Partial k M c A) {p : Nat} (hp : c ≤ p) {s : F} (hs : s ≠ 0) :
    Partial k M c (scaled p s A) := by
  refine ⟨fun r hr j hj => ?_, fun v hv => h.regular v fun r hr => ?_, fun j hj r hr => ?_⟩
  · unfold scaled
    split
    · rw [h.tracked r hr j hj, sum_mul]
      exact sum_congr rfl fun i _ => by ring
    · exact h.tracked r hr j hj
  · have hrow := hv r hr
    unfold scaled at hrow
    split at hrow
    · have hfactor : ∑ j ∈ range k, A r j * s * v j = (∑ j ∈ range k, A r j * v j) * s := by
        rw [sum_mul]
        exact sum_congr rfl fun j _ => by ring
      rw [hfactor] at hrow
      exact (mul_eq_zero.mp hrow).resolve_right hs
    · exact hrow
  · unfold scaled
    split
    · rw [h.reduced j hj r hr, if_neg (by omega), zero_mul]
    · exact h.reduced j hj r hr

/-- `t` times row `p` is added to row `q`. -/
def combined (p q : Nat) (t : F) (A : Nat → Nat → F) (r j : Nat) : F :=
  if r = q then A r j + t * A p j else A r j

theorem Partial.combine (h : Partial k M c A) {p q : Nat} (hp : c ≤ p) (hpk : p < k) (hpq : p ≠ q)
    (t : F) : Partial k M c (combined p q t A) := by
  refine ⟨fun r hr j hj => ?_, fun v hv => h.regular v fun r hr => ?_, fun j hj r hr => ?_⟩
  · unfold combined
    split
    · rw [h.tracked r hr j hj, h.tracked p hpk j hj, mul_sum, ← sum_add_distrib]
      exact sum_congr rfl fun i _ => by ring
    · exact h.tracked r hr j hj
  · have hpivot := hv p hpk
    unfold combined at hpivot
    rw [sum_congr rfl fun j _ => by rw [if_neg hpq]] at hpivot
    have hrow := hv r hr
    unfold combined at hrow
    split at hrow
    · have hsplit : ∑ j ∈ range k, (A r j + t * A p j) * v j =
          (∑ j ∈ range k, A r j * v j) + t * ∑ j ∈ range k, A p j * v j := by
        rw [mul_sum, ← sum_add_distrib]
        exact sum_congr rfl fun j _ => by ring
      rwa [hsplit, hpivot, mul_zero, add_zero] at hrow
    · exact hrow
  · unfold combined
    split
    · rw [h.reduced j hj r hr, h.reduced j hj p hpk, if_neg (by omega : ¬ p = j), mul_zero, add_zero]
    · exact h.reduced j hj r hr

theorem Partial.advance (h : Partial k M c A) (hone : A c c = 1)
    (hzero : ∀ r < k, r ≠ c → A r c = 0) : Partial k M (c + 1) A := by
  refine ⟨h.tracked, h.regular, fun j hj r hr => ?_⟩
  rcases Nat.lt_succ_iff_lt_or_eq.mp hj with hlt | rfl
  · exact h.reduced j hlt r hr
  · by_cases hrj : r = j
    · rw [if_pos hrj, hrj, hone]
    · rw [if_neg hrj, hzero r hr hrj]

/-- **At the end the right half is a left inverse.** -/
theorem Partial.inverse (h : Partial k M k A) {r j : Nat} (hr : r < k) (hj : j < k) :
    ∑ i ∈ range k, A r (k + i) * M i j = if r = j then 1 else 0 := by
  rw [← h.tracked r hr j hj, h.reduced j hj r hr]

theorem Partial.congr (h : Partial k M c A) {B : Nat → Nat → F}
    (hB : ∀ r < k, ∀ j, B r j = A r j) : Partial k M c B := by
  refine ⟨fun r hr j hj => ?_, ?_, fun j hj r hr => ?_⟩
  · rw [hB r hr j, h.tracked r hr j hj]
    exact sum_congr rfl fun i _ => by rw [hB r hr (k + i)]
  · exact regular_congr (fun r hr j _ => (hB r hr j).symm) h.regular
  · rw [hB r hr j, h.reduced j hj r hr]

end Lib.GaussJordan
