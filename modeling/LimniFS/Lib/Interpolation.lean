/-
Polynomials given by their values.

A polynomial of degree below `n` is known by its values at `n` points, and its value at zero is
a sum over them.  At fewer points its values say nothing about the value at zero: a mask takes
any value there and is zero at each of them.
-/
import Mathlib.Data.List.GetD
import Mathlib.LinearAlgebra.Lagrange

namespace Lib.Interpolation

open Polynomial Finset

variable {F : Type} [Field F]

/-! ### Lists of coefficients -/

/-- The polynomial with these coefficients, the constant term first. -/
noncomputable def ofCoeffs : List F → F[X]
  | [] => 0
  | c :: cs => C c + X * ofCoeffs cs

theorem eval_ofCoeffs (x : F) : ∀ cs : List F,
    (ofCoeffs cs).eval x = cs.foldr (fun c acc => acc * x + c) 0 := by
  intro cs
  induction cs with
  | nil => simp [ofCoeffs]
  | cons c cs ih =>
      rw [ofCoeffs, eval_add, eval_C, eval_mul, eval_X, ih, List.foldr_cons]
      ring

theorem eval_zero_ofCoeffs (c : F) (cs : List F) : (ofCoeffs (c :: cs)).eval 0 = c := by
  simp [ofCoeffs]

theorem coeff_ofCoeffs : ∀ (cs : List F) (i : Nat), (ofCoeffs cs).coeff i = cs.getD i 0 := by
  intro cs
  induction cs with
  | nil =>
      intro i
      simp [ofCoeffs]
  | cons c cs ih =>
      intro i
      cases i with
      | zero => simp [ofCoeffs]
      | succ i => simp [ofCoeffs, ih]

theorem degree_ofCoeffs_lt (cs : List F) : (ofCoeffs cs).degree < cs.length := by
  rw [degree_lt_iff_coeff_zero]
  intro i hi
  rw [coeff_ofCoeffs, List.getD_eq_default _ _ hi]

theorem ofCoeffs_add {p : F[X]} {cs : List F} (hp : p.degree < cs.length) :
    ofCoeffs (cs.zipWith (· + ·) ((List.range cs.length).map p.coeff)) = ofCoeffs cs + p := by
  ext i
  rw [coeff_add, coeff_ofCoeffs, coeff_ofCoeffs]
  by_cases hi : i < cs.length
  · simp [List.getD_eq_getElem?_getD, hi]
  · have hcoeff : p.coeff i = 0 := (degree_lt_iff_coeff_zero p _).mp hp i (by omega)
    rw [List.getD_eq_default _ _ (by simp; omega), List.getD_eq_default _ _ (by omega), hcoeff,
      add_zero]

/-! ### Values -/

/-- **Interpolation at zero.** -/
theorem eval_zero_eq_sum {p : F[X]} {n : Nat} {x : Nat → F} (hp : p.degree < n)
    (hx : ∀ i < n, ∀ j < n, x i = x j → i = j) :
    p.eval 0 = ∑ i ∈ range n, p.eval (x i)
      * ∏ j ∈ range n, if i = j then 1 else (0 - x j) / (x i - x j) := by
  have hinj : Set.InjOn x (range n) := by
    intro i hi j hj h
    exact hx i (by simpa using hi) j (by simpa using hj) h
  have heval := congrArg (eval 0) (Lagrange.eq_interpolate hinj (by rwa [card_range]))
  rw [heval, Lagrange.interpolate_apply, eval_finsetSum]
  refine sum_congr rfl fun i _ => ?_
  rw [eval_mul, eval_C, Lagrange.basis, eval_prod]
  refine congrArg (p.eval (x i) * ·) ?_
  rw [← prod_erase (a := i) (f := fun j => if i = j then 1 else (0 - x j) / (x i - x j)) _
    (if_pos rfl)]
  refine prod_congr rfl fun j hj => ?_
  have hne : ¬ i = j := fun h => (mem_erase.mp hj).1 h.symm
  rw [if_neg hne, Lagrange.basisDivisor, eval_mul, eval_C, eval_sub, eval_X, eval_C]
  ring

/-! ### Masks -/

/-- The polynomial with value `delta` at zero that vanishes on `S`. -/
noncomputable def mask (S : Finset F) (delta : F) : F[X] :=
  C (delta / (Lagrange.nodal S id).eval 0) * Lagrange.nodal S id

theorem eval_mask_zero {S : Finset F} (h : (0 : F) ∉ S) (delta : F) :
    (mask S delta).eval 0 = delta := by
  have hne : (Lagrange.nodal S id).eval (0 : F) ≠ 0 :=
    Lagrange.eval_nodal_not_at_node fun x hx heq => h (heq ▸ hx)
  rw [mask, eval_mul, eval_C, div_mul_cancel₀ _ hne]

theorem eval_mask_of_mem {S : Finset F} {x : F} (hx : x ∈ S) (delta : F) :
    (mask S delta).eval x = 0 := by
  have hnode : (Lagrange.nodal S id).eval x = 0 := Lagrange.eval_nodal_at_node (v := id) hx
  rw [mask, eval_mul, hnode, mul_zero]

theorem degree_mask_lt {S : Finset F} {k : Nat} (h : S.card < k) (delta : F) :
    (mask S delta).degree < k := by
  have hcard : ((S.card : Nat) : WithBot Nat) < k := by exact_mod_cast h
  refine lt_of_le_of_lt ?_ hcard
  rw [← Lagrange.degree_nodal (s := S) (v := id), mask, ← smul_eq_C_mul]
  exact degree_smul_le _ _

end Lib.Interpolation
