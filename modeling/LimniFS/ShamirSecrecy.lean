/-
Fewer than `k` shares say nothing about a secret.

For two secrets and fewer than `k` indices, adding a mask to each row of coefficients turns the
one secret into the other and leaves the shares at these indices as they are.  Adding it again
undoes it, so the coefficients of the two splits correspond one to one, and the shares seen are
distributed alike.
-/
import Mathlib.Probability.Distributions.Uniform
import LimniFS.Shamir

namespace LimniFS.Shamir

open Lib Lib.Interpolation

/-! ### Coefficients -/

/-- The random bytes of one split: `k - 1` for each byte of the secret. -/
abbrev Coefficients (k len : Nat) := Fin len → Fin (k - 1) → UInt8

def Coefficients.rows {k len : Nat} (c : Coefficients k len) : List Bytes :=
  List.ofFn fun i => List.ofFn (c i)

/-- A source that hands out these rows. -/
def replay : Rng (List Bytes) := fun n rows =>
  match rows with
  | [] => .error (.rngFailed "no row left")
  | row :: rows =>
    if h : row.length = n then .ok (⟨row, h⟩, rows) else .error (.rngFailed "row of another length")

/-- The shares a split with these coefficients hands out at the indices of `S`. -/
def sharesIn (S : Finset UInt8) (secret : Bytes) (k n : Nat) (rows : List Bytes) :
    Except ShamirError (List Bytes) :=
  (split secret k n replay rows).map fun out => out.1.filter fun share => share.getD 0 0 ∈ S

/-- The polynomials of a split: each byte of the secret with its coefficients. -/
def polynomials (k : Nat) (secret : Bytes) (c : Coefficients k secret.length) : List Bytes :=
  List.ofFn fun i : Fin secret.length => secret[i] :: List.ofFn (c i)

theorem coefficientRows_replay (k : Nat) : ∀ (secret : Bytes) (c : Coefficients k secret.length),
    coefficientRows replay k secret c.rows = .ok (polynomials k secret c, []) := by
  intro secret
  induction secret with
  | nil =>
      intro c
      rfl
  | cons byte secret ih =>
      intro c
      have hrows : c.rows = List.ofFn (c 0) :: Coefficients.rows (k := k) fun i => c i.succ :=
        List.ofFn_succ
      have hout : replay (k - 1) c.rows = .ok (⟨List.ofFn (c 0), List.length_ofFn⟩,
          Coefficients.rows (k := k) fun i => c i.succ) := by
        rw [hrows, replay]
        simp
      unfold coefficientRows
      rw [hout]
      simp only
      rw [ih fun i => c i.succ]
      simp only
      have hpolynomials : polynomials k (byte :: secret) c
          = (byte :: List.ofFn (c 0)) :: polynomials k secret fun i => c i.succ := List.ofFn_succ
      rw [hpolynomials]

/-- A split with given coefficients goes through. -/
theorem split_replay {k n : Nat} (hk : 2 ≤ k) (hkn : k ≤ n) (hn : n ≤ 255) {secret : Bytes}
    (hsecret : secret ≠ []) (c : Coefficients k secret.length) :
    split secret k n replay c.rows
      = .ok ((List.range' 1 n).map (shareAt (polynomials k secret c)), []) := by
  rw [split_ok hk hkn hn hsecret, coefficientRows_replay]
  rfl

/-! ### Masks -/

theorem GF256.add_add_cancel (a b : GF256) : a + (a + b) = b := by
  have hself : a + a = 0 := add_neg_cancel a
  rw [← add_assoc, hself, zero_add]

/-- The indices that occur, as elements of the field. -/
def nodes (S : Finset UInt8) : Finset GF256 := (S.erase 0).image GF256.mk

theorem zero_notMem_nodes (S : Finset UInt8) : (0 : GF256) ∉ nodes S := by
  intro h
  obtain ⟨x, hx, heq⟩ := Finset.mem_image.mp h
  exact (Finset.mem_erase.mp hx).1 (congrArg GF256.byte heq)

theorem card_nodes_le (S : Finset UInt8) : (nodes S).card ≤ S.card :=
  Finset.card_image_le.trans (Finset.card_erase_le)

theorem mem_nodes {S : Finset UInt8} {x : UInt8} (hx : x ∈ S) (h0 : x ≠ 0) : GF256.mk x ∈ nodes S :=
  Finset.mem_image.mpr ⟨x, Finset.mem_erase.mpr ⟨h0, hx⟩, rfl⟩

/-- The mask that turns one byte of a secret into another. -/
noncomputable def byteMask (S : Finset UInt8) (byte byte' : UInt8) : Polynomial GF256 :=
  mask (nodes S) (⟨byte⟩ + ⟨byte'⟩)

/-- The coefficients of a byte with the mask added. -/
noncomputable def maskRow {m : Nat} (S : Finset UInt8) (byte byte' : UInt8) (row : Fin m → UInt8) :
    Fin m → UInt8 :=
  fun j => row j ^^^ ((byteMask S byte byte').coeff (j + 1)).byte

theorem maskRow_comm {m : Nat} (S : Finset UInt8) (byte byte' : UInt8) (row : Fin m → UInt8) :
    maskRow S byte' byte row = maskRow S byte byte' row := by
  unfold maskRow byteMask
  rw [add_comm]

/-- **Adding the mask twice changes nothing.** -/
theorem maskRow_maskRow {m : Nat} (S : Finset UInt8) (byte byte' : UInt8) (row : Fin m → UInt8) :
    maskRow S byte byte' (maskRow S byte byte' row) = row := by
  funext j
  unfold maskRow
  rw [UInt8.xor_assoc, UInt8.xor_self, UInt8.xor_zero]

/-- **The masked row belongs to the other byte and has the same values at the indices of `S`.** -/
theorem evalPoly_maskRow {m : Nat} {S : Finset UInt8} (hS : S.card < m + 1) (byte byte' : UInt8)
    (row : Fin m → UInt8) {x : UInt8} (hx : x ∈ S) (h0 : x ≠ 0) :
    evalPoly (byte' :: List.ofFn (maskRow S byte byte' row)) x
      = evalPoly (byte :: List.ofFn row) x := by
  have hdegree : (byteMask S byte byte').degree
      < (((byte :: List.ofFn row).map GF256.mk).length : WithBot Nat) := by
    rw [List.length_map, List.length_cons, List.length_ofFn]
    exact degree_mask_lt (Nat.lt_of_le_of_lt (card_nodes_le S) hS) _
  have hconst : (byteMask S byte byte').coeff 0 = ⟨byte⟩ + ⟨byte'⟩ := by
    rw [Polynomial.coeff_zero_eq_eval_zero]
    exact eval_mask_zero (zero_notMem_nodes S) _
  have hrow : (byte' :: List.ofFn (maskRow S byte byte' row)).map GF256.mk
      = ((byte :: List.ofFn row).map GF256.mk).zipWith (· + ·)
        ((List.range ((byte :: List.ofFn row).map GF256.mk).length).map
          (byteMask S byte byte').coeff) := by
    refine List.ext_getElem (by simp) fun j hj hj' => ?_
    cases j with
    | zero =>
        simp only [List.map_cons, List.getElem_cons_zero, List.getElem_zipWith, List.getElem_map,
          List.getElem_range, hconst, GF256.add_add_cancel]
    | succ j =>
        simp only [List.map_cons, List.getElem_cons_succ, List.getElem_zipWith, List.getElem_map,
          List.getElem_range, List.getElem_ofFn]
        rfl
  have hvalue := congrArg (Polynomial.eval (⟨x⟩ : GF256)) (ofCoeffs_add hdegree)
  rw [← hrow, Polynomial.eval_add, ← evalPoly_eq, ← evalPoly_eq, byteMask,
    eval_mask_of_mem (mem_nodes hx h0), add_zero] at hvalue
  exact congrArg GF256.byte hvalue

/-! ### Secrecy -/

theorem uniform_map {α β : Type} [Fintype α] [Nonempty α] [Fintype β] [Nonempty β] (φ : α ≃ β) :
    (PMF.uniformOfFintype α).map φ = PMF.uniformOfFintype β := by
  ext b
  rw [PMF.map_apply, tsum_eq_single (φ.symm b), if_pos (φ.apply_symm_apply b).symm,
    PMF.uniformOfFintype_apply, PMF.uniformOfFintype_apply, Fintype.card_congr φ]
  intro a ha
  exact if_neg fun h => ha (by rw [h, Equiv.symm_apply_apply])

/-- The coefficients of a split of the one secret, made into ones for the other. -/
noncomputable def maskAll (k : Nat) (S : Finset UInt8) {secret secret' : Bytes}
    (hlen : secret.length = secret'.length) (c : Coefficients k secret.length) :
    Coefficients k secret'.length :=
  fun i => maskRow S secret[i] secret'[i] (c (i.cast hlen.symm))

theorem maskAll_maskAll (k : Nat) (S : Finset UInt8) {secret secret' : Bytes}
    (hlen : secret.length = secret'.length) (c : Coefficients k secret.length) :
    maskAll k S hlen.symm (maskAll k S hlen c) = c := by
  funext i
  unfold maskAll
  rw [maskRow_comm]
  exact maskRow_maskRow S _ _ _

/-- The shares at the indices of `S` after masking. -/
theorem sharesIn_maskAll {k n : Nat} (hk : 2 ≤ k) (hkn : k ≤ n) (hn : n ≤ 255)
    {secret secret' : Bytes} (hlen : secret.length = secret'.length) {S : Finset UInt8}
    (hS : S.card ≤ k - 1) (c : Coefficients k secret.length) :
    sharesIn S secret k n c.rows = sharesIn S secret' k n (maskAll k S hlen c).rows := by
  by_cases hsecret : secret = []
  · obtain rfl : secret' = [] := List.length_eq_zero_iff.mp (hlen ▸ by rw [hsecret]; rfl)
    unfold sharesIn split
    rw [if_neg (by omega), if_neg (by omega), if_neg (by omega), if_pos hsecret,
      if_neg (by omega), if_neg (by omega), if_neg (by omega), if_pos rfl]
  · have hsecret' : secret' ≠ [] := by
      intro h
      rw [h] at hlen
      exact hsecret (List.length_eq_zero_iff.mp hlen)
    unfold sharesIn
    rw [split_replay hk hkn hn hsecret, split_replay hk hkn hn hsecret']
    refine congrArg Except.ok ?_
    simp only [List.filter_map]
    refine List.map_congr_left fun index hindex => ?_
    obtain ⟨hrange, hin⟩ := List.mem_filter.mp hindex
    have hbound := List.mem_range'_1.mp hrange
    have hmem : UInt8.ofNat index ∈ S := by simpa [shareAt] using hin
    have h0 : UInt8.ofNat index ≠ 0 := by
      intro h
      have hnat := congrArg UInt8.toNat h
      rw [UInt8.toNat_ofNat', Nat.mod_eq_of_lt (show index < 2 ^ 8 by omega), UInt8.toNat_zero] at hnat
      omega
    unfold shareAt
    refine congrArg (UInt8.ofNat index :: ·) ?_
    unfold polynomials
    rw [List.map_ofFn, List.map_ofFn]
    refine List.ext_getElem (by simpa using hlen) fun i hi hi' => ?_
    rw [List.getElem_ofFn, List.getElem_ofFn]
    exact (evalPoly_maskRow (by omega) _ _ _ hmem h0).symm

/-- **For any two secrets of one length and any `k - 1` indices or fewer, the coefficients of
the two splits correspond one to one so that the shares at these indices are the same; with
uniform coefficients these shares are distributed alike.** -/
theorem secrecy {k n : Nat} (hk : 2 ≤ k) (hkn : k ≤ n) (hn : n ≤ 255) {secret secret' : Bytes}
    (hlen : secret.length = secret'.length) {S : Finset UInt8} (hS : S.card ≤ k - 1) :
    (∃ φ : Coefficients k secret.length ≃ Coefficients k secret'.length,
      ∀ c, sharesIn S secret k n c.rows = sharesIn S secret' k n (φ c).rows) ∧
    (PMF.uniformOfFintype (Coefficients k secret.length)).map
        (fun c => sharesIn S secret k n c.rows)
      = (PMF.uniformOfFintype (Coefficients k secret'.length)).map
        (fun c => sharesIn S secret' k n c.rows) := by
  let φ : Coefficients k secret.length ≃ Coefficients k secret'.length :=
    ⟨maskAll k S hlen, maskAll k S hlen.symm, maskAll_maskAll k S hlen, maskAll_maskAll k S hlen.symm⟩
  have hφ : ∀ c, sharesIn S secret k n c.rows = sharesIn S secret' k n (φ c).rows :=
    sharesIn_maskAll hk hkn hn hlen hS
  refine ⟨⟨φ, hφ⟩, ?_⟩
  rw [← uniform_map φ, PMF.map_comp]
  exact congrArg (PMF.map · _) (funext hφ)

/-- One share of three, two of which are needed. -/
theorem secrecy_one_of_three :
    (∃ φ : Coefficients 2 2 ≃ Coefficients 2 2,
      ∀ c, sharesIn {1} [0x68, 0x69] 2 3 c.rows = sharesIn {1} [0x6C, 0x6F] 2 3 (φ c).rows) ∧
    (PMF.uniformOfFintype (Coefficients 2 2)).map (fun c => sharesIn {1} [0x68, 0x69] 2 3 c.rows)
      = (PMF.uniformOfFintype (Coefficients 2 2)).map
        (fun c => sharesIn {1} [0x6C, 0x6F] 2 3 c.rows) :=
  @secrecy 2 3 (by decide) (by decide) (by decide) [0x68, 0x69] [0x6C, 0x6F] rfl {1} (by decide)

end LimniFS.Shamir
