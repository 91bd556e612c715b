/-
Shamir secret sharing.

Each byte of a secret is the constant term of a polynomial of degree below `k` over the field
of 256 elements; share `i` holds the values at `i`.  Any `k` shares give the secret back by
interpolation at zero, and more than `k` do too: the sum over the shares at hand is the value of
the one polynomial they all lie on.

The source of randomness is a closure with a state of its own; nothing is asked of it but that
it does not fail.
-/
import Mathlib.Data.UInt
import LimniFS.Gf256
import LimniFS.Lib.Interpolation

namespace LimniFS.Shamir

open Lib Lib.Interpolation Finset

inductive ShamirError where
  | thresholdTooSmall (k : Nat)
  | thresholdExceedsShares (k n : Nat)
  | tooManyShares (n : Nat)
  | emptySecret
  | noShares
  | malformedShare
  | inconsistentShareLen
  | duplicateIndex (index : UInt8)
  | rngFailed (reason : String)
  deriving DecidableEq

/-! ### The code -/

/-- Horner's method. -/
def evalPoly (coeffs : Bytes) (x : UInt8) : UInt8 :=
  coeffs.reverse.foldl (fun acc c => Gf256.add (Gf256.mul acc x) c) 0

/-- The inner loop of `lagrange_at_zero`: numerator and denominator of the `i`-th weight. -/
def weightAt (points : List (UInt8 × UInt8)) (i : Nat) (xi : UInt8) : UInt8 × UInt8 :=
  points.zipIdx.foldl (fun (acc : UInt8 × UInt8) point =>
    if i = point.2 then acc
    else (Gf256.mul acc.1 point.1.1, Gf256.mul acc.2 (xi ^^^ point.1.1))) (1, 1)

def lagrangeAtZero (points : List (UInt8 × UInt8)) : UInt8 :=
  points.zipIdx.foldl (fun acc point =>
    let (num, den) := weightAt points point.2 point.1.1
    acc ^^^ Gf256.mul point.1.2 (Gf256.mul num (GF256.inv ⟨den⟩).byte)) 0

/-- A closure that fills a buffer with random bytes. -/
abbrev Rng (σ : Type) := (n : Nat) → σ → Except ShamirError (Fixed n × σ)

section

variable {σ : Type}

/-- One row of coefficients for each byte of the secret, the byte in front. -/
def coefficientRows (rng : Rng σ) (k : Nat) : Bytes → σ → Except ShamirError (List Bytes × σ)
  | [], s => .ok ([], s)
  | byte :: secret, s =>
    match rng (k - 1) s with
    | .error e => .error e
    | .ok (out, s) =>
      match coefficientRows rng k secret s with
      | .error e => .error e
      | .ok (rows, s) => .ok ((byte :: out.val) :: rows, s)

/-- The share with an index: the index, and the value of each polynomial there. -/
def shareAt (coefficients : List Bytes) (index : Nat) : Bytes :=
  UInt8.ofNat index :: coefficients.map fun row => evalPoly row (UInt8.ofNat index)

def split (secret : Bytes) (k n : Nat) (rng : Rng σ) (s : σ) :
    Except ShamirError (List Bytes × σ) :=
  if k < 2 then .error (.thresholdTooSmall k)
  else if n < k then .error (.thresholdExceedsShares k n)
  else if 255 < n then .error (.tooManyShares n)
  else if secret = [] then .error .emptySecret
  else
    match coefficientRows rng k secret s with
    | .error e => .error e
    | .ok (coefficients, s) => .ok ((List.range' 1 n).map (shareAt coefficients), s)

end

/-- The first index that was seen before. -/
def seenTwice : List UInt8 → List UInt8 → Option UInt8
  | _, [] => none
  | seen, index :: rest => if index ∈ seen then some index else seenTwice (index :: seen) rest

/-- A share that passed the checks has an index and a byte for each byte of the secret; an index
out of range reads zero here. -/
def combine (shares : List Bytes) : Except ShamirError Bytes :=
  match shares with
  | [] => .error .noShares
  | first :: _ =>
    if first.length = 0 then .error .malformedShare
    else
      let bodyLen := first.length - 1
      if bodyLen = 0 then .error .malformedShare
      else if ∃ s ∈ shares, s.length ≠ bodyLen + 1 then .error .inconsistentShareLen
      else
        match seenTwice [] (shares.map fun s => s.getD 0 0) with
        | some index => .error (.duplicateIndex index)
        | none => .ok ((List.range bodyLen).map fun byteIdx =>
            lagrangeAtZero (shares.map fun s => (s.getD 0 0, s.getD (1 + byteIdx) 0)))

/-! ### Horner's method -/

theorem evalPoly_eq (x : UInt8) (coeffs : Bytes) :
    GF256.mk (evalPoly coeffs x) = (ofCoeffs (coeffs.map GF256.mk)).eval ⟨x⟩ := by
  rw [eval_ofCoeffs]
  unfold evalPoly
  rw [List.foldl_reverse]
  induction coeffs with
  | nil => rfl
  | cons c coeffs ih =>
      rw [List.map_cons, List.foldr_cons, List.foldr_cons, ← ih]
      rfl

/-! ### Interpolation -/

theorem weightAt_eq (i : Nat) (xi : UInt8) (points : List (UInt8 × UInt8)) :
    GF256.mk (weightAt points i xi).1
        = ∏ j ∈ range points.length, (if i = j then 1 else ⟨(points.getD j 0).1⟩) ∧
      GF256.mk (weightAt points i xi).2
        = ∏ j ∈ range points.length, (if i = j then 1 else ⟨xi⟩ + ⟨(points.getD j 0).1⟩) := by
  unfold weightAt
  induction points using List.reverseRecOn with
  | nil => exact ⟨rfl, rfl⟩
  | append_singleton points point ih =>
      have hold : ∀ f : Nat → UInt8 → GF256,
          ∏ j ∈ range points.length, f j ((points ++ [point]).getD j 0).1
            = ∏ j ∈ range points.length, f j (points.getD j 0).1 := by
        intro f
        refine prod_congr rfl fun j hj => ?_
        rw [List.getD_append _ _ _ _ (mem_range.mp hj)]
      have hlast : (points ++ [point]).getD points.length 0 = point := by
        rw [List.getD_append_right _ _ _ _ (Nat.le_refl _), Nat.sub_self]
        rfl
      rw [List.zipIdx_append, List.foldl_append, List.length_append, List.length_singleton,
        prod_range_succ, prod_range_succ, hlast,
        hold fun j x => if i = j then 1 else ⟨x⟩,
        hold fun j x => if i = j then 1 else ⟨xi⟩ + ⟨x⟩, ← ih.1, ← ih.2, Nat.zero_add,
        List.zipIdx_singleton, List.foldl_cons, List.foldl_nil]
      by_cases hi : i = points.length
      · rw [if_pos hi, if_pos hi, if_pos hi, mul_one, mul_one]
        exact ⟨rfl, rfl⟩
      · rw [if_neg hi, if_neg hi, if_neg hi]
        exact ⟨rfl, rfl⟩

theorem foldl_zipIdx_eq_sum (f : (UInt8 × UInt8) × Nat → UInt8) (points : List (UInt8 × UInt8)) :
    GF256.mk (points.zipIdx.foldl (fun acc point => acc ^^^ f point) 0)
      = ∑ i ∈ range points.length, ⟨f (points.getD i 0, i)⟩ := by
  induction points using List.reverseRecOn with
  | nil => rfl
  | append_singleton points point ih =>
      have hlast : (points ++ [point]).getD points.length 0 = point := by
        rw [List.getD_append_right _ _ _ _ (Nat.le_refl _), Nat.sub_self]
        rfl
      rw [List.zipIdx_append, List.foldl_append, List.length_append, List.length_singleton,
        sum_range_succ, hlast, Nat.zero_add, List.zipIdx_singleton, List.foldl_cons, List.foldl_nil]
      refine Eq.trans (congrArg (· + GF256.mk (f (point, points.length))) ih) ?_
      refine congrArg (· + GF256.mk (f (point, points.length))) (sum_congr rfl fun i hi => ?_)
      rw [List.getD_append _ _ _ _ (mem_range.mp hi)]

/-- **The sum over the points is the value at zero of the polynomial they lie on.** -/
theorem lagrangeAtZero_eq {p : Polynomial GF256} {points : List (UInt8 × UInt8)}
    (hp : p.degree < points.length) (hdistinct : (points.map Prod.fst).Nodup)
    (hon : ∀ point ∈ points, p.eval ⟨point.1⟩ = ⟨point.2⟩) :
    GF256.mk (lagrangeAtZero points) = p.eval 0 := by
  have hget : ∀ i < points.length, points.getD i 0 ∈ points := by
    intro i hi
    rw [List.getD_eq_getElem _ _ hi]
    exact List.getElem_mem hi
  have hinj : ∀ i < points.length, ∀ j < points.length,
      GF256.mk (points.getD i 0).1 = ⟨(points.getD j 0).1⟩ → i = j := by
    intro i hi j hj h
    have hbyte : (points.getD i 0).1 = (points.getD j 0).1 := congrArg GF256.byte h
    rw [List.getD_eq_getElem _ _ hi, List.getD_eq_getElem _ _ hj] at hbyte
    have hi' : i < (points.map Prod.fst).length := by rwa [List.length_map]
    have hj' : j < (points.map Prod.fst).length := by rwa [List.length_map]
    have hsame : (points.map Prod.fst)[i] = (points.map Prod.fst)[j] := by
      rw [List.getElem_map, List.getElem_map]
      exact hbyte
    exact hdistinct.getElem_inj_iff.mp hsame
  unfold lagrangeAtZero
  refine (foldl_zipIdx_eq_sum _ points).trans ?_
  rw [eval_zero_eq_sum hp hinj]
  refine sum_congr rfl fun i hi => ?_
  obtain ⟨hnum, hden⟩ := weightAt_eq i (points.getD i 0).1 points
  rw [hon _ (hget i (mem_range.mp hi))]
  refine congrArg (GF256.mk (points.getD i 0).2 * ·) ?_
  show GF256.mk (weightAt points i (points.getD i 0).1).1
    * (GF256.mk (weightAt points i (points.getD i 0).1).2)⁻¹ = _
  rw [hnum, hden, ← prod_inv_distrib, ← prod_mul_distrib]
  refine prod_congr rfl fun j _ => ?_
  by_cases hij : i = j
  · rw [if_pos hij, if_pos hij, if_pos hij, inv_one, mul_one]
  · rw [if_neg hij, if_neg hij, if_neg hij, div_eq_mul_inv, sub_eq_add_neg, sub_eq_add_neg,
      GF256.neg_eq, zero_add]

/-! ### Shares -/

section

variable {σ : Type} {rng : Rng σ} {k n : Nat} {secret : Bytes}

/-- A row of coefficients for a byte of the secret: the byte, and `k - 1` more. -/
def RowFor (k : Nat) (byte : UInt8) (row : Bytes) : Prop :=
  ∃ out : Fixed (k - 1), row = byte :: out.val

theorem coefficientRows_spec (hrng : ∀ n s, ∃ out, rng n s = .ok out) (k : Nat) :
    ∀ (secret : Bytes) (s : σ), ∃ rows s', coefficientRows rng k secret s = .ok (rows, s') ∧
      List.Forall₂ (RowFor k) secret rows := by
  intro secret
  induction secret with
  | nil =>
      intro s
      exact ⟨[], s, rfl, .nil⟩
  | cons byte secret ih =>
      intro s
      obtain ⟨⟨out, mid⟩, hout⟩ := hrng (k - 1) s
      obtain ⟨rows, s', hrows, hfor⟩ := ih mid
      refine ⟨(byte :: out.val) :: rows, s', ?_, .cons ⟨out, rfl⟩ hfor⟩
      unfold coefficientRows
      rw [hout]
      simp only
      rw [hrows]

theorem split_ok (hk : 2 ≤ k) (hkn : k ≤ n) (hn : n ≤ 255) (hsecret : secret ≠ []) (s : σ) :
    split secret k n rng s = (coefficientRows rng k secret s).map fun out =>
      ((List.range' 1 n).map (shareAt out.1), out.2) := by
  unfold split
  rw [if_neg (by omega), if_neg (by omega), if_neg (by omega), if_neg hsecret]
  cases coefficientRows rng k secret s with
  | error e => rfl
  | ok out => rfl

theorem shareAt_length (rows : List Bytes) (index : Nat) :
    (shareAt rows index).length = rows.length + 1 := by
  rw [shareAt, List.length_cons, List.length_map]

theorem exists_map_eq {α β : Type} {f : α → β} {l : List α} : ∀ {picked : List β},
    (∀ b ∈ picked, b ∈ l.map f) → ∃ idx : List α, picked = idx.map f ∧ ∀ a ∈ idx, a ∈ l := by
  intro picked
  induction picked with
  | nil =>
      intro _
      exact ⟨[], rfl, by simp⟩
  | cons b picked ih =>
      intro h
      obtain ⟨hb, hrest⟩ := List.forall_mem_cons.mp h
      obtain ⟨a, ha, rfl⟩ := List.mem_map.mp hb
      obtain ⟨idx, rfl, hidx⟩ := ih hrest
      exact ⟨a :: idx, rfl, List.forall_mem_cons.mpr ⟨ha, hidx⟩⟩

theorem seenTwice_of_nodup : ∀ {indices seen : List UInt8}, indices.Nodup →
    (∀ index ∈ indices, index ∉ seen) → seenTwice seen indices = none := by
  intro indices
  induction indices with
  | nil =>
      intro seen _ _
      rfl
  | cons index indices ih =>
      intro seen hnodup hfresh
      obtain ⟨hnot, hnodup⟩ := List.nodup_cons.mp hnodup
      unfold seenTwice
      rw [if_neg (hfresh index List.mem_cons_self)]
      refine ih hnodup fun other hother hseen => ?_
      rcases List.mem_cons.mp hseen with rfl | hseen
      · exact hnot hother
      · exact hfresh other (List.mem_cons_of_mem _ hother) hseen

theorem nodup_indices {idx : List Nat} (hnodup : idx.Nodup) (hlt : ∀ i ∈ idx, i < 256) :
    (idx.map UInt8.ofNat).Nodup := by
  refine hnodup.map_on fun i hi j hj h => ?_
  have hnat := congrArg UInt8.toNat h
  rw [UInt8.toNat_ofNat', UInt8.toNat_ofNat', Nat.mod_eq_of_lt (hlt i hi),
    Nat.mod_eq_of_lt (hlt j hj)] at hnat
  exact hnat

/-- **Any `k` points of a row's polynomial give its byte back.** -/
theorem lagrangeAtZero_row {byte : UInt8} {row : Bytes} (hrow : RowFor k byte row) (hk : 1 ≤ k)
    {indices : List UInt8} (hnodup : indices.Nodup) (hmany : k ≤ indices.length) :
    lagrangeAtZero (indices.map fun x => (x, evalPoly row x)) = byte := by
  obtain ⟨out, rfl⟩ := hrow
  have hdegree : (ofCoeffs ((byte :: out.val).map GF256.mk)).degree
      < (indices.map fun x => (x, evalPoly (byte :: out.val) x)).length := by
    refine lt_of_lt_of_le (degree_ofCoeffs_lt _) ?_
    rw [List.length_map, List.length_cons, out.2, List.length_map]
    exact_mod_cast (by omega)
  have hvalue := lagrangeAtZero_eq hdegree (by
    rw [List.map_map]
    exact hnodup.map_on fun _ _ _ _ h => h) (by
    intro point hpoint
    obtain ⟨x, -, rfl⟩ := List.mem_map.mp hpoint
    exact (evalPoly_eq x _).symm)
  rw [List.map_cons, eval_zero_ofCoeffs] at hvalue
  exact congrArg GF256.byte hvalue

theorem combine_eq {shares : List Bytes} {bodyLen : Nat} (hne : shares ≠ []) (hbody : bodyLen ≠ 0)
    (hlen : ∀ s ∈ shares, s.length = bodyLen + 1)
    (hnodup : (shares.map fun s => s.getD 0 0).Nodup) :
    combine shares = .ok ((List.range bodyLen).map fun byteIdx =>
      lagrangeAtZero (shares.map fun s => (s.getD 0 0, s.getD (1 + byteIdx) 0))) := by
  cases shares with
  | nil => exact absurd rfl hne
  | cons first rest =>
      have hfirst := hlen first List.mem_cons_self
      have hsame : ¬ ∃ s ∈ first :: rest, s.length ≠ bodyLen + 1 := by
        rintro ⟨s, hs, hother⟩
        exact hother (hlen s hs)
      unfold combine
      simp only
      rw [if_neg (by omega), hfirst, Nat.add_sub_cancel, if_neg hbody, if_neg hsame,
        seenTwice_of_nodup hnodup (fun _ _ => List.not_mem_nil)]

/-- Shares of the same rows at `k` indices or more. -/
theorem combine_shareAt {rows : List Bytes} (hfor : List.Forall₂ (RowFor k) secret rows)
    (hk : 1 ≤ k) (hsecret : secret ≠ []) {idx : List Nat} (hnodup : idx.Nodup)
    (hbound : ∀ i ∈ idx, i < 256) (hmany : k ≤ idx.length) :
    combine (idx.map (shareAt rows)) = .ok secret := by
  have hindices := nodup_indices hnodup hbound
  have hlen : rows.length = secret.length := hfor.length_eq.symm
  have hne : idx.map (shareAt rows) ≠ [] := by
    intro h
    rw [List.map_eq_nil_iff.mp h, List.length_nil] at hmany
    omega
  have hlens : ∀ s ∈ idx.map (shareAt rows), s.length = secret.length + 1 := by
    intro s hs
    obtain ⟨i, -, rfl⟩ := List.mem_map.mp hs
    rw [shareAt_length, hlen]
  have hheads : (idx.map (shareAt rows)).map (fun s => s.getD 0 0) = idx.map UInt8.ofNat := by
    rw [List.map_map]
    rfl
  rw [combine_eq hne (fun h => hsecret (List.length_eq_zero_iff.mp h)) hlens (by rwa [hheads])]
  refine congrArg Except.ok (List.ext_getElem (by simp) fun b hb hb' => ?_)
  have hb'' : b < rows.length := by omega
  have hrow : RowFor k secret[b] rows[b] := hfor.get hb' hb''
  rw [List.getElem_map, List.getElem_range, List.map_map]
  refine Eq.trans ?_ (lagrangeAtZero_row hrow hk hindices (by rwa [List.length_map]))
  rw [List.map_map]
  refine congrArg lagrangeAtZero (List.map_congr_left fun i _ => ?_)
  have hvalue : (shareAt rows i).getD (1 + b) 0 = evalPoly rows[b] (UInt8.ofNat i) := by
    rw [shareAt, Nat.add_comm, List.getD_cons_succ, List.getD_eq_getElem _ _ (by simpa using hb''),
      List.getElem_map]
  simp only [Function.comp_apply, hvalue]
  rfl

/-- **Any `k` or more distinct shares, in any order, give the secret back**, whatever the
random source fills in. -/
theorem threshold (hrng : ∀ n s, ∃ out, rng n s = .ok out) (hk : 2 ≤ k) (hkn : k ≤ n)
    (hn : n ≤ 255) (hsecret : secret ≠ []) (s : σ) :
    ∃ shares s', split secret k n rng s = .ok (shares, s') ∧
      ∀ picked : List Bytes, picked.Nodup → (∀ share ∈ picked, share ∈ shares) →
        k ≤ picked.length → combine picked = .ok secret := by
  obtain ⟨rows, s', hrows, hfor⟩ := coefficientRows_spec hrng k secret s
  refine ⟨(List.range' 1 n).map (shareAt rows), s', ?_, ?_⟩
  · rw [split_ok hk hkn hn hsecret, hrows]
    rfl
  · intro picked hpicked hfrom hmany
    obtain ⟨idx, rfl, hidx⟩ := exists_map_eq hfrom
    rw [List.length_map] at hmany
    refine combine_shareAt hfor (by omega) hsecret (List.Nodup.of_map _ hpicked) ?_ hmany
    intro i hi
    have hrange := List.mem_range'_1.mp (hidx i hi)
    omega

end

/-- A source that counts. -/
def countingRng : Rng UInt8 := fun n s => .ok (⟨List.replicate n s, List.length_replicate⟩, s + 1)

theorem threshold_two_of_three :
    ∃ shares s', split [0x68, 0x69] 2 3 countingRng 7 = .ok (shares, s') ∧
      ∀ picked : List Bytes, picked.Nodup → (∀ share ∈ picked, share ∈ shares) →
        2 ≤ picked.length → combine picked = .ok [0x68, 0x69] :=
  threshold (fun _ _ => ⟨_, rfl⟩) (by decide) (by decide) (by decide) (by decide) 7

end LimniFS.Shamir
