/-
Reed-Solomon shards, and the inverse of a matrix of bytes.

A set of `k` data shards gets `m` parity shards, made with a generator matrix whose first
`k` rows are the identity: a Vandermonde matrix times the inverse of its own top.  Any
`k` of the shards give the data back, through the inverse of the generator's rows at the
shards that are left.  Repair decodes the data and encodes it again.

Shards are lists of field elements, one for each byte.  An index out of range would
panic in the source; the checks in front rule it out, and here it reads zero.

The operations on the rows of a matrix are those of `Lib.GaussJordan`: a swap, a
scaled row, a multiple of the pivot row added to another.  In this field a number is its
own negative, so adding `factor` times the pivot row clears the column.
`invertMatrix_inverse` says that a matrix with a trivial kernel is inverted, and that the
error for a singular matrix is not met.
-/
import Mathlib.Data.List.GetD
import LimniFS.Gf256
import LimniFS.Lib.GaussJordan

namespace LimniFS.ReedSolomon

abbrev Shard := List GF256

abbrev GMatrix := List (List GF256)

inductive RsError where
  | invalidDataShardCount (k : Nat)
  | invalidParityShardCount (m : Nat)
  | tooManyShards (k m : Nat)
  | unexpectedShardCount (expected actual : Nat)
  | inconsistentShardLen
  | insufficientShards (have_ need : Nat)
  | singularMatrix
  /-- Not an error of the source: the inverse it expects is missing. -/
  | panicked
  deriving DecidableEq

/-! ### Matrices -/

/-- `a[i][j]`. -/
def cell (a : GMatrix) (i j : Nat) : GF256 := (a.getD i []).getD j 0

/-- `a.swap(i, j)`. -/
def swapRows (a : GMatrix) (i j : Nat) : GMatrix := (a.set i (a.getD j [])).set j (a.getD i [])

/-- The identity to the right of a matrix. -/
def augment (matrix : GMatrix) : GMatrix :=
  matrix.mapIdx fun i row => row ++ (List.replicate matrix.length 0).set i 1

/-- One row of the inner loop: the pivot row is taken out of row `r`. -/
def eliminateRow (col : Nat) (a : GMatrix) (r : Nat) : GMatrix :=
  if r = col then a
  else if cell a r col = 0 then a
  else a.set r (List.zipWith (· + ·) (a.getD r [])
    ((a.getD col []).map fun v => cell a r col * v))

/-- One column of the outer loop. -/
def eliminateColumn (k : Nat) (a : GMatrix) (col : Nat) : Except RsError GMatrix :=
  match (List.range' col (k - col)).find? fun r => cell a r col ≠ 0 with
  | none => .error .singularMatrix
  | some pivotRow =>
    let a := if pivotRow ≠ col then swapRows a col pivotRow else a
    let invPivot := GF256.inv (cell a col col)
    if invPivot = 0 ∧ cell a col col ≠ 0 then .error .singularMatrix
    else
      let a := a.set col ((a.getD col []).map fun byte => byte * invPivot)
      .ok ((List.range k).foldl (eliminateRow col) a)

def invertMatrix (matrix : GMatrix) : Except RsError GMatrix := do
  let k := matrix.length
  let a ← (List.range k).foldlM (eliminateColumn k) (augment matrix)
  pure (a.map fun row => row.drop k)

def matrixMul (a b : GMatrix) : GMatrix :=
  (List.range a.length).map fun i => (List.range ((b.head?.map List.length).getD 0)).map fun j =>
    (List.range b.length).foldl (fun acc k => acc + cell a i k * cell b k j) 0

/-- `V[i][j] = i^j`. -/
def vandermonde (n k : Nat) : GMatrix :=
  (List.range n).map fun i => (List.range k).map fun j => GF256.pow ⟨UInt8.ofNat i⟩ j

def buildGenerator (k m : Nat) : Except RsError GMatrix :=
  match invertMatrix ((vandermonde (k + m) k).take k) with
  | .error _ => .error .panicked
  | .ok vTopInv => .ok (matrixMul (vandermonde (k + m) k) vTopInv)

/-! ### Encoding and decoding -/

def validateParams (k m : Nat) : Except RsError Unit :=
  if k = 0 ∨ 255 < k then .error (.invalidDataShardCount k)
  else if m = 0 then .error (.invalidParityShardCount m)
  else if 255 < k + m then .error (.tooManyShards k m)
  else .ok ()

/-- Byte `b` of the sum of the shards, weighted by a matrix row. -/
def weightedByte (row : List GF256) (shards : List Shard) (b : Nat) : GF256 :=
  shards.zipIdx.foldl (fun acc s => acc + row.getD s.2 0 * s.1.getD b 0) 0

def weightedSum (shardLen : Nat) (shards : List Shard) (row : List GF256) : Shard :=
  (List.range shardLen).map (weightedByte row shards)

def encode (data : List Shard) (k m : Nat) : Except RsError (List Shard) := do
  validateParams k m
  if data.length ≠ k then .error (.unexpectedShardCount k data.length)
  else
    let shardLen := (data.head?.map List.length).getD 0
    if data.any (fun s => s.length ≠ shardLen) then .error .inconsistentShardLen
    else
      let g ← buildGenerator k m
      pure (data ++ ((g.take (k + m)).drop k).map (weightedSum shardLen data))

/-- The indices of the slots that are filled. -/
def survivorIndices (slots : List (Option Shard)) : List Nat :=
  slots.zipIdx.filterMap fun s => s.1.map fun _ => s.2

/-- `slots[i].expect(..)`. -/
def slotAt (slots : List (Option Shard)) (i : Nat) : Shard := (slots.getD i none).getD []

def decode (slots : List (Option Shard)) (k m : Nat) : Except RsError (List Shard) := do
  validateParams k m
  if slots.length ≠ k + m then .error (.unexpectedShardCount (k + m) slots.length)
  else if (survivorIndices slots).length < k then
    .error (.insufficientShards (survivorIndices slots).length k)
  else
    let chosen := (survivorIndices slots).take k
    let shardLen := (slotAt slots (chosen.headD 0)).length
    if chosen.any (fun i => (slotAt slots i).length ≠ shardLen) then .error .inconsistentShardLen
    else
      let g ← buildGenerator k m
      let decoder ← invertMatrix (chosen.map fun i => g.getD i [])
      pure (decoder.map (weightedSum shardLen (chosen.map (slotAt slots))))

/-! ### Repair -/

structure DegradedSlab where
  dataShards : List (Option Shard)
  parityShards : List (Option Shard)
  k : Nat
  m : Nat

structure RepairResult where
  dataShards : List Shard
  parityShards : List Shard
  reconstructed : List Nat
  deriving DecidableEq

inductive RepairError where
  | rs (e : RsError)
  | wrongArity (expected actual : Nat)
  deriving DecidableEq

def repairShards (degraded : DegradedSlab) : Except RepairError RepairResult :=
  if degraded.dataShards.length ≠ degraded.k then
    .error (.wrongArity degraded.k degraded.dataShards.length)
  else if degraded.parityShards.length ≠ degraded.m then
    .error (.wrongArity degraded.m degraded.parityShards.length)
  else do
    let slots := degraded.dataShards ++ degraded.parityShards
    let missing := slots.zipIdx.filterMap fun s => if s.1.isNone then some s.2 else none
    let data ← (decode slots degraded.k degraded.m).mapError .rs
    let full ← (encode data degraded.k degraded.m).mapError .rs
    pure ⟨data, full.drop degraded.k, missing⟩

open Finset Lib.GaussJordan

/-! ### Cells -/

/-- `k` rows of `w` cells. -/
structure Shape (k w : Nat) (a : GMatrix) : Prop where
  rows : a.length = k
  cols : ∀ row ∈ a, row.length = w

variable {k w c : Nat} {a : GMatrix}

theorem Shape.row_length (h : Shape k w a) {r : Nat} (hr : r < k) : (a.getD r []).length = w := by
  rw [List.getD_eq_getElem a [] (by rw [h.rows]; exact hr)]
  exact h.cols _ (List.getElem_mem _)

theorem Shape.set (h : Shape k w a) (i : Nat) {row : List GF256} (hrow : row.length = w) :
    Shape k w (a.set i row) := by
  refine ⟨by rw [List.length_set, h.rows], fun r hr => ?_⟩
  rcases List.mem_or_eq_of_mem_set hr with hr | rfl
  · exact h.cols r hr
  · exact hrow

theorem getD_set {i r : Nat} (hi : i < a.length) (row : List GF256) :
    (a.set i row).getD r [] = if r = i then row else a.getD r [] := by
  rw [List.getD_eq_getElem?_getD, List.getElem?_set, List.getD_eq_getElem?_getD]
  by_cases hr : r = i
  · rw [if_pos hr.symm, if_pos (hr ▸ hi), if_pos hr, Option.getD_some]
  · rw [if_neg (Ne.symm hr), if_neg hr]

theorem cell_set {i r j : Nat} (hi : i < a.length) (row : List GF256) :
    cell (a.set i row) r j = if r = i then row.getD j 0 else cell a r j := by
  unfold cell
  rw [getD_set hi]
  split
  · rfl
  · rfl

theorem getD_map_of_zero {f : GF256 → GF256} (hf : f 0 = 0) (row : List GF256) (j : Nat) :
    (row.map f).getD j 0 = f (row.getD j 0) := by
  have hmap := List.getD_map row 0 (n := j) f
  rwa [hf] at hmap

theorem getD_zipWith_add {xs ys : List GF256} (h : xs.length = ys.length) (j : Nat) :
    (List.zipWith (· + ·) xs ys).getD j 0 = xs.getD j 0 + ys.getD j 0 := by
  by_cases hj : j < xs.length
  · rw [List.getD_eq_getElem _ _ (by rw [List.length_zipWith]; omega),
      List.getD_eq_getElem _ _ hj, List.getD_eq_getElem _ _ (h ▸ hj), List.getElem_zipWith]
  · rw [List.getD_eq_default _ _ (by rw [List.length_zipWith]; omega),
      List.getD_eq_default _ _ (by omega), List.getD_eq_default _ _ (by omega), add_zero]

/-! ### The steps -/

theorem Shape.swapRows (h : Shape k w a) {i j : Nat} (hi : i < k) (hj : j < k) :
    Shape k w (swapRows a i j) :=
  (h.set i (h.row_length hj)).set j (h.row_length hi)

theorem cell_swapRows (h : Shape k w a) {i j : Nat} (hi : i < k) (hj : j < k) (r n : Nat) :
    cell (swapRows a i j) r n = swapped i j (cell a) r n := by
  have hia : i < a.length := by rw [h.rows]; exact hi
  unfold swapRows swapped
  rw [cell_set (by rw [List.length_set, h.rows]; exact hj), cell_set hia]
  split
  · rfl
  · split
    · rfl
    · rfl

theorem scaleRow_spec (h : Shape k w a) (hc : c < k) (s : GF256) :
    Shape k w (a.set c ((a.getD c []).map fun byte => byte * s)) ∧
      ∀ r j, cell (a.set c ((a.getD c []).map fun byte => byte * s)) r j =
        scaled c s (cell a) r j := by
  refine ⟨h.set c (by rw [List.length_map, h.row_length hc]), fun r j => ?_⟩
  unfold scaled
  rw [cell_set (by rw [h.rows]; exact hc), getD_map_of_zero (zero_mul s)]
  by_cases hr : r = c
  · rw [if_pos hr, if_pos hr, hr]
    rfl
  · rw [if_neg hr, if_neg hr]

theorem eliminateRow_spec (h : Shape k w a) {r : Nat} (hc : c < k) (hr : r < k) (hne : r ≠ c) :
    Shape k w (eliminateRow c a r) ∧
      ∀ i j, cell (eliminateRow c a r) i j = combined c r (cell a r c) (cell a) i j := by
  unfold eliminateRow
  rw [if_neg hne]
  by_cases hzero : cell a r c = 0
  · rw [if_pos hzero]
    refine ⟨h, fun i j => ?_⟩
    unfold combined
    rw [hzero, zero_mul, add_zero]
    split
    · rfl
    · rfl
  · rw [if_neg hzero]
    have hlen : (a.getD r []).length = ((a.getD c []).map fun v => cell a r c * v).length := by
      rw [List.length_map, h.row_length hr, h.row_length hc]
    refine ⟨h.set r ?_, fun i j => ?_⟩
    · rw [List.length_zipWith, ← hlen, Nat.min_self, h.row_length hr]
    · unfold combined
      rw [cell_set (by rw [h.rows]; exact hr), getD_zipWith_add hlen,
        getD_map_of_zero (mul_zero (cell a r c))]
      by_cases hi : i = r
      · rw [if_pos hi, if_pos hi, hi]
        rfl
      · rw [if_neg hi, if_neg hi]

/-! ### The loops -/

/-- After the first `n` rows of the inner loop. -/
structure Cleared (k : Nat) (M : Nat → Nat → GF256) (c n : Nat) (a : GMatrix) : Prop where
  shape : Shape k (k + k) a
  reduced : Partial k M c (cell a)
  pivot : cell a c c = 1
  cleared : ∀ r < n, r ≠ c → cell a r c = 0

variable {M : Nat → Nat → GF256}

theorem Cleared.step {n : Nat} (h : Cleared k M c n a) (hc : c < k) (hn : n < k) :
    Cleared k M c (n + 1) (eliminateRow c a n) := by
  by_cases hne : n = c
  · unfold eliminateRow
    rw [if_pos hne]
    refine ⟨h.shape, h.reduced, h.pivot, fun r hr hrc => h.cleared r (by omega) hrc⟩
  · obtain ⟨hshape, hcell⟩ := eliminateRow_spec h.shape hc hn hne
    refine ⟨hshape, (h.reduced.combine (Nat.le_refl c) hc (Ne.symm hne) (cell a n c)).congr
      fun r _ j => hcell r j, ?_, fun r hr hrc => ?_⟩
    · rw [hcell]
      unfold combined
      rw [if_neg (Ne.symm hne), h.pivot]
    · rw [hcell]
      unfold combined
      by_cases hrn : r = n
      · rw [if_pos hrn, hrn, h.pivot, mul_one, ← neg_eq_iff_add_eq_zero, GF256.neg_eq]
      · rw [if_neg hrn, h.cleared r (by omega) hrc]

theorem Cleared.run (h : Cleared k M c 0 a) (hc : c < k) : ∀ n ≤ k,
    Cleared k M c n ((List.range n).foldl (eliminateRow c) a) := by
  intro n
  induction n with
  | zero => exact fun _ => h
  | succ n ih =>
      intro hn
      rw [List.range_succ, List.foldl_append]
      exact (ih (by omega)).step hc (by omega)

/-- **One column.** -/
theorem eliminateColumn_spec (hshape : Shape k (k + k) a) (h : Partial k M c (cell a)) (hc : c < k) :
    ∃ a', eliminateColumn k a c = .ok a' ∧ Shape k (k + k) a' ∧ Partial k M (c + 1) (cell a') := by
  obtain ⟨r, hcr, hrk, hne⟩ := h.exists_pivot hc
  unfold eliminateColumn
  cases hfind : (List.range' c (k - c)).find? fun r => cell a r c ≠ 0 with
  | none =>
      have hmem : r ∈ List.range' c (k - c) := List.mem_range'_1.mpr ⟨hcr, by omega⟩
      exact absurd hne (by simpa using List.find?_eq_none.mp hfind r hmem)
  | some p =>
      simp only
      have hpivot : cell a p c ≠ 0 := by simpa using List.find?_some hfind
      have hp := List.mem_range'_1.mp (List.mem_of_find?_eq_some hfind)
      -- The pivot row is brought up, unless it is there already.
      obtain ⟨b, hb, hbshape, hbreduced, hbpivot⟩ : ∃ b,
          (if p ≠ c then swapRows a c p else a) = b ∧ Shape k (k + k) b ∧
            Partial k M c (cell b) ∧ cell b c c ≠ 0 := by
        by_cases hpc : p = c
        · refine ⟨a, if_neg (not_not_intro hpc), hshape, h, ?_⟩
          rw [hpc] at hpivot
          exact hpivot
        · have hpk : p < k := by omega
          refine ⟨_, if_pos hpc, hshape.swapRows hc hpk,
            (h.swap (Nat.le_refl c) hp.1 hc hpk).congr fun r _ j => cell_swapRows hshape hc hpk r j, ?_⟩
          rw [cell_swapRows hshape hc hpk, swapped, if_neg (Ne.symm hpc), if_pos rfl]
          exact hpivot
      rw [hb]
      have hinv : cell b c c * GF256.inv (cell b c c) = 1 := GF256.mul_inv _ hbpivot
      have hinvne : GF256.inv (cell b c c) ≠ 0 := right_ne_zero_of_mul_eq_one hinv
      rw [if_neg fun hzero => hinvne hzero.1]
      obtain ⟨hsshape, hscell⟩ := scaleRow_spec hbshape hc (GF256.inv (cell b c c))
      have hstart : Cleared k M c 0
          (b.set c ((b.getD c []).map fun byte => byte * GF256.inv (cell b c c))) := by
        refine ⟨hsshape, (hbreduced.scale (Nat.le_refl c) hinvne).congr fun r _ j => hscell r j, ?_,
          nofun⟩
        rw [hscell, scaled, if_pos rfl, hinv]
      have hdone := hstart.run hc k (Nat.le_refl k)
      exact ⟨_, rfl, hdone.shape, hdone.reduced.advance hdone.pivot hdone.cleared⟩

theorem eliminateColumns_spec (hshape : Shape k (k + k) a) (h : Partial k M 0 (cell a)) :
    ∀ n ≤ k, ∃ a', (List.range n).foldlM (eliminateColumn k) a = .ok a' ∧ Shape k (k + k) a' ∧
      Partial k M n (cell a') := by
  intro n
  induction n with
  | zero => exact fun _ => ⟨a, rfl, hshape, h⟩
  | succ n ih =>
      intro hn
      obtain ⟨b, hb, hbshape, hbreduced⟩ := ih (by omega)
      obtain ⟨a', ha', hshape', hreduced'⟩ := eliminateColumn_spec hbshape hbreduced (by omega)
      refine ⟨a', ?_, hshape', hreduced'⟩
      rw [List.range_succ, List.foldlM_append, hb]
      show [n].foldlM (eliminateColumn k) b = _
      rw [List.foldlM_cons, ha']
      rfl

theorem augment_spec {matrix : GMatrix} (h : Shape k k matrix) :
    Shape k (k + k) (augment matrix) ∧
      ∀ r < k, ∀ j, cell (augment matrix) r j = augmented k (cell matrix) r j := by
  have hget : ∀ r < k, (augment matrix).getD r [] =
      matrix.getD r [] ++ (List.replicate k 0).set r 1 := by
    intro r hr
    have hlen : r < matrix.length := by rw [h.rows]; exact hr
    rw [augment, h.rows, List.getD_eq_getElem?_getD, List.getElem?_mapIdx,
      List.getElem?_eq_getElem hlen, List.getD_eq_getElem _ _ hlen]
    rfl
  refine ⟨⟨by rw [augment, List.length_mapIdx, h.rows], fun row hrow => ?_⟩, fun r hr j => ?_⟩
  · obtain ⟨i, hi, rfl⟩ := List.mem_mapIdx.mp hrow
    rw [List.length_append, List.length_set, List.length_replicate, h.rows,
      h.cols _ (List.getElem_mem _)]
  · unfold cell augmented
    rw [hget r hr]
    by_cases hj : j < k
    · rw [if_pos hj, List.getD_append _ _ _ _ (by rw [h.row_length hr]; exact hj)]
    · rw [if_neg hj, List.getD_append_right _ _ _ _ (by rw [h.row_length hr]; omega),
        h.row_length hr, List.getD_eq_getElem?_getD, List.getElem?_set]
      by_cases hjr : j = k + r
      · rw [if_pos (by omega), if_pos (by rw [List.length_replicate]; exact hr), if_pos hjr]
        rfl
      · rw [if_neg (by omega), if_neg hjr, List.getElem?_replicate]
        split
        · rfl
        · rfl

/-- **A matrix with a trivial kernel is inverted.** -/
theorem invertMatrix_inverse {matrix : GMatrix} (h : Shape k k matrix)
    (hregular : Regular k (cell matrix)) :
    ∃ x, invertMatrix matrix = .ok x ∧ Shape k k x ∧ ∀ r < k, ∀ j < k,
      ∑ i ∈ range k, cell x r i * cell matrix i j = if r = j then 1 else 0 := by
  obtain ⟨hshape, hcell⟩ := augment_spec h
  obtain ⟨a, ha, hashape, hreduced⟩ := eliminateColumns_spec hshape
    ((partial_augmented hregular).congr hcell) k (Nat.le_refl k)
  refine ⟨a.map fun row => row.drop k, ?_, ⟨?_, fun row hrow => ?_⟩, fun r hr j hj => ?_⟩
  · unfold invertMatrix
    simp only [h.rows]
    rw [ha]
    rfl
  · rw [List.length_map, hashape.rows]
  · obtain ⟨full, hfull, rfl⟩ := List.mem_map.mp hrow
    rw [List.length_drop, hashape.cols full hfull]
    omega
  · rw [← hreduced.inverse hr hj]
    refine sum_congr rfl fun i _ => ?_
    have hright : cell (a.map fun row => row.drop k) r i = cell a r (k + i) := by
      have hrow : (a.map fun row => row.drop k).getD r [] = (a.getD r []).drop k := by
        have hmap := List.getD_map a [] (n := r) (fun row => row.drop k)
        rwa [List.drop_nil] at hmap
      unfold cell
      rw [hrow, List.getD_eq_getElem?_getD, List.getElem?_drop, ← List.getD_eq_getElem?_getD]
    rw [hright]

end LimniFS.ReedSolomon
