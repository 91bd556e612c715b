/-
Any `k` shards give the data back.

Row `i` of the Vandermonde matrix holds the powers of the `i`th element, and rows of
distinct elements have a trivial kernel.  That makes the inverse of the top exist, and
with it every choice of `k` rows of the generator invertible; the top of the generator is
the identity.

A shard is the generator's row times the data, the data shards too, because of that top;
so the inverse of the rows at the shards that are left undoes the encoding.  Repair then
encodes the same data again.
-/
import Mathlib.LinearAlgebra.Vandermonde
import LimniFS.ReedSolomon

namespace LimniFS.ReedSolomon

open Finset Lib.GaussJordan

/-! ### Sums -/

theorem getD_map_range {α : Type} (f : Nat → α) {n i : Nat} (d : α) (hi : i < n) :
    ((List.range n).map f).getD i d = f i := by
  rw [List.getD_eq_getElem _ _ (by rw [List.length_map, List.length_range]; exact hi),
    List.getElem_map, List.getElem_range]

theorem foldl_range_eq_sum (f : Nat → GF256) (n : Nat) :
    (List.range n).foldl (fun acc i => acc + f i) 0 = ∑ i ∈ range n, f i := by
  induction n with
  | zero => rfl
  | succ n ih =>
      rw [List.range_succ, List.foldl_append, ih, sum_range_succ]
      rfl

theorem weightedByte_eq_sum (row : List GF256) (shards : List Shard) (b : Nat) :
    weightedByte row shards b =
      ∑ i ∈ range shards.length, row.getD i 0 * (shards.getD i []).getD b 0 := by
  unfold weightedByte
  induction shards using List.reverseRecOn with
  | nil => rfl
  | append_singleton shards s ih =>
      rw [List.zipIdx_append, List.foldl_append, ih, List.length_append, List.length_singleton,
        sum_range_succ]
      have hlast : ((shards ++ [s]).getD shards.length []) = s := by
        rw [List.getD_append_right _ _ _ _ (Nat.le_refl _), Nat.sub_self]
        rfl
      rw [hlast]
      refine congrArg₂ (· + ·) (sum_congr rfl fun i hi => ?_) (by simp)
      rw [List.getD_append _ _ _ _ (mem_range.mp hi)]

theorem weightedSum_getD {len b : Nat} (hb : b < len) (shards : List Shard) (row : List GF256) :
    (weightedSum len shards row).getD b 0 = weightedByte row shards b := by
  rw [weightedSum, getD_map_range _ _ hb]

theorem shard_ext {s t : Shard} {len : Nat} (hs : s.length = len) (ht : t.length = len)
    (h : ∀ b < len, s.getD b 0 = t.getD b 0) : s = t := by
  refine List.ext_getElem (hs.trans ht.symm) fun b hb hb' => ?_
  have hbyte := h b (hs ▸ hb)
  rwa [List.getD_eq_getElem _ _ hb, List.getD_eq_getElem _ _ hb'] at hbyte

/-! ### The Vandermonde matrix -/

/-- The element a row is made of. -/
def element (i : Nat) : GF256 := ⟨UInt8.ofNat i⟩

theorem element_injective {i j : Nat} (hi : i < 256) (hj : j < 256) (h : element i = element j) :
    i = j := by
  have hbyte := congrArg (fun a => a.byte.toNat) h
  simp only [element, UInt8.toNat_ofNat'] at hbyte
  omega

theorem vandermonde_spec {n k : Nat} (hk : k ≤ 255) :
    Shape n k (vandermonde n k) ∧
      ∀ i < n, ∀ j < k, cell (vandermonde n k) i j = element i ^ j := by
  refine ⟨⟨?_, fun row hrow => ?_⟩, fun i hi j hj => ?_⟩
  · rw [vandermonde, List.length_map, List.length_range]
  · obtain ⟨i, -, rfl⟩ := List.mem_map.mp hrow
    rw [List.length_map, List.length_range]
  · have hlt : j < u32Limit := Nat.lt_trans hj (Nat.lt_of_le_of_lt hk (by decide))
    unfold cell vandermonde
    rw [getD_map_range _ _ hi, getD_map_range _ _ hj, GF256.pow_eq _ hlt]
    rfl

/-- **Rows of distinct elements have a trivial kernel.** -/
theorem regular_powers {k : Nat} {index : Nat → Nat} (hlt : ∀ r < k, index r < 256)
    (hinj : ∀ r < k, ∀ r' < k, index r = index r' → r = r') :
    Regular k fun r j => element (index r) ^ j := by
  intro v hv
  have hzero : (fun i : Fin k => v i) = 0 := by
    refine Matrix.eq_zero_of_forall_index_sum_pow_mul_eq_zero
      (f := fun r : Fin k => element (index r)) ?_ ?_
    · intro r r' h
      exact Fin.ext (hinj r r.2 r' r'.2 (element_injective (hlt r r.2) (hlt r' r'.2) h))
    · intro r
      rw [← hv r r.2, sum_range]
  intro j hj
  exact congrFun hzero ⟨j, hj⟩

/-! ### The generator -/

theorem matrixMul_spec {n k : Nat} (hk : 0 < k) {a b : GMatrix} (ha : a.length = n)
    (hb : Shape k k b) :
    Shape n k (matrixMul a b) ∧ ∀ i < n, ∀ j < k,
      cell (matrixMul a b) i j = ∑ l ∈ range k, cell a i l * cell b l j := by
  have hcols : (b.head?.map List.length).getD 0 = k := by
    cases b with
    | nil => exact absurd hb.rows.symm (by simp; omega)
    | cons row rest => exact hb.cols row List.mem_cons_self
  refine ⟨⟨?_, fun row hrow => ?_⟩, fun i hi j hj => ?_⟩
  · rw [matrixMul, List.length_map, List.length_range, ha]
  · obtain ⟨i, -, rfl⟩ := List.mem_map.mp hrow
    rw [List.length_map, List.length_range, hcols]
  · rw [cell, matrixMul, hcols, ha, hb.rows, getD_map_range _ _ hi, getD_map_range _ _ hj,
      foldl_range_eq_sum]

theorem right_inverse_of_left {k : Nat} {X V : Nat → Nat → GF256}
    (h : ∀ r < k, ∀ j < k, ∑ i ∈ range k, X r i * V i j = if r = j then 1 else 0) :
    ∀ r < k, ∀ j < k, ∑ i ∈ range k, V r i * X i j = if r = j then 1 else 0 := by
  have hmul : (Matrix.of fun r i : Fin k => X r i) * (Matrix.of fun i j : Fin k => V i j) = 1 := by
    ext r j
    rw [Matrix.mul_apply, Matrix.one_apply]
    simp only [Matrix.of_apply, Fin.ext_iff]
    rw [← h r r.2 j j.2, sum_range]
  intro r hr j hj
  have hcomm : (Matrix.of fun i j : Fin k => V i j) * (Matrix.of fun r i : Fin k => X r i) = 1 :=
    mul_eq_one_comm.mp hmul
  have hentry := congrFun (congrFun hcomm ⟨r, hr⟩) ⟨j, hj⟩
  rw [Matrix.mul_apply, Matrix.one_apply] at hentry
  simp only [Matrix.of_apply, Fin.ext_iff] at hentry
  rw [← hentry, sum_range]

/-- A generator: the identity on top, and any `k` of its rows have a trivial kernel. -/
structure Generator (k m : Nat) (g : GMatrix) : Prop where
  shape : Shape (k + m) k g
  top : ∀ i < k, ∀ j < k, cell g i j = if i = j then 1 else 0
  regular : ∀ index : Nat → Nat, (∀ r < k, index r < k + m) →
    (∀ r < k, ∀ r' < k, index r = index r' → r = r') → Regular k fun r j => cell g (index r) j

theorem buildGenerator_spec {k m : Nat} (hk : 1 ≤ k) (hkm : k + m ≤ 255) :
    ∃ g, buildGenerator k m = .ok g ∧ Generator k m g := by
  obtain ⟨hvshape, hvcell⟩ := vandermonde_spec (n := k + m) (k := k) (by omega)
  have htop : Shape k k ((vandermonde (k + m) k).take k) := by
    refine ⟨by rw [List.length_take, hvshape.rows]; omega, fun row hrow => ?_⟩
    exact hvshape.cols row (List.mem_of_mem_take hrow)
  have htopCell : ∀ i < k, ∀ j < k,
      cell ((vandermonde (k + m) k).take k) i j = element i ^ j := by
    intro i hi j hj
    rw [← hvcell i (by omega) j hj]
    have hrow : ((vandermonde (k + m) k).take k).getD i [] = (vandermonde (k + m) k).getD i [] := by
      rw [List.getD_eq_getElem?_getD, List.getElem?_take_of_lt hi, ← List.getD_eq_getElem?_getD]
    unfold cell
    rw [hrow]
  have hbelow : ∀ r < k, id r < 256 := by
    intro r hr
    rw [id]
    omega
  have htopRegular : Regular k (cell ((vandermonde (k + m) k).take k)) :=
    regular_congr (fun r hr j hj => (htopCell r hr j hj).symm)
      (regular_powers hbelow fun _ _ _ _ h => h)
  obtain ⟨x, hx, hxshape, hleft⟩ := invertMatrix_inverse htop htopRegular
  have hpowers : ∀ r < k, ∀ j < k,
      ∑ i ∈ range k, cell x r i * element i ^ j = if r = j then 1 else 0 := by
    intro r hr j hj
    rw [← hleft r hr j hj]
    exact sum_congr rfl fun i hi => by rw [htopCell i (mem_range.mp hi) j hj]
  have hright := right_inverse_of_left (X := cell x) (V := fun i j => element i ^ j) hpowers
  obtain ⟨hgshape, hgcell⟩ := matrixMul_spec (by omega : 0 < k) hvshape.rows hxshape
  have hg : ∀ i < k + m, ∀ j < k, cell (matrixMul (vandermonde (k + m) k) x) i j =
      ∑ l ∈ range k, element i ^ l * cell x l j := by
    intro i hi j hj
    rw [hgcell i hi j hj]
    exact sum_congr rfl fun l hl => by rw [hvcell i hi l (mem_range.mp hl)]
  refine ⟨matrixMul (vandermonde (k + m) k) x, ?_, hgshape, fun i hi j hj => ?_, ?_⟩
  · unfold buildGenerator
    rw [hx]
  · rw [hg i (by omega) j hj]
    exact hright i hi j hj
  · intro index hlt hinj v hv
    -- The rows send `v` to zero, so the Vandermonde rows send `x v` to zero.
    have hxv : ∀ l < k, ∑ j ∈ range k, cell x l j * v j = 0 := by
      refine regular_powers (fun r hr => by have := hlt r hr; omega) hinj
        (fun l => ∑ j ∈ range k, cell x l j * v j) fun r hr => ?_
      rw [← hv r hr]
      calc ∑ l ∈ range k, element (index r) ^ l * ∑ j ∈ range k, cell x l j * v j
          = ∑ l ∈ range k, ∑ j ∈ range k, element (index r) ^ l * cell x l j * v j := by
            refine sum_congr rfl fun l _ => ?_
            rw [mul_sum]
            exact sum_congr rfl fun j _ => by ring
        _ = ∑ j ∈ range k, ∑ l ∈ range k, element (index r) ^ l * cell x l j * v j := sum_comm
        _ = ∑ j ∈ range k, cell (matrixMul (vandermonde (k + m) k) x) (index r) j * v j := by
            refine sum_congr rfl fun j hj => ?_
            rw [hg (index r) (hlt r hr) j (mem_range.mp hj), sum_mul]
    intro j hj
    calc v j = ∑ i ∈ range k, (if j = i then 1 else 0) * v i := by
            simp [sum_ite_eq, hj]
      _ = ∑ i ∈ range k, (∑ l ∈ range k, element j ^ l * cell x l i) * v i := by
            exact sum_congr rfl fun i hi => by rw [hright j hj i (mem_range.mp hi)]
      _ = ∑ l ∈ range k, element j ^ l * ∑ i ∈ range k, cell x l i * v i := by
            simp only [sum_mul, mul_sum]
            rw [sum_comm]
            exact sum_congr rfl fun l _ => sum_congr rfl fun i _ => by ring
      _ = 0 := by
            exact sum_eq_zero fun l hl => by rw [hxv l (mem_range.mp hl), mul_zero]

/-! ### Shards -/

/-- The shards of some data: each is a row of the generator times the data. -/
structure Encoded (k m len : Nat) (g : GMatrix) (data shards : List Shard) : Prop where
  count : shards.length = k + m
  lengths : ∀ i < k + m, (shards.getD i []).length = len
  bytes : ∀ i < k + m, ∀ b < len, (shards.getD i []).getD b 0 =
    ∑ l ∈ range k, cell g i l * (data.getD l []).getD b 0
  front : shards.take k = data

section
variable {k m len : Nat} {data : List Shard} {g : GMatrix}

theorem validateParams_ok (hk : 1 ≤ k) (hm : 1 ≤ m) (hkm : k + m ≤ 255) :
    validateParams k m = .ok () := by
  unfold validateParams
  rw [if_neg (by omega), if_neg (by omega), if_neg (by omega)]

theorem getD_length (hlen : ∀ s ∈ data, s.length = len) {i : Nat} (hi : i < data.length) :
    (data.getD i []).length = len := by
  rw [List.getD_eq_getElem _ _ hi]
  exact hlen _ (List.getElem_mem _)

/-- **Encoding succeeds, and every shard is its generator row times the data.** -/
theorem encode_spec (hk : 1 ≤ k) (hm : 1 ≤ m) (hkm : k + m ≤ 255) (hg : buildGenerator k m = .ok g)
    (hgen : Generator k m g) (hdata : data.length = k) (hlen : ∀ s ∈ data, s.length = len) :
    ∃ shards, encode data k m = .ok shards ∧ Encoded k m len g data shards := by
  have hhead : (data.head?.map List.length).getD 0 = len := by
    cases data with
    | nil => exact absurd hdata.symm (by simp; omega)
    | cons s rest => exact hlen s List.mem_cons_self
  have hsame : data.any (fun s => s.length ≠ len) = false := by
    refine List.any_eq_false.mpr fun s hs => ?_
    simp [hlen s hs]
  have hrows : ((g.take (k + m)).drop k).length = m := by
    rw [List.length_drop, List.length_take, hgen.shape.rows]
    omega
  have hparity : ∀ i, k ≤ i → i < k + m →
      (data ++ ((g.take (k + m)).drop k).map (weightedSum len data)).getD i [] =
        weightedSum len data (g.getD i []) := by
    intro i hki hi
    have hget : ((g.take (k + m)).drop k)[i - k]? = some (g.getD i []) := by
      rw [List.getElem?_drop, List.getElem?_take_of_lt (by omega), show k + (i - k) = i by omega,
        List.getD_eq_getElem _ _ (by rw [hgen.shape.rows]; exact hi),
        List.getElem?_eq_getElem (by rw [hgen.shape.rows]; exact hi)]
    rw [List.getD_append_right _ _ _ _ (by omega), hdata, List.getD_eq_getElem?_getD,
      List.getElem?_map, hget]
    rfl
  refine ⟨data ++ ((g.take (k + m)).drop k).map (weightedSum len data), ?_, ?_, fun i hi => ?_,
    fun i hi b hb => ?_, ?_⟩
  · unfold encode
    rw [validateParams_ok hk hm hkm]
    simp only [bind, Except.bind]
    rw [if_neg (not_not_intro hdata), hhead, hsame, if_neg Bool.false_ne_true, hg]
    rfl
  · rw [List.length_append, List.length_map, hrows, hdata]
  · by_cases hik : i < k
    · rw [List.getD_append _ _ _ _ (by omega)]
      exact getD_length hlen (by omega)
    · rw [hparity i (by omega) hi, weightedSum, List.length_map, List.length_range]
  · by_cases hik : i < k
    · rw [List.getD_append _ _ _ _ (by omega), sum_eq_single i]
      · rw [hgen.top i hik i hik, if_pos rfl, one_mul]
      · intro l hl hne
        rw [hgen.top i hik l (mem_range.mp hl), if_neg (Ne.symm hne), zero_mul]
      · intro hnot
        exact absurd (mem_range.mpr hik) hnot
    · rw [hparity i (by omega) hi, weightedSum_getD hb, weightedByte_eq_sum, hdata]
      rfl
  · exact List.take_left' hdata

end

/-! ### Erasures -/

/-- The slots that are left when the shards at some positions are lost. -/
def erase (erased : Finset Nat) (shards : List Shard) : List (Option Shard) :=
  shards.mapIdx fun i s => if i ∈ erased then none else some s

section
variable {k m len : Nat} {data shards : List Shard} {g : GMatrix} {erased : Finset Nat}

theorem zipIdx_erase (erased : Finset Nat) (shards : List Shard) :
    (erase erased shards).zipIdx = (List.range shards.length).map fun i =>
      (if i ∈ erased then none else some (shards.getD i []), i) := by
  refine List.ext_getElem ?_ fun i hi hi' => ?_
  · rw [List.length_zipIdx, erase, List.length_mapIdx, List.length_map, List.length_range]
  · have hlt : i < shards.length := by
      rw [List.length_map, List.length_range] at hi'
      exact hi'
    rw [List.getElem_zipIdx, List.getElem_map, List.getElem_range,
      List.getD_eq_getElem _ _ hlt, Nat.zero_add]
    unfold erase
    rw [List.getElem_mapIdx]

theorem survivorIndices_erase (erased : Finset Nat) (shards : List Shard) :
    survivorIndices (erase erased shards) =
      (List.range shards.length).filter fun i => i ∉ erased := by
  unfold survivorIndices
  rw [zipIdx_erase, List.filterMap_map, ← List.filterMap_eq_filter]
  refine List.filterMap_congr fun i _ => ?_
  by_cases hi : i ∈ erased
  · simp [hi, Option.guard]
  · simp [hi]

theorem missing_erase (erased : Finset Nat) (shards : List Shard) :
    ((erase erased shards).zipIdx.filterMap fun s => if s.1.isNone then some s.2 else none) =
      (List.range shards.length).filter fun i => i ∈ erased := by
  rw [zipIdx_erase, List.filterMap_map, ← List.filterMap_eq_filter]
  refine List.filterMap_congr fun i _ => ?_
  by_cases hi : i ∈ erased
  · simp [hi]
  · simp [hi, Option.guard]

theorem slotAt_erase {i : Nat} (hi : i < shards.length) (hkept : i ∉ erased) :
    slotAt (erase erased shards) i = shards.getD i [] := by
  unfold slotAt erase
  rw [List.getD_eq_getElem _ _ (by rw [List.length_mapIdx]; exact hi), List.getElem_mapIdx,
    if_neg hkept, List.getD_eq_getElem _ _ hi]
  rfl

theorem survivors_count (hsub : erased ⊆ range (k + m)) (hcard : erased.card ≤ m) :
    k ≤ ((List.range (k + m)).filter fun i => i ∉ erased).length := by
  have hcount : ((List.range (k + m)).filter fun i => i ∉ erased).length =
      (range (k + m) \ erased).card := by
    rw [← List.toFinset_card_of_nodup (List.nodup_range.filter _)]
    congr 1
    ext i
    simp
  rw [hcount, card_sdiff_of_subset hsub, card_range]
  omega

/-- An inverse of the rows that made the kept shards makes the data of them. -/
theorem weightedSum_inverse {decoder : GMatrix} {R : Nat → Nat → GF256} {kept : List Shard}
    (hshape : Shape k k decoder) (hinverse : ∀ r < k, ∀ j < k,
      ∑ i ∈ range k, cell decoder r i * R i j = if r = j then 1 else 0)
    (hkept : kept.length = k) (hbytes : ∀ i < k, ∀ b < len, (kept.getD i []).getD b 0 =
      ∑ l ∈ range k, R i l * (data.getD l []).getD b 0)
    (hdata : data.length = k) (hlen : ∀ s ∈ data, s.length = len) :
    decoder.map (weightedSum len kept) = data := by
  refine List.ext_getElem (by rw [List.length_map, hshape.rows, hdata]) fun r hr hr' => ?_
  have hrk : r < k := hdata ▸ hr'
  have hrow : decoder[r]? = some (decoder.getD r []) := by
    rw [List.getD_eq_getElem _ _ (by rw [hshape.rows]; exact hrk),
      List.getElem?_eq_getElem (by rw [hshape.rows]; exact hrk)]
  have hshard : (decoder.map (weightedSum len kept))[r]? =
      some (weightedSum len kept (decoder.getD r [])) := by
    rw [List.getElem?_map, hrow]
    rfl
  rw [List.getElem?_eq_getElem hr] at hshard
  rw [Option.some.inj hshard]
  refine shard_ext (by rw [weightedSum, List.length_map, List.length_range])
    (hlen _ (List.getElem_mem _)) fun b hb => ?_
  rw [weightedSum_getD hb, weightedByte_eq_sum, hkept]
  calc ∑ i ∈ range k, (decoder.getD r []).getD i 0 * (kept.getD i []).getD b 0
      = ∑ i ∈ range k, cell decoder r i *
          ∑ l ∈ range k, R i l * (data.getD l []).getD b 0 := by
        exact sum_congr rfl fun i hi => by rw [hbytes i (mem_range.mp hi) b hb, cell]
    _ = ∑ l ∈ range k, (∑ i ∈ range k, cell decoder r i * R i l) *
          (data.getD l []).getD b 0 := by
        simp only [sum_mul, mul_sum]
        rw [sum_comm]
        exact sum_congr rfl fun l _ => sum_congr rfl fun i _ => by ring
    _ = ∑ l ∈ range k, (if r = l then 1 else 0) * (data.getD l []).getD b 0 := by
        exact sum_congr rfl fun l hl => by rw [hinverse r hrk l (mem_range.mp hl)]
    _ = (data[r]).getD b 0 := by
        rw [sum_eq_single r]
        · rw [if_pos rfl, one_mul, List.getD_eq_getElem data _ hr']
        · intro l _ hne
          rw [if_neg (Ne.symm hne), zero_mul]
        · intro hnot
          exact absurd (mem_range.mpr hrk) hnot

/-- The positions the decoder reads: `k` different ones, none of them lost. -/
structure Chosen (k m : Nat) (erased : Finset Nat) (chosen : List Nat) : Prop where
  count : chosen.length = k
  kept : ∀ i ∈ chosen, i < k + m ∧ i ∉ erased
  nodup : chosen.Nodup

theorem chosen_survivors (hcount : shards.length = k + m) (hsub : erased ⊆ range (k + m))
    (hcard : erased.card ≤ m) :
    Chosen k m erased ((survivorIndices (erase erased shards)).take k) := by
  have hleft := survivors_count hsub hcard
  rw [survivorIndices_erase, hcount]
  refine ⟨by rw [List.length_take]; omega, fun i hi => ?_, ?_⟩
  · have hmem := List.mem_filter.mp (List.mem_of_mem_take hi)
    exact ⟨List.mem_range.mp hmem.1, by simpa using hmem.2⟩
  · exact (List.nodup_range.filter _).sublist (List.take_sublist _ _)

/-- The generator's rows at the chosen positions are inverted. -/
theorem invertMatrix_chosen {chosen : List Nat} (hgen : Generator k m g)
    (hchosen : Chosen k m erased chosen) :
    ∃ decoder, invertMatrix (chosen.map fun i => g.getD i []) = .ok decoder ∧ Shape k k decoder ∧
      ∀ r < k, ∀ j < k, ∑ i ∈ range k, cell decoder r i * cell g (chosen.getD i 0) j =
        if r = j then 1 else 0 := by
  have hget : ∀ r < k, chosen.getD r 0 ∈ chosen := fun r hr => by
    rw [List.getD_eq_getElem _ _ (by rw [hchosen.count]; exact hr)]
    exact List.getElem_mem _
  have hshape : Shape k k (chosen.map fun i => g.getD i []) := by
    refine ⟨by rw [List.length_map, hchosen.count], fun row hrow => ?_⟩
    obtain ⟨i, hi, rfl⟩ := List.mem_map.mp hrow
    exact hgen.shape.row_length (hchosen.kept i hi).1
  have hcell : ∀ r < k, ∀ j, cell (chosen.map fun i => g.getD i []) r j =
      cell g (chosen.getD r 0) j := by
    intro r hr j
    have hr' : r < chosen.length := by rw [hchosen.count]; exact hr
    have hrow : (chosen.map fun i => g.getD i []).getD r [] = g.getD (chosen.getD r 0) [] := by
      rw [List.getD_eq_getElem _ _ (by rw [List.length_map]; exact hr'), List.getElem_map,
        List.getD_eq_getElem chosen _ hr']
    rw [cell, hrow, cell]
  have hregular : Regular k (cell (chosen.map fun i => g.getD i [])) := by
    refine regular_congr (fun r hr j _ => (hcell r hr j).symm)
      (hgen.regular (fun r => chosen.getD r 0) (fun r hr => (hchosen.kept _ (hget r hr)).1) ?_)
    intro r hr r' hr' heq
    rw [List.getD_eq_getElem _ _ (by rw [hchosen.count]; exact hr),
      List.getD_eq_getElem _ _ (by rw [hchosen.count]; exact hr')] at heq
    exact hchosen.nodup.getElem_inj_iff.mp heq
  obtain ⟨decoder, hdecoder, hdshape, hinverse⟩ := invertMatrix_inverse hshape hregular
  refine ⟨decoder, hdecoder, hdshape, fun r hr j hj => ?_⟩
  rw [← hinverse r hr j hj]
  exact sum_congr rfl fun i hi => by rw [hcell i (mem_range.mp hi)]

/-- **Decoding gives the data back.** -/
theorem decode_spec (hk : 1 ≤ k) (hm : 1 ≤ m) (hkm : k + m ≤ 255) (hg : buildGenerator k m = .ok g)
    (hgen : Generator k m g) (henc : Encoded k m len g data shards) (hdata : data.length = k)
    (hlen : ∀ s ∈ data, s.length = len) (hsub : erased ⊆ range (k + m)) (hcard : erased.card ≤ m) :
    decode (erase erased shards) k m = .ok data := by
  have hleft := survivors_count hsub hcard
  have hchosen := chosen_survivors henc.count hsub hcard
  have hsurvivors : (survivorIndices (erase erased shards)).length =
      ((List.range (k + m)).filter fun i => i ∉ erased).length := by
    rw [survivorIndices_erase, henc.count]
  unfold decode
  rw [validateParams_ok hk hm hkm]
  simp only [bind, Except.bind]
  rw [if_neg (by rw [erase, List.length_mapIdx, henc.count]; exact not_not_intro rfl),
    if_neg (by rw [hsurvivors]; omega)]
  generalize (survivorIndices (erase erased shards)).take k = chosen at hchosen
  have hslot : ∀ i ∈ chosen, slotAt (erase erased shards) i = shards.getD i [] := fun i hi =>
    slotAt_erase (by rw [henc.count]; exact (hchosen.kept i hi).1) (hchosen.kept i hi).2
  have hslotLen : ∀ i ∈ chosen, (slotAt (erase erased shards) i).length = len := fun i hi => by
    rw [hslot i hi, henc.lengths i (hchosen.kept i hi).1]
  have hhead : (slotAt (erase erased shards) (chosen.headD 0)).length = len := by
    refine hslotLen _ ?_
    cases chosen with
    | nil => exact absurd hchosen.count.symm (by simp; omega)
    | cons c rest => exact List.mem_cons_self
  have hsame : chosen.any (fun i => (slotAt (erase erased shards) i).length ≠ len) = false := by
    refine List.any_eq_false.mpr fun i hi => ?_
    simp [hslotLen i hi]
  have hkept : ∀ i < k, ∀ b < len,
      ((chosen.map (slotAt (erase erased shards))).getD i []).getD b 0 =
        ∑ l ∈ range k, cell g (chosen.getD i 0) l * (data.getD l []).getD b 0 := by
    intro i hi b hb
    have hi' : i < chosen.length := by rw [hchosen.count]; exact hi
    have hmem : chosen.getD i 0 ∈ chosen := by
      rw [List.getD_eq_getElem _ _ hi']
      exact List.getElem_mem _
    have hshard : (chosen.map (slotAt (erase erased shards))).getD i [] =
        shards.getD (chosen.getD i 0) [] := by
      rw [List.getD_eq_getElem _ _ (by rw [List.length_map]; exact hi'), List.getElem_map,
        ← hslot _ hmem, List.getD_eq_getElem chosen _ hi']
    rw [hshard, henc.bytes _ (hchosen.kept _ hmem).1 b hb]
  obtain ⟨decoder, hdecoder, hdshape, hinverse⟩ := invertMatrix_chosen hgen hchosen
  rw [hhead, hsame, if_neg Bool.false_ne_true, hg]
  simp only [hdecoder]
  rw [weightedSum_inverse hdshape hinverse (by rw [List.length_map, hchosen.count]) hkept hdata hlen]
  rfl

end

/-- **Any `k` shards suffice.**  Whatever `m` shards are lost, the data is decoded from the rest,
and repair returns the data, the parity and the positions that were lost, in order. -/
theorem erasures_recovered : ∀ (k m : Nat) (data : List Shard) (len : Nat) (erased : Finset Nat),
    1 ≤ k → 1 ≤ m → k + m ≤ 255 → data.length = k → (∀ s ∈ data, s.length = len) →
    erased ⊆ range (k + m) → erased.card ≤ m →
    ∃ shards, encode data k m = .ok shards ∧ shards.take k = data ∧ shards.length = k + m ∧
      decode (erase erased shards) k m = .ok data ∧
      repairShards ⟨(erase erased shards).take k, (erase erased shards).drop k, k, m⟩ =
        .ok ⟨data, shards.drop k, (List.range (k + m)).filter fun i => i ∈ erased⟩ := by
  intro k m data len erased hk hm hkm hdata hlen hsub hcard
  obtain ⟨g, hg, hgen⟩ := buildGenerator_spec (m := m) hk hkm
  obtain ⟨shards, hencode, henc⟩ := encode_spec hk hm hkm hg hgen hdata hlen
  have hdecode := decode_spec hk hm hkm hg hgen henc hdata hlen hsub hcard
  have hslots : (erase erased shards).length = k + m := by
    rw [erase, List.length_mapIdx, henc.count]
  refine ⟨shards, hencode, henc.front, henc.count, hdecode, ?_⟩
  unfold repairShards
  rw [if_neg (by simp only [List.length_take, hslots]; omega),
    if_neg (by simp only [List.length_drop, hslots]; omega)]
  simp only [List.take_append_drop, missing_erase, henc.count, hdecode, Except.mapError, bind,
    Except.bind, hencode]
  rfl

namespace Stored

/-- Two data shards of two bytes. -/
def shards : List Shard := [[⟨1⟩, ⟨2⟩], [⟨3⟩, ⟨4⟩]]

end Stored

theorem erasures_recovered_two : ∃ shards, encode Stored.shards 2 2 = .ok shards ∧
    shards.take 2 = Stored.shards ∧ shards.length = 4 ∧
    decode (erase {0, 3} shards) 2 2 = .ok Stored.shards ∧
    repairShards ⟨(erase {0, 3} shards).take 2, (erase {0, 3} shards).drop 2, 2, 2⟩ =
      .ok ⟨Stored.shards, shards.drop 2, (List.range 4).filter fun i => i ∈ ({0, 3} : Finset Nat)⟩ :=
  erasures_recovered 2 2 Stored.shards 2 {0, 3} (by decide) (by decide) (by decide) (by decide)
    (by decide) (by decide) (by decide)

end LimniFS.ReedSolomon
