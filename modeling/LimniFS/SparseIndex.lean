/-
The sparse index: a Bloom filter of drop ids that is kept next to an image.

The first sixteen bytes of an id are mixed into two numbers, and the probes are their
combinations by double hashing.  The file narrows the size of the filter, the number of
hashes and the number of entries to 32 bits.  A narrowed number of hashes only leaves
probes out, so below 2^32 bits the reader finds whatever was inserted
(`probablyContains_of_inserted`); a filter of no bits at all takes nothing in.

The sizes come from floating point arithmetic, which is left open here.
-/
import LimniFS.Core
import LimniFS.Lib.BitFilter

namespace LimniFS.SparseIndex

open Lib

/-! ### Probes -/

def splitmix64 (z : UInt64) : UInt64 :=
  let z := z + 0x9E3779B97F4A7C15
  let z2 := z
  let z2 := (z2 ^^^ (z2 >>> 30)) * 0xBF58476D1CE4E5B9
  let z2 := (z2 ^^^ (z2 >>> 27)) * 0x94D049BB133111EB
  z2 ^^^ (z2 >>> 31)

/-- `u64::rotate_left(31)`. -/
def rotateLeft31 (x : UInt64) : UInt64 := (x <<< 31) ||| (x >>> 33)

def hashPair (dropId : Digest) : UInt64 × UInt64 :=
  let raw1 := UInt64.ofNat (leNat (dropId.val.take 8))
  let raw2 := UInt64.ofNat (leNat ((dropId.val.drop 8).take 8))
  (splitmix64 raw1, splitmix64 (raw2 + rotateLeft31 raw1))

/-- The bit of the `i`-th hash. -/
def probeBit (numBits : Nat) (hashes : UInt64 × UInt64) (i : Nat) : Nat :=
  (hashes.1 + UInt64.ofNat i * hashes.2).toNat % numBits

def probeBits (numBits k : Nat) (dropId : Digest) : List Nat :=
  (List.range k).map (probeBit numBits (hashPair dropId))

/-! ### Sizes -/

/-- `DEFAULT_FPP`, as the bits of a double. -/
def defaultFpp : UInt64 := 0x3F847AE147AE147B

/-- What the floating point formulas for a filter give, as `usize`. -/
structure FilterSizing where
  /-- `ceil(-n ln(fpp) / ln(2)^2)`. -/
  bits : Nat → UInt64 → Nat
  /-- `ceil(|log2(fpp)|)`. -/
  hashes : UInt64 → Nat

def optimalK (f : FilterSizing) (fpp : UInt64) : Nat := f.hashes fpp

def optimalBits (f : FilterSizing) (n : Nat) (fpp : UInt64) : Nat :=
  if n = 0 then 0 else max (f.bits n fpp) 8

/-- `n.div_ceil(8)`. -/
def bitmapLen (numBits : Nat) : Nat := (numBits + 7) / 8

/-! ### Writing -/

structure SparseIndexWriter where
  bits : Bytes
  numBits : Nat
  k : Nat
  fpp : UInt64
  entryCount : Nat
  sized : bits.length = bitmapLen numBits

namespace SparseIndexWriter

/-- An empty filter of a given geometry. -/
def ofSize (numBits k : Nat) (fpp : UInt64) : SparseIndexWriter where
  bits := List.replicate (bitmapLen numBits) 0
  numBits := numBits
  k := k
  fpp := fpp
  entryCount := 0
  sized := List.length_replicate

def new (f : FilterSizing) (expectedEntries : Nat) (fpp : UInt64) : SparseIndexWriter :=
  ofSize (optimalBits f expectedEntries fpp) (optimalK f fpp) fpp

def insert (w : SparseIndexWriter) (dropId : Digest) : SparseIndexWriter :=
  if w.numBits = 0 then w
  else
    { w with
      bits := BitFilter.insert (probeBits w.numBits w.k) w.bits dropId
      entryCount := w.entryCount + 1
      sized := (BitFilter.insert_length _ _).trans w.sized }

def insertAll (w : SparseIndexWriter) (set : List Digest) : SparseIndexWriter :=
  set.foldl insert w

def serialise (w : SparseIndexWriter) : Bytes :=
  leBytes 4 (w.numBits % u32Limit) ++ (leBytes 4 (w.k % u32Limit)
    ++ (leBytes 4 (w.entryCount % u32Limit) ++ (leBytes 8 w.fpp.toNat ++ w.bits)))

end SparseIndexWriter

/-! ### Reading -/

structure SparseIndexReader where
  bits : Bytes
  numBits : Nat
  k : Nat
  entryCount : Nat
  fpp : UInt64
  sized : bits.length = bitmapLen numBits

namespace SparseIndexReader

def deserialise (bytes : Bytes) : Option SparseIndexReader :=
  if bytes.length < 20 then none
  else
    let numBits := leNat (bytes.take 4)
    let expectedBytes := bitmapLen numBits
    if h : bytes.length < 20 + expectedBytes then none
    else some
      { bits := (bytes.drop 20).take expectedBytes
        numBits := numBits
        k := leNat ((bytes.drop 4).take 4)
        entryCount := leNat ((bytes.drop 8).take 4)
        fpp := UInt64.ofNat (leNat ((bytes.drop 12).take 8))
        sized := by
          rw [List.length_take, List.length_drop]
          omega }

def probablyContains (r : SparseIndexReader) (dropId : Digest) : Bool :=
  if r.numBits = 0 then false else BitFilter.query (probeBits r.numBits r.k) r.bits dropId

end SparseIndexReader

/-! ### What was inserted is found -/

theorem probeBit_lt {numBits : Nat} (h : 0 < numBits) (hashes : UInt64 × UInt64) (i : Nat) :
    probeBit numBits hashes i / 8 < bitmapLen numBits := by
  have hlt : probeBit numBits hashes i < numBits := Nat.mod_lt _ h
  unfold bitmapLen
  omega

theorem probeBits_subset (numBits : Nat) {fewer k : Nat} (h : fewer ≤ k) (dropId : Digest) :
    probeBits numBits fewer dropId ⊆ probeBits numBits k dropId :=
  List.map_subset _ (List.range_subset.mpr h)

namespace SparseIndexWriter

theorem insertAll_fields (w : SparseIndexWriter) (h : 0 < w.numBits) (set : List Digest) :
    (w.insertAll set).numBits = w.numBits ∧ (w.insertAll set).k = w.k ∧
      (w.insertAll set).bits = set.foldl (BitFilter.insert (probeBits w.numBits w.k)) w.bits := by
  unfold insertAll
  induction set generalizing w with
  | nil => exact ⟨rfl, rfl, rfl⟩
  | cons dropId rest ih =>
      have hne : w.numBits ≠ 0 := Nat.pos_iff_ne_zero.mp h
      rw [List.foldl_cons, List.foldl_cons]
      have hstep : w.insert dropId =
          { w with
            bits := BitFilter.insert (probeBits w.numBits w.k) w.bits dropId
            entryCount := w.entryCount + 1
            sized := (BitFilter.insert_length _ _).trans w.sized } := if_neg hne
      obtain ⟨hbits, hk, hset⟩ := ih (w.insert dropId) (by rw [hstep]; exact h)
      rw [hstep] at hbits hk hset ⊢
      exact ⟨hbits, hk, hset⟩

theorem insertAll_empty (w : SparseIndexWriter) (h : w.numBits = 0) (set : List Digest) :
    w.insertAll set = w := by
  unfold insertAll
  induction set with
  | nil => rfl
  | cons dropId rest ih =>
      rw [List.foldl_cons, insert, if_pos h]
      exact ih

theorem deserialise_serialise (w : SparseIndexWriter) (h : w.numBits < u32Limit) :
    ∃ reader, SparseIndexReader.deserialise w.serialise = some reader ∧ reader.bits = w.bits ∧
      reader.numBits = w.numBits ∧ reader.k = w.k % u32Limit := by
  have hnarrow : ∀ n, leNat (leBytes 4 (n % u32Limit)) = n % u32Limit :=
    fun n => leNat_leBytes (w := 4) (Nat.mod_lt n (by decide))
  have hnum : leNat (w.serialise.take 4) = w.numBits := by
    rw [serialise, List.take_left' (leBytes_length 4 _), hnarrow, Nat.mod_eq_of_lt h]
  have hk : leNat ((w.serialise.drop 4).take 4) = w.k % u32Limit := by
    rw [serialise, List.drop_left' (leBytes_length 4 _), List.take_left' (leBytes_length 4 _),
      hnarrow]
  have hlen : w.serialise.length = 20 + bitmapLen w.numBits := by
    simp only [serialise, List.length_append, leBytes_length, w.sized]
    omega
  have hbits : w.serialise.drop 20 = w.bits := by
    have hhead : (leBytes 4 (w.numBits % u32Limit) ++ (leBytes 4 (w.k % u32Limit)
        ++ (leBytes 4 (w.entryCount % u32Limit) ++ leBytes 8 w.fpp.toNat))).length = 20 := by
      simp only [List.length_append, leBytes_length]
    simpa only [serialise, List.append_assoc] using (List.drop_left' hhead : _ = w.bits)
  refine ⟨⟨w.bits, w.numBits, w.k % u32Limit, leNat ((w.serialise.drop 8).take 4),
    UInt64.ofNat (leNat ((w.serialise.drop 12).take 8)), w.sized⟩, ?_, rfl, rfl, rfl⟩
  unfold SparseIndexReader.deserialise
  rw [if_neg (by omega)]
  simp only [hnum, hk, hbits, hlen]
  rw [dif_neg (Nat.lt_irrefl _)]
  congr 1
  congr 1
  rw [← w.sized, List.take_length]

end SparseIndexWriter

/-- **A reader finds every id that was inserted**, whatever the geometry below 2^32 bits. -/
theorem probablyContains_of_inserted (w : SparseIndexWriter) (hpos : 0 < w.numBits)
    (hlt : w.numBits < u32Limit) (set : List Digest) :
    ∃ reader, SparseIndexReader.deserialise (w.insertAll set).serialise = some reader ∧
      ∀ dropId ∈ set, reader.probablyContains dropId = true := by
  obtain ⟨hbits, hk, hset⟩ := w.insertAll_fields hpos set
  obtain ⟨reader, hreader, rbits, rnum, rk⟩ :=
    (w.insertAll set).deserialise_serialise (by rw [hbits]; exact hlt)
  refine ⟨reader, hreader, fun dropId hmem => ?_⟩
  rw [hbits] at rnum
  unfold SparseIndexReader.probablyContains
  rw [if_neg (by rw [rnum]; exact Nat.pos_iff_ne_zero.mp hpos), rnum, rbits, hset]
  have hfound : BitFilter.query (probeBits w.numBits w.k)
      (set.foldl (BitFilter.insert (probeBits w.numBits w.k)) w.bits) dropId = true := by
    refine BitFilter.query_of_inserted (fun key _ i hi => ?_) dropId hmem
    obtain ⟨j, -, rfl⟩ := List.mem_map.mp hi
    rw [w.sized]
    exact probeBit_lt hpos _ _
  refine BitFilter.query_of_subset (probeBits_subset w.numBits ?_ dropId) hfound
  rw [rk, hk]
  exact Nat.mod_le _ _

/-- A filter of zero bits takes nothing in, and finds nothing. -/
theorem probablyContains_of_empty (w : SparseIndexWriter) (h : w.numBits = 0) (set : List Digest) :
    ∃ reader, SparseIndexReader.deserialise (w.insertAll set).serialise = some reader ∧
      ∀ dropId, reader.probablyContains dropId = false := by
  rw [SparseIndexWriter.insertAll_empty _ h]
  obtain ⟨reader, hreader, -, hnum, -⟩ := w.deserialise_serialise (by rw [h]; decide)
  exact ⟨reader, hreader, fun dropId => if_pos (hnum.trans h)⟩

end LimniFS.SparseIndex
