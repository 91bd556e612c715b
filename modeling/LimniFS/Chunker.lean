/-
Content-defined chunking: the scalar `FastCDC` roll.

A chunk skips `min_size` bytes without hashing them, then rolls the gear hash and
ends at the first byte where the hash ANDs to zero with the mask in force: the
level-1 mask before the average size, the level-2 mask after it, and at `max_size`
whatever the hash says.  The source unrolls both scans four bytes at a time and
finishes each with a byte loop; the model keeps the two loops apart and
`unrolledScan_eq` shows that the unrolling is invisible.

What the rest of the development uses is `findBoundary_eq`: the boundary is the
first hit, over the positions after the skipped ones, of one predicate on the
hash since the skip.

Fingerprints and masks are 64-bit words.  Sizes and positions are natural numbers;
`start + max_size` is the one sum that can leave a `usize` (the others stay below
the length of the slice plus 64, and a slice has at most `isize::MAX` bytes), and
where it does the model panics, which is `none`.
-/
import LimniFS.Core
import LimniFS.Lib.RollingHash

namespace LimniFS

open Lib Lib.RollingHash

/-! ### The gear table -/

def splitmix64 (state : BitVec 64) : BitVec 64 :=
  let state := state + 0x9E3779B97F4A7C15#64
  let z := (state ^^^ (state >>> 30)) * 0xBF58476D1CE4E5B9#64
  let z := (z ^^^ (z >>> 27)) * 0x94D049BB133111EB#64
  z ^^^ (z >>> 31)

/-- `n` successive states of the generator, each the entry of one byte value. -/
def gearEntries : Nat → BitVec 64 → List (BitVec 64)
  | 0, _ => []
  | n + 1, state => splitmix64 state :: gearEntries n (splitmix64 state)

/-- The 256 entries, from the fixed seed. -/
def gearTable : List (BitVec 64) := gearEntries 256 0x0123456789ABCDEF#64

/-- `bits` ones from the low end, where `bits` is `log2 range` rounded down, at least one. -/
def maskFor (range : Nat) : BitVec 64 :=
  if range = 0 then 0
  else
    let bits := max (Nat.log2 range) 1
    BitVec.ofNat 64 (2 ^ bits - 1)

/-! ### The chunker -/

/-- Only `FastCDC.new` builds one, so the sizes are ordered in every value. -/
structure FastCDC where
  minSize : Nat
  avgSize : Nat
  maxSize : Nat
  mask1 : BitVec 64
  mask2 : BitVec 64
  gear : List (BitVec 64)
  min_pos : 0 < minSize
  min_lt_avg : minSize < avgSize
  avg_lt_max : avgSize < maxSize

namespace FastCDC

def new (minSize avgSize maxSize : Nat) : Except String FastCDC :=
  if h0 : minSize = 0 then .error "min_size must be > 0"
  else if h1 : minSize ≥ avgSize then .error "min_size must be < avg_size"
  else if h2 : avgSize ≥ maxSize then .error "avg_size must be < max_size"
  else .ok
    { minSize, avgSize, maxSize
      mask1 := maskFor (avgSize - minSize)
      mask2 := maskFor (maxSize - avgSize)
      gear := gearTable
      min_pos := by omega
      min_lt_avg := by omega
      avg_lt_max := by omega }

variable (c : FastCDC)

/-- The gear word of a byte. -/
def gearOf (b : UInt8) : BitVec 64 := c.gear.getD b.toNat 0

/-- `(fp << 1).wrapping_add(gear[data[i]])`. -/
def rollAt (data : Bytes) (fp : BitVec 64) (i : Nat) : BitVec 64 :=
  (fp <<< 1) + c.gearOf (data.getD i 0)

/-- Where a scan got to: a boundary, or the end of its region with the hash so far. -/
inductive Scan where
  | boundary (stop : Nat)
  | ran (i : Nat) (fp : BitVec 64)
  deriving DecidableEq

/-- The four-byte unrolled loop, `quads` times round. -/
def unrolledScan (data : Bytes) (mask : BitVec 64) : Nat → Nat → BitVec 64 → Scan
  | 0, i, fp => .ran i fp
  | quads + 1, i, fp =>
    let fp0 := c.rollAt data fp i
    if fp0 &&& mask = 0 then .boundary (i + 1)
    else
      let fp1 := c.rollAt data fp0 (i + 1)
      if fp1 &&& mask = 0 then .boundary (i + 2)
      else
        let fp2 := c.rollAt data fp1 (i + 2)
        if fp2 &&& mask = 0 then .boundary (i + 3)
        else
          let fp3 := c.rollAt data fp2 (i + 3)
          if fp3 &&& mask = 0 then .boundary (i + 4)
          else unrolledScan data mask quads (i + 4) fp3

/-- The byte loop that finishes a region, `n` bytes. -/
def byteScan (data : Bytes) (mask : BitVec 64) : Nat → Nat → BitVec 64 → Scan
  | 0, i, fp => .ran i fp
  | n + 1, i, fp =>
    let fp := c.rollAt data fp i
    if fp &&& mask = 0 then .boundary (i + 1)
    else byteScan data mask n (i + 1) fp

/-- One phase of `find_boundary`: from `i` up to `stop` under one mask. -/
def phase (data : Bytes) (mask : BitVec 64) (i stop : Nat) (fp : BitVec 64) : Scan :=
  match c.unrolledScan data mask ((stop - i) / 4) i fp with
  | .boundary e => .boundary e
  | .ran i fp => c.byteScan data mask (stop - i) i fp

def findBoundary (data : Bytes) (start : Nat) : Option Nat :=
  if data.length ≤ start then some start
  else if usizeLimit ≤ start + c.maxSize then none
  else
    let maxEnd := min (start + c.maxSize) data.length
    if maxEnd - start ≤ c.minSize then some maxEnd
    else
      let avgEnd := min (start + c.avgSize) maxEnd
      match c.phase data c.mask1 (start + c.minSize) avgEnd 0 with
      | .boundary e => some e
      | .ran i fp =>
        match c.phase data c.mask2 i maxEnd fp with
        | .boundary e => some e
        | .ran _ _ => some maxEnd

/-- The slice `data[s..e]`. -/
def slice (data : Bytes) (s e : Nat) : Bytes := (data.take e).drop s

/-- The `while start < data.len()` loop; the fuel bounds the number of chunks left. -/
def chunkLoop (data : Bytes) : Nat → Nat → Option (List Bytes)
  | fuel, start =>
    if start < data.length then
      match fuel with
      | 0 => none
      | fuel + 1 =>
        match c.findBoundary data start with
        | none => none
        | some e =>
          match chunkLoop data fuel e with
          | none => none
          | some rest => some (slice data start e :: rest)
    else some []

/-- Every chunk holds a byte, so `data.length` rounds are enough. -/
def chunkSlice (data : Bytes) : Option (List Bytes) := c.chunkLoop data data.length 0

end FastCDC

/-- The mask for a tested position: level 1 before the average size, level 2 after. -/
def maskForPos (posInChunk avgSize : Nat) (mask1 mask2 : BitVec 64) : BitVec 64 :=
  if posInChunk < avgSize then mask1 else mask2

namespace FastCDC

variable (c : FastCDC)

/-! ### The unrolling is invisible -/

theorem byteScan_add (data : Bytes) (mask : BitVec 64) :
    ∀ (m n i : Nat) (fp : BitVec 64),
      c.byteScan data mask (m + n) i fp
        = match c.byteScan data mask m i fp with
          | .boundary e => .boundary e
          | .ran i fp => c.byteScan data mask n i fp := by
  intro m
  induction m with
  | zero => intro n i fp; rw [Nat.zero_add]; rfl
  | succ m ih =>
      intro n i fp
      rw [Nat.succ_add]
      simp only [byteScan]
      split
      · rfl
      · exact ih n (i + 1) _

theorem unrolledScan_eq (data : Bytes) (mask : BitVec 64) :
    ∀ (quads i : Nat) (fp : BitVec 64),
      c.unrolledScan data mask quads i fp = c.byteScan data mask (4 * quads) i fp := by
  intro quads
  induction quads with
  | zero => intro i fp; rfl
  | succ quads ih =>
      intro i fp
      have hlen : 4 * (quads + 1) = 4 * quads + 1 + 1 + 1 + 1 := by omega
      rw [hlen]
      simp only [unrolledScan, byteScan, ih]

theorem byteScan_ran {data : Bytes} {mask : BitVec 64} :
    ∀ {n i j : Nat} {fp fp' : BitVec 64},
      c.byteScan data mask n i fp = .ran j fp' → j = i + n := by
  intro n
  induction n with
  | zero => intro i j fp fp' h; simp only [byteScan, Scan.ran.injEq] at h; omega
  | succ n ih =>
      intro i j fp fp' h
      simp only [byteScan] at h
      split at h
      · cases h
      · have := ih h; omega

theorem phase_eq (data : Bytes) (mask : BitVec 64) {i stop : Nat} (fp : BitVec 64)
    (h : i ≤ stop) : c.phase data mask i stop fp = c.byteScan data mask (stop - i) i fp := by
  have hlen : stop - i = 4 * ((stop - i) / 4) + (stop - i) % 4 := by omega
  unfold phase
  rw [unrolledScan_eq]
  conv_rhs => rw [hlen, byteScan_add]
  split
  · rfl
  · next j fp' hb =>
      have hj := c.byteScan_ran hb
      have hrest : stop - j = (stop - i) % 4 := by omega
      rw [hrest]

/-! ### The boundary as a first hit -/

/-- Does the hash since `lo` fire at `i` under `mask`? -/
def fires (data : Bytes) (lo : Nat) (mask : BitVec 64) (i : Nat) : Bool :=
  decide (hashOver c.gearOf data lo (i + 1) &&& mask = 0)

theorem rollAt_hashOver {data : Bytes} {lo i : Nat} (hlo : lo ≤ i) (hi : i < data.length) :
    c.rollAt data (hashOver c.gearOf data lo i) i = hashOver c.gearOf data lo (i + 1) := by
  rw [hashOver_succ c.gearOf hlo hi, rollAt, roll]
  simp [List.getD, hi]

/-- A byte scan stops at the first hit of its region. -/
theorem byteScan_first (data : Bytes) (mask : BitVec 64) (lo : Nat) :
    ∀ (n i : Nat), lo ≤ i → i + n ≤ data.length →
      c.byteScan data mask n i (hashOver c.gearOf data lo i)
        = match firstIn (c.fires data lo mask) i (i + n) with
          | some j => .boundary (j + 1)
          | none => .ran (i + n) (hashOver c.gearOf data lo (i + n)) := by
  intro n
  induction n with
  | zero => intro i _ _; rw [Nat.add_zero, firstIn_empty (Nat.le_refl _)]; rfl
  | succ n ih =>
      intro i hlo hlen
      have hroll := c.rollAt_hashOver hlo (by omega : i < data.length)
      simp only [byteScan]
      rw [firstIn_step (by omega), hroll]
      by_cases hfire : hashOver c.gearOf data lo (i + 1) &&& mask = 0
      · rw [if_pos hfire, if_pos (by simpa [fires] using hfire)]
      · rw [if_neg hfire, if_neg (by simpa [fires] using hfire)]
        have hstep := ih (i + 1) (by omega) (by omega)
        rw [show i + 1 + n = i + (n + 1) by omega] at hstep
        exact hstep

/-- Does the chunk that starts at `start` end with byte `i`, as far as the hash goes? -/
def cutsAt (data : Bytes) (start i : Nat) : Bool :=
  c.fires data (start + c.minSize) (maskForPos (i - start) c.avgSize c.mask1 c.mask2) i

/-- One past the first such byte; with none, the size limit or the end of the data. -/
def boundaryAt (data : Bytes) (start : Nat) : Nat :=
  match firstIn (c.cutsAt data start) (start + c.minSize)
      (min (start + c.maxSize) data.length) with
  | some i => i + 1
  | none => min (start + c.maxSize) data.length

/-- **The boundary is the first hit.**  Two phases, one predicate. -/
theorem findBoundary_eq {data : Bytes} {start : Nat} (hstart : start < data.length)
    (hfit : start + c.maxSize < usizeLimit) :
    c.findBoundary data start = some (c.boundaryAt data start) := by
  have hsizes := And.intro c.min_lt_avg c.avg_lt_max
  unfold findBoundary boundaryAt
  rw [if_neg (by omega), if_neg (by omega)]
  simp only
  by_cases hshort : min (start + c.maxSize) data.length - start ≤ c.minSize
  · rw [if_pos hshort, firstIn_empty (by omega)]
  · rw [if_neg hshort]
    generalize hmax : min (start + c.maxSize) data.length = maxEnd at hshort ⊢
    generalize havg : min (start + c.avgSize) maxEnd = avgEnd
    have hphase1 := c.byteScan_first data c.mask1 (start + c.minSize)
      (avgEnd - (start + c.minSize)) (start + c.minSize) (Nat.le_refl _) (by omega)
    rw [hashOver_self, Nat.add_sub_cancel' (by omega : start + c.minSize ≤ avgEnd)] at hphase1
    have hphase2 := c.byteScan_first data c.mask2 (start + c.minSize)
      (maxEnd - avgEnd) avgEnd (by omega) (by omega)
    rw [Nat.add_sub_cancel' (by omega : avgEnd ≤ maxEnd)] at hphase2
    -- before `avgEnd` the mask in force is the first one, from there on the second
    have hfirst : firstIn (c.cutsAt data start) (start + c.minSize) avgEnd
        = firstIn (c.fires data (start + c.minSize) c.mask1) (start + c.minSize) avgEnd := by
      apply firstIn_congr
      intro i _ hi
      simp only [cutsAt, maskForPos, if_pos (by omega : i - start < c.avgSize)]
    have hsecond : firstIn (c.cutsAt data start) avgEnd maxEnd
        = firstIn (c.fires data (start + c.minSize) c.mask2) avgEnd maxEnd := by
      apply firstIn_congr
      intro i hi1 hi2
      simp only [cutsAt, maskForPos, if_neg (by omega : ¬ i - start < c.avgSize)]
    rw [firstIn_split (by omega : start + c.minSize ≤ avgEnd) (by omega : avgEnd ≤ maxEnd),
      hfirst, hsecond, c.phase_eq _ _ _ (by omega), hphase1]
    cases firstIn (c.fires data (start + c.minSize) c.mask1) (start + c.minSize) avgEnd with
    | some i => rfl
    | none =>
        simp only [Option.none_or]
        rw [c.phase_eq _ _ _ (by omega), hphase2]
        cases firstIn (c.fires data (start + c.minSize) c.mask2) avgEnd maxEnd <;> rfl

/-- How far a boundary can be, and how near where the data go on. -/
theorem boundaryAt_within {data : Bytes} {start : Nat} :
    c.boundaryAt data start ≤ start + c.maxSize ∧ c.boundaryAt data start ≤ data.length ∧
      (c.boundaryAt data start < data.length → start + c.minSize < c.boundaryAt data start) := by
  have hsizes := And.intro c.min_lt_avg c.avg_lt_max
  unfold boundaryAt
  cases hfirst : firstIn (c.cutsAt data start) (start + c.minSize)
      (min (start + c.maxSize) data.length) with
  | some i =>
      have hi := firstIn_bounds hfirst
      simp only
      omega
  | none =>
      simp only
      omega

theorem boundaryAt_bounds {data : Bytes} {start : Nat} (hstart : start < data.length) :
    start < c.boundaryAt data start ∧ c.boundaryAt data start ≤ data.length := by
  obtain ⟨-, hle, hmin⟩ := @boundaryAt_within c data start
  omega

theorem findBoundary_overflow {data : Bytes} {start : Nat} (hstart : start < data.length)
    (h : usizeLimit ≤ start + c.maxSize) : c.findBoundary data start = none := by
  unfold findBoundary
  rw [if_neg (by omega), if_pos h]

theorem chunkLoop_total {data : Bytes} (hfit : data.length + c.maxSize < usizeLimit) :
    ∀ (fuel start : Nat), data.length ≤ start + fuel →
      ∃ chunks, c.chunkLoop data fuel start = some chunks := by
  intro fuel
  induction fuel with
  | zero =>
      intro start hf
      refine ⟨[], ?_⟩
      unfold chunkLoop
      rw [if_neg (by omega)]
  | succ fuel ih =>
      intro start hf
      unfold chunkLoop
      by_cases hs : start < data.length
      · rw [if_pos hs]
        have hbounds := c.boundaryAt_bounds hs
        obtain ⟨rest, hrest⟩ := ih (c.boundaryAt data start) (by omega)
        rw [c.findBoundary_eq hs (by omega)]
        exact ⟨slice data start (c.boundaryAt data start) :: rest, by simp only [hrest]⟩
      · rw [if_neg hs]
        exact ⟨[], rfl⟩

/-! ### The chunks are the data, cut up -/

theorem findBoundary_bounds {data : Bytes} {start e : Nat} (hstart : start < data.length)
    (h : c.findBoundary data start = some e) : start < e ∧ e ≤ data.length := by
  by_cases hfit : start + c.maxSize < usizeLimit
  · rw [c.findBoundary_eq hstart hfit] at h
    cases h
    exact c.boundaryAt_bounds hstart
  · rw [c.findBoundary_overflow hstart (by omega)] at h
    cases h

theorem slice_append_drop {data : Bytes} {s e : Nat} (hse : s ≤ e) (hlen : e ≤ data.length) :
    slice data s e ++ data.drop e = data.drop s := by
  have hdata : data.drop s = (data.take e ++ data.drop e).drop s := by rw [List.take_append_drop]
  rw [hdata, List.drop_append_of_le_length (by rw [List.length_take]; omega)]
  rfl

theorem slice_ne_nil {data : Bytes} {s e : Nat} (hse : s < e) (hlen : e ≤ data.length) :
    slice data s e ≠ [] := by
  refine List.ne_nil_of_length_pos ?_
  rw [slice, List.length_drop, List.length_take]
  omega

theorem chunkLoop_partition (data : Bytes) :
    ∀ (fuel start : Nat) (chunks : List Bytes), c.chunkLoop data fuel start = some chunks →
      chunks.flatten = data.drop start ∧ ∀ chunk ∈ chunks, chunk ≠ [] := by
  intro fuel
  induction fuel with
  | zero =>
      intro start chunks h
      unfold chunkLoop at h
      split at h
      · cases h
      · cases h
        rw [List.drop_eq_nil_of_le (by omega)]
        exact ⟨rfl, nofun⟩
  | succ fuel ih =>
      intro start chunks h
      unfold chunkLoop at h
      split at h
      · next hstart =>
          simp only at h
          split at h
          · cases h
          · next e he =>
              split at h
              · cases h
              · next rest hrest =>
                  cases h
                  obtain ⟨hse, hlen⟩ := c.findBoundary_bounds hstart he
                  obtain ⟨hflat, hne⟩ := ih e rest hrest
                  refine ⟨?_, ?_⟩
                  · rw [List.flatten_cons, hflat, slice_append_drop (by omega) hlen]
                  · intro chunk hmem
                    rcases List.mem_cons.mp hmem with rfl | hmem
                    · exact slice_ne_nil hse hlen
                    · exact hne chunk hmem
      · cases h
        rw [List.drop_eq_nil_of_le (by omega)]
        exact ⟨rfl, nofun⟩

/-- **Chunking cuts the data up and leaves nothing out.** -/
theorem chunkSlice_partition {data : Bytes} {chunks : List Bytes}
    (h : c.chunkSlice data = some chunks) :
    chunks.flatten = data ∧ ∀ chunk ∈ chunks, chunk ≠ [] :=
  c.chunkLoop_partition data data.length 0 chunks h

end FastCDC

end LimniFS
