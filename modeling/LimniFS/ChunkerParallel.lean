/-
Boundary-identical parallel `FastCDC`.

The parallel chunker finds candidates first and decides afterwards.  Lanes roll
the hash over disjoint regions, each primed 64 bytes before its own, and record
the positions that pass the probe mask; a serial replay then applies the decision
rule, rolling at most 63 bytes of each chunk itself and reading the rest off the
candidates.

What makes this exact is the window of the hash.  `windowed` is the value over the
last 64 bytes; every lane records it (`laneHits_eq`), whatever the number of lanes
and wherever they start, and from the 64th folded byte of a chunk it is also the
value the scalar roll would hold (`hashOver_window`).  Both masks imply the probe, so
no boundary is missing from the candidates, and the cursor only ever retires
positions before the next chunk.  `replayLoop_eq` carries this through a whole
file: chunk for chunk, the replay is the scalar loop.
-/
import LimniFS.Chunker

namespace LimniFS

open Lib Lib.RollingHash

/-- Each byte has left the 64-bit fingerprint after this many successors. -/
def gearWindow : Nat := 64

/-- `data.len().div_ceil(lanes)`. -/
def divCeil (n d : Nat) : Nat := (n + d - 1) / d

structure ParallelFastCDC where
  scalar : FastCDC
  threshold : Nat

namespace FastCDC

variable (c : FastCDC)

/-! ### Phase A: the candidate scan -/

/-- Both real masks imply it. -/
def probe : BitVec 64 := c.mask1 &&& c.mask2

/-- A lane's loop: roll from the priming byte on, record probe hits from `r0` on. -/
def laneScan (data : Bytes) (r0 : Nat) : Nat → Nat → BitVec 64 → List (Nat × BitVec 64)
  | 0, _, _ => []
  | n + 1, i, fp =>
    let fp := c.rollAt data fp i
    if r0 ≤ i ∧ fp &&& c.probe = 0 then (i, fp) :: laneScan data r0 n (i + 1) fp
    else laneScan data r0 n (i + 1) fp

def laneHits (data : Bytes) (laneLen lane : Nat) : List (Nat × BitVec 64) :=
  let r0 := lane * laneLen
  let r1 := min (r0 + laneLen) data.length
  if r1 ≤ r0 then []
  else
    let primeStart := r0 - gearWindow
    c.laneScan data r0 (r1 - primeStart) primeStart 0

/-! ### Phase B: the replay -/

/-- The positions with fewer than 64 folded bytes, recomputed. -/
def microScan (data : Bytes) (start : Nat) : Nat → Nat → BitVec 64 → Option Nat
  | 0, _, _ => none
  | n + 1, pos, fp =>
    let fp := c.rollAt data fp pos
    if fp &&& maskForPos (pos - start) c.avgSize c.mask1 c.mask2 = 0 then some (pos + 1)
    else microScan data start n (pos + 1) fp

/-- The decision rule over the candidates from the cursor on. -/
def walkCandidates (start maxEnd candidateFrom : Nat) :
    List (Nat × BitVec 64) → Option Nat
  | [] => none
  | (cpos, cfp) :: rest =>
    if maxEnd ≤ cpos then none
    else if cpos < candidateFrom then walkCandidates start maxEnd candidateFrom rest
    else if cfp &&& maskForPos (cpos - start) c.avgSize c.mask1 c.mask2 = 0 then some (cpos + 1)
    else walkCandidates start maxEnd candidateFrom rest

/-- Where the replay ends the chunk that starts at `start`. -/
def replayEnd (data : Bytes) (start maxEnd : Nat) (pending : List (Nat × BitVec 64)) : Nat :=
  let foldStart := start + c.minSize
  let warmEnd := min (foldStart + gearWindow - 1) maxEnd
  match c.microScan data start (warmEnd - foldStart) foldStart 0 with
  | some e => e
  | none =>
    match c.walkCandidates start maxEnd (foldStart + gearWindow - 1) pending with
    | some e => e
    | none => maxEnd

/-- The replay loop; `pending` is `candidates[cursor..]`. -/
def replayLoop (data : Bytes) :
    Nat → Nat → List (Nat × BitVec 64) → Option (List (Nat × Nat))
  | fuel, start, pending =>
    if start < data.length then
      match fuel with
      | 0 => none
      | fuel + 1 =>
        if usizeLimit ≤ start + c.maxSize then none
        else
          let maxEnd := min (start + c.maxSize) data.length
          if maxEnd - start ≤ c.minSize then
            (replayLoop data fuel maxEnd pending).map ((start, maxEnd) :: ·)
          else
            let e := c.replayEnd data start maxEnd pending
            let pending := pending.dropWhile fun cand => cand.1 < e
            (replayLoop data fuel e pending).map ((start, e) :: ·)
    else some []

end FastCDC

namespace ParallelFastCDC

/-- `None` is the division by a zero lane count. -/
def scanCandidates (p : ParallelFastCDC) (data : Bytes) (lanes : Nat) :
    Option (List (Nat × BitVec 64)) :=
  if lanes = 0 then none
  else some ((List.range lanes).flatMap (p.scalar.laneHits data (divCeil data.length lanes)))

def replayBoundaries (p : ParallelFastCDC) (data : Bytes)
    (candidates : List (Nat × BitVec 64)) : Option (List (Nat × Nat)) :=
  p.scalar.replayLoop data data.length 0 candidates

def chunkSliceWithLanes (p : ParallelFastCDC) (data : Bytes) (lanes : Nat) :
    Option (List Bytes) :=
  match p.scanCandidates data lanes with
  | none => none
  | some candidates =>
    (p.replayBoundaries data candidates).map
      (List.map fun chunk => FastCDC.slice data chunk.1 chunk.2)

/-- The dispatcher; `threads` is the width of the pool it runs in. -/
def chunkSlice (p : ParallelFastCDC) (threads : Nat) (data : Bytes) : Option (List Bytes) :=
  if data.length < p.threshold ∨ threads < 2 then p.scalar.chunkSlice data
  else p.chunkSliceWithLanes data threads

end ParallelFastCDC

namespace FastCDC

variable (c : FastCDC)

/-! ### Every lane records the windowed value -/

/-- The fingerprint over the last 64 bytes up to and including `i`. -/
def windowed (data : Bytes) (i : Nat) : BitVec 64 :=
  hashOver c.gearOf data (i - (gearWindow - 1)) (i + 1)

def probeHit (data : Bytes) (i : Nat) : Bool := decide (c.windowed data i &&& c.probe = 0)

/-- What a perfect scan of `[a, b)` would record. -/
def hitsIn (data : Bytes) (a b : Nat) : List (Nat × BitVec 64) :=
  ((List.range' a (b - a)).filter (c.probeHit data)).map fun i => (i, c.windowed data i)

theorem hashOver_eq_windowed {data : Bytes} {lo i : Nat} (hi : i < data.length)
    (h : lo + gearWindow ≤ i + 1 ∨ lo = i - (gearWindow - 1)) :
    hashOver c.gearOf data lo (i + 1) = c.windowed data i := by
  unfold windowed
  rcases h with h | h
  · unfold gearWindow at h ⊢
    exact hashOver_window c.gearOf h (by omega) hi
  · rw [h]

theorem hitsIn_empty {data : Bytes} {a b : Nat} (h : b ≤ a) : c.hitsIn data a b = [] := by
  simp [hitsIn, Nat.sub_eq_zero_of_le h]

theorem hitsIn_step {data : Bytes} {a b : Nat} (h : a < b) :
    c.hitsIn data a b
      = if c.probeHit data a then (a, c.windowed data a) :: c.hitsIn data (a + 1) b
        else c.hitsIn data (a + 1) b := by
  unfold hitsIn
  rw [show b - a = (b - (a + 1)) + 1 by omega, List.range'_succ, List.filter_cons]
  split <;> rfl

theorem hitsIn_append {data : Bytes} {a m b : Nat} (h1 : a ≤ m) (h2 : m ≤ b) :
    c.hitsIn data a m ++ c.hitsIn data m b = c.hitsIn data a b := by
  unfold hitsIn
  have hrange := List.range'_append_1 (s := a) (m := m - a) (n := b - m)
  rw [Nat.add_sub_cancel' h1, show m - a + (b - m) = b - a by omega] at hrange
  rw [← List.map_append, ← List.filter_append, hrange]

theorem laneScan_eq (data : Bytes) (r0 lo : Nat)
    (hlo : lo + gearWindow ≤ r0 + 1 ∨ lo = 0) :
    ∀ (n i : Nat), lo ≤ i → i + n ≤ data.length →
      c.laneScan data r0 n i (hashOver c.gearOf data lo i)
        = c.hitsIn data (max r0 i) (max r0 (i + n)) := by
  intro n
  induction n with
  | zero => intro i _ _; rw [Nat.add_zero, c.hitsIn_empty (Nat.le_refl _)]; rfl
  | succ n ih =>
      intro i hloi hlen
      have hroll := c.rollAt_hashOver hloi (by omega : i < data.length)
      have hrest := ih (i + 1) (by omega) (by omega)
      simp only [laneScan]
      rw [hroll, hrest, show i + 1 + n = i + (n + 1) by omega]
      by_cases hr : r0 ≤ i
      · have hwin : hashOver c.gearOf data lo (i + 1) = c.windowed data i := by
          apply c.hashOver_eq_windowed (by omega)
          rcases hlo with hlo | hlo
          · exact Or.inl (by omega)
          · unfold gearWindow
            omega
        rw [Nat.max_eq_right hr, Nat.max_eq_right (by omega), Nat.max_eq_right (by omega),
          c.hitsIn_step (by omega : i < i + (n + 1)), hwin]
        by_cases hhit : c.windowed data i &&& c.probe = 0
        · rw [if_pos ⟨hr, hhit⟩, if_pos (by simpa [probeHit] using hhit)]
        · rw [if_neg (fun hc => hhit hc.2), if_neg (by simpa [probeHit] using hhit)]
      · -- still priming: nothing is recorded below `r0`
        rw [if_neg (fun hc => hr hc.1), Nat.max_eq_left (by omega : i ≤ r0),
          Nat.max_eq_left (by omega : i + 1 ≤ r0)]

theorem laneHits_eq (data : Bytes) (laneLen lane : Nat) :
    c.laneHits data laneLen lane
      = c.hitsIn data (min (lane * laneLen) data.length)
          (min ((lane + 1) * laneLen) data.length) := by
  have hnext : (lane + 1) * laneLen = lane * laneLen + laneLen := by rw [Nat.add_mul, Nat.one_mul]
  unfold laneHits
  simp only
  rw [hnext]
  by_cases hr : min (lane * laneLen + laneLen) data.length ≤ lane * laneLen
  · rw [if_pos hr, c.hitsIn_empty (by omega)]
  · rw [if_neg hr]
    have hscan := c.laneScan_eq data (lane * laneLen) (lane * laneLen - gearWindow)
      (by unfold gearWindow; omega)
      (min (lane * laneLen + laneLen) data.length - (lane * laneLen - gearWindow))
      (lane * laneLen - gearWindow) (Nat.le_refl _) (by omega)
    rw [hashOver_self] at hscan
    rw [hscan]
    congr 1 <;> omega

/-- **The candidates do not depend on the number of lanes.** -/
theorem laneHits_flatMap (data : Bytes) (laneLen : Nat) :
    ∀ lanes : Nat, (List.range lanes).flatMap (c.laneHits data laneLen)
      = c.hitsIn data 0 (min (lanes * laneLen) data.length) := by
  intro lanes
  induction lanes with
  | zero => rw [c.hitsIn_empty (by omega)]; rfl
  | succ lanes ih =>
      have hmono : lanes * laneLen ≤ (lanes + 1) * laneLen :=
        Nat.mul_le_mul_right _ (Nat.le_succ _)
      rw [List.range_succ, List.flatMap_append, ih, List.flatMap_singleton, laneHits_eq,
        c.hitsIn_append (by omega) (by omega)]

theorem le_mul_divCeil {n d : Nat} (hd : 1 ≤ d) : n ≤ d * divCeil n d := by
  unfold divCeil
  have hmod := Nat.div_add_mod (n + d - 1) d
  have hlt := Nat.mod_lt (n + d - 1) (by omega : d > 0)
  omega

/-! ### The replay makes the scalar decision -/

theorem microScan_eq (data : Bytes) (start : Nat) :
    ∀ (n pos : Nat), start + c.minSize ≤ pos → pos + n ≤ data.length →
      c.microScan data start n pos (hashOver c.gearOf data (start + c.minSize) pos)
        = (firstIn (c.cutsAt data start) pos (pos + n)).map (· + 1) := by
  intro n
  induction n with
  | zero => intro pos _ _; rw [Nat.add_zero, firstIn_empty (Nat.le_refl _)]; rfl
  | succ n ih =>
      intro pos hpos hlen
      have hroll := c.rollAt_hashOver hpos (by omega : pos < data.length)
      have hrest := ih (pos + 1) (by omega) (by omega)
      rw [show pos + 1 + n = pos + (n + 1) by omega] at hrest
      simp only [microScan]
      rw [hroll, firstIn_step (by omega), hrest]
      by_cases hcut : hashOver c.gearOf data (start + c.minSize) (pos + 1)
          &&& maskForPos (pos - start) c.avgSize c.mask1 c.mask2 = 0
      · rw [if_pos hcut, if_pos (by simpa [cutsAt, fires] using hcut)]
        rfl
      · rw [if_neg hcut, if_neg (by simpa [cutsAt, fires] using hcut)]

theorem probe_of_mask {fp : BitVec 64} {pos : Nat}
    (h : fp &&& maskForPos pos c.avgSize c.mask1 c.mask2 = 0) : fp &&& c.probe = 0 := by
  unfold maskForPos at h
  unfold probe
  split at h
  · rw [← BitVec.and_assoc, h]
    exact BitVec.zero_and
  · rw [BitVec.and_comm c.mask1, ← BitVec.and_assoc, h]
    exact BitVec.zero_and

theorem cutsAt_eq_windowed {data : Bytes} (start : Nat) {i : Nat} (hi : i < data.length)
    (hfrom : start + c.minSize + gearWindow - 1 ≤ i) :
    c.cutsAt data start i
      = decide (c.windowed data i &&& maskForPos (i - start) c.avgSize c.mask1 c.mask2 = 0) := by
  unfold cutsAt fires
  rw [c.hashOver_eq_windowed hi (Or.inl (by unfold gearWindow at hfrom ⊢; omega))]

theorem walkCandidates_eq (data : Bytes) (start : Nat) {maxEnd : Nat} (hmax : maxEnd ≤ data.length) :
    ∀ (n q : Nat), data.length = q + n →
      c.walkCandidates start maxEnd (start + c.minSize + gearWindow - 1)
          (c.hitsIn data q data.length)
        = (firstIn (c.cutsAt data start)
            (max q (start + c.minSize + gearWindow - 1)) maxEnd).map (· + 1) := by
  intro n
  induction n with
  | zero =>
      intro q hq
      rw [c.hitsIn_empty (by omega), firstIn_empty (by omega)]
      rfl
  | succ n ih =>
      intro q hq
      have hrest := ih (q + 1) (by omega)
      by_cases hpast : maxEnd ≤ q
      · -- past the region: the walk breaks at its first candidate, or has none
        rw [firstIn_empty (by omega)] at hrest ⊢
        rw [c.hitsIn_step (by omega)]
        split
        · simp only [walkCandidates, if_pos hpast, Option.map_none]
        · exact hrest
      · by_cases hwarm : q < start + c.minSize + gearWindow - 1
        · rw [Nat.max_eq_right (by omega)] at hrest ⊢
          rw [c.hitsIn_step (by omega)]
          split
          · simp only [walkCandidates, if_neg hpast, if_pos hwarm]
            exact hrest
          · exact hrest
        · rw [Nat.max_eq_left (by omega)] at hrest ⊢
          have hcut := c.cutsAt_eq_windowed start (by omega : q < data.length) (by omega)
          rw [c.hitsIn_step (by omega), firstIn_step (by omega), hcut]
          by_cases hfire : c.windowed data q
              &&& maskForPos (q - start) c.avgSize c.mask1 c.mask2 = 0
          · have hprobe : c.probeHit data q = true := by
              simpa [probeHit] using c.probe_of_mask hfire
            rw [if_pos hprobe, if_pos (decide_eq_true hfire)]
            simp only [walkCandidates, if_neg hpast, if_neg hwarm, if_pos hfire, Option.map_some]
          · simp only [hfire, decide_false]
            split
            · simp only [walkCandidates, if_neg hpast, if_neg hwarm, if_neg hfire]
              exact hrest
            · exact hrest

theorem replayEnd_eq {data : Bytes} {start q : Nat} (hq : q ≤ start)
    (hlong : c.minSize < min (start + c.maxSize) data.length - start) :
    c.replayEnd data start (min (start + c.maxSize) data.length) (c.hitsIn data q data.length)
      = c.boundaryAt data start := by
  unfold replayEnd boundaryAt
  simp only
  generalize hmax : min (start + c.maxSize) data.length = maxEnd at hlong ⊢
  generalize hwarm : min (start + c.minSize + gearWindow - 1) maxEnd = warmEnd
  have hmicro := c.microScan_eq data start (warmEnd - (start + c.minSize)) (start + c.minSize)
    (Nat.le_refl _) (by omega)
  have hge : start + c.minSize ≤ warmEnd := by unfold gearWindow at hwarm; omega
  rw [hashOver_self, Nat.add_sub_cancel' hge] at hmicro
  have hwalk := c.walkCandidates_eq data start (by omega : maxEnd ≤ data.length)
    (data.length - q) q (by omega)
  rw [Nat.max_eq_right (by unfold gearWindow; omega)] at hwalk
  rw [firstIn_split hge (by omega : warmEnd ≤ maxEnd), hmicro]
  cases firstIn (c.cutsAt data start) (start + c.minSize) warmEnd with
  | some i => rfl
  | none =>
      -- either the micro-scan stopped short of the windowed region, or it covered the chunk
      have hrest : firstIn (c.cutsAt data start) warmEnd maxEnd
          = firstIn (c.cutsAt data start) (start + c.minSize + gearWindow - 1) maxEnd := by
        by_cases hfull : start + c.minSize + gearWindow - 1 ≤ maxEnd
        · rw [← hwarm, Nat.min_eq_left hfull]
        · rw [firstIn_empty (by omega), firstIn_empty (by omega)]
      simp only [Option.map_none, Option.none_or, hwalk, hrest]
      cases firstIn (c.cutsAt data start) (start + c.minSize + gearWindow - 1) maxEnd <;> rfl

theorem hitsIn_retire {data : Bytes} {e b : Nat} :
    ∀ (n q : Nat), e = q + n → e ≤ b →
      (c.hitsIn data q b).dropWhile (fun cand => cand.1 < e) = c.hitsIn data e b := by
  intro n
  induction n with
  | zero =>
      intro q hq hb
      rw [show q = e by omega]
      cases hhits : c.hitsIn data e b with
      | nil => rfl
      | cons cand rest =>
          have hmem : cand ∈ c.hitsIn data e b := by rw [hhits]; exact List.mem_cons_self
          simp only [hitsIn, List.mem_map, List.mem_filter, List.mem_range'_1] at hmem
          obtain ⟨i, ⟨⟨hei, _⟩, _⟩, rfl⟩ := hmem
          exact List.dropWhile_cons_of_neg (by simp; omega)
  | succ n ih =>
      intro q hq hb
      have hrest := ih (q + 1) (by omega) hb
      rw [c.hitsIn_step (by omega)]
      split
      · rw [List.dropWhile_cons_of_pos (by simp; omega)]
        exact hrest
      · exact hrest

theorem replayLoop_eq (data : Bytes) :
    ∀ (fuel start q : Nat), q ≤ start →
      (c.replayLoop data fuel start (c.hitsIn data q data.length)).map
          (List.map fun chunk => slice data chunk.1 chunk.2)
        = c.chunkLoop data fuel start := by
  intro fuel
  induction fuel with
  | zero =>
      intro start q hq
      unfold replayLoop chunkLoop
      split <;> rfl
  | succ fuel ih =>
      intro start q hq
      unfold replayLoop chunkLoop
      by_cases hs : start < data.length
      · rw [if_pos hs, if_pos hs]
        simp only
        by_cases hfit : usizeLimit ≤ start + c.maxSize
        · rw [if_pos hfit, c.findBoundary_overflow hs hfit]
          rfl
        · have hrange := c.boundaryAt_bounds hs
          rw [if_neg hfit, c.findBoundary_eq hs (by omega)]
          by_cases hshort : min (start + c.maxSize) data.length - start ≤ c.minSize
          · have hlast : min (start + c.maxSize) data.length = c.boundaryAt data start := by
              unfold boundaryAt
              rw [firstIn_empty (by omega)]
            rw [if_pos hshort, hlast]
            simp only
            rw [← ih (c.boundaryAt data start) q (by omega), Option.map_map]
            cases c.replayLoop data fuel (c.boundaryAt data start)
              (c.hitsIn data q data.length) <;> rfl
          · rw [if_neg hshort, c.replayEnd_eq hq (by omega)]
            simp only
            rw [c.hitsIn_retire (c.boundaryAt data start - q) q (by omega) hrange.2,
              ← ih (c.boundaryAt data start) _ (Nat.le_refl _), Option.map_map]
            cases c.replayLoop data fuel (c.boundaryAt data start)
              (c.hitsIn data (c.boundaryAt data start) data.length) <;> rfl
      · rw [if_neg hs, if_neg hs]
        rfl

/-! ### Parallel chunking is scalar chunking -/

theorem chunkSliceWithLanes_scalar (p : ParallelFastCDC) (data : Bytes) {lanes : Nat}
    (hlanes : 1 ≤ lanes) : p.chunkSliceWithLanes data lanes = p.scalar.chunkSlice data := by
  have hcover : data.length ≤ lanes * divCeil data.length lanes := le_mul_divCeil hlanes
  unfold ParallelFastCDC.chunkSliceWithLanes ParallelFastCDC.scanCandidates
    ParallelFastCDC.replayBoundaries chunkSlice
  rw [if_neg (by omega), laneHits_flatMap, Nat.min_eq_right hcover]
  exact p.scalar.replayLoop_eq data data.length 0 0 (Nat.le_refl _)

theorem chunkSlice_scalar (p : ParallelFastCDC) (threads : Nat) (data : Bytes) :
    p.chunkSlice threads data = p.scalar.chunkSlice data := by
  unfold ParallelFastCDC.chunkSlice
  split
  · rfl
  · exact chunkSliceWithLanes_scalar _ data (by omega)

end FastCDC

namespace FastCDC

theorem new_maxSize {minSize avgSize maxSize : Nat} {scalar : FastCDC}
    (hnew : FastCDC.new minSize avgSize maxSize = .ok scalar) : scalar.maxSize = maxSize := by
  unfold FastCDC.new at hnew
  split at hnew
  · cases hnew
  · split at hnew
    · cases hnew
    · split at hnew
      · cases hnew
      · cases hnew; rfl

theorem chunkSlice_total {scalar : FastCDC} {data : Bytes}
    (hfit : data.length + scalar.maxSize < usizeLimit) :
    ∃ chunks, scalar.chunkSlice data = some chunks :=
  scalar.chunkLoop_total hfit data.length 0 (by omega)

end FastCDC

open FastCDC in
/--
**Chunk boundaries do not depend on the machine.**  For every accepted triple of
sizes the two-phase split returns the chunks of the scalar roll at every lane
count, and so does the dispatcher at every threshold and pool width; where no
position can leave a `usize` both return a list of chunks.
-/
theorem parallel_chunks_eq_scalar_chunks {minSize avgSize maxSize : Nat} {scalar : FastCDC}
    (hnew : FastCDC.new minSize avgSize maxSize = .ok scalar) (threshold : Nat) (data : Bytes) :
    (∀ lanes, 1 ≤ lanes →
      (ParallelFastCDC.mk scalar threshold).chunkSliceWithLanes data lanes
        = scalar.chunkSlice data) ∧
    (∀ threads, (ParallelFastCDC.mk scalar threshold).chunkSlice threads data
        = scalar.chunkSlice data) ∧
    (data.length + maxSize < usizeLimit → ∃ chunks, scalar.chunkSlice data = some chunks) := by
  refine ⟨fun lanes hlanes => chunkSliceWithLanes_scalar _ data hlanes,
    fun threads => chunkSlice_scalar _ threads data, ?_⟩
  intro hfit
  exact chunkSlice_total (by rw [new_maxSize hnew]; exact hfit)

theorem parallel_chunks_eq_scalar_chunks_small :
    ∃ scalar, FastCDC.new 1 2 4 = .ok scalar ∧
      (ParallelFastCDC.mk scalar 0).chunkSliceWithLanes [7, 7, 7, 7, 7, 7, 7] 3
        = scalar.chunkSlice [7, 7, 7, 7, 7, 7, 7] :=
  ⟨_, rfl, (@parallel_chunks_eq_scalar_chunks 1 2 4 _ rfl 0 _).1 3 (by decide)⟩

end LimniFS
