/-
Chunks off a reader, and what chunking does to the data.

`chunk_reader` looks at the bytes one at a time as they are read, and never goes back: it
carries the bytes of the chunk so far and the hash over them.  A chunk ends where the
hash fires, or in front of the byte that would make it too long.  Where the pieces of
the input begin and end does not matter, and the chunks are those of `chunk_slice`.

The chunks are the data cut up: none is empty or longer than the largest size, and only the last one
may be as short as the smallest size.  `FastCDC::new` puts no bound on the sizes, and the buffer of
`chunk_reader` is asked for at once, so with a largest size near `2 ^ 63` a reader gives no chunks at
all.
-/
import Mathlib.Data.List.GetD
import LimniFS.ChunkerParallel

namespace LimniFS

open Lib Lib.RollingHash

/-- One answer of a reader; no bytes is the end. -/
inductive ReadResult where
  | bytes (piece : Bytes)
  | failed (text : String)
  deriving DecidableEq

namespace FastCDC

def readBufferSize : Nat := 64 * 1024

/-- The hash, the chunk that is being filled and those that are done. -/
structure ReaderState where
  fp : BitVec 64
  current : Bytes
  chunks : List Bytes

variable (c : FastCDC)

/-- The chunk is done. -/
def ReaderState.cut (s : ReaderState) : ReaderState := ⟨0, [], s.chunks ++ [s.current]⟩

/-- A byte that starts a chunk or goes on with it.  A chunk of the largest size is done before
the byte is looked at. -/
def takeByte (s : ReaderState) (b : UInt8) : ReaderState :=
  let s := if c.maxSize ≤ s.current.length then s.cut else s
  let longer := { s with current := s.current ++ [b] }
  if s.current.length < c.minSize then longer
  else
    let fp := (s.fp <<< 1) + c.gearOf b
    if fp &&& maskForPos s.current.length c.avgSize c.mask1 c.mask2 = 0 then longer.cut
    else { longer with fp := fp }

/-- What is left in the end is a chunk too. -/
def ReaderState.finish (s : ReaderState) : List Bytes :=
  if s.current = [] then s.chunks else s.chunks ++ [s.current]

def readLoop : List ReadResult → ReaderState → Except String ReaderState
  | [], s => .ok s
  | .failed text :: _, _ => .error text
  | .bytes piece :: rest, s =>
    if piece = [] then .ok s else readLoop rest (piece.foldl c.takeByte s)

/-- `chunk_reader`; nothing if the buffer it asks for cannot be had at all. -/
def chunkReader (reader : List ReadResult) : Option (Except String (List Bytes)) :=
  if 2 ^ 63 ≤ c.maxSize + readBufferSize then none
  else some ((c.readLoop reader ⟨0, [], []⟩).map ReaderState.finish)

/-! ### The chunks are those of the slice -/

variable {c}

/-- The state in front of byte `i`, in a chunk that starts at `start`. -/
structure Scanning (data : Bytes) (start i : Nat) (s : ReaderState) : Prop where
  le : start ≤ i
  bound : i ≤ data.length
  room : i ≤ start + c.maxSize
  current : s.current = slice data start i
  fp : s.fp = hashOver c.gearOf data (start + c.minSize) i
  uncut : ∀ j, start + c.minSize ≤ j → j < i → c.cutsAt data start j = false

theorem slice_self (data : Bytes) (i : Nat) : slice data i i = [] := by
  rw [slice, List.drop_eq_nil_of_le]
  exact List.length_take_le i data

theorem slice_length {data : Bytes} {s e : Nat} (he : e ≤ data.length) :
    (slice data s e).length = e - s := by
  rw [slice, List.length_drop, List.length_take, Nat.min_eq_left he]

theorem slice_snoc {data : Bytes} {s i : Nat} (hs : s ≤ i) (hi : i < data.length) :
    slice data s i ++ [data[i]] = slice data s (i + 1) := by
  unfold slice
  rw [List.take_succ_eq_append_getElem hi, List.drop_append_of_le_length]
  rw [List.length_take]
  omega

theorem hashOver_of_le (data : Bytes) {lo i : Nat} (h : i ≤ lo) :
    hashOver c.gearOf data lo i = 0 := by
  unfold hashOver
  rw [List.drop_eq_nil_of_le]
  · rfl
  · exact Nat.le_trans (List.length_take_le i data) h

theorem scanning_start {data : Bytes} {i : Nat} (hi : i ≤ data.length) (chunks : List Bytes) :
    Scanning (c := c) data i i ⟨0, [], chunks⟩ where
  le := Nat.le_refl i
  bound := hi
  room := Nat.le_add_right i c.maxSize
  current := (slice_self data i).symm
  fp := (hashOver_of_le data (Nat.le_add_right i c.minSize)).symm
  uncut := by
    intro j hj hji
    omega

variable {data : Bytes} {start i : Nat} {s : ReaderState}

theorem boundaryAt_of_cut (h : Scanning (c := c) data start i s) (hi : i < data.length)
    (hroom : i < start + c.maxSize) (hmin : start + c.minSize ≤ i)
    (hcut : c.cutsAt data start i = true) : c.boundaryAt data start = i + 1 := by
  have hnone : firstIn (c.cutsAt data start) (start + c.minSize) i = none := by
    refine List.find?_eq_none.mpr fun j hj => ?_
    rw [List.mem_range'_1] at hj
    rw [h.uncut j hj.1 (by omega)]
    exact Bool.false_ne_true
  unfold boundaryAt
  rw [firstIn_split hmin (by omega : i ≤ min (start + c.maxSize) data.length), hnone,
    Option.none_or, firstIn_step (by omega), if_pos hcut]

theorem boundaryAt_of_full (h : Scanning (c := c) data start i s)
    (hfull : i = min (start + c.maxSize) data.length) : c.boundaryAt data start = i := by
  have hnone : firstIn (c.cutsAt data start) (start + c.minSize) i = none := by
    refine List.find?_eq_none.mpr fun j hj => ?_
    rw [List.mem_range'_1] at hj
    rw [h.uncut j hj.1 (by omega)]
    exact Bool.false_ne_true
  unfold boundaryAt
  rw [← hfull, hnone]

theorem chunkLoop_cons {fuel e : Nat} {rest : List Bytes} (hstart : start < data.length)
    (hfit : data.length + c.maxSize < usizeLimit) (hbound : c.boundaryAt data start = e)
    (h : c.chunkLoop data (fuel + 1) start = some rest) :
    ∃ rest', c.chunkLoop data fuel e = some rest' ∧ rest = slice data start e :: rest' := by
  unfold chunkLoop at h
  rw [if_pos hstart, c.findBoundary_eq hstart (by omega), hbound] at h
  simp only at h
  cases hrest : c.chunkLoop data fuel e with
  | none =>
      rw [hrest] at h
      cases h
  | some rest' =>
      rw [hrest] at h
      exact ⟨rest', rfl, (Option.some.inj h).symm⟩

theorem takeByte_room (h : Scanning (c := c) data start i s) (hi : i < data.length)
    (hroom : i < start + c.maxSize) :
    (c.boundaryAt data start = i + 1 ∧
        c.takeByte s data[i] = ⟨0, [], s.chunks ++ [slice data start (i + 1)]⟩) ∨
      (Scanning (c := c) data start (i + 1) (c.takeByte s data[i]) ∧
        (c.takeByte s data[i]).chunks = s.chunks) := by
  have hle := h.le
  have hlen : s.current.length = i - start := by rw [h.current, slice_length h.bound]
  have hsnoc : s.current ++ [data[i]] = slice data start (i + 1) := by
    rw [h.current, slice_snoc hle hi]
  have hfits : ¬ c.maxSize ≤ s.current.length := by omega
  unfold takeByte
  simp only [if_neg hfits]
  rw [hlen, hsnoc]
  by_cases hmin : i - start < c.minSize
  · rw [if_pos hmin]
    refine Or.inr ⟨⟨by omega, hi, by omega, rfl, ?_, fun j hj hji => by omega⟩, rfl⟩
    rw [hashOver_of_le data (by omega), h.fp, hashOver_of_le data (by omega)]
  · rw [if_neg hmin]
    have hroll := c.rollAt_hashOver (by omega : start + c.minSize ≤ i) hi
    rw [rollAt, List.getD_eq_getElem _ _ hi, ← h.fp] at hroll
    rw [hroll]
    by_cases hcut : c.cutsAt data start i = true
    · have hfires : hashOver c.gearOf data (start + c.minSize) (i + 1) &&&
          maskForPos (i - start) c.avgSize c.mask1 c.mask2 = 0 := of_decide_eq_true hcut
      rw [if_pos hfires]
      exact Or.inl ⟨boundaryAt_of_cut h hi hroom (by omega) hcut, rfl⟩
    · have hfires : ¬ hashOver c.gearOf data (start + c.minSize) (i + 1) &&&
          maskForPos (i - start) c.avgSize c.mask1 c.mask2 = 0 := fun hzero =>
        hcut (decide_eq_true hzero)
      rw [if_neg hfires]
      refine Or.inr ⟨⟨by omega, hi, by omega, rfl, rfl, fun j hj hji => ?_⟩, rfl⟩
      rcases Nat.lt_succ_iff_lt_or_eq.mp hji with hlt | rfl
      · exact h.uncut j hj hlt
      · exact Bool.eq_false_of_not_eq_true hcut

theorem takeByte_full (h : Scanning (c := c) data start i s) (hfull : start + c.maxSize = i)
    (b : UInt8) : c.takeByte s b = c.takeByte s.cut b := by
  have hlen : s.current.length = i - start := by rw [h.current, slice_length h.bound]
  have hmax : 0 < c.maxSize := Nat.lt_trans (Nat.lt_trans c.min_pos c.min_lt_avg) c.avg_lt_max
  have hover : c.maxSize ≤ s.current.length := by omega
  have hfresh : ¬ c.maxSize ≤ s.cut.current.length := Nat.not_le.mpr hmax
  unfold takeByte
  simp only [if_pos hover, if_neg hfresh]

/-- **From any place on, the reader finds the chunks of the slice.** -/
theorem scan_eq (hfit : data.length + c.maxSize < usizeLimit) :
    ∀ (n start i fuel : Nat) (s : ReaderState) (rest : List Bytes), data.length - i = n →
      Scanning (c := c) data start i s → data.length ≤ start + fuel →
      c.chunkLoop data fuel start = some rest →
      ((data.drop i).foldl c.takeByte s).finish = s.chunks ++ rest := by
  intro n
  induction n with
  | zero =>
      intro start i fuel s rest hn h hfuel hloop
      have hend : i = data.length := by have := h.bound; omega
      rw [List.drop_eq_nil_of_le (by omega), List.foldl_nil, ReaderState.finish, h.current]
      by_cases hstart : start < data.length
      · cases fuel with
        | zero => omega
        | succ fuel =>
            have hfull : i = min (start + c.maxSize) data.length := by have := h.room; omega
            obtain ⟨rest', hrest', rfl⟩ := chunkLoop_cons hstart hfit (boundaryAt_of_full h hfull) hloop
            have hnil : rest' = [] := by
              unfold chunkLoop at hrest'
              rw [if_neg (by omega)] at hrest'
              exact (Option.some.inj hrest').symm
            rw [hnil, if_neg (slice_ne_nil (by omega) h.bound)]
      · have hsame : start = i := by have := h.le; omega
        have hnil : rest = [] := by
          unfold chunkLoop at hloop
          rw [if_neg hstart] at hloop
          exact (Option.some.inj hloop).symm
        rw [hsame, slice_self, if_pos rfl, hnil, List.append_nil]
  | succ n ih =>
      intro start i fuel s rest hn h hfuel hloop
      have hi : i < data.length := by omega
      rw [List.drop_eq_getElem_cons hi, List.foldl_cons]
      -- The byte goes to a chunk with room for it; a full one is cut off first.
      have hroomy : ∀ (start fuel : Nat) (s : ReaderState) (rest : List Bytes),
          Scanning (c := c) data start i s → i < start + c.maxSize → data.length ≤ start + fuel →
          c.chunkLoop data fuel start = some rest →
          ((data.drop (i + 1)).foldl c.takeByte (c.takeByte s data[i])).finish =
            s.chunks ++ rest := by
        intro start fuel s rest h hroom hfuel hloop
        rcases takeByte_room h hi hroom with ⟨hbound, htake⟩ | ⟨hscan, hchunks⟩
        · cases fuel with
          | zero => have := h.le; omega
          | succ fuel =>
              have hle := h.le
              obtain ⟨rest', hrest', rfl⟩ := chunkLoop_cons (by omega) hfit hbound hloop
              rw [htake]
              have hnext := ih (i + 1) (i + 1) fuel _ rest' (by omega)
                (scanning_start hi (s.chunks ++ [slice data start (i + 1)])) (by omega) hrest'
              rw [hnext, List.append_assoc]
              rfl
        · rw [ih start (i + 1) fuel _ rest (by omega) hscan hfuel hloop, hchunks]
      by_cases hroom : i < start + c.maxSize
      · exact hroomy start fuel s rest h hroom hfuel hloop
      · have hfull : start + c.maxSize = i := by have := h.room; omega
        have hmax : 0 < c.maxSize := Nat.lt_trans (Nat.lt_trans c.min_pos c.min_lt_avg) c.avg_lt_max
        cases fuel with
        | zero => omega
        | succ fuel =>
            obtain ⟨rest', hrest', rfl⟩ := chunkLoop_cons (by omega) hfit
              (boundaryAt_of_full h (by omega)) hloop
            rw [takeByte_full h hfull, hroomy i fuel s.cut rest' (scanning_start h.bound _) (by omega)
              (by omega) hrest', ReaderState.cut, h.current, List.append_assoc]
            rfl

/-- What a reader delivers before it ends or fails. -/
def delivered : List ReadResult → Bytes
  | [] => []
  | .failed _ :: _ => []
  | .bytes piece :: rest => if piece = [] then [] else piece ++ delivered rest

/-- Whether a reader comes to its end. -/
def completes : List ReadResult → Bool
  | [] => true
  | .failed _ :: _ => false
  | .bytes piece :: rest => if piece = [] then true else completes rest

theorem readLoop_eq : ∀ (reader : List ReadResult) (s : ReaderState), completes reader = true →
    c.readLoop reader s = .ok ((delivered reader).foldl c.takeByte s) := by
  intro reader
  induction reader with
  | nil =>
      intro s _
      rfl
  | cons r rest ih =>
      intro s hdone
      cases r with
      | failed text => cases hdone
      | bytes piece =>
          unfold completes at hdone
          unfold readLoop delivered
          by_cases hpiece : piece = []
          · rw [if_pos hpiece, if_pos hpiece]
            rfl
          · rw [if_neg hpiece] at hdone
            rw [if_neg hpiece, if_neg hpiece, ih _ hdone, List.foldl_append]

theorem readLoop_error : ∀ (reader : List ReadResult) (s : ReaderState), completes reader = false →
    ∃ text, c.readLoop reader s = .error text := by
  intro reader
  induction reader with
  | nil =>
      intro s hdone
      cases hdone
  | cons r rest ih =>
      intro s hdone
      cases r with
      | failed text => exact ⟨text, rfl⟩
      | bytes piece =>
          unfold completes at hdone
          unfold readLoop
          by_cases hpiece : piece = []
          · rw [if_pos hpiece] at hdone
            cases hdone
          · rw [if_neg hpiece] at hdone
            rw [if_neg hpiece]
            exact ih _ hdone

theorem chunkReader_fails {reader : List ReadResult} (hfail : completes reader = false)
    (chunks : List Bytes) : c.chunkReader reader ≠ some (.ok chunks) := by
  obtain ⟨text, htext⟩ := readLoop_error (c := c) reader ⟨0, [], []⟩ hfail
  unfold chunkReader
  rw [htext]
  split
  · exact nofun
  · exact nofun

/-- The bytes that were taken. -/
def ReaderState.taken (s : ReaderState) : Bytes := s.chunks.flatten ++ s.current

theorem ReaderState.taken_cut (s : ReaderState) : s.cut.taken = s.taken := by
  simp [taken, cut]

theorem takeByte_taken (s : ReaderState) (b : UInt8) : (c.takeByte s b).taken = s.taken ++ [b] := by
  have hlonger : ∀ s : ReaderState, ReaderState.taken { s with current := s.current ++ [b] }
      = s.taken ++ [b] := fun s => (List.append_assoc _ _ _).symm
  have hstart : (if c.maxSize ≤ s.current.length then s.cut else s).taken = s.taken := by
    split
    · exact s.taken_cut
    · rfl
  unfold takeByte
  simp only
  rw [← hstart]
  generalize (if c.maxSize ≤ s.current.length then s.cut else s) = start
  split
  · exact hlonger _
  · split
    · rw [ReaderState.taken_cut]
      exact hlonger _
    · exact hlonger _

theorem foldl_takeByte_taken : ∀ (data : Bytes) (s : ReaderState),
    (data.foldl c.takeByte s).taken = s.taken ++ data := by
  intro data
  induction data with
  | nil =>
      intro s
      exact (List.append_nil _).symm
  | cons b rest ih =>
      intro s
      rw [List.foldl_cons, ih, takeByte_taken, List.append_assoc]
      rfl

theorem flatten_chunkReader {reader : List ReadResult} {chunks : List Bytes}
    (h : c.chunkReader reader = some (.ok chunks)) : chunks.flatten = delivered reader := by
  have hdone : completes reader = true := by
    by_contra hfail
    exact chunkReader_fails (Bool.not_eq_true _ ▸ hfail) chunks h
  unfold chunkReader at h
  rw [readLoop_eq reader _ hdone] at h
  split at h
  · cases h
  · cases h
    have htaken := foldl_takeByte_taken (c := c) (delivered reader) ⟨0, [], []⟩
    generalize (delivered reader).foldl c.takeByte ⟨0, [], []⟩ = s at htaken ⊢
    rw [ReaderState.taken, ReaderState.taken] at htaken
    unfold ReaderState.finish
    by_cases hcurrent : s.current = []
    · rw [if_pos hcurrent]
      rw [hcurrent, List.append_nil] at htaken
      exact htaken
    · rw [if_neg hcurrent, List.flatten_append, List.flatten_singleton]
      exact htaken

/-- **A reader and a slice of the same bytes give the same chunks.** -/
theorem chunkReader_eq_chunkSlice {reader : List ReadResult} (hdone : completes reader = true)
    (hbuffer : c.maxSize + readBufferSize < 2 ^ 63) (hlen : (delivered reader).length < 2 ^ 63) :
    ∃ chunks, c.chunkSlice (delivered reader) = some chunks ∧
      c.chunkReader reader = some (.ok chunks) := by
  have hfit : (delivered reader).length + c.maxSize < usizeLimit := by
    unfold readBufferSize at hbuffer
    unfold usizeLimit
    omega
  obtain ⟨chunks, hchunks⟩ := chunkSlice_total hfit
  refine ⟨chunks, hchunks, ?_⟩
  have hscan := scan_eq hfit _ 0 0 (delivered reader).length _ chunks rfl
    (scanning_start (Nat.zero_le _) []) (Nat.le_add_left _ _) hchunks
  rw [List.drop_zero, List.nil_append] at hscan
  unfold chunkReader
  rw [if_neg (Nat.not_le.mpr hbuffer), readLoop_eq reader _ hdone]
  exact congrArg (fun x => some (Except.ok x)) hscan

end FastCDC

namespace FastCDC

/-- The chunks are a partition of the data, within the sizes. -/
structure Partitions (c : FastCDC) (data : Bytes) (chunks : List Bytes) : Prop where
  flatten : chunks.flatten = data
  nonempty : ∀ chunk ∈ chunks, chunk ≠ []
  atMost : ∀ chunk ∈ chunks, chunk.length ≤ c.maxSize
  longer : ∀ chunk ∈ chunks.dropLast, c.minSize < chunk.length

/-- The slice is partitioned, and every reader of the same bytes gets the same chunks. -/
def ChunksExactly (c : FastCDC) (data : Bytes) : Prop :=
  ∃ chunks, c.chunkSlice data = some chunks ∧ c.Partitions data chunks ∧
    ∀ reader, completes reader = true → delivered reader = data →
      c.chunkReader reader = some (.ok chunks)

section
variable {c : FastCDC} {data : Bytes}

/-! ### How long a chunk is -/

theorem findBoundary_within {start e : Nat} (hstart : start < data.length)
    (h : c.findBoundary data start = some e) :
    e ≤ start + c.maxSize ∧ (e < data.length → start + c.minSize < e) := by
  by_cases hfit : start + c.maxSize < usizeLimit
  · rw [c.findBoundary_eq hstart hfit] at h
    cases h
    obtain ⟨hmax, -, hmin⟩ := @boundaryAt_within c data start
    exact ⟨hmax, hmin⟩
  · rw [c.findBoundary_overflow hstart (by omega)] at h
    cases h

theorem chunkLoop_end {fuel start : Nat} {chunks : List Bytes} (hend : data.length ≤ start)
    (h : c.chunkLoop data fuel start = some chunks) : chunks = [] := by
  unfold chunkLoop at h
  rw [if_neg (by omega)] at h
  exact (Option.some.inj h).symm

theorem chunkLoop_within (data : Bytes) :
    ∀ (fuel start : Nat) (chunks : List Bytes), c.chunkLoop data fuel start = some chunks →
      (∀ chunk ∈ chunks, chunk.length ≤ c.maxSize) ∧
        ∀ chunk ∈ chunks.dropLast, c.minSize < chunk.length := by
  intro fuel
  induction fuel with
  | zero =>
      intro start chunks h
      unfold chunkLoop at h
      split at h
      · cases h
      · cases h
        simp
  | succ fuel ih =>
      intro start chunks h
      by_cases hstart : start < data.length
      · unfold chunkLoop at h
        rw [if_pos hstart] at h
        simp only at h
        split at h
        · cases h
        · next e he =>
            split at h
            · cases h
            · next rest hrest =>
                cases h
                obtain ⟨hmost, hlonger⟩ := findBoundary_within hstart he
                have hbounds := c.findBoundary_bounds hstart he
                have hlen : (slice data start e).length = e - start := slice_length hbounds.2
                obtain ⟨hmax, hmin⟩ := ih e rest hrest
                refine ⟨List.forall_mem_cons.mpr ⟨by omega, hmax⟩, ?_⟩
                by_cases hnil : rest = []
                · subst hnil
                  simp
                · -- a chunk that another one follows does not end where the data ends
                  have hmore : e < data.length := by
                    by_contra hnot
                    exact hnil (chunkLoop_end (Nat.le_of_not_lt hnot) hrest)
                  rw [List.dropLast_cons_of_ne_nil hnil]
                  have hfirst := hlonger hmore
                  exact List.forall_mem_cons.mpr ⟨by omega, hmin⟩
      · rw [chunkLoop_end (Nat.le_of_not_lt hstart) h]
        simp

theorem chunkSlice_partitions {chunks : List Bytes} (h : c.chunkSlice data = some chunks) :
    c.Partitions data chunks := by
  obtain ⟨hflatten, hnonempty⟩ := c.chunkSlice_partition h
  obtain ⟨hmost, hlonger⟩ := chunkLoop_within data _ _ chunks h
  exact ⟨hflatten, hnonempty, hmost, hlonger⟩

/-! ### Slices and readers -/

theorem exists_reader (data : Bytes) : ∃ reader, completes reader = true ∧ delivered reader = data := by
  by_cases hnil : data = []
  · exact ⟨[], rfl, hnil.symm⟩
  · refine ⟨[.bytes data], ?_, ?_⟩
    · rw [completes, if_neg hnil]
      rfl
    · rw [delivered, if_neg hnil]
      exact List.append_nil data

end

end FastCDC

open FastCDC

/-- **Chunking is exact for all data that a slice can hold, and the same for a slice and for every
reader, exactly if the buffer for the largest size can be asked for.** -/
theorem chunks_exactly_iff : ∀ (minSize avgSize maxSize : Nat) (c : FastCDC),
    FastCDC.new minSize avgSize maxSize = .ok c → ∀ data : Bytes, data.length < 2 ^ 63 →
    (ChunksExactly c data ↔ maxSize + readBufferSize < 2 ^ 63) := by
  intro minSize avgSize maxSize c hnew data hdata
  rw [← new_maxSize hnew]
  constructor
  · rintro ⟨chunks, -, -, hreaders⟩
    obtain ⟨reader, hdone, hdelivered⟩ := exists_reader data
    have hread := hreaders reader hdone hdelivered
    unfold chunkReader at hread
    split at hread
    · cases hread
    · next hroom => exact Nat.lt_of_not_le hroom
  · intro hroom
    have hfit : data.length + c.maxSize < usizeLimit := by
      unfold readBufferSize at hroom
      unfold usizeLimit
      omega
    obtain ⟨chunks, hchunks⟩ := chunkSlice_total hfit
    refine ⟨chunks, hchunks, chunkSlice_partitions hchunks, fun reader hdone hdelivered => ?_⟩
    obtain ⟨chunks', hslice, hread⟩ := chunkReader_eq_chunkSlice hdone hroom
      (by rw [hdelivered]; exact hdata)
    rw [hdelivered, hchunks] at hslice
    rw [hread, Option.some.inj hslice]

/-- Sizes that are accepted, and with which no reader gives its chunks. -/
theorem largest_sizes_read_nothing : ∃ c, FastCDC.new 1 2 (2 ^ 63) = .ok c ∧
    c.chunkReader [.bytes [7]] = none ∧ ¬ ChunksExactly c [7] := by
  refine ⟨_, rfl, rfl, ?_⟩
  rintro ⟨chunks, -, -, hreaders⟩
  have hread := hreaders [.bytes [7]] rfl rfl
  cases hread

theorem chunks_exactly_iff_small : ∃ c, FastCDC.new 1 2 4 = .ok c ∧
    (ChunksExactly c [7, 7, 7] ↔ 4 + readBufferSize < 2 ^ 63) :=
  ⟨_, rfl, chunks_exactly_iff 1 2 4 _ rfl [7, 7, 7] (by decide)⟩

end LimniFS
