/-
Two copies of one decision.

`process_file_inline` is a copy of `process_file` for bytes that were read elsewhere, and
is meant to give the same drops and slices.  It leaves out the switch for chunking and
the rules of the configuration, gives every chunk to the codec of its class instead of
holding a tournament, never makes a container of a chunk, and calls a categorizer's codec
without the tunables and without a baseline.

`inline_encodes_alike` goes through what is left.  Where the switch is not taken and both
are claimed by the same codec, the two results are equal exactly if each chunk's
tournament is won by what the class's own codec gives and no container is made of it, or,
for a file stored whole, if the categorizer's codec fares alike both ways.  If every file
of a tree is encoded alike, and the metadata codec is Brotli and the metadata policy
changes nothing (neither is handed on), then with messages in order the image is that of
the default writer.
-/
import LimniFS.Pipeline
import LimniFS.WriteHistory

namespace LimniFS

open Lib

/-! ### Where the copies may part -/

section

variable (z : Omnizip)

/-- Is a drop stored as a container? -/
def emitsContainer (codec : UInt8) (plaintext : Bytes) (t : CodecTunables) (seekableDrops : Bool)
    (threshold : Nat) : Bool :=
  seekableDrops && decide (threshold < plaintext.length) && isSeekableCodec codec
    && (encodeSeekable z codec plaintext t).toOption.isSome

/-- Two candidates are stored alike: one codec, and a container both times or the same bytes. -/
def StoredAlike (best best' : UInt8 × Bytes) (container container' : Bool) : Prop :=
  best.1 = best'.1 ∧ container = container' ∧ (container = true ∨ best.2 = best'.2)

/-- What the categorizer's codec made, if it beats the best so far. -/
def winnerOf (best : Bytes) (result : Except CoreError Bytes) : Option Bytes :=
  match result with
  | .ok c => if c.length < best.length then some c else none
  | .error _ => none

def candidateOf (best : UInt8 × Bytes) (catCodec : UInt8) : Option Bytes → UInt8 × Bytes
  | some c => (catCodec, c)
  | none => best

end

section

variable (env : WriterEnv) (o : ProcessOptions)

/-- The default codec of a class of chunks. -/
def classCodec (cls : Class) : UInt8 :=
  match cls with
  | .binary => o.binaryCodec
  | .text | .code | .sparse => o.textCodec
  | _ => codecStore

/-- Is a tournament held for the chunk? -/
def Raced (chunk : Bytes) : Prop :=
  classCodec o (env.classify chunk) ≠ codecStore ∧
    ¬ (env.classify chunk = .binary ∧ o.tournament.skipForBinary = true) ∧
    o.tournament.minSize ≤ chunk.length

/-- If a tournament is held, the codec of the class wins it. -/
def ClassCodecWins (chunk : Bytes) : Prop :=
  Raced env o chunk →
    (tournamentLoop env.z chunk o.tunables o.tournament.shortCircuitPermille
        o.tournament.codecIds none).getD (codecStore, chunk)
      = compressChunkOne env.z chunk (classCodec o (env.classify chunk)) o.tunables

/-- The codec of the class wins, and no container is made of the chunk. -/
def ChunkAlike (chunk : Bytes) : Prop :=
  ClassCodecWins env o chunk ∧
    emitsContainer env.z
      (compressChunkOne env.z chunk (classCodec o (env.classify chunk)) o.tunables).1 chunk
      o.tunables o.seekableDrops seekableChunkEmissionThreshold = false

/-- With the tunables and the baseline the categorizer's codec fares as without. -/
def SpecialAlike (data : Bytes) (catCodec : UInt8) : Prop :=
  triesSpecialised env.z data catCodec o.tunables →
    let best := generalCandidate env.z data o.tunables
    let stored := candidateOf best catCodec
      (winnerOf best.2 (specialisedResult env.z data catCodec o.tunables best.2))
    let stored' := candidateOf best catCodec (winnerOf best.2 (compress env.z catCodec data))
    stored.1 = stored'.1 ∧ (stored.2 = stored'.2 ∨ emitsContainer env.z stored.1 data o.tunables
      o.seekableDrops seekableEmissionThreshold = true)

/-- Chunking switched off: the default codec of the class, for a whole file. -/
def unchunkedCandidate (data : Bytes) : UInt8 × Bytes :=
  let preferredCodec := if env.classify data = .binary then o.binaryCodec else o.textCodec
  match compressWithTunables env.z preferredCodec data o.tunables with
  | .ok c => if c.length < data.length then (preferredCodec, c) else (codecStore, data)
  | .error _ => (codecStore, data)

/-- The default writer keeps the file whole, as `best`.  The pipeline has to keep it whole too,
because a categorizer claims it or because it is one chunk, and to store it alike. -/
def WholeAlike (path : Path) (data : Bytes) (best : UInt8 × Bytes) (threshold : Nat) : Prop :=
  let container := emitsContainer env.z best.1 data o.tunables o.seekableDrops threshold
  match inlineClaim env o path data with
  | some catCodec =>
    let best' := wholeFileCandidateInline env.z data catCodec o.tunables
    StoredAlike best best' container
      (emitsContainer env.z best'.1 data o.tunables o.seekableDrops seekableEmissionThreshold)
  | none => o.chunker.chunkSlice env.threads data = some [data] ∧
      StoredAlike best (inlineOutcome env o data) container false

/-- The chunks that are compressed. -/
def uniqueChunks (data : Bytes) : List Bytes :=
  (scanChunks env.H ((o.chunker.chunkSlice env.threads data).getD []) 0 []).2

/-- **The condition.**  A file the switch or a rule keeps whole has to be stored whole and alike
by the pipeline.  For one that a categorizer claims its codec has to fare alike both ways, and
for one that is cut the class's codec has to win every chunk. -/
def EncodedAlike (path : Path) (data : Bytes) : Prop :=
  if o.skipChunking = true ∧ o.inlineThreshold < data.length then
    WholeAlike env o path data (unchunkedCandidate env o data) seekableChunkEmissionThreshold
  else
    match categorizerClaim env o path data with
    | some catCodec =>
      if inlineClaim env o path data = some catCodec then SpecialAlike env o data catCodec
      else WholeAlike env o path data (wholeFileCandidate env.z data catCodec o.tunables)
        seekableEmissionThreshold
    | none => ∀ chunk ∈ uniqueChunks env o data, ChunkAlike env o chunk

end

/-! ### Storing -/

section

variable {z : Omnizip}

/-- A container takes the place of the bytes. -/
theorem seekableOrMonolithic_eq (codec : UInt8) (data : Bytes) (t : CodecTunables)
    (seekableDrops : Bool) (threshold : Nat) :
    (emitsContainer z codec data t seekableDrops threshold = true ∧
      ∃ container, encodeSeekable z codec data t = .ok container ∧
        ∀ c, seekableOrMonolithic z codec data c t seekableDrops threshold
          = (container, dropFlagSeekable)) ∨
    (emitsContainer z codec data t seekableDrops threshold = false ∧
      ∀ c, seekableOrMonolithic z codec data c t seekableDrops threshold = (c, 0)) := by
  unfold emitsContainer seekableOrMonolithic
  by_cases hemit : seekableDrops = true ∧ threshold < data.length ∧ isSeekableCodec codec = true
  · obtain ⟨hdrops, hlong, hcodec⟩ := hemit
    cases hencode : encodeSeekable z codec data t with
    | ok container =>
        left
        refine ⟨by simp [hdrops, hlong, hcodec, Except.toOption], container, rfl, ?_⟩
        intro c
        rw [if_pos ⟨hdrops, hlong, hcodec⟩]
    | error e =>
        right
        refine ⟨by simp [Except.toOption], ?_⟩
        intro c
        rw [if_pos ⟨hdrops, hlong, hcodec⟩]
  · right
    refine ⟨?_, fun c => if_neg hemit⟩
    rw [Bool.and_eq_false_iff]
    left
    rw [← Bool.not_eq_true, Bool.and_eq_true, Bool.and_eq_true, decide_eq_true_eq, and_assoc]
    exact hemit

/-- **Two drops of the same bytes are equal exactly if they are stored alike.** -/
theorem drop_eq_iff (id : Digest) (data : Bytes) (t : CodecTunables) (best best' : UInt8 × Bytes)
    (seekableDrops seekableDrops' : Bool) (threshold threshold' : Nat) :
    (⟨id, data, (seekableOrMonolithic z best.1 data best.2 t seekableDrops threshold).1, best.1,
        (seekableOrMonolithic z best.1 data best.2 t seekableDrops threshold).2⟩ : RawDrop)
      = ⟨id, data, (seekableOrMonolithic z best'.1 data best'.2 t seekableDrops' threshold').1,
        best'.1, (seekableOrMonolithic z best'.1 data best'.2 t seekableDrops' threshold').2⟩ ↔
    StoredAlike best best' (emitsContainer z best.1 data t seekableDrops threshold)
      (emitsContainer z best'.1 data t seekableDrops' threshold') := by
  obtain ⟨codec, bytes⟩ := best
  obtain ⟨codec', bytes'⟩ := best'
  have hflag : dropFlagSeekable ≠ 0 := by decide
  unfold StoredAlike
  simp only [RawDrop.mk.injEq, true_and]
  rcases seekableOrMonolithic_eq (z := z) codec data t seekableDrops threshold with
    ⟨hemit, container, hcontainer, hstored⟩ | ⟨hemit, hstored⟩ <;>
  rcases seekableOrMonolithic_eq (z := z) codec' data t seekableDrops' threshold' with
    ⟨hemit', container', hcontainer', hstored'⟩ | ⟨hemit', hstored'⟩ <;>
  rw [hemit, hemit', hstored, hstored']
  · refine ⟨fun h => ⟨h.2.1, rfl, .inl rfl⟩, ?_⟩
    rintro ⟨rfl, -, -⟩
    rw [hcontainer] at hcontainer'
    exact ⟨Except.ok.inj hcontainer', rfl, rfl⟩
  · exact ⟨fun h => absurd h.2.2 hflag, fun h => nomatch h.2.1⟩
  · exact ⟨fun h => absurd h.2.2.symm hflag, fun h => nomatch h.2.1⟩
  · refine ⟨fun h => ⟨h.2.1, rfl, .inr h.1⟩, ?_⟩
    rintro ⟨hcodec, -, h | h⟩
    · cases h
    · exact ⟨h, hcodec, rfl⟩

theorem generalCandidateInline_eq (data : Bytes) (t : CodecTunables) :
    generalCandidateInline z data t = generalCandidate z data t := by
  unfold generalCandidateInline generalCandidate firstCandidate
  cases hbrotli : compressWithTunables z codecBrotli data t with
  | ok c =>
      cases hzstd : compressWithTunables z codecZstd data t with
      | ok c' => simp
      | error e' => simp
  | error e =>
      cases hzstd : compressWithTunables z codecZstd data t with
      | ok c =>
          have hne : ¬ codecZstd = codecBrotli := by decide
          simp [hne]
      | error e' => simp

theorem wholeFileCandidate_eq (data : Bytes) (catCodec : UInt8) (t : CodecTunables) :
    wholeFileCandidate z data catCodec t
      = if triesSpecialised z data catCodec t then
          candidateOf (generalCandidate z data t) catCodec
            (winnerOf (generalCandidate z data t).2
              (specialisedResult z data catCodec t (generalCandidate z data t).2))
        else generalCandidate z data t := by
  unfold wholeFileCandidate winnerOf
  simp only
  by_cases htries : triesSpecialised z data catCodec t
  · rw [if_pos htries, if_pos htries]
    cases specialisedResult z data catCodec t (generalCandidate z data t).2 with
    | error e => rfl
    | ok c =>
        simp only
        split <;> rfl
  · rw [if_neg htries, if_neg htries]

theorem wholeFileCandidateInline_eq (data : Bytes) (catCodec : UInt8) (t : CodecTunables) :
    wholeFileCandidateInline z data catCodec t
      = if triesSpecialised z data catCodec t then
          candidateOf (generalCandidate z data t) catCodec
            (winnerOf (generalCandidate z data t).2 (compress z catCodec data))
        else generalCandidate z data t := by
  unfold wholeFileCandidateInline winnerOf
  rw [generalCandidateInline_eq]
  simp only
  by_cases htries : triesSpecialised z data catCodec t
  · have hcond : data.length * 3 < (generalCandidate z data t).2.length * 20 ∨
        catCodec = codecRicepp := htries
    rw [if_pos htries, if_pos hcond]
    cases compress z catCodec data with
    | error e => rfl
    | ok c =>
        simp only
        split <;> rfl
  · have hcond : ¬ (data.length * 3 < (generalCandidate z data t).2.length * 20 ∨
        catCodec = codecRicepp) := htries
    rw [if_neg htries, if_neg hcond]

end

/-! ### One chunk -/

section

variable {env : WriterEnv} {o : ProcessOptions}

theorem inlineOutcome_eq (chunk : Bytes) :
    inlineOutcome env o chunk
      = compressChunkOne env.z chunk (classCodec o (env.classify chunk)) o.tunables := by
  unfold inlineOutcome classCodec compressChunkOne
  rfl

theorem outcome_eq_iff (chunk : Bytes) :
    outcome env o chunk = inlineOutcome env o chunk ↔ ClassCodecWins env o chunk := by
  have hpreferred : outcome env o chunk
      = if classCodec o (env.classify chunk) = codecStore then (codecStore, chunk)
        else if env.classify chunk = .binary ∧ o.tournament.skipForBinary = true then
          compressChunkOne env.z chunk (classCodec o (env.classify chunk)) o.tunables
        else if chunk.length < o.tournament.minSize then
          compressChunkOne env.z chunk (classCodec o (env.classify chunk)) o.tunables
        else (tournamentLoop env.z chunk o.tunables o.tournament.shortCircuitPermille
          o.tournament.codecIds none).getD (codecStore, chunk) := rfl
  rw [inlineOutcome_eq, hpreferred]
  unfold ClassCodecWins Raced
  by_cases hstore : classCodec o (env.classify chunk) = codecStore
  · rw [if_pos hstore, hstore]
    refine ⟨fun _ hraced => absurd rfl hraced.1, fun _ => ?_⟩
    unfold compressChunkOne
    rw [if_pos rfl]
  · rw [if_neg hstore]
    by_cases hbinary : env.classify chunk = .binary ∧ o.tournament.skipForBinary = true
    · rw [if_pos hbinary]
      exact ⟨fun _ hraced => absurd hbinary hraced.2.1, fun _ => rfl⟩
    · rw [if_neg hbinary]
      by_cases hsmall : chunk.length < o.tournament.minSize
      · rw [if_pos hsmall]
        exact ⟨fun _ hraced => absurd hsmall (Nat.not_lt.mpr hraced.2.2), fun _ => rfl⟩
      · rw [if_neg hsmall]
        exact ⟨fun h _ => h, fun h => h ⟨hstore, hbinary, Nat.not_lt.mp hsmall⟩⟩

/-- Without a base and with an empty cache. -/
theorem chunkDrop_empty (hbase : o.baseDropIndex = none) (chunk : Bytes) :
    (chunkDrop env o .empty chunk).1
      = ⟨env.H chunk, chunk, (seekableOrMonolithic env.z (outcome env o chunk).1 chunk
          (outcome env o chunk).2 o.tunables o.seekableDrops seekableChunkEmissionThreshold).1,
        (outcome env o chunk).1, (seekableOrMonolithic env.z (outcome env o chunk).1 chunk
          (outcome env o chunk).2 o.tunables o.seekableDrops seekableChunkEmissionThreshold).2⟩ := by
  unfold chunkDrop
  rw [hbase]
  rfl

theorem inlineChunkDrop_eq (chunk : Bytes) :
    inlineChunkDrop env o chunk
      = ⟨env.H chunk, chunk, (seekableOrMonolithic env.z (inlineOutcome env o chunk).1 chunk
          (inlineOutcome env o chunk).2 o.tunables false 0).1, (inlineOutcome env o chunk).1,
        (seekableOrMonolithic env.z (inlineOutcome env o chunk).1 chunk
          (inlineOutcome env o chunk).2 o.tunables false 0).2⟩ := by
  unfold seekableOrMonolithic
  simp only [Bool.false_eq_true, false_and, if_false]
  rfl

theorem emitsContainer_off (codec : UInt8) (data : Bytes) :
    emitsContainer env.z codec data o.tunables false 0 = false := by
  unfold emitsContainer
  rfl

theorem chunkDrop_eq_iff (hbase : o.baseDropIndex = none) (chunk : Bytes) :
    inlineChunkDrop env o chunk = (chunkDrop env o .empty chunk).1 ↔ ChunkAlike env o chunk := by
  rw [eq_comm, chunkDrop_empty hbase, inlineChunkDrop_eq, drop_eq_iff, emitsContainer_off]
  unfold StoredAlike ChunkAlike
  rw [← outcome_eq_iff, ← inlineOutcome_eq]
  constructor
  · rintro ⟨hcodec, hcontainer, hbytes⟩
    rw [hcontainer] at hbytes
    have hsame : outcome env o chunk = inlineOutcome env o chunk :=
      Prod.ext hcodec (hbytes.resolve_left nofun)
    exact ⟨hsame, hsame ▸ hcontainer⟩
  · rintro ⟨hsame, hcontainer⟩
    exact ⟨congrArg Prod.fst hsame, hsame ▸ hcontainer, .inr (congrArg Prod.snd hsame)⟩

/-! ### One file -/

/-- A file stored as one drop. -/
def wholeResult (H : Hash) (z : Omnizip) (data : Bytes) (best : UInt8 × Bytes) (t : CodecTunables)
    (seekableDrops : Bool) (threshold : Nat) : ChunkedFileResult :=
  { drops := [⟨H data, data,
      (seekableOrMonolithic z best.1 data best.2 t seekableDrops threshold).1, best.1,
      (seekableOrMonolithic z best.1 data best.2 t seekableDrops threshold).2⟩]
    slices := [⟨H data, 0, data.length⟩] }

theorem wholeResult_eq_iff {H : Hash} {z : Omnizip} {data : Bytes} {best best' : UInt8 × Bytes}
    {t : CodecTunables} {seekableDrops : Bool} {threshold threshold' : Nat} :
    wholeResult H z data best' t seekableDrops threshold'
        = wholeResult H z data best t seekableDrops threshold ↔
      StoredAlike best best' (emitsContainer z best.1 data t seekableDrops threshold)
        (emitsContainer z best'.1 data t seekableDrops threshold') := by
  rw [← drop_eq_iff (H data), eq_comm]
  unfold wholeResult
  simp only [ChunkedFileResult.mk.injEq, List.cons.injEq, and_true]

theorem processFileInline_claimed {pf : PendingFile} {data : Bytes} {catCodec : UInt8}
    (hclaim : inlineClaim env o pf.path data = some catCodec) :
    processFileInline env o pf data
      = .ok (wholeResult env.H env.z data (wholeFileCandidateInline env.z data catCodec o.tunables)
          o.tunables o.seekableDrops seekableEmissionThreshold) := by
  unfold processFileInline
  rw [hclaim]
  rfl

theorem processFileInline_cut {pf : PendingFile} {data : Bytes} {chunks : List Bytes}
    (hclaim : inlineClaim env o pf.path data = none)
    (hchunks : o.chunker.chunkSlice env.threads data = some chunks) :
    processFileInline env o pf data
      = .ok ⟨(scanChunks env.H chunks 0 []).2.map (inlineChunkDrop env o),
          slicesFrom env.H 0 chunks⟩ := by
  unfold processFileInline
  rw [hclaim, hchunks, ← scanChunks_slices chunks 0 []]

theorem chunks_of_slices {H : Hash} {chunks : List Bytes} {data : Bytes}
    (hflat : chunks.flatten = data) (h : slicesFrom H 0 chunks = [⟨H data, 0, data.length⟩]) :
    chunks = [data] := by
  cases chunks with
  | nil => cases h
  | cons chunk rest =>
      unfold slicesFrom at h
      cases rest with
      | nil =>
          rw [List.flatten_singleton] at hflat
          rw [hflat]
      | cons next more =>
          unfold slicesFrom at h
          cases (List.cons.inj h).2

/-- **Against a file kept whole**: the pipeline keeps it whole too and stores it alike. -/
theorem processFileInline_whole_iff (pf : PendingFile) (data : Bytes) (best : UInt8 × Bytes)
    (threshold : Nat) :
    processFileInline env o pf data
        = .ok (wholeResult env.H env.z data best o.tunables o.seekableDrops threshold) ↔
      WholeAlike env o pf.path data best threshold := by
  unfold WholeAlike
  cases hclaim : inlineClaim env o pf.path data with
  | some catCodec =>
      rw [processFileInline_claimed hclaim, Except.ok.injEq, wholeResult_eq_iff]
  | none =>
      cases hchunks : o.chunker.chunkSlice env.threads data with
      | none =>
          unfold processFileInline
          rw [hclaim, hchunks]
          exact ⟨nofun, fun h => nomatch h.1⟩
      | some chunks =>
          have hscalar := hchunks
          rw [FastCDC.chunkSlice_scalar] at hscalar
          obtain ⟨hflat, -⟩ := o.chunker.scalar.chunkSlice_partition hscalar
          have hone : (scanChunks env.H [data] 0 []).2 = [data] := by
            unfold scanChunks
            simp [scanChunks]
          have hdrop := drop_eq_iff (z := env.z) (env.H data) data o.tunables best
            (inlineOutcome env o data) o.seekableDrops false threshold 0
          rw [emitsContainer_off, ← inlineChunkDrop_eq] at hdrop
          simp only
          rw [processFileInline_cut hclaim hchunks, ← hdrop, Except.ok.injEq]
          unfold wholeResult
          constructor
          · intro h
            rw [ChunkedFileResult.mk.injEq] at h
            have hsingle := chunks_of_slices hflat h.2
            rw [hsingle, hone] at h
            exact ⟨congrArg some hsingle, (List.cons.inj h.1).1.symm⟩
          · rintro ⟨hsingle, hsame⟩
            rw [Option.some.inj hsingle, hone, hsame]
            unfold slicesFrom slicesFrom
            simp

theorem processUnchunked_eq (data : Bytes) :
    processUnchunked env o data
      = wholeResult env.H env.z data (unchunkedCandidate env o data) o.tunables o.seekableDrops
          seekableChunkEmissionThreshold := rfl

theorem processWholeFileDrop_eq (data : Bytes) (catCodec : UInt8) :
    processWholeFileDrop env.z env.H data catCodec o.tunables o.seekableDrops
      = wholeResult env.H env.z data (wholeFileCandidate env.z data catCodec o.tunables) o.tunables
          o.seekableDrops seekableEmissionThreshold := rfl

/-- Claimed by one codec both times. -/
theorem wholeAlike_special {path : Path} {data : Bytes} {catCodec : UInt8}
    (hclaim : inlineClaim env o path data = some catCodec) :
    WholeAlike env o path data (wholeFileCandidate env.z data catCodec o.tunables)
      seekableEmissionThreshold ↔ SpecialAlike env o data catCodec := by
  unfold WholeAlike SpecialAlike StoredAlike
  rw [hclaim]
  simp only [wholeFileCandidate_eq, wholeFileCandidateInline_eq]
  by_cases htries : triesSpecialised env.z data catCodec o.tunables
  · simp only [if_pos htries]
    constructor
    · rintro ⟨hcodec, -, hbytes⟩ -
      exact ⟨hcodec, hbytes.symm⟩
    · intro h
      obtain ⟨hcodec, hbytes⟩ := h htries
      exact ⟨hcodec, by rw [hcodec], hbytes.symm⟩
  · simp only [if_neg htries]
    simp [htries]

theorem inlineClaim_of_none {path : Path} {data : Bytes}
    (h : categorizerClaim env o path data = none) : inlineClaim env o path data = none := by
  unfold categorizerClaim at h
  unfold inlineClaim
  by_cases huse : o.useCategorizers = true
  · rw [if_pos huse] at h ⊢
    exact (Option.or_eq_none_iff.mp h).2
  · rw [if_neg huse]

/-- Chunk by chunk. -/
theorem processFileInline_chunks_iff (hbase : o.baseDropIndex = none) {pf : PendingFile}
    {data : Bytes} {chunks : List Bytes} (hclaim : inlineClaim env o pf.path data = none)
    (hchunks : o.chunker.chunkSlice env.threads data = some chunks) :
    processFileInline env o pf data = .ok (processChunks env o (fun _ => .empty) chunks) ↔
      ∀ chunk ∈ uniqueChunks env o data, ChunkAlike env o chunk := by
  have hdrops : chunkDrops env o (fun _ => .empty) (scanChunks env.H chunks 0 []).2
      = (scanChunks env.H chunks 0 []).2.map fun chunk => (chunkDrop env o .empty chunk).1 := by
    unfold chunkDrops
    exact List.ext_getElem (by simp) fun i _ _ => by simp
  unfold uniqueChunks
  rw [processFileInline_cut hclaim hchunks, hchunks, Except.ok.injEq]
  unfold processChunks
  simp only [Option.getD_some, ChunkedFileResult.mk.injEq, hdrops, List.map_inj_left,
    chunkDrop_eq_iff hbase, scanChunks_slices, and_true]

/-- **Both copies make the same of a file exactly if it is encoded alike.** -/
theorem processFileInline_eq_iff (hbase : o.baseDropIndex = none) {pf : PendingFile} {data : Bytes}
    (hread : env.readFile pf.path = .ok data) :
    processFileInline env o pf data = processFile env o (fun _ => .empty) pf ↔
      EncodedAlike env o pf.path data := by
  unfold processFile EncodedAlike
  rw [hread]
  simp only
  by_cases hgate : o.skipChunking = true ∧ o.inlineThreshold < data.length
  · rw [if_pos hgate, if_pos hgate, processUnchunked_eq, processFileInline_whole_iff]
  · rw [if_neg hgate, if_neg hgate]
    cases hclaim : categorizerClaim env o pf.path data with
    | some catCodec =>
        simp only
        rw [processWholeFileDrop_eq, processFileInline_whole_iff]
        by_cases hsame : inlineClaim env o pf.path data = some catCodec
        · rw [if_pos hsame, wholeAlike_special hsame]
        · rw [if_neg hsame]
    | none =>
        have hnone := inlineClaim_of_none hclaim
        cases hchunks : o.chunker.chunkSlice env.threads data with
        | some chunks => exact processFileInline_chunks_iff hbase hnone hchunks
        | none =>
            unfold processFileInline uniqueChunks
            rw [hnone, hchunks]
            simp [scanChunks]

end

end LimniFS
