/-
The writer with readers of its own.

Two threads read the files that were put off, each its own half in order, and send the
bytes over one bounded channel; the writer takes the messages out and pairs the `i`th
with the `i`th file.  A file that cannot be read is left out, so the channel may close
before every file has its bytes, which fails the run.

Each file is then encoded as in `process_file`, in a copy that has drifted: no rules, no
switch for chunking, no tournament and no containers for chunks.

`FilesHold` is what the image has to hold: the drops that the slices of a file name give,
in order, the bytes the file has on disk.
-/
import LimniFS.Lib.SharedQueue
import LimniFS.DirectoryWriters

namespace LimniFS

open Lib

/-! ### One file -/

section

variable (z : Omnizip)

/-- ZSTD against Brotli; where Brotli failed there is nothing to compare. -/
def generalCandidateInline (data : Bytes) (t : CodecTunables) : UInt8 × Bytes :=
  let best := firstCandidate z data t
  if data.length < best.2.length * 20 ∧ best.1 = codecBrotli then
    match compressWithTunables z codecZstd data t with
    | .ok c => if c.length < best.2.length then (codecZstd, c) else best
    | .error _ => best
  else best

/-- The categorizer's codec with its own defaults, and without a baseline. -/
def wholeFileCandidateInline (data : Bytes) (catCodec : UInt8) (t : CodecTunables) :
    UInt8 × Bytes :=
  let best := generalCandidateInline z data t
  if data.length * 3 < best.2.length * 20 ∨ catCodec = codecRicepp then
    match compress z catCodec data with
    | .ok c => if c.length < best.2.length then (catCodec, c) else best
    | .error _ => best
  else best

def processWholeFileDropInline (H : Hash) (data : Bytes) (catCodec : UInt8) (t : CodecTunables)
    (seekableDrops : Bool) : ChunkedFileResult :=
  let dropId := H data
  let best := wholeFileCandidateInline z data catCodec t
  let stored := seekableOrMonolithic z best.1 data best.2 t seekableDrops seekableEmissionThreshold
  { drops := [⟨dropId, data, stored.1, best.1, stored.2⟩]
    slices := [⟨dropId, 0, data.length⟩] }

end

section

variable (env : WriterEnv) (o : ProcessOptions)

/-- A chunk under the codec of its class, if that shortens it. -/
def inlineOutcome (chunk : Bytes) : UInt8 × Bytes :=
  let preferredCodec :=
    match env.classify chunk with
    | .binary => o.binaryCodec
    | .text | .code | .sparse => o.textCodec
    | _ => codecStore
  if preferredCodec = codecStore then (codecStore, chunk)
  else
    match compressWithTunables env.z preferredCodec chunk o.tunables with
    | .ok c => if c.length < chunk.length then (preferredCodec, c) else (codecStore, chunk)
    | .error _ => (codecStore, chunk)

def inlineChunkDrop (chunk : Bytes) : RawDrop :=
  ⟨env.H chunk, chunk, (inlineOutcome env o chunk).2, (inlineOutcome env o chunk).1, 0⟩

/-- The built-in categorizers only. -/
def inlineClaim (path : Path) (data : Bytes) : Option UInt8 :=
  if o.useCategorizers then builtinClaim env o path data else none

/-- The bytes were read by someone else.  Of the options only the chunker, the codecs, the
tunables, the cap and the switches for categorizers and containers are read. -/
def processFileInline (pf : PendingFile) (data : Bytes) : Except WriteStop ChunkedFileResult :=
  match inlineClaim env o pf.path data with
  | some codecId =>
    .ok (processWholeFileDropInline env.z env.H data codecId o.tunables o.seekableDrops)
  | none =>
    match o.chunker.chunkSlice env.threads data with
    | none => .error .panicked
    | some chunks =>
      let scanned := scanChunks env.H chunks 0 []
      .ok { drops := scanned.2.map (inlineChunkDrop env o), slices := scanned.1 }

/-! ### The writer -/

def readThreads : Nat := 2
def channelCapacity : Nat := 16

/-- What the readers find: the bytes of a file, or nothing. -/
def pipelineItems (pending : List PendingFile) : List (Option Bytes) :=
  pending.map fun pf => (env.readFile pf.path).toOption

/-- The `i`th message is taken for the `i`th file. -/
def compressReceived : List PendingFile → List Bytes → Except WriteStop (List ChunkedFileResult)
  | [], _ => .ok []
  | _ :: _, [] =>
    .error (.failed (.io "pipeline: read channel closed before all files processed"))
  | pf :: pending, data :: received => do
    let result ← processFileInline env o pf data
    let results ← compressReceived pending received
    pure (result :: results)

end

section

variable (env : WriterEnv) (config : WriteConfig) (tree : SourceTree env.readFile)

/-- The settings of the configuration; its metadata codec is not among them. -/
def pipelineStart : WriterState := applyDefaults config (directoryStart config)

/-- The codec registry is not opened, as there is no tournament. -/
def pipelineOptions (chunker : ParallelFastCDC) : ProcessOptions :=
  processOptions config chunker [] none inlineThresholdDefault

def pipelined (pending : List PendingFile) (received : List Bytes) :
    Except WriteStop (List ChunkedFileResult) :=
  if pending.isEmpty then .ok []
  else do
    let chunker ← chunkerFromConfig config
    compressReceived env (pipelineOptions config chunker) pending received

/-- Up to `assemble`; `received` is what came out of the channel. -/
def writeDirectoryWithPipeline (received : List Bytes) : Except WriteStop WriterState := do
  let walked ← foldSurvey env tree.root none tree.survey (pipelineStart config)
  let results ← pipelined env config walked.2.pendingFiles received
  let s := { walked.2 with rootInodeNumber := walked.1, pendingFiles := [] }
  pure (trainAndApplyDictionary env config.dictionaries
    (mergeFiles env s (walked.2.pendingFiles.zip results)))

end

/-! ### What the image has to hold -/

/-- The drops that the slices name hold, in order, the bytes of the file. -/
def HoldsFile (raws : List RawDrop) (slices : List PendingSlice) (data : Bytes) : Prop :=
  ∃ chunks : List Bytes, chunks.flatten = data ∧
    List.Forall₂ (fun slice chunk => ∃ r ∈ raws, r.id = slice.dropId ∧ r.plaintext = chunk)
      slices chunks

/-- Every file that was put off is in the image as it is on disk. -/
def FilesHold (env : WriterEnv) (pending : List PendingFile) (results : List ChunkedFileResult) :
    Prop :=
  List.Forall₂ (fun pf r => ∃ data, env.readFile pf.path = .ok data ∧
    HoldsFile (results.flatMap (·.drops)) r.slices data) pending results

/-- What a file's bytes are hashed as: whole, or chunk by chunk. -/
def piecesOf (env : WriterEnv) (chunker : ParallelFastCDC) (data : Bytes) : List Bytes :=
  data :: (chunker.chunkSlice env.threads data).getD []

/-- A result made from `data`: slices of pieces of it, each with its drop. -/
structure MadeFrom (H : Hash) (pieces : List Bytes) (data : Bytes) (r : ChunkedFileResult) :
    Prop where
  slices : ∃ chunks : List Bytes, chunks.flatten = data ∧ (∀ c ∈ chunks, c ∈ pieces) ∧
    (∀ c ∈ chunks, ∃ d ∈ r.drops, d.id = H c) ∧ r.slices = slicesFrom H 0 chunks
  drops : ∀ d ∈ r.drops, d.id = H d.plaintext ∧ d.plaintext ∈ pieces

section

variable {env : WriterEnv} {o : ProcessOptions}

theorem scanChunks_mem {H : Hash} :
    ∀ (chunks : List Bytes) (offset : Nat) (seen : List Digest),
      ∀ u ∈ (scanChunks H chunks offset seen).2, u ∈ chunks := by
  intro chunks
  induction chunks with
  | nil => intro offset seen u hu; cases hu
  | cons chunk rest ih =>
      intro offset seen u hu
      unfold scanChunks at hu
      simp only at hu
      split at hu
      · exact List.mem_cons_of_mem _ (ih _ _ u hu)
      · rcases List.mem_cons.mp hu with rfl | hu
        · exact List.mem_cons_self
        · exact List.mem_cons_of_mem _ (ih _ _ u hu)

/-- **Whatever bytes a file is paired with, its result is made from them.** -/
theorem processFileInline_madeFrom {pf : PendingFile} {data : Bytes} {r : ChunkedFileResult}
    (h : processFileInline env o pf data = .ok r) :
    MadeFrom env.H (piecesOf env o.chunker data) data r := by
  unfold processFileInline at h
  split at h
  · cases h
    refine ⟨⟨[data], by simp, ?_, ?_, by simp [slicesFrom, processWholeFileDropInline]⟩, ?_⟩
    · intro c hc
      rw [List.mem_singleton.mp hc]
      exact List.mem_cons_self
    · intro c hc
      rw [List.mem_singleton.mp hc]
      exact ⟨_, List.mem_singleton.mpr rfl, rfl⟩
    · intro d hd
      rw [List.mem_singleton.mp hd]
      exact ⟨rfl, List.mem_cons_self⟩
  · split at h
    · cases h
    · next chunks hchunks =>
        cases h
        have hpieces : ∀ c ∈ chunks, c ∈ piecesOf env o.chunker data := by
          intro c hc
          unfold piecesOf
          rw [hchunks]
          exact List.mem_cons_of_mem _ hc
        rw [FastCDC.chunkSlice_scalar] at hchunks
        obtain ⟨hflat, -⟩ := o.chunker.scalar.chunkSlice_partition hchunks
        refine ⟨⟨chunks, hflat, hpieces, ?_, scanChunks_slices chunks 0 []⟩, ?_⟩
        · intro c hc
          rcases scanChunks_unique (H := env.H) chunks 0 [] c hc with hseen | ⟨u, hu, hid⟩
          · cases hseen
          · exact ⟨_, List.mem_map_of_mem hu, hid⟩
        · intro d hd
          obtain ⟨u, hu, rfl⟩ := List.mem_map.mp hd
          exact ⟨rfl, hpieces u (scanChunks_mem chunks 0 [] u hu)⟩

end

end LimniFS
