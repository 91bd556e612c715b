/-
One file, from its bytes to drops and slices.

There are three ways.  With chunking switched off a file becomes one drop under the
default codec of its class.  A file that a rule or a built-in categorizer claims becomes
one drop under the shortest of several codecs.  Every other file is cut into chunks;
each different chunk becomes a drop, and one the base image already has becomes a mark
in its place that stores nothing.

`processFile_covers` is what the rest of the writer relies on, whichever way was taken:
the slices cover the file with the chunks of one partition of it, every slice has its
drop, and a drop is either a mark for something the base has or named by the hash of
what it holds.
-/
import LimniFS.WriteConfig

namespace LimniFS

open Lib

/-- A file the walk leaves to the workers. -/
structure PendingFile where
  inodeNumber : Nat
  path : Path
  mtimeNs : Nat
  fileLen : Nat
  mode : Nat
  uid : Nat
  gid : Nat

/-- What the writer is run in.  The tree does not change during a run, so reading a file is a
function of its path; a failed read gives the system's error.  `threads` is the width of the pool. -/
structure WriterEnv where
  H : Hash
  z : Omnizip
  classify : Bytes → Class
  builtinCategorize : Path → Bytes → Option UInt8
  trainDictionary : UInt8 → List Bytes → Nat → String → Option Bytes
  readFile : Path → Except String Bytes
  threads : Nat

/-- The arguments of `process_file` that are the same for every file of a run. -/
structure ProcessOptions where
  chunker : ParallelFastCDC
  textCodec : UInt8
  binaryCodec : UInt8
  tunables : CodecTunables
  useCategorizers : Bool
  skipChunking : Bool
  tournament : TournamentSpec
  baseDropIndex : Option (Digest → Bool)
  inlineThreshold : Nat
  maxDropSize : Nat
  seekableDrops : Bool
  categorizerConfig : List CategorizerConfig
  codecNameResolver : String → Option UInt8

/-- `base.base_contains(id)`, where there is a base. -/
def baseContains (base : Option (Digest → Bool)) (id : Digest) : Bool :=
  match base with
  | some contains => contains id
  | none => false

/-! ### The cache of a worker -/

def compressCacheMaxEntries : Nat := 100000

/-- What a worker compressed before, by the id of the chunk.  The cache outlives a write, so an
entry may have been made under another configuration. -/
structure CompressCache (H : Hash) (z : Omnizip) where
  entries : List (Digest × UInt8 × Bytes)
  earned : ∀ e ∈ entries, ∃ chunk cls textCodec binaryCodec t tournament,
    e = (H chunk, compressChunkWithTournament z chunk cls textCodec binaryCodec t tournament)
  bounded : entries.length ≤ compressCacheMaxEntries

namespace CompressCache

variable {H : Hash} {z : Omnizip}

def empty : CompressCache H z := ⟨[], nofun, by decide⟩

def lookup (cache : CompressCache H z) (id : Digest) : Option (UInt8 × Bytes) :=
  (cache.entries.find? fun e => e.1 = id).map (·.2)

/-- Keep the outcome of a tournament, if there is room. -/
def remember (cache : CompressCache H z) (chunk : Bytes) (cls : Class)
    (textCodec binaryCodec : UInt8) (t : CodecTunables) (tournament : TournamentSpec) :
    CompressCache H z :=
  if hroom : cache.entries.length < compressCacheMaxEntries then
    { entries := (H chunk, compressChunkWithTournament z chunk cls textCodec binaryCodec t
        tournament) :: cache.entries
      earned := by
        intro e he
        rcases List.mem_cons.mp he with rfl | he
        · exact ⟨chunk, cls, textCodec, binaryCodec, t, tournament, rfl⟩
        · exact cache.earned e he
      bounded := by rw [List.length_cons]; omega }
  else cache

end CompressCache

section

variable (env : WriterEnv) (o : ProcessOptions)

/-! ### Chunk by chunk -/

/-- The slices of the chunks from `offset` on, and those of the chunks not seen before. -/
def scanChunks (H : Hash) : List Bytes → Nat → List Digest → List PendingSlice × List Bytes
  | [], _, _ => ([], [])
  | chunk :: rest, offset, seenInFile =>
    let dropId := H chunk
    let slice : PendingSlice := ⟨dropId, offset, offset + chunk.length⟩
    if dropId ∈ seenInFile then
      let later := scanChunks H rest (offset + chunk.length) seenInFile
      (slice :: later.1, later.2)
    else
      let later := scanChunks H rest (offset + chunk.length) (dropId :: seenInFile)
      (slice :: later.1, chunk :: later.2)

/-- From the worker's cache, or by a tournament that goes into it. -/
def compressCached (cache : CompressCache env.H env.z) (chunk : Bytes) :
    (UInt8 × Bytes) × CompressCache env.H env.z :=
  let cls := env.classify chunk
  match cache.lookup (env.H chunk) with
  | some hit => (hit, cache)
  | none =>
    (compressChunkWithTournament env.z chunk cls o.textCodec o.binaryCodec o.tunables o.tournament,
      cache.remember chunk cls o.textCodec o.binaryCodec o.tunables o.tournament)

/-- A chunk the base has is only marked; every other one is compressed. -/
def chunkDrop (cache : CompressCache env.H env.z) (chunk : Bytes) :
    RawDrop × CompressCache env.H env.z :=
  let dropId := env.H chunk
  if baseContains o.baseDropIndex dropId then (⟨dropId, [], [], codecReferenced, 0⟩, cache)
  else
    let compressed := compressCached env o cache chunk
    let stored := seekableOrMonolithic env.z compressed.1.1 chunk compressed.1.2 o.tunables
      o.seekableDrops seekableChunkEmissionThreshold
    (⟨dropId, chunk, stored.1, compressed.1.1, stored.2⟩, compressed.2)

/-- The drops of the unique chunks.  Which worker takes a chunk, and so which cache it is looked
up in, is up to the scheduler: `caches i` is what the worker of the `i`th chunk holds. -/
def chunkDrops (caches : Nat → CompressCache env.H env.z) (unique : List Bytes) : List RawDrop :=
  unique.mapIdx fun i chunk => (chunkDrop env o (caches i) chunk).1

def processChunks (caches : Nat → CompressCache env.H env.z) (chunks : List Bytes) :
    ChunkedFileResult :=
  let scanned := scanChunks env.H chunks 0 []
  { drops := chunkDrops env o caches scanned.2, slices := scanned.1 }

/-! ### The file as one drop -/

/-- Chunking switched off: the default codec of the class, if it shortens the file. -/
def processUnchunked (data : Bytes) : ChunkedFileResult :=
  let dropId := env.H data
  let preferredCodec := if env.classify data = .binary then o.binaryCodec else o.textCodec
  let best :=
    match compressWithTunables env.z preferredCodec data o.tunables with
    | .ok c => if c.length < data.length then (preferredCodec, c) else (codecStore, data)
    | .error _ => (codecStore, data)
  let stored := seekableOrMonolithic env.z best.1 data best.2 o.tunables o.seekableDrops
    seekableChunkEmissionThreshold
  { drops := [⟨dropId, data, stored.1, best.1, stored.2⟩]
    slices := [⟨dropId, 0, data.length⟩] }

/-- May a claimed file be stored whole?  FLAC and Rice++ need it whole at any size. -/
def wholeFileAllowed (codecId : UInt8) (fileLen : Nat) : Bool :=
  (o.maxDropSize == 0 || fileLen ≤ o.maxDropSize)
    && (codecId == codecFlac || codecId == codecRicepp || fileLen ≤ wholeFileMaxSize)

/-- The codec of the rule that claims the file, if the file may be stored whole under it. -/
def configClaim (path : Path) (data : Bytes) : Option UInt8 := do
  let cat ← configCategorize o.categorizerConfig path data
  let codecId ← resolveConfigCategorization cat o.categorizerConfig o.codecNameResolver
  if wholeFileAllowed o codecId data.length then some codecId else none

/-- The codec of the built-in categorizer that claims the file, under the same condition. -/
def builtinClaim (path : Path) (data : Bytes) : Option UInt8 := do
  let codecId ← env.builtinCategorize path data
  if wholeFileAllowed o codecId data.length then some codecId else none

/-- The rules of the configuration come first. -/
def categorizerClaim (path : Path) (data : Bytes) : Option UInt8 :=
  if o.useCategorizers then
    (configClaim o path data).or (builtinClaim env o path data)
  else none

def processFile (caches : Nat → CompressCache env.H env.z) (pf : PendingFile) :
    Except WriteStop ChunkedFileResult :=
  match env.readFile pf.path with
  | .error e => .error (.failed (.io e))
  | .ok data =>
    if o.skipChunking = true ∧ o.inlineThreshold < data.length then
      .ok (processUnchunked env o data)
    else
      match categorizerClaim env o pf.path data with
      | some codecId =>
        .ok (processWholeFileDrop env.z env.H data codecId o.tunables o.seekableDrops)
      | none =>
        match o.chunker.chunkSlice env.threads data with
        | none => .error .panicked
        | some chunks => .ok (processChunks env o caches chunks)

end

/-! ### The mark of a base drop is no codec -/

section

variable {z : Omnizip}

theorem ne_referenced_of_compress {id : UInt8} {x c : Bytes} {t : CodecTunables}
    (h : compressWithTunables z id x t = .ok c) : id ≠ codecReferenced := by
  rintro rfl
  have hnone : findCodec z codecReferenced = none := rfl
  unfold compressWithTunables at h
  rw [hnone] at h
  cases h

theorem store_ne_referenced : codecStore ≠ codecReferenced := by decide

/-- What is emitted of a chunk: the chunk, or what a codec made of it. -/
def Emits (z : Omnizip) (chunk : Bytes) (best : UInt8 × Bytes) : Prop :=
  best = (codecStore, chunk) ∨ ∃ t, compressWithTunables z best.1 chunk t = .ok best.2

theorem Emits.codec {chunk : Bytes} {best : UInt8 × Bytes} (h : Emits z chunk best) :
    best.1 ≠ codecReferenced := by
  rcases h with rfl | ⟨t, ht⟩
  · exact store_ne_referenced
  · exact ne_referenced_of_compress ht

theorem compressChunkOne_emits (chunk : Bytes) (codecId : UInt8) (t : CodecTunables) :
    Emits z chunk (compressChunkOne z chunk codecId t) := by
  unfold compressChunkOne
  split
  · exact Or.inl rfl
  · split
    · next c hc =>
        split
        · exact Or.inr ⟨t, hc⟩
        · exact Or.inl rfl
    · exact Or.inl rfl

theorem tournamentLoop_emits (chunk : Bytes) (t : CodecTunables) (permille : Nat) :
    ∀ (codecIds : List UInt8) (best : Option (UInt8 × Bytes)), (∀ b ∈ best, Emits z chunk b) →
      ∀ b ∈ tournamentLoop z chunk t permille codecIds best, Emits z chunk b := by
  intro codecIds
  induction codecIds with
  | nil => intro best hbest; exact hbest
  | cons codecId rest ih =>
      intro best hbest
      unfold tournamentLoop
      split
      · exact ih best hbest
      · split
        · exact ih best hbest
        · next c hc =>
            split
            · exact ih best hbest
            · -- the new best is the old one or this codec, which compressed something
              extract_lets ratioPermille best'
              have hnew : ∀ b ∈ best', Emits z chunk b := by
                intro b hb
                simp only [best'] at hb
                split at hb
                · cases hb
                  exact Or.inr ⟨t, hc⟩
                · split at hb
                  · cases hb
                    exact Or.inr ⟨t, hc⟩
                  · exact hbest b hb
              split
              · exact hnew
              · exact ih _ hnew

/-- **The race**: whoever wins, the chunk is stored or was compressed by the winner. -/
theorem compressChunkWithTournament_emits (chunk : Bytes) (cls : Class)
    (textCodec binaryCodec : UInt8) (t : CodecTunables) (tournament : TournamentSpec) :
    Emits z chunk (compressChunkWithTournament z chunk cls textCodec binaryCodec t tournament) := by
  unfold compressChunkWithTournament
  extract_lets preferred
  split
  · exact Or.inl rfl
  · split
    · exact compressChunkOne_emits chunk _ t
    · split
      · exact compressChunkOne_emits chunk _ t
      · have hloop := tournamentLoop_emits (z := z) chunk t tournament.shortCircuitPermille
          tournament.codecIds none nofun
        cases hwin : tournamentLoop z chunk t tournament.shortCircuitPermille
            tournament.codecIds none with
        | none => exact Or.inl rfl
        | some b => exact hloop b hwin

theorem generalCandidate_codec (data : Bytes) (t : CodecTunables) :
    (generalCandidate z data t).1 ≠ codecReferenced := by
  have hbrotli : codecBrotli ≠ codecReferenced := by decide
  have hzstd : codecZstd ≠ codecReferenced := by decide
  have hfirst : (firstCandidate z data t).1 ≠ codecReferenced := by
    unfold firstCandidate
    split
    · exact hbrotli
    · split
      · exact hzstd
      · exact store_ne_referenced
  unfold generalCandidate
  simp only
  split
  · split
    · split
      · exact hzstd
      · exact hfirst
    · exact hfirst
  · exact hfirst

theorem wholeFileCandidate_codec (data : Bytes) (catCodec : UInt8) (t : CodecTunables) :
    (wholeFileCandidate z data catCodec t).1 ≠ codecReferenced := by
  have hgeneral := generalCandidate_codec (z := z) data t
  unfold wholeFileCandidate
  simp only
  split
  · split
    · next c hc =>
        split
        · show catCodec ≠ codecReferenced
          unfold specialisedResult at hc
          split at hc
          · next hfsst => rw [hfsst]; decide
          · exact ne_referenced_of_compress hc
        · exact hgeneral
    · exact hgeneral
  · exact hgeneral

end

/-! ### What a file's result promises -/

/-- The slices that cover the chunks from `offset` on, one after another. -/
def slicesFrom (H : Hash) : Nat → List Bytes → List PendingSlice
  | _, [] => []
  | offset, chunk :: rest =>
    ⟨H chunk, offset, offset + chunk.length⟩ :: slicesFrom H (offset + chunk.length) rest

/-- A drop is named by what it holds, or marks one that the base has. -/
def RawDrop.Accounted (H : Hash) (base : Option (Digest → Bool)) (d : RawDrop) : Prop :=
  if d.codec = codecReferenced then baseContains base d.id = true else d.id = H d.plaintext

structure ChunkedFileResult.Covers (H : Hash) (base : Option (Digest → Bool)) (data : Bytes)
    (r : ChunkedFileResult) : Prop where
  /-- The slices are those of a partition of the file. -/
  slices : ∃ chunks : List Bytes, chunks.flatten = data ∧
    (data ≠ [] → ∀ chunk ∈ chunks, chunk ≠ []) ∧ r.slices = slicesFrom H 0 chunks
  /-- Every slice has its drop. -/
  listed : ∀ s ∈ r.slices, ∃ d ∈ r.drops, d.id = s.dropId
  accounted : ∀ d ∈ r.drops, d.Accounted H base

section

variable {H : Hash} {base : Option (Digest → Bool)}

theorem scanChunks_slices :
    ∀ (chunks : List Bytes) (offset : Nat) (seen : List Digest),
      (scanChunks H chunks offset seen).1 = slicesFrom H offset chunks := by
  intro chunks
  induction chunks with
  | nil => intro offset seen; rfl
  | cons chunk rest ih =>
      intro offset seen
      unfold scanChunks slicesFrom
      simp only
      split
      · simp only [ih]
      · simp only [ih]

theorem scanChunks_unique :
    ∀ (chunks : List Bytes) (offset : Nat) (seen : List Digest), ∀ chunk ∈ chunks,
      H chunk ∈ seen ∨ ∃ u ∈ (scanChunks H chunks offset seen).2, H u = H chunk := by
  intro chunks
  induction chunks with
  | nil => intro offset seen chunk hmem; cases hmem
  | cons first rest ih =>
      intro offset seen chunk hmem
      unfold scanChunks
      simp only
      split
      · next hseen =>
          rcases List.mem_cons.mp hmem with rfl | hmem
          · exact .inl hseen
          · exact ih _ seen chunk hmem
      · rcases List.mem_cons.mp hmem with rfl | hmem
        · exact .inr ⟨chunk, List.mem_cons_self, rfl⟩
        · rcases ih (offset + first.length) (H first :: seen) chunk hmem with hseen | ⟨u, hu, hid⟩
          · rcases List.mem_cons.mp hseen with heq | hseen
            · exact .inr ⟨first, List.mem_cons_self, heq.symm⟩
            · exact .inl hseen
          · exact .inr ⟨u, List.mem_cons_of_mem _ hu, hid⟩

theorem exists_chunk_of_slicesFrom :
    ∀ (chunks : List Bytes) (offset : Nat), ∀ s ∈ slicesFrom H offset chunks,
      ∃ chunk ∈ chunks, s.dropId = H chunk := by
  intro chunks
  induction chunks with
  | nil => intro offset s hs; cases hs
  | cons chunk rest ih =>
      intro offset s hs
      unfold slicesFrom at hs
      rcases List.mem_cons.mp hs with rfl | hs
      · exact ⟨chunk, List.mem_cons_self, rfl⟩
      · obtain ⟨c, hc, hid⟩ := ih _ s hs
        exact ⟨c, List.mem_cons_of_mem _ hc, hid⟩

theorem covers_whole {data compressed : Bytes} {codec flags : UInt8}
    (hcodec : codec ≠ codecReferenced) :
    ChunkedFileResult.Covers H base data
      ⟨[⟨H data, data, compressed, codec, flags⟩], [⟨H data, 0, data.length⟩]⟩ where
  slices := by
    refine ⟨[data], by simp, ?_, by simp [slicesFrom]⟩
    intro hne chunk hchunk
    rw [List.mem_singleton.mp hchunk]
    exact hne
  listed := by
    intro s hs
    rw [List.mem_singleton.mp hs]
    exact ⟨_, List.mem_singleton.mpr rfl, rfl⟩
  accounted := by
    intro d hd
    rw [List.mem_singleton.mp hd]
    exact (if_neg hcodec).mpr rfl

end

section

variable {env : WriterEnv} {o : ProcessOptions}

theorem processUnchunked_covers (data : Bytes) :
    (processUnchunked env o data).Covers env.H o.baseDropIndex data := by
  refine covers_whole ?_
  split
  · next c hc =>
      split
      · exact ne_referenced_of_compress hc
      · exact store_ne_referenced
  · exact store_ne_referenced

theorem processWholeFileDrop_covers (data : Bytes) (codecId : UInt8) :
    (processWholeFileDrop env.z env.H data codecId o.tunables o.seekableDrops).Covers env.H
      o.baseDropIndex data :=
  covers_whole (wholeFileCandidate_codec data codecId o.tunables)

theorem compressCached_codec (cache : CompressCache env.H env.z) (chunk : Bytes) :
    (compressCached env o cache chunk).1.1 ≠ codecReferenced := by
  unfold compressCached
  simp only
  split
  · next hit hhit =>
      obtain ⟨e, he, rfl⟩ := Option.map_eq_some_iff.mp hhit
      obtain ⟨c, cls, text, binary, t, tournament, rfl⟩ :=
        cache.earned e (List.mem_of_find?_eq_some he)
      exact (compressChunkWithTournament_emits c cls text binary t tournament).codec
  · exact (compressChunkWithTournament_emits chunk _ _ _ _ _).codec

theorem chunkDrop_id (cache : CompressCache env.H env.z) (chunk : Bytes) :
    (chunkDrop env o cache chunk).1.id = env.H chunk := by
  unfold chunkDrop
  simp only
  split <;> rfl

theorem chunkDrop_accounted (cache : CompressCache env.H env.z) (chunk : Bytes) :
    (chunkDrop env o cache chunk).1.Accounted env.H o.baseDropIndex := by
  unfold chunkDrop
  simp only
  split
  · next hbase => exact (if_pos rfl).mpr hbase
  · exact (if_neg (compressCached_codec cache chunk)).mpr rfl

theorem processChunks_covers (caches : Nat → CompressCache env.H env.z) {data : Bytes}
    {chunks : List Bytes} (hflat : chunks.flatten = data) (hne : ∀ c ∈ chunks, c ≠ []) :
    (processChunks env o caches chunks).Covers env.H o.baseDropIndex data where
  slices := ⟨chunks, hflat, fun _ => hne, scanChunks_slices chunks 0 []⟩
  listed := by
    intro s hs
    have hs : s ∈ slicesFrom env.H 0 chunks := by
      rw [← scanChunks_slices chunks 0 []]
      exact hs
    obtain ⟨chunk, hchunk, hid⟩ := exists_chunk_of_slicesFrom chunks 0 s hs
    rcases scanChunks_unique (H := env.H) chunks 0 [] chunk hchunk with hseen | ⟨u, hu, hsame⟩
    · cases hseen
    · obtain ⟨i, hi, rfl⟩ := List.getElem_of_mem hu
      refine ⟨(chunkDrop env o (caches i) (scanChunks env.H chunks 0 []).2[i]).1,
        List.mem_mapIdx.mpr ⟨i, hi, rfl⟩, ?_⟩
      rw [chunkDrop_id, hsame, hid]
  accounted := by
    intro d hd
    obtain ⟨i, hi, rfl⟩ := List.mem_mapIdx.mp hd
    exact chunkDrop_accounted (caches i) _

/-- **Whichever way a file goes, its slices cover it and its drops are accounted for.** -/
theorem processFile_covers {caches : Nat → CompressCache env.H env.z} {pf : PendingFile}
    {r : ChunkedFileResult} (h : processFile env o caches pf = .ok r) :
    ∃ data, env.readFile pf.path = .ok data ∧ r.Covers env.H o.baseDropIndex data := by
  unfold processFile at h
  split at h
  · cases h
  · next data hread =>
      refine ⟨data, hread, ?_⟩
      split at h
      · cases h
        exact processUnchunked_covers data
      · split at h
        · next codecId _ =>
            cases h
            exact processWholeFileDrop_covers data codecId
        · split at h
          · cases h
          · next chunks hchunks =>
              cases h
              rw [FastCDC.chunkSlice_scalar] at hchunks
              obtain ⟨hflat, hne⟩ := o.chunker.scalar.chunkSlice_partition hchunks
              exact processChunks_covers caches hflat hne

end

end LimniFS
