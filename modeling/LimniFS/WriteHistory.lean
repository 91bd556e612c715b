/-
A write and the writes before it.

An entry of a worker's cache is found by the id of the chunk alone.  A chunk that an
earlier write compressed under other codecs, tunables or another tournament is therefore
stored as that write stored it: what comes out depends on what the process did before,
and on which worker takes the chunk.

`writes_agree` says what is left.  If every chunk that an earlier write compressed and
this one compresses again has one outcome under both configurations, then any two such
runs, whatever their pasts, workers, schedules and numbers of threads, give the same
artifact.  `earlier_codec_changes_slab` is a run where the condition fails.
-/
import LimniFS.WorkerCaches

namespace LimniFS

open Lib

/-! ### Whole runs -/

inductive EntryPoint where
  | layer
  | directory

/-- The same process with another number of threads. -/
def WriterEnv.withThreads (env : WriterEnv) (threads : Nat) : WriterEnv :=
  { env with threads := threads }

section

variable (env : WriterEnv) (config : WriteConfig) (tree : SourceTree env.readFile)
  (s : WriterState)

/-- What a write gives its workers; one that stops before gives them nothing. -/
def EntryPoint.work : EntryPoint → Except WriteStop Work
  | .layer => do
    let walked ← foldSurvey env tree.root none tree.survey s
    let chunker ← chunkerFromConfig config
    let registry ← openRegistry config
    pure ⟨processOptions config chunker registry walked.2.baseDropIndex
      config.defaults.inlineThreshold, walked.2.pendingFiles⟩
  | .directory => do
    let chunker ← chunkerFromConfig config
    let registry ← openRegistry config
    let walked ← foldSurvey env tree.root none tree.survey (streamingStart config s)
    pure ⟨processOptions config chunker registry s.baseDropIndex s.inlineThreshold,
      walked.2.pendingFiles⟩

/-- Write and assemble; nothing if the write fails. -/
def EntryPoint.artifact (workers : Workers env) (sched : Schedule) (entry : EntryPoint) :
    Option WriteArtifact :=
  let written :=
    match entry with
    | .layer => writeLayer env config workers sched tree s
    | .directory => writeDirectoryStreaming env config workers sched tree s
  written.toOption.bind fun s => assemble env.H env.z s.toWriteContext

end

section

variable {env : WriterEnv} {config : WriteConfig} {tree : SourceTree env.readFile}
  {s : WriterState} {workers : Workers env} {sched : Schedule}

theorem processNumbered_of_agrees {job : Work}
    (h : ∀ file chunk, (workers file chunk).Agrees env job.options (job.chunks env)) :
    ∀ t ∈ job.files.zipIdx, processNumbered env workers job.options t
      = processNumbered env (fun _ _ => .empty) job.options t := by
  intro t ht
  refine processFile_of_agrees fun i => (h t.2 i).mono ?_
  intro c hc
  exact List.mem_flatMap.mpr ⟨t.1, (List.mem_zipIdx' ht).2 ▸ List.getElem_mem _, hc⟩

theorem writeLayer_of_agrees (sched : Schedule)
    (h : ∀ job, EntryPoint.layer.work env config tree s = .ok job →
      ∀ file chunk, (workers file chunk).Agrees env job.options (job.chunks env)) :
    writeLayer env config workers sched tree s
      = writeLayer env config (fun _ _ => .empty) sched tree s := by
  refine except_bind_congr fun walked hwalk => ?_
  refine except_bind_congr fun chunker hchunker => ?_
  by_cases hempty : walked.2.pendingFiles.isEmpty = true
  · rw [if_pos hempty, if_pos hempty]
  · rw [if_neg hempty, if_neg hempty]
    refine except_bind_congr fun registry hregistry => ?_
    have hwork : EntryPoint.layer.work env config tree s
        = .ok ⟨processOptions config chunker registry walked.2.baseDropIndex
            config.defaults.inlineThreshold, walked.2.pendingFiles⟩ := by
      unfold EntryPoint.work
      rw [hwalk, hchunker, hregistry]
      rfl
    have hcollect := parallelCollect_congr sched
      (processNumbered_of_agrees (h _ hwork))
    exact congrArg (· >>= _) hcollect

theorem writeDirectoryStreaming_of_agrees (sched : Schedule)
    (h : ∀ job, EntryPoint.directory.work env config tree s = .ok job →
      ∀ file chunk, (workers file chunk).Agrees env job.options (job.chunks env)) :
    writeDirectoryStreaming env config workers sched tree s
      = writeDirectoryStreaming env config (fun _ _ => .empty) .sequential tree s := by
  refine except_bind_congr fun chunker hchunker => ?_
  refine except_bind_congr fun registry hregistry => ?_
  refine except_bind_congr fun walked hwalk => ?_
  have hwork : EntryPoint.directory.work env config tree s
      = .ok ⟨processOptions config chunker registry s.baseDropIndex s.inlineThreshold,
          walked.2.pendingFiles⟩ := by
    unfold EntryPoint.work
    rw [hchunker, hregistry]
    show foldSurvey env tree.root none tree.survey (streamingStart config s) >>= _ = _
    rw [show foldSurvey env tree.root none tree.survey (streamingStart config s)
      = .ok walked from hwalk]
    rfl
  have hfiles := processNumbered_of_agrees (h _ hwork)
  rw [parallelMap_eq_map, parallelMap_eq_map]
  exact congrArg (fun results => mergeInOrder env results _ >>= _)
    (List.map_congr_left fun t ht => congrArg (Prod.mk t.1) (hfiles t ht))

theorem writeLayer_toOption (sched sched' : Schedule) :
    (writeLayer env config workers sched tree s).toOption
      = (writeLayer env config workers sched' tree s).toOption := by
  refine toOption_bind_congr rfl fun walked _ => ?_
  refine toOption_bind_congr rfl fun chunker _ => ?_
  by_cases hempty : walked.2.pendingFiles.isEmpty = true
  · rw [if_pos hempty, if_pos hempty]
  · rw [if_neg hempty, if_neg hempty]
    refine toOption_bind_congr rfl fun registry _ => ?_
    exact toOption_bind_congr (parallelCollect_toOption sched sched' _ _) fun _ _ => rfl

theorem artifact_of_agrees {entry : EntryPoint}
    (h : ∀ job, entry.work env config tree s = .ok job →
      ∀ file chunk, (workers file chunk).Agrees env job.options (job.chunks env)) :
    entry.artifact env config tree s workers sched
      = entry.artifact env config tree s (fun _ _ => .empty) .sequential := by
  unfold EntryPoint.artifact
  cases entry with
  | layer =>
      simp only
      rw [writeLayer_of_agrees _ h, writeLayer_toOption sched .sequential]
  | directory =>
      simp only
      rw [writeDirectoryStreaming_of_agrees _ h]

theorem processFile_withThreads (threads : Nat) (o : ProcessOptions)
    (caches : Nat → CompressCache env.H env.z) (pf : PendingFile) :
    processFile (env.withThreads threads) o caches pf = processFile env o caches pf := by
  unfold processFile
  simp only [FastCDC.chunkSlice_scalar]
  rfl

mutual

theorem foldSurvey_withThreads (threads : Nat) : ∀ (node : SurveyNode) (path : Path)
    (target : Option Bytes) (s : WriterState),
      foldSurvey (env.withThreads threads) path target node s = foldSurvey env path target node s
  | .node info children symlink, path, target, s => by
      unfold foldSurvey
      simp only [foldChildren_withThreads threads children]
      rfl

theorem foldChildren_withThreads (threads : Nat) : ∀ (children : SurveyChildren) (path : Path)
    (s : WriterState),
      foldChildren (env.withThreads threads) path children s = foldChildren env path children s
  | .nil, path, s => by
      unfold foldChildren
      rfl
  | .cons name child rest, path, s => by
      unfold foldChildren
      rw [foldSurvey_withThreads threads child]
      simp only [foldChildren_withThreads threads rest]

end

theorem mergeInOrder_withThreads (threads : Nat) :
    ∀ (files : List (PendingFile × Except WriteStop ChunkedFileResult)) (s : WriterState),
      mergeInOrder (env.withThreads threads) files s = mergeInOrder env files s := by
  intro files
  induction files with
  | nil => intro s; rfl
  | cons first rest ih =>
      intro s
      obtain ⟨pf, e | r⟩ := first
      · rfl
      · exact ih _

theorem processNumbered_withThreads (threads : Nat) (o : ProcessOptions) :
    processNumbered (env.withThreads threads) workers o = processNumbered env workers o := by
  funext t
  exact processFile_withThreads threads o _ _

theorem writeLayer_withThreads (threads : Nat) :
    writeLayer (env.withThreads threads) config workers sched tree s
      = writeLayer env config workers sched tree s := by
  unfold writeLayer writeDirectoryBody
  simp only [foldSurvey_withThreads, processNumbered_withThreads]
  rfl

theorem writeDirectoryStreaming_withThreads (threads : Nat) :
    writeDirectoryStreaming (env.withThreads threads) config workers sched tree s
      = writeDirectoryStreaming env config workers sched tree s := by
  unfold writeDirectoryStreaming
  simp only [foldSurvey_withThreads, processNumbered_withThreads, mergeInOrder_withThreads]
  rfl

theorem artifact_withThreads (threads : Nat) (entry : EntryPoint) :
    entry.artifact (env.withThreads threads) config tree s workers sched
      = entry.artifact env config tree s workers sched := by
  unfold EntryPoint.artifact
  cases entry with
  | layer =>
      simp only
      rw [writeLayer_withThreads]
      rfl
  | directory =>
      simp only
      rw [writeDirectoryStreaming_withThreads]
      rfl

/--
**What is written does not depend on what was written before**, as long as the chunks
that were compressed before have the same outcome now.  For both entry points, every
tree, base and configuration, and any two runs in processes of any number of threads,
whatever writes came before and whatever worker took which chunk: the artifacts are the
same, and no cache ever answers anything but the tournament of this configuration.
-/
theorem writes_agree {entry : EntryPoint} {threads : Nat}
    {run : Run env (entry.work env config tree s)}
    {run' : Run (env.withThreads threads) (entry.work (env.withThreads threads) config tree s)}
    (hcol : run.NoCollision) (hcol' : run'.NoCollision)
    (hcons : run.Consistent) (hcons' : run'.Consistent) :
    entry.artifact env config tree s run.workers run.sched
        = entry.artifact (env.withThreads threads) config tree s run'.workers run'.sched ∧
    ∀ job, entry.work env config tree s = .ok job → ∀ file i, ∀ chunk ∈ job.chunks env,
      (compressCached env job.options (run.workers file i) chunk).1
        = outcome env job.options chunk := by
  have hagrees := run.agrees hcons hcol
  have hagrees' := run'.agrees hcons' hcol'
  refine ⟨?_, ?_⟩
  · rw [artifact_of_agrees hagrees, artifact_of_agrees hagrees']
    exact (artifact_withThreads threads entry).symm
  · intro job hjob file i chunk hchunk
    exact compressCached_of_agrees (hagrees job hjob file i) hchunk

end

theorem chunks_of_toOption {env : WriterEnv} {work : Except WriteStop Work} (chunks : List Bytes)
    (h : work.toOption.map (·.chunks env) = some chunks) :
    ∀ job, work = .ok job → job.chunks env = chunks := by
  intro job hjob
  rw [hjob] at h
  exact Option.some.inj h

namespace Stored

/-- A run of one byte is written as the byte and its length; anything else as it is. -/
def packRun : Bytes → Bytes
  | [] => [0]
  | b :: rest =>
    if rest.length < 256 ∧ rest = List.replicate rest.length b then [1, b, UInt8.ofNat rest.length]
    else 0 :: b :: rest

def unpackRun : Bytes → Coded
  | 1 :: b :: n :: _ => .ok (List.replicate (n.toNat + 1) b)
  | c => .ok c.tail

/-- Two coders that shorten runs. -/
def packing : Omnizip :=
  { omnizip with
    brotliCompress := fun _ x => .ok (packRun x)
    brotliDecompress := fun c _ => unpackRun c
    lz4FastCompress := fun x => .ok (packRun x)
    lz4Decompress := fun c _ => unpackRun c }

/-- A text of one hundred times the same letter. -/
def letters : Bytes := List.replicate 100 97

def lettersEnv : WriterEnv :=
  { writerEnv with
    z := packing
    readFile := fun path => if path = [[0x61]] then .ok letters else .error "No such file" }

/-- One file of letters. -/
def lettersTree : SourceTree lettersEnv.readFile where
  root := []
  survey := .node dirInfo (.cons [0x61] (.node (fileInfo 2 100) .nil none) .nil) none
  agrees := by
    intro f hf data hread
    simp only [SurveyNode.files, SurveyChildren.files, dirInfo, fileInfo, if_true,
      List.nil_append, List.append_nil, List.mem_singleton, reduceCtorEq, if_false] at hf
    subst hf
    cases hread
    rfl
  len_lt := by decide

/-- Chunks of 128 bytes and more, so that the file is one chunk. -/
def codecConfig (textCodec : String) : WriteConfig :=
  { writeConfig with
    defaults := ⟨textCodec, "store", "brotli", 1000 * 1024, true, true, 0, 0⟩
    chunking := ⟨512, 128, 2048⟩
    tournament := ⟨[], 1000, true, 250⟩ }

/-- What a write under `textCodec` gives its workers. -/
def codecWork (textCodec : String) : Except WriteStop Work :=
  EntryPoint.directory.work lettersEnv (codecConfig textCodec) lettersTree .new

/-- The work of a write that stores chunks as they are. -/
def storeJob : Work := (codecWork "store").toOption.get (by decide +kernel)

/-- What a thread holds that compressed the letters in that write. -/
def storedCache : CompressCache lettersEnv.H lettersEnv.z :=
  (compressCached lettersEnv storeJob.options .empty letters).2

/-- Write the letters with Brotli in a new process. -/
def firstRun : Run lettersEnv (codecWork "brotli") where
  past := []
  pool := fun _ => .empty
  held := .start
  workers := fun _ _ => .empty
  grown := fun _ _ _ _ => ⟨0, .held⟩
  sched := .sequential

/-- Write them with Brotli after they were written without a codec. -/
def secondRun : Run lettersEnv (codecWork "brotli") where
  past := [⟨storeJob.options, storeJob.chunks lettersEnv⟩]
  pool := fun _ => storedCache
  held := Held.start.wrote fun _ => .took .held (by decide +kernel)
  workers := fun _ _ => storedCache
  grown := fun _ _ _ _ => ⟨0, .held⟩
  sched := .sequential

end Stored

open Stored

theorem exists_slabs_ne {x y : Option WriteArtifact}
    (h : (x.bind fun a => y.map fun a' =>
      decide (a.slabs.map (·.bytes) ≠ a'.slabs.map (·.bytes))) = some true) :
    ∃ a a', x = some a ∧ y = some a' ∧ a.slabs.map (·.bytes) ≠ a'.slabs.map (·.bytes) := by
  obtain ⟨a, hx, h⟩ := Option.bind_eq_some_iff.mp h
  obtain ⟨a', hy, h⟩ := Option.map_eq_some_iff.mp h
  exact ⟨a, a', hx, hy, of_decide_eq_true h⟩

/-- The letters are stored as the first write of the process stored them. -/
theorem earlier_codec_changes_slab :
    firstRun.NoCollision ∧ secondRun.NoCollision ∧
    ∃ a a' : WriteArtifact,
      EntryPoint.directory.artifact Stored.lettersEnv (Stored.codecConfig "brotli")
        Stored.lettersTree .new firstRun.workers firstRun.sched = some a ∧
      EntryPoint.directory.artifact Stored.lettersEnv (Stored.codecConfig "brotli")
        Stored.lettersTree .new secondRun.workers secondRun.sched = some a' ∧
      a.slabs.map (·.bytes) ≠ a'.slabs.map (·.bytes) := by
  have hchunks : ∀ job, Stored.codecWork "brotli" = .ok job →
      job.chunks Stored.lettersEnv = [Stored.letters] :=
    chunks_of_toOption _ (by decide +kernel)
  refine ⟨?_, ?_, exists_slabs_ne (by decide +kernel)⟩
  · intro job hjob
    rw [hchunks job hjob]
    decide +kernel
  · intro job hjob
    rw [hchunks job hjob]
    decide +kernel

namespace Stored

def brotliJob : Work := (codecWork "brotli").toOption.get (by decide +kernel)

/-- Write the letters with Brotli a second time; the worker finds them in its cache. -/
def repeatedRun : Run lettersEnv (codecWork "brotli") where
  past := [⟨brotliJob.options, [letters]⟩]
  pool := fun _ => (compressCached lettersEnv brotliJob.options .empty letters).2
  held := Held.start.wrote fun _ => .took .held (List.mem_singleton.mpr rfl)
  workers := fun _ _ => (compressCached lettersEnv brotliJob.options .empty letters).2
  grown := fun _ _ _ _ => ⟨0, .held⟩
  sched := .sequential

/-- In a process of eight threads, before anything else. -/
def wideRun : Run (lettersEnv.withThreads 8) (EntryPoint.directory.work
    (lettersEnv.withThreads 8) (codecConfig "brotli") lettersTree .new) where
  past := []
  pool := fun _ => .empty
  held := .start
  workers := fun _ _ => .empty
  grown := fun _ _ _ _ => ⟨0, .held⟩
  sched := .sequential

end Stored

open LimniFS.Stored

/-- A second write with the same codec gives what a first one gives elsewhere. -/
theorem writes_agree_repeated :
    EntryPoint.directory.artifact lettersEnv (codecConfig "brotli")
        lettersTree .new repeatedRun.workers repeatedRun.sched
      = EntryPoint.directory.artifact (lettersEnv.withThreads 8)
        (codecConfig "brotli") lettersTree .new wideRun.workers
        wideRun.sched := by
  refine (@writes_agree _ _ _ _ _ _ repeatedRun wideRun ?_ ?_ ?_ ?_).1
  · intro job hjob
    rw [chunks_of_toOption [letters] (by decide +kernel) job hjob]
    decide +kernel
  · intro job hjob
    rw [chunks_of_toOption [letters] (by decide +kernel) job hjob]
    decide +kernel
  · intro job hjob write hwrite chunk _ _
    have hget : brotliJob = job := Option.get_of_eq_some _ (congrArg Except.toOption hjob)
    rw [List.mem_singleton.mp hwrite, hget]
  · intro job _ write hwrite
    cases hwrite

end LimniFS
