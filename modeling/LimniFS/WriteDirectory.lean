/-
Writing a directory.

There are two entry points.  A layer is walked first and its files are then compressed
in parallel; a standalone image compresses files while the walk is still going, and puts
the results back into the order of the walk.  Both merge the results file by file: a
drop whose id is already known is dropped, every other one is kept, and the file becomes
an inode with slices.  The dictionary pass closes the run.

`writeDirectoryBody_merges` and `writeDirectoryStreaming_merges` say that both come down
to the same thing: merge one result for every file that was put off, in the order of the
walk, and run the dictionary pass.
-/
import LimniFS.Lib.ParallelMap
import LimniFS.Walk

namespace LimniFS

open Lib

/-! ### Merging -/

def maxDictSamples : Nat := 1000

/-- A raw drop as the context keeps it. -/
def RawDrop.pending (r : RawDrop) (retainPlaintext : Bool) : PendingDrop where
  id := r.id
  plaintextLen := saturateU32 r.plaintext.length
  compressed := r.compressed
  codec := r.codec
  dictId := noDict
  plaintext := if retainPlaintext then some r.plaintext else none
  flags := r.flags

section

variable (env : WriterEnv)

/-- Keep a drop whose id is new; the plaintext of a ZSTD drop is a sample for the
dictionaries. -/
def mergeDrop (s : WriterState) (r : RawDrop) : WriterState :=
  if r.id ∈ s.dropIndex then s
  else
    let retainPlaintext := s.collectDictSamples && r.codec == codecZstd
    { s with
      dropIndex := r.id :: s.dropIndex
      dictSamplesByClass :=
        if retainPlaintext = true ∧ s.dictSamplesByClass.length < maxDictSamples then
          s.dictSamplesByClass ++ [(env.classify r.plaintext, r.plaintext)]
        else s.dictSamplesByClass
      drops := s.drops ++ [r.pending retainPlaintext] }

def fileInode (pf : PendingFile) (slices : List PendingSlice) : PendingInode where
  number := pf.inodeNumber
  mode := pf.mode
  uid := pf.uid
  gid := pf.gid
  mtimeNs := pf.mtimeNs
  xattrs := []
  content := .dropBacked pf.fileLen slices

def mergeChunkedFile (s : WriterState) (pf : PendingFile) (result : ChunkedFileResult) :
    WriterState :=
  addInode (result.drops.foldl (mergeDrop env) s) (fileInode pf result.slices)

def mergeFiles (s : WriterState) (files : List (PendingFile × ChunkedFileResult)) : WriterState :=
  files.foldl (fun s f => mergeChunkedFile env s f.1 f.2) s

/-! ### The dictionary pass -/

/-- The samples of some classes, class by class. -/
def samplesOf (s : WriterState) (classes : List Class) : List Bytes :=
  classes.flatMap fun c => (s.dictSamplesByClass.filter (·.1 = c)).map (·.2)

/-- A dictionary of enough samples, if the trainer finds one. -/
def trainFor (config : DictionaryConfig) (id : UInt8) (samples : List Bytes) : Option Bytes :=
  if config.minClassSize ≤ samples.length then
    env.trainDictionary id samples config.maxDictSize config.trainer
  else none

/-- The dictionaries of the base; a later one under an id takes the place of an earlier one. -/
def adoptedDicts (dicts : TrainedDicts) (adopted : List (UInt8 × Bytes)) : TrainedDicts :=
  adopted.foldl (fun dicts d =>
    if d.1 = 0 then { dicts with text := some d.2 }
    else if d.1 = 1 then { dicts with binary := some d.2 }
    else dicts) dicts

def applyDictionaries (s : WriterState) (dicts : TrainedDicts) : WriterState :=
  let applied := applyTrainedDictionaries env.z env.classify dicts s.drops
  { s with drops := applied.1, trainedDicts := applied.2, dictSamplesByClass := [] }

def trainAndApplyDictionary (config : DictionaryConfig) (s : WriterState) : WriterState :=
  if config.enabled = false then
    { s with drops := s.drops.map releaseSample, dictSamplesByClass := [] }
  else
    match s.baseDictionaries with
    | some adopted =>
      applyDictionaries env { s with baseDictionaries := none } (adoptedDicts s.trainedDicts adopted)
    | none =>
      let text := (trainFor env config 0 (samplesOf s [.text, .code, .sparse])).or
        s.trainedDicts.text
      let binary := (trainFor env config 1 (samplesOf s [.binary])).or s.trainedDicts.binary
      applyDictionaries env s ⟨text, binary⟩

/-! ### The two entry points -/

def processOptions (config : WriteConfig) (chunker : ParallelFastCDC) (registry : CodecRegistry)
    (base : Option (Digest → Bool)) (inlineThreshold : Nat) : ProcessOptions where
  chunker := chunker
  textCodec := unwrapOr config.textCodecId 0x04
  binaryCodec := unwrapOr config.binaryCodecId 0x01
  tunables := config.codecTunables
  useCategorizers := !config.categorizers.isEmpty
  skipChunking := config.skipChunking
  tournament :=
    { codecIds := config.tournament.codecs.filterMap registry.lookupByName
      minSize := config.tournament.minSizeThreshold
      skipForBinary := config.tournament.skipForBinary
      shortCircuitPermille := config.tournament.shortCircuitThreshold }
  baseDropIndex := base
  inlineThreshold := inlineThreshold
  maxDropSize := config.defaults.maxDropSize
  seekableDrops := config.defaults.seekableDrops
  categorizerConfig := config.categorizers
  codecNameResolver := fun name => config.codecRegistry.toOption.bind (·.lookupByName name)

def openRegistry (config : WriteConfig) : Except WriteStop CodecRegistry :=
  match config.codecRegistry with
  | .ok registry => .ok registry
  | .error (.unknownCodec name) =>
    .error (.failed (.io ("codec registry: unknown codec: " ++ name)))

/-- What the configuration says about the metadata. -/
def applyDefaults (config : WriteConfig) (s : WriterState) : WriterState :=
  { s with
    inlineThreshold := config.defaults.inlineThreshold
    metadataExternalizeThreshold := config.defaults.metadataExternalizeThreshold
    emitSharedInline := config.defaults.sharedInline }

/-- The caches of the workers: for every file and every unique chunk of it, what the worker that
takes the chunk holds at that time. -/
abbrev Workers := Nat → Nat → CompressCache env.H env.z

variable (config : WriteConfig) (workers : Workers env) (sched : Schedule)

/-- A file with its place in the order of the walk. -/
def processNumbered (o : ProcessOptions) (t : PendingFile × Nat) :
    Except WriteStop ChunkedFileResult :=
  processFile env o (workers t.2) t.1

/-- Of a layer: all files were put off before the first is compressed, and any failure of a
worker fails the run. -/
def writeDirectoryBody (s : WriterState) : Except WriteStop WriterState := do
  let s := { s with metadataCodec := unwrapOr config.metadataCodecId codecBrotli }
  let chunker ← chunkerFromConfig config
  let pending := s.pendingFiles
  let s := { s with pendingFiles := [] }
  if pending.isEmpty then pure s
  else
    let s := applyDefaults config s
    let registry ← openRegistry config
    let o := processOptions config chunker registry s.baseDropIndex s.inlineThreshold
    let results ← parallelCollect sched (processNumbered env workers o) pending.zipIdx
    pure (trainAndApplyDictionary env config.dictionaries (mergeFiles env s (pending.zip results)))

/-- Merge in the order of the walk, up to the first failure. -/
def mergeInOrder : List (PendingFile × Except WriteStop ChunkedFileResult) → WriterState →
    Except WriteStop WriterState
  | [], s => .ok s
  | (_, .error e) :: _, _ => .error e
  | (pf, .ok result) :: rest, s => mergeInOrder rest (mergeChunkedFile env s pf result)

/-- Of a standalone image: files are compressed as the walk meets them.  The inline threshold
handed to the workers is the one from before the configuration was applied. -/
def writeDirectoryStreaming (tree : SourceTree env.readFile) (s : WriterState) :
    Except WriteStop WriterState := do
  let s := { s with metadataCodec := unwrapOr config.metadataCodecId codecBrotli }
  let chunker ← chunkerFromConfig config
  let registry ← openRegistry config
  let o := processOptions config chunker registry s.baseDropIndex s.inlineThreshold
  let s := applyDefaults config s
  let walked ← foldSurvey env tree.root none tree.survey s
  let results := parallelMap sched (fun t => (t.1, processNumbered env workers o t))
    walked.2.pendingFiles.zipIdx
  let s := { walked.2 with rootInodeNumber := walked.1, pendingFiles := [] }
  let merged ← mergeInOrder env results s
  pure (trainAndApplyDictionary env config.dictionaries merged)

/-- Of a layer, from the context that was prepared for it up to `assemble`. -/
def writeLayer (tree : SourceTree env.readFile) (s : WriterState) :
    Except WriteStop WriterState := do
  let walked ← foldSurvey env tree.root none tree.survey s
  writeDirectoryBody env config workers sched { walked.2 with rootInodeNumber := walked.1 }

end

/-! ### Both come down to merging in order -/

/-- The last step of a run: it changes how drops are stored, not which there are. -/
def Finishes (merged s : WriterState) : Prop :=
  s.inodes = merged.inodes ∧ ∃ f : PendingDrop → PendingDrop,
    (∀ d, (f d).id = d.id ∧ (f d).codec = d.codec ∧ (f d).plaintextLen = d.plaintextLen) ∧
    s.drops = merged.drops.map f

/-- From `s` to `s'` one result was merged for every file of `pending`, in order. -/
structure Merged (env : WriterEnv) (workers : Workers env) (pending : List PendingFile)
    (results : List ChunkedFileResult) (s s' : WriterState) : Prop where
  processed : ∃ o : ProcessOptions, o.baseDropIndex = s.baseDropIndex ∧
    List.Forall₂ (fun t r => processNumbered env workers o t = .ok r) pending.zipIdx results
  merged : ∃ s₁ : WriterState, s₁.inodes = s.inodes ∧ s₁.drops = s.drops ∧
    s₁.dropIndex = s.dropIndex ∧ Finishes (mergeFiles env s₁ (pending.zip results)) s'

section

variable {env : WriterEnv} {config : WriteConfig} {workers : Workers env} {sched : Schedule}

theorem applyDictionaries_finishes (s : WriterState) (dicts : TrainedDicts) :
    Finishes s (applyDictionaries env s dicts) := by
  refine ⟨rfl, _, ?_, applyTrainedDictionaries_drops dicts s.drops⟩
  intro d
  by_cases hpay : dictionariesPay env.z env.classify dicts s.drops
  · simp only [if_pos hpay]
    unfold swapDrop
    split <;> exact ⟨rfl, rfl, rfl⟩
  · simp only [if_neg hpay]
    exact ⟨rfl, rfl, rfl⟩

theorem trainAndApplyDictionary_finishes (dictionaries : DictionaryConfig) (s : WriterState) :
    Finishes s (trainAndApplyDictionary env dictionaries s) := by
  unfold trainAndApplyDictionary
  split
  · exact ⟨rfl, releaseSample, fun _ => ⟨rfl, rfl, rfl⟩, rfl⟩
  · split
    · exact applyDictionaries_finishes _ _
    · exact applyDictionaries_finishes s _

theorem mergeInOrder_ok :
    ∀ (files : List (PendingFile × Except WriteStop ChunkedFileResult)) (s s' : WriterState),
      mergeInOrder env files s = .ok s' →
      ∃ results, List.Forall₂ (fun f r => f.2 = .ok r) files results ∧
        s' = mergeFiles env s ((files.map (·.1)).zip results) := by
  intro files
  induction files with
  | nil => intro s s' h; cases h; exact ⟨[], .nil, rfl⟩
  | cons first rest ih =>
      rintro s s' h
      obtain ⟨pf, e | r⟩ := first
      · cases h
      · obtain ⟨results, hall, hs'⟩ := ih _ s' h
        exact ⟨r :: results, .cons rfl hall, hs'⟩

theorem writeDirectoryBody_merges {s s' : WriterState}
    (h : writeDirectoryBody env config workers sched s = .ok s') :
    ∃ results, Merged env workers s.pendingFiles results s s' := by
  obtain ⟨chunker, -, h⟩ := except_bind_eq_ok.mp h
  by_cases hempty : s.pendingFiles.isEmpty
  · rw [if_pos hempty] at h
    cases h
    rw [List.isEmpty_iff] at hempty
    rw [hempty]
    exact ⟨[], ⟨processOptions config chunker [] s.baseDropIndex 0, rfl, .nil⟩,
      _, rfl, rfl, rfl, rfl, _, fun _ => ⟨rfl, rfl, rfl⟩, (List.map_id _).symm⟩
  · rw [if_neg hempty] at h
    obtain ⟨registry, -, h⟩ := except_bind_eq_ok.mp h
    obtain ⟨results, hresults, h⟩ := except_bind_eq_ok.mp h
    cases h
    refine ⟨results, ⟨_, ?_, parallelCollect_ok hresults⟩, _, ?_, ?_, ?_,
      trainAndApplyDictionary_finishes _ _⟩
    all_goals rfl

/-- The state the walk of a standalone image starts from. -/
def streamingStart (config : WriteConfig) (s : WriterState) : WriterState :=
  applyDefaults config { s with metadataCodec := unwrapOr config.metadataCodecId codecBrotli }

/-- A standalone image's files, walked, compressed and merged. -/
theorem writeDirectoryStreaming_merges {tree : SourceTree env.readFile} {s s' : WriterState}
    (h : writeDirectoryStreaming env config workers sched tree s = .ok s') :
    ∃ number walked results,
      foldSurvey env tree.root none tree.survey (streamingStart config s) = .ok (number, walked) ∧
      Merged env workers walked.pendingFiles results walked s' := by
  obtain ⟨chunker, -, h⟩ := except_bind_eq_ok.mp h
  obtain ⟨registry, -, h⟩ := except_bind_eq_ok.mp h
  obtain ⟨⟨number, walked⟩, hwalk, h⟩ := except_bind_eq_ok.mp h
  obtain ⟨merged, hmerge, h⟩ := except_bind_eq_ok.mp h
  cases h
  obtain ⟨results, hall, rfl⟩ := mergeInOrder_ok _ _ _ hmerge
  have hbase := (foldSurvey_walked _ _ _ _ _ _ hwalk).baseDropIndex
  rw [parallelMap_eq_map] at hall ⊢
  rw [List.forall₂_map_left_iff] at hall
  rw [List.map_map]
  have hfiles : walked.pendingFiles.zip results
      = (walked.pendingFiles.zipIdx.map Prod.fst).zip results := by rw [List.zipIdx_map_fst]
  refine ⟨number, walked, results, hwalk, ⟨_, ?_, hall⟩,
    { walked with rootInodeNumber := number, pendingFiles := [] }, rfl, rfl, rfl, ?_⟩
  · exact hbase.symm
  · rw [hfiles]
    exact trainAndApplyDictionary_finishes _ _

end

/-! ### What is handed on -/

/-- What merging and the dictionary pass hand on as it was. -/
structure LayoutKept (s s' : WriterState) : Prop where
  dirNodes : s'.dirNodes = s.dirNodes
  inodeXattrs : s'.inodeXattrs = s.inodeXattrs
  externalizeThreshold : s'.metadataExternalizeThreshold = s.metadataExternalizeThreshold
  baseRoot : s'.baseRoot = s.baseRoot

theorem LayoutKept.trans {s s' s'' : WriterState} (h : LayoutKept s s') (h' : LayoutKept s' s'') :
    LayoutKept s s'' where
  dirNodes := h'.dirNodes.trans h.dirNodes
  inodeXattrs := h'.inodeXattrs.trans h.inodeXattrs
  externalizeThreshold := h'.externalizeThreshold.trans h.externalizeThreshold
  baseRoot := h'.baseRoot.trans h.baseRoot

section

variable {env : WriterEnv} {config : WriteConfig} {workers : Workers env} {sched : Schedule}
  {tree : SourceTree env.readFile} {s s' : WriterState}

theorem mergeDrops_layout : ∀ (drops : List RawDrop) (s : WriterState),
    LayoutKept s (drops.foldl (mergeDrop env) s) := by
  intro drops
  induction drops with
  | nil => exact fun s => ⟨rfl, rfl, rfl, rfl⟩
  | cons r rest ih =>
      intro s
      refine LayoutKept.trans ?_ (ih (mergeDrop env s r))
      unfold mergeDrop
      split <;> exact ⟨rfl, rfl, rfl, rfl⟩

theorem mergeFiles_layout : ∀ (files : List (PendingFile × ChunkedFileResult)) (s : WriterState),
    LayoutKept s (mergeFiles env s files) := by
  intro files
  induction files with
  | nil => exact fun s => ⟨rfl, rfl, rfl, rfl⟩
  | cons f rest ih =>
      intro s
      have hfile := @mergeDrops_layout env f.2.drops s
      refine LayoutKept.trans ?_ (ih (mergeChunkedFile env s f.1 f.2))
      exact ⟨hfile.dirNodes, hfile.inodeXattrs, hfile.externalizeThreshold, hfile.baseRoot⟩

theorem trainAndApplyDictionary_layout (dictionaries : DictionaryConfig) (s : WriterState) :
    LayoutKept s (trainAndApplyDictionary env dictionaries s) := by
  unfold trainAndApplyDictionary
  split
  · exact ⟨rfl, rfl, rfl, rfl⟩
  · split <;> exact ⟨rfl, rfl, rfl, rfl⟩

end

end LimniFS
