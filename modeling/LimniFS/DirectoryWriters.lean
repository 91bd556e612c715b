/-
What the two writers of a directory share.

The walk carries the settings of the image along without reading them, so it does not
matter when they are applied (`foldSurvey_apply`).  A file fails in one way, whatever
the caches hold (`processFile_error_iff`), and the inline threshold that a worker was
given matters only to a file that lies between two thresholds.  Merging results in
order is the same as compressing in order and merging what came out.

With that each writer comes down to one equation: walk, compress, merge, and run the
dictionary pass, from one and the same context.
-/
import LimniFS.WorkerCaches

namespace LimniFS

open Lib

/-! ### The walk does not read the settings -/

/-- What the configuration sets and the walk only carries along. -/
structure Settings where
  metadataCodec : UInt8
  metadataExternalizeThreshold : Nat
  emitSharedInline : Bool
  trainedDicts : TrainedDicts

def Settings.apply (settings : Settings) (s : WriterState) : WriterState :=
  { s with
    metadataCodec := settings.metadataCodec
    metadataExternalizeThreshold := settings.metadataExternalizeThreshold
    emitSharedInline := settings.emitSharedInline
    trainedDicts := settings.trainedDicts }

/-- The same on the result of a step of the walk. -/
def Settings.applyTo {α : Type} (settings : Settings)
    (r : Except WriteStop (α × WriterState)) : Except WriteStop (α × WriterState) :=
  r.map fun p => (p.1, settings.apply p.2)

section

variable {env : WriterEnv} {settings : Settings}

theorem foldFile_apply (path : Path) (info : SurveyMeta) (s : WriterState) :
    foldFile env path info (settings.apply s) = settings.applyTo (foldFile env path info s) := by
  unfold foldFile
  have htargets : (settings.apply s).hardlinkTargets = s.hardlinkTargets := rfl
  rw [htargets]
  cases s.hardlinkTargets (info.dev, info.ino) with
  | some existing => rfl
  | none =>
      simp only
      by_cases hshort : info.len ≤ s.inlineThreshold
      · have hshort' : info.len ≤ (settings.apply s).inlineThreshold := hshort
        rw [if_pos hshort, if_pos hshort']
        cases env.readFile path with
        | error e => rfl
        | ok data =>
            unfold noteXattrs
            by_cases hxattrs : info.xattrs = []
            · simp only [if_pos hxattrs]
              rfl
            · simp only [if_neg hxattrs]
              rfl
      · have hlong' : ¬ info.len ≤ (settings.apply s).inlineThreshold := hshort
        rw [if_neg hshort, if_neg hlong']
        unfold noteXattrs
        by_cases hxattrs : info.xattrs = []
        · simp only [if_pos hxattrs]
          rfl
        · simp only [if_neg hxattrs]
          rfl

theorem closeDirectory_apply (number : Nat) (info : SurveyMeta) (entries : List DirEntry)
    (s : WriterState) :
    closeDirectory env number info entries (settings.apply s)
      = settings.applyTo (closeDirectory env number info entries s) := by
  unfold closeDirectory
  simp only
  cases encodeDirNode env.H (sortEntries entries) with
  | none => rfl
  | some node =>
      unfold noteXattrs
      by_cases hxattrs : info.xattrs = []
      · simp only [if_pos hxattrs]
        rfl
      · simp only [if_neg hxattrs]
        rfl

mutual

theorem foldSurvey_apply : ∀ (node : SurveyNode) (path : Path) (target : Option Bytes)
    (s : WriterState),
      foldSurvey env path target node (settings.apply s)
        = settings.applyTo (foldSurvey env path target node s)
  | .node info children symlink, path, target, s => by
      unfold foldSurvey
      cases target with
      | some target => rfl
      | none =>
          simp only
          cases info.kind with
          | directory =>
              simp only
              have hchildren := foldChildren_apply children path
                { s with dirCount := s.dirCount + 1, nextInode := s.nextInode + 1 }
              simp only [Settings.apply] at hchildren ⊢
              rw [hchildren]
              cases foldChildren env path children
                { s with dirCount := s.dirCount + 1, nextInode := s.nextInode + 1 } with
              | error e => rfl
              | ok r => exact closeDirectory_apply _ _ _ _
          | file => exact foldFile_apply path info s
          | symlink => rfl
          | fifo => rfl
          | socket => rfl
          | blockDevice => rfl
          | charDevice => rfl
          | unknown => rfl

theorem foldChildren_apply : ∀ (children : SurveyChildren) (path : Path) (s : WriterState),
    foldChildren env path children (settings.apply s)
      = settings.applyTo (foldChildren env path children s)
  | .nil, path, s => by
      unfold foldChildren
      rfl
  | .cons name child rest, path, s => by
      unfold foldChildren
      rw [foldSurvey_apply child]
      cases foldSurvey env (path ++ [name]) child.symlinkTarget child s with
      | error e => rfl
      | ok r =>
          have hrest : foldChildren env path rest (settings.apply r.2)
            = settings.applyTo (foldChildren env path rest r.2) := foldChildren_apply rest path r.2
          simp only [Settings.applyTo, Except.map] at hrest ⊢
          rw [hrest]
          cases foldChildren env path rest r.2 with
          | error e => rfl
          | ok tail => rfl

end

end

/-! ### One file -/

/-- How a file that was put off fails, if it does. -/
def fileFailure (env : WriterEnv) (o : ProcessOptions) (pf : PendingFile) : Option WriteStop :=
  match env.readFile pf.path with
  | .error e => some (.failed (.io e))
  | .ok data =>
    if o.skipChunking = true ∧ o.inlineThreshold < data.length then none
    else if (categorizerClaim env o pf.path data).isSome then none
    else if (o.chunker.chunkSlice env.threads data).isNone then some .panicked
    else none

section

variable {env : WriterEnv} {o : ProcessOptions}

theorem processFile_error_iff {caches : Nat → CompressCache env.H env.z} {pf : PendingFile}
    {e : WriteStop} : processFile env o caches pf = .error e ↔ fileFailure env o pf = some e := by
  unfold processFile fileFailure
  cases env.readFile pf.path with
  | error text => exact ⟨fun h => by cases h; rfl, fun h => by cases h; rfl⟩
  | ok data =>
      simp only
      by_cases hgate : o.skipChunking = true ∧ o.inlineThreshold < data.length
      · rw [if_pos hgate, if_pos hgate]
        exact ⟨nofun, nofun⟩
      · rw [if_neg hgate, if_neg hgate]
        cases categorizerClaim env o pf.path data with
        | some codecId => exact ⟨nofun, nofun⟩
        | none =>
            cases o.chunker.chunkSlice env.threads data with
            | none => exact ⟨fun h => by cases h; rfl, fun h => by cases h; rfl⟩
            | some chunks => exact ⟨nofun, nofun⟩

/-- The threshold only matters to a file that lies between the two. -/
theorem processFile_threshold {threshold : Nat} {caches : Nat → CompressCache env.H env.z}
    {pf : PendingFile}
    (h : ∀ data, env.readFile pf.path = .ok data → o.skipChunking = true →
      (threshold < data.length ↔ o.inlineThreshold < data.length)) :
    processFile env { o with inlineThreshold := threshold } caches pf
      = processFile env o caches pf := by
  unfold processFile
  cases hread : env.readFile pf.path with
  | error e => rfl
  | ok data =>
      have hgate : (o.skipChunking = true ∧ threshold < data.length) ↔
          (o.skipChunking = true ∧ o.inlineThreshold < data.length) :=
        and_congr_right (h data hread)
      simp only
      by_cases hlong : o.skipChunking = true ∧ o.inlineThreshold < data.length
      · rw [if_pos hlong, if_pos (hgate.mpr hlong)]
        rfl
      · rw [if_neg hlong, if_neg fun hshort => hlong (hgate.mp hshort)]
        rfl

theorem mergeInOrder_eq_mapM (run : PendingFile × Nat → Except WriteStop ChunkedFileResult) :
    ∀ (tasks : List (PendingFile × Nat)) (s : WriterState),
      mergeInOrder env (tasks.map fun t => (t.1, run t)) s
        = (tasks.mapM run).map fun results =>
            mergeFiles env s ((tasks.map (·.1)).zip results) := by
  intro tasks
  induction tasks with
  | nil => intro s; rfl
  | cons first rest ih =>
      intro s
      rw [List.mapM_cons, List.map_cons]
      cases hrun : run first with
      | error e => rfl
      | ok result =>
          show mergeInOrder env (rest.map fun t => (t.1, run t))
            (mergeChunkedFile env s first.1 result) = _
          rw [ih]
          cases rest.mapM run with
          | error e => rfl
          | ok results => rfl

end

/-! ### The two writers -/

/-- The context a standalone image starts from. -/
def directoryStart (config : WriteConfig) : WriterState :=
  { WriterState.new with collectDictSamples := config.dictionaries.enabled }

section

variable (env : WriterEnv) (config : WriteConfig) (workers : Workers env) (sched : Schedule)
  (tree : SourceTree env.readFile)

/-- Walk first and compress afterwards, with the same settings. -/
def writeDirectoryBatch : Except WriteStop WriterState :=
  writeLayer env config workers sched tree (applyDefaults config (directoryStart config))

/-- The artifact, or how the write stopped. -/
def assembled (written : Except WriteStop WriterState) :
    Except WriteStop (Option WriteArtifact) :=
  written.map fun s => assemble env.H env.z s.toWriteContext

/-- The context of the walk, without what the walk does not read. -/
def walkStart : WriterState :=
  { directoryStart config with inlineThreshold := config.defaults.inlineThreshold }

def directorySettings (codec : UInt8) : Settings :=
  ⟨codec, config.defaults.metadataExternalizeThreshold, config.defaults.sharedInline, .none⟩

/-- The context after the walk, as both writers come to have it. -/
def afterWalk (walked : Nat × WriterState) : WriterState :=
  { (directorySettings config (unwrapOr config.metadataCodecId codecBrotli)).apply walked.2 with
    rootInodeNumber := walked.1
    pendingFiles := [] }

/-- Merge what came out and run the dictionary pass. -/
def finishDirectory (walked : Nat × WriterState) (results : List ChunkedFileResult) :
    WriterState :=
  trainAndApplyDictionary env config.dictionaries
    (mergeFiles env (afterWalk config walked) (walked.2.pendingFiles.zip results))

end

section

variable {env : WriterEnv} {config : WriteConfig} {sched : Schedule}
  {tree : SourceTree env.readFile} {chunker : ParallelFastCDC} {registry : CodecRegistry}
  {walked : Nat × WriterState}

theorem setThreshold_self {s : WriterState} {threshold : Nat} (h : s.inlineThreshold = threshold) :
    { s with inlineThreshold := threshold } = s := by
  subst h
  rfl

theorem walked_directory
    (hwalk : foldSurvey env tree.root none tree.survey (walkStart config) = .ok walked) :
    Walked (tree.survey.files tree.root) (walkStart config) walked.2 :=
  foldSurvey_walked _ _ _ _ _ _ hwalk

theorem streaming_walk
    (hwalk : foldSurvey env tree.root none tree.survey (walkStart config) = .ok walked)
    (codec : UInt8) :
    foldSurvey env tree.root none tree.survey
        ((directorySettings config codec).apply (walkStart config))
      = .ok (walked.1, (directorySettings config codec).apply walked.2) := by
  rw [foldSurvey_apply, hwalk]
  rfl

theorem walked_of_apply {codec : UInt8} {walked' : Nat × WriterState}
    (h : foldSurvey env tree.root none tree.survey
      ((directorySettings config codec).apply (walkStart config)) = .ok walked') :
    ∃ walked, foldSurvey env tree.root none tree.survey (walkStart config) = .ok walked := by
  rw [foldSurvey_apply] at h
  cases hwalk : foldSurvey env tree.root none tree.survey (walkStart config) with
  | ok walked => exact ⟨walked, rfl⟩
  | error e =>
      rw [hwalk] at h
      cases h

/-- The streaming writer, once the configuration is opened and the tree walked. -/
theorem writeDirectoryStreaming_eq (hchunker : chunkerFromConfig config = .ok chunker)
    (hregistry : openRegistry config = .ok registry)
    (hwalk : foldSurvey env tree.root none tree.survey (walkStart config) = .ok walked) :
    writeDirectoryStreaming env config (fun _ _ => .empty) .sequential tree
        (directoryStart config)
      = (walked.2.pendingFiles.zipIdx.mapM (processNumbered env (fun _ _ => .empty)
          (processOptions config chunker registry none inlineThresholdDefault))).map
        (finishDirectory env config walked) := by
  unfold writeDirectoryStreaming
  rw [hchunker, hregistry]
  show (foldSurvey env tree.root none tree.survey
    ((directorySettings config (unwrapOr config.metadataCodecId codecBrotli)).apply
      (walkStart config)) >>= _) = _
  rw [streaming_walk hwalk]
  show (mergeInOrder env (parallelMap .sequential (fun t => (t.1, processNumbered env
      (fun _ _ => .empty) (processOptions config chunker registry none inlineThresholdDefault) t))
    walked.2.pendingFiles.zipIdx) (afterWalk config walked) >>= _) = _
  rw [parallelMap_eq_map, mergeInOrder_eq_mapM, List.zipIdx_map_fst]
  cases walked.2.pendingFiles.zipIdx.mapM (processNumbered env (fun _ _ => .empty)
      (processOptions config chunker registry none inlineThresholdDefault)) with
  | error e => rfl
  | ok results => rfl

/-- The other one, if there are files to compress. -/
theorem writeDirectoryBatch_eq (hchunker : chunkerFromConfig config = .ok chunker)
    (hregistry : openRegistry config = .ok registry)
    (hwalk : foldSurvey env tree.root none tree.survey (walkStart config) = .ok walked)
    (hpending : walked.2.pendingFiles ≠ []) :
    writeDirectoryBatch env config (fun _ _ => .empty) sched tree
      = (parallelCollect sched (processNumbered env (fun _ _ => .empty)
          (processOptions config chunker registry none config.defaults.inlineThreshold))
          walked.2.pendingFiles.zipIdx).map (finishDirectory env config walked) := by
  have hwalked := walked_directory hwalk
  have hthreshold : (afterWalk config walked).inlineThreshold = config.defaults.inlineThreshold :=
    hwalked.inlineThreshold
  have hbase : walked.2.baseDropIndex = none := hwalked.baseDropIndex
  unfold writeDirectoryBatch writeLayer
  show (foldSurvey env tree.root none tree.survey
    ((directorySettings config codecBrotli).apply (walkStart config)) >>= _) = _
  rw [streaming_walk hwalk]
  show (chunkerFromConfig config >>= _) = _
  rw [hchunker]
  show (if walked.2.pendingFiles.isEmpty = true then _ else openRegistry config >>= _) = _
  rw [if_neg (by simpa using hpending), hregistry]
  show (parallelCollect sched (processNumbered env (fun _ _ => .empty) (processOptions config
    chunker registry walked.2.baseDropIndex config.defaults.inlineThreshold))
    walked.2.pendingFiles.zipIdx >>= _) = _
  rw [hbase]
  cases parallelCollect sched (processNumbered env (fun _ _ => .empty) (processOptions config
      chunker registry none config.defaults.inlineThreshold)) walked.2.pendingFiles.zipIdx with
  | error e => rfl
  | ok results =>
      refine congrArg (fun s => Except.ok (trainAndApplyDictionary env config.dictionaries
        (mergeFiles env s (walked.2.pendingFiles.zip results)))) ?_
      exact setThreshold_self hthreshold

theorem writeDirectoryBatch_nil (hchunker : chunkerFromConfig config = .ok chunker)
    (hwalk : foldSurvey env tree.root none tree.survey (walkStart config) = .ok walked)
    (hpending : walked.2.pendingFiles = []) :
    writeDirectoryBatch env config (fun _ _ => .empty) sched tree
      = .ok (afterWalk config walked) := by
  unfold writeDirectoryBatch writeLayer
  show (foldSurvey env tree.root none tree.survey
    ((directorySettings config codecBrotli).apply (walkStart config)) >>= _) = _
  rw [streaming_walk hwalk]
  show (chunkerFromConfig config >>= _) = _
  rw [hchunker]
  show (if walked.2.pendingFiles.isEmpty = true then _ else _) = _
  rw [if_pos (by simpa using hpending)]
  rfl

theorem context_self {ctx : WriteContext} (hdrops : ctx.drops = [])
    (hdicts : ctx.trainedDicts = .none) :
    { ctx with drops := [], trainedDicts := .none } = ctx := by
  obtain ⟨⟩ := ctx
  cases hdrops
  cases hdicts
  rfl

theorem applyDictionaries_nil {s : WriterState} (dicts : TrainedDicts) (hdrops : s.drops = [])
    (hdicts : s.trainedDicts = .none) :
    (applyDictionaries env s dicts).toWriteContext = s.toWriteContext := by
  have hpay : ¬ dictionariesPay env.z env.classify dicts [] := by
    unfold dictionariesPay
    simp
  unfold applyDictionaries applyTrainedDictionaries
  rw [hdrops, if_neg hpay]
  exact context_self hdrops hdicts

theorem trainAndApplyDictionary_nil {s : WriterState} (dictionaries : DictionaryConfig)
    (hdrops : s.drops = []) (hdicts : s.trainedDicts = .none) :
    (trainAndApplyDictionary env dictionaries s).toWriteContext = s.toWriteContext := by
  unfold trainAndApplyDictionary
  split
  · show { s.toWriteContext with drops := s.drops.map releaseSample } = s.toWriteContext
    rw [hdrops]
    exact Eq.trans (by rw [← hdicts]; rfl) (context_self hdrops hdicts)
  · split
    · exact applyDictionaries_nil (s := { s with baseDictionaries := none }) _ hdrops hdicts
    · exact applyDictionaries_nil _ hdrops hdicts

end

end LimniFS
