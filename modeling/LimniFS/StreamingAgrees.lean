/-
Two ways to write a directory.

A standalone image compresses files while the tree is walked; the same image can be made
by walking first and compressing afterwards, as a layer is.  The two are meant to give
the same bytes.

They differ in three places.  The workers of the streaming writer get the inline
threshold from before the configuration was applied, so with chunking switched off a
file between the two thresholds is chunked by one and stored whole by the other.  When
several files fail, the streaming writer reports the first in the order of the walk, the
other whichever failed first.  And the streaming writer opens the codec registry before
it walks, the other only if some file was put off.

`streaming_agrees_iff` says that these are all: where no file lies between the thresholds, or
one fails anyway, the two agree on every run exactly if they open the configuration alike and
the files that fail, fail alike.
-/
import LimniFS.DirectoryWriters
import LimniFS.WriteHistory

namespace LimniFS

open Lib

/-! ### Where they may differ -/

section

variable (env : WriterEnv) (config : WriteConfig) (tree : SourceTree env.readFile)

/-- What the first file that fails, in the order of the walk, fails with. -/
def firstFailing (o : ProcessOptions) (files : List PendingFile) : Option WriteStop :=
  files.findSome? (fileFailure env o)

/-- Where the work begins and no file fails: with chunking switched off, no file that was put off is
as short as the default threshold. -/
def GatesAgree : Prop :=
  config.skipChunking = true →
    ∀ job, EntryPoint.layer.work env config tree (applyDefaults config (directoryStart config))
        = .ok job →
      (∀ pf ∈ job.files, fileFailure env job.options pf = none) →
      ∀ pf ∈ job.files, ∀ data, env.readFile pf.path = .ok data →
        inlineThresholdDefault < data.length

/-- Both writers open the configuration alike: it is good; or the walk succeeds and the other one
gets as far as to find what is wrong; or the walk fails with the very same error. -/
def OpenAlike : Prop :=
  ((∃ chunker, chunkerFromConfig config = .ok chunker) ∧
    ∃ registry, openRegistry config = .ok registry) ∨
  (∃ walked, foldSurvey env tree.root none tree.survey
      (applyDefaults config (directoryStart config)) = .ok walked ∧
    ((∃ e, chunkerFromConfig config = .error e) ∨ walked.2.pendingFiles ≠ [])) ∨
  ∃ e, foldSurvey env tree.root none tree.survey
      (applyDefaults config (directoryStart config)) = .error e ∧
    (chunkerFromConfig config = .error e ∨
      (∃ chunker, chunkerFromConfig config = .ok chunker) ∧ openRegistry config = .error e)

/-- What the files fail with that the one fails on is what the first file fails with that the
streaming one, with its threshold, fails on. -/
def FailAlike : Prop :=
  ∀ job, EntryPoint.layer.work env config tree (applyDefaults config (directoryStart config))
      = .ok job →
    ∀ e, (∃ pf ∈ job.files, fileFailure env job.options pf = some e) ↔
      firstFailing env { job.options with inlineThreshold := inlineThresholdDefault } job.files
        = some e

end

section

variable {env : WriterEnv} {config : WriteConfig} {sched : Schedule}
  {tree : SourceTree env.readFile} {chunker : ParallelFastCDC} {registry : CodecRegistry}
  {walked : Nat × WriterState}

/-- What was put off is longer than the threshold of the configuration. -/
theorem pending_longer (hwalk : foldSurvey env tree.root none tree.survey (walkStart config) = .ok walked)
    {pf : PendingFile} (hpf : pf ∈ walked.2.pendingFiles) {data : Bytes}
    (hread : env.readFile pf.path = .ok data) : config.defaults.inlineThreshold < data.length := by
  rcases (walked_directory hwalk).pendingFiles pf hpf with hold | ⟨hlong, info, hfile, hlen⟩
  · cases hold
  · rw [tree.agrees _ hfile data hread, ← hlen]
    exact hlong

theorem exists_firstFailing {o : ProcessOptions} {files : List PendingFile} {pf : PendingFile}
    {e : WriteStop} (hpf : pf ∈ files) (he : fileFailure env o pf = some e) :
    ∃ e', firstFailing env o files = some e' := by
  refine Option.isSome_iff_exists.mp (List.findSome?_isSome_iff.mpr ⟨pf, hpf, ?_⟩)
  rw [he]
  rfl

theorem mem_of_numbered {files : List PendingFile} {t : PendingFile × Nat} (ht : t ∈ files.zipIdx) :
    t.1 ∈ files :=
  (List.mem_zipIdx' ht).2 ▸ List.getElem_mem _

theorem mapM_firstFailing {o : ProcessOptions} {files : List PendingFile} {e : WriteStop} :
    files.zipIdx.mapM (processNumbered env (fun _ _ => .empty) o) = .error e ↔
      firstFailing env o files = some e := by
  have hmap : files.findSome? (fileFailure env o)
      = files.zipIdx.findSome? fun t : PendingFile × Nat => fileFailure env o t.1 := by
    rw [← List.zipIdx_map_fst 0 files, List.findSome?_map, List.zipIdx_map_fst]
    rfl
  unfold firstFailing
  rw [hmap]
  exact mapM_error_iff fun t _ e => processFile_error_iff

theorem batch_work_eq (hchunker : chunkerFromConfig config = .ok chunker)
    (hregistry : openRegistry config = .ok registry)
    (hwalk : foldSurvey env tree.root none tree.survey (walkStart config) = .ok walked) :
    EntryPoint.layer.work env config tree (applyDefaults config (directoryStart config))
      = .ok ⟨processOptions config chunker registry none config.defaults.inlineThreshold,
          walked.2.pendingFiles⟩ := by
  have hbase : walked.2.baseDropIndex = none := (walked_directory hwalk).baseDropIndex
  unfold EntryPoint.work
  show (foldSurvey env tree.root none tree.survey
    ((directorySettings config codecBrotli).apply (walkStart config)) >>= _) = _
  rw [streaming_walk hwalk]
  show (chunkerFromConfig config >>= _) = _
  rw [hchunker]
  show (openRegistry config >>= _) = _
  rw [hregistry]
  show Except.ok (Work.mk (processOptions config chunker registry walked.2.baseDropIndex
    config.defaults.inlineThreshold) walked.2.pendingFiles) = _
  rw [hbase]

/-- Files that are put off where none fails. -/
theorem collected_eq (hgate : GatesAgree env config tree)
    (hchunker : chunkerFromConfig config = .ok chunker)
    (hregistry : openRegistry config = .ok registry)
    (hwalk : foldSurvey env tree.root none tree.survey (walkStart config) = .ok walked)
    (hnone : ∀ pf ∈ walked.2.pendingFiles, fileFailure env
      (processOptions config chunker registry none config.defaults.inlineThreshold) pf = none) :
    walked.2.pendingFiles.zipIdx.mapM (processNumbered env (fun _ _ => .empty)
        (processOptions config chunker registry none inlineThresholdDefault))
      = walked.2.pendingFiles.zipIdx.mapM (processNumbered env (fun _ _ => .empty)
        (processOptions config chunker registry none config.defaults.inlineThreshold)) := by
  refine mapM_congr fun t ht => ?_
  have hpf : t.1 ∈ walked.2.pendingFiles := mem_of_numbered ht
  refine processFile_threshold (o := processOptions config chunker registry none
    config.defaults.inlineThreshold) fun data hread hskip => ?_
  have hdefault := hgate hskip _ (batch_work_eq hchunker hregistry hwalk) hnone t.1 hpf data hread
  exact iff_of_true hdefault (pending_longer hwalk hpf hread)

/-- **With a good configuration**, and the failures alike, the two come to the same. -/
theorem streaming_eq_batch (hgate : GatesAgree env config tree)
    (hchunker : chunkerFromConfig config = .ok chunker)
    (hregistry : openRegistry config = .ok registry) (hfail : FailAlike env config tree) :
    assembled env (writeDirectoryStreaming env config (fun _ _ => .empty) .sequential tree
        (directoryStart config))
      = assembled env (writeDirectoryBatch env config (fun _ _ => .empty) sched tree) := by
  cases hwalk : foldSurvey env tree.root none tree.survey (walkStart config) with
  | error e =>
      have hfails : ∀ codec, foldSurvey env tree.root none tree.survey
          ((directorySettings config codec).apply (walkStart config)) = .error e := by
        intro codec
        rw [foldSurvey_apply, hwalk]
        rfl
      have hstream : writeDirectoryStreaming env config (fun _ _ => .empty) .sequential tree
          (directoryStart config) = .error e := by
        unfold writeDirectoryStreaming
        rw [hchunker, hregistry]
        show (foldSurvey env tree.root none tree.survey
          ((directorySettings config (unwrapOr config.metadataCodecId codecBrotli)).apply
            (walkStart config)) >>= _) = _
        rw [hfails]
        rfl
      have hbatch : writeDirectoryBatch env config (fun _ _ => .empty) sched tree = .error e := by
        unfold writeDirectoryBatch writeLayer
        show (foldSurvey env tree.root none tree.survey
          ((directorySettings config codecBrotli).apply (walkStart config)) >>= _) = _
        rw [hfails]
        rfl
      rw [hstream, hbatch]
  | ok walked =>
      rw [writeDirectoryStreaming_eq hchunker hregistry hwalk]
      by_cases hpending : walked.2.pendingFiles = []
      · rw [writeDirectoryBatch_nil hchunker hwalk hpending, hpending]
        refine congrArg (fun ctx => Except.ok (assemble env.H env.z ctx)) ?_
        unfold finishDirectory
        rw [hpending]
        exact trainAndApplyDictionary_nil _ (walked_directory hwalk).drops rfl
      · have hiff : ∀ e, (∃ pf ∈ walked.2.pendingFiles, fileFailure env (processOptions config chunker
              registry none config.defaults.inlineThreshold) pf = some e) ↔
            firstFailing env (processOptions config chunker registry none inlineThresholdDefault)
              walked.2.pendingFiles = some e := hfail _ (batch_work_eq hchunker hregistry hwalk)
        -- all that fail, fail with what the first one does
        have hone : parallelCollect sched (processNumbered env (fun _ _ => .empty)
              (processOptions config chunker registry none config.defaults.inlineThreshold))
              walked.2.pendingFiles.zipIdx
            = walked.2.pendingFiles.zipIdx.mapM (processNumbered env (fun _ _ => .empty)
              (processOptions config chunker registry none config.defaults.inlineThreshold)) := by
          refine parallelCollect_eq_mapM sched fun t ht t' ht' e e' he he' => ?_
          have hfirst := (hiff e).mp ⟨t.1, mem_of_numbered ht, processFile_error_iff.mp he⟩
          have hfirst' := (hiff e').mp ⟨t'.1, mem_of_numbered ht', processFile_error_iff.mp he'⟩
          exact Option.some.inj (hfirst.symm.trans hfirst')
        rw [writeDirectoryBatch_eq hchunker hregistry hwalk hpending, hone]
        by_cases hfails : ∃ e, ∃ pf ∈ walked.2.pendingFiles, fileFailure env
            (processOptions config chunker registry none config.defaults.inlineThreshold) pf = some e
        · obtain ⟨e, pf, hpf, he⟩ := hfails
          obtain ⟨e', hfirst'⟩ := exists_firstFailing hpf he
          obtain ⟨pf', hpf', he'⟩ := List.exists_of_findSome?_eq_some hfirst'
          rw [mapM_firstFailing.mpr ((hiff e').mp ⟨pf', hpf', he'⟩), mapM_firstFailing.mpr hfirst']
        · have hnone : ∀ pf ∈ walked.2.pendingFiles, fileFailure env (processOptions config chunker
              registry none config.defaults.inlineThreshold) pf = none :=
            fun pf hpf => Option.eq_none_iff_forall_ne_some.mpr fun e he => hfails ⟨e, pf, hpf, he⟩
          rw [collected_eq hgate hchunker hregistry hwalk hnone]

theorem streaming_of_chunker_error {workers : Workers env} {e : WriteStop}
    (hchunker : chunkerFromConfig config = .error e) :
    writeDirectoryStreaming env config workers sched tree (directoryStart config) = .error e := by
  unfold writeDirectoryStreaming
  rw [hchunker]
  rfl

theorem streaming_of_registry_error {workers : Workers env} {e : WriteStop}
    (hchunker : chunkerFromConfig config = .ok chunker)
    (hregistry : openRegistry config = .error e) :
    writeDirectoryStreaming env config workers sched tree (directoryStart config) = .error e := by
  unfold writeDirectoryStreaming
  rw [hchunker, hregistry]
  rfl

theorem batch_of_walk_error {workers : Workers env} {e : WriteStop}
    (hwalk : foldSurvey env tree.root none tree.survey
      (applyDefaults config (directoryStart config)) = .error e) :
    writeDirectoryBatch env config workers sched tree = .error e := by
  unfold writeDirectoryBatch writeLayer
  rw [hwalk]
  rfl

theorem batch_of_chunker_error {workers : Workers env} {e : WriteStop}
    (hwalk : foldSurvey env tree.root none tree.survey
      (applyDefaults config (directoryStart config)) = .ok walked)
    (hchunker : chunkerFromConfig config = .error e) :
    writeDirectoryBatch env config workers sched tree = .error e := by
  unfold writeDirectoryBatch writeLayer writeDirectoryBody
  rw [hwalk, hchunker]
  rfl

/-- The registry is only opened for files. -/
theorem batch_of_registry_error {workers : Workers env} {e : WriteStop}
    (hwalk : foldSurvey env tree.root none tree.survey
      (applyDefaults config (directoryStart config)) = .ok walked)
    (hchunker : chunkerFromConfig config = .ok chunker)
    (hregistry : openRegistry config = .error e) :
    (walked.2.pendingFiles ≠ [] →
      writeDirectoryBatch env config workers sched tree = .error e) ∧
    (walked.2.pendingFiles = [] →
      ∃ s, writeDirectoryBatch env config workers sched tree = .ok s) := by
  unfold writeDirectoryBatch writeLayer
  rw [hwalk]
  show (_ → (chunkerFromConfig config >>= _) = _) ∧ (_ → ∃ s, (chunkerFromConfig config >>= _) = _)
  rw [hchunker]
  show (_ → (if walked.2.pendingFiles.isEmpty = true then _ else openRegistry config >>= _) = _) ∧
    (_ → ∃ s, (if walked.2.pendingFiles.isEmpty = true then _ else _) = _)
  constructor
  · intro hpending
    rw [if_neg (by simpa using hpending), hregistry]
    rfl
  · intro hpending
    rw [if_pos (by simpa using hpending)]
    exact ⟨_, rfl⟩

theorem streaming_eq_batch_of_open (hgate : GatesAgree env config tree)
    (hopen : OpenAlike env config tree) (hfail : FailAlike env config tree) :
    assembled env (writeDirectoryStreaming env config (fun _ _ => .empty) .sequential tree
        (directoryStart config))
      = assembled env (writeDirectoryBatch env config (fun _ _ => .empty) sched tree) := by
  rcases hopen with ⟨⟨chunker, hchunker⟩, registry, hregistry⟩ | ⟨walked, hwalk, hbad⟩ |
    ⟨e, hwalk, hbad⟩
  · exact streaming_eq_batch hgate hchunker hregistry hfail
  · cases hchunker : chunkerFromConfig config with
    | error e =>
        rw [streaming_of_chunker_error hchunker, batch_of_chunker_error hwalk hchunker]
    | ok chunker =>
        have hpending : walked.2.pendingFiles ≠ [] := by
          rcases hbad with ⟨e, hbad⟩ | hpending
          · rw [hchunker] at hbad
            cases hbad
          · exact hpending
        cases hregistry : openRegistry config with
        | ok registry => exact streaming_eq_batch hgate hchunker hregistry hfail
        | error e =>
            rw [streaming_of_registry_error hchunker hregistry,
              (batch_of_registry_error hwalk hchunker hregistry).1 hpending]
  · rw [batch_of_walk_error hwalk]
    rcases hbad with hchunker | ⟨⟨chunker, hchunker⟩, hregistry⟩
    · rw [streaming_of_chunker_error hchunker]
    · rw [streaming_of_registry_error hchunker hregistry]

theorem openAlike_of_agree (h : ∀ e, (chunkerFromConfig config = .error e ∨
      (∃ chunker, chunkerFromConfig config = .ok chunker) ∧ openRegistry config = .error e) →
      assembled env (writeDirectoryBatch env config (fun _ _ => .empty) .sequential tree)
        = .error e) : OpenAlike env config tree := by
  cases hchunker : chunkerFromConfig config with
  | error e =>
      have hbatch := h e (.inl hchunker)
      cases hwalk : foldSurvey env tree.root none tree.survey
          (applyDefaults config (directoryStart config)) with
      | ok walked => exact .inr (.inl ⟨walked, hwalk, .inl ⟨e, hchunker⟩⟩)
      | error e' =>
          rw [batch_of_walk_error hwalk] at hbatch
          cases hbatch
          exact .inr (.inr ⟨e, hwalk, .inl hchunker⟩)
  | ok chunker =>
      cases hregistry : openRegistry config with
      | ok registry => exact .inl ⟨⟨chunker, hchunker⟩, registry, hregistry⟩
      | error e =>
          have hbatch := h e (.inr ⟨⟨chunker, hchunker⟩, hregistry⟩)
          cases hwalk : foldSurvey env tree.root none tree.survey
              (applyDefaults config (directoryStart config)) with
          | ok walked =>
              refine .inr (.inl ⟨walked, hwalk, .inr ?_⟩)
              intro hpending
              obtain ⟨s, hs⟩ :=
                (batch_of_registry_error hwalk hchunker hregistry).2 hpending
              rw [hs] at hbatch
              cases hbatch
          | error e' =>
              rw [batch_of_walk_error hwalk] at hbatch
              cases hbatch
              exact .inr (.inr ⟨e, hwalk, .inr ⟨⟨chunker, hchunker⟩, hregistry⟩⟩)

end

/-- A write in a new process whose threads are done in the order of `sched`. -/
def newRun (env : WriterEnv) (work : Except WriteStop Work) (sched : Schedule) : Run env work where
  past := []
  pool := fun _ => .empty
  held := .start
  workers := fun _ _ => .empty
  grown := fun _ _ _ _ => ⟨0, .held⟩
  sched := sched

section

variable {env : WriterEnv} {work : Except WriteStop Work} {sched : Schedule}

theorem newRun_consistent : (newRun env work sched).Consistent := by
  intro job _ write hwrite
  cases hwrite

/-- No two chunks that a new process compresses have one id. -/
theorem newRun_noCollision (h : ∀ job, work = .ok job → NoCollision env.H (job.chunks env)) :
    (newRun env work sched).NoCollision := by
  intro job hjob
  exact (List.append_nil _).symm ▸ h job hjob

end

/-- **The streaming writer and the one that walks first agree on every run**: one artifact, or one
error. -/
def WritersAgree (env : WriterEnv) (config : WriteConfig) (tree : SourceTree env.readFile) : Prop :=
  ∀ (run : Run env (EntryPoint.directory.work env config tree (directoryStart config)))
    (run' : Run env (EntryPoint.layer.work env config tree
      (applyDefaults config (directoryStart config)))),
    run.Consistent → run.NoCollision → run'.Consistent → run'.NoCollision →
    assembled env (writeDirectoryStreaming env config run.workers run.sched tree
        (directoryStart config))
      = assembled env (writeDirectoryBatch env config run'.workers run'.sched tree)

section

variable {env : WriterEnv} {config : WriteConfig} {tree : SourceTree env.readFile}

/-- Which failure is reported shows how the files fail. -/
theorem failAlike_of_agree {chunker : ParallelFastCDC} {registry : CodecRegistry}
    {walked : Nat × WriterState} (hchunker : chunkerFromConfig config = .ok chunker)
    (hregistry : openRegistry config = .ok registry)
    (hwalk : foldSurvey env tree.root none tree.survey (walkStart config) = .ok walked)
    (hagree : ∀ sched, assembled env (writeDirectoryStreaming env config (fun _ _ => .empty)
        .sequential tree (directoryStart config))
      = assembled env (writeDirectoryBatch env config (fun _ _ => .empty) sched tree)) :
    FailAlike env config tree := by
  intro job hjob
  rw [batch_work_eq hchunker hregistry hwalk] at hjob
  cases hjob
  have hstream : ∀ e, assembled env (writeDirectoryStreaming env config (fun _ _ => .empty)
        .sequential tree (directoryStart config)) = .error e ↔
      firstFailing env (processOptions config chunker registry none inlineThresholdDefault)
        walked.2.pendingFiles = some e := by
    intro e
    rw [writeDirectoryStreaming_eq hchunker hregistry hwalk, ← mapM_firstFailing]
    cases walked.2.pendingFiles.zipIdx.mapM (processNumbered env (fun _ _ => .empty)
        (processOptions config chunker registry none inlineThresholdDefault)) with
    | error e' => exact ⟨fun h => (by cases h; rfl), fun h => (by cases h; rfl)⟩
    | ok results => exact ⟨fun h => (by cases h), fun h => (by cases h)⟩
  -- any failure of the other is reported where its file is done first
  have hreport : ∀ pf ∈ walked.2.pendingFiles, ∀ e,
      fileFailure env (processOptions config chunker registry none
        config.defaults.inlineThreshold) pf = some e →
      firstFailing env (processOptions config chunker registry none inlineThresholdDefault)
        walked.2.pendingFiles = some e := by
    intro pf hpf e he
    obtain ⟨i, hi, rfl⟩ := List.getElem_of_mem hpf
    have htask : walked.2.pendingFiles.zipIdx[i]? = some (walked.2.pendingFiles[i], i) := by
      rw [List.getElem?_zipIdx, List.getElem?_eq_getElem hi]
      simp
    rw [← hstream, hagree (.startingWith i),
      writeDirectoryBatch_eq hchunker hregistry hwalk (List.ne_nil_of_mem hpf),
      parallelCollect_startingWith htask (processFile_error_iff.mpr he)]
    rfl
  intro e
  refine ⟨?_, fun hfirst => ?_⟩
  · rintro ⟨pf, hpf, he⟩
    exact hreport pf hpf e he
  · obtain ⟨pf₀, hpf₀, -⟩ := List.exists_of_findSome?_eq_some hfirst
    have hbatch := (hstream e).mpr hfirst
    rw [hagree .sequential, writeDirectoryBatch_eq hchunker hregistry hwalk
      (List.ne_nil_of_mem hpf₀)] at hbatch
    -- what is reported is what a file fails with
    cases hcollect : parallelCollect .sequential (processNumbered env (fun _ _ => .empty)
        (processOptions config chunker registry none config.defaults.inlineThreshold))
        walked.2.pendingFiles.zipIdx with
    | ok results =>
        rw [hcollect] at hbatch
        cases hbatch
    | error e' =>
        rw [hcollect] at hbatch
        cases hbatch
        obtain ⟨t, ht, hrun⟩ := exists_of_parallelCollect_error hcollect
        exact ⟨t.1, mem_of_numbered ht, processFile_error_iff.mp hrun⟩

/--
**Where no file lies between the thresholds, or one fails, the two writers agree exactly if they
open the configuration alike and the files that fail, fail alike.**  For every tree and
configuration: on every run of either, whatever order the workers finish in and whatever
the caches hold from before (as long as it is what this configuration would make), the
manifest, the sidecar and the slabs are the same, or the same error is reported.
-/
theorem streaming_agrees_iff (hgate : GatesAgree env config tree)
    (hcol : ∀ job, EntryPoint.directory.work env config tree (directoryStart config) = .ok job ∨
      EntryPoint.layer.work env config tree (applyDefaults config (directoryStart config)) = .ok job →
      NoCollision env.H (job.chunks env)) :
    WritersAgree env config tree ↔ OpenAlike env config tree ∧ FailAlike env config tree := by
  constructor
  · intro hagree
    have hnew : ∀ sched, assembled env (writeDirectoryStreaming env config (fun _ _ => .empty)
          .sequential tree (directoryStart config))
        = assembled env (writeDirectoryBatch env config (fun _ _ => .empty) sched tree) :=
      fun sched => hagree (newRun env _ .sequential) (newRun env _ sched) newRun_consistent
        (newRun_noCollision fun job hjob => hcol job (.inl hjob)) newRun_consistent
        (newRun_noCollision fun job hjob => hcol job (.inr hjob))
    refine ⟨openAlike_of_agree ?_, ?_⟩
    · intro e hbad
      rw [← hnew .sequential]
      rcases hbad with hchunker | ⟨⟨chunker, hchunker⟩, hregistry⟩
      · rw [streaming_of_chunker_error hchunker]
        rfl
      · rw [streaming_of_registry_error hchunker hregistry]
        rfl
    · intro job hjob
      obtain ⟨walked', hwalk', hjob'⟩ := except_bind_eq_ok.mp hjob
      obtain ⟨chunker, hchunker, hjob'⟩ := except_bind_eq_ok.mp hjob'
      obtain ⟨registry, hregistry, -⟩ := except_bind_eq_ok.mp hjob'
      obtain ⟨walked, hwalk⟩ := walked_of_apply hwalk'
      exact failAlike_of_agree hchunker hregistry hwalk hnew job hjob
  · rintro ⟨hopen, hfail⟩ run run' hcons hfree hcons' hfree'
    have hstream := writeDirectoryStreaming_of_agrees run.sched (run.agrees hcons hfree)
    have hbatch := writeLayer_of_agrees run'.sched (run'.agrees hcons' hfree')
    rw [hstream]
    unfold writeDirectoryBatch
    rw [hbatch]
    exact streaming_eq_batch_of_open hgate hopen hfail

end

namespace Stored

/-- Chunking switched off, and no file kept inline. -/
def unchunkedConfig : WriteConfig := { writeConfig with skipChunking := true }

/-- The chunks of the two files. -/
def treeChunks : List Bytes := [[1, 2, 3], [4, 5], [6, 7], [8], [1, 2, 3], [4, 9]]

end Stored

open LimniFS.Stored

theorem ne_of_slabs_ne {x y : Except WriteStop (Option WriteArtifact)}
    (h : (x.toOption.join.bind fun a => y.toOption.join.map fun a' =>
      decide (a.slabs.map (·.bytes) ≠ a'.slabs.map (·.bytes))) = some true) : x ≠ y := by
  obtain ⟨a, a', hx, hy, hne⟩ := exists_slabs_ne h
  rintro rfl
  rw [hx] at hy
  cases hy
  exact hne rfl

/-- Files of five and eight bytes are chunked by one writer and stored whole by the other. -/
theorem threshold_changes_slabs :
    ¬ WritersAgree writerEnv unchunkedConfig sourceTree := by
  intro hagree
  have hsame := hagree (newRun _ _ .sequential) (newRun _ _ .sequential) newRun_consistent ?_
    newRun_consistent ?_
  · exact ne_of_slabs_ne (by decide +kernel) hsame
  · intro job hjob
    rw [chunks_of_toOption treeChunks (by decide +kernel) job hjob]
    decide +kernel
  · intro job hjob
    rw [chunks_of_toOption [] (by decide +kernel) job hjob]
    decide +kernel

/-- With chunking they are written alike. -/
theorem streaming_agrees_iff_chunked :
    WritersAgree writerEnv writeConfig sourceTree := by
  refine (streaming_agrees_iff ?_ ?_).mpr ⟨.inl ⟨⟨_, rfl⟩, _, rfl⟩, ?_⟩
  · intro hskip
    cases hskip
  · rintro job (hjob | hjob)
    · rw [chunks_of_toOption treeChunks (by decide +kernel) job hjob]
      decide +kernel
    · rw [chunks_of_toOption treeChunks (by decide +kernel) job hjob]
      decide +kernel
  · intro job hjob e
    have hnone : ((EntryPoint.layer.work writerEnv writeConfig sourceTree
        (applyDefaults writeConfig (directoryStart writeConfig))).toOption.map
        fun job => (job.files.all fun pf => (fileFailure writerEnv job.options pf).isNone) &&
          (firstFailing writerEnv { job.options with
            inlineThreshold := inlineThresholdDefault } job.files).isNone) = some true := by
      decide +kernel
    rw [hjob] at hnone
    obtain ⟨hfiles, hfirst⟩ := (Bool.and_eq_true _ _).mp (Option.some.inj hnone)
    refine iff_of_false ?_ ?_
    · rintro ⟨pf, hpf, he⟩
      have hfile := List.all_eq_true.mp hfiles pf hpf
      rw [he] at hfile
      cases hfile
    · intro he
      rw [he] at hfirst
      cases hfirst

end LimniFS
