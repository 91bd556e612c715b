/-
The image of the pipeline against that of the default writer.

The pipeline hands neither the metadata codec nor the metadata policy on, so its image
has Brotli metadata and the times, owners and permissions of the tree as it is.  Where
the default writer would have come to the same, a tree all of whose files are encoded
alike gives one and the same image, as long as the messages come in order.

`inline_encodes_alike` has both: file by file an exact condition, and what it comes to
for the image.
-/
import LimniFS.PipelineDelivery
import LimniFS.PipelineEncoding

namespace LimniFS

open Lib

/-! ### The metadata policy -/

/-- A pinned time, and owners and permissions made the same everywhere. -/
structure MetadataPolicy where
  pinMtimeNs : Option Nat
  normalizeIdentity : Bool

/-- The type as it is, the permissions one of three. -/
def canonicalMode (mode : Nat) : Nat :=
  let ty := mode &&& sIfmt
  let perms :=
    if ty = sIfdir then 0x1ED
    else if ty = sIflnk then 0x1FF
    else if ty = sIfreg ∧ mode &&& 0x49 ≠ 0 then 0x1ED
    else 0x1A4
  ty ||| perms

def MetadataPolicy.apply (policy : MetadataPolicy) (info : SurveyMeta) : SurveyMeta :=
  let info := { info with mtimeNs := policy.pinMtimeNs.getD info.mtimeNs }
  if policy.normalizeIdentity = true then
    { info with uid := 0, gid := 0, mode := canonicalMode info.mode }
  else info

mutual

def SurveyNode.under (policy : MetadataPolicy) : SurveyNode → SurveyNode
  | .node info children target => .node (policy.apply info) (children.under policy) target

def SurveyChildren.under (policy : MetadataPolicy) : SurveyChildren → SurveyChildren
  | .nil => .nil
  | .cons name child rest => .cons name (child.under policy) (rest.under policy)

end

section

variable {policy : MetadataPolicy}

theorem MetadataPolicy.apply_kind (info : SurveyMeta) : (policy.apply info).kind = info.kind := by
  unfold MetadataPolicy.apply
  split <;> rfl

theorem MetadataPolicy.apply_len (info : SurveyMeta) : (policy.apply info).len = info.len := by
  unfold MetadataPolicy.apply
  split <;> rfl

mutual

theorem SurveyNode.files_under : ∀ (node : SurveyNode) (path : Path),
    (node.under policy).files path = (node.files path).map fun f => (f.1, policy.apply f.2)
  | .node info children target, path => by
      unfold SurveyNode.under SurveyNode.files
      rw [SurveyChildren.files_under children path, policy.apply_kind, List.map_append]
      split <;> rfl

theorem SurveyChildren.files_under : ∀ (children : SurveyChildren) (path : Path),
    (children.under policy).files path
      = (children.files path).map fun f => (f.1, policy.apply f.2)
  | .nil, path => by
      unfold SurveyChildren.under SurveyChildren.files
      rfl
  | .cons name child rest, path => by
      unfold SurveyChildren.under SurveyChildren.files
      rw [SurveyNode.files_under child, SurveyChildren.files_under rest, List.map_append]

end

end

/-- The tree as the survey takes it down under a policy. -/
def SourceTree.under {readFile : Path → Except String Bytes} (policy : MetadataPolicy)
    (tree : SourceTree readFile) : SourceTree readFile where
  root := tree.root
  survey := tree.survey.under policy
  agrees := by
    rw [SurveyNode.files_under]
    intro f hf data hread
    obtain ⟨f', hf', rfl⟩ := List.mem_map.mp hf
    rw [policy.apply_len]
    exact tree.agrees f' hf' data hread
  len_lt := by
    rw [SurveyNode.files_under]
    intro f hf
    obtain ⟨f', hf', rfl⟩ := List.mem_map.mp hf
    rw [policy.apply_len]
    exact tree.len_lt f' hf'

/-! ### The two images -/

section

variable (env : WriterEnv) (config : WriteConfig)

/-- The default writer, in a process that wrote nothing before. -/
def writeDirectoryWithConfig (policy : MetadataPolicy) (tree : SourceTree env.readFile) :
    Except WriteStop (Option WriteArtifact) :=
  assembled env (writeDirectoryStreaming env config (fun _ _ => .empty) .sequential
    (tree.under policy) (directoryStart config))

/-- The messages come in the order of the files. -/
def InOrder (tree : SourceTree env.readFile) (received : List Bytes) : Prop :=
  ∀ walked, foldSurvey env tree.root none tree.survey (pipelineStart config) = .ok walked →
    pipelineItems env walked.2.pendingFiles = received.map some

/-- Nothing that is not handed on would have made a difference. -/
def MetadataAlike (policy : MetadataPolicy) (tree : SourceTree env.readFile) : Prop :=
  unwrapOr config.metadataCodecId codecBrotli = codecBrotli ∧
    tree.survey.under policy = tree.survey

/-- Every file that is put off and can be read is encoded alike. -/
def FilesAlike (o : ProcessOptions) (tree : SourceTree env.readFile) : Prop :=
  ∀ walked, foldSurvey env tree.root none tree.survey (pipelineStart config) = .ok walked →
    ∀ pf ∈ walked.2.pendingFiles, ∀ data, env.readFile pf.path = .ok data →
      EncodedAlike env o pf.path data

end

section

variable {env : WriterEnv} {config : WriteConfig} {tree : SourceTree env.readFile}
  {chunker : ParallelFastCDC} {registry : CodecRegistry} {walked : Nat × WriterState}

theorem under_eq {policy : MetadataPolicy} (h : tree.survey.under policy = tree.survey) :
    tree.under policy = tree := by
  obtain ⟨root, survey, _, _⟩ := tree
  unfold SourceTree.under
  simp only [SourceTree.mk.injEq, true_and]
  exact h

/-- In order, every file is encoded as the default writer encodes it. -/
theorem compressReceived_eq {o : ProcessOptions} (hbase : o.baseDropIndex = none) :
    ∀ (pending : List PendingFile) (received : List Bytes) (n : Nat),
      List.Forall₂ (fun pf data => env.readFile pf.path = .ok data ∧
        EncodedAlike env o pf.path data) pending received →
      compressReceived env o pending received
        = (pending.zipIdx n).mapM (processNumbered env (fun _ _ => .empty) o) := by
  intro pending
  induction pending with
  | nil => intro received n _; rfl
  | cons pf pending ih =>
      intro received n hall
      cases hall with
      | cons hfile hrest =>
          obtain ⟨hread, halike⟩ := hfile
          unfold compressReceived
          rw [(processFileInline_eq_iff hbase hread).mpr halike, ih _ (n + 1) hrest,
            List.zipIdx_cons, List.mapM_cons]
          rfl

/-- Without tournaments it does not matter that the registry is not opened. -/
theorem compressReceived_registry (registry : CodecRegistry) :
    ∀ (pending : List PendingFile) (received : List Bytes),
      compressReceived env (pipelineOptions config chunker) pending received
        = compressReceived env (processOptions config chunker registry none
          inlineThresholdDefault) pending received := by
  intro pending
  induction pending with
  | nil => intro received; rfl
  | cons pf pending ih =>
      intro received
      cases received with
      | nil => rfl
      | cons data received =>
          unfold compressReceived
          rw [ih]
          rfl

theorem writeDirectoryWithPipeline_eq
    (hcodec : unwrapOr config.metadataCodecId codecBrotli = codecBrotli)
    (hwalk : foldSurvey env tree.root none tree.survey (walkStart config) = .ok walked)
    (received : List Bytes) :
    writeDirectoryWithPipeline env config tree received
      = (pipelined env config walked.2.pendingFiles received).map
        (finishDirectory env config walked) := by
  unfold writeDirectoryWithPipeline finishDirectory afterWalk
  rw [hcodec]
  show (foldSurvey env tree.root none tree.survey
    ((directorySettings config codecBrotli).apply (walkStart config)) >>= _) = _
  rw [streaming_walk hwalk]
  show (pipelined env config walked.2.pendingFiles received >>= _) = _
  cases pipelined env config walked.2.pendingFiles received with
  | error e => rfl
  | ok results => rfl

/-- **In order, with every file encoded alike and nothing left out that would matter, the images
are the same.** -/
theorem pipelined_image_eq {policy : MetadataPolicy} {received : List Bytes}
    (hchunker : chunkerFromConfig config = .ok chunker)
    (hregistry : openRegistry config = .ok registry)
    (hmeta : MetadataAlike env config policy tree)
    (halike : FilesAlike env config
      (processOptions config chunker registry none inlineThresholdDefault) tree)
    (hinOrder : InOrder env config tree received) :
    assembled env (writeDirectoryWithPipeline env config tree received)
      = writeDirectoryWithConfig env config policy tree := by
  obtain ⟨hcodec, hpolicy⟩ := hmeta
  unfold writeDirectoryWithConfig
  rw [under_eq hpolicy]
  refine congrArg (assembled env) ?_
  cases hwalk : foldSurvey env tree.root none tree.survey (walkStart config) with
  | error e =>
      have hfail : ∀ codec, foldSurvey env tree.root none tree.survey
          ((directorySettings config codec).apply (walkStart config)) = .error e := by
        intro codec
        rw [foldSurvey_apply, hwalk]
        rfl
      unfold writeDirectoryWithPipeline writeDirectoryStreaming
      rw [hchunker, hregistry]
      show (foldSurvey env tree.root none tree.survey
        ((directorySettings config codecBrotli).apply (walkStart config)) >>= _)
        = (foldSurvey env tree.root none tree.survey
          ((directorySettings config (unwrapOr config.metadataCodecId codecBrotli)).apply
            (walkStart config)) >>= _)
      rw [hfail, hfail]
      rfl
  | ok walked =>
      have hread := read_of_items (hinOrder _ (streaming_walk hwalk codecBrotli))
      rw [writeDirectoryWithPipeline_eq hcodec hwalk,
        writeDirectoryStreaming_eq hchunker hregistry hwalk]
      refine congrArg (Except.map _) ?_
      unfold pipelined
      by_cases hempty : walked.2.pendingFiles.isEmpty = true
      · rw [if_pos hempty, List.isEmpty_iff.mp hempty]
        rfl
      · rw [if_neg hempty, hchunker]
        show compressReceived env (pipelineOptions config chunker) _ _ = _
        rw [compressReceived_registry registry]
        refine compressReceived_eq rfl _ _ 0 ?_
        refine (forall₂_and_mem_left hread).imp ?_
        intro pf data ⟨hdata, hpf⟩
        exact ⟨hdata, halike _ (streaming_walk hwalk codecBrotli) pf hpf data hdata⟩

/--
**The copy of `process_file` makes the same of a file exactly if the file is encoded
alike**: whatever the path, the bytes and the configuration, once its chunker and its
codecs are opened.  And if every file that is put off is encoded alike, the metadata is
stored with Brotli and the policy changes nothing, then with messages in order the image
is the one of the default writer.
-/
theorem inline_encodes_alike (policy : MetadataPolicy)
    (hchunker : chunkerFromConfig config = .ok chunker)
    (hregistry : openRegistry config = .ok registry) :
    (∀ (pf : PendingFile) (data : Bytes), env.readFile pf.path = .ok data →
      (processFileInline env (pipelineOptions config chunker) pf data
          = processFile env (processOptions config chunker registry none inlineThresholdDefault)
            (fun _ => .empty) pf ↔
        EncodedAlike env (processOptions config chunker registry none inlineThresholdDefault)
          pf.path data)) ∧
    (MetadataAlike env config policy tree →
      FilesAlike env config (processOptions config chunker registry none inlineThresholdDefault)
        tree →
      ∀ received, InOrder env config tree received →
        assembled env (writeDirectoryWithPipeline env config tree received)
          = writeDirectoryWithConfig env config policy tree) := by
  refine ⟨?_, ?_⟩
  · intro pf data hread
    show processFileInline env (processOptions config chunker registry none
      inlineThresholdDefault) pf data = _ ↔ _
    exact processFileInline_eq_iff rfl hread
  · intro hmeta halike received hinOrder
    exact pipelined_image_eq hchunker hregistry hmeta halike hinOrder

end

namespace Stored

/-- Text goes to LZ4, or to whoever wins a tournament of one. -/
def racedConfig : WriteConfig :=
  { codecConfig "lz4" with tournament := ⟨["brotli"], 0, true, 250⟩ }

/-- The file of letters, put off. -/
def lettersFile : PendingFile := ⟨2, [[0x61]], 0, 100, sIfreg, 0, 0⟩

end Stored

open LimniFS.Stored

/-- The letters are won by Brotli in one copy and go to LZ4 in the other. -/
theorem tournament_changes_drop :
    ¬ ∀ chunker registry, chunkerFromConfig racedConfig = .ok chunker →
      openRegistry racedConfig = .ok registry →
      ∀ pf data, lettersEnv.readFile pf.path = .ok data →
        processFileInline lettersEnv (pipelineOptions racedConfig chunker) pf data
          = processFile lettersEnv (processOptions racedConfig chunker registry none
            inlineThresholdDefault) (fun _ => .empty) pf := by
  intro hsame
  have hfile := hsame _ _ rfl rfl lettersFile letters rfl
  have hcodecs := congrArg (fun r => r.toOption.map fun r => r.drops.map (·.codec)) hfile
  exact absurd hcodecs (by decide +kernel)

/-- Below the smallest size for a tournament both images are the same. -/
theorem inline_encodes_alike_letters :
    assembled lettersEnv (writeDirectoryWithPipeline lettersEnv
        (codecConfig "brotli") lettersTree [letters])
      = writeDirectoryWithConfig lettersEnv (codecConfig "brotli") ⟨none, false⟩
        lettersTree := by
  refine (inline_encodes_alike ⟨none, false⟩ rfl rfl).2 ⟨by decide, rfl⟩ ?_ _ ?_
  · intro walked _ pf _ data hread
    have hletters : data = letters := by
      change (if pf.path = [[0x61]] then Except.ok letters else .error "No such file") = _
        at hread
      split at hread
      · exact (Except.ok.inj hread).symm
      · cases hread
    subst hletters
    show ∀ chunk ∈ uniqueChunks _ _ letters, ChunkAlike _ _ chunk
    intro chunk hchunk
    have hone : chunk = letters :=
      List.mem_singleton.mp (show chunk ∈ [letters] from hchunk)
    subst hone
    exact ⟨fun hraced => absurd hraced.2.2 (by decide), by decide +kernel⟩
  · intro walked hwalk
    have hitems : ((foldSurvey lettersEnv lettersTree.root none
        lettersTree.survey (pipelineStart (codecConfig "brotli"))).toOption.map
        fun walked => pipelineItems lettersEnv walked.2.pendingFiles)
          = some [some letters] := by
      decide +kernel
    rw [hwalk] at hitems
    exact Option.some.inj hitems

end LimniFS
