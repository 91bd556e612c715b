/-
Reproducible images.

Trees that are the same under a metadata policy are surveyed alike, up to the numbers of devices and
inodes.  The walk compares those numbers with each other and with nothing else: it keeps a table of
the files that it met, and finds in it under new numbers what it found under the old ones
(`foldSurvey_alike`).  What comes after the walk does not look at the table.  So the images are the
same, byte for byte (`reproducible`).
-/
import LimniFS.Survey

namespace LimniFS

open Lib

/-! ### The table of the files that were met -/

/-- The state with another table. -/
def WriterState.withTargets (s : WriterState) (targets : Nat × Nat → Option Nat) : WriterState :=
  { s with hardlinkTargets := targets }

/-- A table that finds under new numbers what the other finds under the old ones. -/
def Renumbered (renumber : Nat × Nat → Nat × Nat) (targets targets' : Nat × Nat → Option Nat) : Prop :=
  ∀ key, targets' (renumber key) = targets key

/-- One outcome, but for the table. -/
def AlikeOutcome {α : Type} (renumber : Nat × Nat → Nat × Nat) :
    Except WriteStop (α × WriterState) → Except WriteStop (α × WriterState) → Prop
  | .ok p, .ok p' => p'.1 = p.1 ∧ ∃ targets', p'.2 = p.2.withTargets targets' ∧
      Renumbered renumber p.2.hardlinkTargets targets'
  | .error e, .error e' => e' = e
  | _, _ => False

section

variable {env : WriterEnv} {renumber : Nat × Nat → Nat × Nat}
  {targets targets' : Nat × Nat → Option Nat} {info info' : SurveyMeta} {s : WriterState}

theorem Renumbered.set (h : Renumbered renumber targets targets') (hinj : Function.Injective renumber)
    (key : Nat × Nat) (number : Nat) :
    Renumbered renumber (setEntry targets key number) (setEntry targets' (renumber key) number) := by
  intro other
  unfold setEntry
  by_cases heq : other = key
  · rw [if_pos heq, if_pos (congrArg renumber heq)]
  · rw [if_neg heq, if_neg fun h => heq (hinj h)]
    exact h other

/-- Both fail alike, or both go on. -/
theorem AlikeOutcome.cases {α : Type} {r r' : Except WriteStop (α × WriterState)}
    (h : AlikeOutcome renumber r r') : (∃ e, r = .error e ∧ r' = .error e) ∨
      ∃ a t targets', r = .ok (a, t) ∧ r' = .ok (a, t.withTargets targets') ∧
        Renumbered renumber t.hardlinkTargets targets' := by
  cases r with
  | error e =>
      cases r' with
      | error e' => exact .inl ⟨e, rfl, congrArg _ h⟩
      | ok p' => exact h.elim
  | ok p =>
      cases r' with
      | error e' => exact h.elim
      | ok p' =>
          obtain ⟨a, t⟩ := p
          obtain ⟨a', t'⟩ := p'
          obtain ⟨ha, targets', ht, hnew⟩ := h
          cases ha
          cases ht
          exact .inr ⟨a, t, targets', rfl, rfl, hnew⟩

/-! ### The walk -/

theorem inodeOf_alike (h : info.Alike renumber info') (number : Nat) (content : PendingContent) :
    inodeOf number info' content = inodeOf number info content := by
  unfold inodeOf
  rw [h.mode, h.uid, h.gid, h.mtimeNs]

theorem noteXattrs_alike (h : info.Alike renumber info') (number : Nat) :
    noteXattrs (s.withTargets targets) number info' = (noteXattrs s number info).withTargets targets := by
  unfold noteXattrs
  rw [h.xattrs]
  by_cases hnone : info.xattrs = []
  · rw [if_pos hnone, if_pos hnone]
  · rw [if_neg hnone, if_neg hnone]
    rfl

theorem noteXattrs_targets (number : Nat) :
    (noteXattrs s number info).hardlinkTargets = s.hardlinkTargets := by
  unfold noteXattrs
  split <;> rfl

/-- A file is found under its new number, or it is new under both. -/
theorem foldFile_alike (hinj : Function.Injective renumber) (h : info.Alike renumber info')
    (hfile : info.kind = .file) (path : Path) (htargets : Renumbered renumber s.hardlinkTargets targets') :
    AlikeOutcome renumber (foldFile env path info s)
      (foldFile env path info' (s.withTargets targets')) := by
  obtain ⟨hlen, hkey⟩ := h.file hfile
  have hfound : (s.withTargets targets').hardlinkTargets (info'.dev, info'.ino)
      = s.hardlinkTargets (info.dev, info.ino) := by
    rw [hkey]
    exact htargets _
  unfold foldFile
  rw [hfound]
  cases s.hardlinkTargets (info.dev, info.ino) with
  | some existing => exact ⟨rfl, targets', rfl, htargets⟩
  | none =>
      have hset := htargets.set hinj (info.dev, info.ino) s.nextInode
      rw [← hkey] at hset
      -- the state in which the file is new
      obtain ⟨t, ht⟩ : ∃ t : WriterState, t = { s with
        fileCount := s.fileCount + 1
        nextInode := s.nextInode + 1
        hardlinkTargets := setEntry s.hardlinkTargets (info.dev, info.ino) s.nextInode } := ⟨_, rfl⟩
      have ht' : t.withTargets (setEntry targets' (info'.dev, info'.ino) s.nextInode)
          = { s.withTargets targets' with
              fileCount := s.fileCount + 1
              nextInode := s.nextInode + 1
              hardlinkTargets := setEntry targets' (info'.dev, info'.ino) s.nextInode } := by
        rw [ht]
        rfl
      have hnew : (noteXattrs t s.nextInode info).hardlinkTargets
          = setEntry s.hardlinkTargets (info.dev, info.ino) s.nextInode := by
        rw [noteXattrs_targets, ht]
      have hnoted := @noteXattrs_alike renumber
        (setEntry targets' (info'.dev, info'.ino) s.nextInode) info info' t h s.nextInode
      rw [ht'] at hnoted
      rw [ht] at hnoted hnew
      by_cases hshort : info.len ≤ s.inlineThreshold
      · have hshort' : info'.len ≤ (s.withTargets targets').inlineThreshold := by
          rw [hlen]
          exact hshort
        simp only
        rw [if_pos hshort, if_pos hshort']
        cases env.readFile path with
        | error e => exact rfl
        | ok data =>
            refine ⟨rfl, setEntry targets' (info'.dev, info'.ino) s.nextInode, ?_, ?_⟩
            · show addInode (noteXattrs _ s.nextInode info') (inodeOf s.nextInode info' (.inline data)) = _
              rw [inodeOf_alike h]
              exact congrArg (fun st => addInode st (inodeOf s.nextInode info (.inline data))) hnoted
            · rw [← hnew] at hset
              exact hset
      · have hlong' : ¬ info'.len ≤ (s.withTargets targets').inlineThreshold := by
          rw [hlen]
          exact hshort
        simp only
        rw [if_neg hshort, if_neg hlong', h.mtimeNs, hlen, h.mode, h.uid, h.gid]
        refine ⟨rfl, setEntry targets' (info'.dev, info'.ino) s.nextInode, ?_, ?_⟩
        · have hpending := congrArg (fun st : WriterState => { st with
            pendingFiles := st.pendingFiles ++ [(⟨s.nextInode, path, info.mtimeNs, info.len, info.mode,
              info.uid, info.gid⟩ : PendingFile)] }) hnoted
          exact hpending
        · rw [← hnew] at hset
          exact hset

theorem closeDirectory_alike (h : info.Alike renumber info') (number : Nat) (entries : List DirEntry)
    (htargets : Renumbered renumber s.hardlinkTargets targets') :
    AlikeOutcome renumber (closeDirectory env number info entries s)
      (closeDirectory env number info' entries (s.withTargets targets')) := by
  unfold closeDirectory
  simp only
  cases encodeDirNode env.H (sortEntries entries) with
  | none => exact rfl
  | some node =>
      refine ⟨rfl, targets', ?_, ?_⟩
      · have hnoted := @noteXattrs_alike renumber targets' info info'
          { s with dirNodes := s.dirNodes ++ [node] } h number
        show addInode (noteXattrs _ number info') (inodeOf number info' _) = _
        rw [inodeOf_alike h]
        exact congrArg (fun st => addInode st (inodeOf number info
          (.directory (sortEntries entries)))) hnoted
      · show Renumbered renumber (noteXattrs _ number info).hardlinkTargets targets'
        rw [noteXattrs_targets]
        exact htargets

theorem SurveyNode.Alike.symlinkTarget : ∀ {node node' : SurveyNode}, node.Alike renumber node' →
    node'.symlinkTarget = node.symlinkTarget
  | .node _ _ _, .node _ _ _, h => h.2.2

theorem SurveyNode.Alike.kind : ∀ {node node' : SurveyNode}, node.Alike renumber node' →
    node'.info.kind = node.info.kind
  | .node _ _ _, .node _ _ _, h => h.1.kind

mutual

/-- **The walk does the same over surveys that are alike.** -/
theorem foldSurvey_alike (hinj : Function.Injective renumber) : ∀ (node node' : SurveyNode)
    (path : Path) (target : Option Bytes) (s : WriterState) (targets' : Nat × Nat → Option Nat),
      node.Alike renumber node' → Renumbered renumber s.hardlinkTargets targets' →
      AlikeOutcome renumber (foldSurvey env path target node s)
        (foldSurvey env path target node' (s.withTargets targets'))
  | .node info children symlink, .node info' children' symlink', path, target, s, targets', h,
      htargets => by
      obtain ⟨hinfo, hchildren, -⟩ := h
      unfold foldSurvey
      cases target with
      | some target =>
          refine ⟨rfl, targets', ?_, htargets⟩
          simp only [inodeOf_alike hinfo]
          rfl
      | none =>
          simp only [hinfo.kind]
          cases hkind : info.kind with
          | directory =>
              have hwalk := foldChildren_alike hinj children children' path
                { s with dirCount := s.dirCount + 1, nextInode := s.nextInode + 1 } targets' hchildren
                htargets
              have hstate : { s.withTargets targets' with
                    dirCount := (s.withTargets targets').dirCount + 1
                    nextInode := (s.withTargets targets').nextInode + 1 }
                  = { s with dirCount := s.dirCount + 1
                             nextInode := s.nextInode + 1 }.withTargets targets' := rfl
              simp only
              rw [hstate]
              obtain ⟨e, hleft, hright⟩ | ⟨entries, t, targets'', hleft, hright, hnew⟩ := hwalk.cases
              · rw [hleft, hright]
                exact rfl
              · rw [hleft, hright]
                exact closeDirectory_alike hinfo s.nextInode entries hnew
          | file => exact foldFile_alike hinj hinfo hkind path htargets
          | symlink => exact rfl
          | fifo => exact rfl
          | socket => exact rfl
          | blockDevice => exact rfl
          | charDevice => exact rfl
          | unknown => exact rfl

theorem foldChildren_alike (hinj : Function.Injective renumber) : ∀ (children children' : SurveyChildren)
    (path : Path) (s : WriterState) (targets' : Nat × Nat → Option Nat),
      children.Alike renumber children' → Renumbered renumber s.hardlinkTargets targets' →
      AlikeOutcome renumber (foldChildren env path children s)
        (foldChildren env path children' (s.withTargets targets'))
  | .nil, .nil, path, s, targets', _, htargets => by
      unfold foldChildren
      exact ⟨rfl, targets', rfl, htargets⟩
  | .nil, .cons _ _ _, _, _, _, h, _ => h.elim
  | .cons _ _ _, .nil, _, _, _, h, _ => h.elim
  | .cons name child rest, .cons name' child' rest', path, s, targets', h, htargets => by
      obtain ⟨hname, hchild, hrest⟩ := h
      cases hname
      have hfirst := foldSurvey_alike hinj child child' (path ++ [name]) child.symlinkTarget s targets'
        hchild htargets
      unfold foldChildren
      rw [hchild.symlinkTarget, hchild.kind]
      obtain ⟨e, hleft, hright⟩ | ⟨number, t, targets'', hleft, hright, hnew⟩ := hfirst.cases
      · rw [hleft, hright]
        exact rfl
      · rw [hleft, hright]
        simp only
        obtain ⟨e, htail, htail'⟩ | ⟨entries, t', targets₃, htail, htail', hlast⟩ :=
          (foldChildren_alike hinj rest rest' path t targets'' hrest hnew).cases
        · rw [htail, htail']
          exact rfl
        · rw [htail, htail']
          exact ⟨rfl, targets₃, rfl, hlast⟩

end

/-! ### What comes after the walk -/

theorem mergeDrop_withTargets (r : RawDrop) :
    mergeDrop env (s.withTargets targets) r = (mergeDrop env s r).withTargets targets := by
  unfold mergeDrop
  by_cases hold : r.id ∈ s.dropIndex
  · have hold' : r.id ∈ (s.withTargets targets).dropIndex := hold
    rw [if_pos hold, if_pos hold']
  · have hnew : r.id ∉ (s.withTargets targets).dropIndex := hold
    rw [if_neg hold, if_neg hnew]
    rfl

theorem mergeChunkedFile_withTargets (pf : PendingFile) (result : ChunkedFileResult) :
    mergeChunkedFile env (s.withTargets targets) pf result
      = (mergeChunkedFile env s pf result).withTargets targets := by
  have hdrops : ∀ (drops : List RawDrop) (s : WriterState),
      drops.foldl (mergeDrop env) (s.withTargets targets)
        = (drops.foldl (mergeDrop env) s).withTargets targets := by
    intro drops
    induction drops with
    | nil => exact fun _ => rfl
    | cons r rest ih =>
        intro s
        rw [List.foldl_cons, List.foldl_cons, mergeDrop_withTargets, ih]
  unfold mergeChunkedFile
  rw [hdrops]
  rfl

theorem mergeFiles_withTargets (files : List (PendingFile × ChunkedFileResult)) :
    ∀ s : WriterState, mergeFiles env (s.withTargets targets) files
      = (mergeFiles env s files).withTargets targets := by
  unfold mergeFiles
  induction files with
  | nil => exact fun _ => rfl
  | cons f rest ih =>
      intro s
      rw [List.foldl_cons, List.foldl_cons, mergeChunkedFile_withTargets, ih]

theorem mergeInOrder_withTargets (files : List (PendingFile × Except WriteStop ChunkedFileResult)) :
    ∀ s : WriterState, mergeInOrder env files (s.withTargets targets)
      = (mergeInOrder env files s).map (·.withTargets targets) := by
  induction files with
  | nil => exact fun _ => rfl
  | cons f rest ih =>
      intro s
      obtain ⟨pf, e | result⟩ := f
      · rfl
      · unfold mergeInOrder
        rw [mergeChunkedFile_withTargets, ih]

theorem trainAndApplyDictionary_withTargets (config : DictionaryConfig) :
    trainAndApplyDictionary env config (s.withTargets targets)
      = (trainAndApplyDictionary env config s).withTargets targets := by
  have hbase : (s.withTargets targets).baseDictionaries = s.baseDictionaries := rfl
  unfold trainAndApplyDictionary
  rw [hbase]
  by_cases hoff : config.enabled = false
  · rw [if_pos hoff, if_pos hoff]
    rfl
  · rw [if_neg hoff, if_neg hoff]
    cases s.baseDictionaries with
    | some adopted => rfl
    | none => rfl

theorem assembled_withTargets (r : Except WriteStop WriterState) :
    assembled env (r.map (·.withTargets targets)) = assembled env r := by
  cases r with
  | error e => rfl
  | ok s => rfl

section

variable {config : WriteConfig} {workers : Workers env} {sched : Schedule}
  {tree tree' : SourceTree env.readFile}

theorem writeDirectoryBody_withTargets :
    writeDirectoryBody env config workers sched (s.withTargets targets)
      = (writeDirectoryBody env config workers sched s).map (·.withTargets targets) := by
  unfold writeDirectoryBody
  cases chunkerFromConfig config with
  | error e => rfl
  | ok chunker =>
      by_cases hnone : s.pendingFiles.isEmpty = true
      · show (if s.pendingFiles.isEmpty = true then _ else _)
          = Except.map _ (if s.pendingFiles.isEmpty = true then _ else _)
        rw [if_pos hnone, if_pos hnone]
        rfl
      · show (if s.pendingFiles.isEmpty = true then _ else openRegistry config >>= _)
          = Except.map _ (if s.pendingFiles.isEmpty = true then _ else openRegistry config >>= _)
        rw [if_neg hnone, if_neg hnone]
        cases openRegistry config with
        | error e => rfl
        | ok registry =>
            show (parallelCollect sched (processNumbered env workers (processOptions config chunker
                registry s.baseDropIndex config.defaults.inlineThreshold)) s.pendingFiles.zipIdx >>= _)
              = Except.map _ (parallelCollect sched (processNumbered env workers (processOptions config
                chunker registry s.baseDropIndex config.defaults.inlineThreshold))
                s.pendingFiles.zipIdx >>= _)
            cases parallelCollect sched (processNumbered env workers (processOptions config chunker
                registry s.baseDropIndex config.defaults.inlineThreshold)) s.pendingFiles.zipIdx with
            | error e => rfl
            | ok results =>
                have hmerged := @mergeFiles_withTargets env targets (s.pendingFiles.zip results)
                  (applyDefaults config { s with
                    metadataCodec := unwrapOr config.metadataCodecId codecBrotli
                    pendingFiles := [] })
                exact congrArg Except.ok ((congrArg (trainAndApplyDictionary env config.dictionaries)
                  hmerged).trans (trainAndApplyDictionary_withTargets _))

/-- Results that are merged in order, up to the artifact. -/
theorem mergeInOrder_finished (files : List (PendingFile × Except WriteStop ChunkedFileResult))
    (s : WriterState) :
    assembled env (mergeInOrder env files (s.withTargets targets) >>= fun merged =>
        pure (trainAndApplyDictionary env config.dictionaries merged))
      = assembled env (mergeInOrder env files s >>= fun merged =>
        pure (trainAndApplyDictionary env config.dictionaries merged)) := by
  rw [mergeInOrder_withTargets]
  cases mergeInOrder env files s with
  | error e => rfl
  | ok merged =>
      show assembled env (.ok (trainAndApplyDictionary env config.dictionaries
        (merged.withTargets targets))) = _
      rw [trainAndApplyDictionary_withTargets]
      rfl

/-- Layers of trees that are surveyed alike. -/
theorem writeLayer_alike (hinj : Function.Injective renumber)
    (hsurvey : tree.survey.Alike renumber tree'.survey) (hroot : tree'.root = tree.root)
    (hnew : s.hardlinkTargets = fun _ => none) :
    assembled env (writeLayer env config workers sched tree' s)
      = assembled env (writeLayer env config workers sched tree s) := by
  have hwalk := @foldSurvey_alike env renumber hinj tree.survey tree'.survey tree.root none s
    (fun _ => none) hsurvey (by rw [hnew]; exact fun _ => rfl)
  have hself : s.withTargets (fun _ => none) = s := by
    rw [← hnew]
    rfl
  rw [hself] at hwalk
  unfold writeLayer
  rw [hroot]
  obtain ⟨e, hleft, hright⟩ | ⟨number, t, targets, hleft, hright, -⟩ := hwalk.cases
  · rw [hleft, hright]
  · rw [hleft, hright]
    show assembled env (writeDirectoryBody env config workers sched
      ({ t with rootInodeNumber := number }.withTargets targets)) = _
    rw [writeDirectoryBody_withTargets, assembled_withTargets]
    rfl

/-- Images of trees that are surveyed alike. -/
theorem writeDirectoryStreaming_alike (hinj : Function.Injective renumber)
    (hsurvey : tree.survey.Alike renumber tree'.survey) (hroot : tree'.root = tree.root)
    (hnew : s.hardlinkTargets = fun _ => none) :
    assembled env (writeDirectoryStreaming env config workers sched tree' s)
      = assembled env (writeDirectoryStreaming env config workers sched tree s) := by
  unfold writeDirectoryStreaming
  cases chunkerFromConfig config with
  | error e => rfl
  | ok chunker =>
      cases openRegistry config with
      | error e => rfl
      | ok registry =>
          obtain ⟨start, hstart⟩ : ∃ start : WriterState, start = applyDefaults config { s with
            metadataCodec := unwrapOr config.metadataCodecId codecBrotli } := ⟨_, rfl⟩
          have htargets : start.hardlinkTargets = fun _ => none := by
            rw [hstart]
            exact hnew
          have hself : start.withTargets (fun _ => none) = start := by
            rw [← htargets]
            rfl
          have hwalk := @foldSurvey_alike env renumber hinj tree.survey tree'.survey tree.root none
            start (fun _ => none) hsurvey (by rw [htargets]; exact fun _ => rfl)
          rw [hself, ← hroot] at hwalk
          show assembled env (foldSurvey env tree'.root none tree'.survey (applyDefaults config { s with
              metadataCodec := unwrapOr config.metadataCodecId codecBrotli }) >>= _)
            = assembled env (foldSurvey env tree.root none tree.survey (applyDefaults config { s with
              metadataCodec := unwrapOr config.metadataCodecId codecBrotli }) >>= _)
          rw [← hstart, ← hroot]
          obtain ⟨e, hleft, hright⟩ | ⟨number, t, targets, hleft, hright, -⟩ := hwalk.cases
          · rw [hleft, hright]
          · rw [hleft, hright]
            exact @mergeInOrder_finished env targets config
              (parallelMap sched (fun f => (f.1, processNumbered env workers (processOptions config chunker
                registry s.baseDropIndex s.inlineThreshold) f)) t.pendingFiles.zipIdx)
              { t with rootInodeNumber := number, pendingFiles := [] }

end

end

theorem MetadataPolicy.resolve_congr {sourceDateEpoch : Option Nat} {normalizeMetadata : Bool}
    {var var' : EnvVar} (h : sourceDateEpoch = none → var' = var) :
    MetadataPolicy.resolve sourceDateEpoch normalizeMetadata var'
      = MetadataPolicy.resolve sourceDateEpoch normalizeMetadata var := by
  cases sourceDateEpoch with
  | some secs => rfl
  | none => rw [h rfl]

/--
**Images are reproducible.**
Let two machines write trees that differ in nothing but what the metadata policy takes away: times where
they are pinned, owners and permissions where they are normalized, and, under any policy, the numbers of
devices and inodes, the lengths of what is no file, and the order in which entries and attributes are
listed.  If the one is surveyed, so is the other, whichever children are surveyed first; and then both
writers make of both the same artifact, byte for byte, or stop with the same failure.
-/
theorem reproducible {env : WriterEnv} {config : WriteConfig} {workers : Workers env}
    {sched surveySched surveySched' : Schedule} {sourceDateEpoch : Option Nat} {normalizeMetadata : Bool}
    {var var' : EnvVar} {policy : MetadataPolicy} {renumber : Nat × Nat → Nat × Nat}
    {node node' : OsNode} {path path' : Path} {surveyed : SurveyNode}
    (hpolicy : MetadataPolicy.resolve sourceDateEpoch normalizeMetadata var = .ok policy)
    (hvar : sourceDateEpoch = none → var' = var) (hinj : Function.Injective renumber)
    (hsame : node.Same policy renumber node') (hapart : node.NamesApart)
    (hsurvey : surveyNode policy surveySched path node = .ok surveyed) :
    MetadataPolicy.resolve sourceDateEpoch normalizeMetadata var' = .ok policy ∧
    ∃ surveyed', surveyNode policy surveySched' path' node' = .ok surveyed' ∧
      ∀ (tree tree' : SourceTree env.readFile), tree.survey = surveyed → tree'.survey = surveyed' →
        tree'.root = tree.root →
        assembled env (writeDirectoryStreaming env config workers sched tree' (directoryStart config))
          = assembled env (writeDirectoryStreaming env config workers sched tree
            (directoryStart config)) ∧
        ∀ s : WriterState, s.hardlinkTargets = (fun _ => none) →
          assembled env (writeLayer env config workers sched tree' s)
            = assembled env (writeLayer env config workers sched tree s) := by
  refine ⟨(MetadataPolicy.resolve_congr hvar).trans hpolicy, ?_⟩
  obtain ⟨surveyed', hsurvey', halike⟩ :=
    @surveyNode_same policy renumber surveySched surveySched' node node' path path' hsame hapart
      surveyed hsurvey
  refine ⟨surveyed', hsurvey', ?_⟩
  intro tree tree' htree htree' hroot
  rw [← htree, ← htree'] at halike
  exact ⟨writeDirectoryStreaming_alike hinj halike hroot rfl,
    fun s hnew => writeLayer_alike hinj halike hroot hnew⟩

namespace Stored

/-- Two files and their directory, as one of two machines has them. -/
def machineFile (dev ino len mtimeNs mode uid : Nat) : OsNode :=
  .node (.ok ⟨mode, len, some mtimeNs, uid, uid, dev, ino⟩) (some []) (.error "Invalid argument (os error 22)")
    (some "Not a directory (os error 20)") .nil

def machineDir (dev ino len mtimeNs uid : Nat) (listing : OsListing) : OsNode :=
  .node (.ok ⟨0x41ED, len, some mtimeNs, uid, uid, dev, ino⟩) (some [])
    (.error "Invalid argument (os error 22)") none listing

def firstMachine : OsNode :=
  machineDir 1 1 4096 7 1000 (.cons [0x61] (machineFile 1 2 8 11 0x81A4 1000)
    (.cons [0x62] (machineFile 1 3 5 13 0x81A4 1000) .nil))

/-- Other times, owners, permissions and numbers, and the files in another order. -/
def secondMachine : OsNode :=
  machineDir 9 19 64 0 0 (.cons [0x62] (machineFile 9 21 5 0 0x8180 0)
    (.unread (.cons [0x61] (machineFile 9 20 8 1 0x8180 0) .nil)))

def machineSurvey (dev ino len : Nat) : SurveyNode :=
  .node ⟨.directory, len, 0, 0x41ED, 0, 0, dev, ino, []⟩
    (.cons [0x61] (.node ⟨.file, 8, 0, 0x81A4, 0, 0, dev, ino + 1, []⟩ .nil none)
      (.cons [0x62] (.node ⟨.file, 5, 0, 0x81A4, 0, 0, dev, ino + 2, []⟩ .nil none) .nil)) none

def machineTree (dev ino len : Nat) : SourceTree writerEnv.readFile where
  root := []
  survey := machineSurvey dev ino len
  agrees := by
    intro f hf data hread
    simp only [machineSurvey, SurveyNode.files, SurveyChildren.files, if_true, List.nil_append,
      List.append_nil, List.singleton_append, List.mem_cons, List.not_mem_nil, or_false,
      reduceCtorEq, if_false] at hf
    rcases hf with rfl | rfl
    · cases hread
      rfl
    · cases hread
      rfl
  len_lt := by
    intro f hf
    simp only [machineSurvey, SurveyNode.files, SurveyChildren.files, if_true, List.nil_append,
      List.append_nil, List.singleton_append, List.mem_cons, List.not_mem_nil, or_false,
      reduceCtorEq, if_false] at hf
    rcases hf with rfl | rfl
    · exact (by decide : 8 < 2 ^ 64)
    · exact (by decide : 5 < 2 ^ 64)

theorem firstMachine_surveyed : surveyNode ⟨some 0, true⟩ .sequential [] firstMachine
    = .ok (machineSurvey 1 1 4096) := by
  have ha : fromUtf8Lossy [0x61] = [0x61] := fromUtf8Lossy_of_valid (by decide)
  have hb : fromUtf8Lossy [0x62] = [0x62] := fromUtf8Lossy_of_valid (by decide)
  unfold firstMachine machineDir
  rw [surveyNode]
  simp only [surveyListing, ha, hb]
  rfl

theorem secondMachine_surveyed : surveyNode ⟨some 0, true⟩ .sequential [] secondMachine
    = .ok (machineSurvey 9 19 64) := by
  have ha : fromUtf8Lossy [0x61] = [0x61] := fromUtf8Lossy_of_valid (by decide)
  have hb : fromUtf8Lossy [0x62] = [0x62] := fromUtf8Lossy_of_valid (by decide)
  unfold secondMachine machineDir
  rw [surveyNode]
  simp only [surveyListing, ha, hb]
  rfl

/-- The files of the two machines are the same under the policy. -/
theorem machineFile_same {dev ino dev' ino' len mtimeNs mtimeNs' mode mode' uid uid' : Nat}
    (hnumbers : (dev', ino') = (dev + 8, ino + 18)) (htype : mode &&& sIfmt = mode' &&& sIfmt)
    (hexec : mode &&& 0x49 = 0 ↔ mode' &&& 0x49 = 0) :
    (machineFile dev ino len mtimeNs mode uid).Same ⟨some 0, true⟩ (fun k => (k.1 + 8, k.2 + 18))
      (machineFile dev' ino' len mtimeNs' mode' uid') := by
  refine ⟨_, _, rfl, rfl, ?_⟩
  exact {
    stat := ⟨htype, fun _ => hexec, fun h => absurd h (by simp), fun h => absurd h (by simp)⟩
    xattrs := fun _ => ⟨.refl _, List.nodup_nil⟩
    link := fun _ => rfl
    refused := fun _ => rfl
    listing := fun _ => rfl
    file := fun _ => ⟨rfl, hnumbers⟩ }

end Stored

open LimniFS.Stored

/-- Other times, owners, permissions, numbers and another order make no difference. -/
theorem reproducible_machines :
    assembled writerEnv (writeDirectoryStreaming writerEnv writeConfig
        (fun _ _ => .empty) .sequential (machineTree 9 19 64) (directoryStart writeConfig))
      = assembled writerEnv (writeDirectoryStreaming writerEnv writeConfig
        (fun _ _ => .empty) .sequential (machineTree 1 1 4096)
        (directoryStart writeConfig)) := by
  have hsame : firstMachine.Same ⟨some 0, true⟩ (fun k => (k.1 + 8, k.2 + 18))
      secondMachine := by
    refine ⟨_, _, rfl, rfl, ?_⟩
    have hlisting : OsListing.Same ⟨some 0, true⟩ (fun k => (k.1 + 8, k.2 + 18))
        (.cons [0x61] (machineFile 1 2 8 11 0x81A4 1000)
          (.cons [0x62] (machineFile 1 3 5 13 0x81A4 1000) .nil))
        [([0x62], machineFile 9 21 5 0 0x8180 0), ([0x61], machineFile 9 20 8 1 0x8180 0)] :=
      ⟨_, [([0x62], machineFile 9 21 5 0 0x8180 0)], .swap _ _ _,
        machineFile_same rfl (by decide) (by decide),
        _, [], .refl _, machineFile_same rfl (by decide) (by decide), rfl⟩
    exact {
      stat := ⟨rfl, fun _ => Iff.rfl, fun h => absurd h (by simp), fun h => absurd h (by simp)⟩
      xattrs := fun _ => ⟨.refl _, List.nodup_nil⟩
      link := fun _ => rfl
      refused := fun _ => rfl
      listing := fun _ => hlisting
      file := fun h => absurd h (by decide) }
  have hapart : firstMachine.NamesApart := by
    have ha : fromUtf8Lossy [0x61] = [0x61] := fromUtf8Lossy_of_valid (by decide)
    have hb : fromUtf8Lossy [0x62] = [0x62] := fromUtf8Lossy_of_valid (by decide)
    refine ⟨?_, ⟨List.nodup_nil, trivial⟩, ⟨List.nodup_nil, trivial⟩, trivial⟩
    show [fromUtf8Lossy [0x61], fromUtf8Lossy [0x62]].Nodup
    rw [ha, hb]
    decide
  have hinj : Function.Injective fun k : Nat × Nat => (k.1 + 8, k.2 + 18) := by
    intro k k' h
    rw [Prod.mk.injEq] at h
    exact Prod.ext (by omega) (by omega)
  have hpolicy : MetadataPolicy.resolve (some 0) true .notPresent = .ok ⟨some 0, true⟩ := rfl
  obtain ⟨-, surveyed', hsurvey', himages⟩ := @reproducible writerEnv writeConfig
    (fun _ _ => .empty) .sequential .sequential .sequential (some 0) true .notPresent .notUnicode
    _ _ _ _ [] [] _ hpolicy (fun h => absurd h (by simp)) hinj hsame hapart
    firstMachine_surveyed
  rw [secondMachine_surveyed] at hsurvey'
  exact (himages (machineTree 1 1 4096) (machineTree 9 19 64) rfl
    (Except.ok.inj hsurvey') rfl).1

end LimniFS
