/-
The walk over a source tree.

The tree was surveyed before: every node with what `stat` says of it, children in the
order of their names.  The walk folds over the survey and is the only place that hands
out inode numbers.  A file met a second time under its device and inode number is a
hard link and gets the number of the first; a short file is read and kept inline;
every other file is put off for the workers.

The walk touches no drop and makes no inode with slices (`foldSurvey_walked`): it only
adds inline files, links and directories, and puts off files of the survey that are
longer than the inline threshold.
-/
import LimniFS.Assemble
import LimniFS.ProcessFile
import Mathlib.Data.List.Sort

namespace LimniFS

open Lib

/-! ### The survey -/

inductive FileKind where
  | directory
  | file
  | symlink
  | fifo
  | socket
  | blockDevice
  | charDevice
  | unknown
  deriving DecidableEq

/-- How a kind is called in an error; only the kinds that are not stored have a name. -/
def FileKind.text : FileKind → String
  | .fifo => "fifo"
  | .socket => "socket"
  | .blockDevice => "block device"
  | .charDevice => "character device"
  | _ => "unknown"

structure SurveyMeta where
  kind : FileKind
  len : Nat
  mtimeNs : Nat
  mode : Nat
  uid : Nat
  gid : Nat
  dev : Nat
  ino : Nat
  xattrs : List (Bytes × Bytes)

mutual

inductive SurveyNode where
  | node (info : SurveyMeta) (children : SurveyChildren) (symlinkTarget : Option Bytes)

inductive SurveyChildren where
  | nil
  | cons (name : Bytes) (child : SurveyNode) (rest : SurveyChildren)

end

namespace SurveyNode

def info : SurveyNode → SurveyMeta
  | .node info _ _ => info

def symlinkTarget : SurveyNode → Option Bytes
  | .node _ _ target => target

end SurveyNode

mutual

/-- The regular files of a survey, each with its path. -/
def SurveyNode.files (path : Path) : SurveyNode → List (Path × SurveyMeta)
  | .node info children _ =>
    (if info.kind = .file then [(path, info)] else []) ++ children.files path

def SurveyChildren.files (path : Path) : SurveyChildren → List (Path × SurveyMeta)
  | .nil => []
  | .cons name child rest => child.files (path ++ [name]) ++ rest.files path

end

/-- A tree that does not change while it is written: a file has the length the survey saw. -/
structure SourceTree (readFile : Path → Except String Bytes) where
  root : Path
  survey : SurveyNode
  agrees : ∀ f ∈ survey.files root, ∀ data, readFile f.1 = .ok data → data.length = f.2.len
  len_lt : ∀ f ∈ survey.files root, f.2.len < 2 ^ 64

/-! ### The state of a write -/

def inlineThresholdDefault : Nat := 4096
def metadataExternalizeThresholdDefault : Nat := 1000 * 1024

/-- The whole of the context; the part `assemble` reads is the one it extends.  The chunker and
the classifier are handed on directly. -/
structure WriterState extends WriteContext where
  nextInode : Nat
  hardlinkTargets : Nat × Nat → Option Nat
  dropIndex : List Digest
  pendingFiles : List PendingFile
  collectDictSamples : Bool
  dictSamplesByClass : List (Class × Bytes)
  baseDictionaries : Option (List (UInt8 × Bytes))
  baseDropIndex : Option (Digest → Bool)
  inlineThreshold : Nat

namespace WriterState

def new : WriterState where
  inodes := []
  dirNodes := []
  drops := []
  nlinkCounts := fun _ => none
  inodeXattrs := fun _ => none
  emitSharedInline := true
  metadataCodec := codecBrotli
  metadataExternalizeThreshold := metadataExternalizeThresholdDefault
  trainedDicts := .none
  baseRoot := none
  fileCount := 0
  dirCount := 0
  rootInodeNumber := 0
  nextInode := 1
  hardlinkTargets := fun _ => none
  dropIndex := []
  pendingFiles := []
  collectDictSamples := false
  dictSamplesByClass := []
  baseDictionaries := none
  baseDropIndex := none
  inlineThreshold := inlineThresholdDefault

/-- Nothing was written yet. -/
def Fresh (s : WriterState) : Prop :=
  s.inodes = [] ∧ s.drops = [] ∧ s.dropIndex = [] ∧ s.pendingFiles = []

end WriterState

/-- A map with one entry set. -/
def setEntry {α β : Type} [DecidableEq α] (m : α → Option β) (a : α) (b : β) : α → Option β :=
  fun x => if x = a then some b else m x

/-! ### The fold -/

/-- The inode of a node whose content is known. -/
def inodeOf (number : Nat) (info : SurveyMeta) (content : PendingContent) : PendingInode where
  number := number
  mode := info.mode
  uid := info.uid
  gid := info.gid
  mtimeNs := info.mtimeNs
  xattrs := []
  content := content

/-- Note the attributes of an inode, if it has any. -/
def noteXattrs (s : WriterState) (number : Nat) (info : SurveyMeta) : WriterState :=
  if info.xattrs = [] then s
  else { s with
    inodeXattrs := setEntry s.inodeXattrs number (info.xattrs.map fun x => ⟨0, x.1, x.2⟩) }

def addInode (s : WriterState) (inode : PendingInode) : WriterState :=
  { s with inodes := s.inodes ++ [inode] }

def entryTypeOf : FileKind → UInt8
  | .symlink => EntryType.symlink
  | .directory => EntryType.directory
  | _ => EntryType.file

def sortEntries (entries : List DirEntry) : List DirEntry :=
  entries.insertionSort fun a b => a.name ≤ b.name

section

variable (env : WriterEnv)

/-- A regular file: a hard link to an earlier one, inline, or put off. -/
def foldFile (path : Path) (info : SurveyMeta) (s : WriterState) :
    Except WriteStop (Nat × WriterState) :=
  match s.hardlinkTargets (info.dev, info.ino) with
  | some existing =>
    .ok (existing, { s with
      nlinkCounts := setEntry s.nlinkCounts existing ((s.nlinkCounts existing).getD 1 + 1) })
  | none =>
    let number := s.nextInode
    let s := { s with
      fileCount := s.fileCount + 1
      nextInode := s.nextInode + 1
      hardlinkTargets := setEntry s.hardlinkTargets (info.dev, info.ino) number }
    if info.len ≤ s.inlineThreshold then
      match env.readFile path with
      | .error e => .error (.failed (.io e))
      | .ok data => .ok (number, addInode (noteXattrs s number info)
          (inodeOf number info (.inline data)))
    else
      let pf : PendingFile :=
        ⟨number, path, info.mtimeNs, info.len, info.mode, info.uid, info.gid⟩
      let s := noteXattrs s number info
      .ok (number, { s with pendingFiles := s.pendingFiles ++ [pf] })

/-- A directory whose children were folded. -/
def closeDirectory (number : Nat) (info : SurveyMeta) (entries : List DirEntry)
    (s : WriterState) : Except WriteStop (Nat × WriterState) :=
  let entries := sortEntries entries
  match encodeDirNode env.H entries with
  | none => .error .panicked
  | some node =>
    let s := { s with dirNodes := s.dirNodes ++ [node] }
    .ok (number, addInode (noteXattrs s number info) (inodeOf number info (.directory entries)))

mutual

/-- A node with a link's target is a link, whatever else it is. -/
def foldSurvey (path : Path) (symlinkTarget : Option Bytes) :
    SurveyNode → WriterState → Except WriteStop (Nat × WriterState)
  | .node info children _, s =>
    match symlinkTarget with
    | some target =>
      let number := s.nextInode
      let s := { s with nextInode := s.nextInode + 1 }
      .ok (number, addInode s (inodeOf number info (.symlink target)))
    | none =>
      match info.kind with
      | .directory =>
        let number := s.nextInode
        let s := { s with dirCount := s.dirCount + 1, nextInode := s.nextInode + 1 }
        match foldChildren path children s with
        | .error e => .error e
        | .ok (entries, s) => closeDirectory env number info entries s
      | .file => foldFile env path info s
      | kind => .error (.failed (.unsupportedFileType path kind.text))

def foldChildren (path : Path) :
    SurveyChildren → WriterState → Except WriteStop (List DirEntry × WriterState)
  | .nil, s => .ok ([], s)
  | .cons name child rest, s =>
    match foldSurvey (path ++ [name]) child.symlinkTarget child s with
    | .error e => .error e
    | .ok (number, s) =>
      match foldChildren path rest s with
      | .error e => .error e
      | .ok (entries, s) => .ok (⟨name, number, entryTypeOf child.info.kind⟩ :: entries, s)

end

end

/-! ### What the walk leaves alone -/

/-- From `s` to `s'` no drop was touched, no inode with slices was made, and only long files
of the survey were put off. -/
structure Walked (files : List (Path × SurveyMeta)) (s s' : WriterState) : Prop where
  drops : s'.drops = s.drops
  dropIndex : s'.dropIndex = s.dropIndex
  baseDropIndex : s'.baseDropIndex = s.baseDropIndex
  inlineThreshold : s'.inlineThreshold = s.inlineThreshold
  inodes : ∀ inode ∈ s'.inodes, inode ∈ s.inodes ∨
    ∀ fileLen slices, inode.content ≠ .dropBacked fileLen slices
  pendingFiles : ∀ pf ∈ s'.pendingFiles, pf ∈ s.pendingFiles ∨
    (s.inlineThreshold < pf.fileLen ∧ ∃ info, (pf.path, info) ∈ files ∧ pf.fileLen = info.len)

namespace Walked

variable {files : List (Path × SurveyMeta)} {s s' s'' : WriterState}

theorem of_eq (hdrops : s'.drops = s.drops) (hindex : s'.dropIndex = s.dropIndex)
    (hbase : s'.baseDropIndex = s.baseDropIndex)
    (hthreshold : s'.inlineThreshold = s.inlineThreshold) (hinodes : s'.inodes = s.inodes)
    (hpending : s'.pendingFiles = s.pendingFiles) : Walked files s s' where
  drops := hdrops
  dropIndex := hindex
  baseDropIndex := hbase
  inlineThreshold := hthreshold
  inodes := by
    rw [hinodes]
    exact fun inode h => .inl h
  pendingFiles := by
    rw [hpending]
    exact fun pf h => .inl h

theorem trans (h₁ : Walked files s s') (h₂ : Walked files s' s'') : Walked files s s'' where
  drops := h₂.drops.trans h₁.drops
  dropIndex := h₂.dropIndex.trans h₁.dropIndex
  baseDropIndex := h₂.baseDropIndex.trans h₁.baseDropIndex
  inlineThreshold := h₂.inlineThreshold.trans h₁.inlineThreshold
  inodes := by
    intro inode hmem
    rcases h₂.inodes inode hmem with hold | hnew
    · exact h₁.inodes inode hold
    · exact .inr hnew
  pendingFiles := by
    intro pf hmem
    rcases h₂.pendingFiles pf hmem with hold | hnew
    · exact h₁.pendingFiles pf hold
    · rw [h₁.inlineThreshold] at hnew
      exact .inr hnew

theorem mono {files' : List (Path × SurveyMeta)} (h : Walked files s s')
    (hsub : ∀ f ∈ files, f ∈ files') : Walked files' s s' where
  drops := h.drops
  dropIndex := h.dropIndex
  baseDropIndex := h.baseDropIndex
  inlineThreshold := h.inlineThreshold
  inodes := h.inodes
  pendingFiles := by
    intro pf hmem
    rcases h.pendingFiles pf hmem with hold | ⟨hlen, info, hfile, heq⟩
    · exact .inl hold
    · exact .inr ⟨hlen, info, hsub _ hfile, heq⟩

end Walked

section

variable {env : WriterEnv} {files : List (Path × SurveyMeta)}

theorem walked_noteXattrs (s : WriterState) (number : Nat) (info : SurveyMeta) :
    Walked files s (noteXattrs s number info) := by
  unfold noteXattrs
  split <;> exact .of_eq rfl rfl rfl rfl rfl rfl

theorem noteXattrs_inlineThreshold (s : WriterState) (number : Nat) (info : SurveyMeta) :
    (noteXattrs s number info).inlineThreshold = s.inlineThreshold := by
  unfold noteXattrs
  split <;> rfl

theorem walked_addInode (s : WriterState) {inode : PendingInode}
    (h : ∀ fileLen slices, inode.content ≠ .dropBacked fileLen slices) :
    Walked files s (addInode s inode) where
  drops := rfl
  dropIndex := rfl
  baseDropIndex := rfl
  inlineThreshold := rfl
  inodes := by
    intro i hi
    rcases List.mem_append.mp hi with hold | hnew
    · exact .inl hold
    · rw [List.mem_singleton.mp hnew]
      exact .inr h
  pendingFiles := fun _ h => .inl h

theorem foldFile_walked {path : Path} {info : SurveyMeta} {s s' : WriterState} {number : Nat}
    (h : foldFile env path info s = .ok (number, s')) : Walked [(path, info)] s s' := by
  unfold foldFile at h
  split at h
  · cases h
    exact .of_eq rfl rfl rfl rfl rfl rfl
  · simp only at h
    split at h
    · split at h
      · cases h
      · cases h
        refine .trans ?_ (walked_addInode _ nofun)
        refine .trans ?_ (walked_noteXattrs _ _ _)
        exact .of_eq rfl rfl rfl rfl rfl rfl
    · next hlong =>
        cases h
        refine Walked.trans (.trans ?_ (walked_noteXattrs _ s.nextInode info))
          ⟨rfl, rfl, rfl, rfl, fun _ h => .inl h, ?_⟩
        · exact .of_eq rfl rfl rfl rfl rfl rfl
        · intro pf hpf
          rcases List.mem_append.mp hpf with hold | hnew
          · exact .inl hold
          · rw [List.mem_singleton.mp hnew]
            refine .inr ⟨?_, info, List.mem_singleton.mpr rfl, rfl⟩
            rw [noteXattrs_inlineThreshold]
            exact Nat.lt_of_not_le hlong

theorem closeDirectory_walked {number n : Nat} {info : SurveyMeta} {entries : List DirEntry}
    {s s' : WriterState} (h : closeDirectory env number info entries s = .ok (n, s')) :
    Walked files s s' := by
  unfold closeDirectory at h
  simp only at h
  split at h
  · cases h
  · cases h
    refine .trans ?_ (walked_addInode _ nofun)
    refine .trans ?_ (walked_noteXattrs _ _ _)
    exact .of_eq rfl rfl rfl rfl rfl rfl

mutual

/-- **The walk only adds what has no slices, and puts off the long files.** -/
theorem foldSurvey_walked : ∀ (node : SurveyNode) (path : Path) (target : Option Bytes)
    (s s' : WriterState) (number : Nat),
      foldSurvey env path target node s = .ok (number, s') → Walked (node.files path) s s'
  | .node info children symlink, path, target, s, s', number, h => by
      unfold foldSurvey at h
      split at h
      · cases h
        refine .trans ?_ (walked_addInode _ nofun)
        exact .of_eq rfl rfl rfl rfl rfl rfl
      · split at h
        · simp only at h
          split at h
          · cases h
          · next entries s₁ hchildren =>
              have hwalk := foldChildren_walked children path _ s₁ entries hchildren
              refine .trans (.trans ?_ (hwalk.mono ?_)) (closeDirectory_walked h)
              · exact .of_eq rfl rfl rfl rfl rfl rfl
              · intro f hf
                unfold SurveyNode.files
                exact List.mem_append_right _ hf
        · next hkind =>
            refine (foldFile_walked h).mono ?_
            intro f hf
            unfold SurveyNode.files
            rw [if_pos hkind]
            exact List.mem_append_left _ hf
        · cases h

theorem foldChildren_walked : ∀ (children : SurveyChildren) (path : Path) (s s' : WriterState)
    (entries : List DirEntry),
      foldChildren env path children s = .ok (entries, s') → Walked (children.files path) s s'
  | .nil, path, s, s', entries, h => by
      unfold foldChildren at h
      cases h
      exact .of_eq rfl rfl rfl rfl rfl rfl
  | .cons name child rest, path, s, s', entries, h => by
      unfold foldChildren at h
      split at h
      · cases h
      · next number s₁ hchild =>
          split at h
          · cases h
          · next tail s₂ hrest =>
              cases h
              have hfirst := foldSurvey_walked child (path ++ [name]) _ s s₁ number hchild
              have hlater := foldChildren_walked rest path s₁ s' tail hrest
              unfold SurveyChildren.files
              exact .trans (hfirst.mono fun f hf => List.mem_append_left _ hf)
                (hlater.mono fun f hf => List.mem_append_right _ hf)

end

end

end LimniFS
