/-
Storing staged files.

A staged file gets its number and its place in the tree at once, and is stored by
`finish`, behind everything that was stored by a call.  Storing touches neither the
number that is next nor the count of files, so both can move on while entries wait
(`flushStaged_frame`).  So a writer that staged some files is one flush away from one that
stored them all at once (`Behind`): the trees are the same, and storing what is staged
gives the context of the other.
-/
import LimniFS.StreamCalls
import Mathlib.Data.List.ModifyLast

namespace LimniFS

open Lib

/-! ### What storing leaves alone -/

/-- The fields that storing an entry does not read. -/
def WriterState.frame (s : WriterState) (nextInode fileCount : Nat)
    (pendingFiles : List PendingFile) : WriterState :=
  { s with nextInode := nextInode, fileCount := fileCount, pendingFiles := pendingFiles }

section

variable {env : WriterEnv} {codecs : StreamCodecs}

theorem mergeDrop_frame (s : WriterState) (n k : Nat) (files : List PendingFile) (r : RawDrop) :
    mergeDrop env (s.frame n k files) r = (mergeDrop env s r).frame n k files := by
  unfold mergeDrop WriterState.frame
  simp only
  split <;> rfl

theorem mergeChunkedFile_frame (s : WriterState) (n k : Nat) (files : List PendingFile)
    (pf : PendingFile) (result : ChunkedFileResult) :
    mergeChunkedFile env (s.frame n k files) pf result
      = (mergeChunkedFile env s pf result).frame n k files := by
  unfold mergeChunkedFile
  have hdrops : result.drops.foldl (mergeDrop env) (s.frame n k files)
      = (result.drops.foldl (mergeDrop env) s).frame n k files :=
    List.foldl_hom (fun s => WriterState.frame s n k files)
      fun s r => mergeDrop_frame s n k files r
  rw [hdrops]
  rfl

/-- The file of a staged entry. -/
def StagedEntry.file (entry : StagedEntry) : PendingFile :=
  streamedFile entry.name entry.info entry.inodeNumber entry.data.length

/-- An entry stored, once its chunks are known. -/
def storeStaged (env : WriterEnv) (codecs : StreamCodecs) (entry : StagedEntry)
    (chunks : List Bytes) (s : WriterState) : WriterState :=
  if entry.data.length ≤ codecs.inlineThreshold then
    addInode s (entry.info.inode sIfreg entry.inodeNumber entry.xattrs (.inline entry.data))
  else
    mergeChunkedFile env (if entry.xattrs = [] then s else { s with
      inodeXattrs := setEntry s.inodeXattrs entry.inodeNumber entry.xattrs })
      entry.file (chunkedResult env codecs chunks)

theorem flushEntry_eq (s : WriterState) (entry : StagedEntry) :
    flushEntry env codecs s entry = (codecs.chunker.chunkSlice env.threads entry.data).map
      fun chunks => storeStaged env codecs entry chunks
        { s with pendingFiles := s.pendingFiles ++ [entry.file] } := by
  unfold flushEntry storeStaged
  cases codecs.chunker.chunkSlice env.threads entry.data with
  | none => rfl
  | some chunks =>
      by_cases hlen : entry.data.length ≤ codecs.inlineThreshold
      · simp only [if_pos hlen]
        rfl
      · simp only [if_neg hlen]
        rfl

theorem storeStaged_frame (entry : StagedEntry) (chunks : List Bytes) (s : WriterState)
    (n k : Nat) (files : List PendingFile) :
    storeStaged env codecs entry chunks (s.frame n k files)
      = (storeStaged env codecs entry chunks s).frame n k files := by
  unfold storeStaged
  by_cases hlen : entry.data.length ≤ codecs.inlineThreshold
  · simp only [if_pos hlen]
    rfl
  · simp only [if_neg hlen]
    rw [← mergeChunkedFile_frame]
    by_cases hxattrs : entry.xattrs = []
    · simp only [if_pos hxattrs]
    · simp only [if_neg hxattrs]
      rfl

theorem flushEntry_frame (s : WriterState) (n k : Nat) (files : List PendingFile)
    (entry : StagedEntry) :
    flushEntry env codecs (s.frame n k files) entry
      = (flushEntry env codecs s entry).map (·.frame n k (files ++ [entry.file])) := by
  rw [flushEntry_eq, flushEntry_eq, Option.map_map]
  congr 1
  funext chunks
  rw [Function.comp_apply, ← storeStaged_frame]
  rfl

/-- The number that is next and the count of files can change while entries wait. -/
theorem flushStaged_frame : ∀ (staged : List StagedEntry) (s : WriterState) (n k : Nat)
    (files : List PendingFile),
    flushStaged env codecs staged (s.frame n k files)
      = (flushStaged env codecs staged s).map
        (·.frame n k (files ++ staged.map StagedEntry.file)) := by
  intro staged
  unfold flushStaged
  induction staged with
  | nil =>
      intro s n k files
      rw [List.map_nil, List.append_nil]
      rfl
  | cons entry rest ih =>
      intro s n k files
      rw [List.foldlM_cons, List.foldlM_cons, flushEntry_frame]
      cases flushEntry env codecs s entry with
      | none => rfl
      | some s' =>
          have hrest := ih s' n k (files ++ [entry.file])
          rw [List.append_assoc] at hrest
          exact hrest

theorem flushStaged_append (staged : List StagedEntry) (entry : StagedEntry) (s : WriterState) :
    flushStaged env codecs (staged ++ [entry]) s
      = (flushStaged env codecs staged s).bind fun s => flushEntry env codecs s entry := by
  unfold flushStaged
  rw [List.foldlM_append]
  congr 1
  funext s
  exact List.foldlM_cons.trans (bind_pure _)

theorem flushStaged_self {staged : List StagedEntry} {s s' : WriterState}
    (h : flushStaged env codecs staged s = some s') :
    s' = s'.frame s.nextInode s.fileCount s'.pendingFiles := by
  have hframe : flushStaged env codecs staged (s.frame s.nextInode s.fileCount s.pendingFiles) = _ :=
    flushStaged_frame staged s s.nextInode s.fileCount s.pendingFiles
  have hself : s.frame s.nextInode s.fileCount s.pendingFiles = s := rfl
  rw [hself, h] at hframe
  have heq := Option.some.inj hframe
  rw [heq]
  rfl

/-! ### One flush behind -/

/-- The staged writer has the tree of the serial one, and flushing gives its context. -/
structure Behind (env : WriterEnv) (codecs : StreamCodecs) (serial staged : StreamWriter) :
    Prop where
  nothing : serial.staged = []
  tree : serial.tree = staged.tree
  flushed : ∃ s files, flushStaged env codecs staged.staged staged.ctx = some s ∧
    serial.ctx = s.frame staged.ctx.nextInode staged.ctx.fileCount files

variable {serial staged : StreamWriter}

theorem Behind.nextInode (h : Behind env codecs serial staged) :
    serial.ctx.nextInode = staged.ctx.nextInode := by
  obtain ⟨s, files, -, hctx⟩ := h.flushed
  rw [hctx]
  rfl

theorem Behind.fileCount (h : Behind env codecs serial staged) :
    serial.ctx.fileCount = staged.ctx.fileCount := by
  obtain ⟨s, files, -, hctx⟩ := h.flushed
  rw [hctx]
  rfl

/-- Calls that store nothing and change the same in both. -/
theorem Behind.framed (h : Behind env codecs serial staged) {tree tree' : StreamDir Nat}
    {n n' : Nat} (htree : tree = tree') (hn : n = n') (files files' : List PendingFile) :
    Behind env codecs
      { serial with ctx := serial.ctx.frame n serial.ctx.fileCount files, tree := tree }
      { staged with ctx := staged.ctx.frame n' staged.ctx.fileCount files', tree := tree' } where
  nothing := h.nothing
  tree := htree
  flushed := by
    obtain ⟨s, before, hflush, hctx⟩ := h.flushed
    refine ⟨s.frame n' staged.ctx.fileCount (files' ++ staged.staged.map StagedEntry.file), files,
      ?_, ?_⟩
    · exact (flushStaged_frame _ _ _ _ _).trans (congrArg _ hflush)
    · rw [h.fileCount, hctx, hn]
      rfl

theorem Behind.newSlot_eq (h : Behind env codecs serial staged) (name : Bytes) :
    newSlot name serial.tree = newSlot name staged.tree := congrArg (newSlot name) h.tree

theorem Behind.withParents (h : Behind env codecs serial staged) (name : Bytes) :
    Behind env codecs (serial.withParents name) (staged.withParents name) where
  nothing := h.nothing
  tree := congrArg Prod.fst (h.newSlot_eq name)
  flushed := h.flushed

theorem Behind.withTree (h : Behind env codecs serial staged) (tree : StreamDir Nat) :
    Behind env codecs { serial with tree := tree } { staged with tree := tree } where
  nothing := h.nothing
  tree := rfl
  flushed := h.flushed

theorem Behind.ctx_eq (h : Behind env codecs serial staged) (hnone : staged.staged = []) :
    ∃ files, serial.ctx = staged.ctx.frame staged.ctx.nextInode staged.ctx.fileCount files := by
  obtain ⟨s, files, hflush, hctx⟩ := h.flushed
  rw [hnone] at hflush
  cases hflush
  exact ⟨files, hctx⟩

/-! ### What finishing leaves alone -/

/-- The files that are listed; nothing reads them. -/
def WriterState.withFiles (s : WriterState) (files : List PendingFile) : WriterState :=
  { s with pendingFiles := files }

section

variable (files : List PendingFile)

theorem bumpNlinks_withFiles (numbers : List Nat) (s : WriterState) :
    numbers.foldl bumpNlink (s.withFiles files) = (numbers.foldl bumpNlink s).withFiles files :=
  List.foldl_hom (WriterState.withFiles · files) fun _ _ => rfl

theorem resolveDeferredLinks_withFiles (tree : StreamDir Nat) (s : WriterState) :
    resolveDeferredLinks tree (s.withFiles files)
      = (resolveDeferredLinks tree s).map fun r => (r.1, r.2.withFiles files) := by
  unfold resolveDeferredLinks
  cases (linkTargets tree).mapM fun target => chase tree (chaseFuel tree) target [] with
  | error e => rfl
  | ok resolved =>
      exact congrArg (fun s => Except.ok ((replaceLinks tree resolved).1, s))
        (bumpNlinks_withFiles files resolved s)

theorem leaveDir_withFiles (info : EntryMeta) (number : Nat) (entries : List DirEntry)
    (s : WriterState) :
    leaveDir env info number entries (s.withFiles files)
      = (leaveDir env info number entries s).map fun r => (r.1, r.2.withFiles files) := by
  unfold leaveDir
  simp only
  cases encodeDirNode env.H (sortEntries entries) with
  | none => rfl
  | some node => rfl

mutual

theorem materializeNode_withFiles : ∀ (node : StreamNode Nat) (s : WriterState),
    materializeNode env node (s.withFiles files)
      = (materializeNode env node s).map fun r => (r.1, r.2.withFiles files)
  | .leaf (.file number), s => rfl
  | .leaf (.symlink number), s => rfl
  | .leaf (.deferredLink target), s => rfl
  | .dir info children, s => by
      unfold materializeNode
      have hchildren : materializeChildren env children (enterDir (s.withFiles files)) = _ :=
        materializeChildren_withFiles children (enterDir s)
      rw [hchildren]
      cases materializeChildren env children (enterDir s) with
      | error e => rfl
      | ok folded => exact leaveDir_withFiles files info s.nextInode folded.1 folded.2

theorem materializeChildren_withFiles : ∀ (children : StreamDir Nat) (s : WriterState),
    materializeChildren env children (s.withFiles files)
      = (materializeChildren env children s).map fun r => (r.1, r.2.withFiles files)
  | .nil, s => rfl
  | .cons name node rest, s => by
      unfold materializeChildren
      rw [materializeNode_withFiles node s]
      cases materializeNode env node s with
      | error e => rfl
      | ok first =>
          simp only [Except.map]
          rw [materializeChildren_withFiles rest first.2]
          cases materializeChildren env rest first.2 with
          | error e => rfl
          | ok others => rfl

end

theorem trainAndApplyDictionary_withFiles (config : DictionaryConfig) (s : WriterState) :
    trainAndApplyDictionary env config (s.withFiles files)
      = (trainAndApplyDictionary env config s).withFiles files := by
  have hdicts : (s.withFiles files).baseDictionaries = s.baseDictionaries := rfl
  unfold trainAndApplyDictionary
  by_cases henabled : config.enabled = false
  · rw [if_pos henabled, if_pos henabled]
    rfl
  · rw [if_neg henabled, if_neg henabled, hdicts]
    cases s.baseDictionaries with
    | none => rfl
    | some adopted => rfl

end

end

end LimniFS
