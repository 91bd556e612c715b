/-
Staged files are packed as the others are.

Call by call, a writer that stages some of its files stays one flush behind the writer
that stores them all at once, and `finish` gives both the same image.  The two part where a
call stores an inode while something waits, where a file with slices has attributes, which
only the staged writer keeps, and where the attributes of a staged file are refused after
it went into the tree.
-/
import LimniFS.StagedPacking
import LimniFS.WrittenDrops

namespace LimniFS

open Lib

section

variable {env : WriterEnv} {codecs : StreamCodecs} {serial staged : StreamWriter}

/-! ### One call -/

/-- The length that is patched in afterwards could have been known before. -/
theorem patchFileLen_merge (totalLen : Nat) (s : WriterState) (pf : PendingFile)
    (result : ChunkedFileResult) :
    ∃ files, patchFileLen totalLen (mergeChunkedFile env s pf result)
      = (mergeChunkedFile env s { pf with fileLen := totalLen } result).withFiles files := by
  unfold patchFileLen mergeChunkedFile addInode
  simp only [List.modifyLast_concat]
  exact ⟨_, rfl⟩

/-- A file stored off its reader is one that was staged and is now stored, if its attributes are
kept either way. -/
theorem storeChunks_eq {name data : Bytes} {info : EntryMeta} {number : Nat} {wire : List XAttr}
    {chunks : List Bytes} (hdata : chunks.flatten = data)
    (hwire : codecs.inlineThreshold < data.length → wire = []) (s : WriterState) :
    ∃ files, storeChunks env codecs name info number wire chunks s
      = (storeStaged env codecs ⟨name, info, wire, number, data⟩ chunks s).frame s.nextInode
          (s.fileCount + 1) files := by
  have htotal : (chunks.map List.length).sum = data.length := by
    rw [← List.length_flatten, hdata]
  unfold storeChunks storeStaged
  simp only [htotal, hdata]
  by_cases hlen : data.length ≤ codecs.inlineThreshold
  · simp only [if_pos hlen]
    exact ⟨s.pendingFiles, rfl⟩
  · simp only [if_neg hlen]
    rw [if_pos (hwire (Nat.lt_of_not_le hlen))]
    obtain ⟨files, hpatch⟩ := patchFileLen_merge data.length
      (s.frame s.nextInode (s.fileCount + 1) s.pendingFiles) (streamedFile name info number 0)
      (chunkedResult env codecs chunks)
    refine ⟨files, hpatch.trans ?_⟩
    rw [mergeChunkedFile_frame]
    rfl

/-- What a call of the staged sequence must meet in the writer it finds.  A call that stores an
inode finds nothing staged, unless it fails before it stores anything.  A staged file that gets
its place has attributes that can be represented, and none at all if it is stored in slices; and
the buffer a reader would be read into can be had. -/
def Stageable (codecs : StreamCodecs) (w : StreamWriter) : StreamCall → Prop
  | .addFile name _ xattrs reader =>
    w.staged = [] ∨ (newSlot name w.tree).2.toOption = none ∨ (toWireXattrs xattrs).toOption = none ∨
      FastCDC.completes reader = false
  | .addSymlink name _ _ => w.staged = [] ∨ (newSlot name w.tree).2.toOption = none
  | .stageFile name _ xattrs data =>
    (newSlot name w.tree).2.toOption = none ∨
      (codecs.chunker.scalar.maxSize + FastCDC.readBufferSize < 2 ^ 63 ∧
        ∃ wire, toWireXattrs xattrs = .ok wire ∧
          (codecs.inlineThreshold < data.length → wire = []))
  | .addDir _ _ => True
  | .addHardlink _ _ => True

/-- A call of the serial sequence, and the call in its place. -/
inductive Restaged : StreamCall → StreamCall → Prop
  | addFile (name info xattrs reader) :
      Restaged (.addFile name info xattrs reader) (.addFile name info xattrs reader)
  | addDir (name info) : Restaged (.addDir name info) (.addDir name info)
  | addHardlink (name target) : Restaged (.addHardlink name target) (.addHardlink name target)
  | addSymlink (name target info) :
      Restaged (.addSymlink name target info) (.addSymlink name target info)
  /-- The slice holds what the reader delivers, and no slice is as long as 2⁶³ bytes. -/
  | staged (name info xattrs) {reader : List ReadResult} (hdone : FastCDC.completes reader = true)
      (hlen : (FastCDC.delivered reader).length < 2 ^ 63) :
      Restaged (.addFile name info xattrs reader)
        (.stageFile name info xattrs (FastCDC.delivered reader))

/-- Both calls panic, or both return the same and leave the staged writer one flush behind. -/
def StaysBehind (env : WriterEnv) (codecs : StreamCodecs) (serial staged : Option Called) : Prop :=
  (serial = none ∧ staged = none) ∨
    ∃ w w' result, serial = some (w, result) ∧ staged = some (w', result) ∧
      Behind env codecs w w'

theorem addDir_behind (h : Behind env codecs serial staged) (name : Bytes) (info : EntryMeta) :
    StaysBehind env codecs (some (serial.addDir name info)) (some (staged.addDir name info)) := by
  unfold StreamWriter.addDir
  by_cases hroot : name = ascii "/"
  · rw [if_pos hroot, if_pos hroot]
    exact .inr ⟨_, _, _, rfl, rfl, h⟩
  · rw [if_neg hroot, if_neg hroot, h.tree]
    exact .inr ⟨_, _, _, rfl, rfl, h.withTree _⟩

theorem addHardlink_behind (h : Behind env codecs serial staged) (name target : Bytes) :
    StaysBehind env codecs (some (serial.addHardlink name target))
      (some (staged.addHardlink name target)) := by
  cases hslot : (newSlot name staged.tree).2 with
  | error e =>
      have hserial : (newSlot name serial.tree).2 = .error e := h.tree ▸ hslot
      rw [addHardlink_refused hslot, addHardlink_refused hserial]
      exact .inr ⟨_, _, _, rfl, rfl, h.withParents name⟩
  | ok slot =>
      have hserial : (newSlot name serial.tree).2 = .ok slot := h.tree ▸ hslot
      rw [addHardlink_added hslot, addHardlink_added hserial, h.tree]
      exact .inr ⟨_, _, _, rfl, rfl, h.withTree _⟩

theorem behind_of_none {ctx ctx' : WriterState} {tree : StreamDir Nat} (files : List PendingFile)
    (hnone : staged.staged = []) (hserial : serial.staged = [])
    (hctx : ctx' = ctx.frame ctx.nextInode ctx.fileCount files) :
    Behind env codecs { serial with ctx := ctx', tree := tree }
      { staged with ctx := ctx, tree := tree } where
  nothing := hserial
  tree := rfl
  flushed := by
    refine ⟨ctx, files, ?_, hctx⟩
    rw [hnone]
    rfl

theorem addSymlink_behind (h : Behind env codecs serial staged) {name : Bytes}
    (hcond : staged.staged = [] ∨ (newSlot name staged.tree).2.toOption = none) (target : Bytes)
    (info : EntryMeta) :
    StaysBehind env codecs (some (serial.addSymlink name target info))
      (some (staged.addSymlink name target info)) := by
  cases hslot : (newSlot name staged.tree).2 with
  | error e =>
      have hserial : (newSlot name serial.tree).2 = .error e := h.tree ▸ hslot
      rw [addSymlink_refused hslot, addSymlink_refused hserial]
      exact .inr ⟨_, _, _, rfl, rfl, h.withParents name⟩
  | ok slot =>
      rw [hslot] at hcond
      obtain hnone | hnone := hcond
      · have hserial : (newSlot name serial.tree).2 = .ok slot := h.tree ▸ hslot
        obtain ⟨files, hctx⟩ := h.ctx_eq hnone
        rw [addSymlink_added hslot, addSymlink_added hserial, h.tree, h.nextInode, hctx]
        exact .inr ⟨_, _, _, rfl, rfl, behind_of_none files hnone h.nothing rfl⟩
      · cases hnone

theorem storeChunks_frame (name : Bytes) (info : EntryMeta) (number : Nat) (wire : List XAttr)
    (chunks : List Bytes) (s : WriterState) (n k : Nat) (files : List PendingFile) :
    ∃ files', storeChunks env codecs name info number wire chunks (s.frame n k files)
      = (storeChunks env codecs name info number wire chunks s).frame n (k + 1) files' := by
  unfold storeChunks
  by_cases hlen : (chunks.map List.length).sum ≤ codecs.inlineThreshold
  · simp only [if_pos hlen]
    exact ⟨files, rfl⟩
  · simp only [if_neg hlen]
    obtain ⟨files₁, h₁⟩ := patchFileLen_merge (chunks.map List.length).sum
      (s.frame n (k + 1) files) (streamedFile name info number 0) (chunkedResult env codecs chunks)
    obtain ⟨files₂, h₂⟩ := patchFileLen_merge (chunks.map List.length).sum
      (s.frame s.nextInode (s.fileCount + 1) s.pendingFiles) (streamedFile name info number 0)
      (chunkedResult env codecs chunks)
    refine ⟨files₁, h₁.trans ?_⟩
    refine Eq.trans ?_ (congrArg (WriterState.frame · n (k + 1) files₁) h₂).symm
    rw [mergeChunkedFile_frame, mergeChunkedFile_frame]
    rfl

theorem storeChunks_counts (name : Bytes) (info : EntryMeta) (number : Nat) (wire : List XAttr)
    (chunks : List Bytes) (s : WriterState) :
    (storeChunks env codecs name info number wire chunks s).nextInode = s.nextInode ∧
      (storeChunks env codecs name info number wire chunks s).fileCount = s.fileCount + 1 := by
  obtain ⟨files, hframe⟩ : ∃ files, storeChunks env codecs name info number wire chunks s = _ :=
    storeChunks_frame name info number wire chunks s s.nextInode s.fileCount s.pendingFiles
  rw [hframe]
  exact ⟨rfl, rfl⟩

/-- The same call in both. -/
theorem addFile_behind (h : Behind env codecs serial staged) {name : Bytes} {info : EntryMeta}
    {xattrs : List (Bytes × Bytes)} {reader : List ReadResult}
    (hcond : Stageable codecs staged (.addFile name info xattrs reader)) :
    StaysBehind env codecs (serial.addFile env codecs name info xattrs reader)
      (staged.addFile env codecs name info xattrs reader) := by
  cases hslot : (newSlot name staged.tree).2 with
  | error e =>
      have hserial : (newSlot name serial.tree).2 = .error e := h.tree ▸ hslot
      rw [addFile_refused hslot, addFile_refused hserial]
      exact .inr ⟨_, _, _, rfl, rfl, h.withParents name⟩
  | ok slot =>
      have hserial : (newSlot name serial.tree).2 = .ok slot := h.tree ▸ hslot
      cases hwire : toWireXattrs xattrs with
      | error e =>
          rw [addFile_unrepresentable hslot hwire, addFile_unrepresentable hserial hwire]
          exact .inr ⟨_, _, _, rfl, rfl, h.framed (h.withParents name).tree
            (congrArg (· + 1) h.nextInode) serial.ctx.pendingFiles staged.ctx.pendingFiles⟩
      | ok wire =>
          cases hread : codecs.chunker.scalar.chunkReader reader with
          | none =>
              exact .inl ⟨addFile_panicked hserial hwire hread, addFile_panicked hslot hwire hread⟩
          | some read =>
              cases read with
              | error text =>
                  rw [addFile_unread hslot hwire hread, addFile_unread hserial hwire hread]
                  exact .inr ⟨_, _, _, rfl, rfl, h.framed (h.withParents name).tree
                    (congrArg (· + 1) h.nextInode) _ _⟩
              | ok chunks =>
                  have hnone : staged.staged = [] := by
                    rcases hcond with hnone | hnone | hnone | hfail
                    · exact hnone
                    · rw [hslot] at hnone
                      cases hnone
                    · rw [hwire] at hnone
                      cases hnone
                    · exact absurd hread (FastCDC.chunkReader_fails hfail chunks)
                  obtain ⟨files, hctx⟩ := h.ctx_eq hnone
                  rw [addFile_stored hslot hwire hread, addFile_stored hserial hwire hread, h.tree,
                    h.nextInode, hctx]
                  obtain ⟨files', hstore⟩ : ∃ files', storeChunks env codecs name info _ wire chunks
                      (openedState name info (staged.ctx.frame _ _ files)) = _ :=
                    storeChunks_frame name info staged.ctx.nextInode wire chunks
                      (openedState name info staged.ctx) (staged.ctx.nextInode + 1)
                      staged.ctx.fileCount (files ++ [streamedFile name info staged.ctx.nextInode 0])
                  obtain ⟨hnext, hcount⟩ := storeChunks_counts name info staged.ctx.nextInode wire
                    chunks (openedState name info staged.ctx)
                  refine .inr ⟨_, _, _, rfl, rfl, behind_of_none files' hnone h.nothing ?_⟩
                  rw [hstore, hnext, hcount]
                  rfl

/-- One entry more, while the number that is next and the count of files moved on. -/
theorem flushStaged_more {waiting : List StagedEntry} {entry : StagedEntry} {s s' : WriterState}
    {chunks : List Bytes} (hflush : flushStaged env codecs waiting s = some s')
    (hslice : codecs.chunker.chunkSlice env.threads entry.data = some chunks) (n k : Nat)
    (files : List PendingFile) :
    ∃ files', flushStaged env codecs (waiting ++ [entry]) (s.frame n k files)
      = some ((storeStaged env codecs entry chunks s').frame n k files') := by
  rw [flushStaged_append, flushStaged_frame, hflush, Option.map_some, Option.bind_some,
    flushEntry_eq, hslice, Option.map_some]
  exact ⟨_, congrArg some (storeStaged_frame entry chunks s' n k _)⟩

/-- A file that is stored in one, and staged in the other. -/
theorem stageFile_behind (h : Behind env codecs serial staged) {name : Bytes} {info : EntryMeta}
    {xattrs : List (Bytes × Bytes)} {reader : List ReadResult}
    (hdone : FastCDC.completes reader = true) (hlen : (FastCDC.delivered reader).length < 2 ^ 63)
    (hcond : Stageable codecs staged
      (.stageFile name info xattrs (FastCDC.delivered reader))) :
    StaysBehind env codecs (serial.addFile env codecs name info xattrs reader)
      (some (staged.stageFile name info xattrs (FastCDC.delivered reader))) := by
  cases hslot : (newSlot name staged.tree).2 with
  | error e =>
      have hserial : (newSlot name serial.tree).2 = .error e := h.tree ▸ hslot
      rw [stageFile_refused hslot, addFile_refused hserial]
      exact .inr ⟨_, _, _, rfl, rfl, h.withParents name⟩
  | ok slot =>
      have hserial : (newSlot name serial.tree).2 = .ok slot := h.tree ▸ hslot
      rcases hcond with hnone | ⟨hbuffer, wire, hwire, hempty⟩
      · rw [hslot] at hnone
        cases hnone
      · obtain ⟨chunks, hslice, hread⟩ := FastCDC.chunkReader_eq_chunkSlice hdone hbuffer hlen
        have hparts := (FastCDC.chunkSlice_partition _ hslice).1
        have hsliced : ∀ entry : StagedEntry, entry.data = FastCDC.delivered reader →
            codecs.chunker.chunkSlice env.threads entry.data = some chunks := by
          intro entry hentry
          rw [hentry, FastCDC.chunkSlice_scalar, hslice]
        rw [stageFile_staged hslot hwire, addFile_stored hserial hwire hread, h.tree, h.nextInode]
        refine .inr ⟨_, _, _, rfl, rfl, h.nothing, rfl, ?_⟩
        obtain ⟨s, files, hflush, hctx⟩ := h.flushed
        obtain ⟨files', hstore⟩ := storeChunks_eq hparts hempty (openedState name info serial.ctx)
        obtain ⟨files'', hmore⟩ := flushStaged_more hflush
          (hsliced ⟨name, info, wire, staged.ctx.nextInode, _⟩ rfl) (staged.ctx.nextInode + 1)
          (staged.ctx.fileCount + 1) staged.ctx.pendingFiles
        refine ⟨_, files', hmore, hstore.trans ?_⟩
        have hopened : openedState name info serial.ctx = s.frame (staged.ctx.nextInode + 1)
            staged.ctx.fileCount (files ++ [streamedFile name info staged.ctx.nextInode 0]) := by
          rw [hctx]
          rfl
        rw [hopened, storeStaged_frame]
        rfl

theorem step_behind (h : Behind env codecs serial staged) {call call' : StreamCall}
    (hre : Restaged call call') (hcond : Stageable codecs staged call') :
    StaysBehind env codecs (call.run env codecs serial) (call'.run env codecs staged) := by
  cases hre with
  | addFile name info xattrs reader => exact addFile_behind h hcond
  | addDir name info => exact addDir_behind h name info
  | addHardlink name target => exact addHardlink_behind h name target
  | addSymlink name target info => exact addSymlink_behind h hcond target info
  | staged name info xattrs hdone hlen => exact stageFile_behind h hdone hlen hcond

/-! ### Whole sequences -/

/-- Both sequences panic, or the staged writer ends one flush behind. -/
theorem runCalls_behind : ∀ {calls calls' : List StreamCall} {serial staged : StreamWriter},
    List.Forall₂ Restaged calls calls' → Behind env codecs serial staged →
    Along env codecs (Stageable codecs) calls' staged →
    (runCalls env codecs calls serial = none ∧ runCalls env codecs calls' staged = none) ∨
      ∃ w w', runCalls env codecs calls serial = some w ∧
        runCalls env codecs calls' staged = some w' ∧ Behind env codecs w w' := by
  intro calls calls' serial staged hall
  induction hall generalizing serial staged with
  | nil =>
      intro h _
      exact .inr ⟨serial, staged, rfl, rfl, h⟩
  | @cons call call' rest rest' hre _ ih =>
      intro h halong
      obtain ⟨hcond, hrest⟩ := halong
      unfold runCalls
      rcases step_behind h hre hcond with ⟨hnone, hnone'⟩ | ⟨w, w', result, hw, hw', hnext⟩
      · rw [hnone, hnone']
        exact .inl ⟨rfl, rfl⟩
      · rw [hw, hw']
        exact ih hnext (hrest _ hw')

/-! ### Finishing -/

/-- **One flush behind, `finish` gives the same.** -/
theorem finish_behind (h : Behind env codecs serial staged) (dictionaries : DictionaryConfig) :
    serial.finish env codecs dictionaries = staged.finish env codecs dictionaries := by
  obtain ⟨s, files, hflush, hctx⟩ := h.flushed
  have hserial : flushStaged env codecs serial.staged serial.ctx = some (s.withFiles files) := by
    have hself := flushStaged_self hflush
    rw [h.nothing, hctx, hself]
    rfl
  unfold StreamWriter.finish StreamWriter.finishContext
  rw [hserial, hflush]
  simp only
  rw [resolveDeferredLinks_withFiles, h.tree]
  cases resolveDeferredLinks staged.tree s with
  | error e => rfl
  | ok resolved =>
      simp only [Except.map]
      rw [materializeNode_withFiles]
      cases materializeNode env (rootNode resolved.1) resolved.2 with
      | error e => rfl
      | ok root =>
          simp only [Except.map]
          have htrain : trainAndApplyDictionary env dictionaries
              { root.2.withFiles files with rootInodeNumber := root.1.1 } = _ :=
            trainAndApplyDictionary_withFiles files dictionaries
              { root.2 with rootInodeNumber := root.1.1 }
          rw [htrain]
          rfl

theorem behind_self (hnone : serial.staged = []) : Behind env codecs serial serial where
  nothing := hnone
  tree := rfl
  flushed := by
    refine ⟨serial.ctx, serial.ctx.pendingFiles, ?_, rfl⟩
    rw [hnone]
    rfl

theorem new_staged {config : WriteConfig} {started : StreamCodecs × StreamWriter}
    (hnew : StreamWriter.new config = .ok started) : started.2.staged = [] := by
  obtain ⟨chunker, -, hnew⟩ := except_bind_eq_ok.mp hnew
  obtain ⟨codecs, -, hnew⟩ := except_bind_eq_ok.mp hnew
  cases hnew
  rfl

/-- **Staging some of the files does not change the image**, in every sequence in which each call
meets `Stageable`. -/
theorem staged_packing_agrees {config : WriteConfig} {calls calls' : List StreamCall}
    (hre : List.Forall₂ Restaged calls calls')
    (hcond : ∀ started, StreamWriter.new config = .ok started →
      Along env started.1 (Stageable started.1) calls' started.2) :
    streamImage env config calls = streamImage env config calls' := by
  unfold streamImage
  cases hnew : StreamWriter.new config with
  | error e => rfl
  | ok started =>
      show packStream env started.1 config.dictionaries calls started.2
        = packStream env started.1 config.dictionaries calls' started.2
      unfold packStream
      rcases runCalls_behind hre (behind_self (new_staged hnew)) (hcond started hnew) with
        ⟨hnone, hnone'⟩ | ⟨w, w', hw, hw', hbehind⟩
      · rw [hnone, hnone']
      · rw [hw, hw']
        exact finish_behind hbehind config.dictionaries

end

namespace Stored

def entryInfo : EntryMeta := .new 0 0o644

/-- A link, and a file of five bytes that is staged or not. -/
def linkThenFile (staged : Bool) : List StreamCall :=
  [.addSymlink [0x6C] [0x61] entryInfo,
    if staged then .stageFile [0x61] entryInfo [] [1, 2, 3, 4, 5]
    else .addFile [0x61] entryInfo [] [.bytes [1, 2, 3], .bytes [4, 5]]]

/-- The same the other way round. -/
def fileThenLink (staged : Bool) : List StreamCall := (linkThenFile staged).reverse

end Stored

open LimniFS.Stored

theorem exists_bytes_ne {x y : Except WriteStop WriteArtifact}
    (h : (x.toOption.bind fun a => y.toOption.map fun a' => decide (a.bytes ≠ a'.bytes))
      = some true) :
    ∃ a a', x = .ok a ∧ y = .ok a' ∧ a.bytes ≠ a'.bytes := by
  cases x with
  | error e => cases h
  | ok a =>
      cases y with
      | error e => cases h
      | ok a' => exact ⟨a, a', rfl, rfl, of_decide_eq_true (Option.some.inj h)⟩

/-- The inode of a staged file comes behind that of the link that was added after it. -/
theorem staged_before_link_differs :
    List.Forall₂ Restaged (fileThenLink false) (fileThenLink true) ∧
    ∃ a a' : WriteArtifact,
      streamImage writerEnv writeConfig (fileThenLink false) = .ok a ∧
      streamImage writerEnv writeConfig (fileThenLink true) = .ok a' ∧
      a.bytes ≠ a'.bytes :=
  ⟨.cons (.staged _ _ _ rfl (by decide)) (.cons (.addSymlink _ _ _) .nil),
    exists_bytes_ne (by decide +kernel)⟩

theorem linkThenFile_restaged :
    List.Forall₂ Restaged (linkThenFile false) (linkThenFile true) :=
  .cons (.addSymlink _ _ _) (.cons (.staged _ _ _ rfl (by decide)) .nil)

theorem maxSize_of_new {started : StreamCodecs × StreamWriter}
    (hnew : StreamWriter.new writeConfig = .ok started) :
    started.1.chunker.scalar.maxSize = 4 := by
  have hget : (StreamWriter.new writeConfig).toOption.map
      (fun started => started.1.chunker.scalar.maxSize) = some 4 := by decide +kernel
  rw [hnew] at hget
  exact Option.some.inj hget

theorem staged_packing_agrees_link :
    streamImage writerEnv writeConfig (linkThenFile false)
      = streamImage writerEnv writeConfig (linkThenFile true) := by
  refine staged_packing_agrees linkThenFile_restaged ?_
  intro started hnew
  have hmax := maxSize_of_new hnew
  refine ⟨.inl (new_staged hnew), fun called _ => ⟨.inr ⟨?_, [], rfl, fun _ => rfl⟩, ?_⟩⟩
  · rw [hmax]
    decide
  · exact fun called _ => trivial

end LimniFS
