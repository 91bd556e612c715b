/-
Sequences of calls on a stream writer.

The calls are the steps, and a sequence goes on after a call that failed.  What a call
does is said once here for each of its outcomes, so that nothing later looks into it.
-/
import LimniFS.StreamWriter

namespace LimniFS

open Lib

inductive StreamCall where
  | addFile (name : Bytes) (info : EntryMeta) (xattrs : List (Bytes × Bytes))
      (reader : List ReadResult)
  | stageFile (name : Bytes) (info : EntryMeta) (xattrs : List (Bytes × Bytes)) (data : Bytes)
  | addDir (name : Bytes) (info : EntryMeta)
  | addHardlink (name target : Bytes)
  | addSymlink (name target : Bytes) (info : EntryMeta)

section

variable (env : WriterEnv) (codecs : StreamCodecs)

def StreamCall.run (w : StreamWriter) : StreamCall → Option Called
  | .addFile name info xattrs reader => StreamWriter.addFile env codecs name info xattrs reader w
  | .stageFile name info xattrs data => some (StreamWriter.stageFile name info xattrs data w)
  | .addDir name info => some (StreamWriter.addDir name info w)
  | .addHardlink name target => some (StreamWriter.addHardlink name target w)
  | .addSymlink name target info => some (StreamWriter.addSymlink name target info w)

/-- One call after another; a call that fails does not end the sequence. -/
def runCalls : List StreamCall → StreamWriter → Option StreamWriter
  | [], w => some w
  | call :: rest, w =>
    match call.run env codecs w with
    | none => none
    | some called => runCalls rest called.1

/-- All calls and then `finish`. -/
def packStream (dictionaries : DictionaryConfig) (calls : List StreamCall) (w : StreamWriter) :
    Except WriteStop WriteArtifact :=
  match runCalls env codecs calls w with
  | none => .error .panicked
  | some w => w.finish env codecs dictionaries

/-- The image of a sequence of calls. -/
def streamImage (config : WriteConfig) (calls : List StreamCall) :
    Except WriteStop WriteArtifact := do
  let started ← StreamWriter.new config
  packStream env started.1 config.dictionaries calls started.2

/-- Every call of a sequence meets a condition on the writer it finds. -/
def Along (P : StreamWriter → StreamCall → Prop) : List StreamCall → StreamWriter → Prop
  | [], _ => True
  | call :: rest, w =>
    P w call ∧ ∀ called, call.run env codecs w = some called → Along P rest called.1

end

/-! ### What each call does -/

section

variable {env : WriterEnv} {codecs : StreamCodecs} {w : StreamWriter} {name : Bytes}
  {info : EntryMeta} {xattrs : List (Bytes × Bytes)}

/-- The writer once the directories of a name were made. -/
abbrev StreamWriter.withParents (w : StreamWriter) (name : Bytes) : StreamWriter :=
  { w with tree := (newSlot name w.tree).1 }

/-- The next inode number is taken. -/
def WriterState.allocInode (s : WriterState) : WriterState := { s with nextInode := s.nextInode + 1 }

section

variable {reader : List ReadResult} {e : WriteError} {slot : Slot} {wire : List XAttr}

theorem addFile_refused (hslot : (newSlot name w.tree).2 = .error e) :
    w.addFile env codecs name info xattrs reader = some (w.withParents name, .error e) := by
  unfold StreamWriter.addFile
  simp only [hslot]

theorem addFile_unrepresentable (hslot : (newSlot name w.tree).2 = .ok slot)
    (hwire : toWireXattrs xattrs = .error e) :
    w.addFile env codecs name info xattrs reader
      = some ({ w.withParents name with ctx := w.ctx.allocInode }, .error e) := by
  unfold StreamWriter.addFile
  simp only [hslot, hwire, WriterState.allocInode]

/-- The state in which the reader is opened. -/
def openedState (name : Bytes) (info : EntryMeta) (s : WriterState) : WriterState :=
  { s.allocInode with
    pendingFiles := s.pendingFiles ++ [streamedFile name info s.nextInode 0] }

theorem addFile_opened (hslot : (newSlot name w.tree).2 = .ok slot)
    (hwire : toWireXattrs xattrs = .ok wire) :
    w.addFile env codecs name info xattrs reader
      = StreamWriter.storeRead env codecs
          { w.withParents name with ctx := openedState name info w.ctx } name info
          w.ctx.nextInode wire slot (codecs.chunker.scalar.chunkReader reader) := by
  unfold StreamWriter.addFile
  simp only [hslot, hwire, openedState, WriterState.allocInode]

theorem addFile_unread {text : String} (hslot : (newSlot name w.tree).2 = .ok slot)
    (hwire : toWireXattrs xattrs = .ok wire)
    (hread : codecs.chunker.scalar.chunkReader reader = some (.error text)) :
    w.addFile env codecs name info xattrs reader
      = some ({ w.withParents name with ctx := openedState name info w.ctx },
        .error (.io text)) := by
  rw [addFile_opened hslot hwire, hread]
  rfl

theorem addFile_panicked (hslot : (newSlot name w.tree).2 = .ok slot)
    (hwire : toWireXattrs xattrs = .ok wire)
    (hread : codecs.chunker.scalar.chunkReader reader = none) :
    w.addFile env codecs name info xattrs reader = none := by
  rw [addFile_opened hslot hwire, hread]
  rfl

theorem addFile_stored {chunks : List Bytes} (hslot : (newSlot name w.tree).2 = .ok slot)
    (hwire : toWireXattrs xattrs = .ok wire)
    (hread : codecs.chunker.scalar.chunkReader reader = some (.ok chunks)) :
    w.addFile env codecs name info xattrs reader
      = some ({ w.withParents name with
          ctx := storeChunks env codecs name info w.ctx.nextInode wire chunks
            (openedState name info w.ctx)
          tree := slot.put (.leaf (.file w.ctx.nextInode)) (newSlot name w.tree).1 },
        .ok ()) := by
  rw [addFile_opened hslot hwire, hread]
  rfl

theorem stageFile_refused {data : Bytes} (hslot : (newSlot name w.tree).2 = .error e) :
    w.stageFile name info xattrs data = (w.withParents name, .error e) := by
  unfold StreamWriter.stageFile
  simp only [hslot]

/-- The writer with the staged file in its tree. -/
def StreamWriter.withStagedSlot (w : StreamWriter) (name : Bytes) (slot : Slot) : StreamWriter :=
  { w with
    ctx := { w.ctx.allocInode with fileCount := w.ctx.fileCount + 1 }
    tree := slot.put (.leaf (.file w.ctx.nextInode)) (newSlot name w.tree).1 }

theorem stageFile_unrepresentable {data : Bytes} (hslot : (newSlot name w.tree).2 = .ok slot)
    (hwire : toWireXattrs xattrs = .error e) :
    w.stageFile name info xattrs data = (w.withStagedSlot name slot, .error e) := by
  unfold StreamWriter.stageFile StreamWriter.withStagedSlot
  simp only [hslot, hwire, WriterState.allocInode]

theorem stageFile_staged {data : Bytes} (hslot : (newSlot name w.tree).2 = .ok slot)
    (hwire : toWireXattrs xattrs = .ok wire) :
    w.stageFile name info xattrs data
      = ({ w.withStagedSlot name slot with
          staged := w.staged ++ [⟨name, info, wire, w.ctx.nextInode, data⟩] }, .ok ()) := by
  unfold StreamWriter.stageFile StreamWriter.withStagedSlot
  simp only [hslot, hwire, WriterState.allocInode]

theorem addHardlink_refused {target : Bytes} (hslot : (newSlot name w.tree).2 = .error e) :
    w.addHardlink name target = (w.withParents name, .error e) := by
  unfold StreamWriter.addHardlink
  simp only [hslot]

theorem addHardlink_added {target : Bytes} (hslot : (newSlot name w.tree).2 = .ok slot) :
    w.addHardlink name target
      = ({ w with tree := slot.put (.leaf (.deferredLink target)) (newSlot name w.tree).1 },
        .ok ()) := by
  unfold StreamWriter.addHardlink
  simp only [hslot]

theorem addSymlink_refused {target : Bytes} (hslot : (newSlot name w.tree).2 = .error e) :
    w.addSymlink name target info = (w.withParents name, .error e) := by
  unfold StreamWriter.addSymlink
  simp only [hslot]

theorem addSymlink_added {target : Bytes} (hslot : (newSlot name w.tree).2 = .ok slot) :
    w.addSymlink name target info
      = ({ w with
          ctx := addInode w.ctx.allocInode
            (info.inode sIflnk w.ctx.nextInode [] (.symlink target))
          tree := slot.put (.leaf (.symlink w.ctx.nextInode)) (newSlot name w.tree).1 },
        .ok ()) := by
  unfold StreamWriter.addSymlink
  simp only [hslot, WriterState.allocInode]

end

variable (env codecs w name info xattrs) in
/-- What becomes of a file that is added. -/
inductive FileAdded (reader : List ReadResult) : Option Called → Prop
  | refused {e : WriteError} (hslot : (newSlot name w.tree).2 = .error e) :
      FileAdded reader (some (w.withParents name, .error e))
  | unrepresentable {slot : Slot} {e : WriteError} (hslot : (newSlot name w.tree).2 = .ok slot)
      (hwire : toWireXattrs xattrs = .error e) :
      FileAdded reader (some ({ w.withParents name with ctx := w.ctx.allocInode }, .error e))
  | panicked {slot : Slot} {wire : List XAttr} (hslot : (newSlot name w.tree).2 = .ok slot)
      (hwire : toWireXattrs xattrs = .ok wire)
      (hread : codecs.chunker.scalar.chunkReader reader = none) : FileAdded reader none
  | unread {slot : Slot} {wire : List XAttr} {text : String}
      (hslot : (newSlot name w.tree).2 = .ok slot) (hwire : toWireXattrs xattrs = .ok wire)
      (hread : codecs.chunker.scalar.chunkReader reader = some (.error text)) :
      FileAdded reader (some ({ w.withParents name with ctx := openedState name info w.ctx },
        .error (.io text)))
  | stored {slot : Slot} {wire : List XAttr} {chunks : List Bytes}
      (hslot : (newSlot name w.tree).2 = .ok slot) (hwire : toWireXattrs xattrs = .ok wire)
      (hread : codecs.chunker.scalar.chunkReader reader = some (.ok chunks)) :
      FileAdded reader (some ({ w.withParents name with
          ctx := storeChunks env codecs name info w.ctx.nextInode wire chunks
            (openedState name info w.ctx)
          tree := slot.put (.leaf (.file w.ctx.nextInode)) (newSlot name w.tree).1 }, .ok ()))

variable (env codecs w name info xattrs) in
theorem addFile_added (reader : List ReadResult) :
    FileAdded env codecs w name info xattrs reader
      (w.addFile env codecs name info xattrs reader) := by
  cases hslot : (newSlot name w.tree).2 with
  | error e =>
      rw [addFile_refused hslot]
      exact .refused hslot
  | ok slot =>
      cases hwire : toWireXattrs xattrs with
      | error e =>
          rw [addFile_unrepresentable hslot hwire]
          exact .unrepresentable hslot hwire
      | ok wire =>
          cases hread : codecs.chunker.scalar.chunkReader reader with
          | none =>
              rw [addFile_panicked hslot hwire hread]
              exact .panicked hslot hwire hread
          | some read =>
              cases read with
              | error text =>
                  rw [addFile_unread hslot hwire hread]
                  exact .unread hslot hwire hread
              | ok chunks =>
                  rw [addFile_stored hslot hwire hread]
                  exact .stored hslot hwire hread

end

end LimniFS
