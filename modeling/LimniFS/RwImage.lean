/-
An image opened for writing, and its write-ahead log.

Additions, updates and deletions are kept in memory until a commit: the new contents
by path, and every operation in the order it came.  Before a commit replaces anything
on disk, both are written to the log next to the manifest, under the hash of the
manifest they are based on.  Opening an image replays a log whose hash is that of the
manifest it finds.

The log keeps the contents as they are in the end and the operations as they were made,
and the replay first takes over the contents and then runs the operations on them.
-/
import LimniFS.ImageReader
import LimniFS.WriteConfig
import LimniFS.Lib.ParserRules
import Mathlib.Data.List.AList
import Mathlib.Data.List.DropRight

namespace LimniFS

open Lib Lib.Parser Cursor

/-! ### The handle -/

/-- `HashMap<String, _>`. -/
abbrev PathMap (α : Type) := AList fun _ : Bytes => α

structure OpenState where
  blob : MetadataBlob
  rootInode : Nat
  slabStore : Option SlabStore

namespace Rw

/-- An operation on a path; the numbers are those of the inodes it is about. -/
inductive HistoryEntry where
  | add (path : Bytes) (inode size : Nat)
  | update (path : Bytes) (oldInode newInode size : Nat)
  | delete (path : Bytes) (inode : Nat)
  deriving DecidableEq

namespace HistoryEntry

def path : HistoryEntry → Bytes
  | add path _ _ => path
  | update path _ _ _ => path
  | delete path _ => path

/-- The byte that names the operation in the log. -/
def opByte : HistoryEntry → UInt8
  | add .. => 1
  | update .. => 2
  | delete .. => 3

end HistoryEntry

structure RwImage where
  state : Option OpenState
  inodeMap : PathMap Nat
  pendingFiles : PathMap Bytes
  pendingHistory : List HistoryEntry
  nextInode : Nat
  baseManifestHash : Option Digest

/-- A path with one leading slash and none at the end. -/
def normalizePath (path : Bytes) : Bytes :=
  let trimmed := (path.dropWhile (· == slash)).rdropWhile (· == slash)
  if trimmed.isEmpty then [slash] else slash :: trimmed

/-- The characters of a path. -/
def textOf (path : Bytes) : String := (String.fromUTF8? ⟨path.toArray⟩).getD ""

namespace RwImage

def createNew : RwImage := ⟨none, ∅, ∅, [], 1, none⟩

def addFile (image : RwImage) (path data : Bytes) : RwImage :=
  let inode := image.nextInode
  let key := normalizePath path
  { image with
    nextInode := image.nextInode + 1
    pendingFiles := image.pendingFiles.insert key data
    inodeMap := image.inodeMap.insert key inode
    pendingHistory := image.pendingHistory ++ [.add key inode data.length] }

def updateFile (image : RwImage) (path data : Bytes) : Except WriteError RwImage :=
  let key := normalizePath path
  match image.inodeMap.lookup key with
  | none => .error (.io ("path not found: " ++ textOf path))
  | some oldInode =>
    let newInode := image.nextInode
    .ok { image with
      nextInode := image.nextInode + 1
      pendingFiles := image.pendingFiles.insert key data
      inodeMap := image.inodeMap.insert key newInode
      pendingHistory := image.pendingHistory ++ [.update key oldInode newInode data.length] }

def deleteFile (image : RwImage) (path : Bytes) : Except WriteError RwImage :=
  let key := normalizePath path
  match image.inodeMap.lookup key with
  | none => .error (.io ("path not found: " ++ textOf path))
  | some inode =>
    .ok { image with
      inodeMap := image.inodeMap.erase key
      pendingFiles := image.pendingFiles.erase key
      pendingHistory := image.pendingHistory ++ [.delete key inode] }

end RwImage

/-! ### The log -/

def walMagic : Bytes := ascii "LIMWAL" ++ [0, 0]

def pathStrBytes (path : Bytes) : Bytes := leBytes 4 path.length ++ path

def walFileBytes (file : Σ _ : Bytes, Bytes) : Bytes :=
  pathStrBytes file.1 ++ (leBytes 8 file.2.length ++ file.2)

def walEntryBytes (entry : HistoryEntry) : Bytes := entry.opByte :: pathStrBytes entry.path

/-- The hash of the manifest the operations are based on; zeros if there is none. -/
def walTag (image : RwImage) : Bytes :=
  match image.baseManifestHash with
  | some hash => hash.val
  | none => List.replicate 32 0

/-- `write_wal`, with the pending files in the order the map gives them. -/
def writeWal (image : RwImage) (files : List (Σ _ : Bytes, Bytes)) : Bytes :=
  walMagic ++ (walTag image ++ (leBytes 4 files.length ++ (files.flatMap walFileBytes
    ++ (leBytes 4 image.pendingHistory.length ++ image.pendingHistory.flatMap walEntryBytes))))

/-! ### The replay -/

/-- The log's cursor says only that it failed. -/
def walError : CoreError := .corrupt ""

def readPathStr : CoreParser Bytes := do
  let len ← readU32Le
  let bytes ← readN len
  ensure (utf8Valid bytes = true) walError
  pure bytes

def replayFile (files : PathMap Bytes) : CoreParser (PathMap Bytes) := do
  let path ← readPathStr
  let len ← readU64Le
  let data ← readN len
  pure (files.insert path data)

def pendingSize (image : RwImage) (path : Bytes) : Nat :=
  (image.pendingFiles.lookup path).elim 0 List.length

/-- An operation of the log; the inode numbers are given out anew. -/
def replayOp (image : RwImage) (op : UInt8) (path : Bytes) : RwImage :=
  if op = 1 then
    { image with
      nextInode := image.nextInode + 1
      inodeMap := image.inodeMap.insert path image.nextInode
      pendingHistory := image.pendingHistory
        ++ [.add path image.nextInode (pendingSize image path)] }
  else if op = 2 then
    { image with
      nextInode := image.nextInode + 1
      inodeMap := image.inodeMap.insert path image.nextInode
      pendingHistory := image.pendingHistory
        ++ [.update path ((image.inodeMap.lookup path).getD 0) image.nextInode
          (pendingSize image path)] }
  else
    { image with
      inodeMap := image.inodeMap.erase path
      pendingFiles := image.pendingFiles.erase path
      pendingHistory := image.pendingHistory
        ++ [.delete path ((image.inodeMap.lookup path).getD 0)] }

def replayEntry (image : RwImage) : CoreParser RwImage := do
  let op ← readU8
  let path ← readPathStr
  ensure (op = 1 ∨ op = 2 ∨ op = 3) walError
  pure (replayOp image op path)

/-- What the log holds behind its header. -/
def replayBody (image : RwImage) (bytes : Bytes) : RwImage :=
  match readU32Le bytes with
  | (.error _, _) => image
  | (.ok filesCount, rest) =>
    let (files, rest) := rounds replayFile filesCount image.pendingFiles rest
    let (histCount, rest) := match readU32Le rest with
      | (.ok n, rest) => (n, rest)
      | (.error _, rest) => (0, rest)
    (rounds replayEntry histCount { image with pendingFiles := files } rest).1

section
variable (H : Hash)

/-- `replay_wal_if_present`, with the manifest on disk. -/
def replayWal (onDisk : Option Bytes) (image : RwImage) : Option Bytes → RwImage
  | none => image
  | some bytes =>
    if bytes.length < 40 ∨ bytes.take 8 ≠ walMagic then image
    else if onDisk.map (fun m => (hashSection H m).val) ≠ some ((bytes.drop 8).take 32) then image
    else replayBody image (bytes.drop 40)

/-! ### Opening -/

/-- The loop of `build_path_index`; nothing while there is something left to visit. -/
def indexLoop (blob : MetadataBlob) :
    Nat → List (Nat × Bytes) → PathMap Nat → Option (PathMap Nat)
  | _, [], index => some index
  | 0, _ :: _, _ => none
  | fuel + 1, (number, dirPath) :: queue, index =>
    let entries := match (blob.inodeByNumber number).map Inode.contentHandle with
      | some (.directory hash) => (blob.dirNodeByHash H hash).elim [] DirectoryNode.entries
      | _ => []
    let below := entries.map fun e =>
      (e.inodeNumber, (if dirPath = [slash] then [slash] else dirPath ++ [slash]) ++ e.name)
    indexLoop blob fuel (queue ++ below)
      (below.foldl (fun index e => index.insert e.2 e.1) index)

/-- `build_path_index`, as far as `fuel` directories go. -/
def buildPathIndex (blob : MetadataBlob) (fuel : Nat) : Option (PathMap Nat) :=
  match blob.rootInodeNumber with
  | none => some ∅
  | some root =>
      indexLoop H blob fuel [(root, [slash])] ((∅ : PathMap Nat).insert [slash] root)

variable (z : Omnizip)

def openState (image : ImageFile) : Except CoreError OpenState := do
  let (front, rest) ← (parseManifestFront z).run image.manifest
  let blobBytes ← metadataBytes z image.dir front.metadataReference
  let (blob, _) ← parseMetadataBlob.run blobBytes
  let (slabIndex, _) ← parseSlabIndex.run rest
  let slabStore ← if slabIndex.entries = [] then pure none
    else (SlabStore.load image.dir slabIndex).map some
  match blob.rootInodeNumber with
  | none =>
      .error (.corrupt "metadata blob: could not identify a unique root directory inode")
  | some root => .ok ⟨blob, root, slabStore⟩

/-- The handle before the log is looked at. -/
def freshHandle (image : ImageFile) (state : OpenState) (index : PathMap Nat) : RwImage where
  state := some state
  inodeMap := index
  pendingFiles := ∅
  pendingHistory := []
  nextInode := (state.blob.inodes.map Inode.number).foldl max 0 + 1
  baseManifestHash := some (hashSection H image.manifest)

/-- `RwImage::open`; nothing if the index is not finished within `fuel`. -/
def openImage (fuel : Nat) (image : ImageFile) (wal : Option Bytes) :
    Except CoreError (Option RwImage) := do
  let state ← openState z image
  pure ((buildPathIndex H state.blob fuel).map fun index =>
    replayWal H (some image.manifest) (freshHandle H image state index) wal)

end

end Rw

end LimniFS
