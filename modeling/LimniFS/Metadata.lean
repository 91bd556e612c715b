/-
The metadata blob: inodes, directory nodes and the shared inline table.

A regular file's content is inline bytes, an index into the shared table, or a slice
map; the parser only lets a slice map through that covers the file contiguously from
byte 0, and that is a field of `SliceMap` here rather than a fact to be carried
around.  Directories point to their node by the hash of the node's bytes, which a
reader computes again from the parsed entries.
-/
import LimniFS.ManifestSections

namespace LimniFS

open Lib Lib.Parser Cursor

/-! ### Inodes -/

def inodeFixedPrefixLen : Nat := 41

def inodeFlagAtime : UInt8 := 0x01
def inodeFlagHasXattrs : UInt8 := 0x02
def inodeFlagInlineData : UInt8 := 0x04
def inodeFlagSharedInline : UInt8 := 0x08
def inodeFlagReservedMask : UInt8 := 0xF0

def sIfmt : Nat := 0xF000
def sIfreg : Nat := 0x8000
def sIfdir : Nat := 0x4000
def sIflnk : Nat := 0xA000
def sIfblk : Nat := 0x6000
def sIfchr : Nat := 0x2000
def sIfifo : Nat := 0x1000
def sIfsock : Nat := 0xC000

def defaultInlineDataMaxBytes : Nat := 4 * 1024

structure XAttr where
  namespace_ : UInt8
  key : Bytes
  value : Bytes
  deriving DecidableEq

/-- A byte range of a file, never empty, and the byte range of a drop's plaintext behind it. -/
structure SliceRef where
  fileByteStart : Nat
  fileByteEnd : Nat
  dropId : Digest
  dropByteStart : Nat
  dropByteLen : Nat
  start_lt_end : fileByteStart < fileByteEnd
  deriving DecidableEq

/-- The first slice that does not start where the one before it ended. -/
def sliceMapGap : Nat → Nat → List SliceRef → Option (Nat × Nat × Nat)
  | _, _, [] => none
  | index, expectedStart, s :: rest =>
      if s.fileByteStart ≠ expectedStart then some (index, s.fileByteStart, expectedStart)
      else sliceMapGap (index + 1) s.fileByteEnd rest

/-- The slices of a file: each starts where the one before it ended, the first at byte 0. -/
structure SliceMap where
  slices : List SliceRef
  contiguous : sliceMapGap 0 0 slices = none
  deriving DecidableEq

inductive ContentHandle where
  | inlineData (data : Bytes)
  | sharedInline (index : Nat)
  | sliceMap (map : SliceMap)
  | directory (hash : Digest)
  | symlink (target : Bytes)
  | device (dev : Nat)
  | pipe (pipeId : Nat)
  deriving DecidableEq

structure Inode where
  number : Nat
  mode : Nat
  uid : Nat
  gid : Nat
  mtimeNs : Nat
  ctimeNs : Nat
  nlink : Nat
  atimeNs : Option Nat
  xattrs : List XAttr
  contentHandle : ContentHandle
  deriving DecidableEq

namespace Inode

def fileType (inode : Inode) : Nat := inode.mode &&& sIfmt

def isRegular (inode : Inode) : Bool := inode.fileType == sIfreg

def isDirectory (inode : Inode) : Bool := inode.fileType == sIfdir

/-- The slices of a slice-backed file; none for every other handle. -/
def slices (inode : Inode) : List SliceRef :=
  match inode.contentHandle with
  | .sliceMap map => map.slices
  | _ => []

/-- The span from the first slice's start to the last slice's end, or the inline length. -/
def fileLen (inode : Inode) : Nat :=
  match inode.contentHandle with
  | .inlineData data => data.length
  | .sliceMap map =>
      match map.slices.getLast? with
      | none => 0
      | some last => last.fileByteEnd - (map.slices.head?.elim 0 fun f => f.fileByteStart)
  | _ => 0

end Inode

def parseXattr (_index : Nat) (xattrs : List XAttr) : CoreParser (List XAttr) := do
  let ns ← readU8
  ensure (ns ≤ 0x03)
    (.corrupt ("xattr namespace " ++ hex2 ns ++ " out of range (0x00..0x03)"))
  let keyLen ← readU32Le
  let key ← readN keyLen
  ensure (utf8Valid key = true) (.corrupt "xattr key is not valid UTF-8")
  ensure (0 ∉ key) (.corrupt "xattr key contains NUL byte")
  let valueLen ← readU32Le
  let value ← readN valueLen
  pure (xattrs ++ [⟨ns, key, value⟩])

def parseXattrBlock : CoreParser (List XAttr) := do
  let count ← readU32Le
  loop parseXattr count 0 []

def parseSliceRef (inodeNumber _index : Nat) (slices : List SliceRef) :
    CoreParser (List SliceRef) := do
  let fileByteStart ← readU64Le
  let fileByteEnd ← readU64Le
  if h : fileByteStart < fileByteEnd then do
    let dropId ← readHash
    let dropByteStart ← readU32Le
    let dropByteLen ← readU32Le
    pure (slices ++ [⟨fileByteStart, fileByteEnd, dropId, dropByteStart, dropByteLen, h⟩])
  else fail (.corrupt (s!"inode {inodeNumber}: slice has file_byte_start ({fileByteStart})"
    ++ s!" >= file_byte_end ({fileByteEnd})"))

def validateSliceMap (inodeNumber : Nat) (slices : List SliceRef) : Except CoreError SliceMap :=
  match h : sliceMapGap 0 0 slices with
  | none => .ok ⟨slices, h⟩
  | some (index, start, expected) =>
      .error (.corrupt (s!"inode {inodeNumber}: slice {index} starts at byte {start}, expected"
        ++ s!" {expected} (map must be contiguous from byte 0)"))

def parseContentHandle (mode : Nat) (flags : UInt8) (inodeNumber maxInlineBytes : Nat) :
    CoreParser ContentHandle :=
  let fileType := mode &&& sIfmt
  if fileType = sIfreg then
    if flags &&& inodeFlagSharedInline ≠ 0 then do
      let index ← readU32Le
      pure (.sharedInline index)
    else if flags &&& inodeFlagInlineData ≠ 0 then do
      let inlineLen ← readU32Le
      ensure (inlineLen ≤ maxInlineBytes)
        (.corrupt (s!"inode {inodeNumber}: inline_data_len {inlineLen} exceeds ceiling"
          ++ s!" {maxInlineBytes}"))
      let data ← readN inlineLen
      pure (.inlineData data)
    else do
      let sliceCount ← readU32Le
      let slices ← loop (parseSliceRef inodeNumber) sliceCount 0 []
      let map ← liftExcept (validateSliceMap inodeNumber slices)
      pure (.sliceMap map)
  else if fileType = sIfdir then do
    let hash ← readHash
    pure (.directory hash)
  else if fileType = sIflnk then do
    let targetLen ← readU32Le
    let target ← readN targetLen
    ensure (utf8Valid target = true) (.corrupt "symlink target is not valid UTF-8")
    pure (.symlink target)
  else if fileType = sIfblk ∨ fileType = sIfchr then do
    let dev ← readU64Le
    pure (.device dev)
  else if fileType = sIfifo ∨ fileType = sIfsock then do
    let pipeId ← readU64Le
    pure (.pipe pipeId)
  else fail (.corrupt (s!"inode {inodeNumber}: unknown file type " ++ hex4 fileType))

def parseInodeWithCeiling (maxInlineBytes : Nat) : CoreParser Inode := do
  let number ← readU64Le
  let mode ← readU32Le
  let uid ← readU32Le
  let gid ← readU32Le
  let mtimeNs ← readU64Le
  let ctimeNs ← readU64Le
  let nlink ← readU32Le
  let flags ← readU8
  ensure (flags &&& inodeFlagReservedMask = 0)
    (.corrupt (s!"inode {number}: reserved flag bits set (" ++ hex2 flags ++ ")"))
  let atimeNs ← if flags &&& inodeFlagAtime ≠ 0 then some <$> readU64Le else pure none
  let xattrs ← if flags &&& inodeFlagHasXattrs ≠ 0 then parseXattrBlock else pure []
  let contentHandle ← parseContentHandle mode flags number maxInlineBytes
  pure ⟨number, mode, uid, gid, mtimeNs, ctimeNs, nlink, atimeNs, xattrs, contentHandle⟩

/-! ### Directory nodes -/

def directoryNodeVersion : UInt8 := 1

namespace EntryType

def file : UInt8 := 0x01
def directory : UInt8 := 0x02
def symlink : UInt8 := 0x03
def special : UInt8 := 0x04

end EntryType

structure DirEntry where
  name : Bytes
  inodeNumber : Nat
  entryType : UInt8
  deriving DecidableEq

structure DirectoryNode where
  version : UInt8
  entries : List DirEntry
  deriving DecidableEq

/-- The byte `/`. -/
def slash : UInt8 := 0x2F

/-- The last name before this one, and that it sorts before it. -/
def sortedAfter (entries : List DirEntry) (name : Bytes) : Prop :=
  ∀ prev ∈ entries.getLast?, prev.name < name

instance (entries : List DirEntry) (name : Bytes) : Decidable (sortedAfter entries name) :=
  inferInstanceAs (Decidable (∀ prev ∈ entries.getLast?, prev.name < name))

def parseDirEntry (index : Nat) (entries : List DirEntry) : CoreParser (List DirEntry) := do
  let nameLen ← readU32Le
  let name ← readN nameLen
  ensure (name ≠ []) (.corrupt s!"directory node entry {index}: empty name")
  ensure (slash ∉ name) (.corrupt s!"directory node entry {index}: name contains '/'")
  ensure (0 ∉ name) (.corrupt s!"directory node entry {index}: name contains NUL byte")
  ensure (utf8Valid name = true)
    (.corrupt s!"directory node entry {index}: name is not valid UTF-8")
  ensure (sortedAfter entries name)
    (.corrupt ("directory node: entries not sorted ("
      ++ debugStr (entries.getLast?.elim [] DirEntry.name) ++ " >= " ++ debugStr name ++ ")"))
  let inodeNumber ← readU64Le
  let entryType ← readU8
  ensure (entryType ∈ [EntryType.file, EntryType.directory, EntryType.symlink, EntryType.special])
    (.corrupt (s!"directory node entry {index}: invalid entry_type " ++ hex2 entryType))
  pure (entries ++ [⟨name, inodeNumber, entryType⟩])

def parseDirectoryNode : CoreParser DirectoryNode := do
  let version ← readU8
  ensure (version = directoryNodeVersion)
    (.unsupportedFeature s!"directory node version {version}")
  let entryCount ← readU32Le
  let entries ← loop parseDirEntry entryCount 0 []
  pure ⟨version, entries⟩

/-- The bytes whose hash names a directory node. -/
def dirNodeBytes (entries : List DirEntry) : Bytes :=
  [1] ++ leBytes 4 entries.length
    ++ entries.flatMap fun e =>
      leBytes 4 e.name.length ++ e.name ++ leBytes 8 e.inodeNumber ++ [e.entryType]

def dirNodeHash (H : Hash) (entries : List DirEntry) : Digest := H (dirNodeBytes entries)

/-! ### The blob -/

structure MetadataBlob where
  inodes : List Inode
  dirNodes : List DirectoryNode
  deriving DecidableEq

namespace MetadataBlob

def inodeByNumber (blob : MetadataBlob) (number : Nat) : Option Inode :=
  blob.inodes.find? fun i => i.number == number

def dirNodeByHash (H : Hash) (blob : MetadataBlob) (hash : Digest) : Option DirectoryNode :=
  blob.dirNodes.find? fun n => dirNodeHash H n.entries == hash

/-- The one directory no directory entry refers to. -/
def rootInodeNumber (blob : MetadataBlob) : Option Nat :=
  let referenced := blob.dirNodes.flatMap fun node => node.entries.map DirEntry.inodeNumber
  match blob.inodes.filter fun i => i.isDirectory && !referenced.contains i.number with
  | [root] => some root.number
  | _ => none

end MetadataBlob

def parseInodes (maxInlineBytes _index : Nat) (inodes : List Inode) : CoreParser (List Inode) := do
  let inode ← parseInodeWithCeiling maxInlineBytes
  pure (inodes ++ [inode])

def parseDirNodes (_index : Nat) (nodes : List DirectoryNode) :
    CoreParser (List DirectoryNode) := do
  let node ← parseDirectoryNode
  pure (nodes ++ [node])

def parseSharedInline (maxInlineBytes _index : Nat) (table : List Bytes) :
    CoreParser (List Bytes) := do
  let dataLen ← readU32Le
  ensure (dataLen ≤ maxInlineBytes)
    (.corrupt s!"shared inline entry len {dataLen} exceeds ceiling {maxInlineBytes}")
  let data ← readN dataLen
  pure (table ++ [data])

/-- A shared-inline handle takes its bytes from the table. -/
def resolveSharedInline (table : List Bytes) (inode : Inode) : Except CoreError Inode :=
  match inode.contentHandle with
  | .sharedInline index =>
      match table[index]? with
      | some data => .ok { inode with contentHandle := .inlineData data }
      | none => .error (.corrupt (s!"shared inline index {index} out of range (table has"
          ++ s!" {table.length} entries)"))
  | _ => .ok inode

/-- The table is there only if four bytes are left for its count. -/
def parseSharedTable (maxInlineBytes : Nat) (inodes : List Inode) : CoreParser (List Inode) :=
  fun bs =>
    if 4 ≤ bs.length then
      (do
        let sharedCount ← readU32Le
        let table ← loop (parseSharedInline maxInlineBytes) sharedCount 0 []
        liftExcept (inodes.mapM (resolveSharedInline table)) : CoreParser (List Inode)) bs
    else (.ok inodes, bs)

def parseMetadataBlobWithCeiling (maxInlineBytes : Nat) : CoreParser MetadataBlob := do
  let inodeCount ← readU32Le
  demandLeft (inodeCount * (inodeFixedPrefixLen + 1))
  let inodes ← loop (parseInodes maxInlineBytes) inodeCount 0 []
  let dirNodeCount ← readU32Le
  demandLeft (dirNodeCount * 5)
  let dirNodes ← loop parseDirNodes dirNodeCount 0 []
  let inodes ← parseSharedTable maxInlineBytes inodes
  pure ⟨inodes, dirNodes⟩

def parseMetadataBlob : CoreParser MetadataBlob :=
  parseMetadataBlobWithCeiling defaultInlineDataMaxBytes

end LimniFS
