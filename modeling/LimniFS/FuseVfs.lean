/-
The virtual filesystem over an image, and the kernel's view of it.

`Vfs` answers lookups, attributes, listings and reads by the inode numbers of the
image.  `FuseVfs` hands these numbers to the kernel as they are and takes the kernel's
number 1 for the root of the image, whatever number that has.

A listing goes into a reply buffer of the kernel's choosing.  How much fits is decided
by the buffer alone, so a buffer is here the question whether an entry still fits
behind those it holds; `ReplyDirectory::add` asks it and says whether it was full.
-/
import LimniFS.ReadWindow
import LimniFS.DeltaBuilder

namespace LimniFS

open Lib Lib.Parser

/-! ### The virtual filesystem -/

structure Vfs where
  metadataBlob : MetadataBlob
  store : SlabStore
  rootInodeNumber : Nat

inductive VfsType where
  | regular
  | directory
  | symlink
  | other
  deriving DecidableEq

structure VfsAttr where
  ino : Nat
  size : Nat
  mode : Nat
  kind : VfsType
  nlink : Nat
  mtimeNs : Nat
  deriving DecidableEq

def vfsAttr (ino : Nat) (inode : Inode) : VfsAttr where
  ino := ino
  size := match inode.contentHandle with
    | .inlineData d => d.length
    | .sliceMap map => map.slices.getLast?.elim 0 SliceRef.fileByteEnd
    | _ => 0
  mode := inode.mode &&& 0o7777
  kind :=
    if inode.isDirectory then .directory
    else if inode.isRegular then .regular
    else if inode.fileType = sIflnk then .symlink
    else .other
  nlink := inode.nlink
  mtimeNs := inode.mtimeNs

def entryVfsType (entryType : UInt8) : VfsType :=
  if entryType = 0x01 then .regular
  else if entryType = 0x02 then .directory
  else if entryType = 0x03 then .symlink
  else .other

namespace Vfs

/-- `Vfs::from_bytes`: the metadata has to be inlined, and no dictionaries are looked for. -/
def fromBytes (z : Omnizip) (bytes : Bytes) (imageDir : Directory) : Except CoreError Vfs := do
  let (front, rest) ← (parseManifestFront z).run bytes
  match front.metadataReference.inlineMetadata with
  | none => .error (.corrupt "VFS requires inlined metadata")
  | some blobBytes => do
    let (blob, _) ← parseMetadataBlob.run blobBytes
    let (slabIndex, _) ← parseSlabIndex.run rest
    match blob.rootInodeNumber with
    | none => .error (.corrupt "no unique root directory inode")
    | some root => do
      let store ← SlabStore.load imageDir slabIndex
      .ok ⟨blob, store, root⟩

section
variable (H : Hash) (vfs : Vfs)

/-- The node of a directory, by the number of its inode. -/
def dirNode (ino : Nat) : Option DirectoryNode :=
  (vfs.metadataBlob.inodeByNumber ino).bind fun inode =>
    match inode.contentHandle with
    | .directory hash => vfs.metadataBlob.dirNodeByHash H hash
    | _ => none

def lookup (parentIno : Nat) (name : Bytes) : Option Nat :=
  (vfs.dirNode H parentIno).bind fun node =>
    (node.entries.find? fun e => e.name == name).map DirEntry.inodeNumber

def getattr (ino : Nat) : Option VfsAttr :=
  (vfs.metadataBlob.inodeByNumber ino).map (vfsAttr ino)

/-- The loop of `readdir_at` over the entries from `i` on; `add` says whether to go on. -/
def offer {σ : Type} (add : σ → Nat → Nat → Bytes → VfsType → σ × Bool) :
    Nat → List DirEntry → σ → σ
  | _, [], s => s
  | i, entry :: rest, s =>
    match add s i entry.inodeNumber entry.name (entryVfsType entry.entryType) with
    | (s', true) => offer add (i + 1) rest s'
    | (s', false) => s'

def readdirAt {σ : Type} (ino startIdx : Nat)
    (add : σ → Nat → Nat → Bytes → VfsType → σ × Bool) (s : σ) : σ :=
  match vfs.dirNode H ino with
  | none => s
  | some node => offer add startIdx (node.entries.drop startIdx) s

end

end Vfs

/-! ### The kernel's view -/

/-- `INodeNo::ROOT`. -/
def fuseRoot : Nat := 1

inductive FileType where
  | directory
  | symlink
  | regularFile
  deriving DecidableEq

def vfsTypeToFtype : VfsType → FileType
  | .directory => .directory
  | .symlink => .symlink
  | .regular => .regularFile
  | .other => .regularFile

/-- `fuser::FileAttr`, less the fields that are constant; all four times are `mtimeNs`. -/
structure FileAttr where
  ino : Nat
  size : Nat
  blocks : Nat
  mtimeNs : Nat
  kind : FileType
  perm : Nat
  nlink : Nat
  deriving DecidableEq

def makeAttr (ino : Nat) (attr : VfsAttr) : FileAttr where
  ino := ino
  size := attr.size
  blocks := (attr.size + 511) / 512
  mtimeNs := attr.mtimeNs
  kind := vfsTypeToFtype attr.kind
  perm := attr.mode &&& 0o7777
  nlink := attr.nlink

/-- An entry of a listing, and the offset the kernel asks for what comes behind it. -/
structure ReplyEntry where
  ino : Nat
  cookie : Nat
  kind : FileType
  name : Bytes
  deriving DecidableEq

/-- Whether an entry fits behind those in the buffer. -/
abbrev ReplyBuffer := List ReplyEntry → ReplyEntry → Bool

/-- `ReplyDirectory::add`: the entries that are in, and whether the buffer was full. -/
def ReplyBuffer.add (fits : ReplyBuffer) (reply : List ReplyEntry) (entry : ReplyEntry) :
    List ReplyEntry × Bool :=
  if fits reply entry then (reply ++ [entry], false) else (reply, true)

namespace FuseVfs

section
variable (H : Hash) (vfs : Vfs)

def mapInode (ino : Nat) : Nat := if ino = fuseRoot then vfs.rootInodeNumber else ino

/-- The attributes in the reply, or `ENOENT`. -/
def lookup (parent : Nat) (name : Bytes) : Option FileAttr :=
  if utf8Valid name then
    (vfs.lookup H (mapInode vfs parent) name).bind fun childIno =>
      (vfs.getattr childIno).map (makeAttr childIno)
  else none

def getattr (ino : Nat) : Option FileAttr :=
  (vfs.getattr (mapInode vfs ino)).map (makeAttr (mapInode vfs ino))

/-- The children of a directory, from the offset on. -/
def readdirChildren (fits : ReplyBuffer) (ino offset : Nat) (reply : List ReplyEntry) :
    List ReplyEntry :=
  let startIdx := offset - 2
  let base := startIdx + 2
  vfs.readdirAt H (mapInode vfs ino) startIdx (fun reply i childIno name kind =>
    let entryIdx := base + i
    let (reply, full) := fits.add reply ⟨childIno, entryIdx + 1, vfsTypeToFtype kind, name⟩
    (reply, !full)) reply

/-- What is in the reply.  The source returns without `reply.ok()` where `.` or `..` does not fit. -/
def readdir (fits : ReplyBuffer) (ino offset : Nat) : List ReplyEntry :=
  let (reply, full) :=
    if offset = 0 then fits.add [] ⟨ino, 1, .directory, ascii "."⟩ else ([], false)
  if full then reply
  else
    let (reply, full) :=
      if offset ≤ 1 then fits.add reply ⟨ino, 2, .directory, ascii ".."⟩ else (reply, false)
    if full then reply else readdirChildren H vfs fits ino offset reply

end

end FuseVfs

end LimniFS
