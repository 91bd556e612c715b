/-
From the writer's state to an image.

`assemble` packs the drops into slabs, encodes inodes and directory nodes into the
metadata blob, compresses it, puts it inline or into a sidecar, and lays the sections
of the manifest one after another while hashing each into the root.  Every conversion
of a length to `u32` that would panic makes the whole run `none`.

The root is computed again in two other places, from the bytes: strictly by whoever
reads the manifest, and best-effort by a layer about its base.  Neither knows of the
delta linkage, which `assemble` does hash; so the three agree on standalone images
(`assembled_roots_agree_iff`) and on no layer.
-/
import LimniFS.Dictionary
import LimniFS.ManifestWriter
import LimniFS.Metadata

namespace LimniFS

open Lib Lib.Parser Cursor

/-! ### The writer's state -/

inductive PendingContent where
  | inline (data : Bytes)
  | symlink (target : Bytes)
  | dropBacked (fileLen : Nat) (slices : List PendingSlice)
  | directory (entries : List DirEntry)
  deriving DecidableEq

structure PendingInode where
  number : Nat
  mode : Nat
  uid : Nat
  gid : Nat
  mtimeNs : Nat
  xattrs : List XAttr
  content : PendingContent
  deriving DecidableEq

structure DirNode where
  entries : List DirEntry
  bytes : Bytes
  hash : Digest

/-- What `assemble` reads of the context; the policies only the walk reads are left out. -/
structure WriteContext where
  inodes : List PendingInode
  dirNodes : List DirNode
  drops : List PendingDrop
  nlinkCounts : Nat → Option Nat
  inodeXattrs : Nat → Option (List XAttr)
  emitSharedInline : Bool
  metadataCodec : UInt8
  metadataExternalizeThreshold : Nat
  trainedDicts : TrainedDicts
  baseRoot : Option Digest
  fileCount : Nat
  dirCount : Nat
  rootInodeNumber : Nat

/-- What the writer keeps of its drops: an id is stored once, and lengths are `u32`. -/
structure WriteContext.WellFormed (ctx : WriteContext) : Prop where
  ids : (ctx.drops.map (·.id)).Nodup
  plaintextLen : ∀ d ∈ ctx.drops, d.plaintextLen < u32Limit

structure MetadataSidecar where
  bytes : Bytes
  locator : Bytes

structure WriteArtifact where
  bytes : Bytes
  merkleRoot : Digest
  slabs : List SlabArtifact
  metadataSidecar : Option MetadataSidecar
  inodeCount : Nat
  fileCount : Nat
  dirCount : Nat
  dropCount : Nat
  rootInodeNumber : Nat

/-! ### Metadata -/

/-- `u32::try_from(n).expect(..).to_le_bytes()`. -/
def u32Bytes (n : Nat) : Option Bytes := if n < u32Limit then some (leBytes 4 n) else none

/-- Bytes with their length in front. -/
def sizedBytes (b : Bytes) : Option Bytes := (u32Bytes b.length).map (· ++ b)

def encodeDirNode (H : Hash) (entries : List DirEntry) : Option DirNode := do
  let _ ← u32Bytes entries.length
  let _ ← entries.mapM fun e => u32Bytes e.name.length
  pure ⟨entries, dirNodeBytes entries, dirNodeHash H entries⟩

def encodeXattr (x : XAttr) : Option Bytes := do
  let key ← sizedBytes x.key
  let value ← sizedBytes x.value
  pure ([x.namespace_] ++ key ++ value)

/-- The flags byte, and the attributes behind it if there are any. -/
def flagsAndXattrs (xattrs : List XAttr) (base : UInt8) : Option Bytes :=
  if xattrs = [] then some [base]
  else do
    let count ← u32Bytes xattrs.length
    let body ← xattrs.mapM encodeXattr
    pure ([base ||| inodeFlagHasXattrs] ++ count ++ body.flatten)

/-- A slice covers its drop from the start. -/
def encodeSlice (s : PendingSlice) : Option Bytes := do
  let dropByteLen ← u32Bytes (s.fileByteEnd - s.fileByteStart)
  pure (leBytes 8 s.fileByteStart ++ leBytes 8 s.fileByteEnd ++ s.dropId.val ++ leBytes 4 0
    ++ dropByteLen)

/-- The inline contents, in inode order. -/
def inlineContents (inodes : List PendingInode) : List Bytes :=
  inodes.filterMap fun inode =>
    match inode.content with
    | .inline data => some data
    | _ => none

/-- Contents that occur more than once, each kept where it was first met. -/
def buildSharedInlineTable (H : Hash) (inodes : List PendingInode) : List Bytes :=
  let contents := inlineContents inodes
  contents.foldl (fun table data =>
    if 1 < contents.countP (fun d => H d = H data) ∧ table.all (fun d => H d ≠ H data) then
      table ++ [data]
    else table) []

namespace WriteContext

variable (H : Hash) (z : Omnizip) (ctx : WriteContext)

def sharedInlineTable : List Bytes :=
  if ctx.emitSharedInline then buildSharedInlineTable H ctx.inodes else []

/-- The index of a content in the shared table, by its hash. -/
def sharedInlineIndex (data : Bytes) : Option Nat :=
  (ctx.sharedInlineTable H).findIdx? fun d => H d = H data

def encodeContent (xattrs : List XAttr) : PendingContent → Option Bytes
  | .inline data =>
    match ctx.sharedInlineIndex H data with
    | some index => do
        let flags ← flagsAndXattrs xattrs (inodeFlagInlineData ||| inodeFlagSharedInline)
        pure (flags ++ leBytes 4 index)
    | none => do
        let flags ← flagsAndXattrs xattrs inodeFlagInlineData
        let body ← sizedBytes data
        pure (flags ++ body)
  | .dropBacked _ slices => do
      let flags ← flagsAndXattrs xattrs 0x00
      let count ← u32Bytes slices.length
      let body ← slices.mapM encodeSlice
      pure (flags ++ count ++ body.flatten)
  | .symlink target => do
      let flags ← flagsAndXattrs xattrs 0x00
      let body ← sizedBytes target
      pure (flags ++ body)
  | .directory entries => do
      let flags ← flagsAndXattrs xattrs 0x00
      let node ← ctx.dirNodes.find? fun n => n.entries = entries
      pure (flags ++ node.hash.val)

def encodeInode (inode : PendingInode) : Option Bytes := do
  let xattrs := (ctx.inodeXattrs inode.number).getD inode.xattrs
  let content ← ctx.encodeContent H xattrs inode.content
  pure (leBytes 8 inode.number ++ leBytes 4 inode.mode ++ leBytes 4 inode.uid
    ++ leBytes 4 inode.gid ++ leBytes 8 inode.mtimeNs ++ leBytes 8 inode.mtimeNs
    ++ leBytes 4 ((ctx.nlinkCounts inode.number).getD 1) ++ content)

/-- The table is written only if something was shared. -/
def encodeSharedTable : Option Bytes :=
  if ctx.sharedInlineTable H = [] then some []
  else do
    let count ← u32Bytes (ctx.sharedInlineTable H).length
    let body ← (ctx.sharedInlineTable H).mapM sizedBytes
    pure (count ++ body.flatten)

def metadataBlob : Option Bytes := do
  let inodeCount ← u32Bytes ctx.inodes.length
  let inodes ← ctx.inodes.mapM (ctx.encodeInode H)
  let dirNodeCount ← u32Bytes ctx.dirNodes.length
  let shared ← ctx.encodeSharedTable H
  pure (inodeCount ++ inodes.flatten ++ dirNodeCount ++ ctx.dirNodes.flatMap (·.bytes) ++ shared)

end WriteContext

def metadataLargeBlobThreshold : Nat := 256 * 1024
def metadataLargeBlobQuality : Nat := 2
def metadataSmallBlobQuality : Nat := 5

section

variable (H : Hash) (z : Omnizip)

/-- The blob compressed, or as it is when the codec fails. -/
def compressMetadata (codec : UInt8) (blob : Bytes) : Bytes :=
  let quality := if metadataLargeBlobThreshold < blob.length then metadataLargeBlobQuality
    else metadataSmallBlobQuality
  let compressed :=
    if codec = codecBrotli then
      compressWithTunables z codecBrotli blob (.fromQuality quality)
    else compress z codec blob
  match compressed with
  | .ok c => c
  | .error _ => blob

/-- The codec on the wire and the bytes on the wire: as is unless compression shortens. -/
def metadataOnWire (codec : UInt8) (blob : Bytes) : UInt8 × Bytes :=
  let compressed := compressMetadata z codec blob
  if compressed.length < blob.length then (codec, compressed) else (codecStore, blob)

/-- `file:metadata-{h8}.bin`. -/
def metadataLocator (wire : Bytes) : Bytes :=
  ascii ("file:metadata-" ++ String.ofList (hexLower ((hashSection H wire).val.take 4)) ++ ".bin")

/-- The sidecar, if the bytes on the wire are above the threshold. -/
def metadataSidecarFor (threshold : Nat) (wire : Bytes) : Option MetadataSidecar :=
  if threshold < wire.length then some ⟨wire, metadataLocator H wire⟩ else none

/-! ### The manifest -/

/-- The slabs as entries of the index. -/
def slabIndexOf (slabs : List SlabArtifact) : SlabIndex :=
  ⟨slabs.map fun slab => ⟨slab.id, [⟨slab.locator⟩]⟩⟩

/-- `[version][base_root][tree_op_count = 0]`. -/
def deltaLinkageBytes (baseRoot : Digest) : Bytes := [1] ++ baseRoot.val ++ leBytes 4 0

/-- What stands behind the history. -/
def WriteContext.trailer (ctx : WriteContext) : Bytes :=
  (if ctx.trainedDicts.toList = [] then [] else encodeDictionarySection ctx.trainedDicts.section_)
    ++ ctx.baseRoot.elim [] deltaLinkageBytes

/-- The metadata reference of a blob, inlined or not. -/
def assembledReference (ctx : WriteContext) (blob : Bytes) : Bytes :=
  let wire := metadataOnWire z ctx.metadataCodec blob
  let sidecar := metadataSidecarFor H ctx.metadataExternalizeThreshold wire.2
  metadataReferenceBytes (hashSection H blob) blob.length wire.1 (sidecar.map (·.locator))
    (if sidecar.isSome then none else some wire.2)

/-- The manifest around a metadata reference. -/
def assembledManifest (ctx : WriteContext) (blob : Bytes) (slabs : List SlabArtifact) : Bytes :=
  ManifestHeader.current.toBytes ++ (emptyFlagsBytes ++ (assembledReference H z ctx blob
    ++ (slabIndexBytes (slabIndexOf slabs) ++ (historyBytes .build ++ ctx.trailer))))

def assembledHashes (ctx : WriteContext) (blob : Bytes) (slabs : List SlabArtifact) :
    SectionHashes where
  metadata := hashSection H blob
  formatHeader := hashSection H ManifestHeader.current.toBytes
  featureFlags := hashSection H emptyFlagsBytes
  metadataReference := hashSection H (assembledReference H z ctx blob)
  slabIndex := hashSection H (slabIndexBytes (slabIndexOf slabs))
  cryptoParams := hashEmptySection H
  ecParams := hashEmptySection H
  dmsPolicy := hashEmptySection H
  deltaLinkage := (ctx.baseRoot.map fun r => hashSection H (deltaLinkageBytes r)).getD
    (hashEmptySection H)
  history := hashSection H (historyBytes .build)

/-- `none` is a panic: a length or a count that does not fit `u32`. -/
def assemble (ctx : WriteContext) : Option WriteArtifact := do
  let slabs ← packSlabs H ctx.drops
  let blob ← ctx.metadataBlob H
  let wire := metadataOnWire z ctx.metadataCodec blob
  let _ ← u32Bytes blob.length
  let _ ← u32Bytes wire.2.length
  let _ ← u32Bytes slabs.length
  pure
    { bytes := assembledManifest H z ctx blob slabs
      merkleRoot := computeMerkleRoot H (assembledHashes H z ctx blob slabs)
      slabs := slabs
      metadataSidecar := metadataSidecarFor H ctx.metadataExternalizeThreshold wire.2
      inodeCount := ctx.inodes.length
      fileCount := ctx.fileCount
      dirCount := ctx.dirCount
      dropCount := ctx.drops.length
      rootInodeNumber := ctx.rootInodeNumber }

end

end LimniFS
