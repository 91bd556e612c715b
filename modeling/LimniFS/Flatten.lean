/-
Flattening a chain of manifests into one.

The inodes of all layers go into one map by number and the directory nodes into one by hash, the
later ones over the earlier ones; the slabs go into one list, each with all its locators.  What is
left is written down again as one manifest with inlined metadata, by an encoder of the
flattener's own.

That encoder has fewer fields than the parser: owners, link counts, attributes and the place of a
slice in its drop are written as constants, and the kinds it does not know as an empty file.
-/
import LimniFS.Assemble
import LimniFS.Lib.FiniteMap

namespace LimniFS

open Lib Lib.Parser Cursor

inductive FlattenError where
  | core (e : CoreError)
  | externalMetadata (layer : Nat)
  | empty

structure FlattenArtifact where
  bytes : Bytes
  merkleRoot : Digest
  inodeCount : Nat
  dirNodeCount : Nat
  slabCount : Nat
  layerCount : Nat

/-! ### The layers -/

structure ParsedLayer where
  metadataReference : MetadataReference
  slabIndex : List SlabIndexEntry
  deriving DecidableEq

/-- The sections up to the history; what stands behind it is not looked at. -/
def parseLayerSections (z : Omnizip) : CoreParser ParsedLayer := do
  let _ ← parseManifestHeader
  let _ ← parseFeatureFlagsSection
  let metadataReference ← parseMetadataReference z
  let slabIndex ← parseSlabIndex
  let _ ← parseHistory
  pure ⟨metadataReference, slabIndex.entries⟩

def parseLayer (z : Omnizip) (bytes : Bytes) : Except CoreError ParsedLayer :=
  (parseLayerSections z bytes).1

/-- A slab with the URIs it was seen under. -/
abbrev MergedSlab := SlabId × List Bytes

structure MergedLayers where
  inodes : AList fun _ : Nat => Inode
  dirNodes : AList fun _ : Digest => DirectoryNode
  slabEntries : List MergedSlab

def MergedLayers.empty : MergedLayers := ⟨∅, ∅, []⟩

/-- A locator is added unless its URI is there. -/
def pushLocator (uris : List Bytes) (locator : LocatorEntry) : List Bytes :=
  if locator.uri ∈ uris then uris else uris ++ [locator.uri]

/-- A slab seen before gets the new locators, any other goes to the end. -/
def mergeSlab (entries : List MergedSlab) (slab : SlabIndexEntry) : List MergedSlab :=
  match entries with
  | [] => [(slab.slabId, slab.locators.map LocatorEntry.uri)]
  | entry :: rest =>
    if entry.1 = slab.slabId then (entry.1, slab.locators.foldl pushLocator entry.2) :: rest
    else entry :: mergeSlab rest slab

section

variable (H : Hash)

def MergedLayers.add (m : MergedLayers) (blob : MetadataBlob) (slabIndex : List SlabIndexEntry) : MergedLayers where
  inodes := blob.inodes.foldl (fun map inode => map.insert inode.number inode) m.inodes
  dirNodes := blob.dirNodes.foldl (fun map node => map.insert (dirNodeHash H node.entries) node)
    m.dirNodes
  slabEntries := slabIndex.foldl mergeSlab m.slabEntries

/-- The metadata and the slabs of the `i`-th layer. -/
def readLayer (z : Omnizip) (i : Nat) (layer : Bytes) :
    Except FlattenError (MetadataBlob × List SlabIndexEntry) :=
  match parseLayer z layer with
  | .error e => .error (.core e)
  | .ok parsed =>
    match parsed.metadataReference.inlineMetadata with
    | none => .error (.externalMetadata i)
    | some blobBytes =>
      match (parseMetadataBlob blobBytes).1 with
      | .error e => .error (.core e)
      | .ok blob => .ok (blob, parsed.slabIndex)

def mergeLayers (z : Omnizip) : Nat → MergedLayers → List Bytes → Except FlattenError MergedLayers
  | _, m, [] => .ok m
  | i, m, layer :: rest =>
    match readLayer z i layer with
    | .error e => .error e
    | .ok (blob, slabIndex) => mergeLayers z (i + 1) (m.add H blob slabIndex) rest

end

/-! ### The encoder -/

/-- The encoding of a slice; `none` is a panic. -/
def flattenSlice (slice : SliceRef) : Option Bytes := do
  let dropByteLen ← u32Bytes (slice.fileByteEnd - slice.fileByteStart)
  some (leBytes 8 slice.fileByteStart ++ leBytes 8 slice.fileByteEnd ++ slice.dropId.val
    ++ leBytes 4 0 ++ dropByteLen)

/-- The flags and what stands behind them. -/
def flattenContent : ContentHandle → Option Bytes
  | .inlineData data => (sizedBytes data).map fun body => [0x04] ++ body
  | .sharedInline _ => some ([0x04] ++ leBytes 4 0)
  | .sliceMap map => do
    let count ← u32Bytes map.slices.length
    let slices ← map.slices.mapM flattenSlice
    some ([0x00] ++ count ++ slices.flatten)
  | .directory hash => some ([0x00] ++ hash.val)
  | .symlink _ | .device _ | .pipe _ => some ([0x00] ++ leBytes 4 0)

/-- The fields in front of the flags; `link_count`, `uid` and `gid` are not tracked. -/
def flattenPrefix (inode : Inode) : Bytes :=
  leBytes 8 inode.number ++ leBytes 4 inode.mode ++ leBytes 4 0 ++ leBytes 4 0
    ++ leBytes 8 inode.mtimeNs ++ leBytes 8 inode.mtimeNs ++ leBytes 4 1

def flattenInode (inode : Inode) : Option Bytes :=
  (flattenContent inode.contentHandle).map fun content => flattenPrefix inode ++ content

def flattenDirNode (node : DirectoryNode) : Option Bytes := do
  let count ← u32Bytes node.entries.length
  let entries ← node.entries.mapM fun e => do
    let name ← sizedBytes e.name
    some (name ++ leBytes 8 e.inodeNumber ++ [e.entryType])
  some ([1] ++ count ++ entries.flatten)

def flattenMetadataBlob (inodes : List Inode) (dirNodes : List DirectoryNode) : Option Bytes := do
  let inodeCount ← u32Bytes inodes.length
  let inodeBytes ← inodes.mapM flattenInode
  let nodeCount ← u32Bytes dirNodes.length
  let nodeBytes ← dirNodes.mapM flattenDirNode
  some (inodeCount ++ inodeBytes.flatten ++ nodeCount ++ nodeBytes.flatten)

def flattenSlabEntry (entry : MergedSlab) : Option Bytes := do
  let count ← u32Bytes entry.2.length
  let locators ← entry.2.mapM sizedBytes
  some (leBytes 8 entry.1.ordinal ++ entry.1.hash.val ++ count ++ locators.flatten)

/-- The history of a flattened image: one entry, with the number of layers. -/
def flattenHistory (layerCount : Nat) : Bytes :=
  [1] ++ leBytes 4 1 ++ [HistoryOp.flatten.toByte] ++ leBytes 8 0 ++ leBytes 4 0 ++ leBytes 4 8
    ++ leBytes 8 layerCount

section

variable (H : Hash)

/-- Version 1 of the reference, with the metadata inlined as it is. -/
def flattenReference (blob : Bytes) : Option Bytes := do
  let inlineLen ← u32Bytes blob.length
  some ([1] ++ (hashSection H blob).val ++ leBytes 4 0 ++ inlineLen ++ blob)

def flattenManifest (inodes : List Inode) (dirNodes : List DirectoryNode)
    (slabEntries : List MergedSlab) (layerCount : Nat) : Option Bytes := do
  let blob ← flattenMetadataBlob inodes dirNodes
  let reference ← flattenReference H blob
  let slabCount ← u32Bytes slabEntries.length
  let slabs ← slabEntries.mapM flattenSlabEntry
  some (ManifestHeader.current.toBytes ++ emptyFlagsBytes ++ reference
    ++ ([1] ++ slabCount ++ slabs.flatten) ++ flattenHistory layerCount)

/-- The root of what was just encoded, from the bytes; `none` is a panic where they do not parse. -/
def rootFromSections (z : Omnizip) (manifest : Bytes) : Option Digest :=
  let sections : CoreParser Digest := do
    let header ← parseManifestHeader.withSpan
    let flags ← parseFeatureFlagsSection.withSpan
    let reference ← (parseMetadataReference z).withSpan
    let slabIndex ← parseSlabIndex.withSpan
    let history ← parseHistory.withSpan
    pure (computeMerkleRoot H
      { metadata := reference.1.metadataHash
        formatHeader := hashSection H header.2
        featureFlags := hashSection H flags.2
        metadataReference := hashSection H reference.2
        slabIndex := hashSection H slabIndex.2
        cryptoParams := hashEmptySection H
        ecParams := hashEmptySection H
        dmsPolicy := hashEmptySection H
        deltaLinkage := hashEmptySection H
        history := hashSection H history.2 })
  (sections manifest).1.toOption

/-! ### The whole -/

/-- The values of the map in the order of their numbers. -/
def MergedLayers.sortedInodes (m : MergedLayers) : List Inode :=
  (m.inodes.entries.map Sigma.snd).mergeSort fun a b => a.number ≤ b.number

def MergedLayers.sortedDirNodes (m : MergedLayers) : List DirectoryNode :=
  (m.dirNodes.entries.map Sigma.snd).mergeSort fun a b =>
    (dirNodeHash H a.entries).val ≤ (dirNodeHash H b.entries).val

def SlabId.toBytes (id : SlabId) : Bytes := leBytes 8 id.ordinal ++ id.hash.val

def MergedLayers.sortedSlabs (m : MergedLayers) : List MergedSlab :=
  m.slabEntries.mergeSort fun a b => a.1.toBytes ≤ b.1.toBytes

/-- `none` is a panic. -/
def flatten (z : Omnizip) (layers : List Bytes) : Option (Except FlattenError FlattenArtifact) :=
  if layers = [] then some (.error .empty)
  else
    match mergeLayers H z 0 .empty layers with
    | .error e => some (.error e)
    | .ok merged => do
      let inodes := merged.sortedInodes
      let dirNodes := merged.sortedDirNodes H
      let slabs := merged.sortedSlabs
      let bytes ← flattenManifest H inodes dirNodes slabs layers.length
      let root ← rootFromSections H z bytes
      some (.ok ⟨bytes, root, inodes.length, dirNodes.length, slabs.length, layers.length⟩)

end

end LimniFS
