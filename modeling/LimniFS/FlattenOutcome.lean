/-
What flattening a chain gives.

The layers lie on each other in one blob, `stackOf`; of it the last inode of every number and every
directory node are written down, if they fit (`flatten_of_fits`).  What is read again then answers
lookups as `found_inodeByNumber` and `found_dirNodeByHash` say.
-/
import Mathlib.Algebra.BigOperators.Group.List.Basic
import Mathlib.Data.List.Dedup
import LimniFS.FlattenMerge

namespace LimniFS

open Lib Lib.Parser Cursor

variable {H : Hash}

section

variable {z : Omnizip} {layers : List Bytes} {artifact : FlattenArtifact}

theorem parseLayer_slabs {layer : Bytes} {parsed : ParsedLayer} (h : parseLayer z layer = .ok parsed) :
    parsed.slabIndex.length < u32Limit ∧ (parsed.slabIndex.map SlabIndexEntry.slabId).Nodup ∧
      ∀ slab ∈ parsed.slabIndex, slab.Parsed := by
  have hok : parseLayerSections z layer = (.ok parsed, (parseLayerSections z layer).2) := by
    rw [← h]
    rfl
  simp only [parseLayerSections, bind_eq_ok, pure_eq_ok] at hok
  obtain ⟨_, _, -, _, _, -, _, _, -, index, _, hindex, _, _, -, rfl, -⟩ := hok
  exact parseSlabIndex_ok hindex

/-- What is known of a layer that could be read. -/
theorem readLayer_parsed {i : Nat} {layer : Bytes} {blob : MetadataBlob} {slabs : List SlabIndexEntry}
    (h : readLayer z i layer = .ok (blob, slabs)) :
    (blob.inodes.length < u32Limit ∧ blob.dirNodes.length < u32Limit ∧
      (∀ inode ∈ blob.inodes, inode.Bounded defaultInlineDataMaxBytes) ∧
      ∀ node ∈ blob.dirNodes, node.Parsed) ∧
    slabs.length < u32Limit ∧ (slabs.map SlabIndexEntry.slabId).Nodup ∧
      ∀ slab ∈ slabs, slab.Parsed := by
  obtain ⟨parsed, blobBytes, hparsed, -, hblob, rfl⟩ := readLayer_eq_ok.mp h
  have hok : parseMetadataBlob blobBytes = (.ok blob, (parseMetadataBlob blobBytes).2) := by
    rw [← hblob]
  obtain ⟨hcount, hnodes, hbounded, hall⟩ := parseMetadataBlob_bounded hok
  refine ⟨⟨hcount, hnodes, hbounded, fun node hnode => ?_⟩, parseLayer_slabs hparsed⟩
  obtain ⟨hversion, hvalid, hfit⟩ := hall node hnode
  exact ⟨hversion, hvalid, hfit⟩

/-- The layers of a chain as they are read. -/
abbrev LayersRead (z : Omnizip) (layers : List Bytes)
    (parsed : List (MetadataBlob × List SlabIndexEntry)) : Prop :=
  List.Forall₂ (fun layer p => readLayer z 0 layer = .ok p) layers parsed

/-- The layers on each other, the newest last. -/
def stackOf (parsed : List (MetadataBlob × List SlabIndexEntry)) : MetadataBlob :=
  ⟨parsed.flatMap fun p => p.1.inodes, parsed.flatMap fun p => p.1.dirNodes⟩

theorem stackOf_single (blob : MetadataBlob) (slabs : List SlabIndexEntry) :
    stackOf [(blob, slabs)] = blob := by
  simp [stackOf]

variable (H) in
/-- The layers merged. -/
def mergedOf (parsed : List (MetadataBlob × List SlabIndexEntry)) : MergedLayers :=
  MergedLayers.empty.addAll H parsed

theorem mergedOf_inodes (parsed : List (MetadataBlob × List SlabIndexEntry)) :
    (mergedOf H parsed).inodes = insertAll Inode.number ∅ (stackOf parsed).inodes :=
  addAll_inodes ..

theorem mergedOf_dirNodes (parsed : List (MetadataBlob × List SlabIndexEntry)) :
    (mergedOf H parsed).dirNodes
      = insertAll (fun node => dirNodeHash H node.entries) ∅ (stackOf parsed).dirNodes :=
  addAll_dirNodes ..

theorem mergedOf_slabs (parsed : List (MetadataBlob × List SlabIndexEntry)) :
    SlabsMerged (parsed.flatMap Prod.snd) (mergedOf H parsed).sortedSlabs := by
  have hmerged := slabsMerged (parsed.flatMap Prod.snd)
  have hperm : ((mergedOf H parsed).sortedSlabs).Perm ((parsed.flatMap Prod.snd).foldl mergeSlab []) := by
    refine (List.mergeSort_perm _ _).trans ?_
    rw [mergedOf, addAll_slabEntries]
    rfl
  refine ⟨(hperm.map _).nodup_iff.mpr hmerged.nodup, fun id => ?_, fun entry hentry => ?_⟩
  · rw [(hperm.map _).mem_iff, hmerged.ids]
  · exact hmerged.uris entry (hperm.mem_iff.mp hentry)

theorem flatten_eq_ok : flatten H z layers = some (.ok artifact) ↔ layers ≠ [] ∧
    ∃ parsed, LayersRead z layers parsed ∧
      flattenManifest H (mergedOf H parsed).sortedInodes ((mergedOf H parsed).sortedDirNodes H)
        (mergedOf H parsed).sortedSlabs layers.length = some artifact.bytes ∧
      ∃ root, rootFromSections H z artifact.bytes = some root ∧
        artifact = ⟨artifact.bytes, root, (mergedOf H parsed).sortedInodes.length,
          ((mergedOf H parsed).sortedDirNodes H).length, (mergedOf H parsed).sortedSlabs.length,
          layers.length⟩ := by
  unfold flatten
  constructor
  · intro h
    split at h
    · cases h
    · next hne =>
        refine ⟨hne, ?_⟩
        split at h
        · cases h
        · next merged hmerged =>
            obtain ⟨parsed, hparsed, rfl⟩ := mergeLayers_eq_ok.mp hmerged
            simp only [Option.bind_eq_bind, Option.bind_eq_some_iff, Option.some.injEq,
              Except.ok.injEq] at h
            obtain ⟨bytes, hbytes, root, hroot, rfl⟩ := h
            exact ⟨parsed, hparsed, hbytes, root, hroot, rfl⟩
  · rintro ⟨hne, parsed, hparsed, hbytes, root, hroot, heq⟩
    rw [if_neg hne]
    have hmerged : mergeLayers H z 0 .empty layers = .ok (mergedOf H parsed) :=
      mergeLayers_eq_ok.mpr ⟨parsed, hparsed, rfl⟩
    simp only [hmerged, hbytes, hroot, Option.bind_eq_bind, Option.bind_some]
    rw [← heq]

/-- The bytes that the flattener writes for the metadata. -/
def MetadataBlob.flattenedLen (blob : MetadataBlob) : Nat :=
  8 + ((latest Inode.number blob.inodes).map Inode.flattenedLen).sum
    + (blob.dirNodes.dedup.map fun node => (dirNodeBytes node.entries).length).sum

/-- What the encoder can write down and the parser then takes. -/
structure MergedLayers.Fits (H : Hash) (m : MergedLayers) : Prop where
  inodes : ∀ i ∈ m.sortedInodes, (flattenInode i).isSome
  nodes : ∀ node ∈ m.sortedDirNodes H, EntriesFit node.entries
  slabCount : m.sortedSlabs.length < u32Limit
  locators : ∀ entry ∈ m.sortedSlabs, entry.2.length < u32Limit
  short : 8 + (m.sortedInodes.map Inode.flattenedLen).sum
    + ((m.sortedDirNodes H).map fun node => (dirNodeBytes node.entries).length).sum
      ≤ defaultInlineMetadataMaxBytes

theorem MergedLayers.Fits.blob {m : MergedLayers} (h : m.Fits H) :
    ∃ bytes, flattenMetadataBlob m.sortedInodes (m.sortedDirNodes H) = some bytes ∧
      bytes.length ≤ defaultInlineMetadataMaxBytes := by
  obtain ⟨encs, hencs⟩ := Option.isSome_iff_exists.mp (mapM_isSome_iff.mpr h.inodes)
  obtain ⟨wires, hwires⟩ : ∃ wires, (m.sortedDirNodes H).mapM flattenDirNode = some wires := by
    refine Option.isSome_iff_exists.mp (mapM_isSome_iff.mpr fun node hnode => ?_)
    rw [flattenDirNode_eq_some.mpr ⟨h.nodes node hnode, rfl⟩]
    rfl
  have hshort := h.short
  have hinodes : m.sortedInodes.length ≤ (m.sortedInodes.map Inode.flattenedLen).sum := by
    rw [← List.length_map (f := Inode.flattenedLen)]
    refine List.length_le_sum_of_one_le _ fun n hn => ?_
    obtain ⟨inode, -, rfl⟩ := List.mem_map.mp hn
    exact Nat.le_trans (by decide) inode.flattenedLen_ge
  have hnodes : (m.sortedDirNodes H).length
      ≤ ((m.sortedDirNodes H).map fun node => (dirNodeBytes node.entries).length).sum := by
    rw [← List.length_map (f := fun node : DirectoryNode => (dirNodeBytes node.entries).length)]
    refine List.length_le_sum_of_one_le _ fun n hn => ?_
    obtain ⟨node, -, rfl⟩ := List.mem_map.mp hn
    simp [dirNodeBytes]
  have hlimit : defaultInlineMetadataMaxBytes < u32Limit := by decide
  have hblob := flattenMetadataBlob_eq_some.mpr
    ⟨by omega, by omega, encs, wires, hencs, hwires, rfl⟩
  refine ⟨_, hblob, ?_⟩
  rw [flattenMetadataBlob_len hblob]
  exact hshort

section

variable {parsed : List (MetadataBlob × List SlabIndexEntry)} (hparsed : LayersRead z layers parsed)

include hparsed

theorem stack_bounded : ∀ i ∈ (stackOf parsed).inodes, i.Bounded defaultInlineDataMaxBytes := by
  intro i hi
  obtain ⟨p, hp, hin⟩ := List.mem_flatMap.mp hi
  obtain ⟨layer, -, hlayer⟩ := exists_mem_of_forall₂ hparsed p hp
  exact (readLayer_parsed hlayer).1.2.2.1 i hin

theorem stack_parsed : ∀ node ∈ (stackOf parsed).dirNodes, node.Parsed := by
  intro node hnode
  obtain ⟨p, hp, hin⟩ := List.mem_flatMap.mp hnode
  obtain ⟨layer, -, hlayer⟩ := exists_mem_of_forall₂ hparsed p hp
  exact (readLayer_parsed hlayer).1.2.2.2 node hin

theorem mergedOf_slabs_valid : ∀ entry ∈ (mergedOf H parsed).sortedSlabs, entry.Valid := by
  refine (mergedOf_slabs parsed).valid fun slab hslab => ?_
  obtain ⟨p, hp, hin⟩ := List.mem_flatMap.mp hslab
  obtain ⟨layer, -, hlayer⟩ := exists_mem_of_forall₂ hparsed p hp
  exact (readLayer_parsed hlayer).2.2.2 slab hin

/-- What a chain was flattened to, read again. -/
theorem flatten_read (h : flatten H z layers = some (.ok artifact)) :
    (mergedOf H parsed).Fits H ∧
      ∃ bytes, flattenMetadataBlob (mergedOf H parsed).sortedInodes
          ((mergedOf H parsed).sortedDirNodes H) = some bytes ∧
        parseLayer z artifact.bytes = .ok ⟨⟨H bytes, [], some bytes, codecStore, bytes.length⟩,
          (mergedOf H parsed).sortedSlabs.map MergedSlab.entry⟩ := by
  obtain ⟨-, parsed', hparsed', hmanifest, root, hroot, -⟩ := flatten_eq_ok.mp h
  obtain rfl : parsed' = parsed :=
    List.right_unique_forall₂' (fun _ _ _ h h' => Except.ok.inj (h.symm.trans h')) hparsed' hparsed
  have hvalid := mergedOf_slabs_valid (H := H) hparsed
  obtain ⟨blob, hblob, hreads, hparse⟩ :=
    flattenManifest_read hvalid (mergedOf_slabs parsed').nodup hmanifest
  have hshort := hreads.mp (Option.isSome_iff_exists.mpr ⟨root, hroot⟩)
  obtain ⟨-, -, encs, hblob', -, hcount, hslabs, -⟩ := flattenManifest_eq_some.mp hmanifest
  obtain ⟨-, -, encs', wires, hencs, hwires, -⟩ := flattenMetadataBlob_eq_some.mp hblob
  refine ⟨⟨mapM_isSome_iff.mp (by rw [hencs]; rfl), fun node hnode => ?_, hcount, fun entry hentry => ?_,
    ?_⟩, blob, hblob, hparse hshort⟩
  · obtain ⟨wire, -, hwire⟩ := exists_mem_of_forall₂ (mapM_some_iff.mp hwires).flip node hnode
    exact (flattenDirNode_eq_some.mp hwire).1
  · obtain ⟨enc, -, henc⟩ := exists_mem_of_forall₂ (mapM_some_iff.mp hslabs).flip entry hentry
    exact ((flattenSlabEntry_eq_some (hvalid entry hentry)).mp henc).1
  · rw [← flattenMetadataBlob_len hblob]
    exact hshort

theorem flatten_of_fits (hne : layers ≠ []) (h : (mergedOf H parsed).Fits H) :
    ∃ artifact, flatten H z layers = some (.ok artifact) := by
  have hvalid := mergedOf_slabs_valid (H := H) hparsed
  obtain ⟨bytes, hbytes, hshort⟩ := h.blob
  obtain ⟨reference, href⟩ : ∃ reference, flattenReference H bytes = some reference := by
    have hlt : bytes.length < u32Limit := Nat.lt_of_le_of_lt hshort (by decide)
    unfold flattenReference
    rw [u32Bytes_eq_some.mpr ⟨hlt, rfl⟩]
    exact ⟨_, rfl⟩
  obtain ⟨encs, hencs⟩ : ∃ encs, (mergedOf H parsed).sortedSlabs.mapM flattenSlabEntry = some encs := by
    refine Option.isSome_iff_exists.mp (mapM_isSome_iff.mpr fun entry hentry => ?_)
    rw [(flattenSlabEntry_eq_some (hvalid entry hentry)).mpr ⟨h.locators entry hentry, rfl⟩]
    rfl
  have hmanifest : flattenManifest H _ _ _ layers.length = some _ := flattenManifest_eq_some.mpr
    ⟨bytes, reference, encs, hbytes, href, h.slabCount, hencs, rfl⟩
  obtain ⟨bytes', hbytes', hreads, -⟩ :=
    flattenManifest_read (z := z) hvalid (mergedOf_slabs parsed).nodup hmanifest
  rw [hbytes] at hbytes'
  cases hbytes'
  obtain ⟨root, hroot⟩ := Option.isSome_iff_exists.mp (hreads.mpr hshort)
  exact ⟨⟨_, root, _, _, _, _⟩, flatten_eq_ok.mpr ⟨hne, parsed, hparsed, hmanifest, root, hroot, rfl⟩⟩

/-! ### Reading it again -/

section

variable (hfree : NoCollision H ((stackOf parsed).dirNodes.map fun node => dirNodeBytes node.entries))

include hfree

theorem merged_nodes_mem (node : DirectoryNode) :
    node ∈ (mergedOf H parsed).sortedDirNodes H ↔ node ∈ (stackOf parsed).dirNodes := by
  rw [(sortedDirNodes_perm (mergedOf_dirNodes parsed)).mem_iff]
  exact mem_latest_nodes (stack_parsed hparsed) hfree

theorem merged_length : 8 + ((mergedOf H parsed).sortedInodes.map Inode.flattenedLen).sum
    + (((mergedOf H parsed).sortedDirNodes H).map fun node => (dirNodeBytes node.entries).length).sum
      = (stackOf parsed).flattenedLen := by
  have hnodes : ((mergedOf H parsed).sortedDirNodes H).Perm (stackOf parsed).dirNodes.dedup := by
    refine (List.perm_ext_iff_of_nodup (sortedDirNodes_nodup (mergedOf_dirNodes parsed))
      (List.nodup_dedup _)).mpr fun node => ?_
    rw [merged_nodes_mem hparsed hfree, List.mem_dedup]
  rw [((sortedInodes_perm (mergedOf_inodes parsed)).map _).sum_nat, (hnodes.map _).sum_nat]
  rfl

end

variable (H parsed) in
/-- What is read again. -/
def foundOf : MetadataBlob :=
  ⟨(mergedOf H parsed).sortedInodes.map Inode.flattened, (mergedOf H parsed).sortedDirNodes H⟩

/-- **A chain of kinds that the encoder knows is read again.** -/
theorem readLayer_flatten
    (hfree : NoCollision H ((stackOf parsed).dirNodes.map fun node => dirNodeBytes node.entries))
    (hplain : ∀ i ∈ (mergedOf H parsed).sortedInodes, i.contentHandle.isSpecial = false)
    (h : flatten H z layers = some (.ok artifact)) :
    readLayer z 0 artifact.bytes
      = .ok (foundOf H parsed, (mergedOf H parsed).sortedSlabs.map MergedSlab.entry) := by
  obtain ⟨-, bytes, hbytes, hparse⟩ := flatten_read hparsed h
  have hall := parse_flattenMetadataBlob
    (fun i hi => stack_bounded hparsed i
      (latest_subset _ ((sortedInodes_perm (mergedOf_inodes parsed)).mem_iff.mp hi)))
    hplain
    (fun node hnode => stack_parsed hparsed node ((merged_nodes_mem hparsed hfree node).mp hnode)) hbytes
  exact readLayer_eq_ok.mpr ⟨_, bytes, hparse, rfl, (Prod.mk.inj hall).1, rfl⟩

omit hparsed in
theorem found_inodeByNumber (number : Nat) : (foundOf H parsed).inodeByNumber number
    = ((stackOf parsed).inodes.reverse.find? fun i => i.number = number).map Inode.flattened := by
  have hperm := sortedInodes_perm (mergedOf_inodes (H := H) parsed)
  cases hlast : (stackOf parsed).inodes.reverse.find? fun i => i.number = number with
  | none =>
      refine List.find?_eq_none.mpr fun i hi => ?_
      obtain ⟨j, hj, rfl⟩ := List.mem_map.mp hi
      have hin := latest_subset _ (hperm.mem_iff.mp hj)
      simpa [Inode.flattened] using List.find?_eq_none.mp hlast j (List.mem_reverse.mpr hin)
  | some last =>
      obtain rfl : last.number = number := by simpa using List.find?_some hlast
      have hnumbers : ((foundOf H parsed).inodes.map Inode.number).Nodup := by
        rw [foundOf, List.map_map]
        exact sortedInodes_nodup (mergedOf_inodes parsed)
      exact find?_of_nodup_map hnumbers
        (List.mem_map_of_mem (hperm.mem_iff.mpr (mem_latest.mpr hlast)))

theorem found_dirNodeByHash
    (hfree : NoCollision H ((stackOf parsed).dirNodes.map fun node => dirNodeBytes node.entries))
    (hash : Digest) : (foundOf H parsed).dirNodeByHash H hash = (stackOf parsed).dirNodeByHash H hash := by
  have hmem := merged_nodes_mem hparsed hfree
  have hfoundFree : NoCollision H
      ((foundOf H parsed).dirNodes.map fun node => dirNodeBytes node.entries) := by
    intro a ha b hb
    refine hfree a ?_ b ?_
    · exact List.map_subset _ (fun node hnode => (hmem node).mp hnode) ha
    · exact List.map_subset _ (fun node hnode => (hmem node).mp hnode) hb
  ext node
  rw [dirNodeByHash_eq_some (stack_parsed hparsed) hfree,
    dirNodeByHash_eq_some (fun node hnode => stack_parsed hparsed node ((hmem node).mp hnode)) hfoundFree]
  exact and_congr_left fun _ => hmem node

end

end

end LimniFS
