/-
Flattening one manifest.

The encoder has no field for owners, link counts, access times and attributes, takes the change
time from the other one, cuts the target off a symlink and lets a slice begin at the front of its
drop; devices and pipes shift all that follows.  So one layer comes out as it went in exactly if
there is nothing of that in it (`flatten_single_iff`), and if its metadata, which may have been
compressed, is not too long to be inlined as it is.

The parsers answer every string of bytes, so a layer is read or refused.  What panics is behind
them: a slice that is longer than the field its length is narrowed into, a count that is, and the
merged metadata, which are written uncompressed and then read under the ceiling for inlined
metadata.  `flatten_never_panics_iff` says in terms of the layers that there is nothing else.
-/
import LimniFS.FlattenOutcome

namespace LimniFS

open Lib Lib.Parser Cursor

/-! ### What is left of an inode -/

/-- The inode `first` is what the encoder leaves of `last`. -/
structure Inode.LeftOf (first last : Inode) : Prop where
  mode : first.mode = last.mode
  owner : first.uid = 0 ∧ first.gid = 0
  modified : first.mtimeNs = last.mtimeNs
  changed : first.ctimeNs = first.mtimeNs
  links : first.nlink = 1
  accessed : first.atimeNs = none
  attributes : first.xattrs = []
  known : last.contentHandle.isSpecial = false
  content : first.contentHandle = last.contentHandle.flattened

theorem Inode.LeftOf.eq {first last : Inode} (h : first.LeftOf last) (hnumber : first.number = last.number) :
    first = last.flattened := by
  obtain ⟨number, mode, uid, gid, mtime, ctime, nlink, atime, xattrs, handle⟩ := first
  obtain ⟨hmode, ⟨huid, hgid⟩, hmtime, hctime, hnlink, hatime, hxattrs, -, hcontent⟩ := h
  simp only at hnumber hmode huid hgid hmtime hctime hnlink hatime hxattrs hcontent
  simp only [Inode.flattened, hnumber, hmode, huid, hgid, hmtime, hctime, hnlink, hatime, hxattrs,
    hcontent]

theorem leftOf_flattened {inode : Inode} (h : inode.contentHandle.isSpecial = false) :
    inode.flattened.LeftOf inode :=
  ⟨rfl, ⟨rfl, rfl⟩, rfl, rfl, rfl, rfl, rfl, h, rfl⟩

theorem flattenInode_isSome {maxInlineBytes : Nat} {first last : Inode}
    (hmax : maxInlineBytes < u32Limit) (h : first.LeftOf last) (hfirst : first.Bounded maxInlineBytes)
    (hlast : last.Bounded maxInlineBytes) : (flattenInode last).isSome := by
  refine (flattenInode_isSome_iff hmax hlast).mpr fun map hmap s hs => ?_
  have hleft := h.content
  rw [hmap] at hleft
  exact (hfirst.slices map.flattened hleft s.flattened (List.mem_map_of_mem hs)).2

/-! ### The law -/

section

variable {H : Hash} {z : Omnizip} {m : Bytes} {blob : MetadataBlob} {slabs : List SlabIndexEntry}

/-- Every record that can be found is what is left of the last one of its number, and what is
written down is short enough to be inlined. -/
structure MetadataBlob.Flattenable (blob : MetadataBlob) : Prop where
  inodes : ∀ last ∈ latest Inode.number blob.inodes, ∃ first,
    blob.inodeByNumber last.number = some first ∧ first.LeftOf last
  short : blob.flattenedLen ≤ defaultInlineMetadataMaxBytes

variable (H) in
/-- The manifest alone can be flattened, and the outcome has the metadata of the manifest. -/
def FlattenPreserves (z : Omnizip) (m : Bytes) : Prop :=
  ∃ blob slabs artifact found foundSlabs, readLayer z 0 m = .ok (blob, slabs) ∧
    flatten H z [m] = some (.ok artifact) ∧
    readLayer z 0 artifact.bytes = .ok (found, foundSlabs) ∧
    (∀ node, node ∈ found.dirNodes ↔ node ∈ blob.dirNodes) ∧
    ∀ number, found.inodeByNumber number = blob.inodeByNumber number

theorem MetadataBlob.Flattenable.first (h : blob.Flattenable) {i : Inode}
    (hi : i ∈ latest Inode.number blob.inodes) :
    ∃ first ∈ blob.inodes, blob.inodeByNumber i.number = some first ∧ first.LeftOf i ∧
      first = i.flattened := by
  obtain ⟨first, hfind, hleft⟩ := h.inodes i hi
  have hnumber : first.number = i.number := by simpa using List.find?_some hfind
  exact ⟨first, List.mem_of_find?_eq_some hfind, hfind, hleft, hleft.eq hnumber⟩

section

variable (hlayer : readLayer z 0 m = .ok (blob, slabs))
  (hfree : NoCollision H (blob.dirNodes.map fun node => dirNodeBytes node.entries))

include hlayer hfree

theorem FlattenPreserves.flattenable (h : FlattenPreserves H z m) : blob.Flattenable := by
  obtain ⟨blob', slabs', artifact, found, foundSlabs, hlayer', hflat, hfound, hnodes, hinodes⟩ := h
  rw [hlayer] at hlayer'
  cases hlayer'
  have hread : LayersRead z [m] [(blob, slabs)] := .cons hlayer .nil
  have hstack := stackOf_single blob slabs
  rw [← hstack] at hfree
  have hperm := sortedInodes_perm (mergedOf_inodes (H := H) [(blob, slabs)])
  have hplain : ∀ i ∈ (mergedOf H [(blob, slabs)]).sortedInodes, i.contentHandle.isSpecial = false := by
    by_contra hspecial
    push Not at hspecial
    obtain ⟨i, hi, hspecial⟩ := hspecial
    obtain ⟨-, bytes, hblob, hparse⟩ := flatten_read hread hflat
    obtain ⟨layer, bytes', hlayer', hinline, hfirst, -⟩ := readLayer_eq_ok.mp hfound
    rw [hparse] at hlayer'
    cases hlayer'
    cases hinline
    have hok : parseMetadataBlob bytes = (.ok found, (parseMetadataBlob bytes).2) := by
      rw [← hfirst]
    refine lost_of_special
      (fun i hi => stack_bounded hread i (latest_subset _ (hperm.mem_iff.mp hi)))
      (sortedDirNodes_nodup (mergedOf_dirNodes _)) hblob ⟨i, hi, by simpa using hspecial⟩ hok
      fun node hnode => ?_
    rw [hnodes, ← hstack]
    exact (merged_nodes_mem hread hfree node).mp hnode
  obtain ⟨rfl, -⟩ := Prod.mk.inj (Except.ok.inj ((readLayer_flatten hread hfree hplain hflat).symm.trans
    hfound))
  refine ⟨fun last hlast => ?_, ?_⟩
  · refine ⟨last.flattened, ?_, leftOf_flattened (hplain last (hperm.mem_iff.mpr (by rwa [hstack])))⟩
    rw [← hinodes, found_inodeByNumber, hstack, mem_latest.mp hlast]
    rfl
  · have hshort := (flatten_read hread hflat).1.short
    rwa [merged_length hread hfree, hstack] at hshort

theorem MetadataBlob.Flattenable.fits (h : blob.Flattenable) :
    (mergedOf H [(blob, slabs)]).Fits H := by
  obtain ⟨⟨-, -, hbounded, -⟩, hslabCount, hslabNodup, hslabs⟩ := readLayer_parsed hlayer
  have hread : LayersRead z [m] [(blob, slabs)] := .cons hlayer .nil
  have hstack := stackOf_single blob slabs
  have hslabPerm : (mergedOf H [(blob, slabs)]).sortedSlabs.Perm
      (slabs.map fun slab => (slab.slabId, slab.locators.map LocatorEntry.uri)) := by
    refine (List.mergeSort_perm _ _).trans ?_
    rw [mergedOf, addAll_slabEntries, List.flatMap_cons, List.flatMap_nil, List.append_nil,
      ← mergeSlabs_single hslabNodup]
    rfl
  refine ⟨fun i hi => ?_, fun node hnode => ?_, ?_, fun entry hentry => ?_, ?_⟩
  · have hi := (sortedInodes_perm (mergedOf_inodes _)).mem_iff.mp hi
    rw [hstack] at hi
    obtain ⟨first, hin, -, hleft, -⟩ := h.first hi
    exact flattenInode_isSome (by decide) hleft (hbounded first hin)
      (hbounded i (latest_subset _ hi))
  · rw [← hstack] at hfree
    exact (stack_parsed hread node ((merged_nodes_mem hread hfree node).mp hnode)).fit
  · rw [hslabPerm.length_eq, List.length_map]
    exact hslabCount
  · obtain ⟨slab, hslab, rfl⟩ := List.mem_map.mp (hslabPerm.mem_iff.mp hentry)
    have hlen := (hslabs slab hslab).count
    rwa [← List.length_map (f := LocatorEntry.uri)] at hlen
  · rw [merged_length hread (hstack.symm ▸ hfree), hstack]
    exact h.short

theorem MetadataBlob.Flattenable.preserves (h : blob.Flattenable) : FlattenPreserves H z m := by
  have hread : LayersRead z [m] [(blob, slabs)] := .cons hlayer .nil
  have hstack := stackOf_single blob slabs
  obtain ⟨artifact, hflat⟩ := flatten_of_fits hread (List.cons_ne_nil m []) (h.fits hlayer hfree)
  rw [← hstack] at hfree
  have hplain : ∀ i ∈ (mergedOf H [(blob, slabs)]).sortedInodes,
      i.contentHandle.isSpecial = false := by
    intro i hi
    have hi := (sortedInodes_perm (mergedOf_inodes _)).mem_iff.mp hi
    rw [hstack] at hi
    obtain ⟨_, -, -, hleft, -⟩ := h.first hi
    exact hleft.known
  refine ⟨blob, slabs, artifact, _, _, hlayer, hflat, readLayer_flatten hread hfree hplain hflat,
    fun node => ?_, fun number => ?_⟩
  · show node ∈ (mergedOf H [(blob, slabs)]).sortedDirNodes H ↔ _
    rw [merged_nodes_mem hread hfree, hstack]
  · rw [found_inodeByNumber, hstack]
    cases hlast : blob.inodes.reverse.find? fun i => i.number = number with
    | none =>
        refine (List.find?_eq_none.mpr fun i hi => ?_).symm
        simpa using List.find?_eq_none.mp hlast i (List.mem_reverse.mpr hi)
    | some last =>
        obtain rfl : last.number = number := by simpa using List.find?_some hlast
        obtain ⟨first, -, hfind, -, rfl⟩ := h.first (mem_latest.mpr hlast)
        rw [hfind]
        rfl

end

/-- **One manifest comes out of flattening as it went in exactly if every record is one that the
encoder knows how to write.** -/
theorem flatten_single_iff {layer : ParsedLayer} {blobBytes : Bytes}
    (hlayer : parseLayer z m = .ok layer)
    (hinline : layer.metadataReference.inlineMetadata = some blobBytes)
    (hfree : ∀ blob, (parseMetadataBlob blobBytes).1 = .ok blob →
      NoCollision H (blob.dirNodes.map fun node => dirNodeBytes node.entries)) :
    FlattenPreserves H z m ↔ ∃ blob, (parseMetadataBlob blobBytes).1 = .ok blob ∧ blob.Flattenable := by
  constructor
  · intro h
    obtain ⟨blob, slabs, -, -, -, hread, -⟩ := id h
    obtain ⟨layer', blobBytes', hlayer', hinline', hblob, -⟩ := readLayer_eq_ok.mp hread
    rw [hlayer] at hlayer'
    cases hlayer'
    rw [hinline] at hinline'
    cases hinline'
    exact ⟨blob, hblob, h.flattenable hread (hfree blob hblob)⟩
  · rintro ⟨blob, hblob, h⟩
    exact h.preserves (readLayer_eq_ok.mpr ⟨layer, blobBytes, hlayer, hinline, hblob, rfl⟩)
      (hfree blob hblob)

namespace Stored

/-- A file of one byte. -/
def ownedInode (uid : Nat) : Inode := ⟨1, 0x81A4, uid, 0, 0, 0, 1, none, [], .inlineData (ascii "a")⟩

def ownedBlobBytes (uid : Nat) : Bytes :=
  leBytes 4 1 ++ leBytes 8 1 ++ leBytes 4 0x81A4 ++ leBytes 4 uid ++ leBytes 4 0 ++ leBytes 8 0
    ++ leBytes 8 0 ++ leBytes 4 1 ++ [0x04] ++ leBytes 4 1 ++ ascii "a" ++ leBytes 4 0

/-- A manifest with these metadata and no slab. -/
def inlinedManifest (blob : Bytes) : Bytes :=
  ManifestHeader.current.toBytes ++ emptyFlagsBytes
    ++ ([1] ++ (digest blob).val ++ leBytes 4 0 ++ leBytes 4 blob.length ++ blob)
    ++ ([1] ++ leBytes 4 0) ++ flattenHistory 1

def inlinedLayer (blob : Bytes) : ParsedLayer :=
  ⟨⟨digest blob, [], some blob, codecStore, blob.length⟩, []⟩

def ownedManifest (uid : Nat) : Bytes := inlinedManifest (ownedBlobBytes uid)

end Stored

open Stored

theorem flatten_single_iff_of_root :
    FlattenPreserves Stored.digest Stored.omnizip (ownedManifest 0) ↔
      ∃ blob, (parseMetadataBlob (ownedBlobBytes 0)).1 = .ok blob ∧ blob.Flattenable := by
  have hlayer : parseLayer Stored.omnizip (ownedManifest 0)
      = .ok (inlinedLayer (ownedBlobBytes 0)) := by
    decide +kernel
  refine flatten_single_iff hlayer rfl fun blob hblob => ?_
  obtain rfl : (⟨[ownedInode 0], []⟩ : MetadataBlob) = blob :=
    Except.ok.inj (.trans (by decide +kernel) hblob)
  decide

/-- The owner of a file is lost. -/
theorem owner_is_lost : ∃ layer blob,
    parseLayer Stored.omnizip (ownedManifest 1000) = .ok layer ∧
      layer.metadataReference.inlineMetadata = some (ownedBlobBytes 1000) ∧
      (parseMetadataBlob (ownedBlobBytes 1000)).1 = .ok blob ∧
      ¬ FlattenPreserves Stored.digest Stored.omnizip (ownedManifest 1000) := by
  have hlayer : parseLayer Stored.omnizip (ownedManifest 1000)
      = .ok (inlinedLayer (ownedBlobBytes 1000)) := by
    decide +kernel
  have hblob : (parseMetadataBlob (ownedBlobBytes 1000)).1
      = .ok ⟨[ownedInode 1000], []⟩ := by
    decide +kernel
  refine ⟨_, _, hlayer, rfl, hblob, fun h => ?_⟩
  have hflat := h.flattenable (readLayer_eq_ok.mpr ⟨_, _, hlayer, rfl, hblob, rfl⟩) (by decide)
  obtain ⟨first, hfind, hleft⟩ := hflat.inodes (ownedInode 1000) (by decide)
  obtain rfl : ownedInode 1000 = first := Option.some.inj hfind
  exact absurd hleft.owner.1 (by decide)

end

section

variable {H : Hash} {z : Omnizip} {layers : List Bytes}
  {parsed : List (MetadataBlob × List SlabIndexEntry)}

/-! ### What the layers must keep to -/

/-- The bytes of the merged metadata: the last inode of each number and the last directory node of
each hash. -/
def mergedMetadataLen (H : Hash) (stack : MetadataBlob) : Nat :=
  8 + ((latest Inode.number stack.inodes).map Inode.flattenedLen).sum
    + ((latest (fun node => dirNodeHash H node.entries) stack.dirNodes).map fun node =>
      (dirNodeBytes node.entries).length).sum

/-- The layers keep to every width and ceiling that the flattener relies on. -/
structure LayersFit (H : Hash) (parsed : List (MetadataBlob × List SlabIndexEntry)) : Prop where
  slices : ∀ i ∈ latest Inode.number (stackOf parsed).inodes,
    ∀ map, i.contentHandle = .sliceMap map →
      ∀ s ∈ map.slices, s.fileByteEnd - s.fileByteStart < u32Limit
  slabs : ((parsed.flatMap Prod.snd).map SlabIndexEntry.slabId).dedup.length < u32Limit
  locators : ∀ entry ∈ (parsed.flatMap Prod.snd).foldl mergeSlab [], entry.2.length < u32Limit
  metadata : mergedMetadataLen H (stackOf parsed) ≤ defaultInlineMetadataMaxBytes

/-! ### The state that is encoded -/

theorem sortedSlabs_perm (parsed : List (MetadataBlob × List SlabIndexEntry)) :
    (mergedOf H parsed).sortedSlabs.Perm ((parsed.flatMap Prod.snd).foldl mergeSlab []) := by
  refine (List.mergeSort_perm _ _).trans ?_
  rw [mergedOf, addAll_slabEntries]
  rfl

theorem sortedSlabs_length (parsed : List (MetadataBlob × List SlabIndexEntry)) :
    (mergedOf H parsed).sortedSlabs.length =
      ((parsed.flatMap Prod.snd).map SlabIndexEntry.slabId).dedup.length := by
  have hmerged := mergedOf_slabs (H := H) parsed
  have hperm : ((mergedOf H parsed).sortedSlabs.map Prod.fst).Perm
      ((parsed.flatMap Prod.snd).map SlabIndexEntry.slabId).dedup := by
    refine (List.perm_ext_iff_of_nodup hmerged.nodup (List.nodup_dedup _)).mpr fun id => ?_
    rw [hmerged.ids, List.mem_dedup]
  rw [← hperm.length_eq, List.length_map]

theorem merged_metadata_len (parsed : List (MetadataBlob × List SlabIndexEntry)) :
    8 + ((mergedOf H parsed).sortedInodes.map Inode.flattenedLen).sum
        + (((mergedOf H parsed).sortedDirNodes H).map fun node =>
          (dirNodeBytes node.entries).length).sum =
      mergedMetadataLen H (stackOf parsed) := by
  have hinodes := sortedInodes_perm (mergedOf_inodes (H := H) parsed)
  have hnodes := sortedDirNodes_perm (mergedOf_dirNodes (H := H) parsed)
  rw [(hinodes.map _).sum_nat, (hnodes.map _).sum_nat]
  rfl

theorem fits_iff_layersFit (hparsed : LayersRead z layers parsed) :
    (mergedOf H parsed).Fits H ↔ LayersFit H parsed := by
  have hinodes := sortedInodes_perm (mergedOf_inodes (H := H) parsed)
  have hnodes := sortedDirNodes_perm (mergedOf_dirNodes (H := H) parsed)
  have hslabs := sortedSlabs_perm (H := H) parsed
  have hinode : ∀ i ∈ latest Inode.number (stackOf parsed).inodes,
      ((flattenInode i).isSome ↔ ∀ map, i.contentHandle = .sliceMap map →
        ∀ s ∈ map.slices, s.fileByteEnd - s.fileByteStart < u32Limit) := fun i hi =>
    flattenInode_isSome_iff (by decide) (stack_bounded hparsed i (latest_subset _ hi))
  constructor
  · intro h
    refine ⟨fun i hi => ?_, ?_, fun entry hentry => ?_, ?_⟩
    · exact (hinode i hi).mp (h.inodes i (hinodes.mem_iff.mpr hi))
    · rw [← sortedSlabs_length (H := H)]
      exact h.slabCount
    · exact h.locators entry (hslabs.mem_iff.mpr hentry)
    · rw [← merged_metadata_len]
      exact h.short
  · intro h
    refine ⟨fun i hi => ?_, fun node hnode => ?_, ?_, fun entry hentry => ?_, ?_⟩
    · have hmem := hinodes.mem_iff.mp hi
      exact (hinode i hmem).mpr (h.slices i hmem)
    · exact (stack_parsed hparsed node (latest_subset _ (hnodes.mem_iff.mp hnode))).fit
    · rw [sortedSlabs_length]
      exact h.slabs
    · exact h.locators entry (hslabs.mem_iff.mp hentry)
    · rw [merged_metadata_len]
      exact h.metadata

theorem layersFit_nil : LayersFit H [] := by
  refine ⟨fun i hi => ?_, ?_, fun entry hentry => ?_, ?_⟩
  · simp [stackOf, latest] at hi
  · simp [u32Limit]
  · simp at hentry
  · simp [mergedMetadataLen, stackOf, latest, defaultInlineMetadataMaxBytes]

/-! ### The outcome -/

theorem flatten_of_not_read (h : ∀ parsed, ¬ LayersRead z layers parsed) :
    (flatten H z layers).isSome := by
  unfold flatten
  by_cases hne : layers = []
  · rw [if_pos hne]
    rfl
  · rw [if_neg hne]
    rcases hmerge : mergeLayers H z 0 .empty layers with e | merged
    · rfl
    · obtain ⟨parsed, hparsed, -⟩ := mergeLayers_eq_ok.mp hmerge
      exact absurd hparsed (h parsed)

theorem flatten_of_read (hne : layers ≠ []) (hparsed : LayersRead z layers parsed) (e : FlattenError) :
    flatten H z layers ≠ some (.error e) := by
  have hmerge : mergeLayers H z 0 .empty layers = .ok (mergedOf H parsed) :=
    mergeLayers_eq_ok.mpr ⟨parsed, hparsed, rfl⟩
  intro h
  unfold flatten at h
  rw [if_neg hne, hmerge] at h
  simp only [Option.bind_eq_bind, Option.bind_eq_some_iff, Option.some.injEq, reduceCtorEq,
    and_false, exists_false] at h

/--
**Flattening does not panic exactly when the layers, if all are read, keep to the widths and the
ceiling.**  A list with a layer that is not read gives an error, and so does the empty one.
-/
theorem flatten_never_panics_iff (H : Hash) (z : Omnizip) (layers : List Bytes) :
    (∃ answer, flatten H z layers = some answer) ↔
      ∀ parsed, LayersRead z layers parsed → LayersFit H parsed := by
  constructor
  · rintro ⟨answer, hanswer⟩ parsed hparsed
    by_cases hne : layers = []
    · subst hne
      cases hparsed
      exact layersFit_nil
    · cases answer with
      | error e => exact absurd hanswer (flatten_of_read hne hparsed e)
      | ok artifact => exact (fits_iff_layersFit hparsed).mp (flatten_read hparsed hanswer).1
  · intro hfit
    by_cases hread : ∃ parsed, LayersRead z layers parsed
    · obtain ⟨parsed, hparsed⟩ := hread
      by_cases hne : layers = []
      · rw [hne]
        exact ⟨_, if_pos rfl⟩
      · obtain ⟨artifact, h⟩ :=
          flatten_of_fits hparsed hne ((fits_iff_layersFit hparsed).mpr (hfit parsed hparsed))
        exact ⟨_, h⟩
    · exact Option.isSome_iff_exists.mp (flatten_of_not_read fun parsed h => hread ⟨parsed, h⟩)

namespace Stored

/-- A file of `2 ^ 32` bytes in one slice. -/
def wideBlobBytes : Bytes :=
  leBytes 4 1 ++ leBytes 8 1 ++ leBytes 4 0x81A4 ++ leBytes 4 0 ++ leBytes 4 0 ++ leBytes 8 0
    ++ leBytes 8 0 ++ leBytes 4 1 ++ [0x00] ++ leBytes 4 1 ++ leBytes 8 0 ++ leBytes 8 u32Limit
    ++ (digest []).val ++ leBytes 4 0 ++ leBytes 4 0 ++ leBytes 4 0

def wideManifest : Bytes := inlinedManifest wideBlobBytes

end Stored

open LimniFS.Stored

/-- The layer is read, and flattening it panics. -/
theorem wide_slice_panics :
    (∃ blob, readLayer omnizip 0 wideManifest = .ok (blob, [])) ∧
      flatten digest omnizip [wideManifest] = none := by
  refine ⟨?_, by decide +kernel⟩
  have hread : (readLayer omnizip 0 wideManifest).toOption.map Prod.snd = some [] := by
    decide +kernel
  rcases hlayer : readLayer omnizip 0 wideManifest with e | ⟨blob, slabs⟩
  · rw [hlayer] at hread
    cases hread
  · rw [hlayer] at hread
    cases hread
    exact ⟨blob, rfl⟩

end

end LimniFS
