/-
What compaction does to an image.

Compaction is given one manifest and one slab and writes one manifest with one slab, so
it suits an image that is just that.  Here it is followed through the readers: on an
image the writer assembled, with its files on disk, every file that could be read can
be read again exactly when its drops are in the given slab and its metadata is inlined;
and the sections behind the history survive exactly when there are none.
-/
import LimniFS.CompactionPreserves
import LimniFS.TrailingSections

namespace LimniFS

open Lib Lib.Parser Cursor

/-! ### An image on disk -/

/-- The files of an image are in the directory, under the names its manifest has for them. -/
structure WriteArtifact.OnDisk (a : WriteArtifact) (dir : Directory) : Prop where
  slab : ∀ s ∈ a.slabs, ∃ name, localSidecarName s.locator = .ok name ∧ dir name = some s.bytes
  sidecar : ∀ m ∈ a.metadataSidecar,
    ∃ name, localSidecarName m.locator = .ok name ∧ dir name = some m.bytes

def compactedSlabName : Bytes := ascii "slab-0.bin"

/-- The directory after the new slab was put into it. -/
def compactedDir (dir : Directory) (newSlab : Bytes) : Directory := fun name =>
  if name = compactedSlabName then some newSlab else dir name

/-- What is left of a manifest behind its history. -/
def behindHistory (z : Omnizip) (manifest : Bytes) : Bytes := (parseSections z manifest).2

/-- The image `after` stands for `before`: every file reads as it did over the same bases, what
stood behind the history still does, and `root` is the root of the manifest. -/
structure KeepsImage (H : Hash) (z : Omnizip) (before after : ImageFile) (bases : List ImageFile)
    (root : Digest) : Prop where
  reads : ∀ number out, readInode z before bases number = .ok out →
    readInode z after bases number = .ok out
  trailer : behindHistory z after.manifest = behindHistory z before.manifest
  root : manifestRoot H z after.manifest = .ok root

/-- Every file of the image that can be read takes all its drops from the slab, by metadata that
is inlined. -/
def FilesInSlab (z : Omnizip) (image : ImageFile) (bases : List ImageFile) (a : WriteArtifact)
    (slab : SlabArtifact) : Prop :=
  ∀ loaded, loadImage z image = .ok loaded → ∀ number inode,
    loaded.blob.inodeByNumber number = some inode →
    (∃ out, readInode z image bases number = .ok out) →
    ∀ slice ∈ inode.slices, slice.dropId ∈ slab.dropIds ∧ a.metadataSidecar = none

/-! ### The slabs of an image -/

section

variable {H : Hash} {z : Omnizip}

theorem localSidecarName_ok {uri name : Bytes} (h : localSidecarName uri = .ok name) :
    name = uri.drop 5 := by
  unfold localSidecarName at h
  split at h
  · cases h
  · simp only at h
    split at h
    · cases h
    · exact (Except.ok.inj h).symm

/-- The views of the slabs of an image, as they are loaded. -/
theorem loadSlabs_onDisk {dir : Directory} :
    ∀ (slabs : List SlabArtifact) (ordinal : Nat) (views : List SlabView),
      (∀ s ∈ slabs, ∃ name, localSidecarName s.locator = .ok name ∧ dir name = some s.bytes) →
      loadSlabs dir ordinal (slabIndexOf slabs).entries = .ok views →
      List.Forall₂ (fun s view => parseSlab s.bytes = .ok view) slabs views := by
  intro slabs
  induction slabs with
  | nil => intro ordinal views _ h; cases h; exact .nil
  | cons slab rest ih =>
      intro ordinal views hdisk h
      obtain ⟨name, hname, hfile⟩ := hdisk slab List.mem_cons_self
      have hslab : loadSlab dir ordinal ⟨slab.id, [⟨slab.locator⟩]⟩ = parseSlab slab.bytes := by
        unfold loadSlab
        simp only [hname, hfile]
      simp only [slabIndexOf, List.map_cons, loadSlabs, hslab] at h
      rcases hview : parseSlab slab.bytes with e | view
      · rw [hview] at h
        cases h
      · rw [hview] at h
        simp only at h
        split at h
        · cases h
        · next more hmore =>
            cases h
            exact .cons hview (ih _ _ (fun s hs => hdisk s (List.mem_cons_of_mem _ hs)) hmore)

theorem views_nodup {ctx : WriteContext} {slabs : List SlabArtifact} {views : List SlabView}
    (hctx : ctx.WellFormed) (hslabs : packSlabs H ctx.drops = some slabs)
    (hcount : slabs.length < u32Limit)
    (hviews : List.Forall₂ (fun s view => parseSlab s.bytes = .ok view) slabs views) :
    (views.flatMap fun view => view.dropRecords.map (·.dropId)).Nodup := by
  have hids : slabs.map (·.dropIds)
      = views.map fun view => view.dropRecords.map (·.dropId) := by
    have hall := (List.forall₂_and_left (p := fun s => s ∈ slabs) _ _).mpr ⟨fun _ h => h, hviews⟩
    refine map_eq_map_of_forall₂ hall ?_
    rintro s view ⟨hs, hview⟩
    exact (parseSlab_packed hslabs hcount hctx.plaintextLen hs hview).symm
  rw [List.flatMap_def, ← hids, ← List.flatMap_def, packSlabs_dropIds hslabs]
  exact hctx.ids.sublist (List.filter_sublist.map _)

/-! ### One drop -/

theorem plaintextFor_of_find {store : SlabStore} {dropId : Digest} {view : SlabView}
    {record : DropRecord} (h : store.find dropId = some (view, record)) :
    store.plaintextFor z dropId = view.read z record store.dictionaries := by
  unfold SlabStore.plaintextFor SlabStore.locateWindow SlabView.read
  rw [h]
  simp only [Option.map_map]
  rfl

theorem keepable_of_read {view : SlabView} {record : DropRecord} {plaintext : Bytes}
    (h : view.read z record (fun _ => none) = some (.ok plaintext)) : Keepable view record := by
  unfold SlabView.read at h
  obtain ⟨raw, hraw, hdec⟩ := Option.map_eq_some_iff.mp h
  have hwindow : (view.window record).isSome = true := by rw [hraw]; rfl
  unfold decodeDrop at hdec
  by_cases hseek : record.flags &&& dropFlagSeekable ≠ 0
  · rw [if_pos hseek] at hdec
    by_cases hdict : record.dictId ≠ noDict
    · rw [if_pos hdict] at hdec
      cases hdec
    · exact ⟨Decidable.not_not.mp hdict, hwindow, Or.inl hseek⟩
  · rw [if_neg hseek] at hdec
    split at hdec
    · cases hdec
    · next haead =>
        split at hdec
        · cases hdec
        · next hindex =>
            split at hdec
            · next hdict =>
                exact ⟨hdict, hwindow,
                  Or.inr ⟨Decidable.not_not.mp haead, Decidable.not_not.mp hindex⟩⟩
            · cases hdec

/-- The store of a compacted image. -/
def compactedStore (H : Hash) (view : SlabView) (referenced : List Digest) : SlabStore :=
  ⟨[compactedView H (keptDrops view referenced)], fun _ => none⟩

theorem compactedRecords_ids :
    ∀ (drops : List ExtractedDrop) (offset : Nat),
      (compactedRecords offset drops).map (·.dropId) = drops.map (·.id) := by
  intro drops
  induction drops with
  | nil => intro _; rfl
  | cons d rest ih =>
      intro offset
      rw [compactedRecords, List.map_cons, List.map_cons, ih]

theorem keptDrops_ids_sublist (view : SlabView) (referenced : List Digest) :
    ((keptDrops view referenced).map (·.id)).Sublist (view.dropRecords.map (·.dropId)) := by
  have hgen : ∀ records : List DropRecord,
      ((records.filterMap (extractDrop view)).map (·.id)).Sublist (records.map (·.dropId)) := by
    intro records
    induction records with
    | nil => exact .slnil
    | cons r rest ih =>
        rcases hr : extractDrop view r with _ | d
        · rw [List.filterMap_cons_none hr]
          exact ih.cons _
        · obtain ⟨raw, -, rfl⟩ := Option.map_eq_some_iff.mp hr
          rw [List.filterMap_cons_some hr]
          exact ih.cons_cons _
  exact (hgen _).trans (List.filter_sublist.map _)

theorem mem_of_compacted {view : SlabView} {referenced : List Digest} {dropId : Digest}
    {result : Except CoreError Bytes}
    (h : (compactedStore H view referenced).plaintextFor z dropId = some result) :
    dropId ∈ view.dropRecords.map (·.dropId) ∧ dropId ∈ referenced := by
  obtain ⟨slab, hslab, record, hrecord, -, hid, -⟩ := SlabStore.plaintextFor_some h
  obtain rfl := List.mem_singleton.mp hslab
  have hmem : dropId ∈ (keptDrops view referenced).map (·.id) := by
    rw [← compactedRecords_ids _ 0, ← hid]
    exact List.mem_map_of_mem hrecord
  obtain ⟨d, hd, rfl⟩ := List.mem_map.mp hmem
  obtain ⟨r, hr, href, hextract⟩ := mem_keptDrops hd
  obtain ⟨raw, -, rfl⟩ := Option.map_eq_some_iff.mp hextract
  exact ⟨List.mem_map_of_mem hr, href⟩

/-- **A drop that decodes without dictionaries decodes the same after compaction**, if it is in
the slab and referred to. -/
theorem plaintextFor_compacted {slab : Bytes} {view : SlabView} {referenced : List Digest}
    (hview : parseSlab slab = .ok view) {views : List SlabView} (hmem : view ∈ views)
    (hnodup : (views.flatMap fun v => v.dropRecords.map (·.dropId)).Nodup) {dropId : Digest}
    (hid : dropId ∈ view.dropRecords.map (·.dropId)) (href : dropId ∈ referenced)
    {plaintext : Bytes}
    (h : SlabStore.plaintextFor z ⟨views, fun _ => none⟩ dropId = some (.ok plaintext)) :
    (compactedStore H view referenced).plaintextFor z dropId = some (.ok plaintext) := by
  obtain ⟨record, hrecord, rfl⟩ := List.mem_map.mp hid
  rw [plaintextFor_of_find (SlabStore.find_of_nodup ⟨views, fun _ => none⟩ hnodup hmem
    hrecord)] at h
  have hkeep := keepable_of_read h
  obtain ⟨d, hd⟩ : ∃ d, extractDrop view record = some d := by
    obtain ⟨raw, hraw⟩ := Option.isSome_iff_exists.mp hkeep.window
    exact ⟨_, by rw [extractDrop, hraw]; rfl⟩
  have hkept : d ∈ keptDrops view referenced :=
    List.mem_filterMap.mpr ⟨record, mem_referencedRecords.mpr ⟨hrecord, href⟩, hd⟩
  obtain ⟨-, hrecords⟩ := parseSlab_compacted H hview referenced
  obtain ⟨new, hnew, hmade⟩ := exists_mem_of_forall₂ hrecords d hkept
  have hsame := sameRecord_of_keepable (z := z) hkeep hd hmade
  have hids : (view.dropRecords.map (·.dropId)).Nodup :=
    (List.nodup_flatMap.mp hnodup).1 view hmem
  have hfind := SlabStore.find_of_nodup (compactedStore H view referenced) (by
      show ((compactedRecords 0 (keptDrops view referenced)).map DropRecord.dropId ++ []).Nodup
      rw [List.append_nil, compactedRecords_ids]
      exact hids.sublist (keptDrops_ids_sublist view referenced))
    (List.mem_singleton.mpr rfl) hnew
  rw [hsame.dropId] at hfind
  rw [plaintextFor_of_find hfind]
  show (compactedView H (keptDrops view referenced)).read z new (fun _ => none) = _
  rw [hsame.read]
  exact h

/-! ### The image before -/

section

variable {ctx : WriteContext} {blob : Bytes} {slabs : List SlabArtifact} {front : ManifestFront}
  {rest : Bytes}

/-- The one store of an image with slabs, without dictionaries and without bases. -/
theorem loadSlabChain_own {image : ImageFile} {loaded : LoadedImage} {stores : List SlabStore}
    (hentries : loaded.slabIndex.entries ≠ []) (hdict : loaded.dictSection = none)
    (h : loadSlabChain z image loaded [] = .ok stores) :
    ∃ views, loadSlabs image.dir 0 loaded.slabIndex.entries = .ok views ∧
      stores = [⟨views, fun _ => none⟩] := by
  unfold loadSlabChain at h
  rw [if_neg hentries, hdict] at h
  simp only [except_bind_eq_ok, loadStore, SlabStore.load] at h
  obtain ⟨own, hown, more, hmore, hstores⟩ := h
  obtain ⟨store, hstore, rfl⟩ := map_eq_ok hown
  cases hmore
  cases hstores
  split at hstore
  · cases hstore
  · next store' hload =>
      split at hload
      · cases hload
      · next views hviews =>
          cases hload
          cases hstore
          exact ⟨views, hviews, rfl⟩

end

theorem chainSource_singleton (store : SlabStore) :
    chainSource z [store] = some fun dropId => store.plaintextFor z dropId := by
  unfold chainSource
  rw [if_neg (by simp)]
  simp only [List.findSome?_singleton]

/-! ### The image after -/

theorem metadataLocator_ne (wire : Bytes) : (metadataLocator H wire).drop 5 ≠ compactedSlabName := by
  intro h
  have hhead := congrArg List.head? h
  simp [metadataLocator, ascii, compactedSlabName] at hhead

/-- The metadata is where it was. -/
theorem metadataBytes_compactedDir (dir : Directory) (newSlab : Bytes) {blob wire : Bytes}
    {threshold : Nat} {ref : MetadataReference} (href : RefersTo H blob (metadataSidecarFor H threshold wire) ref) :
    metadataBytes z (compactedDir dir newSlab) ref = metadataBytes z dir ref := by
  unfold metadataBytes
  rcases hinline : ref.inlineMetadata with _ | inline
  · have hsome : (metadataSidecarFor H threshold wire).isSome = true := by
      have := href.inlined
      rw [hinline] at this
      rw [← Option.not_isNone, ← this]
      rfl
    obtain ⟨m, hm⟩ := Option.isSome_iff_exists.mp hsome
    have hlocator : m.locator = metadataLocator H wire := by
      unfold metadataSidecarFor at hm
      split at hm
      · cases hm
        rfl
      · cases hm
    simp only
    unfold readExternalMetadata
    rw [href.locator m hm, hlocator]
    simp only
    rcases hname : localSidecarName (metadataLocator H wire) with e | name
    · rfl
    · have hne : name ≠ compactedSlabName := by
        rw [localSidecarName_ok hname]
        exact metadataLocator_ne wire
      simp only [compactedDir]
      rw [if_neg hne]
  · rfl

/-- A reassembled manifest loads to the same tree. -/
theorem loadImage_reassembled (slabId : SlabId) {image : ImageFile} {loaded : LoadedImage}
    {front : ManifestFront} {rest : Bytes} {dir : Directory}
    (hfront : parseManifestFront z image.manifest = (.ok front, rest))
    (hmeta : metadataBytes z dir front.metadataReference
      = metadataBytes z image.dir front.metadataReference) (hord : slabId.ordinal < 2 ^ 64)
    (h : loadImage z image = .ok loaded) :
    loadImage z ⟨(reassembledManifest H front slabId).1, dir⟩
      = .ok ⟨loaded.blob, loaded.rootInodeNumber, compactedIndex slabId, none⟩ := by
  obtain ⟨front', rest', bytes, blobRest, rest'', hfront', hbytes, hblob, -, hroot, hsome, -⟩ :=
    loadImage_eq_ok.mp h
  rw [hfront] at hfront'
  obtain ⟨hf, -⟩ := Prod.mk.inj hfront'
  cases hf
  refine loadImage_eq_ok.mpr ⟨front, _, bytes, blobRest, _,
    (parseManifestFront_ok hfront).2 _, hmeta.trans hbytes, hblob,
    reads_parseSlabIndex (writable_compactedIndex hord) _, hroot, hsome, ?_⟩
  have hhist := reads_parseHistory .turnover []
  rw [List.append_nil] at hhist
  rw [trailingDictionaries, hhist]
  rfl

theorem loadSlabChain_compacted (manifest : Bytes) (dir : Directory) (blob : MetadataBlob)
    (root : Nat) (slabId : SlabId) {newSlab : Bytes} {view : SlabView} (h : parseSlab newSlab = .ok view) :
    loadSlabChain z ⟨manifest, compactedDir dir newSlab⟩ ⟨blob, root, compactedIndex slabId, none⟩
      [] = .ok [⟨[view], fun _ => none⟩] := by
  have hname : localSidecarName compactedLocator = .ok compactedSlabName := by rfl
  have hslab : loadSlab (compactedDir dir newSlab) 0 ⟨slabId, [⟨compactedLocator⟩]⟩ = .ok view := by
    unfold loadSlab compactedDir
    simp only [hname, if_true]
    exact h
  have hload : SlabStore.load (compactedDir dir newSlab) (compactedIndex slabId)
      = .ok ⟨[view], fun _ => none⟩ := by
    unfold SlabStore.load compactedIndex
    simp only [loadSlabs, hslab]
  unfold loadSlabChain loadStore
  rw [if_neg (by simp [compactedIndex])]
  simp only [hload]
  rfl

/-- A reassembled manifest of an assembled image has the root that was reported, and nothing
behind its history. -/
theorem parseSections_reassembled {front : ManifestFront} {slabId : SlabId}
    (href : Reads (parseMetadataReference z) front.metadataReferenceBytes front.metadataReference)
    (hheader : front.headerBytes = ManifestHeader.current.toBytes)
    (hflags : front.flagsBytes = emptyFlagsBytes) (hord : slabId.ordinal < 2 ^ 64) :
    parseSections z (reassembledManifest H front slabId).1
      = (.ok (plainSections front.metadataReferenceBytes front.metadataReference
          (compactedIndex slabId) .turnover), []) := by
  have hparse := parseSections_plain (writable_compactedIndex hord) href .turnover []
  rw [List.append_nil] at hparse
  rw [← hparse, reassembledManifest, ManifestFront.bytes, hheader, hflags]
  simp only [List.append_assoc]

theorem manifestRoot_reassembled {front : ManifestFront} {slabId : SlabId}
    (href : Reads (parseMetadataReference z) front.metadataReferenceBytes front.metadataReference)
    (hheader : front.headerBytes = ManifestHeader.current.toBytes)
    (hflags : front.flagsBytes = emptyFlagsBytes) (hord : slabId.ordinal < 2 ^ 64) :
    manifestRoot H z (reassembledManifest H front slabId).1
      = .ok (reassembledManifest H front slabId).2 := by
  rw [manifestRoot, parseSections_reassembled href hheader hflags hord]
  simp only [reassembledManifest, hheader, hflags]
  rfl

/-! ### The files of the image -/

theorem trailer_eq_nil {ctx : WriteContext} :
    ctx.trailer = [] ↔ ctx.trainedDicts.toList = [] ∧ ctx.baseRoot = none := by
  unfold WriteContext.trailer
  rw [List.append_eq_nil_iff]
  refine and_congr ?_ ?_
  · split
    · next h => exact ⟨fun _ => h, fun _ => rfl⟩
    · next h => exact ⟨nofun, fun hnil => absurd hnil h⟩
  · rcases ctx.baseRoot with _ | base
    · exact ⟨fun _ => rfl, fun _ => rfl⟩
    · exact ⟨nofun, nofun⟩

/-- The blob and the sidecar `assemble` made. -/
theorem assemble_metadata {ctx : WriteContext} {a : WriteArtifact} (h : assemble H z ctx = some a) :
    ∃ blob, ctx.metadataBlob H = some blob ∧ a.metadataSidecar = metadataSidecarFor H
      ctx.metadataExternalizeThreshold (metadataOnWire z ctx.metadataCodec blob).2 := by
  simp only [assemble, Option.bind_eq_bind, Option.bind_eq_some_iff, Option.pure_def,
    Option.some.injEq] at h
  obtain ⟨slabs, -, blob, hblob, _, -, _, -, _, -, rfl⟩ := h
  exact ⟨blob, hblob, rfl⟩

/-- Inlined metadata refers to the drops of its inodes, metadata in a sidecar to none. -/
theorem mem_findReferencedDrops {ref : MetadataReference} {dir : Directory} {bytes blobRest : Bytes}
    {blob : MetadataBlob} {referenced : List Digest} (hbytes : metadataBytes z dir ref = .ok bytes)
    (hblob : parseMetadataBlob bytes = (.ok blob, blobRest))
    (href : findReferencedDrops ref = .ok referenced) {inode : Inode} (hinode : inode ∈ blob.inodes)
    {slice : SliceRef} (hslice : slice ∈ inode.slices) :
    (ref.inlineMetadata.isSome = true → slice.dropId ∈ referenced) ∧
      (ref.inlineMetadata = none → referenced = []) := by
  unfold findReferencedDrops at href
  unfold metadataBytes at hbytes
  rcases hinline : ref.inlineMetadata with _ | inline
  · rw [hinline] at href
    cases href
    exact ⟨nofun, fun _ => rfl⟩
  · rw [hinline] at href hbytes
    cases hbytes
    simp only [hblob] at href
    cases href
    refine ⟨fun _ => ?_, nofun⟩
    exact List.mem_flatMap.mpr ⟨inode, hinode, List.mem_map_of_mem hslice⟩

/-- **One file of an image without trailing sections**, before and after. -/
theorem readInode_compacted_iff {ctx : WriteContext} {blob : Bytes} {a : WriteArtifact}
    {dir : Directory} {slab : SlabArtifact} {front : ManifestFront} {rest : Bytes}
    {referenced : List Digest} {view : SlabView} (hctx : ctx.WellFormed)
    (hblob : ctx.metadataBlob H = some blob) (ha : assemble H z ctx = some a)
    (hdisk : a.OnDisk dir) (hslab : slab ∈ a.slabs) (htrailer : ctx.trailer = [])
    (hfront : parseManifestFront z a.bytes = (.ok front, rest))
    (href : findReferencedDrops front.metadataReference = .ok referenced)
    (hview : parseSlab slab.bytes = .ok view) {loaded : LoadedImage}
    (hload : loadImage z ⟨a.bytes, dir⟩ = .ok loaded) {number : Nat} {inode : Inode}
    (hinode : loaded.blob.inodeByNumber number = some inode) {out : Bytes}
    (hread : readInode z ⟨a.bytes, dir⟩ [] number = .ok out) :
    readInode z ⟨(reassembledManifest H front
        (encodeCompactedSlab H (keptDrops view referenced)).2).1,
        compactedDir dir (encodeCompactedSlab H (keptDrops view referenced)).1⟩ [] number = .ok out
      ↔ ∀ slice ∈ inode.slices, slice.dropId ∈ slab.dropIds ∧ a.metadataSidecar = none := by
  obtain ⟨hbytes, -, hslabs, hlen, hcount⟩ := assemble_some hblob ha
  obtain ⟨blob', hblob', hsidecar⟩ := assemble_metadata ha
  rw [hblob] at hblob'
  cases hblob'
  have hindex := writable_slabIndexOf hslabs hcount
  rw [hbytes] at hfront hload hread
  obtain ⟨hrefers, -⟩ := parseManifestFront_assembled hlen hfront
  obtain ⟨hownIndex, hdict⟩ := loadImage_assembled hlen hindex hload
  rw [htrailer, trailingDictionaries_history, if_pos rfl] at hdict
  have hmeta := metadataBytes_compactedDir (z := z) dir
    (encodeCompactedSlab H (keptDrops view referenced)).1 hrefers
  -- the drops before: one store of all slabs
  obtain ⟨loaded', stores, inode', hload', hstores, hinode', hplain⟩ := readInode_eq_ok.mp hread
  rw [hload] at hload'
  cases hload'
  rw [hinode] at hinode'
  cases hinode'
  have hentries : loaded.slabIndex.entries ≠ [] := by
    rw [hownIndex, slabIndexOf]
    intro hnil
    rw [List.map_eq_nil_iff.mp hnil] at hslab
    cases hslab
  obtain ⟨views, hviews, rfl⟩ := loadSlabChain_own hentries hdict hstores
  rw [hownIndex] at hviews
  have hparsed := loadSlabs_onDisk _ _ _ hdisk.slab hviews
  have hnodup := views_nodup hctx hslabs hcount hparsed
  have hids := parseSlab_packed hslabs hcount hctx.plaintextLen hslab hview
  have hmem : view ∈ views := by
    obtain ⟨v, hv, hslabView⟩ := forall_mem_of_forall₂ (Q := fun v => v ∈ views)
      (P := fun s => ∃ v ∈ views, parseSlab s.bytes = .ok v) hparsed (fun _ h => h)
      (fun s v hp hv => ⟨v, hv, hp⟩) slab hslab
    rw [hview] at hslabView
    cases hslabView
    exact hv
  -- the metadata the file came from
  obtain ⟨front', rest', bytes, blobRest, -, hfront', hblobBytes, hparse, -⟩ :=
    loadImage_eq_ok.mp hload
  rw [hfront] at hfront'
  obtain ⟨hf, -⟩ := Prod.mk.inj hfront'
  cases hf
  have hrefs : ∀ slice ∈ inode.slices, (front.metadataReference.inlineMetadata.isSome = true →
      slice.dropId ∈ referenced) ∧ (front.metadataReference.inlineMetadata = none →
      referenced = []) := fun slice hslice =>
    mem_findReferencedDrops hblobBytes hparse href (inodeByNumber_mem hinode).1 hslice
  have hinlined : front.metadataReference.inlineMetadata.isSome = true ↔ a.metadataSidecar = none := by
    rw [hrefers.inlined, ← hsidecar, Option.isNone_iff_eq_none]
  -- the drops after: one store of the compacted slab
  have hloadAfter := loadImage_reassembled (H := H) (z := z)
    (encodeCompactedSlab H (keptDrops view referenced)).2 hfront hmeta (Nat.two_pow_pos 64) hload
  have hchain := loadSlabChain_compacted (z := z)
    (reassembledManifest H front (encodeCompactedSlab H (keptDrops view referenced)).2).1 dir
    loaded.blob loaded.rootInodeNumber (encodeCompactedSlab H (keptDrops view referenced)).2
    (parseSlab_compacted H hview referenced).1
  rw [chainSource_singleton] at hplain
  constructor
  · intro hafter slice hslice
    obtain ⟨loaded', stores', inode', hload', hstores', hinode', hplain'⟩ :=
      readInode_eq_ok.mp hafter
    rw [hloadAfter] at hload'
    cases hload'
    rw [hchain] at hstores'
    cases hstores'
    rw [hinode] at hinode'
    cases hinode'
    rw [chainSource_singleton] at hplain'
    obtain ⟨plaintext, hdrop⟩ := filePlaintext_drops hplain' slice hslice
    obtain ⟨hin, hreferenced⟩ := mem_of_compacted hdrop
    refine ⟨hids ▸ hin, hinlined.mp ?_⟩
    by_contra hnone
    rw [(hrefs slice hslice).2 (Option.not_isSome_iff_eq_none.mp hnone)] at hreferenced
    cases hreferenced
  · intro hall
    refine readInode_eq_ok.mpr ⟨_, _, inode, hloadAfter, hchain, hinode, ?_⟩
    rw [chainSource_singleton]
    refine filePlaintext_congr (fun slice hslice plaintext hdrop => ?_) hplain
    obtain ⟨hin, hnone⟩ := hall slice hslice
    exact plaintextFor_compacted hview hmem hnodup (hids ▸ hin)
      ((hrefs slice hslice).1 (hinlined.mpr hnone)) hdrop

/-- If the image is kept, its files were in the slab. -/
theorem filesInSlab_of_keepsImage {ctx : WriteContext} {a : WriteArtifact} {dir : Directory}
    {bases : List ImageFile} {slab : SlabArtifact} {r : CompactionResult} {newSlab : Bytes}
    (hctx : ctx.WellFormed) (ha : assemble H z ctx = some a) (hdisk : a.OnDisk dir)
    (hbases : ctx.baseRoot = none → bases = []) (hslab : slab ∈ a.slabs)
    (hr : compactImage H z a.bytes slab.bytes = .ok r) (hnew : r.slabBytes = some newSlab)
    (hkeeps : KeepsImage H z ⟨a.bytes, dir⟩ ⟨r.manifestBytes, compactedDir dir newSlab⟩ bases
      r.merkleRoot) :
    (ctx.trainedDicts.toList = [] ∧ ctx.baseRoot = none) ∧
      FilesInSlab z ⟨a.bytes, dir⟩ bases a slab := by
  obtain ⟨blob, hblob, -⟩ := assemble_metadata ha
  obtain ⟨hbytes, -, hslabs, hlen, hcount⟩ := assemble_some hblob ha
  obtain ⟨front, rest, referenced, view, hfront, href, hview, hnewSlab, hman⟩ := compactImage_ok hr
  rw [hnewSlab] at hnew
  cases hnew
  have hmanifest : r.manifestBytes = _ := congrArg Prod.fst hman
  have hassembled := hfront
  rw [hbytes] at hassembled
  obtain ⟨-, hreads, hheader, hflags, hrefBytes, -⟩ := parseManifestFront_assembled hlen hassembled
  have htrailer : ctx.trailer = [] := by
    have hbehind := hkeeps.trailer
    rw [hrefBytes] at hreads
    unfold behindHistory at hbehind
    simp only [hmanifest, hbytes] at hbehind
    rw [parseSections_assembled (writable_slabIndexOf hslabs hcount) hreads,
      parseSections_reassembled (by rw [hrefBytes]; exact hreads) hheader hflags
        (Nat.two_pow_pos 64)] at hbehind
    exact hbehind.symm
  refine ⟨trailer_eq_nil.mp htrailer, ?_⟩
  obtain rfl := hbases (trailer_eq_nil.mp htrailer).2
  intro loaded hload number inode hinode ⟨out, hread⟩
  have hafter := hkeeps.reads number out hread
  rw [hmanifest] at hafter
  exact (readInode_compacted_iff hctx hblob ha hdisk hslab htrailer hfront href hview hload hinode
    hread).mp hafter

/--
**When compaction keeps an image.**  A successful compaction of an assembled image and one of
its slabs keeps the image exactly when there are no dictionaries and no base, and every file
that can be read has its drops in that slab and its metadata inlined.
-/
theorem compaction_keeps_image_iff {ctx : WriteContext} {a : WriteArtifact} {dir : Directory}
    {bases : List ImageFile} {slab : SlabArtifact} {r : CompactionResult} {newSlab : Bytes}
    (hctx : ctx.WellFormed) (ha : assemble H z ctx = some a) (hdisk : a.OnDisk dir)
    (hbases : ctx.baseRoot = none → bases = []) (hslab : slab ∈ a.slabs)
    (hr : compactImage H z a.bytes slab.bytes = .ok r) (hnew : r.slabBytes = some newSlab) :
    KeepsImage H z ⟨a.bytes, dir⟩ ⟨r.manifestBytes, compactedDir dir newSlab⟩ bases r.merkleRoot ↔
      (ctx.trainedDicts.toList = [] ∧ ctx.baseRoot = none) ∧
        FilesInSlab z ⟨a.bytes, dir⟩ bases a slab := by
  refine ⟨filesInSlab_of_keepsImage hctx ha hdisk hbases hslab hr hnew, ?_⟩
  rintro ⟨hplain, hfiles⟩
  obtain rfl := hbases hplain.2
  have htrailer := trailer_eq_nil.mpr hplain
  obtain ⟨blob, hblob, -⟩ := assemble_metadata ha
  obtain ⟨hbytes, -, hslabs, hlen, hcount⟩ := assemble_some hblob ha
  obtain ⟨front, rest, referenced, view, hfront, href, hview, hnewSlab, hman⟩ := compactImage_ok hr
  rw [hnewSlab] at hnew
  cases hnew
  have hmanifest : r.manifestBytes = _ := congrArg Prod.fst hman
  have hroot : r.merkleRoot = _ := congrArg Prod.snd hman
  have hassembled := hfront
  rw [hbytes] at hassembled
  obtain ⟨-, hreads, hheader, hflags, hrefBytes, -⟩ := parseManifestFront_assembled hlen hassembled
  refine ⟨?_, ?_, ?_⟩
  · intro number out hread
    obtain ⟨loaded, stores, inode, hload, -, hinode, -⟩ := readInode_eq_ok.mp hread
    rw [hmanifest]
    exact (readInode_compacted_iff hctx hblob ha hdisk hslab htrailer hfront href hview hload hinode
      hread).mpr (hfiles loaded hload number inode hinode ⟨out, hread⟩)
  · unfold behindHistory
    simp only [hmanifest, hbytes]
    rw [parseSections_reassembled hreads hheader hflags (Nat.two_pow_pos 64),
      parseSections_assembled (writable_slabIndexOf hslabs hcount) (hrefBytes ▸ hreads), htrailer]
  · show manifestRoot H z r.manifestBytes = .ok r.merkleRoot
    rw [hmanifest, hroot]
    exact manifestRoot_reassembled hreads hheader hflags (Nat.two_pow_pos 64)

end

namespace Stored

/-- The files of an image, under the names in its manifest. -/
def filesOf (a : WriteArtifact) : Directory := fun name =>
  ((a.slabs.map fun s => (s.locator.drop 5, s.bytes))
    ++ a.metadataSidecar.toList.map fun m => (m.locator.drop 5, m.bytes)).lookup name

/-- The tree of one file, with its metadata in a sidecar above `threshold` bytes. -/
def thresholdTree (threshold : Nat) : WriteContext :=
  { oneFile (fileDrop noDict) .none with metadataExternalizeThreshold := threshold }

def thresholdImage (threshold : Nat) : WriteArtifact :=
  (assemble foldDigest omnizip (thresholdTree threshold)).getD
    ⟨[], zeroDigest, [], none, 0, 0, 0, 0, 0⟩

def thresholdSlab (threshold : Nat) : SlabArtifact :=
  (thresholdImage threshold).slabs.headD ⟨⟨0, zeroDigest⟩, [], [], []⟩

theorem thresholdTree_wellFormed (threshold : Nat) : (thresholdTree threshold).WellFormed where
  ids := List.nodup_singleton _
  plaintextLen d hd := by
    obtain rfl := List.mem_singleton.mp hd
    exact (by decide : 4 < u32Limit)

theorem assemble_thresholdTree {threshold : Nat}
    (h : (assemble foldDigest omnizip (thresholdTree threshold)).isSome = true) :
    assemble foldDigest omnizip (thresholdTree threshold) = some (thresholdImage threshold) := by
  unfold thresholdImage
  obtain ⟨a, ha⟩ := Option.isSome_iff_exists.mp h
  rw [ha, Option.getD_some]

theorem thresholdSlab_mem (threshold : Nat)
    (h : (thresholdImage threshold).slabs.isEmpty = false) :
    thresholdSlab threshold ∈ (thresholdImage threshold).slabs := by
  unfold thresholdSlab
  rcases hslabs : (thresholdImage threshold).slabs with _ | ⟨slab, rest⟩
  · rw [hslabs] at h
    cases h
  · exact List.mem_cons_self

/-- A check of `OnDisk` that can be run. -/
theorem onDisk_filesOf {a : WriteArtifact}
    (hslabs : a.slabs.all (fun s => decide (localSidecarName s.locator = .ok (s.locator.drop 5) ∧
      filesOf a (s.locator.drop 5) = some s.bytes)) = true)
    (hsidecar : a.metadataSidecar.all (fun m => decide (localSidecarName m.locator
      = .ok (m.locator.drop 5) ∧ filesOf a (m.locator.drop 5) = some m.bytes)) = true) :
    a.OnDisk (filesOf a) where
  slab s hs := ⟨_, of_decide_eq_true (List.all_eq_true.mp hslabs s hs)⟩
  sidecar m hm := by
    rw [Option.mem_def.mp hm] at hsidecar
    exact ⟨_, of_decide_eq_true hsidecar⟩

end Stored

open LimniFS.Stored

/-- With its metadata in a sidecar the file refers to nothing, and its drop is left out. -/
theorem sidecar_file_lost_in_compaction :
    ∃ r newSlab, assemble foldDigest omnizip (thresholdTree 0)
        = some (thresholdImage 0) ∧
      (thresholdImage 0).OnDisk (filesOf (thresholdImage 0)) ∧
      thresholdSlab 0 ∈ (thresholdImage 0).slabs ∧
      compactImage foldDigest omnizip (thresholdImage 0).bytes
        (thresholdSlab 0).bytes = .ok r ∧ r.slabBytes = some newSlab ∧
      ¬ KeepsImage foldDigest omnizip
        ⟨(thresholdImage 0).bytes, filesOf (thresholdImage 0)⟩
        ⟨r.manifestBytes, compactedDir (filesOf (thresholdImage 0)) newSlab⟩ []
        r.merkleRoot := by
  have ha : assemble foldDigest omnizip (thresholdTree 0)
      = some (thresholdImage 0) := assemble_thresholdTree (by decide +kernel)
  have hdisk := onDisk_filesOf (a := thresholdImage 0) (by decide +kernel)
    (by decide +kernel)
  have hslab := thresholdSlab_mem 0 (by decide +kernel)
  obtain ⟨r, hr⟩ := exists_eq_ok (x := compactImage foldDigest omnizip
    (thresholdImage 0).bytes (thresholdSlab 0).bytes) (by decide +kernel)
  obtain ⟨out, hout⟩ := exists_eq_ok (x := readInode omnizip
    ⟨(thresholdImage 0).bytes, filesOf (thresholdImage 0)⟩ [] 2)
    (by decide +kernel)
  have hslices : (do
      let loaded ← loadImage omnizip
        ⟨(thresholdImage 0).bytes, filesOf (thresholdImage 0)⟩
      pure ((loaded.blob.inodeByNumber 2).any fun i => !i.slices.isEmpty)) = Except.ok true := by
    decide +kernel
  have hsidecar : (thresholdImage 0).metadataSidecar.isSome = true := by decide +kernel
  obtain ⟨_, _, _, _, -, -, -, hnew, -⟩ := compactImage_ok hr
  refine ⟨r, _, ha, hdisk, hslab, hr, hnew, fun hkeeps => ?_⟩
  obtain ⟨-, hfiles⟩ := filesInSlab_of_keepsImage (thresholdTree_wellFormed 0) ha hdisk
    (fun _ => rfl) hslab hr hnew hkeeps
  obtain ⟨loaded, hload, hany⟩ := except_bind_eq_ok.mp hslices
  obtain ⟨inode, hinode, hsome⟩ := (Option.any_eq_true _ _).mp (Except.ok.inj hany)
  obtain ⟨slice, hslice⟩ := List.exists_mem_of_ne_nil inode.slices (by simpa using hsome)
  rw [(hfiles loaded hload 2 inode hinode ⟨out, hout⟩ slice hslice).2] at hsidecar
  cases hsidecar

/-- The same file with its metadata inlined. -/
theorem compaction_keeps_image_iff_inlined :
    ∃ r newSlab, compactImage foldDigest omnizip (thresholdImage 4096).bytes
        (thresholdSlab 4096).bytes = .ok r ∧ r.slabBytes = some newSlab ∧
      (KeepsImage foldDigest omnizip
          ⟨(thresholdImage 4096).bytes, filesOf (thresholdImage 4096)⟩
          ⟨r.manifestBytes, compactedDir (filesOf (thresholdImage 4096)) newSlab⟩ []
          r.merkleRoot ↔
        ((thresholdTree 4096).trainedDicts.toList = [] ∧
          (thresholdTree 4096).baseRoot = none) ∧
        FilesInSlab omnizip
          ⟨(thresholdImage 4096).bytes, filesOf (thresholdImage 4096)⟩ []
          (thresholdImage 4096) (thresholdSlab 4096)) := by
  obtain ⟨r, hr⟩ := exists_eq_ok (x := compactImage foldDigest omnizip
    (thresholdImage 4096).bytes (thresholdSlab 4096).bytes) (by decide +kernel)
  obtain ⟨_, _, _, _, -, -, -, hnew, -⟩ := compactImage_ok hr
  refine ⟨r, _, hr, hnew, compaction_keeps_image_iff (thresholdTree_wellFormed 4096)
    (assemble_thresholdTree (by decide +kernel))
    (onDisk_filesOf (by decide +kernel) (by decide +kernel)) (fun _ => rfl)
    (thresholdSlab_mem _ (by decide +kernel)) hr hnew⟩

end LimniFS
