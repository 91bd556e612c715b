/-
Layers over a base with a sparse index.

A layer asks for each chunk whether the base has it.  The exact answer is the set of the
ids in the base's slabs.  With a sidecar next to the base the Bloom filter is asked first,
and the set only where the filter says "probably".

The set is then loaded without a word about errors: a base whose slabs cannot be loaded
has an empty one.  That shows in `base_contains` alone (`baseContains_sidecar` has the
slabs loaded), since a layer loads the same slabs before it looks for a sidecar, and stops
where they cannot be (`writeLayerOver_sidecar`).
-/
import LimniFS.CompactedImage
import LimniFS.DirectoryWriters
import LimniFS.SparseIndex

namespace LimniFS

open Lib Lib.Parser SparseIndex

/-! ### The drops of a base image -/

/-- `SlabStore::drop_index_keys`. -/
def SlabStore.dropIndexKeys (store : SlabStore) : List Digest := store.entries.map (·.2.dropId)

/-- What is left of a manifest behind its metadata reference.  Best effort: a section that fails
leaves the cursor where its parser stopped. -/
def afterMetadataReference (z : Omnizip) (afterHeader : Bytes) : Bytes :=
  (parseMetadataReference z (parseFeatureFlagsSection afterHeader).2).2

/-- `io_core`. -/
def ioCore (e : CoreError) : WriteStop := .failed (.io ("base image load: " ++ e.display))

/-- The ids in the slabs of a base image, and its root. -/
def loadBaseDropIndex (H : Hash) (z : Omnizip) (image : ImageFile) :
    Except WriteStop (List Digest × Digest) :=
  match parseManifestHeader image.manifest with
  | (.error e, _) => .error (ioCore e)
  | (.ok _, afterHeader) =>
    match parseSlabIndex (afterMetadataReference z afterHeader) with
    | (.error e, _) => .error (ioCore e)
    | (.ok slabIndex, _) =>
      match SlabStore.load image.dir slabIndex with
      | .error e => .error (ioCore e)
      | .ok store => .ok (store.dropIndexKeys, computeMerkleRootFromSections H z image.manifest)

/-! ### The sidecar -/

/-- The filter, and the base to load the set from when it is needed. -/
structure SparseBackedBaseIndex where
  bloom : SparseIndexReader
  image : ImageFile

namespace SparseBackedBaseIndex

/-- `open`: nothing where there is no sidecar, or none that parses. -/
def openSidecar (sidecar : Option Bytes) (image : ImageFile) : Option SparseBackedBaseIndex :=
  (sidecar.bind SparseIndexReader.deserialise).map fun bloom => ⟨bloom, image⟩

/-- The ids in the base's slabs; none if anything goes wrong. -/
def loadExact (z : Omnizip) (index : SparseBackedBaseIndex) : List Digest :=
  let afterHeader := (parseManifestHeader index.image.manifest).2
  match parseSlabIndex (afterMetadataReference z afterHeader) with
  | (.error _, _) => []
  | (.ok slabIndex, _) =>
    match SlabStore.load index.image.dir slabIndex with
    | .error _ => []
    | .ok store => store.dropIndexKeys

/-- The set is loaded once; the files of the base stay what they are meanwhile. -/
def baseContains (z : Omnizip) (index : SparseBackedBaseIndex) (dropId : Digest) : Bool :=
  if index.bloom.probablyContains dropId = false then false
  else decide (dropId ∈ index.loadExact z)

end SparseBackedBaseIndex

/-- The ids stored in the slabs of an artifact. -/
def WriteArtifact.storedIds (a : WriteArtifact) : List Digest := a.slabs.flatMap (·.dropIds)

/-- The ids as a set, in the order in which it is gone through. -/
structure WriteArtifact.Iterates (a : WriteArtifact) (all : List Digest) : Prop where
  once : all.Nodup
  mem : ∀ id, id ∈ all ↔ id ∈ a.storedIds

/-- The bytes of the sidecar of an artifact with these ids. -/
def emitSparseSidecar (f : FilterSizing) (all : List Digest) : Bytes :=
  ((SparseIndexWriter.new f (max all.length 1) defaultFpp).insertAll all).serialise

/-! ### Layers -/

/-- `adopt_from_section`. -/
def adoptFromSection (section_ : DictionarySection) : List (UInt8 × Bytes) :=
  (section_.dicts.filter fun d => d.codecId = codecZstd ∧ (d.classId = 0 ∨ d.classId = 1)).map
    fun d => (d.classId, d.data)

/-- The dictionaries a layer takes from its base. -/
def baseDictionaries (z : Omnizip) (config : WriteConfig) (image : ImageFile) :
    Except WriteStop (Option (List (UInt8 × Bytes))) :=
  if config.dictionaries.enabled then
    match loadBaseDictionarySection z image.manifest with
    | .error e => .error (ioCore e)
    | .ok dicts => .ok (dicts.map adoptFromSection)
  else .ok none

/-- The context a layer starts from. -/
def layerStart (config : WriteConfig) (base : Digest → Bool) (baseRoot : Digest)
    (dicts : Option (List (UInt8 × Bytes))) : WriterState :=
  applyDefaults config
    { WriterState.new with
      collectDictSamples := config.dictionaries.enabled
      baseDictionaries := dicts
      baseDropIndex := some base
      baseRoot := some baseRoot }

section
variable (env : WriterEnv) (config : WriteConfig) (workers : Workers env) (sched : Schedule)
  (tree : SourceTree env.readFile) (image : ImageFile)

/-- What a layer asks for the drops of its base. -/
def baseDropSet (sidecar : Option Bytes) : Except WriteStop (Digest → Bool) :=
  match SparseBackedBaseIndex.openSidecar sidecar image with
  | some index => .ok (index.baseContains env.z)
  | none => (loadBaseDropIndex env.H env.z image).map fun loaded id => decide (id ∈ loaded.1)

/-- `write_layer` over a base image with what stands in the place of its sidecar.  An error of
`MetadataPolicy::resolve`, between the chunker and the dictionaries, is left out. -/
def writeLayerOver (sidecar : Option Bytes) : Except WriteStop (Option WriteArtifact) := do
  let (_, baseRoot) ← loadBaseDropIndex env.H env.z image
  let base ← baseDropSet env image sidecar
  let _ ← chunkerFromConfig config
  let dicts ← baseDictionaries env.z config image
  assembled env (writeLayer env config workers sched tree (layerStart config base baseRoot dicts))

end

/-! ### The filter in front of the set -/

theorem loadExact_of_loaded {H : Hash} {z : Omnizip} {image : ImageFile} {keys : List Digest}
    {root : Digest} (h : loadBaseDropIndex H z image = .ok (keys, root))
    (bloom : SparseIndexReader) : SparseBackedBaseIndex.loadExact z ⟨bloom, image⟩ = keys := by
  unfold loadBaseDropIndex at h
  unfold SparseBackedBaseIndex.loadExact
  split at h
  · cases h
  · next afterHeader hheader =>
      split at h
      · cases h
      · next slabIndex _ hindex =>
          split at h
          · cases h
          · next store hstore =>
              cases h
              simp only [hheader, hindex, hstore]

theorem baseContains_eq {H : Hash} {z : Omnizip} {image : ImageFile} {keys : List Digest}
    {root : Digest} (h : loadBaseDropIndex H z image = .ok (keys, root)) {bloom : SparseIndexReader}
    (hknown : ∀ id ∈ keys, bloom.probablyContains id = true) (id : Digest) :
    SparseBackedBaseIndex.baseContains z ⟨bloom, image⟩ id = decide (id ∈ keys) := by
  unfold SparseBackedBaseIndex.baseContains
  rw [loadExact_of_loaded h]
  by_cases hmem : id ∈ keys
  · rw [if_neg (by rw [hknown id hmem]; decide)]
  · rw [decide_eq_false hmem, ite_self]

/-- **A layer comes out the same with a sidecar that knows the base and without one.** -/
theorem writeLayerOver_congr (env : WriterEnv) (config : WriteConfig) (workers : Workers env)
    (sched : Schedule) (tree : SourceTree env.readFile) {image : ImageFile} {sidecar : Bytes}
    (hknown : ∀ keys root bloom, loadBaseDropIndex env.H env.z image = .ok (keys, root) →
      SparseIndexReader.deserialise sidecar = some bloom →
      ∀ id ∈ keys, bloom.probablyContains id = true) :
    writeLayerOver env config workers sched tree image (some sidecar) =
      writeLayerOver env config workers sched tree image none := by
  unfold writeLayerOver
  refine except_bind_congr fun loaded hloaded => ?_
  obtain ⟨keys, root⟩ := loaded
  have hsame : baseDropSet env image (some sidecar) = baseDropSet env image none := by
    unfold baseDropSet SparseBackedBaseIndex.openSidecar
    cases hbloom : SparseIndexReader.deserialise sidecar with
    | none => simp [hbloom]
    | some bloom =>
        simp only [Option.bind_some, hbloom, Option.map_some, Option.bind_none, Option.map_none,
          hloaded]
        refine congrArg Except.ok (funext fun id => ?_)
        exact baseContains_eq hloaded (hknown keys root bloom hloaded hbloom) id
  simp only [hsame]

/-! ### The sidecar of an artifact -/

theorem optimalBits_pos (f : FilterSizing) {n : Nat} (h : n ≠ 0) (fpp : UInt64) :
    0 < optimalBits f n fpp := by
  unfold optimalBits
  rw [if_neg h]
  omega

/-- The sidecar parses, and knows every id that was put in. -/
theorem sidecar_knows (f : FilterSizing) (all : List Digest)
    (hsize : optimalBits f (max all.length 1) defaultFpp < u32Limit) :
    ∃ bloom, SparseIndexReader.deserialise (emitSparseSidecar f all) = some bloom ∧
      ∀ id ∈ all, bloom.probablyContains id = true :=
  probablyContains_of_inserted (SparseIndexWriter.new f (max all.length 1) defaultFpp)
    (optimalBits_pos f (by omega) defaultFpp) hsize all

section
variable {H : Hash} {z : Omnizip} {ctx : WriteContext} {a : WriteArtifact} {blob : Bytes}
  {dir : Directory} {keys : List Digest} {root : Digest}

/-- An assembled base, opened as its loader opens it. -/
theorem loadBaseDropIndex_assembled {slabs : List SlabArtifact} {ref : MetadataReference}
    (hindex : (slabIndexOf slabs).Writable)
    (href : Reads (parseMetadataReference z) (assembledReference H z ctx blob) ref) :
    loadBaseDropIndex H z ⟨assembledManifest H z ctx blob slabs, dir⟩ =
      match SlabStore.load dir (slabIndexOf slabs) with
      | .error e => .error (ioCore e)
      | .ok store => .ok (store.dropIndexKeys,
          computeMerkleRootFromSections H z (assembledManifest H z ctx blob slabs)) := by
  have hheader : parseManifestHeader (assembledManifest H z ctx blob slabs) =
      (.ok ManifestHeader.current, emptyFlagsBytes ++ (assembledReference H z ctx blob
        ++ (slabIndexBytes (slabIndexOf slabs) ++ (historyBytes .build ++ ctx.trailer)))) := by
    unfold assembledManifest
    exact reads_parseManifestHeader _
  have hbehind : parseSlabIndex (afterMetadataReference z (emptyFlagsBytes
      ++ (assembledReference H z ctx blob ++ (slabIndexBytes (slabIndexOf slabs)
        ++ (historyBytes .build ++ ctx.trailer))))) =
      (.ok (slabIndexOf slabs), historyBytes .build ++ ctx.trailer) := by
    unfold afterMetadataReference
    rw [reads_parseFeatureFlagsSection, href, reads_parseSlabIndex hindex]
  unfold loadBaseDropIndex
  simp only [hheader, hbehind]

theorem mem_keys_onDisk (hctx : ctx.WellFormed) (hblob : ctx.metadataBlob H = some blob)
    (ha : assemble H z ctx = some a) (hread : MetadataReadable z ctx blob) (hdisk : a.OnDisk dir)
    (h : loadBaseDropIndex H z ⟨a.bytes, dir⟩ = .ok (keys, root)) (id : Digest) :
    id ∈ keys ↔ id ∈ a.storedIds := by
  obtain ⟨hbytes, -, hslabs, hlen, hcount⟩ := assemble_some hblob ha
  have hindex := writable_slabIndexOf hslabs hcount
  obtain ⟨ref, -, href⟩ := reads_assembledReference (H := H) hlen hread
  rw [hbytes, loadBaseDropIndex_assembled hindex href, SlabStore.load] at h
  cases hviews : loadSlabs dir 0 (slabIndexOf a.slabs).entries with
  | error e =>
      rw [hviews] at h
      exact absurd h (by simp)
  | ok views =>
      rw [hviews] at h
      have hkeys : SlabStore.dropIndexKeys ⟨views, fun _ => none⟩ = keys :=
        (Prod.mk.inj (Except.ok.inj h)).1
      have hparsed := loadSlabs_onDisk _ _ _ hdisk.slab hviews
      have hids : a.slabs.map (·.dropIds) = views.map fun view => view.dropRecords.map (·.dropId) := by
        refine map_eq_map_of_forall₂ (forall₂_and_mem_left hparsed) fun slab view hboth => ?_
        exact (parseSlab_packed hslabs hcount hctx.plaintextLen hboth.2 hboth.1).symm
      rw [← hkeys, SlabStore.dropIndexKeys, SlabStore.entries_dropIds, WriteArtifact.storedIds,
        List.flatMap_def, List.flatMap_def, hids]

end

/-- A base image: an artifact of the writer with its files in place, whose metadata reference a
reader can get past. -/
structure WrittenBase (H : Hash) (z : Omnizip) (ctx : WriteContext) (a : WriteArtifact)
    (dir : Directory) : Prop where
  drops : ctx.WellFormed
  assembled : assemble H z ctx = some a
  readable : ∀ blob, ctx.metadataBlob H = some blob → MetadataReadable z ctx blob
  files : a.OnDisk dir

theorem WrittenBase.mem_keys {H : Hash} {z : Omnizip} {ctx : WriteContext} {a : WriteArtifact}
    {dir : Directory} (base : WrittenBase H z ctx a dir) {keys : List Digest} {root : Digest}
    (h : loadBaseDropIndex H z ⟨a.bytes, dir⟩ = .ok (keys, root)) (id : Digest) :
    id ∈ keys ↔ id ∈ a.storedIds := by
  obtain ⟨_, -, hrest⟩ := Option.bind_eq_some_iff.mp base.assembled
  obtain ⟨blob, hblob, -⟩ := Option.bind_eq_some_iff.mp hrest
  exact mem_keys_onDisk base.drops hblob base.assembled (base.readable blob hblob) base.files h id

/-- **The sparse index has no false negatives, and behind it is the exact set**: a filter of
zero bits takes nothing in; over a base whose slabs load, the sidecar answers for every id as the artifact's stored drops do, and a layer over
the base comes out the same with it and without it. -/
theorem sparse_index_exact :
    (∀ (numBits k : Nat) (fpp : UInt64) (set : List Digest), 0 < numBits → numBits < u32Limit →
      ∃ reader, SparseIndexReader.deserialise
          ((SparseIndexWriter.ofSize numBits k fpp).insertAll set).serialise = some reader ∧
        ∀ dropId ∈ set, reader.probablyContains dropId = true) ∧
    (∀ (k : Nat) (fpp : UInt64) (set : List Digest),
      ∃ reader, SparseIndexReader.deserialise
          ((SparseIndexWriter.ofSize 0 k fpp).insertAll set).serialise = some reader ∧
        ∀ dropId, reader.probablyContains dropId = false) ∧
    ∀ (env : WriterEnv) (f : FilterSizing) (ctx : WriteContext) (a : WriteArtifact)
      (dir : Directory) (all : List Digest), WrittenBase env.H env.z ctx a dir → a.Iterates all →
      optimalBits f (max all.length 1) defaultFpp < u32Limit →
      (∀ keys root, loadBaseDropIndex env.H env.z ⟨a.bytes, dir⟩ = .ok (keys, root) →
        ∃ index, SparseBackedBaseIndex.openSidecar (some (emitSparseSidecar f all)) ⟨a.bytes, dir⟩ =
            some index ∧
          ∀ id, index.baseContains env.z id = decide (id ∈ a.storedIds)) ∧
      ∀ (config : WriteConfig) (workers : Workers env) (sched : Schedule)
        (tree : SourceTree env.readFile),
        writeLayerOver env config workers sched tree ⟨a.bytes, dir⟩ (some (emitSparseSidecar f all)) =
          writeLayerOver env config workers sched tree ⟨a.bytes, dir⟩ none := by
  refine ⟨fun numBits k fpp set hpos hlt => probablyContains_of_inserted _ hpos hlt set,
    fun k fpp set => probablyContains_of_empty _ rfl set, ?_⟩
  intro env f ctx a dir all base hall hsize
  obtain ⟨bloom, hbloom, hknows⟩ := sidecar_knows f all hsize
  have hkeys : ∀ keys root, loadBaseDropIndex env.H env.z ⟨a.bytes, dir⟩ = .ok (keys, root) →
      ∀ id ∈ keys, bloom.probablyContains id = true := by
    intro keys root hload id hid
    exact hknows id ((hall.mem id).mpr ((base.mem_keys hload id).mp hid))
  refine ⟨fun keys root hload => ⟨⟨bloom, ⟨a.bytes, dir⟩⟩, ?_, fun id => ?_⟩, ?_⟩
  · simp [SparseBackedBaseIndex.openSidecar, hbloom]
  · rw [baseContains_eq hload (hkeys keys root hload)]
    exact decide_eq_decide.mpr (base.mem_keys hload id)
  · intro config workers sched tree
    refine writeLayerOver_congr env config workers sched tree fun keys root bloom' hload hbloom' => ?_
    obtain rfl : bloom = bloom' := Option.some.inj (hbloom.symm.trans hbloom')
    exact hkeys keys root hload

namespace Stored

/-- Ten bits for each id, and seven hashes. -/
def tenBits : FilterSizing := ⟨fun n _ => 10 * n, fun _ => 7⟩

def sparseEnv : WriterEnv := { writerEnv with H := foldDigest }

theorem writtenBase_threshold : WrittenBase foldDigest omnizip (thresholdTree 0) (thresholdImage 0)
    (filesOf (thresholdImage 0)) where
  drops := thresholdTree_wellFormed 0
  assembled := assemble_thresholdTree (by decide +kernel)
  readable blob hblob := by
    have hlong : ((thresholdTree 0).metadataBlob foldDigest).map (fun blob =>
        decide (0 < (metadataOnWire omnizip (thresholdTree 0).metadataCodec blob).2.length)) =
        some true := by decide +kernel
    rw [hblob, Option.map_some, Option.some.injEq, decide_eq_true_iff] at hlong
    exact .inl hlong
  files := onDisk_filesOf (by decide +kernel) (by decide +kernel)

end Stored

open LimniFS.Stored

/-- A filter for no entries takes none in, and finds none. -/
theorem empty_filter_forgets :
    ∃ reader, SparseIndexReader.deserialise ((SparseIndexWriter.new tenBits 0
        defaultFpp).insertAll [foldDigest []]).serialise = some reader ∧
      reader.probablyContains (foldDigest []) = false := by
  obtain ⟨reader, hreader, hnone⟩ := probablyContains_of_empty
    (SparseIndexWriter.new tenBits 0 defaultFpp) rfl [foldDigest []]
  exact ⟨reader, hreader, hnone _⟩

theorem sparse_index_exact_one_file :
    (∃ reader, SparseIndexReader.deserialise
        ((SparseIndexWriter.ofSize 11 3 defaultFpp).insertAll [foldDigest [7]]).serialise =
          some reader ∧
      ∀ dropId ∈ [foldDigest [7]], reader.probablyContains dropId = true) ∧
    (∃ index, SparseBackedBaseIndex.openSidecar
        (some (emitSparseSidecar tenBits (thresholdImage 0).storedIds))
        ⟨(thresholdImage 0).bytes, filesOf (thresholdImage 0)⟩ = some index ∧
      ∀ id, index.baseContains omnizip id =
        decide (id ∈ (thresholdImage 0).storedIds)) ∧
    writeLayerOver sparseEnv writeConfig (fun _ _ => .empty) .sequential
        sourceTree
        ⟨(thresholdImage 0).bytes, filesOf (thresholdImage 0)⟩
        (some (emitSparseSidecar tenBits (thresholdImage 0).storedIds)) =
      writeLayerOver sparseEnv writeConfig (fun _ _ => .empty) .sequential
        sourceTree
        ⟨(thresholdImage 0).bytes, filesOf (thresholdImage 0)⟩ none := by
  obtain ⟨⟨keys, root⟩, hload⟩ := exists_eq_ok (x := loadBaseDropIndex foldDigest
    omnizip ⟨(thresholdImage 0).bytes, filesOf (thresholdImage 0)⟩)
    (by decide +kernel)
  have hboth := sparse_index_exact.2.2 sparseEnv tenBits (thresholdTree 0)
    (thresholdImage 0) (filesOf (thresholdImage 0)) _
    writtenBase_threshold ⟨by decide +kernel, fun _ => Iff.rfl⟩ (by decide +kernel)
  exact ⟨sparse_index_exact.1 11 3 defaultFpp [foldDigest [7]] (by decide) (by decide),
    hboth.1 keys root hload, hboth.2 _ _ _ _⟩

end LimniFS
