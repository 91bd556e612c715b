/-
Loading an image.

A reader takes the metadata from the manifest or from its sidecar, the slab index from
the manifest, and whatever dictionaries it can parse behind the history; then it looks
up drops in the image's own slabs first and in the slabs of each base after that.

None of the hashes on the way is compared with anything: not the sidecar's with the
hash in the metadata reference, not a slab's with its id, not a drop's with its own.

`ImageReader::from_parts` makes a table with a place for every slab ordinal up to the highest one in
the index and puts each slab that is found into the place its ordinal names; `SlabStore::load_mmap`
takes the slabs in the order of the index.  The ordinals are as the manifest has them, so the sum that
makes the table's length can overflow, and a place that no slab is put into is an empty slab.
-/
import LimniFS.LiveTree
import LimniFS.CachedReads

namespace LimniFS

open Lib Lib.Parser

/-- A manifest and the files next to it. -/
structure ImageFile where
  manifest : Bytes
  dir : Directory

/-- What loading a manifest gives. -/
structure LoadedImage where
  blob : MetadataBlob
  rootInodeNumber : Nat
  slabIndex : SlabIndex
  dictSection : Option DictionarySection

section

variable (z : Omnizip)

/-- The first locator is followed; what it leads to is decompressed, and not hashed. -/
def readExternalMetadata (ref : MetadataReference) (dir : Directory) : Except CoreError Bytes :=
  match ref.locators with
  | [] => .error (.corrupt "metadata_reference has neither inline data nor locators")
  | entry :: _ =>
    match localSidecarName entry.uri with
    | .error e => .error e
    | .ok name =>
      match dir name with
      | none => .error (.corrupt "read external metadata")
      | some wire =>
        if ref.codec = codecStore then .ok wire
        else decompress z ref.codec wire ref.uncompressedLen

/-- The bytes of the metadata blob, inlined or not. -/
def metadataBytes (dir : Directory) (ref : MetadataReference) : Except CoreError Bytes :=
  match ref.inlineMetadata with
  | some inline => .ok inline
  | none => readExternalMetadata z ref dir

/-- The dictionaries behind the history, if what stands there parses as such.  The history may
be missing; the cursor then stays where its parser stopped. -/
def trailingDictionaries (afterIndex : Bytes) : Option DictionarySection :=
  let rest := (parseHistory afterIndex).2
  if rest = [] then none
  else
    match parseDictionarySection rest with
    | (.ok d, _) => some d
    | (.error _, _) => none

def loadImage (image : ImageFile) : Except CoreError LoadedImage := do
  let (front, rest) ← (parseManifestFront z).run image.manifest
  let blobBytes ← metadataBytes z image.dir front.metadataReference
  let (blob, _) ← parseMetadataBlob.run blobBytes
  let (slabIndex, rest) ← parseSlabIndex.run rest
  match blob.rootInodeNumber with
  | none =>
      .error (.corrupt "metadata blob: could not identify a unique root directory inode")
  | some root =>
    if (blob.inodeByNumber root).isNone then
      .error (.corrupt s!"metadata blob: root inode {root} missing")
    else .ok ⟨blob, root, slabIndex, trailingDictionaries rest⟩

/-- The slabs of an index with dictionaries, if there are any, put in. -/
def loadStore (dir : Directory) (index : SlabIndex) (dicts : Option DictionarySection) :
    Except CoreError SlabStore :=
  match SlabStore.load dir index with
  | .error e => .error e
  | .ok store =>
    match dicts with
    | none => .ok store
    | some d => .ok { store with dictionaries := installDicts d }

/-- The slabs of a base image. -/
def loadBase (base : ImageFile) : Except CoreError SlabStore := do
  let (_, rest) ← (parseManifestFront z).run base.manifest
  let (slabIndex, rest) ← parseSlabIndex.run rest
  loadStore base.dir slabIndex (trailingDictionaries rest)

/-- The image's own slabs, if it has any, and the slabs of each base.  The cache in front of
each store answers as the store does. -/
def loadSlabChain (image : ImageFile) (loaded : LoadedImage) (bases : List ImageFile) :
    Except CoreError (List SlabStore) := do
  let own ← if loaded.slabIndex.entries = [] then pure []
    else (loadStore image.dir loaded.slabIndex loaded.dictSection).map fun store => [store]
  let more ← bases.mapM (loadBase z)
  pure (own ++ more)

/-- The first store that has the drop answers; there is no source without stores. -/
def chainSource (stores : List SlabStore) : Option SlabSource :=
  if stores.isEmpty then none
  else some fun dropId => stores.findSome? fun store => store.plaintextFor z dropId

/-- The bytes of a file of the image, by the number of its inode. -/
def readInode (image : ImageFile) (bases : List ImageFile) (number : Nat) :
    Except CoreError Bytes := do
  let loaded ← loadImage z image
  let stores ← loadSlabChain z image loaded bases
  match loaded.blob.inodeByNumber number with
  | none => .error (.corrupt s!"metadata blob: inode {number} missing")
  | some inode => filePlaintext inode (chainSource z stores)

end

/-! ### What was loaded -/

section

variable {z : Omnizip}

/-- What loading an image has read. -/
theorem loadImage_eq_ok {image : ImageFile} {loaded : LoadedImage} :
    loadImage z image = .ok loaded ↔
      ∃ front rest blobBytes blobRest rest', parseManifestFront z image.manifest = (.ok front, rest) ∧
        metadataBytes z image.dir front.metadataReference = .ok blobBytes ∧
        parseMetadataBlob blobBytes = (.ok loaded.blob, blobRest) ∧
        parseSlabIndex rest = (.ok loaded.slabIndex, rest') ∧
        loaded.blob.rootInodeNumber = some loaded.rootInodeNumber ∧
        (loaded.blob.inodeByNumber loaded.rootInodeNumber).isSome = true ∧
        loaded.dictSection = trailingDictionaries rest' := by
  unfold loadImage
  simp only [except_bind_eq_ok, run_eq_ok, Prod.exists]
  constructor
  · rintro ⟨front, rest, hfront, bytes, hbytes, blob, blobRest, hblob, index, rest', hindex, h⟩
    split at h
    · cases h
    · next root hroot =>
        split at h
        · cases h
        · next hsome =>
            cases h
            refine ⟨front, rest, bytes, blobRest, rest', hfront, hbytes, hblob, hindex, hroot, ?_, rfl⟩
            exact Option.isSome_iff_ne_none.mpr fun hn => hsome (by rw [hn]; rfl)
  · rintro ⟨front, rest, bytes, blobRest, rest', hfront, hbytes, hblob, hindex, hroot, hsome, hdict⟩
    refine ⟨front, rest, hfront, bytes, hbytes, loaded.blob, blobRest, hblob, _, rest', hindex, ?_⟩
    rw [hroot]
    simp only
    rw [if_neg (fun hn => by rw [Option.isNone_iff_eq_none.mp hn] at hsome; cases hsome), ← hdict]

theorem readInode_eq_ok {image : ImageFile} {bases : List ImageFile} {number : Nat} {out : Bytes} :
    readInode z image bases number = .ok out ↔
      ∃ loaded stores inode, loadImage z image = .ok loaded ∧
        loadSlabChain z image loaded bases = .ok stores ∧
        loaded.blob.inodeByNumber number = some inode ∧
        filePlaintext inode (chainSource z stores) = .ok out := by
  unfold readInode
  simp only [except_bind_eq_ok]
  constructor
  · rintro ⟨loaded, hloaded, stores, hstores, h⟩
    split at h
    · cases h
    · next inode hinode => exact ⟨loaded, stores, inode, hloaded, hstores, hinode, h⟩
  · rintro ⟨loaded, stores, inode, hloaded, hstores, hinode, h⟩
    refine ⟨loaded, hloaded, stores, hstores, ?_⟩
    rw [hinode]
    exact h

end

/-! ### How the library opens an image -/

open Cursor

/-- `ReadConfig`, less the mode of `extract_file`. -/
structure ReadConfig where
  cacheBytes : Nat
  cacheEntries : Nat
  frameCacheBytes : Nat

/-- An open image; `store` is its cached store before the first read. -/
structure ImageReader where
  blob : MetadataBlob
  rootInodeNumber : Nat
  store : CachedSlabStore

/-- The first locator that names a file next to the image. -/
def slabSource (dir : Directory) : List LocatorEntry → Except CoreError (Option Bytes)
  | [] => .ok none
  | locator :: rest =>
    match localSidecarName locator.uri with
    | .error e => .error e
    | .ok name =>
      match dir name with
      | some bytes => .ok (some bytes)
      | none => slabSource dir rest

/-- The loop over the index: what is found goes to the place of the slab's ordinal; `none` is a
place outside the table. -/
def placeSources (dir : Directory) : List SlabIndexEntry → List (Option Bytes) →
    Option (Except CoreError (List (Option Bytes)))
  | [], sources => some (.ok sources)
  | entry :: rest, sources =>
    match slabSource dir entry.locators with
    | .error e => some (.error e)
    | .ok none => placeSources dir rest sources
    | .ok (some bytes) =>
      if entry.slabId.ordinal < sources.length then
        placeSources dir rest (sources.set entry.slabId.ordinal (some bytes))
      else none

/-- One step of the count; `none` is an overflow. -/
def countSlab (count : Nat) (entry : SlabIndexEntry) : Option Nat :=
  if entry.slabId.ordinal + 1 < 2 ^ 64 then some (max count (entry.slabId.ordinal + 1)) else none

/-- One more than the highest ordinal. -/
def sourceCount (entries : List SlabIndexEntry) : Option Nat := entries.foldlM countSlab 0

/-- The slabs by ordinal; a slab without a file is an empty one. -/
def slabSources (dir : Directory) (entries : List SlabIndexEntry) :
    Option (Except CoreError (List Bytes)) :=
  (sourceCount entries).bind fun count =>
    (placeSources dir entries (List.replicate count none)).map fun placed =>
      placed.map fun sources => sources.map fun source => source.getD []

/-- `SlabStore::from_sources`. -/
def SlabStore.fromSources (sources : List Bytes) : Except CoreError SlabStore :=
  (sources.mapM parseSlab).map fun slabs => ⟨slabs, fun _ => none⟩

/-- What `from_parts` parses before it looks for slabs. -/
def openParts (z : Omnizip) (manifest : Bytes) (imageDir : Directory) :
    Except CoreError (MetadataBlob × SlabIndex) := do
  let (front, rest) ← (parseManifestFront z).run manifest
  let blobWire ← metadataBytes z imageDir front.metadataReference
  let (blob, _) ← parseMetadataBlob.run blobWire
  let (slabIndex, _) ← parseSlabIndex.run rest
  pure (blob, slabIndex)

/-- The store and the root of an image with these slabs. -/
def ImageReader.ofSources (blob : MetadataBlob) (config : ReadConfig) (sources : List Bytes) :
    Except CoreError ImageReader := do
  let store ← SlabStore.fromSources sources
  match blob.rootInodeNumber with
  | none => .error (.corrupt "no unique root directory inode")
  | some root => .ok ⟨blob, root, .withFrameBudget store config.cacheEntries config.cacheBytes
      config.frameCacheBytes⟩

/-- `ImageReader::from_parts`; no dictionaries are looked for, and `none` is a panic. -/
def ImageReader.fromParts (z : Omnizip) (manifest : Bytes) (imageDir : Directory)
    (config : ReadConfig) : Option (Except CoreError ImageReader) :=
  match openParts z manifest imageDir with
  | .error e => some (.error e)
  | .ok (blob, slabIndex) =>
    (slabSources imageDir slabIndex.entries).map fun sources =>
      sources.bind (ImageReader.ofSources blob config)

section

variable {z : Omnizip} {manifest : Bytes} {dir : Directory} {blob : MetadataBlob}
  {index : SlabIndex} {config : ReadConfig} {reader : ImageReader}

theorem openParts_eq_ok : openParts z manifest dir = .ok (blob, index) ↔
    ∃ front rest blobWire blobRest rest', parseManifestFront z manifest = (.ok front, rest) ∧
      metadataBytes z dir front.metadataReference = .ok blobWire ∧
      parseMetadataBlob blobWire = (.ok blob, blobRest) ∧
      parseSlabIndex rest = (.ok index, rest') := by
  unfold openParts
  simp only [except_bind_eq_ok, run_eq_ok, Prod.exists]
  constructor
  · rintro ⟨front, rest, hfront, blobWire, hwire, blob', blobRest, hblob, index', rest', hindex, h⟩
    cases h
    exact ⟨front, rest, blobWire, blobRest, rest', hfront, hwire, hblob, hindex⟩
  · rintro ⟨front, rest, blobWire, blobRest, rest', hfront, hwire, hblob, hindex⟩
    exact ⟨front, rest, hfront, blobWire, hwire, blob, blobRest, hblob, index, rest', hindex, rfl⟩

theorem ofSources_eq_ok {sources : List Bytes} :
    ImageReader.ofSources blob config sources = .ok reader ↔
      ∃ views root, sources.mapM parseSlab = .ok views ∧ blob.rootInodeNumber = some root ∧
        reader = ⟨blob, root, .withFrameBudget ⟨views, fun _ => none⟩ config.cacheEntries
          config.cacheBytes config.frameCacheBytes⟩ := by
  unfold ImageReader.ofSources
  rw [except_bind_eq_ok]
  constructor
  · rintro ⟨store, hstore, h⟩
    obtain ⟨views, hviews, rfl⟩ := map_eq_ok hstore
    split at h
    · cases h
    · next root hroot =>
        cases h
        exact ⟨views, root, hviews, hroot, rfl⟩
  · rintro ⟨views, root, hviews, hroot, rfl⟩
    refine ⟨⟨views, fun _ => none⟩, ?_, ?_⟩
    · rw [SlabStore.fromSources, hviews]
      rfl
    · rw [hroot]

theorem fromParts_eq_some_ok : ImageReader.fromParts z manifest dir config = some (.ok reader) ↔
    ∃ blob index sources, openParts z manifest dir = .ok (blob, index) ∧
      slabSources dir index.entries = some (.ok sources) ∧
      ImageReader.ofSources blob config sources = .ok reader := by
  unfold ImageReader.fromParts
  cases hparts : openParts z manifest dir with
  | error e => simp
  | ok parts =>
      obtain ⟨blob, index⟩ := parts
      simp only [Option.map_eq_some_iff]
      constructor
      · rintro ⟨placed, hplaced, h⟩
        obtain ⟨sources, rfl, hsources⟩ := except_bind_eq_ok.mp h
        exact ⟨blob, index, sources, rfl, hplaced, hsources⟩
      · rintro ⟨blob', index', sources, hsame, hplaced, hsources⟩
        cases hsame
        exact ⟨_, hplaced, hsources⟩

end

end LimniFS
