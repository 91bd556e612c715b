/-
The indexes that open totally.

A store's answer for a drop is that of the last slab with a record for it, so that it depends on the
files of an index through the order in which they come last.  Two files with one drop of two contents
tell two orders apart, and an image with nothing but a root can have any index behind it.
-/
import LimniFS.SlabPlaces

namespace LimniFS

open Lib Lib.Parser Cursor

/-! ### The last record of a drop -/

/-- The last record of a slab for a drop, with its slab. -/
def lastRecord (dropId : Digest) (view : SlabView) : Option (SlabView × DropRecord) :=
  (view.dropRecords.map fun record => (view, record)).reverse.find? fun entry =>
    entry.2.dropId = dropId

theorem find_eq_lastSome (store : SlabStore) (dropId : Digest) :
    store.find dropId = lastSome (lastRecord dropId) store.slabs :=
  find?_reverse_flatMap _ _ _

section

variable {H : Hash} {z : Omnizip} {dir : Directory} {index : SlabIndex} {room : Nat → Nat}

/-- The same for the files that the slabs are in. -/
theorem find_named {names : List Bytes} {views : List SlabView} {dicts : DictTable}
    (hviews : names.mapM (slabNamed dir) = some views) (dropId : Digest) :
    (SlabStore.mk views dicts).find dropId
      = lastSome (fun name => (slabNamed dir name).bind (lastRecord dropId)) names := by
  rw [find_eq_lastSome]
  exact lastSome_mapM hviews

theorem plaintextFor_of_same_find {store other : SlabStore} {dropId : Digest}
    (hdicts : store.dictionaries = other.dictionaries)
    (hfind : store.find dropId = other.find dropId) :
    store.plaintextFor z dropId = other.plaintextFor z dropId := by
  unfold SlabStore.plaintextFor SlabStore.locateWindow
  rw [hfind, hdicts]

/-- **Files that come last in one order answer alike.** -/
theorem plaintextFor_of_dedup {names placed : List Bytes} {views views' : List SlabView}
    (hviews : names.mapM (slabNamed dir) = some views)
    (hviews' : placed.mapM (slabNamed dir) = some views') (hsame : placed.dedup = names.dedup)
    (dropId : Digest) :
    (SlabStore.mk views' fun _ => none).plaintextFor z dropId
      = (SlabStore.mk views fun _ => none).plaintextFor z dropId := by
  refine plaintextFor_of_same_find rfl ?_
  rw [find_named hviews, find_named hviews', ← lastSome_dedup _ placed, hsame, lastSome_dedup]

/-! ### What is at the places -/

theorem parseSlab_nil {view : SlabView} : parseSlab [] ≠ .ok view := fun h => by cases h

/-- A place is parsed as the file of its ordinal is, and not at all if there is none. -/
theorem parseSlab_bytesAt (hthere : ∀ ordinal name, index.fileAt ordinal = some name →
    (dir name).isSome) {ordinal : Nat} {view : SlabView} :
    parseSlab (index.bytesAt dir ordinal) = .ok view ↔
      (index.fileAt ordinal).bind (slabNamed dir) = some view := by
  unfold SlabIndex.bytesAt slabNamed
  cases hfile : index.fileAt ordinal with
  | none => simp [parseSlab_nil]
  | some name =>
      obtain ⟨bytes, hbytes⟩ := Option.isSome_iff_exists.mp (hthere ordinal name hfile)
      simp [hbytes, toOption_eq_some]

theorem mapM_bytesAt (hthere : ∀ ordinal name, index.fileAt ordinal = some name →
    (dir name).isSome) {ordinals : List Nat} {views : List SlabView} :
    (ordinals.map (index.bytesAt dir)).mapM parseSlab = .ok views ↔
      ∃ placed, ordinals.mapM index.fileAt = some placed ∧
        placed.mapM (slabNamed dir) = some views := by
  rw [mapM_ok_iff, List.forall₂_map_left_iff, ← mapM_bind_eq_some, mapM_some_iff]
  simp only [parseSlab_bytesAt hthere]

theorem fileAt_mem {names : List Bytes} (hnames : index.fileNames = some names) {ordinal : Nat}
    {name : Bytes} (h : index.fileAt ordinal = some name) : name ∈ names := by
  obtain ⟨entry, hentry, hfile⟩ := List.exists_of_findSome?_eq_some h
  obtain ⟨name', hmem, hname⟩ := fileName_of_fileNames hnames entry (List.mem_reverse.mp hentry)
  split at hfile
  · rw [hname] at hfile
    exact Option.some.inj hfile ▸ hmem
  · cases hfile

theorem slabNamed_isSome {name : Bytes} {view : SlabView} (h : slabNamed dir name = some view) :
    (dir name).isSome := by
  obtain ⟨bytes, hbytes, -⟩ := Option.bind_eq_some_iff.mp h
  rw [hbytes]
  rfl

/-- **What the library opens** where the store of the index can be loaded: the files by ordinal. -/
theorem fromParts_placed {manifest : Bytes} {config : ReadConfig} {blob : MetadataBlob} {root : Nat}
    {names : List Bytes} {views : List SlabView} {reader : ImageReader}
    (hfits : ∀ entry ∈ index.entries, entry.slabId.ordinal + 1 < 2 ^ 64)
    (hparts : openParts z manifest dir = .ok (blob, index)) (hroot : blob.rootInodeNumber = some root)
    (hnames : index.fileNames = some names) (hviews : names.mapM (slabNamed dir) = some views) :
    ImageReader.fromParts z manifest dir config = some (.ok reader) ↔
      ∃ placed views', index.filesByOrdinal = some placed ∧
        placed.mapM (slabNamed dir) = some views' ∧
        reader = ⟨blob, root, .withFrameBudget ⟨views', fun _ => none⟩ config.cacheEntries
          config.cacheBytes config.frameCacheBytes⟩ := by
  have hthere : ∀ name ∈ names, (dir name).isSome :=
    forall_mem_of_forall₂ (Q := fun _ => True) (mapM_some_iff.mp hviews) (fun _ _ => trivial)
      fun name view h _ => slabNamed_isSome h
  have hplaces := slabSources_found hfits hnames hthere
  have hparse := @mapM_bytesAt dir index
    fun ordinal name h => hthere name (fileAt_mem hnames h)
  rw [fromParts_eq_some_ok]
  constructor
  · rintro ⟨blob', index', sources, hparts', hsources, hreader⟩
    rw [hparts] at hparts'
    cases hparts'
    rw [hplaces] at hsources
    cases hsources
    obtain ⟨views', root', hviews', hroot', rfl⟩ := ofSources_eq_ok.mp hreader
    rw [hroot] at hroot'
    cases hroot'
    obtain ⟨placed, hplaced, hslabs⟩ := hparse.mp hviews'
    exact ⟨placed, views', hplaced, hslabs, rfl⟩
  · rintro ⟨placed, views', hplaced, hslabs, rfl⟩
    exact ⟨blob, index, _, hparts, hplaces,
      ofSources_eq_ok.mpr ⟨views', root, hparse.mpr ⟨placed, hplaced, hslabs⟩, hroot, rfl⟩⟩

/-! ### What is enough -/

theorem answersAs_of_plaintextFor {reader : ImageReader} {config : ReadConfig} {blob : MetadataBlob}
    {root : Nat} {own store : SlabStore}
    (hreader : reader = ⟨blob, root, .withFrameBudget own config.cacheEntries config.cacheBytes
      config.frameCacheBytes⟩)
    (h : ∀ dropId, own.plaintextFor z dropId = store.plaintextFor z dropId) :
    reader.AnswersAs H z store := by
  intro calls s hrun dropId
  rw [hreader] at hrun
  have hs := (CachedSlabStore.sound_withFrameBudget H z own _ _ _).run calls hrun
  obtain ⟨s', hanswer, -⟩ := hs.decodedFetchInsert dropId
  exact ⟨s', by rw [CachedSlabStore.plaintextFor, hanswer, h]⟩

theorem opensTotally_of_placesAgree (h : index.PlacesAgree room) : OpensTotally H z room index where
  returns manifest dir config blob hparts := by
    unfold ImageReader.fromParts
    rw [hparts]
    simp only [Option.isSome_map]
    exact isSome_slabSources fun entry he => (h.fits entry he).1
  bounded count hcount := by
    rw [(sourceCount_eq_some.mp hcount).2]
    exact SlabIndex.placeCount_le_iff.mpr fun entry he => (h.fits entry he).2
  answers manifest dir config blob root store hparts hroot hload := by
    obtain ⟨names, views, hnames, hviews, rfl⟩ := load_eq_ok.mp hload
    obtain ⟨placed, hplaced, hsame⟩ := h.order names hnames
    -- every placed file is one of the index, and so its slab is there
    have hslabs : (placed.mapM (slabNamed dir)).isSome := by
      refine mapM_isSome_iff.mpr fun name hname => ?_
      rw [← List.mem_dedup, hsame, List.mem_dedup] at hname
      exact mapM_isSome_iff.mp (Option.isSome_iff_exists.mpr ⟨views, hviews⟩) name hname
    obtain ⟨views', hviews'⟩ := Option.isSome_iff_exists.mp hslabs
    exact ⟨_, (fromParts_placed (fun entry he => (h.fits entry he).1) hparts hroot hnames hviews).mpr
        ⟨placed, views', hplaced, hviews', rfl⟩,
      answersAs_of_plaintextFor rfl (plaintextFor_of_dedup hviews hviews' hsame)⟩

end

/-! ### An image for any index -/

namespace Stored

def rootInode : Inode :=
  ⟨1, 0x41ED, 0, 0, 0, 0, 1, none, [], .directory (dirNodeHash foldDigest [])⟩

/-- A root and nothing else. -/
def rootBlob : MetadataBlob := ⟨[rootInode], [⟨1, []⟩]⟩

def rootBlobBytes : Bytes :=
  leBytes 4 1 ++ (inodeHeadBytes rootInode ++ (dirNodeHash foldDigest []).val) ++ leBytes 4 1
    ++ dirNodeBytes []

def rootReference : Bytes :=
  metadataReferenceBytes (digest rootBlobBytes) rootBlobBytes.length codecStore none
    (some rootBlobBytes)

/-- What stands in front of the index of such an image. -/
def rootFront : Bytes := ManifestHeader.current.toBytes ++ (emptyFlagsBytes ++ rootReference)

/-- A front with the metadata in it. -/
def inlineFront (blobBytes : Bytes) : Bytes :=
  ManifestHeader.current.toBytes ++ (emptyFlagsBytes
    ++ metadataReferenceBytes (digest blobBytes) blobBytes.length codecStore none (some blobBytes))

def sharedDrop : DropRecord := ⟨digest (ascii "drop"), 1, ⟨codecStore, 0, 0⟩, 0, 0, 1, noDict, 0⟩

def sharedHeader : SlabHeader := ⟨⟨0, digest (ascii "slab")⟩, 107, 0, 0⟩

/-- A slab with one drop of one byte. -/
def byteView (b : UInt8) : SlabView :=
  ⟨slabBytes sharedHeader [sharedDrop] [b], sharedHeader, [sharedDrop], 106⟩

def bareHeader : SlabHeader := ⟨⟨0, digest (ascii "slab")⟩, 56, 0, 0⟩

/-- A slab without drops. -/
def bareView : SlabView := ⟨slabBytes bareHeader [] [], bareHeader, [], 56⟩

/-- The byte that the file has under the drop. -/
def pairByte (x name : Bytes) : UInt8 := if name = x then 1 else 2

/-- Every file has a slab, and two have the same drop. -/
def pairView (x y name : Bytes) : SlabView :=
  if name = x ∨ name = y then byteView (pairByte x name) else bareView

def pairDir (x y : Bytes) : Directory := fun name => some (pairView x y name).bytes

end Stored

open Stored

theorem parseSlab_byteView (b : UInt8) :
    parseSlab (byteView b).bytes = .ok (byteView b) :=
  parseSlab_slabBytes ⟨by decide, by decide, by decide, by decide, by decide⟩
    (fun r hr => by
      rw [List.mem_singleton.mp hr]
      exact ⟨by decide, Or.inr rfl, Or.inr rfl, by decide⟩) rfl rfl

theorem parseSlab_bareView : parseSlab bareView.bytes = .ok bareView :=
  parseSlab_slabBytes ⟨by decide, by decide, by decide, by decide, by decide⟩
    (fun r hr => absurd hr List.not_mem_nil) rfl rfl

theorem slabNamed_pairDir (x y name : Bytes) :
    slabNamed (pairDir x y) name = some (pairView x y name) := by
  unfold slabNamed pairDir pairView
  rw [Option.bind_some, toOption_eq_some]
  split
  · exact parseSlab_byteView _
  · exact parseSlab_bareView

section

variable {z : Omnizip} {H : Hash} {index : SlabIndex} {room : Nat → Nat}

/-- The front can be read, whatever stands behind it. -/
theorem parseManifestFront_inlineFront {blobBytes : Bytes} (hpos : 0 < blobBytes.length)
    (hceil : blobBytes.length ≤ defaultInlineMetadataMaxBytes) : ∃ front,
    front.metadataReference.inlineMetadata = some blobBytes ∧
      Reads (parseManifestFront z) (inlineFront blobBytes) front := by
  have hstore : decodeInlineBlob z codecStore blobBytes blobBytes.length = .ok blobBytes := if_pos rfl
  have href := @reads_parseMetadataReference_inline z (Stored.digest blobBytes) blobBytes.length
    codecStore (Nat.lt_of_le_of_lt hceil (by decide)) _ _ hpos hceil hstore
  refine ⟨⟨ManifestHeader.current.toBytes, emptyFlagsBytes, ⟨Stored.digest blobBytes, [],
    some blobBytes, codecStore, blobBytes.length⟩, metadataReferenceBytes (Stored.digest blobBytes)
      blobBytes.length codecStore none (some blobBytes)⟩, rfl, ?_⟩
  refine reads_parseManifestHeader.withSpan.bind ?_
  refine reads_parseFeatureFlagsSection.withSpan.bind ?_
  exact href.withSpan.map fun r => (⟨ManifestHeader.current.toBytes, emptyFlagsBytes, r.1,
    r.2⟩ : ManifestFront)

theorem parseManifestFront_rootFront (z : Omnizip) : ∃ front,
    front.metadataReference.inlineMetadata = some rootBlobBytes ∧
      Reads (parseManifestFront z) Stored.rootFront front :=
  parseManifestFront_inlineFront (by decide +kernel) (by decide +kernel)

theorem parseMetadataBlob_rootBlob :
    parseMetadataBlob rootBlobBytes = (.ok Stored.rootBlob, []) := by decide +kernel

theorem openParts_rootFront {wire rest : Bytes} (hindex : parseSlabIndex wire = (.ok index, rest))
    (dir : Directory) :
    openParts z (Stored.rootFront ++ wire) dir = .ok (Stored.rootBlob, index) := by
  obtain ⟨front, hinline, hfront⟩ := parseManifestFront_rootFront z
  exact openParts_eq_ok.mpr ⟨front, wire, rootBlobBytes, [], rest, hfront wire,
    by rw [metadataBytes, hinline], parseMetadataBlob_rootBlob, hindex⟩

theorem rootInodeNumber_rootBlob : Stored.rootBlob.rootInodeNumber = some 1 := by decide +kernel

/-! ### What is needed -/

theorem mapM_pairDir (x y : Bytes) (names : List Bytes) :
    names.mapM (slabNamed (pairDir x y)) = some (names.map (pairView x y)) := by
  rw [mapM_some_iff, List.forall₂_map_right_iff]
  exact List.forall₂_same.mpr fun name _ => slabNamed_pairDir x y name

theorem plaintextFor_pairView (x y : Bytes) (names : List Bytes) :
    (SlabStore.mk (names.map (pairView x y)) fun _ => none).plaintextFor z
        sharedDrop.dropId
      = (lastOfTwo x y names).map fun name => .ok [pairByte x name] := by
  have hlast : ∀ name, (slabNamed (pairDir x y) name).bind
        (lastRecord sharedDrop.dropId)
      = (if name = x ∨ name = y then some name else none).map fun name =>
          (byteView (pairByte x name), sharedDrop) := by
    intro name
    rw [slabNamed_pairDir, Option.bind_some, pairView]
    split
    · simp [lastRecord, byteView]
    · rfl
  have hdecode : ∀ b : UInt8, decodeDrop z sharedDrop [b] (fun _ => none) = .ok [b] := by
    intro b
    rw [decodeDrop_plain rfl rfl rfl]
    exact (decodeStored_plain _ _ _).trans (decompress_store [b])
  unfold SlabStore.plaintextFor SlabStore.locateWindow
  rw [find_named (mapM_pairDir x y names)]
  simp only [hlast]
  rw [lastSome_optionMap]
  rw [show lastSome (fun name => if name = x ∨ name = y then some name else none) names
    = lastOfTwo x y names from rfl]
  cases lastOfTwo x y names with
  | none => rfl
  | some name => exact congrArg some (hdecode _)

theorem lastOfTwo_of_plaintextFor {x y : Bytes} {names placed : List Bytes}
    (h : (SlabStore.mk (placed.map (pairView x y)) fun _ => none).plaintextFor z
        sharedDrop.dropId
      = (SlabStore.mk (names.map (pairView x y)) fun _ => none).plaintextFor z
        sharedDrop.dropId) : lastOfTwo x y placed = lastOfTwo x y names := by
  rw [plaintextFor_pairView, plaintextFor_pairView] at h
  cases hplaced : lastOfTwo x y placed with
  | none =>
      rw [hplaced] at h
      exact (Option.map_eq_none_iff.mp h.symm).symm
  | some a =>
      rw [hplaced] at h
      obtain ⟨b, hb, heq⟩ := Option.map_eq_some_iff.mp h.symm
      rw [hb]
      have hbyte : pairByte x b = pairByte x a := by simpa using heq
      refine congrArg some ?_
      unfold pairByte at hbyte
      rcases lastOfTwo_mem hplaced with rfl | rfl <;> rcases lastOfTwo_mem hb with rfl | rfl
      · rfl
      · by_cases heq : b = a
        · exact heq.symm
        · simp [heq] at hbyte
      · by_cases heq : a = b
        · exact heq
        · simp [heq] at hbyte
      · rfl

theorem plaintextFor_of_answersAs {reader : ImageReader} {config : ReadConfig} {blob : MetadataBlob}
    {root : Nat} {own store : SlabStore}
    (hreader : reader = ⟨blob, root, .withFrameBudget own config.cacheEntries config.cacheBytes
      config.frameCacheBytes⟩)
    (h : reader.AnswersAs H z store) (dropId : Digest) :
    own.plaintextFor z dropId = store.plaintextFor z dropId := by
  obtain ⟨s', hanswer⟩ := h [] reader.store rfl dropId
  rw [hreader] at hanswer
  have hs := CachedSlabStore.sound_withFrameBudget H z own config.cacheEntries config.cacheBytes
    config.frameCacheBytes
  obtain ⟨s'', hown, -⟩ := hs.decodedFetchInsert dropId
  rw [CachedSlabStore.plaintextFor, hown] at hanswer
  exact (Prod.mk.inj (Option.some.inj hanswer)).2

theorem placesAgree_of_opensTotally {wire rest : Bytes}
    (hindex : parseSlabIndex wire = (.ok index, rest)) (h : OpensTotally H z room index) :
    index.PlacesAgree room := by
  have hopens := fun dir => openParts_rootFront (z := z) hindex dir
  have hfits : ∀ entry ∈ index.entries, entry.slabId.ordinal + 1 < 2 ^ 64 := by
    have hreturns := h.returns _ (fun _ => none) ⟨0, 0, 0⟩ _ (hopens _)
    unfold ImageReader.fromParts slabSources at hreturns
    rw [hopens] at hreturns
    cases hcount : sourceCount index.entries with
    | none => simp [hcount] at hreturns
    | some count => exact (sourceCount_eq_some.mp hcount).1
  have hroom := SlabIndex.placeCount_le_iff.mp
    (h.bounded _ (sourceCount_eq_some.mpr ⟨hfits, rfl⟩))
  refine ⟨fun entry he => ⟨hfits entry he, hroom entry he⟩, fun names hnames => ?_⟩
  -- whichever two files have the drop, the library opens the image and finds the same
  have hpair : ∀ x y, ∃ placed, index.filesByOrdinal = some placed ∧
      lastOfTwo x y placed = lastOfTwo x y names := by
    intro x y
    obtain ⟨reader, hreader, hanswers⟩ := h.answers _ _ ⟨0, 0, 0⟩ _ _ _ (hopens _)
      rootInodeNumber_rootBlob (load_eq_ok.mpr ⟨names, _, hnames, mapM_pairDir x y names, rfl⟩)
    obtain ⟨placed, views', hplaced, hviews', hown⟩ := (fromParts_placed hfits (hopens _)
      rootInodeNumber_rootBlob hnames (mapM_pairDir x y names)).mp hreader
    rw [mapM_pairDir] at hviews'
    obtain rfl := Option.some.inj hviews'
    exact ⟨placed, hplaced, lastOfTwo_of_plaintextFor (plaintextFor_of_answersAs hown hanswers _)⟩
  obtain ⟨placed, hplaced, -⟩ := hpair [] []
  refine ⟨placed, hplaced, dedup_eq_of_lastOfTwo fun x y => ?_⟩
  obtain ⟨placed', hplaced', hlast⟩ := hpair x y
  rw [hplaced] at hplaced'
  exact Option.some.inj hplaced' ▸ hlast

/-- **When opening is total**: for an index that is accepted, opening never panics, keeps to the room
for its table and answers as the store of the same index and files does, exactly when no ordinal is
too high and the order of the ordinals is that of the index. -/
theorem opening_slabs_iff (H : Hash) (z : Omnizip) (room : Nat → Nat) (wire rest : Bytes)
    (index : SlabIndex) (hindex : parseSlabIndex wire = (.ok index, rest)) :
    OpensTotally H z room index ↔ index.PlacesAgree room :=
  ⟨placesAgree_of_opensTotally hindex, opensTotally_of_placesAgree⟩

end

namespace Stored

/-- One slab after another in files of their own. -/
def flatIndex (ordinals : List Nat) : SlabIndex :=
  ⟨ordinals.mapIdx fun i ordinal =>
    ⟨⟨ordinal, digest (ascii "slab")⟩, [⟨ascii "file:slab-" ++ [48 + UInt8.ofNat i]⟩]⟩⟩

end Stored


theorem parseSlabIndex_pair : parseSlabIndex (slabIndexBytes (flatIndex [0, 1]))
    = (.ok (flatIndex [0, 1]), []) := by decide +kernel

theorem opening_slabs_iff_pair :
    parseSlabIndex (slabIndexBytes (flatIndex [0, 1])) = (.ok (flatIndex [0, 1]), []) ∧
      (OpensTotally digest omnizip id (flatIndex [0, 1]) ↔
        (flatIndex [0, 1]).PlacesAgree id) :=
  ⟨parseSlabIndex_pair, opening_slabs_iff _ _ _ _ _ _ parseSlabIndex_pair⟩

/-- **The highest ordinal**: its index is accepted, and opening the image panics. -/
theorem highest_ordinal_panics :
    parseSlabIndex (slabIndexBytes (flatIndex [2 ^ 64 - 1]))
        = (.ok (flatIndex [2 ^ 64 - 1]), []) ∧
      openParts omnizip (rootFront ++ slabIndexBytes (flatIndex [2 ^ 64 - 1]))
          (fun _ => none) = .ok (rootBlob, flatIndex [2 ^ 64 - 1]) ∧
      ImageReader.fromParts omnizip
          (rootFront ++ slabIndexBytes (flatIndex [2 ^ 64 - 1])) (fun _ => none)
          ⟨0, 0, 0⟩ = none := by
  have hindex : parseSlabIndex (slabIndexBytes (flatIndex [2 ^ 64 - 1]))
      = (.ok (flatIndex [2 ^ 64 - 1]), []) := by decide +kernel
  have hopens := openParts_rootFront (z := omnizip) hindex fun _ => none
  have hcount : sourceCount (flatIndex [2 ^ 64 - 1]).entries = none := by decide +kernel
  refine ⟨hindex, hopens, ?_⟩
  unfold ImageReader.fromParts slabSources
  rw [hopens]
  simp only [hcount]
  rfl

end LimniFS
