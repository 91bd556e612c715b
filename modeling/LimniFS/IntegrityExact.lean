/-
When the integrity check is exact.

`check` sees of each id in a slab its first record, and passes it if it is sound and needs nothing that a
view does not have; `verify --deep` sees of each id in the store its last record.  The two verdicts, and
that of a reader of the files, can come apart in both directions, and `CheckTells` says of the records
of an image when none of them does.
-/
import LimniFS.IntegrityCheck

namespace LimniFS

open Lib

/-- The record is the first of its id in the slab. -/
def SlabView.IsFirst (view : SlabView) (record : DropRecord) : Prop :=
  view.findRecord record.dropId = some record

/-- The record is the last of its id in the store. -/
def SlabStore.IsLast (store : SlabStore) (slab : SlabView) (record : DropRecord) : Prop :=
  store.find record.dropId = some (slab, record)

/-- Where the first records of all ids are sound and decode by themselves, every record is sound; and
where one is not, there is an id whose last record is not sound and a file that cannot be read. -/
structure CheckTells (H : Hash) (z : Omnizip) (blob : MetadataBlob) (store : SlabStore) : Prop where
  missed : (∀ slab ∈ store.slabs, ∀ record, slab.IsFirst record →
      record.SelfDecoding ∧ RecordSound H z store.dictionaries slab record) →
    ∀ slab ∈ store.slabs, ∀ record ∈ slab.dropRecords, RecordSound H z store.dictionaries slab record
  alarm : ∀ slab ∈ store.slabs, ∀ record, slab.IsFirst record →
    ¬(record.SelfDecoding ∧ RecordSound H z store.dictionaries slab record) →
    (∃ slab record, store.IsLast slab record ∧ ¬RecordSound H z store.dictionaries slab record) ∧
      ¬FilesReadSound H z blob store

section

variable {H : Hash} {z : Omnizip} {image : ImageFile} {loaded : LoadedImage} {store : SlabStore}
  {view : SlabView} {record : DropRecord} {dicts : DictTable}

/-! ### What `check` counts -/

theorem failed_total {reports : List CheckReport} :
    (CheckReport.total reports).failed = 0 ↔ ∀ report ∈ reports, report.failed = 0 := by
  induction reports with
  | nil => simp [CheckReport.total, CheckReport.zero]
  | cons report rest ih =>
      rw [List.forall_mem_cons, ← ih]
      simp only [CheckReport.total, List.foldr_cons, CheckReport.add]
      omega

theorem findRecord_of_mem (hrecord : record ∈ view.dropRecords) :
    ∃ first, view.findRecord record.dropId = some first ∧ first.dropId = record.dropId := by
  have hsome : (view.findRecord record.dropId).isSome := by
    unfold SlabView.findRecord
    rw [List.find?_isSome]
    exact ⟨record, hrecord, by simp⟩
  obtain ⟨first, hfirst⟩ := Option.isSome_iff_exists.mp hsome
  exact ⟨first, hfirst, by simpa using List.find?_some hfirst⟩

theorem SlabView.IsFirst.mem (h : view.IsFirst record) : record ∈ view.dropRecords :=
  List.mem_of_find?_eq_some h

theorem failed_checkRecord (hrecord : record ∈ view.dropRecords) :
    (checkRecord H z view record).failed = 0 ↔
      ∃ plaintext, view.plaintextFor z record.dropId = some (.ok plaintext) ∧
        H plaintext = record.dropId := by
  obtain ⟨first, hfirst, -⟩ := findRecord_of_mem hrecord
  have hanswer := SlabView.plaintextFor_found z hfirst
  unfold checkRecord
  split
  · next plaintext hplain =>
      by_cases hhash : H plaintext = record.dropId
      · simp [hplain, hhash]
      · simp [hplain, hhash]
  · next e hplain => simp [hplain]
  · next hplain => exact absurd hplain hanswer

/-- **A slab fails** by the first records of its ids. -/
theorem failed_checkSlab (hparse : parseSlab view.bytes = .ok view) (ordinal : Nat) :
    (checkSlab H z ordinal view.bytes).failed = 0 ↔ ∀ record, view.IsFirst record →
      record.SelfDecoding ∧ RecordSound H z dicts view record := by
  unfold checkSlab
  rw [hparse]
  dsimp only
  rw [failed_total, List.forall_mem_map]
  constructor
  · intro h first hfirst
    exact (view_passes_iff hfirst).mp ((failed_checkRecord hfirst.mem).mp (h first hfirst.mem))
  · intro h record hrecord
    obtain ⟨first, hfirst, hid⟩ := findRecord_of_mem hrecord
    have hown : view.IsFirst first := by
      unfold SlabView.IsFirst
      rw [hid]
      exact hfirst
    rw [failed_checkRecord hrecord, ← hid]
    exact (view_passes_iff hown).mpr (h first hown)

theorem failed_checkStore (hparse : ∀ view ∈ store.slabs, parseSlab view.bytes = .ok view) :
    (checkStore H z store).failed = 0 ↔ ∀ view ∈ store.slabs, ∀ record, view.IsFirst record →
      record.SelfDecoding ∧ RecordSound H z store.dictionaries view record := by
  unfold checkStore
  rw [failed_total]
  constructor
  · intro h view hview
    obtain ⟨i, hi, rfl⟩ := List.getElem_of_mem hview
    exact (failed_checkSlab (hparse _ hview) i).mp (h _ (List.mem_mapIdx.mpr ⟨i, hi, rfl⟩))
  · intro h report hreport
    obtain ⟨i, hi, rfl⟩ := List.mem_mapIdx.mp hreport
    have hview := List.getElem_mem hi
    exact (failed_checkSlab (hparse _ hview) i).mpr (h _ hview)

/-! ### The image that is checked -/

theorem parseSlab_of_loadStore {dir : Directory} {index : SlabIndex}
    {section_ : Option DictionarySection} (hstore : loadStore dir index section_ = .ok store) :
    ∀ view ∈ store.slabs, parseSlab view.bytes = .ok view := by
  have hslabs : ∃ own, SlabStore.load dir index = .ok own ∧ store.slabs = own.slabs := by
    unfold loadStore at hstore
    split at hstore
    · cases hstore
    · next own hown =>
        refine ⟨own, hown, ?_⟩
        cases section_ <;> cases hstore <;> rfl
  obtain ⟨own, hown, hsame⟩ := hslabs
  obtain ⟨names, views, -, hviews, rfl⟩ := load_eq_ok.mp hown
  intro view hview
  rw [hsame] at hview
  obtain ⟨name, -, hname⟩ := exists_mem_of_forall₂ (mapM_some_iff.mp hviews) view hview
  obtain ⟨bytes, -, hparse⟩ := Option.bind_eq_some_iff.mp hname
  have hparse := toOption_eq_some.mp hparse
  rw [(parseSlab_ok hparse).1]
  exact hparse

theorem slabs_of_no_entries {dir : Directory} {index : SlabIndex}
    {section_ : Option DictionarySection} (hstore : loadStore dir index section_ = .ok store)
    (hnone : index.entries = []) : store.slabs = [] := by
  unfold loadStore SlabStore.load at hstore
  rw [hnone] at hstore
  cases section_ <;> cases hstore <;> rfl

/-- The run of `check` on an image whose slabs are loaded. -/
theorem checkCmd_loaded (hload : loadImage z image = .ok loaded)
    (hstore : loadStore image.dir loaded.slabIndex loaded.dictSection = .ok store) :
    checkCmd H z image =
      if loaded.slabIndex.entries = [] then .ok .zero
      else if 0 < (checkStore H z store).failed then
        .error (.corrupt s!"{(checkStore H z store).failed} drops failed integrity check")
      else .ok (checkStore H z store) := by
  unfold checkCmd
  rw [hload]
  change (if loaded.slabIndex.entries = [] then pure CheckReport.zero else _) = _
  by_cases hnone : loaded.slabIndex.entries = []
  · rw [if_pos hnone, if_pos hnone]
    rfl
  · rw [if_neg hnone, if_neg hnone, hstore]
    rfl

/-- **What `check` decides**: the first records of all ids. -/
theorem checkCmd_ok_iff (hload : loadImage z image = .ok loaded)
    (hstore : loadStore image.dir loaded.slabIndex loaded.dictSection = .ok store) :
    (∃ report, checkCmd H z image = .ok report) ↔
      ∀ view ∈ store.slabs, ∀ record, view.IsFirst record →
        record.SelfDecoding ∧ RecordSound H z store.dictionaries view record := by
  rw [← failed_checkStore (parseSlab_of_loadStore hstore), checkCmd_loaded hload hstore]
  by_cases hnone : loaded.slabIndex.entries = []
  · have hempty : (checkStore H z store).failed = 0 := by
      unfold checkStore
      rw [slabs_of_no_entries hstore hnone]
      rfl
    simp [hnone, hempty]
  · by_cases hzero : (checkStore H z store).failed = 0
    · simp [hnone, hzero]
    · simp [hnone, hzero, Nat.pos_of_ne_zero hzero]

/-! ### What the deep check decides -/

theorem storedFailures_nil_iff : ∀ (ids : List Digest) (s : CachedSlabStore),
    CachedSlabStore.Sound H z store s →
    ((∃ s', storedFailures H z s ids = some (s', [])) ↔
      ∀ dropId ∈ ids, store.ReadsSound H z dropId) := by
  intro ids
  induction ids with
  | nil =>
      intro s _
      simp [storedFailures]
  | cons dropId rest ih =>
      intro s hs
      obtain ⟨mid, hanswer, hmid⟩ := hs.decodedFetchInsert dropId
      have hfailure : storedFailure H dropId (store.plaintextFor z dropId) = none ↔
          store.ReadsSound H z dropId := by
        unfold SlabStore.ReadsSound storedFailure
        rcases store.plaintextFor z dropId with _ | e | plaintext
        · simp
        · simp
        · simp
      rw [List.forall_mem_cons, ← hfailure, ← ih mid hmid, storedFailures,
        CachedSlabStore.plaintextFor, hanswer, Option.bind_some]
      cases hfails : storedFailure H dropId (store.plaintextFor z dropId) with
      | none => simp [hfails]
      | some text => simp [hfails]

theorem mem_dropIndexKeys {dropId : Digest} : dropId ∈ store.dropIndexKeys ↔
    ∃ slab ∈ store.slabs, ∃ record ∈ slab.dropRecords, record.dropId = dropId := by
  unfold SlabStore.dropIndexKeys SlabStore.entries
  rw [List.mem_map]
  constructor
  · rintro ⟨entry, hentry, rfl⟩
    obtain ⟨slab, hslab, hmem⟩ := List.mem_flatMap.mp hentry
    obtain ⟨record, hrecord, rfl⟩ := List.mem_map.mp hmem
    exact ⟨slab, hslab, record, hrecord, rfl⟩
  · rintro ⟨slab, hslab, record, hrecord, rfl⟩
    exact ⟨(slab, record), List.mem_flatMap.mpr ⟨slab, hslab, List.mem_map.mpr
      ⟨record, hrecord, rfl⟩⟩, rfl⟩

theorem readsSound_iff {dropId : Digest} : store.ReadsSound H z dropId ↔
    ∃ slab record, store.find dropId = some (slab, record) ∧
      RecordSound H z store.dictionaries slab record := by
  unfold SlabStore.ReadsSound SlabStore.plaintextFor SlabStore.locateWindow
  cases hfind : store.find dropId with
  | none => simp
  | some found =>
      obtain ⟨slab, record⟩ := found
      obtain ⟨-, -, rfl⟩ := SlabStore.find_some hfind
      unfold RecordSound
      cases hraw : slab.window record with
      | none => simp [hraw]
      | some raw => simp [hraw]

/-- **What the deep check decides**: the last records of all ids. -/
theorem deep_iff {ids : List Digest} (hids : ids.Perm store.dropIndexKeys.dedup) :
    (∃ s, storedFailures H z (.withDefaultCapacity store) ids = some (s, [])) ↔
      ∀ slab record, store.IsLast slab record → RecordSound H z store.dictionaries slab record := by
  have hs : CachedSlabStore.Sound H z store (.withDefaultCapacity store) :=
    CachedSlabStore.sound_withFrameBudget H z store _ _ _
  rw [storedFailures_nil_iff ids _ hs]
  constructor
  · intro h slab record hlast
    obtain ⟨hslab, hrecord, -⟩ := SlabStore.find_some hlast
    have hkey := hids.mem_iff.mpr (List.mem_dedup.mpr (mem_dropIndexKeys.mpr
      ⟨slab, hslab, record, hrecord, rfl⟩))
    obtain ⟨slab', record', hfind, hsound⟩ := readsSound_iff.mp (h _ hkey)
    rw [SlabStore.IsLast, hfind] at hlast
    cases hlast
    exact hsound
  · intro h dropId hkey
    obtain ⟨slab, hslab, record, hrecord, rfl⟩ := mem_dropIndexKeys.mp
      (List.mem_dedup.mp (hids.mem_iff.mp hkey))
    have hsome : (store.find record.dropId).isSome := by
      unfold SlabStore.find
      rw [List.find?_isSome]
      refine ⟨(slab, record), List.mem_reverse.mpr (List.mem_flatMap.mpr ⟨slab, hslab,
        List.mem_map.mpr ⟨record, hrecord, rfl⟩⟩), by simp⟩
    obtain ⟨⟨last, lastRecord⟩, hfind⟩ := Option.isSome_iff_exists.mp hsome
    refine readsSound_iff.mpr ⟨last, lastRecord, hfind, h last lastRecord ?_⟩
    unfold SlabStore.IsLast
    rw [(SlabStore.find_some hfind).2.2]
    exact hfind

/-- `verify --deep` accepts an image with slabs when no drop is missing and all last records are sound. -/
theorem verifyDeep_ok_iff {ids : SlabStore → List Digest}
    (hids : (ids store).Perm store.dropIndexKeys.dedup) (hload : loadImage z image = .ok loaded)
    (hsome : loaded.slabIndex.entries ≠ [])
    (hstore : loadStore image.dir loaded.slabIndex loaded.dictSection = .ok store) :
    verifyDeep H z ids image = some (.ok ()) ↔ missingDrops loaded.blob store = [] ∧
      ∀ slab record, store.IsLast slab record → RecordSound H z store.dictionaries slab record := by
  unfold verifyDeep
  rw [hload, ← deep_iff hids]
  simp only [if_neg hsome, hstore]
  by_cases hmissing : missingDrops loaded.blob store = []
  · rw [if_neg (by simp [hmissing]), Option.map_eq_some_iff]
    constructor
    · rintro ⟨⟨s, failures⟩, hrun, hok⟩
      by_cases hnone : failures = []
      · exact ⟨hmissing, s, hnone ▸ hrun⟩
      · simp [hnone] at hok
    · rintro ⟨-, s, hrun⟩
      exact ⟨(s, []), hrun, rfl⟩
  · simp [hmissing]

/-! ### When the check is exact -/

/-- **The integrity check is exact** for an image exactly when its records are such that it can tell. -/
theorem check_exact_iff (H : Hash) (z : Omnizip) (image : ImageFile) (loaded : LoadedImage)
    (store : SlabStore) (hload : loadImage z image = .ok loaded)
    (hstore : loadStore image.dir loaded.slabIndex loaded.dictSection = .ok store) :
    CheckExact H z image loaded.blob store ↔ CheckTells H z loaded.blob store := by
  have hcheck := checkCmd_ok_iff (H := H) hload hstore
  -- sound records are sound where they come last
  have hlast : (∀ slab ∈ store.slabs, ∀ record ∈ slab.dropRecords,
      RecordSound H z store.dictionaries slab record) →
      ∀ slab record, store.IsLast slab record → RecordSound H z store.dictionaries slab record := by
    intro h slab record hfind
    obtain ⟨hslab, hrecord, -⟩ := SlabStore.find_some hfind
    exact h slab hslab record hrecord
  constructor
  · intro h
    refine ⟨fun hfirst => h.records.mp (hcheck.mpr hfirst), fun slab hslab record hfirst hbad => ?_⟩
    have hfails : ¬∃ report, checkCmd H z image = .ok report := fun hok =>
      hbad (hcheck.mp hok slab hslab record hfirst)
    refine ⟨?_, fun hfiles => hfails (h.extracts hfiles)⟩
    by_contra hsound
    refine hfails ((h.deep _ (List.Perm.refl _)).mpr ((deep_iff (List.Perm.refl _)).mpr ?_))
    intro last lastRecord hlast
    by_contra hno
    exact hsound ⟨last, lastRecord, hlast, hno⟩
  · intro h
    -- where the check fails there is a first record that is to blame
    have hblame : (¬∃ report, checkCmd H z image = .ok report) →
        (∃ slab record, store.IsLast slab record ∧
          ¬RecordSound H z store.dictionaries slab record) ∧
        ¬FilesReadSound H z loaded.blob store := by
      intro hfails
      rw [hcheck] at hfails
      push Not at hfails
      obtain ⟨slab, hslab, record, hfirst, hbad⟩ := hfails
      exact h.alarm slab hslab record hfirst fun hgood => hbad hgood.1 hgood.2
    refine ⟨⟨fun hok => h.missed (hcheck.mp hok), fun hsound => ?_⟩, fun ids hids => ?_, fun hfiles => ?_⟩
    · by_contra hfails
      obtain ⟨⟨slab, record, hfind, hbad⟩, -⟩ := hblame hfails
      exact hbad (hlast hsound slab record hfind)
    · rw [deep_iff hids]
      refine ⟨fun hok => hlast (h.missed (hcheck.mp hok)), fun hsound => ?_⟩
      by_contra hfails
      obtain ⟨⟨slab, record, hfind, hbad⟩, -⟩ := hblame hfails
      exact hbad (hsound slab record hfind)
    · by_contra hfails
      exact (hblame hfails).2 hfiles

end

/-! ### A drop with a dictionary -/

namespace Stored

def checkDicts : DictionarySection := ⟨[⟨codecZstd, 0, [1, 2, 3]⟩]⟩

/-- One slab in the index and a dictionary behind the history. -/
def checkWire : Bytes :=
  slabIndexBytes (flatIndex [0]) ++ (historyBytes .build ++ encodeDictionarySection checkDicts)

/-- A drop of one byte that was compressed with the dictionary `dictId`, if there is one. -/
def checkedDrop (dictId : UInt8) : DropRecord :=
  ⟨digest [7], 1, ⟨if dictId = noDict then codecStore else codecZstd, 0, 0⟩, 0, 0,
    if dictId = noDict then 1 else 2, dictId, 0⟩

def checkedWindow (dictId : UInt8) : Bytes := if dictId = noDict then [7] else [0, 7]

def checkedView (dictId : UInt8) : SlabView :=
  let header := { sharedHeader with totalLength := 106 + (checkedWindow dictId).length }
  ⟨slabBytes header [checkedDrop dictId] (checkedWindow dictId), header, [checkedDrop dictId], 106⟩

def checkedImage (dictId : UInt8) : ImageFile :=
  ⟨rootFront ++ checkWire, fun name =>
    if name = ascii "slab-0" then some (checkedView dictId).bytes else none⟩

def checkedLoaded : LoadedImage := ⟨rootBlob, 1, flatIndex [0], some checkDicts⟩

def checkedStore (dictId : UInt8) : SlabStore := ⟨[checkedView dictId], installDicts checkDicts⟩

end Stored

open LimniFS.Stored

theorem loadImage_checked (dictId : UInt8) :
    loadImage omnizip (checkedImage dictId) = .ok checkedLoaded := by
  obtain ⟨front, hinline, hfront⟩ := parseManifestFront_rootFront omnizip
  have hindex : parseSlabIndex checkWire = (.ok (flatIndex [0]),
      historyBytes .build ++ encodeDictionarySection checkDicts) := by decide +kernel
  have hdicts : trailingDictionaries (historyBytes .build
      ++ encodeDictionarySection checkDicts) = some checkDicts := by decide +kernel
  exact loadImage_eq_ok.mpr ⟨front, checkWire, rootBlobBytes, [], _,
    hfront checkWire, by rw [metadataBytes, hinline], parseMetadataBlob_rootBlob, hindex,
    rootInodeNumber_rootBlob, by decide +kernel, hdicts.symm⟩

theorem loadStore_checked {dictId : UInt8} (hdict : dictId = 0 ∨ dictId = noDict) :
    loadStore (checkedImage dictId).dir checkedLoaded.slabIndex
      checkedLoaded.dictSection = .ok (checkedStore dictId) := by
  have hparse : parseSlab (checkedView dictId).bytes = .ok (checkedView dictId) := by
    rcases hdict with rfl | rfl <;>
    · exact parseSlab_slabBytes ⟨by decide, by decide, by decide, by decide, by decide⟩
        (fun r hr => by
          rw [List.mem_singleton.mp hr]
          exact ⟨by decide, Or.inr rfl, Or.inr rfl, by decide⟩) rfl rfl
  have hload : SlabStore.load (checkedImage dictId).dir (flatIndex [0])
      = .ok ⟨[checkedView dictId], fun _ => none⟩ := by
    refine load_eq_ok.mpr ⟨[ascii "slab-0"], _, by decide +kernel, ?_, rfl⟩
    rw [mapM_some_iff]
    refine .cons ?_ .nil
    have hdir : (checkedImage dictId).dir (ascii "slab-0")
        = some (checkedView dictId).bytes := by
      simp only [checkedImage, if_true]
    unfold slabNamed
    rw [hdir, Option.bind_some, hparse]
    rfl
  unfold loadStore
  rw [show checkedLoaded.slabIndex = flatIndex [0] from rfl, hload]
  rfl

/-- **A drop with a dictionary**: every record of the image is sound, and the check fails. -/
theorem dictionary_drop_fails_check :
    loadImage omnizip (checkedImage 0) = .ok checkedLoaded ∧
      loadStore (checkedImage 0).dir checkedLoaded.slabIndex
        checkedLoaded.dictSection = .ok (checkedStore 0) ∧
      (∀ slab ∈ (checkedStore 0).slabs, ∀ record ∈ slab.dropRecords,
        RecordSound digest omnizip (checkedStore 0).dictionaries slab record) ∧
      ¬∃ report, checkCmd digest omnizip (checkedImage 0) = .ok report := by
  refine ⟨loadImage_checked 0, loadStore_checked (Or.inl rfl), ?_, ?_⟩
  · intro slab hslab record hrecord
    rw [List.mem_singleton.mp hslab] at hrecord ⊢
    rw [List.mem_singleton.mp hrecord]
    exact ⟨[0, 7], [7], by decide +kernel, rfl, rfl⟩
  · rw [checkCmd_ok_iff (loadImage_checked 0) (loadStore_checked (Or.inl rfl))]
    intro h
    obtain ⟨hself, -⟩ := h (checkedView 0) List.mem_cons_self (checkedDrop 0)
      (by unfold SlabView.IsFirst; decide +kernel)
    exact absurd hself.noDictionary (by decide)

theorem check_exact_iff_plain :
    CheckExact digest omnizip (checkedImage noDict) checkedLoaded.blob
        (checkedStore noDict) ↔
      CheckTells digest omnizip checkedLoaded.blob
        (checkedStore noDict) :=
  check_exact_iff _ _ _ _ _ (loadImage_checked noDict) (loadStore_checked (Or.inr rfl))

end LimniFS
