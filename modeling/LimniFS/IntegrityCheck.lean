/-
The two integrity checks of the CLI.

`check` goes through the records of each slab and asks a view of the slab, parsed once more, for the
plaintext of the record's id; `verify --deep` asks the store for the plaintext of every id it has
indexed.  Both hash what they are given.  The store has the image's dictionaries and knows the last
record of an id; the view has no dictionaries, knows the first record of an id in its slab and has gates
of its own in front of a container.
-/
import LimniFS.DropIdText
import LimniFS.FrontEnds
import LimniFS.SlabOrdinals
import LimniFS.SlabReader
import LimniFS.SparseLayer

namespace LimniFS

open Lib

/-! ### `check` -/

/-- What was counted, and the lines of the failures. -/
structure CheckReport where
  checked : Nat
  passed : Nat
  failed : Nat
  failures : List String

namespace CheckReport

def zero : CheckReport := ⟨0, 0, 0, []⟩

def add (r s : CheckReport) : CheckReport :=
  ⟨r.checked + s.checked, r.passed + s.passed, r.failed + s.failed, r.failures ++ s.failures⟩

/-- The reports of a list, in its order. -/
def total (reports : List CheckReport) : CheckReport := reports.foldr add zero

end CheckReport

section

variable (H : Hash) (z : Omnizip)

/-- The text of a failure of a drop. -/
def checkFailure (dropId : Digest) (text : String) : String :=
  "  FAIL: drop " ++ String.ofList (dropIdToText dropId) ++ " — " ++ text

def checkRecord (view : SlabView) (record : DropRecord) : CheckReport :=
  match view.plaintextFor z record.dropId with
  | some (.ok plaintext) =>
    if H plaintext = record.dropId then ⟨1, 1, 0, []⟩
    else ⟨1, 0, 1, [checkFailure record.dropId "BLAKE3 mismatch"]⟩
  | some (.error e) => ⟨1, 0, 1, [checkFailure record.dropId e.display]⟩
  | none => ⟨1, 0, 0, []⟩

/-- One slab of the store, parsed again. -/
def checkSlab (ordinal : Nat) (slabBytes : Bytes) : CheckReport :=
  match parseSlab slabBytes with
  | .error e => ⟨0, 0, 1, [s!"  FAIL: slab {ordinal} — {e.display}"]⟩
  | .ok view => .total (view.dropRecords.map (checkRecord H z view))

def checkStore (store : SlabStore) : CheckReport :=
  .total (store.slabs.mapIdx fun ordinal view => checkSlab H z ordinal view.bytes)

/-- `check_cmd`, with the report that it prints. -/
def checkCmd (image : ImageFile) : Except CoreError CheckReport := do
  let loaded ← loadImage z image
  if loaded.slabIndex.entries = [] then pure CheckReport.zero
  else
    let store ← loadStore image.dir loaded.slabIndex loaded.dictSection
    let report := checkStore H z store
    if 0 < report.failed then
      throw (CoreError.corrupt s!"{report.failed} drops failed integrity check")
    else pure report

end

/-! ### `verify --deep` -/

/-- The slices of the blob whose drop is in no slab. -/
def missingDrops (blob : MetadataBlob) (store : SlabStore) : List String :=
  blob.inodes.flatMap fun inode =>
    match inode.contentHandle with
    | .sliceMap map => map.slices.filterMap fun s =>
      if store.contains s.dropId then none
      else some (s!"inode {inode.number} references drop {debugHex2 (s.dropId.val.take 4)}"
        ++ " missing from every slab")
    | _ => []

section

variable (H : Hash) (z : Omnizip)

/-- What is wrong with an answer for an id. -/
def storedFailure (dropId : Digest) : Option (Except CoreError Bytes) → Option String
  | none => some (s!"drop {debugHex2 (dropId.val.take 4)}: index entry has no slab record")
  | some (.error e) => some (s!"drop {debugHex2 (dropId.val.take 4)}: decompress: {e.display}")
  | some (.ok plaintext) =>
    if H plaintext ≠ dropId then
      some (s!"drop {debugHex2 (dropId.val.take 4)}: content hash mismatch")
    else none

/-- The second phase: every id asked of one cached store, in some order; `none` is a panic. -/
def storedFailures (s : CachedSlabStore) : List Digest → Option (CachedSlabStore × List String)
  | [] => some (s, [])
  | dropId :: rest =>
    (s.plaintextFor z dropId).bind fun (s, answer) =>
      (storedFailures s rest).map fun (s, failures) =>
        (s, (storedFailure H dropId answer).toList ++ failures)

/-- `verify_deep`; `ids` is the order of the keys of a store's index. -/
def verifyDeep (ids : SlabStore → List Digest) (image : ImageFile) :
    Option (Except CoreError Unit) :=
  match loadImage z image with
  | .error e => some (.error e)
  | .ok loaded =>
    if loaded.slabIndex.entries = [] then some (.ok ())
    else
      match loadStore image.dir loaded.slabIndex loaded.dictSection with
      | .error e => some (.error e)
      | .ok store =>
        let missing := missingDrops loaded.blob store
        if missing ≠ [] then
          some (.error (.corrupt s!"{missing.length} referenced drops missing from slabs"))
        else
          (storedFailures H z (.withDefaultCapacity store) (ids store)).map fun (_, failures) =>
            if failures = [] then .ok ()
            else .error (.corrupt
              s!"{failures.length}/{(ids store).length} drops failed deep verification")

end

/-! ### What an exact check tells -/

section

variable (H : Hash) (z : Omnizip)

/-- The record, decoded as readers decode it, yields bytes that hash to its id. -/
def RecordSound (dicts : DictTable) (slab : SlabView) (record : DropRecord) : Prop :=
  ∃ raw plaintext, slab.window record = some raw ∧
    decodeDrop z record raw dicts = .ok plaintext ∧ H plaintext = record.dropId

/-- The store reads the drop as bytes of its id. -/
def SlabStore.ReadsSound (store : SlabStore) (dropId : Digest) : Prop :=
  ∃ plaintext, store.plaintextFor z dropId = some (.ok plaintext) ∧ H plaintext = dropId

/-- Every drop that a file refers to is read as bytes of its id. -/
def FilesReadSound (blob : MetadataBlob) (store : SlabStore) : Prop :=
  ∀ inode ∈ blob.inodes, ∀ map, inode.contentHandle = .sliceMap map → ∀ s ∈ map.slices,
    store.ReadsSound H z s.dropId

/-- `check` succeeds just if every stored record is sound; it has the verdict of the second phase of
`verify --deep`, in whatever order the ids come; and it does not fail an image whose files are read
correctly. -/
structure CheckExact (image : ImageFile) (blob : MetadataBlob) (store : SlabStore) : Prop where
  records : (∃ report, checkCmd H z image = .ok report) ↔
    ∀ slab ∈ store.slabs, ∀ record ∈ slab.dropRecords, RecordSound H z store.dictionaries slab record
  deep : ∀ ids, ids.Perm store.dropIndexKeys.dedup →
    ((∃ report, checkCmd H z image = .ok report) ↔
      ∃ s, storedFailures H z (.withDefaultCapacity store) ids = some (s, []))
  extracts : FilesReadSound H z blob store → ∃ report, checkCmd H z image = .ok report

end

/-! ### What a view decodes -/

/-- The view's decoder needs nothing that it does not have: no dictionary, and the gates that it puts in
front of a container as well. -/
structure DropRecord.SelfDecoding (record : DropRecord) : Prop where
  readable : checkDropReadable record = .ok ()
  noDictionary : record.dictId = noDict

section

variable {H : Hash} {z : Omnizip} {view : SlabView} {record : DropRecord} {dicts : DictTable}

theorem checkDropReadable_eq_ok : checkDropReadable record = .ok () ↔
    record.representation.aead = 0 ∧ record.solidWindowIndex = 0 := by
  unfold checkDropReadable
  by_cases haead : record.representation.aead = 0
  · by_cases hindex : record.solidWindowIndex = 0
    · simp [haead, hindex]
    · simp [haead, hindex]
  · simp [haead]

theorem decodeDropBytes_noDict {raw plaintext : Bytes}
    (h : decodeDropBytes z record raw (fun _ => none) = .ok plaintext) : record.dictId = noDict := by
  unfold decodeDropBytes at h
  by_contra hdict
  by_cases hseek : record.flags &&& dropFlagSeekable ≠ 0
  · rw [if_pos hseek, if_pos hdict] at h
    cases h
  · rw [if_neg hseek, if_neg hdict] at h
    cases h

theorem decodeDropBytes_of_selfDecoding (h : record.SelfDecoding) (raw : Bytes) :
    decodeDropBytes z record raw (fun _ => none) = decodeDrop z record raw dicts := by
  obtain ⟨haead, hindex⟩ := checkDropReadable_eq_ok.mp h.readable
  rw [decodeDrop_plain h.noDictionary haead hindex]
  unfold decodeDropBytes decodeStored
  by_cases hseek : record.flags &&& dropFlagSeekable ≠ 0
  · rw [if_pos hseek, if_pos hseek, if_neg (Decidable.not_not.mpr h.noDictionary)]
  · rw [if_neg hseek, if_neg hseek, if_pos h.noDictionary]

theorem plaintextFor_of_findRecord {dropId : Digest}
    (hfind : view.findRecord dropId = some record) {plaintext : Bytes} :
    view.plaintextFor z dropId = some (.ok plaintext) ↔
      checkDropReadable record = .ok () ∧ ∃ raw, view.window record = some raw ∧
        decodeDropBytes z record raw (fun _ => none) = .ok plaintext := by
  unfold SlabView.plaintextFor SlabView.plaintextForWithDictLookup SlabView.window
  rw [hfind]
  dsimp only
  cases hgates : checkDropReadable record with
  | error e => simp
  | ok _ =>
      by_cases hpast : view.bytes.length
          < view.solidWindowStart + record.offsetInWindow + record.lenInWindow
      · simp [hpast]
      · simp [hpast]

/-- **A view passes the first record of an id** when it is sound and decodes by itself. -/
theorem view_passes_iff (hfind : view.findRecord record.dropId = some record) :
    (∃ plaintext, view.plaintextFor z record.dropId = some (.ok plaintext) ∧
        H plaintext = record.dropId) ↔
      record.SelfDecoding ∧ RecordSound H z dicts view record := by
  constructor
  · rintro ⟨plaintext, hplain, hhash⟩
    obtain ⟨hgates, raw, hraw, hdecode⟩ := (plaintextFor_of_findRecord hfind).mp hplain
    have hself : record.SelfDecoding := ⟨hgates, decodeDropBytes_noDict hdecode⟩
    rw [@decodeDropBytes_of_selfDecoding z record dicts hself] at hdecode
    exact ⟨hself, raw, plaintext, hraw, hdecode, hhash⟩
  · rintro ⟨hself, raw, plaintext, hraw, hdecode, hhash⟩
    rw [← decodeDropBytes_of_selfDecoding hself] at hdecode
    exact ⟨plaintext, (plaintextFor_of_findRecord hfind).mpr ⟨hself.readable, raw, hraw, hdecode⟩,
      hhash⟩

end

end LimniFS
