/-
Finding a drop among the slabs of an image, and decoding it.

The store parses every slab once and keeps, for each drop id, the last record that
carries it.  A lookup cuts the record's window out of its slab, or says that there is
no such drop when the window does not lie inside the slab, and decodes the bytes as
the record's flags, dictionary and codec say.

What comes out is never compared with the id it was looked up under.
-/
import LimniFS.Lib.ListRel
import LimniFS.Slab

namespace LimniFS

open Lib

/-! ### Decoding one drop -/

variable (z : Omnizip)

def decompressWithDict (compressed : Bytes) (expectedLen : Nat) (dict : Bytes) :
    Except CoreError Bytes :=
  match z.zstdDecompressWithDict compressed expectedLen dict with
  | .ok plain => .ok plain
  | .error (.error text) => .error (.corrupt ("zstd decompress_with_dict failed: " ++ text))
  | .error (.panic payload) => .error (.panicked payload)

/-- A table of dictionaries by id. -/
abbrev DictTable := UInt8 → Option Bytes

def decodeDrop (record : DropRecord) (raw : Bytes) (dictLookup : DictTable) :
    Except CoreError Bytes :=
  if record.flags &&& dropFlagSeekable ≠ 0 then
    if record.dictId ≠ noDict then
      .error (.unsupportedFeature "seekable drop with trained dictionary (not combinable)")
    else decodeSeekable z record.representation.codec raw record.plaintextLen
  else if record.representation.aead ≠ 0 then
    .error (.unsupportedFeature ("drop aead " ++ hex2 record.representation.aead
      ++ " (only plaintext/0x00 supported in v0.1)"))
  else if record.solidWindowIndex ≠ 0 then
    .error (.unsupportedFeature (s!"solid_window_index {record.solidWindowIndex}"
      ++ " (only single-window slabs supported in v0.1)"))
  else if record.dictId = noDict then
    decompress z record.representation.codec raw record.plaintextLen
  else
    match dictLookup record.dictId with
    | none => .error (.corrupt ("drop references dict_id " ++ hex2 record.dictId
        ++ " but no dictionary_section provided"))
    | some dict => decompressWithDict z raw record.plaintextLen dict

/-! ### The store -/

/-- The bytes of a record's window, if the window lies inside the slab. -/
def SlabView.window (view : SlabView) (record : DropRecord) : Option Bytes :=
  let start := view.solidWindowStart + record.offsetInWindow
  if view.bytes.length < start + record.lenInWindow then none
  else some ((view.bytes.drop start).take record.lenInWindow)

/-- The slabs of an image in the order of its slab index. -/
structure SlabStore where
  slabs : List SlabView
  dictionaries : DictTable

namespace SlabStore

def empty : SlabStore := ⟨[], fun _ => none⟩

/-- Every record of every slab, with its slab. -/
def entries (store : SlabStore) : List (SlabView × DropRecord) :=
  store.slabs.flatMap fun slab => slab.dropRecords.map fun record => (slab, record)

/-- The index maps an id to the last record that carries it. -/
def find (store : SlabStore) (dropId : Digest) : Option (SlabView × DropRecord) :=
  store.entries.reverse.find? fun entry => entry.2.dropId = dropId

def locateWindow (store : SlabStore) (dropId : Digest) : Option (Bytes × DropRecord) :=
  match store.find dropId with
  | none => none
  | some (slab, record) => (slab.window record).map fun raw => (raw, record)

def plaintextFor (store : SlabStore) (dropId : Digest) : Option (Except CoreError Bytes) :=
  (store.locateWindow dropId).map fun (raw, record) => decodeDrop z record raw store.dictionaries

/-- Is the drop in any slab? -/
def contains (store : SlabStore) (dropId : Digest) : Bool :=
  store.entries.any fun entry => entry.2.dropId = dropId

end SlabStore

/-! ### Loading -/

/-- `uri` without its scheme, if it is `file:` with a flat name. -/
def localSidecarName (uri : Bytes) : Except CoreError Bytes :=
  if (ascii "file:").isPrefixOf uri = false then
    .error (.corrupt ("locator " ++ debugStr uri
      ++ " is not a file: URI; local sidecar access requires one"))
  else
    let rest := uri.drop 5
    if rest = [] ∨ rest = ascii "." ∨ rest = ascii ".." ∨ (47 : UInt8) ∈ rest ∨ (92 : UInt8) ∈ rest
        ∨ (0 : UInt8) ∈ rest ∨ (58 : UInt8) ∈ rest then
      .error (.corrupt ("locator " ++ debugStr uri ++ " is not a flat file name; local sidecar"
        ++ " access refuses paths that could escape the image directory"))
    else .ok rest

/-- The files next to an image, by name. -/
abbrev Directory := Bytes → Option Bytes

/-- Put the entry in front of a locator's error. -/
def slabEntryError (ordinal : Nat) (text : String) : CoreError :=
  .corrupt (s!"slab_index entry {ordinal}: " ++ text)

/-- One slab of the index; the text leaves out the system's own message. -/
def loadSlab (dir : Directory) (ordinal : Nat) (entry : SlabIndexEntry) :
    Except CoreError SlabView :=
  match entry.locators with
  | [] => .error (slabEntryError ordinal "zero locators (unreachable)")
  | locator :: _ =>
    match localSidecarName locator.uri with
    | .error e => .error (slabEntryError ordinal e.display)
    | .ok name =>
      match dir name with
      | none => .error (slabEntryError ordinal "cannot open slab file")
      | some bytes => parseSlab bytes

/-- The slabs of the index in order; the first failure is the result. -/
def loadSlabs (dir : Directory) : Nat → List SlabIndexEntry → Except CoreError (List SlabView)
  | _, [] => .ok []
  | ordinal, entry :: rest =>
    match loadSlab dir ordinal entry with
    | .error e => .error e
    | .ok slab =>
      match loadSlabs dir (ordinal + 1) rest with
      | .error e => .error e
      | .ok slabs => .ok (slab :: slabs)

/-- `SlabStore::load_mmap`. -/
def SlabStore.load (dir : Directory) (index : SlabIndex) : Except CoreError SlabStore :=
  match loadSlabs dir 0 index.entries with
  | .error e => .error e
  | .ok slabs => .ok ⟨slabs, fun _ => none⟩

/-- The table a dictionary section stands for: the class is the id, a later entry wins. -/
def installDicts (section_ : DictionarySection) : DictTable := fun id =>
  (section_.dicts.reverse.find? fun d => d.classId = id).map (·.data)

/-! ### Facts about lookups -/

variable {z}

namespace SlabStore

theorem find_some {store : SlabStore} {dropId : Digest} {slab : SlabView} {record : DropRecord}
    (h : store.find dropId = some (slab, record)) :
    slab ∈ store.slabs ∧ record ∈ slab.dropRecords ∧ record.dropId = dropId := by
  have hmem := List.mem_reverse.mp (List.mem_of_find?_eq_some h)
  have hid := List.find?_some h
  simp only [entries, List.mem_flatMap, List.mem_map] at hmem
  obtain ⟨slab', hslab, record', hrecord, heq⟩ := hmem
  cases heq
  exact ⟨hslab, hrecord, by simpa using hid⟩

theorem entries_dropIds (store : SlabStore) :
    store.entries.map (·.2.dropId)
      = store.slabs.flatMap fun slab => slab.dropRecords.map (·.dropId) := by
  unfold entries
  rw [List.map_flatMap]
  simp only [List.map_map]
  rfl

theorem find_of_nodup (store : SlabStore)
    (hnodup : (store.slabs.flatMap fun slab => slab.dropRecords.map (·.dropId)).Nodup)
    {slab : SlabView} (hslab : slab ∈ store.slabs) {record : DropRecord}
    (hrecord : record ∈ slab.dropRecords) : store.find record.dropId = some (slab, record) := by
  rw [← entries_dropIds] at hnodup
  have hmem : (slab, record) ∈ store.entries := by
    unfold entries
    exact List.mem_flatMap.mpr ⟨slab, hslab, List.mem_map.mpr ⟨record, hrecord, rfl⟩⟩
  unfold find
  refine find?_of_nodup_map (f := fun entry : SlabView × DropRecord => entry.2.dropId) ?_
    (List.mem_reverse.mpr hmem)
  rw [List.map_reverse]
  exact List.nodup_reverse.mpr hnodup

theorem plaintextFor_some {store : SlabStore} {dropId : Digest} {r : Except CoreError Bytes}
    (h : store.plaintextFor z dropId = some r) :
    ∃ slab ∈ store.slabs, ∃ record ∈ slab.dropRecords, ∃ raw, record.dropId = dropId ∧
      slab.window record = some raw ∧ r = decodeDrop z record raw store.dictionaries := by
  unfold plaintextFor locateWindow at h
  rcases hf : store.find dropId with _ | ⟨slab, record⟩
  · rw [hf] at h
    cases h
  · rw [hf] at h
    simp only [Option.map_map, Option.map_eq_some_iff] at h
    obtain ⟨raw, hraw, rfl⟩ := h
    obtain ⟨hslab, hrecord, hid⟩ := find_some hf
    exact ⟨slab, hslab, record, hrecord, raw, hid, hraw, rfl⟩

end SlabStore

/-- What decodes with no dictionary and no encryption is what its flags and codec say. -/
theorem decodeDrop_plain {record : DropRecord} {raw : Bytes} {table : DictTable}
    (hdict : record.dictId = noDict) (haead : record.representation.aead = 0)
    (hindex : record.solidWindowIndex = 0) :
    decodeDrop z record raw table
      = decodeStored z record.representation.codec record.flags raw record.plaintextLen := by
  unfold decodeDrop decodeStored
  by_cases hseek : record.flags &&& dropFlagSeekable ≠ 0
  · rw [if_pos hseek, if_pos hseek, if_neg (by rw [hdict]; decide)]
  · rw [if_neg hseek, if_neg hseek, if_neg (by rw [haead]; decide),
      if_neg (by rw [hindex]; decide), if_pos hdict]

/-- What decodes with a dictionary is what the table has under its id. -/
theorem decodeDrop_dict {record : DropRecord} (raw : Bytes) (table : DictTable)
    (hseek : record.flags &&& dropFlagSeekable = 0) (hdict : record.dictId ≠ noDict)
    (haead : record.representation.aead = 0) (hindex : record.solidWindowIndex = 0) :
    decodeDrop z record raw table = match table record.dictId with
      | none => .error (.corrupt ("drop references dict_id " ++ hex2 record.dictId
          ++ " but no dictionary_section provided"))
      | some dict => decompressWithDict z raw record.plaintextLen dict := by
  unfold decodeDrop
  rw [if_neg (Decidable.not_not.mpr hseek), if_neg (Decidable.not_not.mpr haead),
    if_neg (Decidable.not_not.mpr hindex), if_neg hdict]

/-- A container with a dictionary does not decode. -/
theorem decodeDrop_seekable_dict {record : DropRecord} (raw : Bytes) (table : DictTable)
    (hseek : record.flags &&& dropFlagSeekable ≠ 0) (hdict : record.dictId ≠ noDict) :
    decodeDrop z record raw table
      = .error (.unsupportedFeature "seekable drop with trained dictionary (not combinable)") := by
  unfold decodeDrop
  rw [if_pos hseek, if_pos hdict]

/-! ### How a decoder fails -/

/-- Every failure of a codec's decoder is reported as corruption. -/
def Codec.FailsCorrupt (k : Codec) : Prop :=
  ∀ c n e, codecCall (k.decompress c n) = .error e → ∃ reason, e = .corrupt reason

theorem codecCall_relabel {l : String} {r : Coded} {e : CoreError}
    (h : codecCall (relabel l r) = .error e) : ∃ reason, e = .corrupt reason := by
  rcases r with (text | payload) | c
  · exact ⟨_, (Except.error.inj h).symm⟩
  · exact ⟨_, (Except.error.inj h).symm⟩
  · cases h

theorem codecCall_checkLen {label name : String} {n : Nat} {r : Coded} {e : CoreError}
    (h : codecCall (checkLen name n (relabel label r)) = .error e) :
    ∃ reason, e = .corrupt reason := by
  rcases r with (text | payload) | c
  · exact ⟨_, (Except.error.inj h).symm⟩
  · exact ⟨_, (Except.error.inj h).symm⟩
  · simp only [relabel, checkLen] at h
    split at h
    · cases h
    · exact ⟨_, (Except.error.inj h).symm⟩

theorem filterComposite_failsCorrupt {filter : Filter} {inner : Codec} {id : UInt8}
    {name : String} (hinner : inner.FailsCorrupt) :
    (filterComposite filter inner id name).FailsCorrupt := by
  intro c n e h
  simp only [filterComposite, plainCodec] at h
  split at h
  · exact ⟨_, (Except.error.inj h).symm⟩
  · split at h
    · next e' he' =>
        rw [← Except.error.inj h]
        exact hinner _ _ _ he'
    · cases h

theorem fsst_failsCorrupt : (fsstBrotliCodec z).FailsCorrupt := by
  intro c n e h
  simp only [fsstBrotliCodec, plainCodec, fsstDecompress] at h
  split at h
  · exact ⟨_, (Except.error.inj h).symm⟩
  · split at h
    · exact codecCall_relabel h
    · split at h
      · exact ⟨_, (Except.error.inj h).symm⟩
      · split at h
        · next e' he' =>
            refine codecCall_relabel (l := "brotli: ") (r := z.brotliDecompress
              (c.drop (4 + leNat (c.take 4))) (u32Limit - 1)) ?_
            rw [← h, ← he']
            rfl
        · exact codecCall_relabel h

theorem lz4_failsCorrupt : (lz4Codec z).FailsCorrupt := fun _ _ _ h => codecCall_relabel h

theorem zstd_failsCorrupt : (zstdCodec z).FailsCorrupt := fun _ _ _ h => codecCall_checkLen h

theorem registry_failsCorrupt {k : Codec} (hk : k ∈ defaultRegistry z) : k.FailsCorrupt := by
  simp only [defaultRegistry, List.mem_cons, List.not_mem_nil, or_false] at hk
  rcases hk with rfl | rfl | rfl | rfl | rfl | rfl | rfl | rfl | rfl | rfl | rfl | rfl | rfl | rfl |
    rfl | rfl | rfl | rfl | rfl | rfl | rfl | rfl | rfl | rfl | rfl
  · intro c n e h
    simp only [storeCodec, plainCodec] at h
    split at h
    · cases h
    · exact ⟨_, (Except.error.inj h).symm⟩
  · exact lz4_failsCorrupt
  · exact fun _ _ _ h => codecCall_relabel h
  · exact zstd_failsCorrupt
  · exact fun _ _ _ h => codecCall_checkLen h
  · exact fun _ _ _ h => codecCall_checkLen h
  · exact fun _ _ _ h => codecCall_checkLen h
  · exact fun _ _ _ h => codecCall_checkLen h
  · exact fun _ _ _ h => codecCall_relabel h
  · exact fun _ _ _ h => codecCall_relabel h
  · exact fun _ _ _ h => codecCall_relabel h
  · exact fsst_failsCorrupt
  · exact filterComposite_failsCorrupt lz4_failsCorrupt
  · exact fun _ _ _ h => codecCall_relabel h
  · exact fun _ _ _ h => codecCall_relabel h
  · exact fun _ _ _ h => codecCall_relabel h
  · exact fun _ _ _ h => codecCall_relabel h
  · exact filterComposite_failsCorrupt zstd_failsCorrupt
  · exact filterComposite_failsCorrupt lz4_failsCorrupt
  · exact fun _ _ _ h => codecCall_relabel h
  · exact fun _ _ _ h => codecCall_relabel h
  · exact filterComposite_failsCorrupt lz4_failsCorrupt
  · exact filterComposite_failsCorrupt zstd_failsCorrupt
  · exact filterComposite_failsCorrupt lz4_failsCorrupt
  · exact filterComposite_failsCorrupt zstd_failsCorrupt

/-- **A decoder fails with corruption or because its codec is not registered.** -/
theorem decompress_error {id : UInt8} {c : Bytes} {n : Nat} {e : CoreError}
    (h : decompress z id c n = .error e) :
    (∃ reason, e = .corrupt reason) ∨ e = unregistered z "decompress" id := by
  unfold decompress at h
  cases hfind : findCodec z id with
  | none =>
      rw [hfind] at h
      exact Or.inr (Except.error.inj h).symm
  | some k =>
      rw [hfind] at h
      exact Or.inl (registry_failsCorrupt (List.mem_of_find?_eq_some hfind) _ _ _ h)

end LimniFS
