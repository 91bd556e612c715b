/-
What compaction preserves.

For a slab on its own: the new slab has the referenced records, each decoding as
before, exactly when every referenced record is `Keepable`; and a compacted image
compacts to itself.
-/
import LimniFS.Compaction

namespace LimniFS

open Lib Lib.Parser Cursor

/-! ### One record -/

/-- What a lookup of the record gives under a table of dictionaries; `none` if its window lies
outside the slab. -/
def SlabView.read (z : Omnizip) (view : SlabView) (record : DropRecord) (table : DictTable) :
    Option (Except CoreError Bytes) :=
  (view.window record).map fun raw => decodeDrop z record raw table

/-- The new record stands for the same drop and decodes to the same result. -/
structure SameRecord (z : Omnizip) (view view' : SlabView) (src new : DropRecord) : Prop where
  dropId : new.dropId = src.dropId
  plaintextLen : new.plaintextLen = src.plaintextLen
  codec : new.representation.codec = src.representation.codec
  flags : new.flags = src.flags
  dictId : new.dictId = src.dictId
  read : ∀ table, view'.read z new table = view.read z src table

/-- A record that survives being made again: no dictionary, a window inside the slab, and if it
is no container then no encryption and the first window. -/
structure Keepable (view : SlabView) (record : DropRecord) : Prop where
  dictId : record.dictId = noDict
  window : (view.window record).isSome = true
  plain : record.flags &&& dropFlagSeekable ≠ 0 ∨
    (record.representation.aead = 0 ∧ record.solidWindowIndex = 0)

section

variable {H : Hash} {z : Omnizip}

/-- A container without a dictionary decodes whatever else its record says. -/
theorem decodeDrop_seekable {record : DropRecord} {raw : Bytes} {table : DictTable}
    (hseek : record.flags &&& dropFlagSeekable ≠ 0) (hdict : record.dictId = noDict) :
    decodeDrop z record raw table
      = decodeStored z record.representation.codec record.flags raw record.plaintextLen := by
  unfold decodeDrop decodeStored
  rw [if_pos hseek, if_pos hseek, if_neg (by rw [hdict]; decide)]

theorem Keepable.decodeDrop {view : SlabView} {record : DropRecord} (h : Keepable view record)
    (raw : Bytes) (table : DictTable) :
    decodeDrop z record raw table
      = decodeStored z record.representation.codec record.flags raw record.plaintextLen := by
  rcases h.plain with hseek | ⟨haead, hindex⟩
  · exact decodeDrop_seekable hseek h.dictId
  · exact decodeDrop_plain h.dictId haead hindex

theorem take_toList_append {n : Nat} {s : String} (h : n ≤ s.toList.length) (t : String) :
    (s ++ t).toList.take n = s.toList.take n := by
  rw [String.toList_append, List.take_append_of_le_length h]

theorem unregistered_text (z : Omnizip) (id : UInt8) :
    ∃ rest, unregistered z "decompress" id = .unsupportedFeature ("decompress" ++ rest) := by
  unfold unregistered
  simp only [String.append_assoc]
  exact ⟨_, rfl⟩

theorem unregistered_ne_refusal (id : UInt8) (text : String) :
    unregistered z "decompress" id ≠ .unsupportedFeature ("drop aead " ++ text) ∧
      unregistered z "decompress" id ≠ .unsupportedFeature ("solid_window_index " ++ text) := by
  -- the first two letters are enough
  obtain ⟨rest, hrest⟩ := unregistered_text z id
  have hregistry := take_toList_append (n := 2) (s := "decompress") (by decide) rest
  rw [hrest]
  constructor
  · intro h
    have htext := congrArg (fun s => s.toList.take 2) (CoreError.unsupportedFeature.inj h)
    simp only [hregistry, take_toList_append (n := 2) (s := "drop aead ") (by decide)] at htext
    revert htext
    decide
  · intro h
    have htext := congrArg (fun s => s.toList.take 2) (CoreError.unsupportedFeature.inj h)
    simp only [hregistry, take_toList_append (n := 2) (s := "solid_window_index ") (by decide)]
      at htext
    revert htext
    decide

theorem plain_of_decodes {record : DropRecord} {raw raw' : Bytes} {table : DictTable}
    (hseek : record.flags &&& dropFlagSeekable = 0)
    (h : decompress z record.representation.codec raw' record.plaintextLen
      = decodeDrop z record raw table) :
    record.representation.aead = 0 ∧ record.solidWindowIndex = 0 := by
  have hfail : ∀ {feature : String}, decodeDrop z record raw table
      = .error (.unsupportedFeature feature) →
      .unsupportedFeature feature = unregistered z "decompress" record.representation.codec := by
    intro feature hdrop
    rw [hdrop] at h
    rcases decompress_error h with ⟨reason, hreason⟩ | hunreg
    · cases hreason
    · exact hunreg
  have haead : record.representation.aead = 0 := by
    by_contra hne
    have hdrop : decodeDrop z record raw table = .error (.unsupportedFeature ("drop aead "
        ++ (hex2 record.representation.aead ++ " (only plaintext/0x00 supported in v0.1)"))) := by
      unfold decodeDrop
      rw [if_neg (Decidable.not_not.mpr hseek), if_pos hne, String.append_assoc]
    exact (unregistered_ne_refusal record.representation.codec _).1 (hfail hdrop).symm
  refine ⟨haead, ?_⟩
  by_contra hne
  have hdrop : decodeDrop z record raw table = .error (.unsupportedFeature
      ("solid_window_index " ++ (toString record.solidWindowIndex
        ++ " (only single-window slabs supported in v0.1)"))) := by
    unfold decodeDrop
    rw [if_neg (Decidable.not_not.mpr hseek), if_neg (Decidable.not_not.mpr haead), if_pos hne,
      ← String.append_assoc]
    rfl
  exact (unregistered_ne_refusal record.representation.codec _).2 (hfail hdrop).symm

theorem sameRecord_of_keepable {view : SlabView} {kept : List ExtractedDrop}
    {src new : DropRecord} {d : ExtractedDrop} (hkeep : Keepable view src)
    (hextract : extractDrop view src = some d) (hnew : CompactedAs H kept new d) :
    SameRecord z view (compactedView H kept) src new := by
  obtain ⟨raw, hraw, rfl⟩ := Option.map_eq_some_iff.mp hextract
  obtain ⟨hrec, hwindow⟩ := hnew
  refine ⟨?_, ?_, ?_, ?_, ?_, ?_⟩
  · rw [hrec]; rfl
  · rw [hrec]; rfl
  · rw [hrec]; rfl
  · rw [hrec]; rfl
  · rw [hkeep.dictId, hrec]; rfl
  · intro table
    have hdec : decodeDrop z new raw table = decodeStored z src.representation.codec src.flags
        raw src.plaintextLen := by
      rw [hrec]
      exact decodeDrop_plain rfl rfl rfl
    unfold SlabView.read
    rw [hwindow, hraw, Option.map_some, Option.map_some, hdec, hkeep.decodeDrop]

theorem keepable_of_sameRecord {view : SlabView} {kept : List ExtractedDrop}
    {src new : DropRecord} (hsame : SameRecord z view (compactedView H kept) src new)
    (hnew : ∃ d, CompactedAs H kept new d) : Keepable view src := by
  obtain ⟨d, hrec, hwindow⟩ := hnew
  have hread := hsame.read (fun _ => none)
  have hdec : decodeDrop z new d.compressed (fun _ => none) = decodeStored z
      new.representation.codec new.flags d.compressed new.plaintextLen := by
    refine decodeDrop_plain ?_ ?_ ?_ <;> rw [hrec] <;> rfl
  unfold SlabView.read at hread
  rw [hwindow, Option.map_some, hdec, hsame.codec, hsame.flags, hsame.plaintextLen] at hread
  rcases hraw : view.window src with _ | raw
  · rw [hraw] at hread
    cases hread
  rw [hraw, Option.map_some] at hread
  refine ⟨?_, by rw [hraw]; rfl, ?_⟩
  · rw [← hsame.dictId, hrec]
    rfl
  · by_cases hseek : src.flags &&& dropFlagSeekable = 0
    · unfold decodeStored at hread
      rw [if_neg (Decidable.not_not.mpr hseek)] at hread
      exact Or.inr (plain_of_decodes hseek (Option.some.inj hread))
    · exact Or.inl hseek

/-! ### The whole slab -/

/-- Made again from a compacted slab, the drops are the same. -/
theorem keptDrops_compactedView {kept : List ExtractedDrop} {referenced : List Digest}
    (hrecords : List.Forall₂ (CompactedAs H kept) (compactedRecords 0 kept) kept)
    (href : ∀ d ∈ kept, d.id ∈ referenced) :
    keptDrops (compactedView H kept) referenced = kept := by
  show ((compactedRecords 0 kept).filter _).filterMap (extractDrop (compactedView H kept)) = kept
  have hgen : ∀ (records : List DropRecord) (drops : List ExtractedDrop),
      List.Forall₂ (CompactedAs H kept) records drops → (∀ d ∈ drops, d.id ∈ referenced) →
      (records.filter fun r => r.dropId ∈ referenced).filterMap
        (extractDrop (compactedView H kept)) = drops := by
    intro records drops hall
    induction hall with
    | nil => intro _; rfl
    | @cons r d records drops hrd _ ih =>
        intro hids
        obtain ⟨hrec, hwindow⟩ := hrd
        have hid : r.dropId = d.id := by rw [hrec]; rfl
        have hextract : extractDrop (compactedView H kept) r = some d := by
          unfold extractDrop
          rw [hwindow, hrec]
          rfl
        rw [List.filter_cons_of_pos (by rw [hid]; simpa using hids d List.mem_cons_self),
          List.filterMap_cons_some hextract, ih fun d' hd' => hids d' (List.mem_cons_of_mem _ hd')]
  exact hgen _ _ hrecords href

/-- What a compaction ought to achieve: the new slab is accepted, its records are the referenced
ones of the old slab in order, and compacting again changes nothing. -/
def CompactionPreserves (H : Hash) (z : Omnizip) (view : SlabView) (referenced : List Digest)
    (r : CompactionResult) : Prop :=
  ∃ newSlab view', r.slabBytes = some newSlab ∧ parseSlab newSlab = .ok view' ∧
    List.Forall₂ (SameRecord z view view') (referencedRecords view referenced) view'.dropRecords ∧
    ∃ r', compactImage H z r.manifestBytes newSlab = .ok r' ∧ r'.slabBytes = some newSlab ∧
      r'.manifestBytes = r.manifestBytes

/-- A compacted image compacts to itself. -/
theorem compactImage_idempotent {manifest slab : Bytes} {r : CompactionResult}
    (h : compactImage H z manifest slab = .ok r) :
    ∃ newSlab r', r.slabBytes = some newSlab ∧ compactImage H z r.manifestBytes newSlab = .ok r' ∧
      r'.slabBytes = some newSlab ∧ r'.manifestBytes = r.manifestBytes := by
  obtain ⟨front, rest, referenced, view, hfront, href, hview, hslab, hman⟩ := compactImage_ok h
  obtain ⟨hparse, hrecords⟩ := parseSlab_compacted H hview referenced
  have hids : ∀ d ∈ keptDrops view referenced, d.id ∈ referenced := by
    intro d hd
    obtain ⟨rec, -, hmem, hextract⟩ := mem_keptDrops hd
    obtain ⟨raw, -, rfl⟩ := Option.map_eq_some_iff.mp hextract
    exact hmem
  have hbytes := congrArg Prod.fst hman
  have hord : (encodeCompactedSlab H (keptDrops view referenced)).2.ordinal < 2 ^ 64 :=
    Nat.two_pow_pos 64
  obtain ⟨r', hr', hslab', hman'⟩ := compactImage_reassembled (H := H)
    (parseManifestFront_ok hfront).2 href hparse hord
  rw [keptDrops_compactedView hrecords hids] at hslab' hman'
  refine ⟨_, r', hslab, ?_, hslab', ?_⟩
  · rw [show r.manifestBytes = _ from hbytes]
    exact hr'
  · rw [show r.manifestBytes = _ from hbytes]
    exact hman'

/-- The ids a compaction worked with, and the slab it wrote. -/
theorem compactImage_slab {manifest slab : Bytes} {view : SlabView} {referenced : List Digest}
    {r : CompactionResult} (hslab : parseSlab slab = .ok view)
    (href : referencedByManifest z manifest = .ok referenced)
    (h : compactImage H z manifest slab = .ok r) :
    r.slabBytes = some (encodeCompactedSlab H (keptDrops view referenced)).1 := by
  obtain ⟨front, rest, referenced', view', hfront, href', hview, hbytes, -⟩ := compactImage_ok h
  rw [hslab] at hview
  cases hview
  unfold referencedByManifest at href
  simp only [hfront, href'] at href
  split at href
  · cases href
  · cases href
    exact hbytes

theorem mem_referencedRecords {view : SlabView} {referenced : List Digest} {record : DropRecord} :
    record ∈ referencedRecords view referenced ↔
      record ∈ view.dropRecords ∧ record.dropId ∈ referenced := by
  unfold referencedRecords
  rw [List.mem_filter, decide_eq_true_eq]

/-- A slab that is preserved had only keepable records. -/
theorem keepable_of_preserves {manifest slab : Bytes} {view : SlabView}
    {referenced : List Digest} {r : CompactionResult} (hslab : parseSlab slab = .ok view)
    (href : referencedByManifest z manifest = .ok referenced)
    (h : compactImage H z manifest slab = .ok r)
    (hpreserves : CompactionPreserves H z view referenced r) :
    ∀ record ∈ view.dropRecords, record.dropId ∈ referenced → Keepable view record := by
  intro record hrec hid
  have hbytes := compactImage_slab hslab href h
  obtain ⟨hparse, hrecords⟩ := parseSlab_compacted H hslab referenced
  have hmade : ∀ new ∈ compactedRecords 0 (keptDrops view referenced),
      ∃ d, CompactedAs H (keptDrops view referenced) new d :=
    forall_mem_of_forall₂ hrecords (Q := fun _ => True) (fun _ _ => trivial)
      fun new d hnew _ => ⟨d, hnew⟩
  obtain ⟨newSlab, newView, hnew, hnewView, hall, -⟩ := hpreserves
  rw [hbytes] at hnew
  cases hnew
  rw [hparse] at hnewView
  cases hnewView
  exact forall_mem_of_forall₂ hall hmade (fun src new hs hn => keepable_of_sameRecord hs hn)
    record (mem_referencedRecords.mpr ⟨hrec, hid⟩)

/--
**When compaction preserves a slab.**  A successful compaction keeps every referenced record
readable as it was exactly when every referenced record is keepable.
-/
theorem compaction_preserves_iff {manifest slab : Bytes} {view : SlabView}
    {referenced : List Digest} {r : CompactionResult} (hslab : parseSlab slab = .ok view)
    (href : referencedByManifest z manifest = .ok referenced)
    (h : compactImage H z manifest slab = .ok r) :
    CompactionPreserves H z view referenced r ↔
      ∀ record ∈ view.dropRecords, record.dropId ∈ referenced → Keepable view record := by
  refine ⟨keepable_of_preserves hslab href h, fun hkeep => ?_⟩
  have hbytes := compactImage_slab hslab href h
  obtain ⟨hparse, hrecords⟩ := parseSlab_compacted H hslab referenced
  obtain ⟨newSlab, r', hnew, hagain⟩ := compactImage_idempotent h
  rw [hbytes] at hnew
  cases hnew
  refine ⟨_, _, hbytes, hparse, ?_, r', hagain⟩
  have hkeep' : ∀ record ∈ referencedRecords view referenced, Keepable view record := by
    intro record hrec
    obtain ⟨hmem, hid⟩ := mem_referencedRecords.mp hrec
    exact hkeep record hmem hid
  have hextract : List.Forall₂ (fun record drop => extractDrop view record = some drop)
      (referencedRecords view referenced)
      ((referencedRecords view referenced).filterMap (extractDrop view)) := by
    refine forall₂_filterMap ?_
    intro record hrec
    unfold extractDrop
    rw [Option.isSome_map]
    exact (hkeep' record hrec).window
  have hboth := (List.forall₂_and_left _ _).mpr ⟨hkeep', hextract⟩
  exact forall₂_join (S := CompactedAs H (keptDrops view referenced))
    (fun src new d hsrc hn => sameRecord_of_keepable hsrc.1 hsrc.2 hn) hboth hrecords

end

namespace Stored

/-- A tree of one file of four bytes, kept in `drop`. -/
def oneFile (drop : PendingDrop) (dicts : TrainedDicts) : WriteContext where
  inodes := [⟨1, 0x41ED, 0, 0, 0, [], .directory [⟨ascii "f", 2, EntryType.file⟩]⟩,
    ⟨2, 0x81A4, 0, 0, 0, [], .dropBacked 4 [⟨drop.id, 0, 4⟩]⟩]
  dirNodes := [⟨[⟨ascii "f", 2, EntryType.file⟩], dirNodeBytes [⟨ascii "f", 2, EntryType.file⟩],
    dirNodeHash foldDigest [⟨ascii "f", 2, EntryType.file⟩]⟩]
  drops := [drop]
  nlinkCounts := fun _ => none
  inodeXattrs := fun _ => none
  emitSharedInline := true
  metadataCodec := codecBrotli
  metadataExternalizeThreshold := 1000 * 1024
  trainedDicts := dicts
  baseRoot := none
  fileCount := 1
  dirCount := 1
  rootInodeNumber := 1

/-- The file's drop, with and without a dictionary. -/
def fileDrop (dictId : UInt8) : PendingDrop where
  id := foldDigest (ascii "abcd")
  plaintextLen := 4
  compressed := if dictId = noDict then ascii "abcd" else 1 :: ascii "d"
  codec := codecZstd
  dictId := dictId
  plaintext := none
  flags := 0

def fileImage (dictId : UInt8) : WriteArtifact :=
  (assemble foldDigest omnizip (oneFile (fileDrop dictId)
    (if dictId = noDict then .none else textDict))).getD ⟨[], zeroDigest, [], none, 0, 0, 0, 0, 0⟩

def fileSlab (dictId : UInt8) : Bytes := (fileImage dictId).slabs.flatMap (·.bytes)

end Stored

open LimniFS.Stored

/-- The image of one file whose drop needs the text dictionary: the compacted record has none. -/
theorem dictionary_lost_in_compaction :
    ∃ view referenced r, parseSlab (fileSlab 0) = .ok view ∧
      referencedByManifest omnizip (fileImage 0).bytes = .ok referenced ∧
      compactImage foldDigest omnizip (fileImage 0).bytes
        (fileSlab 0) = .ok r ∧
      ¬ CompactionPreserves foldDigest omnizip view referenced r := by
  obtain ⟨r, hr⟩ := exists_eq_ok (x := compactImage foldDigest omnizip
    (fileImage 0).bytes (fileSlab 0)) (by decide +kernel)
  obtain ⟨view, referenced, hview, href, hneeds⟩ := exists_both_ok
    (x := parseSlab (fileSlab 0))
    (y := referencedByManifest omnizip (fileImage 0).bytes)
    (P := fun view referenced => view.dropRecords.any fun record =>
      record.dropId ∈ referenced && record.dictId != noDict) (by decide +kernel)
  obtain ⟨record, hmem, hrec⟩ := List.any_eq_true.mp hneeds
  rw [Bool.and_eq_true, decide_eq_true_eq, bne_iff_ne] at hrec
  refine ⟨view, referenced, r, hview, href, hr, fun hpreserves => ?_⟩
  exact hrec.2 (keepable_of_preserves hview href hr hpreserves record hmem hrec.1).dictId

/-- The same file without a dictionary. -/
theorem compaction_preserves_iff_plain :
    ∃ view referenced r, parseSlab (fileSlab noDict) = .ok view ∧
      referencedByManifest omnizip (fileImage noDict).bytes = .ok referenced ∧
      compactImage foldDigest omnizip (fileImage noDict).bytes
        (fileSlab noDict) = .ok r ∧
      (CompactionPreserves foldDigest omnizip view referenced r ↔
        ∀ record ∈ view.dropRecords, record.dropId ∈ referenced → Keepable view record) := by
  obtain ⟨view, hview⟩ := exists_eq_ok (x := parseSlab (fileSlab noDict))
    (by decide +kernel)
  obtain ⟨referenced, href⟩ := exists_eq_ok (x := referencedByManifest omnizip
    (fileImage noDict).bytes) (by decide +kernel)
  obtain ⟨r, hr⟩ := exists_eq_ok (x := compactImage foldDigest omnizip
    (fileImage noDict).bytes (fileSlab noDict)) (by decide +kernel)
  exact ⟨view, referenced, r, hview, href, hr, compaction_preserves_iff hview href hr⟩

end LimniFS
