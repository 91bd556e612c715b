/-
Slab compaction.

`compactImage` takes a manifest and one slab, collects the drop ids that the slice
maps of the inlined metadata refer to, and writes a new slab with the records of
those drops and a new manifest around it: header, flags and metadata reference as
they were, one slab, one turnover entry.

A record is not copied but made again from some of its fields.  The codec, the flags
and the plaintext length are kept; the dictionary id, the encryption tag and the
window index are not, and a record whose window does not lie inside the slab is left
out.  `compaction_preserves_iff` says that these are all the ways a referenced drop is
lost, and that compacting again changes nothing in any case.
-/
import LimniFS.RootAgreement

namespace LimniFS

open Lib Lib.Parser Cursor

/-! ### The slab -/

/-- A drop taken out of the source slab. -/
structure ExtractedDrop where
  id : Digest
  compressed : Bytes
  codec : UInt8
  plaintextLen : Nat
  flags : UInt8
  deriving DecidableEq

/-- The drops that inlined metadata refers to; metadata in a sidecar refers to none. -/
def findReferencedDrops (ref : MetadataReference) : Except CoreError (List Digest) :=
  match ref.inlineMetadata with
  | none => .ok []
  | some blobBytes =>
    match parseMetadataBlob blobBytes with
    | (.error e, _) => .error e
    | (.ok blob, _) => .ok (blob.inodes.flatMap fun inode => inode.slices.map (·.dropId))

/-- What is kept of a record; nothing if its window is outside the slab. -/
def extractDrop (view : SlabView) (record : DropRecord) : Option ExtractedDrop :=
  (view.window record).map fun raw =>
    ⟨record.dropId, raw, record.representation.codec, record.plaintextLen, record.flags⟩

/-- The records of a slab that are referred to. -/
def referencedRecords (view : SlabView) (referenced : List Digest) : List DropRecord :=
  view.dropRecords.filter fun record => record.dropId ∈ referenced

def keptDrops (view : SlabView) (referenced : List Digest) : List ExtractedDrop :=
  (referencedRecords view referenced).filterMap (extractDrop view)

/-- `u32::try_from(n).unwrap_or(0)`. -/
def u32OrZero (n : Nat) : Nat := if n < u32Limit then n else 0

def compactedRecords : Nat → List ExtractedDrop → List DropRecord
  | _, [] => []
  | offset, d :: rest =>
    { dropId := d.id
      plaintextLen := d.plaintextLen
      representation := ⟨d.codec, 0, 0⟩
      solidWindowIndex := 0
      offsetInWindow := u32OrZero offset
      lenInWindow := u32OrZero d.compressed.length
      dictId := noDict
      flags := d.flags } :: compactedRecords (offset + d.compressed.length) rest

def compactedWindow (drops : List ExtractedDrop) : Bytes := drops.flatMap (·.compressed)

def encodeCompactedSlab (H : Hash) (drops : List ExtractedDrop) : Bytes × SlabId :=
  let records := compactedRecords 0 drops
  let window := compactedWindow drops
  (slabBytes (slabHeaderOf H 0 records window) records window, slabIdOf H 0 records window)

/-! ### The manifest -/

structure CompactionResult where
  manifestBytes : Bytes
  merkleRoot : Digest
  slabBytes : Option Bytes
  originalDropCount : Nat
  compactedDropCount : Nat
  reclaimedDrops : Nat

section

variable (H : Hash) (z : Omnizip)

def compactedLocator : Bytes := ascii "file:slab-0.bin"

/-- The index of a compacted image has one slab. -/
def compactedIndex (slabId : SlabId) : SlabIndex := ⟨[⟨slabId, [⟨compactedLocator⟩]⟩]⟩

/-- The new manifest and its root. -/
def reassembledManifest (front : ManifestFront) (slabId : SlabId) : Bytes × Digest :=
  let slabIndex := slabIndexBytes (compactedIndex slabId)
  let history := historyBytes .turnover
  (front.bytes ++ (slabIndex ++ history),
    computeMerkleRoot H
      { metadata := front.metadataReference.metadataHash
        formatHeader := hashSection H front.headerBytes
        featureFlags := hashSection H front.flagsBytes
        metadataReference := hashSection H front.metadataReferenceBytes
        slabIndex := hashSection H slabIndex
        cryptoParams := hashEmptySection H
        ecParams := hashEmptySection H
        dmsPolicy := hashEmptySection H
        deltaLinkage := hashEmptySection H
        history := hashSection H history })

def reassembleManifest (source : Bytes) (slabId : SlabId) : Except CoreError (Bytes × Digest) :=
  let sections : CoreParser ManifestFront := do
    let front ← parseManifestFront z
    let _ ← parseSlabIndex
    let _ ← parseHistory
    pure front
  match sections source with
  | (.error e, _) => .error e
  | (.ok front, _) => .ok (reassembledManifest H front slabId)

/-- The ids the manifest refers to, once its index has parsed too. -/
def referencedByManifest (manifest : Bytes) : Except CoreError (List Digest) :=
  match parseManifestFront z manifest with
  | (.error e, _) => .error e
  | (.ok front, rest) =>
    match findReferencedDrops front.metadataReference with
    | .error e => .error e
    | .ok referenced =>
      match parseSlabIndex rest with
      | (.error e, _) => .error e
      | (.ok _, _) => .ok referenced

def compactImage (manifest slab : Bytes) : Except CoreError CompactionResult :=
  match referencedByManifest z manifest with
  | .error e => .error e
  | .ok referenced =>
    match parseSlab slab with
    | .error e => .error e
    | .ok view =>
      let kept := keptDrops view referenced
      let newSlab := encodeCompactedSlab H kept
      match reassembleManifest H z manifest newSlab.2 with
      | .error e => .error e
      | .ok (bytes, root) => .ok
        { manifestBytes := bytes
          merkleRoot := root
          slabBytes := some newSlab.1
          originalDropCount := view.dropRecords.length
          compactedDropCount := kept.length
          reclaimedDrops := view.dropRecords.length - kept.length }

end

/-! ### The new slab is read back -/

/-- An extracted drop as the packer has it. -/
def ExtractedDrop.pending (d : ExtractedDrop) : PendingDrop :=
  ⟨d.id, d.plaintextLen, d.compressed, d.codec, noDict, none, d.flags⟩

theorem u32OrZero_of_lt {n : Nat} (h : n < u32Limit) : u32OrZero n = n := if_pos h

theorem solidWindow_pending (drops : List ExtractedDrop) :
    solidWindow (drops.map ExtractedDrop.pending) = compactedWindow drops := by
  unfold solidWindow compactedWindow
  rw [List.flatMap_map]
  rfl

theorem recordsFrom_pending :
    ∀ (drops : List ExtractedDrop) (offset : Nat),
      offset + (compactedWindow drops).length < u32Limit →
      recordsFrom offset (drops.map ExtractedDrop.pending)
        = some (compactedRecords offset drops) := by
  intro drops
  induction drops with
  | nil => intro offset _; rfl
  | cons d rest ih =>
      intro offset h
      have hwin : (compactedWindow (d :: rest)).length
          = d.compressed.length + (compactedWindow rest).length := by
        simp [compactedWindow]
      rw [hwin] at h
      have hoff : offset < u32Limit := by omega
      have hlen : d.compressed.length < u32Limit := by omega
      rw [List.map_cons]
      unfold recordsFrom compactedRecords
      rw [if_pos (show offset + d.pending.compressed.length < u32Limit by
        show offset + d.compressed.length < u32Limit; omega)]
      have hrest := ih (offset + d.compressed.length) (by omega)
      rw [show recordsFrom (offset + d.pending.compressed.length) _ = _ from hrest,
        u32OrZero_of_lt hoff, u32OrZero_of_lt hlen]
      rfl

theorem extracted_length_le (view : SlabView) (records : List DropRecord) :
    (records.filterMap (extractDrop view)).length ≤ records.length ∧
      (compactedWindow (records.filterMap (extractDrop view))).length ≤ windowLenSum records := by
  induction records with
  | nil => exact ⟨Nat.le_refl 0, Nat.le_refl 0⟩
  | cons r rest ih =>
      rw [windowLenSum_cons, List.length_cons]
      rcases hr : extractDrop view r with _ | d
      · rw [List.filterMap_cons_none hr]
        omega
      · have hlen : d.compressed.length ≤ r.lenInWindow := by
          obtain ⟨raw, hraw, rfl⟩ := Option.map_eq_some_iff.mp hr
          unfold SlabView.window at hraw
          simp only at hraw
          split at hraw
          · cases hraw
          · rw [← Option.some.inj hraw]
            exact List.length_take_le _ _
        rw [List.filterMap_cons_some hr, List.length_cons]
        have hwin : (compactedWindow (d :: rest.filterMap (extractDrop view))).length
            = d.compressed.length
              + (compactedWindow (rest.filterMap (extractDrop view))).length := by
          simp [compactedWindow]
        omega

theorem windowLenSum_filter_le (p : DropRecord → Bool) (records : List DropRecord) :
    windowLenSum (records.filter p) ≤ windowLenSum records := by
  induction records with
  | nil => exact Nat.le_refl 0
  | cons r rest ih =>
      rw [windowLenSum_cons, List.filter_cons]
      split
      · rw [windowLenSum_cons]
        omega
      · omega

/-- The view of a compacted slab. -/
def compactedView (H : Hash) (kept : List ExtractedDrop) : SlabView where
  bytes := (encodeCompactedSlab H kept).1
  header := slabHeaderOf H 0 (compactedRecords 0 kept) (compactedWindow kept)
  dropRecords := compactedRecords 0 kept
  solidWindowStart := slabHeaderLen + (compactedRecords 0 kept).length * dropRecordLen

theorem compactedRecords_length (drops : List ExtractedDrop) :
    ∀ offset, (compactedRecords offset drops).length = drops.length := by
  induction drops with
  | nil => intro _; rfl
  | cons d rest ih => intro offset; rw [compactedRecords, List.length_cons, ih, List.length_cons]

theorem mem_keptDrops {view : SlabView} {referenced : List Digest} {d : ExtractedDrop}
    (h : d ∈ keptDrops view referenced) :
    ∃ r ∈ view.dropRecords, r.dropId ∈ referenced ∧ extractDrop view r = some d := by
  obtain ⟨r, hr, hd⟩ := List.mem_filterMap.mp h
  obtain ⟨hmem, href⟩ := List.mem_filter.mp hr
  exact ⟨r, hmem, by simpa using href, hd⟩

/-- A compacted record and the drop it was made of. -/
def CompactedAs (H : Hash) (kept : List ExtractedDrop) (r : DropRecord) (d : ExtractedDrop) :
    Prop :=
  r = d.pending.record r.offsetInWindow ∧ (compactedView H kept).window r = some d.compressed

/-- **A compacted slab is accepted, and each of its records finds its bytes.** -/
theorem parseSlab_compacted (H : Hash) {slab : Bytes} {view : SlabView}
    (h : parseSlab slab = .ok view) (referenced : List Digest) :
    parseSlab (encodeCompactedSlab H (keptDrops view referenced)).1
        = .ok (compactedView H (keptDrops view referenced)) ∧
      List.Forall₂ (CompactedAs H (keptDrops view referenced))
        (compactedRecords 0 (keptDrops view referenced)) (keptDrops view referenced) := by
  obtain ⟨-, hvalid, hstart, htotal, hceil⟩ := parseSlab_ok h
  obtain ⟨hcount, hwin⟩ := extracted_length_le view (referencedRecords view referenced)
  have hfilter := windowLenSum_filter_le (fun r => decide (r.dropId ∈ referenced))
    view.dropRecords
  have hfewer : (referencedRecords view referenced).length ≤ view.dropRecords.length :=
    List.length_filter_le _ _
  have hmem := @mem_keptDrops view referenced
  change (keptDrops view referenced).length ≤ _ at hcount
  change (compactedWindow (keptDrops view referenced)).length ≤ _ at hwin
  change windowLenSum (referencedRecords view referenced) ≤ _ at hfilter
  generalize keptDrops view referenced = kept at hcount hwin hmem ⊢
  unfold defaultSlabMaxBytes slabHeaderLen dropRecordLen at *
  have hrec := recordsFrom_pending kept 0 (by unfold u32Limit; omega)
  have hrecords := window_of_recordsFrom hrec
  have hend := window_le_of_recordsFrom _ _ _ hrec
  have hsum := windowLenSum_recordsFrom _ _ _ hrec
  have hlen := compactedRecords_length kept 0
  rw [solidWindow_pending] at hrecords hend hsum
  rw [List.forall₂_map_right_iff] at hrecords
  constructor
  · refine parseSlab_slabBytes ?_ ?_ hsum ?_
    · refine ⟨Nat.two_pow_pos 64, ?_, ?_, (by decide : (0 : UInt8) ≠ 0xFF),
        (by decide : (0 : UInt8) ≠ 0xFF)⟩
      · exact Nat.le_add_right _ _
      · show slabHeaderLen + (List.flatMap DropRecord.toBytes (compactedRecords 0 kept)
          ++ compactedWindow kept).length ≤ _
        rw [List.length_append, flatMap_toBytes_length, hlen]
        unfold defaultSlabMaxBytes slabHeaderLen dropRecordLen
        omega
    · refine (forall_mem_iff_of_forall₂
        (Q := fun d : ExtractedDrop => d.plaintextLen ≤ defaultDropMaxPlaintextBytes)
        hrecords ?_).mpr ?_
      · rintro r d ⟨hr, hu32, -⟩
        constructor
        · intro hv
          have hplain := hv.plaintextLen
          rw [hr] at hplain
          exact hplain
        · intro hd
          refine ⟨?_, Or.inr ?_, Or.inr ?_, hu32⟩
          · rw [hr]
            exact hd
          · rw [hr]
            rfl
          · rw [hr]
            rfl
      · intro d hd
        obtain ⟨r, hr, -, hextract⟩ := hmem hd
        obtain ⟨raw, -, rfl⟩ := Option.map_eq_some_iff.mp hextract
        exact (hvalid r hr).plaintextLen
    · rw [slabBytes_length]
      show slabHeaderLen + (List.flatMap DropRecord.toBytes (compactedRecords 0 kept)
          ++ compactedWindow kept).length = _
      rw [List.length_append, flatMap_toBytes_length]
  · refine ((List.forall₂_and_left _ _).mpr ⟨hend, hrecords⟩).imp ?_
    rintro r d ⟨hle, hr, -, hcut⟩
    refine ⟨hr, ?_⟩
    rw [Nat.zero_add] at hle
    have hwindow := window_slabBytes (slabHeaderOf H 0 (compactedRecords 0 kept)
      (compactedWindow kept)) (compactedRecords 0 kept) hle
    rw [hcut] at hwindow
    exact hwindow

/-! ### The new manifest is read back -/

section

variable {H : Hash} {z : Omnizip}

theorem writable_compactedIndex {slabId : SlabId} (h : slabId.ordinal < 2 ^ 64) :
    (compactedIndex slabId).Writable where
  count := (by decide : 1 < u32Limit)
  locator entry hentry := by
    obtain rfl := List.mem_singleton.mp hentry
    refine ⟨compactedLocator, rfl, ⟨ascii "slab-0.bin", rfl, by decide +kernel⟩, by decide +kernel,
      by decide +kernel⟩
  ordinal entry hentry := by
    obtain rfl := List.mem_singleton.mp hentry
    exact h
  distinct := List.pairwise_singleton _ _

/-- What a compaction that succeeds has read and written. -/
theorem compactImage_ok {manifest slab : Bytes} {r : CompactionResult}
    (h : compactImage H z manifest slab = .ok r) :
    ∃ front rest referenced view, parseManifestFront z manifest = (.ok front, rest) ∧
      findReferencedDrops front.metadataReference = .ok referenced ∧
      parseSlab slab = .ok view ∧
      r.slabBytes = some (encodeCompactedSlab H (keptDrops view referenced)).1 ∧
      (r.manifestBytes, r.merkleRoot) = reassembledManifest H front
        (encodeCompactedSlab H (keptDrops view referenced)).2 := by
  unfold compactImage referencedByManifest at h
  rcases hfront : parseManifestFront z manifest with ⟨e | front, rest⟩
  · rw [hfront] at h
    cases h
  rw [hfront] at h
  rcases href : findReferencedDrops front.metadataReference with e | referenced
  · simp only [href] at h
    cases h
  simp only [href] at h
  rcases hindex : parseSlabIndex rest with ⟨e | index, rest'⟩
  · simp only [hindex] at h
    cases h
  simp only [hindex] at h
  rcases hview : parseSlab slab with e | view
  · simp only [hview] at h
    cases h
  simp only [hview] at h
  rcases hre : reassembleManifest H z manifest
      (encodeCompactedSlab H (keptDrops view referenced)).2 with e | ⟨bytes, root⟩
  · simp only [hre] at h
    cases h
  simp only [hre] at h
  cases h
  refine ⟨front, rest, referenced, view, rfl, href, rfl, rfl, ?_⟩
  unfold reassembleManifest at hre
  simp only [bind_apply, hfront, hindex] at hre
  rcases hhist : parseHistory rest' with ⟨e | history, rest''⟩
  · simp only [hhist] at hre
    cases hre
  · simp only [hhist] at hre
    exact (Except.ok.inj hre).symm

/-- **A reassembled manifest compacts to itself** around any slab. -/
theorem compactImage_reassembled {front : ManifestFront} {referenced : List Digest}
    {slab : Bytes} {view : SlabView} {slabId : SlabId}
    (hfront : Reads (parseManifestFront z) front.bytes front)
    (href : findReferencedDrops front.metadataReference = .ok referenced)
    (hslab : parseSlab slab = .ok view) (hord : slabId.ordinal < 2 ^ 64) :
    ∃ r, compactImage H z (reassembledManifest H front slabId).1 slab = .ok r ∧
      r.slabBytes = some (encodeCompactedSlab H (keptDrops view referenced)).1 ∧
      r.manifestBytes = (reassembledManifest H front
        (encodeCompactedSlab H (keptDrops view referenced)).2).1 := by
  have hindex := reads_parseSlabIndex (writable_compactedIndex hord)
  have hhist := reads_parseHistory .turnover []
  rw [List.append_nil] at hhist
  have hsource := hfront (slabIndexBytes (compactedIndex slabId) ++ historyBytes .turnover)
  have hre : ∀ id, reassembleManifest H z (reassembledManifest H front slabId).1 id
      = .ok (reassembledManifest H front id) := by
    intro id
    unfold reassembleManifest
    simp only [bind_apply]
    rw [show parseManifestFront z (reassembledManifest H front slabId).1 = _ from hsource]
    simp only [hindex _, hhist]
    rfl
  unfold compactImage referencedByManifest
  rw [show parseManifestFront z (reassembledManifest H front slabId).1 = _ from hsource]
  simp only [href, hindex _, hslab, hre]
  exact ⟨_, rfl, rfl, rfl⟩

end

end LimniFS
