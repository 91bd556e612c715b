/-
Reading the drops of one slab in memory.

A view finds the first record of an id, asks whether it may be read, cuts its window out
of the slab and decodes the bytes.  The gates and the decoder are the ones the paged
reader uses too; the store of `SlabStore` has its own.

`slab_round_trip` is the format seen from outside: records whose windows lie one behind
the other are read back with exactly their payloads, and whatever is accepted is as long
as its parts together.
-/
import LimniFS.SlabStore

namespace LimniFS

open Lib

/-! ### The gates and the decoder -/

def checkDropReadable (record : DropRecord) : Except CoreError Unit :=
  if record.representation.aead ≠ 0 then
    .error (.unsupportedFeature ("drop aead " ++ hex2 record.representation.aead
      ++ " (only plaintext/0x00 supported in v0.1)"))
  else if record.solidWindowIndex ≠ 0 then
    .error (.unsupportedFeature (s!"solid_window_index {record.solidWindowIndex}"
      ++ " (only single-window slabs supported in v0.1)"))
  else .ok ()

variable (z : Omnizip)

def decodeDropBytes (record : DropRecord) (raw : Bytes) (dictLookup : DictTable) :
    Except CoreError Bytes :=
  if record.flags &&& dropFlagSeekable ≠ 0 then
    if record.dictId ≠ noDict then
      .error (.unsupportedFeature "seekable drop with trained dictionary (not combinable)")
    else decodeSeekable z record.representation.codec raw record.plaintextLen
  else if record.dictId = noDict then
    decompress z record.representation.codec raw record.plaintextLen
  else
    match dictLookup record.dictId with
    | none => .error (.corrupt ("drop references dict_id " ++ hex2 record.dictId
        ++ " but no dictionary_section provided"))
    | some dict => decompressWithDict z raw record.plaintextLen dict

/-! ### Views -/

/-- The text both readers refuse a window with. -/
def windowPastSlab (start stop length : Nat) : CoreError :=
  .corrupt (s!"drop range [{start}..{stop}] extends past slab length {length}")

namespace SlabView

def findRecord (view : SlabView) (dropId : Digest) : Option DropRecord :=
  view.dropRecords.find? fun r => r.dropId = dropId

/-- Where a record's window lies in the bytes of the slab. -/
def dropWindowBounds (view : SlabView) (record : DropRecord) : Except CoreError (Nat × Nat) :=
  let start := view.solidWindowStart + record.offsetInWindow
  let stop := start + record.lenInWindow
  if view.bytes.length < stop then .error (windowPastSlab start stop view.bytes.length)
  else .ok (start, stop)

def plaintextForWithDictLookup (view : SlabView) (dropId : Digest) (dictLookup : DictTable) :
    Option (Except CoreError Bytes) :=
  match view.findRecord dropId with
  | none => none
  | some record =>
    match checkDropReadable record with
    | .error e => some (.error e)
    | .ok () =>
      let start := view.solidWindowStart + record.offsetInWindow
      let stop := start + record.lenInWindow
      if view.bytes.length < stop then
        some (.error (windowPastSlab start stop view.bytes.length))
      else
        some (decodeDropBytes z record ((view.bytes.drop start).take record.lenInWindow) dictLookup)

def plaintextFor (view : SlabView) (dropId : Digest) : Option (Except CoreError Bytes) :=
  view.plaintextForWithDictLookup z dropId fun _ => none

theorem plaintextFor_found {view : SlabView} {record : DropRecord} {dropId : Digest}
    (hfind : view.findRecord dropId = some record) : view.plaintextFor z dropId ≠ none := by
  unfold plaintextFor plaintextForWithDictLookup
  rw [hfind]
  dsimp only
  split
  · exact Option.some_ne_none _
  · split
    · exact Option.some_ne_none _
    · exact Option.some_ne_none _

end SlabView

/-! ### The round trip of the format -/

/-- Records and payloads one behind the other: each record names the length of its payload,
the bytes in front of it, no encryption and no erasure coding. -/
def InSequence (drops : List (DropRecord × Bytes)) : Prop :=
  ∀ before record payload behind, drops = before ++ (record, payload) :: behind →
    record.lenInWindow = payload.length ∧
    record.offsetInWindow = (before.map fun drop => drop.2.length).sum ∧
    record.representation.aead = 0 ∧ record.representation.ec = 0 ∧
    record.plaintextLen ≤ defaultDropMaxPlaintextBytes

/-- The window: the payloads one behind the other. -/
def joinedPayloads (drops : List (DropRecord × Bytes)) : Bytes := (drops.map Prod.snd).flatten

theorem joinedPayloads_length (drops : List (DropRecord × Bytes)) :
    (joinedPayloads drops).length = (drops.map fun drop => drop.2.length).sum := by
  rw [joinedPayloads, List.length_flatten, List.map_map]
  rfl

theorem joinedPayloads_append (front back : List (DropRecord × Bytes)) :
    joinedPayloads (front ++ back) = joinedPayloads front ++ joinedPayloads back := by
  rw [joinedPayloads, List.map_append, List.flatten_append]
  rfl

theorem joinedPayloads_cons (record : DropRecord) (payload : Bytes) (rest : List (DropRecord × Bytes)) :
    joinedPayloads ((record, payload) :: rest) = payload ++ joinedPayloads rest := rfl

/-- The payload of a record is what its window holds. -/
theorem joinedPayloads_cut {drops before behind : List (DropRecord × Bytes)} {record : DropRecord}
    {payload : Bytes} (hdrops : drops = before ++ (record, payload) :: behind) :
    ((joinedPayloads drops).drop (before.map fun drop => drop.2.length).sum).take payload.length
      = payload := by
  rw [hdrops, joinedPayloads_append, joinedPayloads_cons, ← joinedPayloads_length, List.drop_left, List.take_left]

theorem InSequence.window_end {drops before behind : List (DropRecord × Bytes)}
    {record : DropRecord} {payload : Bytes} (h : InSequence drops)
    (hdrops : drops = before ++ (record, payload) :: behind) :
    record.offsetInWindow + record.lenInWindow ≤ (joinedPayloads drops).length := by
  obtain ⟨hlen, hoffset, -⟩ := h before record payload behind hdrops
  rw [hlen, hoffset, ← joinedPayloads_length, hdrops, joinedPayloads_append, joinedPayloads_cons,
    List.length_append, List.length_append]
  omega

theorem InSequence.windowLenSum {drops : List (DropRecord × Bytes)} (h : InSequence drops) :
    windowLenSum (drops.map Prod.fst) = (joinedPayloads drops).length := by
  rw [joinedPayloads_length]
  unfold LimniFS.windowLenSum
  rw [List.map_map]
  refine congrArg List.sum (List.map_congr_left ?_)
  rintro ⟨record, payload⟩ hmem
  obtain ⟨before, behind, hdrops⟩ := List.append_of_mem hmem
  exact (h before record payload behind hdrops).1

theorem InSequence.valid {drops : List (DropRecord × Bytes)} (h : InSequence drops)
    (hshort : (joinedPayloads drops).length < u32Limit) (header : SlabHeader) :
    ∀ r ∈ drops.map Prod.fst, r.Valid header := by
  intro r hr
  obtain ⟨⟨record, payload⟩, hmem, rfl⟩ := List.mem_map.mp hr
  obtain ⟨before, behind, hdrops⟩ := List.append_of_mem hmem
  obtain ⟨-, -, haead, hec, hplain⟩ := h before record payload behind hdrops
  have hend := h.window_end hdrops
  exact ⟨hplain, Or.inr haead, Or.inr hec, by simp only; omega⟩

theorem parseSlab_total {bytes : Bytes} {view : SlabView} (h : parseSlab bytes = .ok view) :
    view.header.totalLength = bytes.length := by
  unfold parseSlab at h
  split at h
  · cases h
  · next header rest hheader =>
      split at h
      · cases h
      · next htotal =>
          split at h
          · cases h
          · cases h
            exact Decidable.not_not.mp htotal

/-- **Slabs are read back record by record and payload by payload, and an accepted slab is
exactly as long as its header, its records and their windows.** -/
theorem slab_round_trip :
    (∀ (header : SlabHeader) (drops : List (DropRecord × Bytes)) (bytes : Bytes),
      header.slabId.ordinal < 2 ^ 64 → header.ecDescriptor ≠ 0xFF → header.cryptoHint ≠ 0xFF →
      InSequence drops → bytes = slabBytes header (drops.map Prod.fst) (joinedPayloads drops) →
      header.totalLength = bytes.length → bytes.length ≤ defaultSlabMaxBytes →
      ∃ view, parseSlab bytes = .ok view ∧ view.header = header ∧
        view.dropRecords = drops.map Prod.fst ∧
        ∀ record payload, (record, payload) ∈ drops → ∃ start stop,
          view.dropWindowBounds record = .ok (start, stop) ∧
          (bytes.drop start).take (stop - start) = payload) ∧
    (∀ (bytes : Bytes) (view : SlabView), parseSlab bytes = .ok view →
      56 + 50 * view.dropRecords.length + windowLenSum view.dropRecords = view.header.totalLength ∧
      view.header.totalLength = bytes.length) := by
  refine ⟨?_, ?_⟩
  · intro header drops bytes hord hec hcrypto hseq hbytes htotal hceil
    have hlen : bytes.length = slabHeaderLen + ((drops.map Prod.fst).length * dropRecordLen
        + (joinedPayloads drops).length) := by
      rw [hbytes, slabBytes_length]
    have hshort : (joinedPayloads drops).length < u32Limit := by
      unfold defaultSlabMaxBytes at hceil
      unfold u32Limit
      omega
    have hheader : header.Valid := ⟨hord, by omega, by omega, hec, hcrypto⟩
    subst hbytes
    refine ⟨_, parseSlab_slabBytes hheader (hseq.valid hshort header) hseq.windowLenSum htotal,
      rfl, rfl, ?_⟩
    intro record payload hmem
    obtain ⟨before, behind, hdrops⟩ := List.append_of_mem hmem
    obtain ⟨hrecord, hoffset, -⟩ := hseq before record payload behind hdrops
    have hend := hseq.window_end hdrops
    refine ⟨slabHeaderLen + (drops.map Prod.fst).length * dropRecordLen + record.offsetInWindow,
      slabHeaderLen + (drops.map Prod.fst).length * dropRecordLen + record.offsetInWindow
        + record.lenInWindow, ?_, ?_⟩
    · unfold SlabView.dropWindowBounds
      simp only
      rw [if_neg (by rw [hlen]; omega)]
    · rw [Nat.add_sub_cancel_left, hrecord, hoffset, ← List.drop_drop]
      have hprefix : (slabBytes header (drops.map Prod.fst) (joinedPayloads drops)).drop
          (slabHeaderLen + (drops.map Prod.fst).length * dropRecordLen) = joinedPayloads drops := by
        rw [slabBytes, ← List.append_assoc]
        refine List.drop_left' ?_
        rw [List.length_append, SlabHeader.toBytes_length, flatMap_toBytes_length]
      rw [ hprefix]
      exact joinedPayloads_cut hdrops
  · intro bytes view h
    have htotal := parseSlab_total h
    obtain ⟨-, -, hstart, hlen, -⟩ := parseSlab_ok h
    unfold slabHeaderLen dropRecordLen at hstart
    exact ⟨by omega, htotal⟩

end LimniFS
