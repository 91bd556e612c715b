/-
Slabs: a header, the drop records, and one window with the drops' bytes.

The header does not say how many records follow it.  `parseSlab` reads records until
what is left is exactly as long as the windows of the records read so far; so a slab
is accepted when header, records and windows together are exactly its length.  Where
each window lies is not checked here, and neither is that two of them are disjoint.

`parseSlab_slabBytes` is the round trip: any list of records that are valid for the
header, with windows that add up to the bytes behind them, is read back.
-/
import LimniFS.DropEncoding
import LimniFS.ManifestSections

namespace LimniFS

open Lib Lib.Parser Cursor

def slabMagic : Bytes := ascii "LIM1"
def slabFormatVersion : Nat := 1
def slabHeaderLen : Nat := 56
def defaultSlabMaxBytes : Nat := 64 * 1024 * 1024
def dropRecordLen : Nat := 50
def defaultDropMaxPlaintextBytes : Nat := 64 * 1024 * 1024

/-! ### Header -/

structure SlabHeader where
  slabId : SlabId
  totalLength : Nat
  ecDescriptor : UInt8
  cryptoHint : UInt8
  deriving DecidableEq

namespace SlabHeader

def hasErasureCoding (h : SlabHeader) : Bool := h.ecDescriptor != 0 && h.ecDescriptor != 0xFF

def isSealed (h : SlabHeader) : Bool := h.cryptoHint != 0 && h.cryptoHint != 0xFF

def toBytes (h : SlabHeader) : Bytes :=
  slabMagic ++ (leBytes 2 slabFormatVersion ++ ((leBytes 8 h.slabId.ordinal ++ h.slabId.hash.val)
    ++ (leBytes 8 h.totalLength ++ ([h.ecDescriptor] ++ [h.cryptoHint]))))

@[simp] theorem toBytes_length (h : SlabHeader) : h.toBytes.length = slabHeaderLen := by
  simp [toBytes, slabMagic, ascii, slabHeaderLen, h.slabId.hash.2]

/-- The header of a slab that can be read. -/
structure Valid (h : SlabHeader) : Prop where
  ordinal : h.slabId.ordinal < 2 ^ 64
  header : slabHeaderLen ≤ h.totalLength
  ceiling : h.totalLength ≤ defaultSlabMaxBytes
  ecDescriptor : h.ecDescriptor ≠ 0xFF
  cryptoHint : h.cryptoHint ≠ 0xFF

end SlabHeader

def parseSlabHeader : CoreParser SlabHeader := do
  let magic ← readN 4
  ensure (magic = slabMagic) (.corrupt ("bad slab magic: expected LIM1 (" ++ debugHex slabMagic
    ++ "), found " ++ debugHex magic))
  let formatVersion ← readU16Le
  ensure (formatVersion = slabFormatVersion) (.unsupportedFeature
    s!"slab format_version {formatVersion} (supported: {slabFormatVersion})")
  let slabId ← readSlabId
  let totalLength ← readU64Le
  ensure (slabHeaderLen ≤ totalLength) (.corrupt
    s!"slab total_length {totalLength} is less than header width {slabHeaderLen}")
  ensure (totalLength ≤ defaultSlabMaxBytes) (.corrupt
    s!"slab total_length {totalLength} exceeds configured ceiling {defaultSlabMaxBytes}")
  let ecDescriptor ← readU8
  ensure (ecDescriptor ≠ 0xFF)
    (.unsupportedFeature "slab ec_descriptor 0xFF (extended descriptor, post-v1)")
  let cryptoHint ← readU8
  ensure (cryptoHint ≠ 0xFF)
    (.unsupportedFeature "slab crypto_hint 0xFF (extended hint, post-v1)")
  pure ⟨slabId, totalLength, ecDescriptor, cryptoHint⟩

theorem reads_parseSlabHeader {h : SlabHeader} (hv : h.Valid) :
    Reads parseSlabHeader h.toBytes h := by
  have hlen : h.totalLength < 2 ^ 64 := Nat.lt_of_le_of_lt hv.ceiling (by decide)
  refine (reads_readN (n := 4) (l := slabMagic) rfl).bind ?_
  refine (reads_ensure rfl).bind_nil ?_
  refine (reads_readU16Le (by decide)).bind ?_
  refine (reads_ensure rfl).bind_nil ?_
  refine (reads_readSlabId hv.ordinal).bind ?_
  refine (reads_readU64Le hlen).bind ?_
  refine (reads_ensure hv.header).bind_nil ?_
  refine (reads_ensure hv.ceiling).bind_nil ?_
  refine (reads_readU8 _).bind ?_
  refine (reads_ensure hv.ecDescriptor).bind_nil ?_
  rw [← List.append_nil [h.cryptoHint]]
  refine (reads_readU8 _).bind ?_
  exact (reads_ensure hv.cryptoHint).bind_nil (reads_pure _)

theorem exact_readSlabId : Exact 40 readSlabId :=
  exact_readU64Le.bind fun _ => (exact_readFixed 32).bind fun _ => exact_pure _

theorem exact_parseSlabHeader : Exact 56 parseSlabHeader :=
  (exact_readN 4).bind fun _ => exact_ensure.bind fun _ => exact_readU16Le.bind fun _ =>
    exact_ensure.bind fun _ => exact_readSlabId.bind fun _ => exact_readU64Le.bind fun _ =>
    exact_ensure.bind fun _ => exact_ensure.bind fun _ => exact_readU8.bind fun _ =>
    exact_ensure.bind fun _ => exact_readU8.bind fun _ => exact_ensure.bind fun _ =>
    exact_pure _

theorem parseSlabHeader_ceiling {bs rest : Bytes} {h : SlabHeader}
    (hok : parseSlabHeader bs = (.ok h, rest)) : h.totalLength ≤ defaultSlabMaxBytes := by
  simp only [parseSlabHeader, bind_eq_ok, ensure_eq_ok, pure_eq_ok] at hok
  obtain ⟨_, _, -, _, _, -, _, _, -, _, _, -, _, _, -, total, _, -, _, _, -, _, _,
    ⟨hceil, -⟩, _, _, -, _, _, -, _, _, -, _, _, -, rfl, -⟩ := hok
  exact hceil

/-! ### Drop records -/

structure Representation where
  codec : UInt8
  aead : UInt8
  ec : UInt8
  deriving DecidableEq

namespace Representation

def toBytes (r : Representation) : Bytes := [r.codec, r.aead, r.ec]

def fromBytes (b : Fixed 3) : Representation :=
  ⟨b.val.getD 0 0, b.val.getD 1 0, b.val.getD 2 0⟩

end Representation

structure DropRecord where
  dropId : Digest
  plaintextLen : Nat
  representation : Representation
  solidWindowIndex : UInt8
  offsetInWindow : Nat
  lenInWindow : Nat
  dictId : UInt8
  flags : UInt8
  deriving DecidableEq

namespace DropRecord

def toBytes (r : DropRecord) : Bytes :=
  r.dropId.val ++ (leBytes 4 r.plaintextLen ++ (r.representation.toBytes
    ++ ([r.solidWindowIndex] ++ (leBytes 4 r.offsetInWindow ++ (leBytes 4 r.lenInWindow
    ++ ([r.dictId] ++ [r.flags]))))))

@[simp] theorem toBytes_length (r : DropRecord) : r.toBytes.length = dropRecordLen := by
  simp [toBytes, Representation.toBytes, dropRecordLen, r.dropId.2]

/-- A record that can be read in a slab with this header. -/
structure Valid (header : SlabHeader) (r : DropRecord) : Prop where
  plaintextLen : r.plaintextLen ≤ defaultDropMaxPlaintextBytes
  aead : header.isSealed = true ∨ r.representation.aead = 0
  ec : header.hasErasureCoding = true ∨ r.representation.ec = 0
  window : r.offsetInWindow + r.lenInWindow < u32Limit

end DropRecord

def parseDropRecord (slab : SlabHeader) : CoreParser DropRecord := do
  let dropId ← readHash
  let plaintextLen ← readU32Le
  ensure (plaintextLen ≤ defaultDropMaxPlaintextBytes) (.corrupt
    s!"drop plaintext_len {plaintextLen} exceeds ceiling {defaultDropMaxPlaintextBytes}")
  let reprBytes ← readFixed 3
  let representation := Representation.fromBytes reprBytes
  ensure (slab.isSealed = true ∨ representation.aead = 0)
    (.corrupt ("drop record declares aead=" ++ hex2 representation.aead
      ++ " but slab is plaintext (crypto_hint=0)"))
  ensure (slab.hasErasureCoding = true ∨ representation.ec = 0)
    (.corrupt ("drop record declares ec=" ++ hex2 representation.ec
      ++ " but slab has no EC (ec_descriptor=0)"))
  let solidWindowIndex ← readU8
  let offsetInWindow ← readU32Le
  let lenInWindow ← readU32Le
  ensure (offsetInWindow + lenInWindow < u32Limit) (.corrupt
    (s!"drop record offset_in_window {offsetInWindow} + len_in_window {lenInWindow}"
      ++ " overflows u32"))
  let dictId ← readU8
  let flags ← readU8
  pure ⟨dropId, plaintextLen, representation, solidWindowIndex, offsetInWindow, lenInWindow,
    dictId, flags⟩

theorem reads_parseDropRecord {header : SlabHeader} {r : DropRecord} (hv : r.Valid header) :
    Reads (parseDropRecord header) r.toBytes r := by
  have hplain : r.plaintextLen < u32Limit := Nat.lt_of_le_of_lt hv.plaintextLen (by decide)
  have hoff : r.offsetInWindow < u32Limit := by have := hv.window; omega
  have hlen : r.lenInWindow < u32Limit := by have := hv.window; omega
  refine (reads_readFixed r.dropId).bind ?_
  refine (reads_readU32Le hplain).bind ?_
  refine (reads_ensure hv.plaintextLen).bind_nil ?_
  refine (reads_readFixed ⟨r.representation.toBytes, rfl⟩).bind ?_
  refine (reads_ensure hv.aead).bind_nil ?_
  refine (reads_ensure hv.ec).bind_nil ?_
  refine (reads_readU8 _).bind ?_
  refine (reads_readU32Le hoff).bind ?_
  refine (reads_readU32Le hlen).bind ?_
  refine (reads_ensure hv.window).bind_nil ?_
  refine (reads_readU8 _).bind ?_
  exact (reads_readU8 r.flags).map fun flags =>
    (⟨r.dropId, r.plaintextLen, r.representation, r.solidWindowIndex, r.offsetInWindow,
      r.lenInWindow, r.dictId, flags⟩ : DropRecord)

theorem exact_parseDropRecord (header : SlabHeader) : Exact 50 (parseDropRecord header) :=
  (exact_readFixed 32).bind fun _ => exact_readU32Le.bind fun _ => exact_ensure.bind fun _ =>
    (exact_readFixed 3).bind fun _ => exact_ensure.bind fun _ => exact_ensure.bind fun _ =>
    exact_readU8.bind fun _ => exact_readU32Le.bind fun _ => exact_readU32Le.bind fun _ => exact_ensure.bind fun _ =>
    exact_readU8.bind fun _ => exact_readU8.bind fun _ => exact_pure _

theorem parseDropRecord_valid {header : SlabHeader} {bs rest : Bytes} {r : DropRecord}
    (h : parseDropRecord header bs = (.ok r, rest)) : r.Valid header := by
  simp only [parseDropRecord, bind_eq_ok, ensure_eq_ok, pure_eq_ok] at h
  obtain ⟨_, _, -, plain, _, -, _, _, ⟨hplain, -⟩, repr, _, -, _, _, ⟨haead, -⟩,
    _, _, ⟨hec, -⟩, idx, _, -, off, _, -, len, _, -, _, _, ⟨hwin, -⟩, dict, _, -, flags, _, -,
    rfl, -⟩ := h
  exact ⟨hplain, haead, hec, hwin⟩

theorem plaintextLen_le_of_parsed {header : SlabHeader} {r r' : DropRecord} {bs rest : Bytes}
    (hplain : r.plaintextLen < u32Limit)
    (h : parseDropRecord header (r.toBytes ++ bs) = (.ok r', rest)) :
    r.plaintextLen ≤ defaultDropMaxPlaintextBytes := by
  unfold parseDropRecord DropRecord.toBytes at h
  rw [List.append_assoc, (reads_readHash r.dropId).bind_append, List.append_assoc,
    (reads_readU32Le hplain).bind_append] at h
  obtain ⟨_, _, hok, -⟩ := bind_eq_ok.mp h
  exact (ensure_eq_ok.mp hok).1

/-! ### Slabs -/

/-- A parsed slab: its records, and where the window starts in its bytes. -/
structure SlabView where
  bytes : Bytes
  header : SlabHeader
  dropRecords : List DropRecord
  solidWindowStart : Nat
  deriving DecidableEq

/-- Records until what is left is as long as their windows; each takes bytes, so the length of
what is left bounds the number of rounds. -/
def slabRecords (header : SlabHeader) :
    Nat → Bytes → Nat → List DropRecord → Except CoreError (List DropRecord × Bytes)
  | 0, rest, windowLenSum, records =>
    if rest.length = windowLenSum then .ok (records, rest)
    else .error (.corrupt "slab drop records overran solid window")
  | fuel + 1, rest, windowLenSum, records =>
    let cursorPos := header.totalLength - rest.length
    if rest.length = windowLenSum then .ok (records, rest)
    else if rest.length < windowLenSum then
      .error (.corrupt (s!"slab drop records overran solid window: cursor_pos={cursorPos},"
        ++ s!" window_sum={windowLenSum}, total_length={header.totalLength}"))
    else if rest.length - windowLenSum < dropRecordLen then
      .error (.corrupt (s!"slab has {rest.length - windowLenSum} trailing bytes that are neither"
        ++ s!" a full drop record ({dropRecordLen}B) nor accounted for by the solid window"))
    else
      match parseDropRecord header rest with
      | (.error e, _) => .error e
      | (.ok record, rest) =>
        slabRecords header fuel rest (windowLenSum + record.lenInWindow) (records ++ [record])

def parseSlab (bytes : Bytes) : Except CoreError SlabView :=
  match parseSlabHeader bytes with
  | (.error e, _) => .error e
  | (.ok header, rest) =>
    if header.totalLength ≠ bytes.length then
      .error (.corrupt (s!"slab total_length {header.totalLength} does not match buffer length"
        ++ s!" {bytes.length}"))
    else
      match slabRecords header rest.length rest 0 [] with
      | .error e => .error e
      | .ok (records, window) => .ok ⟨bytes, header, records, bytes.length - window.length⟩

/-- A slab with these parts. -/
def slabBytes (header : SlabHeader) (records : List DropRecord) (window : Bytes) : Bytes :=
  header.toBytes ++ (records.flatMap DropRecord.toBytes ++ window)

/-- The lengths of the windows, added up. -/
def windowLenSum (records : List DropRecord) : Nat := (records.map (·.lenInWindow)).sum

@[simp] theorem windowLenSum_nil : windowLenSum [] = 0 := rfl

@[simp] theorem windowLenSum_cons (r : DropRecord) (records : List DropRecord) :
    windowLenSum (r :: records) = r.lenInWindow + windowLenSum records := by
  simp [windowLenSum]

theorem flatMap_toBytes_length (records : List DropRecord) :
    (records.flatMap DropRecord.toBytes).length = records.length * dropRecordLen := by
  induction records with
  | nil => simp
  | cons r records ih =>
      rw [List.flatMap_cons, List.length_append, DropRecord.toBytes_length, ih,
        List.length_cons, Nat.succ_mul, Nat.add_comm]

@[simp] theorem slabBytes_length (header : SlabHeader) (records : List DropRecord)
    (window : Bytes) : (slabBytes header records window).length
      = slabHeaderLen + (records.length * dropRecordLen + window.length) := by
  rw [slabBytes, List.length_append, List.length_append, SlabHeader.toBytes_length,
    flatMap_toBytes_length]

theorem slabRecords_append {header : SlabHeader} (window : Bytes) :
    ∀ (todo done : List DropRecord) (fuel : Nat), (∀ r ∈ todo, r.Valid header) →
      windowLenSum done + windowLenSum todo = window.length →
      todo.length * dropRecordLen ≤ fuel →
      slabRecords header fuel (todo.flatMap DropRecord.toBytes ++ window) (windowLenSum done) done
        = .ok (done ++ todo, window) := by
  intro todo
  induction todo with
  | nil =>
      intro done fuel _ hsum _
      rw [List.append_nil]
      have hlen : window.length = windowLenSum done := by rw [← hsum]; rfl
      cases fuel with
      | zero => simp [slabRecords, hlen]
      | succ fuel => simp [slabRecords, hlen]
  | cons r todo ih =>
      intro done fuel hvalid hsum hfuel
      rw [List.length_cons, Nat.succ_mul] at hfuel
      unfold dropRecordLen at hfuel ih
      obtain ⟨fuel, rfl⟩ : ∃ k, fuel = k + 1 := ⟨fuel - 1, by omega⟩
      have hlen : ((r :: todo).flatMap DropRecord.toBytes ++ window).length
          = (todo.length + 1) * 50 + window.length := by
        rw [List.length_append, flatMap_toBytes_length]
        rfl
      rw [windowLenSum_cons] at hsum
      have hread := reads_parseDropRecord (hvalid r List.mem_cons_self)
        (todo.flatMap DropRecord.toBytes ++ window)
      have hdone : windowLenSum done + r.lenInWindow = windowLenSum (done ++ [r]) := by
        simp [windowLenSum]
      have hroom : ¬ ((r :: todo).flatMap DropRecord.toBytes ++ window).length
          - windowLenSum done < dropRecordLen := by
        unfold dropRecordLen
        omega
      unfold slabRecords
      simp only
      rw [if_neg (by omega), if_neg (by omega), if_neg hroom, List.flatMap_cons,
        List.append_assoc, hread]
      simp only [hdone]
      rw [ih (done ++ [r]) fuel (fun r' h' => hvalid r' (List.mem_cons_of_mem _ h'))
        (by rw [← hdone]; omega) (by omega)]
      simp

/-- A record as the packer writes it: plain, and with lengths that fit their fields. -/
structure DropRecord.Plain (r : DropRecord) : Prop where
  plaintextLen : r.plaintextLen < u32Limit
  aead : r.representation.aead = 0
  ec : r.representation.ec = 0
  window : r.offsetInWindow + r.lenInWindow < u32Limit

theorem valid_of_slabRecords {header : SlabHeader} {window : Bytes} :
    ∀ (todo done : List DropRecord) (fuel : Nat) (result : List DropRecord × Bytes),
      (∀ r ∈ todo, r.Plain) → windowLenSum done + windowLenSum todo = window.length →
      slabRecords header fuel (todo.flatMap DropRecord.toBytes ++ window) (windowLenSum done) done
        = .ok result → ∀ r ∈ todo, r.Valid header := by
  intro todo
  induction todo with
  | nil => intro _ _ _ _ _ _ r hr; cases hr
  | cons first todo ih =>
      intro done fuel result hplain hsum h
      have hfirst := hplain first List.mem_cons_self
      rw [windowLenSum_cons] at hsum
      have hlen : ((first :: todo).flatMap DropRecord.toBytes ++ window).length
          = (todo.length + 1) * 50 + window.length := by
        rw [List.length_append, flatMap_toBytes_length]
        rfl
      have hdone : windowLenSum done + first.lenInWindow = windowLenSum (done ++ [first]) := by
        simp [windowLenSum]
      have hmore : ¬ ((first :: todo).flatMap DropRecord.toBytes ++ window).length
          = windowLenSum done := by omega
      rcases fuel with _ | fuel
      · unfold slabRecords at h
        rw [if_neg hmore] at h
        cases h
      · unfold slabRecords at h
        simp only [List.flatMap_cons, List.append_assoc] at h hmore
        rw [if_neg hmore] at h
        split at h
        · cases h
        · split at h
          · cases h
          · split at h
            · cases h
            · next r rest hr =>
                have hvalid : first.Valid header := ⟨plaintextLen_le_of_parsed
                  hfirst.plaintextLen hr, Or.inr hfirst.aead, Or.inr hfirst.ec, hfirst.window⟩
                rw [reads_parseDropRecord hvalid] at hr
                cases hr
                rw [hdone] at h
                intro r hr
                rcases List.mem_cons.mp hr with rfl | hr
                · exact hvalid
                · exact ih (done ++ [first]) fuel result
                    (fun r' h' => hplain r' (List.mem_cons_of_mem _ h'))
                    (by rw [← hdone]; omega) h r hr

/-- **A slab put together from valid parts is read back.** -/
theorem parseSlab_slabBytes {header : SlabHeader} {records : List DropRecord} {window : Bytes}
    (hheader : header.Valid) (hrecords : ∀ r ∈ records, r.Valid header)
    (hsum : windowLenSum records = window.length)
    (htotal : header.totalLength = (slabBytes header records window).length) :
    parseSlab (slabBytes header records window)
      = .ok ⟨slabBytes header records window, header, records,
          slabHeaderLen + records.length * dropRecordLen⟩ := by
  have hread := reads_parseSlabHeader hheader (records.flatMap DropRecord.toBytes ++ window)
  have hrec := slabRecords_append window records []
    (records.flatMap DropRecord.toBytes ++ window).length hrecords (by rw [← hsum]; simp)
    (by rw [List.length_append, flatMap_toBytes_length]; omega)
  rw [windowLenSum_nil, List.nil_append] at hrec
  have hstart : (slabBytes header records window).length - window.length
      = slabHeaderLen + records.length * dropRecordLen := by
    rw [slabBytes_length]
    omega
  unfold parseSlab
  rw [show parseSlabHeader (slabBytes header records window) = _ from hread]
  simp only [htotal, ne_eq, not_true_eq_false, if_false, hrec, hstart]

theorem slabRecords_ok {header : SlabHeader} :
    ∀ (fuel : Nat) (rest window : Bytes) (sum : Nat) (done records : List DropRecord),
      slabRecords header fuel rest sum done = .ok (records, window) →
      ∃ todo, records = done ++ todo ∧ (∀ r ∈ todo, r.Valid header) ∧
        rest.length = todo.length * dropRecordLen + window.length ∧
        sum + windowLenSum todo = window.length := by
  intro fuel
  induction fuel with
  | zero =>
      intro rest window sum done records h
      unfold slabRecords at h
      split at h
      · next hlen =>
          cases h
          exact ⟨[], by simp, by simp, by simp, by simp [hlen]⟩
      · cases h
  | succ fuel ih =>
      intro rest window sum done records h
      unfold slabRecords at h
      simp only at h
      split at h
      · next hlen =>
          cases h
          exact ⟨[], by simp, by simp, by simp, by simp [hlen]⟩
      · split at h
        · cases h
        · split at h
          · cases h
          · split at h
            · cases h
            · next r rest' hr =>
                obtain ⟨todo, hrecs, hvalid, hlen, hsum⟩ := ih _ _ _ _ _ h
                have htook := exact_parseDropRecord header _ _ _ hr
                refine ⟨r :: todo, ?_, ?_, ?_, ?_⟩
                · rw [hrecs, List.append_assoc, List.singleton_append]
                · intro r' hmem
                  rcases List.mem_cons.mp hmem with rfl | hmem
                  · exact parseDropRecord_valid hr
                  · exact hvalid r' hmem
                · rw [htook, hlen, List.length_cons, Nat.succ_mul]
                  unfold dropRecordLen
                  omega
                · rw [windowLenSum_cons]
                  omega

/-- **An accepted slab is exactly as long as its header, its records and their windows.** -/
theorem parseSlab_ok {bytes : Bytes} {view : SlabView} (h : parseSlab bytes = .ok view) :
    view.bytes = bytes ∧ (∀ r ∈ view.dropRecords, r.Valid view.header) ∧
      view.solidWindowStart = slabHeaderLen + view.dropRecords.length * dropRecordLen ∧
      bytes.length = view.solidWindowStart + windowLenSum view.dropRecords ∧
      bytes.length ≤ defaultSlabMaxBytes := by
  unfold parseSlab at h
  split at h
  · cases h
  · next header rest hheader =>
      split at h
      · cases h
      · next htotal =>
          split at h
          · cases h
          · next records window hrec =>
              obtain ⟨todo, hrecs, hvalid, hlen, hsum⟩ := slabRecords_ok _ _ _ _ _ _ hrec
              rw [List.nil_append] at hrecs
              subst hrecs
              cases h
              have htook := exact_parseSlabHeader _ _ _ hheader
              have hceil := parseSlabHeader_ceiling hheader
              have htotal := Decidable.not_not.mp htotal
              refine ⟨rfl, hvalid, ?_, ?_, ?_⟩
              · simp only [slabHeaderLen]
                omega
              · simp only
                omega
              · omega

/-- **An accepted slab of plain records has those records.** -/
theorem parseSlab_plain {header : SlabHeader} {records : List DropRecord} {window : Bytes}
    {view : SlabView} (hord : header.slabId.ordinal < 2 ^ 64) (hec : header.ecDescriptor = 0)
    (hcrypto : header.cryptoHint = 0) (hplain : ∀ r ∈ records, r.Plain)
    (hsum : windowLenSum records = window.length)
    (htotal : header.totalLength = (slabBytes header records window).length)
    (h : parseSlab (slabBytes header records window) = .ok view) :
    view = ⟨slabBytes header records window, header, records,
      slabHeaderLen + records.length * dropRecordLen⟩ := by
  obtain ⟨-, -, -, -, hceil⟩ := parseSlab_ok h
  have hheader : header.Valid := by
    refine ⟨hord, ?_, by omega, ?_, ?_⟩
    · rw [htotal, slabBytes_length]
      exact Nat.le_add_right _ _
    · rw [hec]
      decide
    · rw [hcrypto]
      decide
  have hread := reads_parseSlabHeader hheader (records.flatMap DropRecord.toBytes ++ window)
  have hvalid : ∀ r ∈ records, r.Valid header := by
    have hparse := h
    unfold parseSlab at hparse
    rw [show parseSlabHeader (slabBytes header records window) = _ from hread] at hparse
    simp only [htotal, ne_eq, not_true_eq_false, if_false] at hparse
    split at hparse
    · cases hparse
    · next records' window' hrecords =>
        exact valid_of_slabRecords records [] _ _ hplain (by rw [← hsum]; simp) hrecords
  rw [parseSlab_slabBytes hheader hvalid hsum htotal] at h
  exact (Except.ok.inj h).symm

end LimniFS
