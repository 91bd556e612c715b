/-
The later sections of a manifest: erasure coding, key escrow, history, dictionaries.

Erasure coding and key escrow are there only when their feature flag is declared, the
history always is, and the dictionaries stand after it in a place no section points
to.  As in `Manifest`, each parser comes with the fact that it is framed.
-/
import LimniFS.Manifest

namespace LimniFS

open Lib Lib.Parser Cursor

/-! ### Erasure coding -/

def defaultEcPolynomial : Nat := 0x011D
def maxShards : Nat := 255

structure EcOverride where
  slabId : SlabId
  k : UInt8
  m : UInt8
  deriving DecidableEq

structure EcParams where
  k : UInt8
  m : UInt8
  polynomial : Nat
  overrides : List EcOverride
  deriving DecidableEq

def validateShardCounts (k m : UInt8) (label : String) : Except CoreError Unit :=
  if k = 0 then .error (.corrupt s!"ec_params {label}: k must be >= 1, got 0")
  else if m = 0 then .error (.corrupt s!"ec_params {label}: m must be >= 1, got 0")
  else if maxShards < k.toNat + m.toNat then
    .error (.corrupt (s!"ec_params {label}: k + m = {k.toNat + m.toNat} exceeds GF(2^8) limit"
      ++ s!" ({maxShards})"))
  else .ok ()

def parseEcOverride (index : Nat) (overrides : List EcOverride) :
    CoreParser (List EcOverride) := do
  let slabId ← readSlabId
  let k ← readU8
  let m ← readU8
  liftExcept (validateShardCounts k m s!"override {index} for slab ordinal {slabId.ordinal}")
  ensure (overrides.all (fun o => o.slabId != slabId) = true)
    (.corrupt s!"ec_params override {index}: duplicate slab_id (ordinal {slabId.ordinal})")
  pure (overrides ++ [⟨slabId, k, m⟩])

def ecOverrideEntryLen : Nat := 42

def parseEcParams : CoreParser EcParams := do
  let sectionVersion ← readU8
  ensure (sectionVersion = 1) (unsupportedVersion "ec_params" sectionVersion "1")
  let k ← readU8
  let m ← readU8
  liftExcept (validateShardCounts k m "default")
  let polynomial ← readU16Le
  ensure (polynomial = defaultEcPolynomial)
    (.unsupportedFeature ("ec_params polynomial " ++ hex4 polynomial ++ " (supported: "
      ++ hex4 defaultEcPolynomial ++ ")"))
  let overrideCount ← readU32Le
  demandLeft (overrideCount * ecOverrideEntryLen)
  let overrides ← loop parseEcOverride overrideCount 0 []
  pure ⟨k, m, polynomial, overrides⟩

theorem framed_parseEcOverride (index : Nat) (overrides : List EcOverride) :
    Framed 42 (parseEcOverride index overrides) :=
  (framed_readSlabId.bind fun _ => framed_readU8.bind fun _ => framed_readU8.bind fun _ =>
    (framed_liftExcept _).bind fun _ => framed_ensure.bind fun _ => framed_pure _).weaken
    (by decide)

theorem framed_parseEcParams : Framed 9 parseEcParams :=
  (framed_readU8.bind fun _ => framed_ensure.bind fun _ => framed_readU8.bind fun _ =>
    framed_readU8.bind fun _ => (framed_liftExcept _).bind fun _ => framed_readU16Le.bind fun _ =>
    framed_ensure.bind fun _ => framed_readU32Le.bind fun n =>
    (((Framed.loop framed_parseEcOverride n 0 []).bind fun _ => framed_pure _).demand
      (Nat.le_refl _)).weaken (Nat.zero_le _)).weaken (by decide)

/-! ### Key escrow -/

def defaultShareDataMaxBytes : Nat := 1024
def defaultHintMaxBytes : Nat := 4 * 1024

structure ShareRecord where
  custodianId : Bytes
  shareData : Bytes
  deriving DecidableEq

structure DmsPolicy where
  k : UInt8
  n : UInt8
  shares : List ShareRecord
  reconstructionHint : Option Bytes
  deriving DecidableEq

def validateShamirParams (k n : UInt8) : Except CoreError Unit :=
  if k = 0 then .error (.corrupt "dms_policy k must be >= 1, got 0")
  else if n = 0 then .error (.corrupt "dms_policy n must be >= 1, got 0")
  else if n < k then .error (.corrupt s!"dms_policy k ({k}) must be <= n ({n})")
  else .ok ()

def readStringWithCeiling (rawLen ceiling : Nat) (label : String) : CoreParser Bytes := do
  ensure (rawLen ≤ ceiling)
    (.corrupt s!"dms_policy {label} length {rawLen} exceeds ceiling {ceiling}")
  let bytes ← readN rawLen
  ensure (utf8Valid bytes = true) (.corrupt s!"dms_policy {label} is not valid UTF-8")
  pure bytes

def parseShareRecord (index maxHintBytes maxShareDataBytes : Nat) : CoreParser ShareRecord := do
  let custodianIdLen ← readU32Le
  let cid ← readStringWithCeiling custodianIdLen maxHintBytes "custodian_id"
  ensure (cid ≠ []) (.corrupt s!"dms_policy share {index}: empty custodian_id")
  let shareDataLen ← readU32Le
  ensure (shareDataLen ≠ 0) (.corrupt s!"dms_policy share {index}: zero-length share_data")
  ensure (shareDataLen ≤ maxShareDataBytes)
    (.corrupt (s!"dms_policy share {index}: share_data_len {shareDataLen} exceeds ceiling"
      ++ s!" {maxShareDataBytes}"))
  let shareData ← readN shareDataLen
  pure ⟨cid, shareData⟩

def parseReconstructionHint (maxHintBytes : Nat) : CoreParser (Option Bytes) := do
  let hintLen ← readU32Le
  if hintLen = 0 then pure none
  else do
    ensure (hintLen ≤ maxHintBytes)
      (.corrupt (s!"dms_policy reconstruction_hint_len {hintLen} exceeds ceiling"
        ++ s!" {maxHintBytes}"))
    let bytes ← readN hintLen
    ensure (utf8Valid bytes = true)
      (.corrupt "dms_policy reconstruction_hint is not valid UTF-8")
    pure (some bytes)

def parseDmsShare (index : Nat) (shares : List ShareRecord) : CoreParser (List ShareRecord) := do
  let share ← parseShareRecord index defaultHintMaxBytes defaultShareDataMaxBytes
  ensure (shares.all (fun s => s.custodianId != share.custodianId) = true)
    (.corrupt (s!"dms_policy share {index}: duplicate custodian_id "
      ++ debugStr share.custodianId))
  pure (shares ++ [share])

def parseDmsPolicy : CoreParser DmsPolicy := do
  let sectionVersion ← readU8
  ensure (sectionVersion = 1) (unsupportedVersion "dms_policy" sectionVersion "1")
  let scheme ← readU8
  ensure (scheme ≠ 0xFF)
    (.unsupportedFeature "dms_policy scheme 0xFF (extended descriptor, post-v1)")
  ensure (scheme = 0)
    (.unsupportedFeature ("dms_policy scheme " ++ hex2 scheme ++ " (supported: 0x00 Shamir)"))
  let k ← readU8
  let n ← readU8
  liftExcept (validateShamirParams k n)
  let shareCount ← readU32Le
  ensure (n.toNat = if shareCount < 2 ^ 16 then shareCount else 0)
    (.corrupt s!"dms_policy share_count {shareCount} does not equal n ({n})")
  let shares ← loop parseDmsShare shareCount 0 []
  let reconstructionHint ← parseReconstructionHint defaultHintMaxBytes
  pure ⟨k, n, shares, reconstructionHint⟩

theorem framed_readStringWithCeiling (n ceiling : Nat) (label : String) :
    Framed 0 (readStringWithCeiling n ceiling label) :=
  (framed_ensure.bind fun _ => (framed_readN n).bind fun _ => framed_ensure.bind fun _ =>
    framed_pure _).weaken (Nat.zero_le _)

theorem framed_parseDmsShare (index : Nat) (shares : List ShareRecord) :
    Framed 8 (parseDmsShare index shares) :=
  ((framed_readU32Le.bind fun _ => (framed_readStringWithCeiling _ _ _).bind fun _ =>
    framed_ensure.bind fun _ => framed_readU32Le.bind fun n => framed_ensure.bind fun _ =>
    framed_ensure.bind fun _ => ((framed_readN n).weaken (Nat.zero_le _)).bind fun _ =>
    framed_pure _).bind fun _ => framed_ensure.bind fun _ => framed_pure _).weaken (by decide)

theorem framed_parseReconstructionHint (maxHintBytes : Nat) :
    Framed 4 (parseReconstructionHint maxHintBytes) :=
  framed_readU32Le.bind fun n => Framed.ite (framed_pure _)
    ((framed_ensure.bind fun _ => (framed_readN n).bind fun _ => framed_ensure.bind fun _ =>
      framed_pure _).weaken (Nat.zero_le _))

theorem framed_parseDmsPolicy : Framed 12 parseDmsPolicy :=
  (framed_readU8.bind fun _ => framed_ensure.bind fun _ => framed_readU8.bind fun _ =>
    framed_ensure.bind fun _ => framed_ensure.bind fun _ => framed_readU8.bind fun _ =>
    framed_readU8.bind fun _ => (framed_liftExcept _).bind fun _ => framed_readU32Le.bind fun n =>
    framed_ensure.bind fun _ => ((Framed.loop framed_parseDmsShare n 0 []).weaken
      (Nat.zero_le _)).bind fun _ => (framed_parseReconstructionHint _).bind fun _ =>
    framed_pure _).weaken (by decide)

/-! ### History -/

def defaultHistoryParamsMaxBytes : Nat := 4 * 1024

inductive HistoryOp where
  | build
  | delta
  | flatten
  | turnover
  | deepen
  deriving DecidableEq

namespace HistoryOp

def fromByte (b : UInt8) : Option HistoryOp :=
  if b = 0x01 then some .build
  else if b = 0x02 then some .delta
  else if b = 0x03 then some .flatten
  else if b = 0x04 then some .turnover
  else if b = 0x05 then some .deepen
  else none

def toByte : HistoryOp → UInt8
  | .build => 0x01
  | .delta => 0x02
  | .flatten => 0x03
  | .turnover => 0x04
  | .deepen => 0x05

end HistoryOp

structure HistoryEntry where
  op : HistoryOp
  timestampNs : Nat
  inputs : List Digest
  params : Bytes
  deriving DecidableEq

structure History where
  entries : List HistoryEntry
  deriving DecidableEq

def historyEntryMinLen : Nat := 17

/-- The roots of `count` inputs, cut out of one run of bytes. -/
def splitRoots (count : Nat) (bytes : Fixed (32 * count)) : List Digest :=
  (List.finRange count).map fun (i : Fin count) =>
    ⟨(bytes.val.drop (32 * i.val)).take 32, by
      have hlen := bytes.2
      have hi := i.2
      simp only [List.length_take, List.length_drop]
      omega⟩

def historyOp (opByte : UInt8) : Except CoreError HistoryOp :=
  if opByte = 0xFF then
    .error (.unsupportedFeature "history op 0xFF (extended opcode, post-v1)")
  else
    match HistoryOp.fromByte opByte with
    | some op => .ok op
    | none => .error (.unsupportedFeature
        ("history op " ++ hex2 opByte ++ " is reserved (not in 0x01..0x05)"))

def parseHistoryEntryWithCeiling (maxParamsBytes : Nat) : CoreParser HistoryEntry := do
  let opByte ← readU8
  let op ← liftExcept (historyOp opByte)
  let timestampNs ← readU64Le
  let inputCount ← readU32Le
  let inputsBytes ← readFixed (32 * inputCount)
  let paramsLen ← readU32Le
  ensure (paramsLen ≤ maxParamsBytes)
    (.corrupt s!"history params_len {paramsLen} exceeds ceiling {maxParamsBytes}")
  let params ← readN paramsLen
  pure ⟨op, timestampNs, splitRoots inputCount inputsBytes, params⟩

/-- Put the index of an entry in front of a structural error or an unsupported feature. -/
def annotateEntry (text : String) : CoreError → CoreError
  | .corrupt reason => .corrupt (text ++ reason)
  | .unsupportedFeature feature => .unsupportedFeature (text ++ feature)
  | e => e

def parseHistoryStep (maxParamsBytes index : Nat) (entries : List HistoryEntry) :
    CoreParser (List HistoryEntry) := do
  let entry ← (parseHistoryEntryWithCeiling maxParamsBytes).mapError
    (annotateEntry s!"history entry {index}: ")
  pure (entries ++ [entry])

def parseHistoryWithCeiling (maxParamsBytes : Nat) : CoreParser History := do
  let sectionVersion ← readU8
  ensure (sectionVersion = 1) (unsupportedVersion "history" sectionVersion "1")
  let entryCount ← readU32Le
  ensure (entryCount ≠ 0)
    (.corrupt "history entry_count is 0 (every image must have at least the build entry)")
  demandLeft (entryCount * historyEntryMinLen)
  let entries ← loop (parseHistoryStep maxParamsBytes) entryCount 0 []
  pure ⟨entries⟩

def parseHistory : CoreParser History := parseHistoryWithCeiling defaultHistoryParamsMaxBytes

theorem framed_parseHistoryStep (maxParamsBytes index : Nat) (entries : List HistoryEntry) :
    Framed 17 (parseHistoryStep maxParamsBytes index entries) :=
  ((framed_readU8.bind fun _ => (framed_liftExcept _).bind fun _ => framed_readU64Le.bind fun _ =>
    framed_readU32Le.bind fun n => ((framed_readFixed (32 * n)).weaken (Nat.zero_le _)).bind
    fun _ => framed_readU32Le.bind fun k => framed_ensure.bind fun _ =>
    ((framed_readN k).weaken (Nat.zero_le _)).bind fun _ => framed_pure _).mapError.bind
    fun _ => framed_pure _).weaken (by decide)

theorem framed_parseHistory : Framed 5 parseHistory :=
  (framed_readU8.bind fun _ => framed_ensure.bind fun _ => framed_readU32Le.bind fun n =>
    framed_ensure.bind fun _ =>
    (((Framed.loop (framed_parseHistoryStep _) n 0 []).bind fun _ => framed_pure _).demand
      (Nat.le_refl _)).weaken (Nat.zero_le _)).weaken (by decide)

/-! ### Dictionaries -/

def dictionarySectionVersion : UInt8 := 1
def maxDictSize : Nat := 1024 * 1024

/-- The `dict_id` of a drop compressed without a dictionary. -/
def noDict : UInt8 := 0xFF

structure Dictionary where
  codecId : UInt8
  classId : UInt8
  data : Bytes
  deriving DecidableEq

structure DictionarySection where
  dicts : List Dictionary
  deriving DecidableEq

def parseDictionary (_index : Nat) (dicts : List Dictionary) : CoreParser (List Dictionary) := do
  let codecId ← readU8
  let classId ← readU8
  let dictLen ← readU32Le
  ensure (dictLen ≤ maxDictSize)
    (.corrupt s!"dictionary len {dictLen} exceeds cap {maxDictSize}")
  let data ← readN dictLen
  pure (dicts ++ [⟨codecId, classId, data⟩])

def parseDictionarySection : CoreParser DictionarySection := do
  let sectionVersion ← readU8
  ensure (sectionVersion = dictionarySectionVersion)
    (.unsupportedFeature (s!"dictionary_section version {sectionVersion}"
      ++ s!" (supported: {dictionarySectionVersion})"))
  let dictCount ← readU8
  let dicts ← loop parseDictionary dictCount.toNat 0 []
  pure ⟨dicts⟩

/-- A count past 255 and a length past `u32` are written as their caps. -/
def encodeDictionarySection (section_ : DictionarySection) : Bytes :=
  [dictionarySectionVersion,
    UInt8.ofNat (if section_.dicts.length < 256 then section_.dicts.length else 255)]
  ++ section_.dicts.flatMap fun dict =>
    [dict.codecId, dict.classId]
      ++ leBytes 4 (if dict.data.length < u32Limit then dict.data.length else maxDictSize)
      ++ dict.data

end LimniFS
