/-
The sections of a manifest.

A manifest is a header followed by sections, each with its own version byte, and
nothing but the sections themselves says where one ends and the next begins.  The
parsers are the core's, check for check and in the core's order, with the texts of
their errors.

Every one of them is framed: what it accepts it accepts because of its own bytes,
in front of anything else.  This is what the later modules rest on, whether they
hash a section, copy it into another manifest or append to it.
-/
import LimniFS.Codec

namespace LimniFS

open Lib Lib.Parser Cursor

/-! ### Header -/

def manifestMagic : Bytes := ascii "LMFS"
def manifestHeaderLen : Nat := 16

structure ManifestHeader where
  dropStoreVersion : Nat
  metadataVersion : Nat
  manifestVersion : Nat
  deriving DecidableEq

namespace ManifestHeader

def current : ManifestHeader := ⟨1, 1, 1⟩

def toBytes (h : ManifestHeader) : Bytes :=
  manifestMagic ++ leBytes 2 h.dropStoreVersion ++ leBytes 2 h.metadataVersion
    ++ leBytes 2 h.manifestVersion ++ [0, 0, 0, 0, 0, 0]

end ManifestHeader

def parseManifestHeader : CoreParser ManifestHeader := do
  let magic ← readN 4
  ensure (magic = manifestMagic) (.badMagic magic)
  let dropStoreVersion ← readU16Le
  let metadataVersion ← readU16Le
  let manifestVersion ← readU16Le
  let reserved ← readN 6
  ensure (reserved.all (· == 0) = true) (.corrupt
    (s!"reserved bytes 10..{manifestHeaderLen} must be zero, found " ++ debugBytes reserved))
  pure ⟨dropStoreVersion, metadataVersion, manifestVersion⟩

theorem framed_parseManifestHeader : Framed 16 parseManifestHeader :=
  ((framed_readN 4).bind fun _ => framed_ensure.bind fun _ => framed_readU16Le.bind fun _ =>
    framed_readU16Le.bind fun _ => framed_readU16Le.bind fun _ => (framed_readN 6).bind fun _ =>
    framed_ensure.bind fun _ => framed_pure _).weaken (by decide)

/-! ### Feature flags -/

structure FeatureFlag where
  flagId : Nat
  required : Bool
  deriving DecidableEq

structure FeatureFlags where
  entries : List FeatureFlag
  deriving DecidableEq

/-- The entry for `flagId`, if declared. -/
def FeatureFlags.get (flags : FeatureFlags) (flagId : Nat) : Option FeatureFlag :=
  flags.entries.find? fun entry => entry.flagId = flagId

def featureFlagsEntryLen : Nat := 3

/-- A section version other than the supported one. -/
def unsupportedVersion (section_ : String) (found : UInt8) (supported : String) : CoreError :=
  .unsupportedFeature (s!"{section_} section version {found} (supported: {supported})")

def parseFeatureFlag (index : Nat) (entries : List FeatureFlag) : CoreParser (List FeatureFlag) := do
  let flagId ← readU16Le
  ensure (flagId ≠ 0)
    (.corrupt s!"feature_flags entry {index}: flag_id 0x0000 is reserved")
  let requiredByte ← readU8
  ensure (requiredByte = 0 ∨ requiredByte = 1) (.corrupt
    (s!"feature_flags entry {index}: required byte must be 0x00 or 0x01, got "
      ++ hex2 requiredByte))
  ensure (entries.all (fun e => e.flagId != flagId) = true)
    (.corrupt (s!"feature_flags entry {index}: duplicate flag_id " ++ hex4 flagId))
  pure (entries ++ [⟨flagId, requiredByte == 1⟩])

def parseFeatureFlagsSection : CoreParser FeatureFlags := do
  let sectionVersion ← readU8
  ensure (sectionVersion = 1) (unsupportedVersion "feature_flags" sectionVersion "1")
  let entryCount ← readU32Le
  demandLeft (entryCount * featureFlagsEntryLen)
  let entries ← loop parseFeatureFlag entryCount 0 []
  pure ⟨entries⟩

theorem framed_parseFeatureFlag (index : Nat) (entries : List FeatureFlag) :
    Framed 3 (parseFeatureFlag index entries) :=
  (framed_readU16Le.bind fun _ => framed_ensure.bind fun _ => framed_readU8.bind fun _ =>
    framed_ensure.bind fun _ => framed_ensure.bind fun _ => framed_pure _).weaken (by decide)

theorem framed_parseFeatureFlagsSection : Framed 5 parseFeatureFlagsSection :=
  (framed_readU8.bind fun _ => framed_ensure.bind fun _ => framed_readU32Le.bind fun n =>
    (((Framed.loop framed_parseFeatureFlag n 0 []).bind fun _ => framed_pure _).demand
      (Nat.le_refl _)).weaken (Nat.zero_le _)).weaken (by decide)

/-! ### Locators -/

/-- A URI, as its UTF-8 bytes. -/
structure LocatorEntry where
  uri : Bytes
  deriving DecidableEq

def defaultLocatorMaxUriBytes : Nat := 4 * 1024
def minLocatorUriBytes : Nat := 4
def locatorLengthPrefixLen : Nat := 4

/-- `s.split_once(sep)`. -/
def splitOnce (sep : UInt8) (s : Bytes) : Option (Bytes × Bytes) :=
  if sep ∈ s then some (s.takeWhile (· != sep), (s.dropWhile (· != sep)).tail) else none

def isAsciiAlphabetic (b : UInt8) : Bool := (65 ≤ b && b ≤ 90) || (97 ≤ b && b ≤ 122)

def isAsciiAlphanumeric (b : UInt8) : Bool := isAsciiAlphabetic b || (48 ≤ b && b ≤ 57)

/-- `scheme = ALPHA *( ALPHA / DIGIT / "+" / "-" / "." )`. -/
def isValidScheme : Bytes → Bool
  | [] => false
  | first :: rest =>
    isAsciiAlphabetic first
      && rest.all fun c => isAsciiAlphanumeric c || c == 43 || c == 45 || c == 46

/-- The checks on a URI once its bytes are read. -/
def checkUri (uri : Bytes) : Except CoreError LocatorEntry :=
  if utf8Valid uri = false then
    .error (.corrupt s!"locator URI is not valid UTF-8 ({uri.length} bytes)")
  else
    match splitOnce 58 uri with
    | none => .error (.corrupt ("locator URI " ++ debugStr uri ++ " missing scheme separator ':'"))
    | some (scheme, rest) =>
      if scheme = [] then
        .error (.corrupt ("locator URI " ++ debugStr uri ++ " has empty scheme"))
      else if isValidScheme scheme = false then
        .error (.corrupt ("locator URI " ++ debugStr uri ++ " has scheme " ++ debugStr scheme
          ++ " that does not match RFC 3986 grammar"))
      else if rest = [] then
        .error (.corrupt ("locator URI " ++ debugStr uri ++ " has empty scheme-specific part"))
      else .ok ⟨uri⟩

/-- A check on values already read. -/
def liftExcept {α : Type} : Except CoreError α → CoreParser α
  | .ok a => pure a
  | .error e => Parser.fail e

theorem framed_liftExcept {α : Type} (r : Except CoreError α) : Framed 0 (liftExcept r) := by
  cases r with
  | ok a => exact framed_pure a
  | error e => exact framed_fail

theorem reads_liftExcept {α : Type} {r : Except CoreError α} {a : α} (h : r = .ok a) :
    Reads (liftExcept r) [] a := by
  rw [h]
  exact reads_pure a

def parseLocatorEntryWithCeiling (maxUriBytes : Nat) : CoreParser LocatorEntry := do
  let rawLength ← readU32Le
  ensure (minLocatorUriBytes ≤ rawLength)
    (.corrupt s!"locator length {rawLength} is below minimum {minLocatorUriBytes}")
  ensure (rawLength ≤ maxUriBytes)
    (.corrupt s!"locator length {rawLength} exceeds ceiling {maxUriBytes}")
  let uri ← readN rawLength
  liftExcept (checkUri uri)

/-- Put the index of an entry in front of a structural error. -/
def annotateCorrupt (text : String) : CoreError → CoreError
  | .corrupt reason => .corrupt (text ++ reason)
  | e => e

def parseLocatorEntriesWithCeiling (count maxUriBytes : Nat) : CoreParser (List LocatorEntry) := do
  demandLeft (count * (locatorLengthPrefixLen + minLocatorUriBytes))
  loop (fun index entries => do
    let entry ← (parseLocatorEntryWithCeiling maxUriBytes).mapError
      (annotateCorrupt s!"locator entry {index}: ")
    pure (entries ++ [entry])) count 0 []

/-- Only the length prefix is certain for an arbitrary length, but a length below the minimum
is rejected. -/
theorem framed_parseLocatorEntry (maxUriBytes : Nat) :
    Framed 8 (parseLocatorEntryWithCeiling maxUriBytes) := by
  show Framed (4 + 4) _
  refine framed_readU32Le.bind fun n => Framed.ensure fun hn => ?_
  exact (framed_ensure.bind fun _ => (framed_readN n).bind fun _ => framed_liftExcept _).weaken
    (by unfold minLocatorUriBytes at hn; omega)

theorem framed_parseLocatorEntries (count maxUriBytes : Nat) :
    Framed (count * 8) (parseLocatorEntriesWithCeiling count maxUriBytes) :=
  (Framed.loop (fun _ _ => (framed_parseLocatorEntry maxUriBytes).mapError.bind fun _ =>
    framed_pure _) count 0 []).demand (Nat.le_refl _)

/-! ### Metadata reference -/

def defaultInlineMetadataMaxBytes : Nat := 1024 * 1024

structure MetadataReference where
  metadataHash : Digest
  locators : List LocatorEntry
  inlineMetadata : Option Bytes
  codec : UInt8
  uncompressedLen : Nat
  deriving DecidableEq

section MetadataReferenceSection

variable (z : Omnizip)

/-- `{e}` of a core error inside another message. -/
def CoreError.display : CoreError → String
  | .tooShort available need =>
    s!"manifest header truncated: have {available} bytes, need {need}"
  | .badMagic found => "bad manifest magic: expected LMFS, found " ++ debugBytes found
  | .corrupt reason => s!"manifest corrupt: {reason}"
  | .unsupportedFeature feature => s!"unsupported feature: {feature}"
  | .panicked payload => payload

/-- Decompress an inline blob and check its length. -/
def decodeInlineBlob (codec : UInt8) (wire : Bytes) (uncompressedLen : Nat) :
    Except CoreError Bytes :=
  if codec = codecStore then .ok wire
  else
    match decompress z codec wire uncompressedLen with
    | .error e => .error (.corrupt
        ("metadata_reference: codec " ++ hex2 codec ++ " decompress failed: " ++ e.display))
    | .ok uncompressed =>
      let got := saturateU32 uncompressed.length
      if got ≠ uncompressedLen then
        .error (.corrupt (s!"metadata_reference: decompressed length {got} does not match"
          ++ s!" declared uncompressed_len {uncompressedLen}"))
      else .ok uncompressed

def readInlineBlob (inlineDataLen maxInlineMetadataBytes uncompressedLen : Nat) (codec : UInt8) :
    CoreParser (Option Bytes) :=
  if inlineDataLen = 0 then pure none
  else do
    ensure (inlineDataLen ≤ maxInlineMetadataBytes)
      (.corrupt (s!"metadata_reference inline_data_len {inlineDataLen} exceeds ceiling"
        ++ s!" {maxInlineMetadataBytes}"))
    let wire ← readN inlineDataLen
    let blob ← liftExcept (decodeInlineBlob z codec wire uncompressedLen)
    pure (some blob)

def unreachableError (prefixLen : Nat) : CoreError :=
  .corrupt ("metadata_reference is unreachable: locator_count=0 and inline_data_len=0"
    ++ s!" (need at least one source for the {prefixLen}-byte metadata blob)")

def parseMetadataReferenceV1 (maxLocatorUriBytes maxInlineMetadataBytes : Nat) :
    CoreParser MetadataReference := do
  let metadataHash ← readHash
  let locatorCount ← readU32Le
  let locators ← parseLocatorEntriesWithCeiling locatorCount maxLocatorUriBytes
  let inlineMetadataLen ← readU32Le
  let inlineMetadata ←
    readInlineBlob z inlineMetadataLen maxInlineMetadataBytes inlineMetadataLen codecStore
  ensure (locators ≠ [] ∨ inlineMetadata ≠ none) (unreachableError 37)
  pure ⟨metadataHash, locators, inlineMetadata, codecStore, inlineMetadataLen⟩

def parseMetadataReferenceV2 (maxLocatorUriBytes maxInlineMetadataBytes : Nat) :
    CoreParser MetadataReference := do
  let metadataHash ← readHash
  let uncompressedLen ← readU32Le
  let codec ← readU8
  let locatorCount ← readU32Le
  let locators ← parseLocatorEntriesWithCeiling locatorCount maxLocatorUriBytes
  let inlineDataLen ← readU32Le
  let inlineMetadata ←
    readInlineBlob z inlineDataLen maxInlineMetadataBytes uncompressedLen codec
  ensure (locators ≠ [] ∨ inlineMetadata ≠ none) (unreachableError 42)
  pure ⟨metadataHash, locators, inlineMetadata, codec, uncompressedLen⟩

def parseMetadataReferenceWithCeilings (maxLocatorUriBytes maxInlineMetadataBytes : Nat) :
    CoreParser MetadataReference := do
  let sectionVersion ← readU8
  if sectionVersion = 1 then parseMetadataReferenceV1 z maxLocatorUriBytes maxInlineMetadataBytes
  else if sectionVersion = 2 then
    parseMetadataReferenceV2 z maxLocatorUriBytes maxInlineMetadataBytes
  else Parser.fail (unsupportedVersion "metadata_reference" sectionVersion "1, 2")

def parseMetadataReference : CoreParser MetadataReference :=
  parseMetadataReferenceWithCeilings z defaultLocatorMaxUriBytes defaultInlineMetadataMaxBytes

theorem framed_readInlineBlob (n maxBytes len : Nat) (codec : UInt8) :
    Framed 0 (readInlineBlob z n maxBytes len codec) :=
  Framed.ite (framed_pure _) ((framed_ensure.bind fun _ => (framed_readN n).bind fun _ =>
    (framed_liftExcept _).bind fun _ => framed_pure _).weaken (Nat.zero_le _))

theorem framed_parseMetadataReferenceV1 (maxUri maxInline : Nat) :
    Framed 40 (parseMetadataReferenceV1 z maxUri maxInline) :=
  (framed_readHash.bind fun _ => framed_readU32Le.bind fun n =>
    ((framed_parseLocatorEntries n maxUri).weaken (Nat.zero_le _)).bind fun _ =>
    framed_readU32Le.bind fun _ => (framed_readInlineBlob z _ _ _ _).bind fun _ =>
    framed_ensure.bind fun _ => framed_pure _).weaken (by decide)

theorem framed_parseMetadataReferenceV2 (maxUri maxInline : Nat) :
    Framed 40 (parseMetadataReferenceV2 z maxUri maxInline) :=
  (framed_readHash.bind fun _ => framed_readU32Le.bind fun _ => framed_readU8.bind fun _ =>
    framed_readU32Le.bind fun n =>
    ((framed_parseLocatorEntries n maxUri).weaken (Nat.zero_le _)).bind fun _ =>
    framed_readU32Le.bind fun _ => (framed_readInlineBlob z _ _ _ _).bind fun _ =>
    framed_ensure.bind fun _ => framed_pure _).weaken (by decide)

theorem framed_parseMetadataReference : Framed 41 (parseMetadataReference z) :=
  framed_readU8.bind fun _ => Framed.ite (framed_parseMetadataReferenceV1 z _ _)
    (Framed.ite (framed_parseMetadataReferenceV2 z _ _) framed_fail)

end MetadataReferenceSection

/-! ### Slab index -/

structure SlabId where
  ordinal : Nat
  hash : Digest
  deriving DecidableEq

structure SlabIndexEntry where
  slabId : SlabId
  locators : List LocatorEntry
  deriving DecidableEq

structure SlabIndex where
  entries : List SlabIndexEntry
  deriving DecidableEq

def slabIndexEntryFixedLen : Nat := 44

def readSlabId : CoreParser SlabId := do
  let ordinal ← readU64Le
  let hash ← readHash
  pure ⟨ordinal, hash⟩

def parseSlabIndexEntry (maxLocatorUriBytes index : Nat) (entries : List SlabIndexEntry) :
    CoreParser (List SlabIndexEntry) := do
  let slabId ← readSlabId
  ensure (entries.all (fun e => e.slabId != slabId) = true)
    (.corrupt (s!"slab_index entry {index}: duplicate slab_id (ordinal {slabId.ordinal}, hash "
      ++ String.ofList (hexLower slabId.hash.val) ++ ")"))
  let locatorCount ← readU32Le
  ensure (locatorCount ≠ 0)
    (.corrupt (s!"slab_index entry {index}: slab_id (ordinal {slabId.ordinal})"
      ++ " declares zero locators (unreachable)"))
  let locators ← parseLocatorEntriesWithCeiling locatorCount maxLocatorUriBytes
  pure (entries ++ [⟨slabId, locators⟩])

def parseSlabIndex : CoreParser SlabIndex := do
  let sectionVersion ← readU8
  ensure (sectionVersion = 1) (unsupportedVersion "slab_index" sectionVersion "1")
  let entryCount ← readU32Le
  demandLeft (entryCount * slabIndexEntryFixedLen)
  let entries ← loop (parseSlabIndexEntry defaultLocatorMaxUriBytes) entryCount 0 []
  pure ⟨entries⟩

theorem framed_readSlabId : Framed 40 readSlabId :=
  framed_readU64Le.bind fun _ => framed_readHash.bind fun _ => framed_pure _

theorem reads_readSlabId {id : SlabId} (h : id.ordinal < 2 ^ 64) :
    Reads readSlabId (leBytes 8 id.ordinal ++ id.hash.val) id :=
  (reads_readU64Le h).bind
    ((reads_readFixed id.hash).map fun hash => (⟨id.ordinal, hash⟩ : SlabId))

theorem framed_parseSlabIndexEntry (maxUri index : Nat) (entries : List SlabIndexEntry) :
    Framed 44 (parseSlabIndexEntry maxUri index entries) :=
  (framed_readSlabId.bind fun _ => framed_ensure.bind fun _ => framed_readU32Le.bind fun n =>
    framed_ensure.bind fun _ => ((framed_parseLocatorEntries n maxUri).weaken
      (Nat.zero_le _)).bind fun _ => framed_pure _).weaken (by decide)

theorem framed_parseSlabIndex : Framed 5 parseSlabIndex :=
  (framed_readU8.bind fun _ => framed_ensure.bind fun _ => framed_readU32Le.bind fun n =>
    (((Framed.loop (framed_parseSlabIndexEntry _) n 0 []).bind fun _ => framed_pure _).demand
      (Nat.le_refl _)).weaken (Nat.zero_le _)).weaken (by decide)

/-! ### The front -/

/-- What every reader of a manifest starts with, and the bytes of each section. -/
structure ManifestFront where
  headerBytes : Bytes
  flagsBytes : Bytes
  metadataReference : MetadataReference
  metadataReferenceBytes : Bytes

def ManifestFront.bytes (front : ManifestFront) : Bytes :=
  front.headerBytes ++ (front.flagsBytes ++ front.metadataReferenceBytes)

def parseManifestFront (z : Omnizip) : CoreParser ManifestFront := do
  let header ← parseManifestHeader.withSpan
  let flags ← parseFeatureFlagsSection.withSpan
  let ref ← (parseMetadataReference z).withSpan
  pure ⟨header.2, flags.2, ref.1, ref.2⟩

theorem parseManifestFront_ok {z : Omnizip} {bs rest : Bytes} {front : ManifestFront}
    (h : parseManifestFront z bs = (.ok front, rest)) :
    bs = front.bytes ++ rest ∧ Reads (parseManifestFront z) front.bytes front := by
  simp only [parseManifestFront, bind_eq_ok, pure_eq_ok] at h
  obtain ⟨⟨hd, hdb⟩, r₁, hhd, ⟨fl, flb⟩, r₂, hfl, ⟨mr, mrb⟩, r₃, hmr, rfl, rfl⟩ := h
  obtain ⟨e₁, -, hd₁⟩ := framed_parseManifestHeader.withSpan_eq hhd
  obtain ⟨e₂, -, fl₂⟩ := framed_parseFeatureFlagsSection.withSpan_eq hfl
  obtain ⟨e₃, -, mr₃⟩ := (framed_parseMetadataReference z).withSpan_eq hmr
  refine ⟨by simp only [ManifestFront.bytes, List.append_assoc]; rw [e₁, e₂, e₃], ?_⟩
  refine Reads.bind hd₁.withSpan ?_
  refine Reads.bind fl₂.withSpan ?_
  exact Reads.map mr₃.withSpan fun ref => (⟨hdb, flb, ref.1, ref.2⟩ : ManifestFront)

end LimniFS
