/-
What a write is configured with.

Codecs are named by text and looked up in one registry; a configuration that names a
codec the registry does not have fails the write before any file is read.  The rules
of the configuration come before the built-in categorizers: the first enabled rule
whose extension or magic bytes fit a file claims it, and the codec is then found
through the rule's name.

Names and extensions are UTF-8 bytes.  The fields the writer of a directory does not
read (encryption, the mode of the image, the turnover threshold) are left out, and the
tunables stand as `to_core_tunables` gives them.
-/
import LimniFS.ChunkerParallel
import LimniFS.DropEncoding
import LimniFS.Manifest

namespace LimniFS

open Lib

inductive ConfigError where
  | unknownCodec (name : String)
  deriving DecidableEq

/-- What `validate` says of a configuration. -/
inductive InvalidConfig where
  | invalidValue (field reason : String)
  | duplicateCategorizer (name : Bytes)
  deriving DecidableEq

inductive WriteError where
  | io (source : String)
  | unsupportedFileType (path : Path) (kind : String)
  deriving DecidableEq

/-- How a run ends without a result. -/
inductive WriteStop where
  | failed (e : WriteError)
  | panicked
  deriving DecidableEq

structure Defaults where
  textCodec : String
  binaryCodec : String
  metadataCodec : String
  metadataExternalizeThreshold : Nat
  sharedInline : Bool
  seekableDrops : Bool
  maxDropSize : Nat
  inlineThreshold : Nat

structure CategorizerConfig where
  name : Bytes
  extensions : List Bytes
  magicBytes : Bytes
  codec : String
  maxSize : Option Nat
  enabled : Bool

structure ChunkingConfig where
  avgChunkSize : Nat
  minChunkSize : Nat
  maxChunkSize : Nat

structure TournamentConfig where
  codecs : List String
  minSizeThreshold : Nat
  skipForBinary : Bool
  shortCircuitThreshold : Nat

structure DictionaryConfig where
  enabled : Bool
  minClassSize : Nat
  maxDictSize : Nat
  trainer : String

structure WriteConfig where
  defaults : Defaults
  categorizers : List CategorizerConfig
  chunking : ChunkingConfig
  tournament : TournamentConfig
  codecTunables : CodecTunables
  skipChunking : Bool
  dictionaries : DictionaryConfig

/-! ### Codecs by name -/

abbrev CodecRegistry := List (String × UInt8)

def CodecRegistry.lookupByName (registry : CodecRegistry) (name : String) : Option UInt8 :=
  (registry.find? fun entry => entry.1 = name).map (·.2)

def knownCodecs : CodecRegistry :=
  [("store", 0x00), ("lz4", 0x01), ("lz4-hc", 0x13), ("zstd", 0x02), ("xz", 0x03),
   ("brotli", 0x04), ("deflate", 0x05), ("snappy", 0x06), ("flac", 0x07), ("ricepp", 0x08),
   ("fsst+brotli", 0x09), ("shuffle+lz4", 0x0A), ("zpaq", 0x0B), ("ppmd", 0x0C),
   ("glza", 0x0D), ("shuffle+zstd", 0x0E), ("bitshuffle+lz4", 0x0F), ("bzip2", 0x10),
   ("deflate64", 0x11), ("libdeflate", 0x14), ("bcj-x86-lz4", 0x20), ("bcj-x86-zstd", 0x21),
   ("bcj-arm64-lz4", 0x23), ("bcj-arm64-zstd", 0x24)]

namespace WriteConfig

variable (config : WriteConfig)

/-- Every codec the configuration names, in the order they are checked. -/
def namedCodecs : List String :=
  [config.defaults.textCodec, config.defaults.binaryCodec, config.defaults.metadataCodec]
    ++ config.categorizers.map (·.codec) ++ config.tournament.codecs

def codecRegistry : Except ConfigError CodecRegistry :=
  match config.namedCodecs.find? fun name => (knownCodecs.lookupByName name).isNone with
  | some name => .error (.unknownCodec name)
  | none => .ok knownCodecs

/-- A codec by name, with the id taken for a name the registry does not have. -/
def codecIdOr (name : String) (fallback : UInt8) : Except ConfigError UInt8 := do
  let registry ← config.codecRegistry
  pure ((registry.lookupByName name).getD fallback)

def textCodecId : Except ConfigError UInt8 := config.codecIdOr config.defaults.textCodec 0x04

def binaryCodecId : Except ConfigError UInt8 := config.codecIdOr config.defaults.binaryCodec 0x01

def metadataCodecId : Except ConfigError UInt8 :=
  config.codecIdOr config.defaults.metadataCodec 0x04

end WriteConfig

/-! ### Validation -/

/-- The first name that was there before. -/
def firstDuplicate (seen : List Bytes) : List Bytes → Option Bytes
  | [] => none
  | name :: rest => if name ∈ seen then some name else firstDuplicate (name :: seen) rest

/-- `metadata_quality` is read by nothing else. -/
def WriteConfig.validate (config : WriteConfig) (metadataQuality : Nat) :
    Except InvalidConfig Unit :=
  let chunking := config.chunking
  let threshold := config.defaults.metadataExternalizeThreshold
  let ceiling := defaultInlineMetadataMaxBytes
  if chunking.avgChunkSize < chunking.minChunkSize then
    .error (.invalidValue "chunking.min_chunk_size"
      (s!"min_chunk_size ({chunking.minChunkSize}) > avg_chunk_size ({chunking.avgChunkSize})"))
  else if chunking.maxChunkSize < chunking.avgChunkSize then
    .error (.invalidValue "chunking.avg_chunk_size"
      (s!"avg_chunk_size ({chunking.avgChunkSize}) > max_chunk_size ({chunking.maxChunkSize})"))
  else if metadataQuality < 1 ∨ 11 < metadataQuality then
    .error (.invalidValue "defaults.metadata_quality"
      (s!"metadata_quality ({metadataQuality}) out of range 1..=11"))
  else if threshold = 0 ∨ ceiling < threshold then
    .error (.invalidValue "defaults.metadata_externalize_threshold"
      (s!"metadata_externalize_threshold ({threshold}) must be within 1..={ceiling}"
        ++ "                      (the reader inline ceiling; larger inline metadata is unreadable)"))
  else if config.defaults.maxDropSize ≠ 0 ∧ config.defaults.maxDropSize < 1024 then
    .error (.invalidValue "defaults.max_drop_size"
      (s!"max_drop_size ({config.defaults.maxDropSize}) is nonzero but below 1 KiB — no whole-file "
        ++ "drop can form under the cap; raise it or set 0 (unlimited)"))
  else if 1000 < config.tournament.shortCircuitThreshold then
    .error (.invalidValue "tournament.short_circuit_threshold"
      (s!"short_circuit_threshold ({config.tournament.shortCircuitThreshold}) out of range "
        ++ "0..=1000 (per-mille)"))
  else
    match firstDuplicate [] (config.categorizers.map (·.name)) with
    | some name => .error (.duplicateCategorizer name)
    | none => .ok ()

/-- **Metadata that a valid configuration inlines is within the reader's ceiling.** -/
theorem WriteConfig.threshold_le_of_validate {config : WriteConfig} {metadataQuality : Nat}
    (h : config.validate metadataQuality = .ok ()) :
    config.defaults.metadataExternalizeThreshold ≤ defaultInlineMetadataMaxBytes := by
  by_contra hlong
  unfold WriteConfig.validate at h
  simp only at h
  split at h
  · cases h
  · split at h
    · cases h
    · split at h
      · cases h
      · rw [if_pos (Or.inr (Nat.lt_of_not_le hlong))] at h
        cases h

/-- `result.unwrap_or(fallback)`. -/
def unwrapOr {ε α : Type} (result : Except ε α) (fallback : α) : α :=
  match result with
  | .ok a => a
  | .error _ => fallback

/-! ### The chunker of a configuration -/

def defaultParallelThreshold : Nat := 8 * 1024 * 1024

def chunkerFromConfig (config : WriteConfig) : Except WriteStop ParallelFastCDC :=
  match FastCDC.new config.chunking.minChunkSize config.chunking.avgChunkSize
      config.chunking.maxChunkSize with
  | .ok scalar => .ok ⟨scalar, defaultParallelThreshold⟩
  | .error e => .error (.failed (.io ("chunking config: " ++ e)))

/-! ### The rules of a configuration -/

structure Categorization where
  codecId : UInt8
  codecParams : Bytes
  category : String

/-- What follows the last dot of a name; a name that only starts with one has no extension. -/
def extensionOf (name : Bytes) : Option Bytes :=
  let after := (name.reverse.takeWhile (· ≠ 0x2E)).reverse
  if after.length + 1 < name.length then some after else none

/-- The lowercased extension of a path, if it is text. -/
def lowerExtension (path : Path) : Option Bytes :=
  match path.getLast?.bind extensionOf with
  | none => none
  | some e =>
    if utf8Valid e then some (e.map fun b => if 0x41 ≤ b ∧ b ≤ 0x5A then b + 0x20 else b) else none

/-- A handle of the rule: its name with the length in front, and whether it is enabled. -/
def encodeConfigRef (entry : CategorizerConfig) : Bytes :=
  leBytes 4 (if entry.name.length < u32Limit then entry.name.length else 0) ++ entry.name
    ++ [if entry.enabled then 1 else 0]

/-- Does a rule claim a file? -/
def CategorizerConfig.claims (entry : CategorizerConfig) (path : Path) (data : Bytes) : Bool :=
  entry.enabled
    && ((lowerExtension path).any (fun e => entry.extensions.contains e)
      || (!entry.magicBytes.isEmpty && entry.magicBytes.isPrefixOf data))
    && entry.maxSize.all (fun limit => data.length ≤ limit)

/-- The first rule that claims the file; the codec is resolved later. -/
def configCategorize (entries : List CategorizerConfig) (path : Path) (data : Bytes) :
    Option Categorization :=
  (entries.find? fun entry => entry.claims path data).map fun entry =>
    ⟨0, encodeConfigRef entry, "config"⟩

/-- From the handle back to a rule, by name, and to the id of its codec. -/
def resolveConfigCategorization (cat : Categorization) (entries : List CategorizerConfig)
    (codecResolver : String → Option UInt8) : Option UInt8 :=
  if cat.category ≠ "config" then none
  else if cat.codecParams.length < 5 then none
  else
    let nameLen := leNat (cat.codecParams.take 4)
    let rest := cat.codecParams.drop 4
    if rest.length < nameLen + 1 then none
    else if utf8Valid (rest.take nameLen) = false then none
    else
      match entries.find? fun entry => entry.name = rest.take nameLen with
      | none => none
      | some entry => if entry.enabled then codecResolver entry.codec else none

end LimniFS
