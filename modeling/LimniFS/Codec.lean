/-
The codec registry.

A drop record names its codec by one byte and the registry dispatches on it.  The
coders themselves live in the omnizip crates, outside this repository; they are the
fields of `Omnizip`, and `Omnizip.Lawful` says what is documented of them: each
decoder inverts its encoder on the bytes the encoder was given.  What this
repository adds around them is modelled as it stands: the levels picked from the
tunables, the length checks some wrappers make and others leave out, the length
prefix of the filter composites, the framing of FSST + Brotli, the Adler-32 patch of
libdeflate, the container walk in front of FLAC, and the conversion of a coder's
panic into an error.
-/
import LimniFS.Core

namespace LimniFS

open Lib

/-! ### The codec ids -/

def codecStore : UInt8 := 0x00
def codecLz4 : UInt8 := 0x01
def codecZstd : UInt8 := 0x02
def codecXz : UInt8 := 0x03
def codecBrotli : UInt8 := 0x04
def codecDeflate : UInt8 := 0x05
def codecSnappy : UInt8 := 0x06
def codecFlac : UInt8 := 0x07
def codecRicepp : UInt8 := 0x08
def codecFsstBrotli : UInt8 := 0x09
def codecBlosc2ShuffleLz4 : UInt8 := 0x0A
def codecZpaq : UInt8 := 0x0B
def codecPpmd : UInt8 := 0x0C
def codecGlza : UInt8 := 0x0D
def codecShuffleZstd : UInt8 := 0x0E
def codecBitshuffleLz4 : UInt8 := 0x0F
def codecBzip2 : UInt8 := 0x10
def codecDeflate64 : UInt8 := 0x11
def codecPpmd8 : UInt8 := 0x12
def codecLz4Hc : UInt8 := 0x13
def codecLibdeflate : UInt8 := 0x14
def codecBcjX86Lz4 : UInt8 := 0x20
def codecBcjX86Zstd : UInt8 := 0x21
def codecBcjArm64Lz4 : UInt8 := 0x23
def codecBcjArm64Zstd : UInt8 := 0x24

/-- Marks a drop that lives in a base image; never a registered codec. -/
def codecReferenced : UInt8 := 0xFE

/-- The knobs a writer can turn; a codec reads the ones it knows. -/
structure CodecTunables where
  quality : Nat
  zstdQuality : Nat
  xzLevel : Nat
  ppmdOrder : Nat
  ppmd7Budget : Nat
  ppmd8Budget : Nat
  bzip2BlockKb : Nat
  deriving DecidableEq

def CodecTunables.fromQuality (quality : Nat) : CodecTunables := ⟨quality, quality, 0, 0, 0, 0, 0⟩

/-! ### The coders of the omnizip crates -/

/-- How a call into a coder goes wrong. -/
inductive Fault where
  | error (text : String)
  | panic (payload : String)

/-- A coder's result. -/
abbrev Coded := Except Fault Bytes

inductive ZstdLevel where
  | fastest
  | fast
  | default
  | better
  | best

/-- A reversible byte filter. -/
structure Filter where
  encode : Bytes → Bytes
  decode : Bytes → Bytes

structure Omnizip where
  brotliCompress : Nat → Bytes → Coded
  brotliDecompress : Bytes → Nat → Coded
  zstdCompress : ZstdLevel → Bytes → Coded
  /-- The multi-threaded encoder; its output does not depend on the thread count. -/
  zstdCompressMt : ZstdLevel → Bytes → Coded
  zstdDecompress : Bytes → Nat → Coded
  /-- How a level prints in an error message. -/
  zstdLevelText : ZstdLevel → String
  zstdCompressWithDict : Bytes → Bytes → Coded
  zstdDecompressWithDict : Bytes → Nat → Bytes → Coded
  lz4FastCompress : Bytes → Coded
  lz4HcCompress : Bytes → Coded
  lz4Decompress : Bytes → Nat → Coded
  xzCompress : Nat → Bytes → Coded
  xzDecompress : Bytes → Coded
  deflateCompress : Nat → Bytes → Coded
  deflateDecompress : Bytes → Nat → Coded
  libdeflateCompress : Bytes → Coded
  libdeflateDecompress : Bytes → Nat → Coded
  snappyCompress : Bytes → Coded
  snappyDecompress : Bytes → Nat → Coded
  ppmd7Compress : Nat → Nat → Bytes → Coded
  ppmd7Decompress : Bytes → Nat → Coded
  ppmd8Compress : Nat → Nat → Bytes → Coded
  ppmd8Decompress : Bytes → Nat → Coded
  bzip2Compress : Nat → Bytes → Coded
  bzip2Decompress : Bytes → Nat → Coded
  deflate64Compress : Nat → Bytes → Coded
  deflate64Decompress : Bytes → Nat → Coded
  glzaCompress : Bytes → Coded
  glzaDecompress : Bytes → Coded
  zpaqCompress : Bytes → Coded
  zpaqDecompress : Bytes → Coded
  riceppCompress : Bytes → Coded
  riceppDecompress : Bytes → Coded
  fsstCompress : Bytes → Coded
  fsstDecompress : Bytes → Coded
  PcmParams : Type
  pcmTotalBytes : PcmParams → Nat
  parseWav : Bytes → Option PcmParams
  parseAiff : Bytes → Option PcmParams
  flacCompress : Bytes → PcmParams → Coded
  flacDecompress : Bytes → Coded
  byteShuffle4 : Filter
  bitShuffle8 : Filter
  bcjX86 : Filter
  bcjArm64 : Filter

/-! ### Wrappers -/

/-- A failed codec call: an error of the core, or a panic not yet caught. -/
inductive CodecFailure where
  | core (e : CoreError)
  | panic (payload : String)

/-- Put the wrapper's label on a coder's error. -/
def relabel (label : String) : Coded → Except CodecFailure Bytes
  | .ok c => .ok c
  | .error (.error text) => .error (.core (.corrupt (label ++ text)))
  | .error (.panic payload) => .error (.panic payload)

/-- Run a codec call, converting a panic into an error. -/
def codecCall : Except CodecFailure Bytes → Except CoreError Bytes
  | .ok c => .ok c
  | .error (.core e) => .error e
  | .error (.panic payload) => .error (.corrupt ("codec panicked: " ++ payload))

/-- The length check of the wrappers that make one. -/
def checkLen (name : String) (expectedLen : Nat) :
    Except CodecFailure Bytes → Except CodecFailure Bytes
  | .error e => .error e
  | .ok result =>
    if result.length = expectedLen then .ok result
    else .error (.core (.corrupt (s!"{name} decompress: result length {result.length}"
      ++ s!" does not match plaintext_len {expectedLen}")))

structure Codec where
  id : UInt8
  name : String
  compress : Bytes → Except CodecFailure Bytes
  decompress : Bytes → Nat → Except CodecFailure Bytes
  compressWithTunables : CodecTunables → Bytes → Except CodecFailure Bytes

/-- A codec that keeps the trait's default and ignores the tunables. -/
def plainCodec (id : UInt8) (name : String) (compress : Bytes → Except CodecFailure Bytes)
    (decompress : Bytes → Nat → Except CodecFailure Bytes) : Codec :=
  { id, name, compress, decompress, compressWithTunables := fun _ => compress }

variable (z : Omnizip)

def storeCodec : Codec :=
  plainCodec codecStore "store" .ok fun compressed expected =>
    if compressed.length = expected then .ok compressed
    else .error (.core (.corrupt (s!"store codec: compressed length {compressed.length}"
      ++ s!" does not match plaintext_len {expected}")))

def lz4Codec : Codec :=
  plainCodec codecLz4 "lz4" (fun x => relabel "lz4: " (z.lz4FastCompress x))
    fun c n => relabel "lz4: " (z.lz4Decompress c n)

/-- Same wire format as the fast codec, hence its decoder. -/
def lz4HcCodec : Codec :=
  plainCodec codecLz4Hc "lz4-hc" (fun x => relabel "lz4-hc: " (z.lz4HcCompress x))
    fun c n => relabel "lz4-hc: " (z.lz4Decompress c n)

def mtWholeFileThreshold : Nat := 4 * 1024 * 1024

def levelForQuality (quality : Nat) : ZstdLevel :=
  if quality ≤ 2 then .fastest
  else if quality ≤ 5 then .fast
  else if quality ≤ 11 then .default
  else if quality ≤ 21 then .better
  else .best

def zstdCompressVerified (level : ZstdLevel) (x : Bytes) : Except CodecFailure Bytes :=
  relabel ("zstd compress (level " ++ z.zstdLevelText level ++ ") failed: ")
    (if mtWholeFileThreshold ≤ x.length then z.zstdCompressMt level x
     else z.zstdCompress level x)

def zstdCodec : Codec where
  id := codecZstd
  name := "zstd"
  compress := zstdCompressVerified z .fastest
  decompress c n := checkLen "zstd" n (relabel "zstd decompress failed: " (z.zstdDecompress c n))
  compressWithTunables t :=
    zstdCompressVerified z (levelForQuality (if 0 < t.zstdQuality then t.zstdQuality else 2))

def xzCompressAtLevel (level : Nat) (x : Bytes) : Except CodecFailure Bytes :=
  relabel s!"xz compress (level {level}) failed: " (z.xzCompress (max 1 (min level 9)) x)

def xzCodec : Codec where
  id := codecXz
  name := "xz"
  compress := xzCompressAtLevel z 6
  decompress c n := checkLen "xz" n (relabel "xz decompress failed: " (z.xzDecompress c))
  compressWithTunables t := xzCompressAtLevel z (if 0 < t.xzLevel then min t.xzLevel 9 else 6)

/-- `brotli::compress`, quality clamped to `0..=11`. -/
def brotliCompress (quality : Nat) (x : Bytes) : Except CodecFailure Bytes :=
  relabel "brotli: " (z.brotliCompress (min quality 11) x)

def brotliDefaultQuality : Nat := 5

/-- `decompress_at_quality`: no length check of its own. -/
def brotliDecompressAtQuality (c : Bytes) (n : Nat) : Except CodecFailure Bytes :=
  relabel "brotli: " (z.brotliDecompress c n)

def brotliCodec : Codec where
  id := codecBrotli
  name := "brotli"
  compress := brotliCompress z brotliDefaultQuality
  decompress c n := checkLen "brotli" n (relabel "brotli: " (z.brotliDecompress c n))
  compressWithTunables t := brotliCompress z t.quality

def deflateCodec : Codec :=
  plainCodec codecDeflate "deflate" (fun x => relabel "deflate: " (z.deflateCompress 6 x))
    fun c n => checkLen "deflate" n (relabel "deflate: " (z.deflateDecompress c n))

/-- One byte of the Adler-32 sums. -/
def adlerStep (sums : Nat × Nat) (byte : UInt8) : Nat × Nat :=
  let a := (sums.1 + byte.toNat) % 65521
  (a, (sums.2 + a) % 65521)

def adler32 (data : Bytes) : Nat :=
  let sums := data.foldl adlerStep (1, 0)
  sums.2 * 2 ^ 16 + sums.1

/-- Overwrite the four trailing bytes of a zlib stream with the right checksum. -/
def patchAdler (plaintext out : Bytes) : Bytes :=
  if 6 ≤ out.length then out.take (out.length - 4) ++ (leBytes 4 (adler32 plaintext)).reverse
  else out

def libdeflateCodec : Codec :=
  plainCodec codecLibdeflate "libdeflate"
    (fun x => (relabel "libdeflate: " (z.libdeflateCompress x)).map (patchAdler x))
    fun c n => checkLen "libdeflate" n (relabel "libdeflate: " (z.libdeflateDecompress c n))

def snappyCodec : Codec :=
  plainCodec codecSnappy "snappy" (fun x => relabel "snappy compress failed: " (z.snappyCompress x))
    fun c n => relabel "snappy decompress failed: " (z.snappyDecompress c n)

/-! ### FLAC

The wrapper takes a whole WAV or AIFF file, finds the sample data in it and encodes
only that. -/

/-- Walk the chunks of a RIFF or FORM file up to the one called `tag`; the fuel bounds the
number of chunks left, each of at least eight bytes. -/
def chunkWalk (input tag : Bytes) (size : Bytes → Nat) : Nat → Nat → Option Nat
  | 0, _ => none
  | fuel + 1, off =>
    if off + 8 ≤ input.length then
      let chunkId := (input.drop off).take 4
      let len := size ((input.drop (off + 4)).take 4)
      let body := off + 8
      if chunkId = tag then some body
      else chunkWalk input tag size fuel (body + len + len % 2)
    else none

def beNat (l : Bytes) : Nat := leNat l.reverse

def pcmPayloadOffset (input : Bytes) : Nat :=
  if input.length < 12 then 0
  else
    let riff :=
      if input.take 4 = ascii "RIFF" ∧ (input.drop 8).take 4 = ascii "WAVE" then
        chunkWalk input (ascii "data") leNat input.length 12
      else none
    match riff with
    | some body => body
    | none =>
      let form :=
        if input.take 4 = ascii "FORM" ∧ (input.drop 8).take 4 = ascii "AIFF" then
          chunkWalk input (ascii "SSND") beNat input.length 12
        else none
      match form with
      | some body => body + 8
      | none => 0

/-- The samples the encoder is handed, with their parameters. -/
def flacPayload (plaintext : Bytes) : Except CodecFailure (z.PcmParams × Bytes) :=
  match (z.parseWav plaintext).or (z.parseAiff plaintext) with
  | none => .error (.core (.corrupt "flac: input is not a recognised WAV/AIFF container"))
  | some params =>
    let pcmOffset := pcmPayloadOffset plaintext
    if plaintext.length < pcmOffset then
      -- the slice `plaintext[pcm_offset..]` is out of range
      .error (.panic (s!"range start index {pcmOffset} out of range for slice of length"
        ++ s!" {plaintext.length}"))
    else
      let pcm := plaintext.drop pcmOffset
      let expected := z.pcmTotalBytes params
      if pcm.length < expected then
        .error (.core (.corrupt
          s!"flac: PCM payload {pcm.length} bytes < declared {expected} bytes"))
      else .ok (params, pcm.take expected)

def flacCompress (plaintext : Bytes) : Except CodecFailure Bytes :=
  match flacPayload z plaintext with
  | .error e => .error e
  | .ok (params, pcm) => relabel "flac: " (z.flacCompress pcm params)

def flacCodec : Codec :=
  plainCodec codecFlac "flac" (flacCompress z) fun c _ => relabel "flac: " (z.flacDecompress c)

def riceppCodec : Codec :=
  plainCodec codecRicepp "ricepp" (fun x => relabel "ricepp: " (z.riceppCompress x))
    fun c _ => relabel "ricepp: " (z.riceppDecompress c)

/-! ### FSST + Brotli -/

/-- A zero-length FSST prefix tells the reader to skip the FSST stage. -/
def packNoFsst (brotliBytes : Bytes) : Bytes := leBytes 4 0 ++ brotliBytes

/-- The caller's Brotli bytes if it has them, else Brotli at the default quality. -/
def resolveBaseline (plaintext : Bytes) : Option Bytes → Except CoreError Bytes
  | some b => .ok b
  | none => codecCall (brotliCompress z brotliDefaultQuality plaintext)

/-- `compress_with_baseline`. -/
def fsstCompressWithBaseline (plaintext : Bytes) (baseline : Option Bytes) :
    Except CoreError Bytes :=
  match resolveBaseline z plaintext baseline with
  | .error e => .error e
  | .ok plainBrotli =>
    if plaintext.length < 1024 then .ok (packNoFsst plainBrotli)
    else
      match codecCall (relabel "fsst: " (z.fsstCompress plaintext)) with
      | .error e => .error e
      | .ok fsstCompressed =>
        match codecCall (brotliCompress z brotliDefaultQuality fsstCompressed) with
        | .error e => .error e
        | .ok brotliCompressed =>
          let compositeLen := 4 + brotliCompressed.length + fsstCompressed.length
          if plainBrotli.length ≤ compositeLen then .ok (packNoFsst plainBrotli)
          else if u32Limit ≤ fsstCompressed.length then
            .error (.corrupt
              s!"fsst+brotli: fsst_compressed length {fsstCompressed.length} exceeds u32")
          else .ok (leBytes 4 fsstCompressed.length ++ fsstCompressed ++ brotliCompressed)

/-- A result of the core inside a codec. -/
def liftCore : Except CoreError Bytes → Except CodecFailure Bytes
  | .ok c => .ok c
  | .error e => .error (.core e)

def fsstDecompress (compressed : Bytes) (expectedLen : Nat) : Except CodecFailure Bytes :=
  if compressed.length < 4 then .error (.core (.corrupt "fsst+brotli: truncated header"))
  else
    let fsstLen := leNat (compressed.take 4)
    if fsstLen = 0 then brotliDecompressAtQuality z (compressed.drop 4) expectedLen
    else if compressed.length < 4 + fsstLen then
      .error (.core (.corrupt
        s!"fsst+brotli: fsst_len {fsstLen} overruns buffer {compressed.length}"))
    else
      -- the FSST section in front is not read: the Brotli stream holds the same bytes
      match brotliDecompressAtQuality z (compressed.drop (4 + fsstLen)) (u32Limit - 1) with
      | .error e => .error e
      | .ok fsstEscaped => relabel "fsst: " (z.fsstDecompress fsstEscaped)

def fsstBrotliCodec : Codec :=
  plainCodec codecFsstBrotli "fsst+brotli"
    (fun x => liftCore (fsstCompressWithBaseline z x none)) (fsstDecompress z)

def zpaqCodec : Codec :=
  plainCodec codecZpaq "zpaq" (fun x => relabel "" (z.zpaqCompress x))
    fun c _ => relabel "zpaq decompress: " (z.zpaqDecompress c)

def glzaCodec : Codec :=
  plainCodec codecGlza "glza" (fun x => relabel "glza compress: " (z.glzaCompress x))
    fun c _ => relabel "glza decompress: " (z.glzaDecompress c)

def ppmdCodec : Codec where
  id := codecPpmd
  name := "ppmd7"
  compress x := relabel "ppmd7 compress: " (z.ppmd7Compress 4 (80 * 1024 * 1024) x)
  decompress c n := relabel "ppmd7 decompress: " (z.ppmd7Decompress c n)
  compressWithTunables t x := relabel "ppmd7 compress: "
    (z.ppmd7Compress (if 0 < t.ppmdOrder then t.ppmdOrder else 4)
      (if 0 < t.ppmd7Budget then t.ppmd7Budget else 80 * 1024 * 1024) x)

def ppmd8Codec : Codec where
  id := codecPpmd8
  name := "ppmd8"
  compress x := relabel "ppmd8 compress: " (z.ppmd8Compress 6 (64 * 1024 * 1024) x)
  decompress c n := relabel "ppmd8 decompress: " (z.ppmd8Decompress c n)
  compressWithTunables t x := relabel "ppmd8 compress: "
    (z.ppmd8Compress (if 0 < t.ppmdOrder then t.ppmdOrder else 6)
      (if 0 < t.ppmd8Budget then t.ppmd8Budget else 64 * 1024 * 1024) x)

def bzip2Codec : Codec where
  id := codecBzip2
  name := "bzip2"
  compress x := relabel "bzip2: " (z.bzip2Compress 9 x)
  decompress c n := relabel "bzip2: " (z.bzip2Decompress c n)
  compressWithTunables t x := relabel "bzip2: "
    (z.bzip2Compress
      (if 0 < t.bzip2BlockKb then (max 100 (min t.bzip2BlockKb 900) + 99) / 100 else 9) x)

def deflate64Codec : Codec :=
  plainCodec codecDeflate64 "deflate64" (fun x => relabel "deflate64: " (z.deflate64Compress 6 x))
    fun c n => relabel "deflate64: " (z.deflate64Decompress c n)

/-! ### Filter composites -/

/-- One reversible filter in front of one registered codec, with the filtered length as a
`u32` prefix. -/
def filterComposite (filter : Filter) (inner : Codec) (id : UInt8) (name : String) : Codec :=
  plainCodec id name
    (fun x =>
      match codecCall (inner.compress (filter.encode x)) with
      | .error e => .error (.core e)
      | .ok c => .ok (leBytes 4 (saturateU32 (filter.encode x).length) ++ c))
    fun compressed _ =>
      if compressed.length < 4 then
        .error (.core (.corrupt s!"{name}: input too short for length prefix"))
      else
        match codecCall (inner.decompress (compressed.drop 4) (leNat (compressed.take 4))) with
        | .error e => .error (.core e)
        | .ok filtered => .ok (filter.decode filtered)

def shuffleLz4Codec : Codec :=
  filterComposite z.byteShuffle4 (lz4Codec z) codecBlosc2ShuffleLz4 "shuffle+lz4"

def shuffleZstdCodec : Codec :=
  filterComposite z.byteShuffle4 (zstdCodec z) codecShuffleZstd "shuffle+zstd"

def bitshuffleLz4Codec : Codec :=
  filterComposite z.bitShuffle8 (lz4Codec z) codecBitshuffleLz4 "bitshuffle+lz4"

def bcjX86Lz4Codec : Codec :=
  filterComposite z.bcjX86 (lz4Codec z) codecBcjX86Lz4 "bcj-x86-lz4"

def bcjX86ZstdCodec : Codec :=
  filterComposite z.bcjX86 (zstdCodec z) codecBcjX86Zstd "bcj-x86-zstd"

def bcjArm64Lz4Codec : Codec :=
  filterComposite z.bcjArm64 (lz4Codec z) codecBcjArm64Lz4 "bcj-arm64-lz4"

def bcjArm64ZstdCodec : Codec :=
  filterComposite z.bcjArm64 (zstdCodec z) codecBcjArm64Zstd "bcj-arm64-zstd"

/-! ### The registry -/

/-- `CodecRegistry::default`, in registration order. -/
def defaultRegistry : List Codec :=
  [storeCodec, lz4Codec z, lz4HcCodec z, zstdCodec z, xzCodec z, brotliCodec z, deflateCodec z,
   libdeflateCodec z, snappyCodec z, flacCodec z, riceppCodec z, fsstBrotliCodec z,
   shuffleLz4Codec z, zpaqCodec z, ppmdCodec z, ppmd8Codec z, glzaCodec z, shuffleZstdCodec z,
   bitshuffleLz4Codec z, bzip2Codec z, deflate64Codec z, bcjX86Lz4Codec z, bcjX86ZstdCodec z,
   bcjArm64Lz4Codec z, bcjArm64ZstdCodec z]

def findCodec (id : UInt8) : Option Codec := (defaultRegistry z).find? fun c => c.id = id

def registeredNames : String :=
  ", ".intercalate ((defaultRegistry z).map fun c => hex2 c.id ++ "=" ++ c.name)

def unregistered (verb : String) (id : UInt8) : CoreError :=
  .unsupportedFeature (verb ++ " codec " ++ hex2 id ++ " (registered: " ++ registeredNames z ++ ")")

/-- The codec's own defaults. -/
def compress (id : UInt8) (plaintext : Bytes) : Except CoreError Bytes :=
  match findCodec z id with
  | some codec => codecCall (codec.compress plaintext)
  | none => .error (unregistered z "compress" id)

def compressWithTunables (id : UInt8) (plaintext : Bytes) (t : CodecTunables) :
    Except CoreError Bytes :=
  match findCodec z id with
  | some codec => codecCall (codec.compressWithTunables t plaintext)
  | none => .error (unregistered z "compress_with_tunables" id)

def decompress (id : UInt8) (compressed : Bytes) (expectedLen : Nat) : Except CoreError Bytes :=
  match findCodec z id with
  | some codec => codecCall (codec.decompress compressed expectedLen)
  | none => .error (unregistered z "decompress" id)

end LimniFS
