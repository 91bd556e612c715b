/-
What a codec gives back.

`Omnizip.Lawful` is what is documented of the coders outside this repository: each
decoder inverts its encoder on the bytes the encoder was given.  What is shown here
is that the wrappers keep it: every registered codec but FLAC gives back what it
was given, through the length checks, the prefixes and the two forms of FSST +
Brotli (`decompress_compressWithTunables`).  The one condition is on sizes: the
length a filter composite writes in front of its stream is a `u32`.

FLAC gives back what its encoder was given, which is the sample payload of the file
and not the file; `flac_decompress` says so and no more.
-/
import LimniFS.Codec

namespace LimniFS

open Lib

variable (z : Omnizip)

/-! ### What is documented of the coders -/

/-- Each decoder inverts its encoder on what the encoder was given. -/
structure Omnizip.Lawful : Prop where
  brotli : ∀ q x c, z.brotliCompress q x = .ok c → z.brotliDecompress c x.length = .ok x
  /-- An expected length of `u32::MAX` skips the length check. -/
  brotli_unchecked : ∀ q x c, z.brotliCompress q x = .ok c →
    z.brotliDecompress c (u32Limit - 1) = .ok x
  zstd : ∀ l x c, z.zstdCompress l x = .ok c → z.zstdDecompress c x.length = .ok x
  zstdMt : ∀ l x c, z.zstdCompressMt l x = .ok c → z.zstdDecompress c x.length = .ok x
  zstdDict : ∀ d x c, z.zstdCompressWithDict d x = .ok c →
    z.zstdDecompressWithDict c x.length d = .ok x
  lz4Fast : ∀ x c, z.lz4FastCompress x = .ok c → z.lz4Decompress c x.length = .ok x
  lz4Hc : ∀ x c, z.lz4HcCompress x = .ok c → z.lz4Decompress c x.length = .ok x
  xz : ∀ l x c, z.xzCompress l x = .ok c → z.xzDecompress c = .ok x
  deflate : ∀ l x c, z.deflateCompress l x = .ok c → z.deflateDecompress c x.length = .ok x
  /-- With the checksum put right. -/
  libdeflate : ∀ x c, z.libdeflateCompress x = .ok c →
    z.libdeflateDecompress (patchAdler x c) x.length = .ok x
  snappy : ∀ x c, z.snappyCompress x = .ok c → z.snappyDecompress c x.length = .ok x
  ppmd7 : ∀ o b x c, z.ppmd7Compress o b x = .ok c → z.ppmd7Decompress c x.length = .ok x
  ppmd8 : ∀ o b x c, z.ppmd8Compress o b x = .ok c → z.ppmd8Decompress c x.length = .ok x
  bzip2 : ∀ l x c, z.bzip2Compress l x = .ok c → z.bzip2Decompress c x.length = .ok x
  deflate64 : ∀ l x c, z.deflate64Compress l x = .ok c →
    z.deflate64Decompress c x.length = .ok x
  glza : ∀ x c, z.glzaCompress x = .ok c → z.glzaDecompress c = .ok x
  zpaq : ∀ x c, z.zpaqCompress x = .ok c → z.zpaqDecompress c = .ok x
  ricepp : ∀ x c, z.riceppCompress x = .ok c → z.riceppDecompress c = .ok x
  fsst : ∀ x c, z.fsstCompress x = .ok c → z.fsstDecompress c = .ok x
  /-- The FSST section carries its own symbol table. -/
  fsst_ne_nil : ∀ x c, z.fsstCompress x = .ok c → c ≠ []
  /-- On raw samples. -/
  flac : ∀ pcm params c, z.flacCompress pcm params = .ok c → z.flacDecompress c = .ok pcm
  byteShuffle4 : ∀ x, z.byteShuffle4.decode (z.byteShuffle4.encode x) = x
  bitShuffle8 : ∀ x, z.bitShuffle8.decode (z.bitShuffle8.encode x) = x
  bcjX86 : ∀ x, z.bcjX86.decode (z.bcjX86.encode x) = x
  bcjArm64 : ∀ x, z.bcjArm64.decode (z.bcjArm64.encode x) = x
  /-- Filters rearrange bytes, behind a short prefix at most. -/
  filter_length : ∀ f ∈ [z.byteShuffle4, z.bitShuffle8, z.bcjX86, z.bcjArm64], ∀ x,
    (f.encode x).length ≤ 2 * x.length + 64

/-- The codecs that put a filter in front of another codec. -/
def isFilterComposite (id : UInt8) : Bool :=
  [codecBlosc2ShuffleLz4, codecShuffleZstd, codecBitshuffleLz4, codecBcjX86Lz4, codecBcjX86Zstd,
   codecBcjArm64Lz4, codecBcjArm64Zstd].contains id

/-- The filtered form of `x` fits the composites' `u32` length prefix. -/
def FilteredFits (x : Bytes) : Prop :=
  ∀ f ∈ [z.byteShuffle4, z.bitShuffle8, z.bcjX86, z.bcjArm64], (f.encode x).length < u32Limit

/-- `WHOLE_FILE_MAX_SIZE`: no larger file goes to a filter composite. -/
def wholeFileMaxSize : Nat := 64 * 1024 * 1024

variable {z} in
theorem filteredFits_of_le (hz : z.Lawful) {x : Bytes} (h : x.length ≤ wholeFileMaxSize) :
    FilteredFits z x := by
  intro f hf
  have hlen := hz.filter_length f hf x
  unfold wholeFileMaxSize at h
  unfold u32Limit
  omega

/-! ### A codec gives back what it was given -/

variable {z}

theorem relabel_ok {label : String} {r : Coded} {c : Bytes} (h : relabel label r = .ok c) :
    r = .ok c := by
  unfold relabel at h
  split at h
  · rw [Except.ok.injEq] at h
    rw [h]
  · exact absurd h (by simp)
  · exact absurd h (by simp)

theorem codecCall_ok {r : Except CodecFailure Bytes} {c : Bytes} (h : codecCall r = .ok c) :
    r = .ok c := by
  unfold codecCall at h
  split at h
  · rw [Except.ok.injEq] at h
    rw [h]
  · exact absurd h (by simp)
  · exact absurd h (by simp)

theorem checkLen_ok {name : String} {x : Bytes} {r : Except CodecFailure Bytes}
    (h : r = .ok x) : checkLen name x.length r = .ok x := by
  rw [h]
  exact if_pos rfl

/-- What `k` makes of `x` decodes to `x`, with and without tunables. -/
structure Codec.Inverts (k : Codec) (x : Bytes) : Prop where
  plain : ∀ c, k.compress x = .ok c → k.decompress c x.length = .ok x
  tuned : ∀ t c, k.compressWithTunables t x = .ok c → k.decompress c x.length = .ok x

theorem plainCodec_inverts {id : UInt8} {name : String}
    {compress : Bytes → Except CodecFailure Bytes}
    {decompress : Bytes → Nat → Except CodecFailure Bytes} {x : Bytes}
    (h : ∀ c, compress x = .ok c → decompress c x.length = .ok x) :
    (plainCodec id name compress decompress).Inverts x :=
  ⟨h, fun _ => h⟩

theorem relabelled_inverts {le ld : String} {r s : Coded} {c x : Bytes}
    (hlaw : r = .ok c → s = .ok x) (h : relabel le r = .ok c) : relabel ld s = .ok x := by
  rw [hlaw (relabel_ok h)]
  rfl

theorem zstd_inverts (hz : z.Lawful) (x : Bytes) : (zstdCodec z).Inverts x := by
  have key : ∀ level c, zstdCompressVerified z level x = .ok c →
      (zstdCodec z).decompress c x.length = .ok x := by
    intro level c h
    have hraw := relabel_ok h
    apply checkLen_ok
    split at hraw
    · rw [hz.zstdMt level x c hraw]; rfl
    · rw [hz.zstd level x c hraw]; rfl
  exact ⟨fun c h => key _ c h, fun t c h => key _ c h⟩

theorem lz4_inverts (hz : z.Lawful) (x : Bytes) : (lz4Codec z).Inverts x :=
  plainCodec_inverts fun c h => by
    show relabel "lz4: " (z.lz4Decompress c x.length) = .ok x
    rw [hz.lz4Fast x c (relabel_ok h)]
    rfl

theorem xz_inverts (hz : z.Lawful) (x : Bytes) : (xzCodec z).Inverts x := by
  have key : ∀ level c, xzCompressAtLevel z level x = .ok c →
      (xzCodec z).decompress c x.length = .ok x := by
    intro level c h
    apply checkLen_ok
    rw [hz.xz _ x c (relabel_ok h)]
    rfl
  exact ⟨fun c h => key _ c h, fun t c h => key _ c h⟩

theorem brotli_inverts (hz : z.Lawful) (x : Bytes) : (brotliCodec z).Inverts x := by
  have key : ∀ q c, brotliCompress z q x = .ok c →
      (brotliCodec z).decompress c x.length = .ok x := by
    intro q c h
    apply checkLen_ok
    rw [hz.brotli _ x c (relabel_ok h)]
    rfl
  exact ⟨fun c h => key _ c h, fun t c h => key _ c h⟩

theorem libdeflate_inverts (hz : z.Lawful) (x : Bytes) : (libdeflateCodec z).Inverts x :=
  plainCodec_inverts fun c h => by
    cases hraw : relabel "libdeflate: " (z.libdeflateCompress x) with
    | error e => rw [hraw] at h; cases h
    | ok c' =>
        rw [hraw] at h
        have hpatched : patchAdler x c' = c := Except.ok.inj h
        apply checkLen_ok
        rw [← hpatched, hz.libdeflate x c' (relabel_ok hraw)]
        rfl

theorem leNat_front {n : Nat} (h : n < u32Limit) (c : Bytes) :
    leNat ((leBytes 4 n ++ c).take 4) = n := by
  rw [List.take_left' (leBytes_length 4 n)]
  exact leNat_leBytes h

theorem drop_front (n : Nat) (c : Bytes) : (leBytes 4 n ++ c).drop 4 = c :=
  List.drop_left' (leBytes_length 4 n)

/-- The FSST form decodes, whatever baseline it was weighed against. -/
theorem fsst_composite_decompress (hz : z.Lawful) {x c : Bytes} {fsst brotli : Bytes} (n : Nat)
    (hfsst : codecCall (relabel "fsst: " (z.fsstCompress x)) = .ok fsst)
    (hbrotli : codecCall (brotliCompress z brotliDefaultQuality fsst) = .ok brotli)
    (hlen : fsst.length < u32Limit) (hc : c = leBytes 4 fsst.length ++ fsst ++ brotli) :
    fsstDecompress z c n = .ok x := by
  have hraw := relabel_ok (codecCall_ok hfsst)
  have hne : fsst.length ≠ 0 := fun h => hz.fsst_ne_nil x fsst hraw (List.length_eq_zero_iff.mp h)
  have hlength : c.length = 4 + fsst.length + brotli.length := by
    rw [hc]
    simp only [List.length_append, leBytes_length]
  have hfront : leNat (c.take 4) = fsst.length := by
    rw [hc, List.append_assoc]
    exact leNat_front hlen _
  have hdrop : c.drop (4 + fsst.length) = brotli := by
    rw [hc]
    exact List.drop_left' (by simp only [List.length_append, leBytes_length])
  unfold fsstDecompress
  rw [if_neg (by omega)]
  simp only [hfront, if_neg hne]
  rw [if_neg (by omega), hdrop]
  have hbro := hz.brotli_unchecked _ fsst brotli (relabel_ok (codecCall_ok hbrotli))
  simp only [brotliDecompressAtQuality, hbro, relabel, hz.fsst x fsst hraw]

theorem fsst_inverts (hz : z.Lawful) (x : Bytes) : (fsstBrotliCodec z).Inverts x :=
  plainCodec_inverts fun c h => by
    have hcore : fsstCompressWithBaseline z x none = .ok c := by
      unfold liftCore at h
      split at h
      · rwa [← Except.ok.inj h]
      · exact absurd h (by simp)
    unfold fsstCompressWithBaseline resolveBaseline at hcore
    cases hbase : codecCall (brotliCompress z brotliDefaultQuality x) with
    | error e => rw [hbase] at hcore; cases hcore
    | ok base =>
        rw [hbase] at hcore
        -- without the FSST stage the rest is Brotli of the plaintext
        have hpacked : fsstDecompress z (packNoFsst base) x.length = .ok x := by
          have hbro := hz.brotli _ x base (relabel_ok (codecCall_ok hbase))
          unfold fsstDecompress packNoFsst
          rw [if_neg (by simp)]
          simp only [leNat_front (by decide : 0 < u32Limit), if_true, drop_front,
            brotliDecompressAtQuality, hbro, relabel]
        simp only at hcore
        split at hcore
        · rw [← Except.ok.inj hcore]; exact hpacked
        · split at hcore
          · exact absurd hcore (by simp)
          · next fsst hfsst =>
              split at hcore
              · exact absurd hcore (by simp)
              · next brotli hbrotli =>
                  split at hcore
                  · rw [← Except.ok.inj hcore]; exact hpacked
                  · split at hcore
                    · exact absurd hcore (by simp)
                    · exact fsst_composite_decompress hz _ hfsst hbrotli (by omega)
                        (Except.ok.inj hcore).symm

theorem filterComposite_inverts {filter : Filter} {inner : Codec} {id : UInt8} {name : String}
    {x : Bytes} (hfilter : filter.decode (filter.encode x) = x)
    (hfits : (filter.encode x).length < u32Limit) (hinner : inner.Inverts (filter.encode x)) :
    (filterComposite filter inner id name).Inverts x :=
  plainCodec_inverts fun c h => by
    split at h
    · exact absurd h (by simp)
    · next c' hc' =>
        rw [← Except.ok.inj h, saturateU32_of_lt hfits, if_neg (by simp), leNat_front hfits,
          drop_front, hinner.plain c' (codecCall_ok hc')]
        exact congrArg Except.ok hfilter

/-- **Every registered codec but FLAC is lossless.** -/
theorem registry_inverts (hz : z.Lawful) {x : Bytes} {k : Codec} (hk : k ∈ defaultRegistry z)
    (hfits : isFilterComposite k.id = true → FilteredFits z x) (hflac : k.id ≠ codecFlac) :
    k.Inverts x := by
  simp only [defaultRegistry, List.mem_cons, List.not_mem_nil, or_false] at hk
  rcases hk with rfl | rfl | rfl | rfl | rfl | rfl | rfl | rfl | rfl | rfl | rfl | rfl | rfl | rfl |
    rfl | rfl | rfl | rfl | rfl | rfl | rfl | rfl | rfl | rfl | rfl
  · exact plainCodec_inverts fun c h => by
      rw [← Except.ok.inj h]
      exact if_pos rfl
  · exact lz4_inverts hz x
  · exact plainCodec_inverts fun c h => relabelled_inverts (hz.lz4Hc x c) h
  · exact zstd_inverts hz x
  · exact xz_inverts hz x
  · exact brotli_inverts hz x
  · exact plainCodec_inverts fun c h =>
      checkLen_ok (relabelled_inverts (hz.deflate _ x c) h)
  · exact libdeflate_inverts hz x
  · exact plainCodec_inverts fun c h => relabelled_inverts (hz.snappy x c) h
  · exact absurd rfl hflac
  · exact plainCodec_inverts fun c h => relabelled_inverts (hz.ricepp x c) h
  · exact fsst_inverts hz x
  · exact filterComposite_inverts (hz.byteShuffle4 x) (hfits rfl z.byteShuffle4 (by simp))
      (lz4_inverts hz _)
  · exact plainCodec_inverts fun c h => relabelled_inverts (hz.zpaq x c) h
  · exact ⟨fun c h => relabelled_inverts (hz.ppmd7 _ _ x c) h,
      fun t c h => relabelled_inverts (hz.ppmd7 _ _ x c) h⟩
  · exact ⟨fun c h => relabelled_inverts (hz.ppmd8 _ _ x c) h,
      fun t c h => relabelled_inverts (hz.ppmd8 _ _ x c) h⟩
  · exact plainCodec_inverts fun c h => relabelled_inverts (hz.glza x c) h
  · exact filterComposite_inverts (hz.byteShuffle4 x) (hfits rfl z.byteShuffle4 (by simp))
      (zstd_inverts hz _)
  · exact filterComposite_inverts (hz.bitShuffle8 x) (hfits rfl z.bitShuffle8 (by simp))
      (lz4_inverts hz _)
  · exact ⟨fun c h => relabelled_inverts (hz.bzip2 _ x c) h,
      fun t c h => relabelled_inverts (hz.bzip2 _ x c) h⟩
  · exact plainCodec_inverts fun c h => relabelled_inverts (hz.deflate64 _ x c) h
  · exact filterComposite_inverts (hz.bcjX86 x) (hfits rfl z.bcjX86 (by simp))
      (lz4_inverts hz _)
  · exact filterComposite_inverts (hz.bcjX86 x) (hfits rfl z.bcjX86 (by simp))
      (zstd_inverts hz _)
  · exact filterComposite_inverts (hz.bcjArm64 x) (hfits rfl z.bcjArm64 (by simp))
      (lz4_inverts hz _)
  · exact filterComposite_inverts (hz.bcjArm64 x) (hfits rfl z.bcjArm64 (by simp))
      (zstd_inverts hz _)

theorem flac_decompress (hz : z.Lawful) {x c pcm : Bytes} {params : z.PcmParams} (n : Nat)
    (hpayload : flacPayload z x = .ok (params, pcm)) (h : flacCompress z x = .ok c) :
    (flacCodec z).decompress c n = .ok pcm := by
  unfold flacCompress at h
  rw [hpayload] at h
  exact relabelled_inverts (hz.flac pcm params c) h

/-- Through the registry, by id. -/
theorem decompress_compressWithTunables (hz : z.Lawful) {x c : Bytes} {id : UInt8}
    {t : CodecTunables} (hfits : isFilterComposite id = true → FilteredFits z x)
    (hflac : id ≠ codecFlac) (h : compressWithTunables z id x t = .ok c) :
    decompress z id c x.length = .ok x := by
  unfold compressWithTunables at h
  unfold decompress
  cases hfind : findCodec z id with
  | none => rw [hfind] at h; cases h
  | some k =>
      rw [hfind] at h
      have hid : k.id = id := by simpa using List.find?_some hfind
      have hinv := registry_inverts hz (List.mem_of_find?_eq_some hfind) (hid ▸ hfits) (hid ▸ hflac)
      simp only [hinv.tuned t c (codecCall_ok h), codecCall]

theorem decompress_compress (hz : z.Lawful) {x c : Bytes} {id : UInt8}
    (hfits : isFilterComposite id = true → FilteredFits z x) (hflac : id ≠ codecFlac)
    (h : compress z id x = .ok c) : decompress z id c x.length = .ok x := by
  unfold compress at h
  unfold decompress
  cases hfind : findCodec z id with
  | none => rw [hfind] at h; cases h
  | some k =>
      rw [hfind] at h
      have hid : k.id = id := by simpa using List.find?_some hfind
      have hinv := registry_inverts hz (List.mem_of_find?_eq_some hfind) (hid ▸ hfits) (hid ▸ hflac)
      simp only [hinv.plain c (codecCall_ok h), codecCall]

/-! ### A set of coders that lives up to it

Everything is stored as it is, except audio: samples of 16 bits whose high byte is zero
take one byte each behind a stream header of 42 bytes. -/

namespace Stored

def evens : Bytes → Bytes
  | a :: _ :: rest => a :: evens rest
  | _ => []

def widen (l : Bytes) : Bytes := l.flatMap fun b => [b, 0]

def streamHeader : Bytes := ascii "fLaC" ++ List.replicate 38 0

def packSamples (pcm : Bytes) : Bytes :=
  if widen (evens pcm) = pcm then 1 :: evens pcm else 0 :: pcm

def unpackSamples : Bytes → Coded
  | 1 :: l => .ok (widen l)
  | 0 :: l => .ok l
  | _ => .error (.error "not a stream")

theorem unpackSamples_packSamples (pcm : Bytes) : unpackSamples (packSamples pcm) = .ok pcm := by
  unfold packSamples
  by_cases h : widen (evens pcm) = pcm
  · rw [if_pos h]
    exact congrArg Except.ok h
  · rw [if_neg h]
    rfl

/-- The size of the data chunk of a WAV file with the usual 44-byte header. -/
def parseWav (x : Bytes) : Option Nat :=
  if x.take 4 = ascii "RIFF" ∧ (x.drop 8).take 4 = ascii "WAVE" ∧ 44 ≤ x.length then
    some (leNat ((x.drop 40).take 4))
  else none

def filter : Filter := ⟨id, id⟩

def omnizip : Omnizip where
  brotliCompress _ x := .ok x
  brotliDecompress c _ := .ok c
  zstdCompress _ x := .ok x
  zstdCompressMt _ x := .ok x
  zstdDecompress c _ := .ok c
  zstdLevelText _ := ""
  zstdCompressWithDict d x := .ok (if x.take d.length = d then 1 :: x.drop d.length else 0 :: x)
  zstdDecompressWithDict c _ d :=
    match c with
    | 1 :: l => .ok (d ++ l)
    | _ :: l => .ok l
    | [] => .error (.error "empty frame")
  lz4FastCompress x := .ok x
  lz4HcCompress x := .ok x
  lz4Decompress c _ := .ok c
  xzCompress _ x := .ok x
  xzDecompress c := .ok c
  deflateCompress _ x := .ok x
  deflateDecompress c _ := .ok c
  libdeflateCompress x := .ok (x ++ [0, 0, 0, 0, 0, 0])
  libdeflateDecompress c _ := .ok (c.take (c.length - 6))
  snappyCompress x := .ok x
  snappyDecompress c _ := .ok c
  ppmd7Compress _ _ x := .ok x
  ppmd7Decompress c _ := .ok c
  ppmd8Compress _ _ x := .ok x
  ppmd8Decompress c _ := .ok c
  bzip2Compress _ x := .ok x
  bzip2Decompress c _ := .ok c
  deflate64Compress _ x := .ok x
  deflate64Decompress c _ := .ok c
  glzaCompress x := .ok x
  glzaDecompress c := .ok c
  zpaqCompress x := .ok x
  zpaqDecompress c := .ok c
  riceppCompress x := .ok x
  riceppDecompress c := .ok c
  fsstCompress x := .ok (0 :: x)
  fsstDecompress c := .ok c.tail
  PcmParams := Nat
  pcmTotalBytes := id
  parseWav := parseWav
  parseAiff _ := none
  flacCompress pcm _ := .ok (streamHeader ++ packSamples pcm)
  flacDecompress c := unpackSamples (c.drop 42)
  byteShuffle4 := filter
  bitShuffle8 := filter
  bcjX86 := filter
  bcjArm64 := filter

theorem dict_inverts (d x : Bytes) :
    omnizip.zstdDecompressWithDict
      (if x.take d.length = d then 1 :: x.drop d.length else 0 :: x) x.length d = .ok x := by
  by_cases h : x.take d.length = d
  · rw [if_pos h]
    show Except.ok (d ++ x.drop d.length) = Except.ok x
    rw [← List.take_append_drop d.length x, h]
    simp
  · rw [if_neg h]
    rfl

theorem patched_inverts (x : Bytes) :
    omnizip.libdeflateDecompress (patchAdler x (x ++ [0, 0, 0, 0, 0, 0])) x.length = .ok x := by
  have hlen : (x ++ [0, 0, 0, 0, 0, 0] : Bytes).length = x.length + 6 := by simp
  unfold patchAdler
  rw [if_pos (by omega), hlen]
  show Except.ok _ = Except.ok x
  congr 1
  have htake : (x ++ [0, 0, 0, 0, 0, 0] : Bytes).take (x.length + 6 - 4) = x ++ [0, 0] := by
    rw [show x.length + 6 - 4 = x.length + 2 by omega, List.take_length_add_append]
    rfl
  rw [htake, List.append_assoc, List.take_left']
  simp

theorem flac_inverts (pcm : Bytes) :
    omnizip.flacDecompress (streamHeader ++ packSamples pcm) = .ok pcm := by
  show unpackSamples ((streamHeader ++ packSamples pcm).drop 42) = .ok pcm
  rw [List.drop_left' (by decide), unpackSamples_packSamples]

theorem omnizip_lawful : omnizip.Lawful where
  brotli q x c h := by rw [← Except.ok.inj h]; rfl
  brotli_unchecked q x c h := by rw [← Except.ok.inj h]; rfl
  zstd l x c h := by rw [← Except.ok.inj h]; rfl
  zstdMt l x c h := by rw [← Except.ok.inj h]; rfl
  zstdDict d x c h := by rw [← Except.ok.inj h]; exact dict_inverts d x
  lz4Fast x c h := by rw [← Except.ok.inj h]; rfl
  lz4Hc x c h := by rw [← Except.ok.inj h]; rfl
  xz l x c h := by rw [← Except.ok.inj h]; rfl
  deflate l x c h := by rw [← Except.ok.inj h]; rfl
  libdeflate x c h := by rw [← Except.ok.inj h]; exact patched_inverts x
  snappy x c h := by rw [← Except.ok.inj h]; rfl
  ppmd7 o b x c h := by rw [← Except.ok.inj h]; rfl
  ppmd8 o b x c h := by rw [← Except.ok.inj h]; rfl
  bzip2 l x c h := by rw [← Except.ok.inj h]; rfl
  deflate64 l x c h := by rw [← Except.ok.inj h]; rfl
  glza x c h := by rw [← Except.ok.inj h]; rfl
  zpaq x c h := by rw [← Except.ok.inj h]; rfl
  ricepp x c h := by rw [← Except.ok.inj h]; rfl
  fsst x c h := by rw [← Except.ok.inj h]; rfl
  fsst_ne_nil x c h := by rw [← Except.ok.inj h]; exact List.cons_ne_nil _ _
  flac pcm params c h := by rw [← Except.ok.inj h]; exact flac_inverts pcm
  byteShuffle4 x := rfl
  bitShuffle8 x := rfl
  bcjX86 x := rfl
  bcjArm64 x := rfl
  filter_length f hf x := by
    simp only [List.mem_cons, List.not_mem_nil, or_false] at hf
    rcases hf with rfl | rfl | rfl | rfl <;> exact (by omega : x.length ≤ 2 * x.length + 64)

end Stored

end LimniFS
