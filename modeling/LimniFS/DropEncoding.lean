/-
From a plaintext to a stored drop.

A drop is stored under whichever codec made it shortest.  Chunks go through the
tournament: the configured codecs in order, the first shortest output wins, a good
enough ratio ends the race, and storing as is is the fallback.  A file that a
categorizer claimed becomes one drop: Brotli, then ZSTD, then the categorizer's own
codec, each replacing the best so far if it is strictly shorter.  Afterwards a large
drop of a seekable codec is encoded again as a container.

Nothing decodes the winner before it is kept, so the shortest output has to be one
that decodes.  `wholeFileDrop_decodes_iff` says exactly when that holds for a
whole-file drop: it fails when FLAC wins on a file that is more than its samples,
since the FLAC wrapper encodes the samples and drops the container around them.

Ratios are compared as products of lengths, which is what the floating-point
comparison decides for every length below 2^47.
-/
import LimniFS.Seekable

namespace LimniFS

open Lib

/-- What the classifier says of a chunk. -/
inductive Class where
  | text
  | code
  | binary
  | compressed
  | media
  | sparse
  | incompressible
  deriving DecidableEq

/-- A drop as `process_file` emits it. -/
structure RawDrop where
  id : Digest
  plaintext : Bytes
  compressed : Bytes
  codec : UInt8
  flags : UInt8

/-- One slice of a file: which drop covers `[fileByteStart, fileByteEnd)`. -/
structure PendingSlice where
  dropId : Digest
  fileByteStart : Nat
  fileByteEnd : Nat
  deriving DecidableEq

structure ChunkedFileResult where
  drops : List RawDrop
  slices : List PendingSlice

structure TournamentSpec where
  codecIds : List UInt8
  minSize : Nat
  skipForBinary : Bool
  shortCircuitPermille : Nat

variable (z : Omnizip)

/-! ### The tournament -/

/-- One codec, or as is when it fails or does not shorten the chunk. -/
def compressChunkOne (chunk : Bytes) (codecId : UInt8) (t : CodecTunables) : UInt8 × Bytes :=
  if codecId = codecStore then (codecStore, chunk)
  else
    match compressWithTunables z codecId chunk t with
    | .ok c => if c.length < chunk.length then (codecId, c) else (codecStore, chunk)
    | .error _ => (codecStore, chunk)

/-- The race itself; `best` is the winner so far. -/
def tournamentLoop (chunk : Bytes) (t : CodecTunables) (shortCircuitPermille : Nat) :
    List UInt8 → Option (UInt8 × Bytes) → Option (UInt8 × Bytes)
  | [], best => best
  | codecId :: rest, best =>
    if codecId = codecStore then tournamentLoop chunk t shortCircuitPermille rest best
    else
      match compressWithTunables z codecId chunk t with
      | .error _ => tournamentLoop chunk t shortCircuitPermille rest best
      | .ok c =>
        if chunk.length ≤ c.length then tournamentLoop chunk t shortCircuitPermille rest best
        else
          let ratioPermille := c.length * 1000 / chunk.length
          let best :=
            match best with
            | none => some (codecId, c)
            | some b => if c.length < b.2.length then some (codecId, c) else some b
          if 0 < shortCircuitPermille ∧ ratioPermille ≤ shortCircuitPermille then best
          else tournamentLoop chunk t shortCircuitPermille rest best

def compressChunkWithTournament (chunk : Bytes) (cls : Class) (textCodec binaryCodec : UInt8)
    (t : CodecTunables) (tournament : TournamentSpec) : UInt8 × Bytes :=
  let preferred :=
    match cls with
    | .binary => binaryCodec
    | .text | .code | .sparse => textCodec
    | _ => codecStore
  if preferred = codecStore then (codecStore, chunk)
  else if cls = .binary ∧ tournament.skipForBinary = true then compressChunkOne z chunk preferred t
  else if chunk.length < tournament.minSize then compressChunkOne z chunk preferred t
  else
    (tournamentLoop z chunk t tournament.shortCircuitPermille tournament.codecIds none).getD
      (codecStore, chunk)

/-! ### Seekable emission -/

/-- A container when the drop is large and its codec seekable; an encoder failure keeps the
stream. -/
def seekableOrMonolithic (codec : UInt8) (plaintext compressed : Bytes) (t : CodecTunables)
    (seekableDrops : Bool) (threshold : Nat) : Bytes × UInt8 :=
  if seekableDrops = true ∧ threshold < plaintext.length ∧ isSeekableCodec codec = true then
    match encodeSeekable z codec plaintext t with
    | .ok container => (container, dropFlagSeekable)
    | .error _ => (compressed, 0)
  else (compressed, 0)

def seekableChunkEmissionThreshold : Nat := seekableFrameSize

/-! ### Whole-file drops -/

/-- Brotli; if it fails ZSTD; if that fails as is. -/
def firstCandidate (data : Bytes) (t : CodecTunables) : UInt8 × Bytes :=
  match compressWithTunables z codecBrotli data t with
  | .ok c => (codecBrotli, c)
  | .error _ =>
    match compressWithTunables z codecZstd data t with
    | .ok c => (codecZstd, c)
    | .error _ => (codecStore, data)

/-- ZSTD against it, unless it is below 5% already. -/
def generalCandidate (data : Bytes) (t : CodecTunables) : UInt8 × Bytes :=
  let best := firstCandidate z data t
  if data.length < best.2.length * 20 then
    match compressWithTunables z codecZstd data t with
    | .ok c => if c.length < best.2.length then (codecZstd, c) else best
    | .error _ => best
  else best

/-- The categorizer's codec; FSST + Brotli takes the best so far as its baseline. -/
def specialisedResult (data : Bytes) (catCodec : UInt8) (t : CodecTunables) (best : Bytes) :
    Except CoreError Bytes :=
  if catCodec = codecFsstBrotli then fsstCompressWithBaseline z data (some best)
  else compressWithTunables z catCodec data t

/-- Is the categorizer's codec tried at all?  Above 15%, or always for Rice++. -/
def triesSpecialised (data : Bytes) (catCodec : UInt8) (t : CodecTunables) : Prop :=
  data.length * 3 < (generalCandidate z data t).2.length * 20 ∨ catCodec = codecRicepp

instance (data : Bytes) (catCodec : UInt8) (t : CodecTunables) :
    Decidable (triesSpecialised z data catCodec t) :=
  inferInstanceAs (Decidable (_ ∨ _))

/-- The winner of the three rounds. -/
def wholeFileCandidate (data : Bytes) (catCodec : UInt8) (t : CodecTunables) : UInt8 × Bytes :=
  let best := generalCandidate z data t
  if triesSpecialised z data catCodec t then
    match specialisedResult z data catCodec t best.2 with
    | .ok c => if c.length < best.2.length then (catCodec, c) else best
    | .error _ => best
  else best

def processWholeFileDrop (H : Hash) (data : Bytes) (catCodec : UInt8) (t : CodecTunables)
    (seekableDrops : Bool) : ChunkedFileResult :=
  let dropId := H data
  let best := wholeFileCandidate z data catCodec t
  let stored := seekableOrMonolithic z best.1 data best.2 t seekableDrops seekableEmissionThreshold
  { drops := [⟨dropId, data, stored.1, best.1, stored.2⟩]
    slices := [⟨dropId, 0, data.length⟩] }

/-- Decode stored bytes the way their flags say. -/
def decodeStored (codec flags : UInt8) (compressed : Bytes) (plaintextLen : Nat) :
    Except CoreError Bytes :=
  if flags &&& dropFlagSeekable ≠ 0 then decodeSeekable z codec compressed plaintextLen
  else decompress z codec compressed plaintextLen

/-! ### What the winner decodes to -/

variable {z}

@[simp] theorem decodeStored_plain (codec : UInt8) (c : Bytes) (n : Nat) :
    decodeStored z codec 0 c n = decompress z codec c n := if_neg (by decide)

@[simp] theorem decodeStored_container (codec : UInt8) (c : Bytes) (n : Nat) :
    decodeStored z codec dropFlagSeekable c n = decodeSeekable z codec c n := if_pos (by decide)

/-- Seekable emission changes the form, not what it decodes to. -/
theorem decodeStored_seekableOrMonolithic (hz : z.Lawful) {codec : UInt8}
    {plaintext compressed : Bytes} {t : CodecTunables} {seekableDrops : Bool} {threshold : Nat}
    (hlen : plaintext.length < u32Limit)
    (h : decompress z codec compressed plaintext.length = .ok plaintext) :
    decodeStored z codec
        (seekableOrMonolithic z codec plaintext compressed t seekableDrops threshold).2
        (seekableOrMonolithic z codec plaintext compressed t seekableDrops threshold).1
        plaintext.length
      = .ok plaintext := by
  unfold seekableOrMonolithic
  by_cases hemit : seekableDrops = true ∧ threshold < plaintext.length ∧ isSeekableCodec codec = true
  · rw [if_pos hemit]
    split
    · next container hcont =>
        rw [decodeStored_container]
        exact decodeSeekable_encodeSeekable z (isSeekableCodec_inverts hz hemit.2.2 t) hlen hcont
    · rw [decodeStored_plain]
      exact h
  · rw [if_neg hemit, decodeStored_plain]
    exact h

theorem seekableOrMonolithic_of_not_seekable {codec : UInt8} {plaintext compressed : Bytes}
    {t : CodecTunables} {seekableDrops : Bool} {threshold : Nat}
    (h : isSeekableCodec codec = false) :
    seekableOrMonolithic z codec plaintext compressed t seekableDrops threshold
      = (compressed, 0) := by
  unfold seekableOrMonolithic
  rw [if_neg (fun hc => absurd hc.2.2 (by rw [h]; decide))]

theorem decompress_store (x : Bytes) : decompress z codecStore x x.length = .ok x := by
  show codecCall (if x.length = x.length then .ok x else _) = .ok x
  rw [if_pos rfl]
  rfl

theorem decompress_brotli (hz : z.Lawful) {data c : Bytes} {t : CodecTunables}
    (h : compressWithTunables z codecBrotli data t = .ok c) :
    decompress z codecBrotli c data.length = .ok data :=
  decompress_compressWithTunables hz (fun h => absurd h (by decide)) (by decide) h

theorem decompress_zstd (hz : z.Lawful) {data c : Bytes} {t : CodecTunables}
    (h : compressWithTunables z codecZstd data t = .ok c) :
    decompress z codecZstd c data.length = .ok data :=
  decompress_compressWithTunables hz (fun h => absurd h (by decide)) (by decide) h

theorem firstCandidate_decodes (hz : z.Lawful) (data : Bytes) (t : CodecTunables) :
    decompress z (firstCandidate z data t).1 (firstCandidate z data t).2 data.length = .ok data := by
  unfold firstCandidate
  split
  · next c hc => exact decompress_brotli hz hc
  · split
    · next c hc => exact decompress_zstd hz hc
    · exact decompress_store data

theorem generalCandidate_decodes (hz : z.Lawful) (data : Bytes) (t : CodecTunables) :
    decompress z (generalCandidate z data t).1 (generalCandidate z data t).2 data.length
      = .ok data := by
  have hfirst := firstCandidate_decodes hz data t
  unfold generalCandidate
  simp only
  split
  · split
    · next c hc =>
        split
        · exact decompress_zstd hz hc
        · exact hfirst
    · exact hfirst
  · exact hfirst

/-- A specialised output that beats its baseline decodes, FLAC apart.  For FSST + Brotli the
plain form is four bytes longer than the baseline and never wins, which is as well: the
baseline may be a ZSTD stream. -/
theorem specialisedResult_decodes (hz : z.Lawful) {data c best : Bytes} {catCodec : UInt8}
    {t : CodecTunables} (hfits : isFilterComposite catCodec = true → FilteredFits z data)
    (hflac : catCodec ≠ codecFlac) (h : specialisedResult z data catCodec t best = .ok c)
    (hlt : c.length < best.length) : decompress z catCodec c data.length = .ok data := by
  unfold specialisedResult at h
  by_cases hfsst : catCodec = codecFsstBrotli
  · rw [if_pos hfsst] at h
    have hpacked : (packNoFsst best).length = best.length + 4 := by
      unfold packNoFsst
      rw [List.length_append, leBytes_length]
      omega
    have hplain : Except.ok (packNoFsst best) = (Except.ok c : Except CoreError Bytes) → False := by
      intro heq
      rw [← Except.ok.inj heq] at hlt
      omega
    unfold fsstCompressWithBaseline resolveBaseline at h
    simp only at h
    split at h
    · exact absurd h (fun heq => hplain heq)
    · split at h
      · exact absurd h (by simp)
      · next fsst hf =>
          split at h
          · exact absurd h (by simp)
          · next brotli hb =>
              split at h
              · exact absurd h (fun heq => hplain heq)
              · split at h
                · exact absurd h (by simp)
                · have hdec := fsst_composite_decompress hz data.length hf hb (by omega)
                    (Except.ok.inj h).symm
                  rw [hfsst]
                  show codecCall (fsstDecompress z c data.length) = .ok data
                  rw [hdec]
                  rfl
  · rw [if_neg hfsst] at h
    exact decompress_compressWithTunables hz hfits hflac h

/-- FLAC is tried, is shorter than everything else, and the file is not just its samples. -/
def FlacTruncates (z : Omnizip) (data : Bytes) (catCodec : UInt8) (t : CodecTunables) : Prop :=
  catCodec = codecFlac ∧ triesSpecialised z data catCodec t ∧
    ∃ params pcm c, flacPayload z data = .ok (params, pcm) ∧ flacCompress z data = .ok c ∧
      c.length < (generalCandidate z data t).2.length ∧ pcm ≠ data

theorem flac_payload_of_ok {x c : Bytes} (h : flacCompress z x = .ok c) :
    ∃ params pcm, flacPayload z x = .ok (params, pcm) := by
  unfold flacCompress at h
  split at h
  · exact absurd h (by simp)
  · next params pcm hp => exact ⟨params, pcm, hp⟩

theorem decompress_flac (hz : z.Lawful) {data c pcm : Bytes} {params : z.PcmParams}
    (hpay : flacPayload z data = .ok (params, pcm)) (h : flacCompress z data = .ok c) (n : Nat) :
    decompress z codecFlac c n = .ok pcm := by
  show codecCall ((flacCodec z).decompress c n) = .ok pcm
  rw [flac_decompress hz n hpay h]
  rfl

/-- **The winner of a whole-file race decodes, unless FLAC won on a file with a container.** -/
theorem wholeFileCandidate_decodes_iff (hz : z.Lawful) {data : Bytes} {catCodec : UInt8}
    {t : CodecTunables} (hfits : isFilterComposite catCodec = true → FilteredFits z data) :
    decompress z (wholeFileCandidate z data catCodec t).1 (wholeFileCandidate z data catCodec t).2
        data.length = .ok data
      ↔ ¬ FlacTruncates z data catCodec t := by
  have hgen := generalCandidate_decodes hz data t
  by_cases hflac : catCodec = codecFlac
  · subst hflac
    have hspec : ∀ best, specialisedResult z data codecFlac t best
        = codecCall (flacCompress z data) := fun _ => rfl
    constructor
    · rintro hdec ⟨-, htries, params, pcm, c, hpay, hc, hlt, hne⟩
      unfold wholeFileCandidate at hdec
      simp only [if_pos htries, hspec, hc, codecCall, if_pos hlt] at hdec
      rw [decompress_flac hz hpay hc] at hdec
      exact hne (Except.ok.inj hdec)
    · intro hno
      unfold wholeFileCandidate
      by_cases htries : triesSpecialised z data codecFlac t
      · simp only [if_pos htries, hspec]
        split
        · next c hc =>
            have hraw := codecCall_ok hc
            obtain ⟨params, pcm, hpay⟩ := flac_payload_of_ok hraw
            by_cases hlt : c.length < (generalCandidate z data t).2.length
            · have hpcm : pcm = data := by
                by_contra hne
                exact hno ⟨rfl, htries, params, pcm, c, hpay, hraw, hlt, hne⟩
              rw [if_pos hlt, decompress_flac hz hpay hraw, hpcm]
            · rw [if_neg hlt]
              exact hgen
        · exact hgen
      · simp only [if_neg htries]
        exact hgen
  · refine ⟨fun _ ht => hflac ht.1, fun _ => ?_⟩
    unfold wholeFileCandidate
    simp only
    split
    · split
      · next c hc =>
          split
          · next hlt => exact specialisedResult_decodes hz hfits hflac hc hlt
          · exact hgen
      · exact hgen
    · exact hgen

theorem wholeFileCandidate_flac {data : Bytes} {catCodec : UInt8} {t : CodecTunables}
    (h : FlacTruncates z data catCodec t) : (wholeFileCandidate z data catCodec t).1 = codecFlac := by
  obtain ⟨rfl, htries, params, pcm, c, -, hc, hlt, -⟩ := h
  have hspec : ∀ best, specialisedResult z data codecFlac t best
      = codecCall (flacCompress z data) := fun _ => rfl
  unfold wholeFileCandidate
  simp only [if_pos htries, hspec, hc, codecCall, if_pos hlt]

/--
**When a whole-file drop is lossless.**  The emitted drop is named by the hash of the file,
its slice covers the file, and what is stored decodes to the file exactly when FLAC did not
win on a file that is more than its sample payload.
-/
theorem wholeFileDrop_decodes_iff (hz : z.Lawful) (H : Hash) {data : Bytes} {catCodec : UInt8}
    {t : CodecTunables} {seekableDrops : Bool} (hlen : data.length < u32Limit)
    (hcap : isFilterComposite catCodec = true → data.length ≤ wholeFileMaxSize) :
    ∃ drop, (processWholeFileDrop z H data catCodec t seekableDrops).drops = [drop] ∧
      drop.id = H data ∧
      (processWholeFileDrop z H data catCodec t seekableDrops).slices
        = [⟨drop.id, 0, data.length⟩] ∧
      (decodeStored z drop.codec drop.flags drop.compressed data.length = .ok data
        ↔ ¬ FlacTruncates z data catCodec t) := by
  have hiff := wholeFileCandidate_decodes_iff hz (t := t) fun h => filteredFits_of_le hz (hcap h)
  refine ⟨_, rfl, rfl, rfl, ?_⟩
  constructor
  · intro hdec htrunc
    have hcodec := wholeFileCandidate_flac htrunc
    simp only [hcodec] at hdec
    rw [seekableOrMonolithic_of_not_seekable (by decide), decodeStored_plain] at hdec
    refine hiff.mp ?_ htrunc
    rw [hcodec]
    exact hdec
  · intro hno
    exact decodeStored_seekableOrMonolithic hz hlen (hiff.mpr hno)

namespace Stored

/-- 200 samples of 16 bits with a zero high byte. -/
def sampleBytes : Bytes :=
  (List.range 200).flatMap fun i => [UInt8.ofNat ((i * i * 7 + 13 * i) % 251), 0]

/-- A WAV file around them. -/
def wavFile : Bytes :=
  ascii "RIFF" ++ leBytes 4 436 ++ ascii "WAVE" ++ ascii "fmt " ++ leBytes 4 16
    ++ [1, 0, 1, 0, 0x44, 0xAC, 0, 0, 0x88, 0x58, 1, 0, 2, 0, 16, 0]
    ++ ascii "data" ++ leBytes 4 400 ++ sampleBytes

def tunables : CodecTunables := ⟨5, 0, 0, 0, 0, 0, 0⟩

/-- A digest for runs on fixed inputs: the first 32 bytes, padded. -/
def digest (x : Bytes) : Digest :=
  ⟨(x ++ List.replicate 32 0).take 32, by simp⟩

end Stored

open LimniFS.Stored

/-- The samples come back, the file does not. -/
theorem wav_drop_decodes_to_samples :
    ∃ drop ∈ (processWholeFileDrop omnizip digest wavFile codecFlac
        tunables true).drops,
      decodeStored omnizip drop.codec drop.flags drop.compressed wavFile.length
          = .ok sampleBytes ∧
        sampleBytes ≠ wavFile := by
  refine ⟨_, List.mem_singleton.mpr rfl, ?_, ?_⟩
  · decide +kernel
  · decide +kernel

/-- On the same samples, an ordinary codec keeps the file. -/
theorem wholeFileDrop_decodes_iff_bzip2 :
    ∃ drop, (processWholeFileDrop omnizip digest wavFile codecBzip2
        tunables true).drops = [drop] ∧ drop.id = digest wavFile ∧
      (processWholeFileDrop omnizip digest wavFile codecBzip2
        tunables true).slices = [⟨drop.id, 0, wavFile.length⟩] ∧
      (decodeStored omnizip drop.codec drop.flags drop.compressed wavFile.length
          = .ok wavFile
        ↔ ¬ FlacTruncates omnizip wavFile codecBzip2 tunables) :=
  wholeFileDrop_decodes_iff omnizip_lawful digest (by decide +kernel)
    (fun h => absurd h (by decide))

end LimniFS
