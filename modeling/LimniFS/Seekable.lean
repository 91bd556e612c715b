/-
The seekable drop container.

A large drop is stored as independent frames of one codec with a footer behind them:
per frame the plain and the compressed length, then a fixed tail with the magic, the
version and the number of frames.  The footer is parsed back to front, so nothing
in front of it says where it starts; what ties the two together is that the
compressed lengths must add up to exactly the bytes before the table.

`decodeSeekable_encodeSeekable` is the round trip: for a codec that inverts, the
container of a plaintext decodes to the plaintext, whatever its length.
-/
import LimniFS.CodecRoundTrip

namespace LimniFS

open Lib

def seekableMagic : Bytes := ascii "LMSK"
def seekableVersion : Nat := 1
def footerTailLen : Nat := 10
def seekableFrameSize : Nat := 256 * 1024
def seekableEmissionThreshold : Nat := 1024 * 1024
def dropFlagSeekable : UInt8 := 0x01

/-- Can this codec's output be split into independent frames? -/
def isSeekableCodec (id : UInt8) : Bool :=
  [codecLz4, codecLz4Hc, codecZstd, codecXz, codecBrotli, codecDeflate, codecSnappy, codecBzip2,
   codecPpmd, codecPpmd8, codecLibdeflate, codecDeflate64].contains id

/-! ### Encoding -/

/-- `l.chunks(size)`; the fuel bounds the number of chunks. -/
def chunksOf (size : Nat) : Nat → Bytes → List Bytes
  | 0, _ => []
  | fuel + 1, l => if l = [] then [] else l.take size :: chunksOf size fuel (l.drop size)

/-- The frames of a plaintext; an empty one still has a frame. -/
def seekableFrames (plaintext : Bytes) : List Bytes :=
  if plaintext = [] then [[]] else chunksOf seekableFrameSize plaintext.length plaintext

variable (z : Omnizip)

/-- Compress the frames one after another; the first failure is the result. -/
def encodeFrames (codec : UInt8) (t : CodecTunables) : List Bytes → Except CoreError (List Bytes)
  | [] => .ok []
  | frame :: rest =>
    match compressWithTunables z codec frame t with
    | .error e => .error e
    | .ok c =>
      if u32Limit ≤ c.length then
        .error (.corrupt "seekable frame compressed length exceeds u32")
      else
        match encodeFrames codec t rest with
        | .error e => .error e
        | .ok cs => .ok (c :: cs)

/-- One row of the footer table per frame. -/
def footerTable : List Bytes → List Bytes → Bytes
  | frame :: frames, c :: cs =>
    leBytes 4 frame.length ++ leBytes 4 c.length ++ footerTable frames cs
  | _, _ => []

def encodeSeekable (codec : UInt8) (plaintext : Bytes) (t : CodecTunables) :
    Except CoreError Bytes :=
  let frames := seekableFrames plaintext
  match encodeFrames z codec t frames with
  | .error e => .error e
  | .ok cs => .ok (cs.flatten ++ footerTable frames cs ++ seekableMagic
      ++ leBytes 2 seekableVersion ++ leBytes 4 frames.length)

/-! ### Decoding -/

/-- Plain and compressed length of each frame, in order. -/
structure SeekFooter where
  uncompLens : List Nat
  compLens : List Nat

namespace SeekFooter

def totalUncomp (f : SeekFooter) : Nat := f.uncompLens.sum

def totalComp (f : SeekFooter) : Nat := f.compLens.sum

end SeekFooter

/-- The rows of the table, eight bytes each. -/
def footerRows : Nat → Bytes → List (Nat × Nat)
  | 0, _ => []
  | n + 1, l => (leNat (l.take 4), leNat ((l.drop 4).take 4)) :: footerRows n (l.drop 8)

def seekableCorrupt (reason : String) : CoreError :=
  .corrupt ("seekable container: " ++ reason)

def parseFooter (container : Bytes) : Except CoreError SeekFooter :=
  if container.length < 8 + footerTailLen then
    .error (seekableCorrupt
      s!"length {container.length} too small for one frame entry + footer")
  else
    let tail := container.drop (container.length - footerTailLen)
    if tail.take 4 ≠ seekableMagic then .error (seekableCorrupt "footer magic is not LMSK")
    else
      let version := leNat ((tail.drop 4).take 2)
      if version ≠ seekableVersion then
        .error (seekableCorrupt s!"footer version {version} (supported: {seekableVersion})")
      else
        let frameCount := leNat ((tail.drop 6).take 4)
        if container.length - footerTailLen < frameCount * 8 then
          .error (seekableCorrupt (s!"frame_count {frameCount} overruns container length"
            ++ s!" {container.length}"))
        else
          let tableStart := container.length - footerTailLen - frameCount * 8
          let rows := footerRows frameCount (container.drop tableStart)
          let footer : SeekFooter := ⟨rows.map Prod.fst, rows.map Prod.snd⟩
          if footer.totalComp ≠ tableStart then
            .error (seekableCorrupt (s!"frame lengths sum to {footer.totalComp} compressed"
              ++ s!" bytes but container has {tableStart}"))
          else if 0 ∈ footer.uncompLens ∧ 1 < footer.uncompLens.length then
            .error (seekableCorrupt "zero-length frame in multi-frame container")
          else .ok footer

/-- The frames from the front of `body`, decoded and concatenated. -/
def decodeFrames (codec : UInt8) : List Nat → List Nat → Bytes → Except CoreError Bytes
  | u :: us, c :: cs, body =>
    match decompress z codec (body.take c) u with
    | .error e => .error e
    | .ok plain =>
      match decodeFrames codec us cs (body.drop c) with
      | .error e => .error e
      | .ok rest => .ok (plain ++ rest)
  | _, _, _ => .ok []

def decodeSeekable (codec : UInt8) (container : Bytes) (expectedLen : Nat) :
    Except CoreError Bytes :=
  match parseFooter container with
  | .error e => .error e
  | .ok footer =>
    if footer.totalUncomp ≠ expectedLen then
      .error (.corrupt (s!"seekable container: frames cover {footer.totalUncomp} plaintext"
        ++ s!" bytes, drop record says {expectedLen}"))
    else decodeFrames z codec footer.uncompLens footer.compLens container

/-! ### The frames of a plaintext -/

theorem chunksOf_flatten {size : Nat} (hsize : 0 < size) :
    ∀ (fuel : Nat) (l : Bytes), l.length ≤ fuel → (chunksOf size fuel l).flatten = l := by
  intro fuel
  induction fuel with
  | zero =>
      intro l hl
      rw [List.length_eq_zero_iff.mp (by omega : l.length = 0)]
      rfl
  | succ fuel ih =>
      intro l hl
      unfold chunksOf
      by_cases hnil : l = []
      · rw [if_pos hnil, hnil]
        rfl
      · have hpos := List.length_pos_iff.mpr hnil
        rw [if_neg hnil, List.flatten_cons, ih _ (by simp; omega), List.take_append_drop]

theorem chunksOf_bounds {size : Nat} (hsize : 0 < size) :
    ∀ (fuel : Nat) (l : Bytes), ∀ f ∈ chunksOf size fuel l, 0 < f.length ∧ f.length ≤ size := by
  intro fuel
  induction fuel with
  | zero => intro l f hf; exact absurd hf List.not_mem_nil
  | succ fuel ih =>
      intro l f hf
      unfold chunksOf at hf
      by_cases hnil : l = []
      · rw [if_pos hnil] at hf
        exact absurd hf List.not_mem_nil
      · have hpos := List.length_pos_iff.mpr hnil
        rw [if_neg hnil] at hf
        rcases List.mem_cons.mp hf with rfl | hf'
        · rw [List.length_take]
          omega
        · exact ih _ f hf'

theorem chunksOf_length_le (size : Nat) :
    ∀ (fuel : Nat) (l : Bytes), (chunksOf size fuel l).length ≤ fuel := by
  intro fuel
  induction fuel with
  | zero => intro l; exact Nat.le_refl _
  | succ fuel ih =>
      intro l
      unfold chunksOf
      split
      · exact Nat.zero_le _
      · exact Nat.succ_le_succ (ih _)

theorem seekableFrames_flatten (plaintext : Bytes) :
    (seekableFrames plaintext).flatten = plaintext := by
  unfold seekableFrames
  by_cases hnil : plaintext = []
  · rw [if_pos hnil, hnil]
    rfl
  · rw [if_neg hnil]
    exact chunksOf_flatten (by decide) _ _ (Nat.le_refl _)

/-- What the footer's checks ask of the frames. -/
structure FramesOK (frames : List Bytes) : Prop where
  fits : ∀ f ∈ frames, f.length < u32Limit
  count : frames.length < u32Limit
  nonempty : frames ≠ []
  multi : 1 < frames.length → ∀ f ∈ frames, f.length ≠ 0

theorem framesOK_of_count {plaintext : Bytes} (h : (seekableFrames plaintext).length < u32Limit) :
    FramesOK (seekableFrames plaintext) := by
  unfold seekableFrames at h ⊢
  by_cases hnil : plaintext = []
  · rw [if_pos hnil]
    refine ⟨?_, by decide, by simp, ?_⟩
    · intro f hf
      rw [List.mem_singleton.mp hf]
      decide
    · intro h1
      exact absurd h1 (by decide)
  · rw [if_neg hnil] at h ⊢
    have hb := chunksOf_bounds (by decide : 0 < seekableFrameSize) plaintext.length plaintext
    refine ⟨?_, h, ?_, ?_⟩
    · intro f hf
      have := (hb f hf).2
      unfold seekableFrameSize at this
      unfold u32Limit
      omega
    · intro hempty
      have hflat := chunksOf_flatten (by decide : 0 < seekableFrameSize) _ plaintext (Nat.le_refl _)
      rw [hempty] at hflat
      exact hnil hflat.symm
    · intro _ f hf
      have := (hb f hf).1
      omega

theorem seekableFrames_ok {plaintext : Bytes} (h : plaintext.length < u32Limit) :
    FramesOK (seekableFrames plaintext) := by
  refine framesOK_of_count ?_
  unfold seekableFrames
  by_cases hnil : plaintext = []
  · rw [if_pos hnil]
    decide
  · rw [if_neg hnil]
    exact Nat.lt_of_le_of_lt (chunksOf_length_le _ _ _) h

/-! ### The round trip -/

theorem encodeFrames_length {codec : UInt8} {t : CodecTunables} :
    ∀ {frames cs : List Bytes}, encodeFrames z codec t frames = .ok cs →
      cs.length = frames.length ∧ ∀ c ∈ cs, c.length < u32Limit := by
  intro frames
  induction frames with
  | nil =>
      intro cs h
      rw [← Except.ok.inj h]
      exact ⟨rfl, fun c hc => absurd hc List.not_mem_nil⟩
  | cons frame rest ih =>
      intro cs h
      unfold encodeFrames at h
      split at h
      · exact absurd h (by simp)
      · next c hc =>
          by_cases hbig : u32Limit ≤ c.length
          · rw [if_pos hbig] at h
            exact absurd h (by simp)
          · rw [if_neg hbig] at h
            split at h
            · exact absurd h (by simp)
            · next cs' hcs' =>
                obtain ⟨hlen, hfit⟩ := ih hcs'
                rw [← Except.ok.inj h]
                refine ⟨by simp [hlen], ?_⟩
                intro c' hc'
                rcases List.mem_cons.mp hc' with rfl | hmem
                · omega
                · exact hfit c' hmem

theorem footerTable_length : ∀ {frames cs : List Bytes}, cs.length = frames.length →
    (footerTable frames cs).length = frames.length * 8 := by
  intro frames
  induction frames with
  | nil =>
      intro cs h
      rw [List.length_eq_zero_iff.mp h]
      rfl
  | cons frame rest ih =>
      intro cs h
      cases cs with
      | nil => exact absurd h (by simp)
      | cons c cs =>
          have hrest := ih (Nat.succ.inj h)
          simp only [footerTable, List.length_append, leBytes_length, List.length_cons, hrest]
          omega

/-- The table reads back, whatever follows it. -/
theorem footerRows_footerTable {tail : Bytes} : ∀ {frames cs : List Bytes},
    cs.length = frames.length → (∀ f ∈ frames, f.length < u32Limit) →
    (∀ c ∈ cs, c.length < u32Limit) →
    footerRows frames.length (footerTable frames cs ++ tail)
      = (frames.map List.length).zip (cs.map List.length) := by
  intro frames
  induction frames with
  | nil => intro cs _ _ _; rfl
  | cons frame rest ih =>
      intro cs h hf hc
      cases cs with
      | nil => exact absurd h (by simp)
      | cons c cs =>
          have hrest := ih (Nat.succ.inj h) (fun f hm => hf f (List.mem_cons_of_mem _ hm))
            (fun c hm => hc c (List.mem_cons_of_mem _ hm))
          have hu : leNat (leBytes 4 frame.length) = frame.length :=
            leNat_leBytes (hf frame List.mem_cons_self)
          have hv : leNat (leBytes 4 c.length) = c.length :=
            leNat_leBytes (hc c List.mem_cons_self)
          simp only [List.length_cons, footerTable, footerRows, List.map_cons, List.zip_cons_cons,
            List.append_assoc]
          rw [List.take_left' (leBytes_length 4 _), List.drop_left' (leBytes_length 4 _),
            List.take_left' (leBytes_length 4 _), hu, hv]
          rw [← hrest, show (8 : Nat) = 4 + 4 from rfl, ← List.drop_drop,
            List.drop_left' (leBytes_length 4 _), List.drop_left' (leBytes_length 4 _)]

/-- The footer of an encoded container. -/
theorem parseFooter_container {frames cs : List Bytes} (hok : FramesOK frames)
    (hlen : cs.length = frames.length) (hfit : ∀ c ∈ cs, c.length < u32Limit) :
    parseFooter (cs.flatten ++ footerTable frames cs ++ seekableMagic
        ++ leBytes 2 seekableVersion ++ leBytes 4 frames.length)
      = .ok ⟨frames.map List.length, cs.map List.length⟩ := by
  obtain ⟨hff, hcount, hne, hmulti⟩ := hok
  have hpos : 0 < frames.length := List.length_pos_iff.mpr hne
  have htable := footerTable_length hlen
  generalize hbody : cs.flatten ++ footerTable frames cs = body
  have hbodylen : body.length = cs.flatten.length + frames.length * 8 := by
    rw [← hbody, List.length_append, htable]
  generalize hcont : body ++ seekableMagic ++ leBytes 2 seekableVersion
    ++ leBytes 4 frames.length = container
  have hcontlen : container.length = body.length + 10 := by
    rw [← hcont]
    simp [seekableMagic, ascii]
  have htail : container.drop (container.length - footerTailLen)
      = seekableMagic ++ (leBytes 2 seekableVersion ++ leBytes 4 frames.length) := by
    rw [hcontlen, ← hcont, List.append_assoc, List.append_assoc]
    exact List.drop_left' (by simp [footerTailLen])
  have hmagic : (seekableMagic ++ (leBytes 2 seekableVersion ++ leBytes 4 frames.length)).take 4
      = seekableMagic := List.take_left' (by decide)
  have hversion : leNat (((seekableMagic ++ (leBytes 2 seekableVersion
      ++ leBytes 4 frames.length)).drop 4).take 2) = seekableVersion := by
    rw [List.drop_left' (by decide : seekableMagic.length = 4), List.take_left' (leBytes_length 2 _)]
    rfl
  have hframes : leNat (((seekableMagic ++ (leBytes 2 seekableVersion
      ++ leBytes 4 frames.length)).drop 6).take 4) = frames.length := by
    rw [← List.append_assoc, List.drop_left' (by decide), List.take_of_length_le (by simp)]
    exact leNat_leBytes hcount
  have hstart : container.length - footerTailLen - frames.length * 8 = cs.flatten.length := by
    unfold footerTailLen
    omega
  have hrows : footerRows frames.length (container.drop cs.flatten.length)
      = (frames.map List.length).zip (cs.map List.length) := by
    rw [← hcont, ← hbody]
    simp only [List.append_assoc]
    rw [List.drop_left' rfl]
    exact footerRows_footerTable hlen hff hfit
  have hfst : ((frames.map List.length).zip (cs.map List.length)).map Prod.fst
      = frames.map List.length := List.map_fst_zip (by simp [hlen])
  have hsnd : ((frames.map List.length).zip (cs.map List.length)).map Prod.snd
      = cs.map List.length := List.map_snd_zip (by simp [hlen])
  unfold parseFooter
  rw [if_neg (by unfold footerTailLen; omega)]
  simp only [htail, hmagic, hversion, hframes, hstart, hrows, hfst, hsnd, ne_eq, not_true_eq_false,
    if_false]
  rw [if_neg (by unfold footerTailLen; omega),
    if_neg (by simp [SeekFooter.totalComp, List.length_flatten]), if_neg]
  rintro ⟨hzero, hlt⟩
  obtain ⟨f, hf, hf0⟩ := List.mem_map.mp hzero
  exact hmulti (by simpa using hlt) f hf hf0

/-- Frames that invert decode one after another off the front of the container. -/
theorem decodeFrames_encodeFrames {codec : UInt8} {t : CodecTunables}
    (hinv : ∀ x c, compressWithTunables z codec x t = .ok c →
      decompress z codec c x.length = .ok x) (tail : Bytes) :
    ∀ {frames cs : List Bytes}, encodeFrames z codec t frames = .ok cs →
      decodeFrames z codec (frames.map List.length) (cs.map List.length) (cs.flatten ++ tail)
        = .ok frames.flatten := by
  intro frames
  induction frames with
  | nil =>
      intro cs h
      rw [← Except.ok.inj h]
      rfl
  | cons frame rest ih =>
      intro cs h
      unfold encodeFrames at h
      split at h
      · exact absurd h (by simp)
      · next c hc =>
          by_cases hbig : u32Limit ≤ c.length
          · rw [if_pos hbig] at h
            exact absurd h (by simp)
          · rw [if_neg hbig] at h
            split at h
            · exact absurd h (by simp)
            · next cs' hcs' =>
                rw [← Except.ok.inj h]
                simp only [List.map_cons, List.flatten_cons, List.append_assoc, decodeFrames]
                rw [List.take_left' rfl, List.drop_left' rfl, hinv frame c hc]
                simp only [ih hcs']

/-- **A container decodes to its plaintext.** -/
theorem decodeSeekable_encodeSeekable {codec : UInt8} {t : CodecTunables} {plaintext c : Bytes}
    (hinv : ∀ x c, compressWithTunables z codec x t = .ok c →
      decompress z codec c x.length = .ok x)
    (hlen : plaintext.length < u32Limit) (h : encodeSeekable z codec plaintext t = .ok c) :
    decodeSeekable z codec c plaintext.length = .ok plaintext := by
  unfold encodeSeekable at h
  simp only at h
  split at h
  · exact absurd h (by simp)
  · next cs hcs =>
      obtain ⟨hcount, hfit⟩ := encodeFrames_length z hcs
      have hfooter := parseFooter_container (seekableFrames_ok hlen) hcount hfit
      have hflat := seekableFrames_flatten plaintext
      have htotal : (SeekFooter.mk ((seekableFrames plaintext).map List.length)
          (cs.map List.length)).totalUncomp = plaintext.length := by
        unfold SeekFooter.totalUncomp
        rw [← List.length_flatten, hflat]
      rw [← Except.ok.inj h]
      unfold decodeSeekable
      rw [hfooter]
      simp only
      rw [if_neg (by rw [htotal]; exact fun hc => hc rfl)]
      simp only [List.append_assoc]
      rw [decodeFrames_encodeFrames z hinv _ hcs, hflat]

theorem isSeekableCodec_inverts {z : Omnizip} (hz : z.Lawful) {codec : UInt8}
    (h : isSeekableCodec codec = true) (t : CodecTunables) :
    ∀ x c, compressWithTunables z codec x t = .ok c → decompress z codec c x.length = .ok x := by
  intro x c hc
  have hplain : isFilterComposite codec = false ∧ codec ≠ codecFlac := by
    simp only [isSeekableCodec, List.contains_iff_mem, List.mem_cons, List.not_mem_nil,
      or_false] at h
    rcases h with rfl | rfl | rfl | rfl | rfl | rfl | rfl | rfl | rfl | rfl | rfl | rfl <;> decide
  refine decompress_compressWithTunables hz ?_ hplain.2 hc
  intro hcomposite
  rw [hplain.1] at hcomposite
  exact absurd hcomposite (by decide)

end LimniFS
