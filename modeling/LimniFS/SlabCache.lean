/-
Drops and windows of drops through the caches.

A cached store keeps whole plaintexts by drop id, single frames of seekable drops by a hash
of drop id and frame number, and parsed footers.  A window of a resident drop is cut out of
it; a window of a seekable drop is put together from frames; any other drop is decoded whole
first.

The three caches fill and empty in any order.  What holds between any two calls is that
nothing in them is wrong (`Sound`): a plaintext is what the store decodes, a frame is what
its bytes decode to, a footer is the one of its drop.
-/
import LimniFS.SeekableRange
import LimniFS.SieveCache
import LimniFS.SlabStore

namespace LimniFS

open Lib

/-! ### Windows of the store -/

/-- The window of a whole plaintext; `none` is an overflow. -/
def sliceRange (text : String) (full : Bytes) (off len : Nat) : Option (Except CoreError Bytes) :=
  if 2 ^ 64 ≤ off + len then none
  else if full.length < off ∨ full.length < off + len then
    some (.error (.corrupt (text ++ s!" length {full.length}")))
  else some (.ok ((full.drop off).take len))

namespace SlabStore

variable (z : Omnizip)

def dropIsSeekable (store : SlabStore) (dropId : Digest) : Option Bool :=
  (store.locateWindow dropId).map fun (_, record) => record.flags &&& dropFlagSeekable ≠ 0

def rawWindow (store : SlabStore) (dropId : Digest) : Option (Bytes × DropRecord) :=
  store.locateWindow dropId

/-- The outer `none` is a panic. -/
def plaintextRange (store : SlabStore) (dropId : Digest) (off len : Nat) :
    Option (Option (Except CoreError Bytes)) :=
  match store.locateWindow dropId with
  | none => some none
  | some (raw, record) =>
    if record.flags &&& dropFlagSeekable ≠ 0 then
      (decodeSeekableRange z record.representation.codec raw off len).map some
    else
      match decodeDrop z record raw store.dictionaries with
      | .error e => some (some (.error e))
      | .ok full =>
        (sliceRange s!"drop range [{off}, {off + len}) outside plaintext" full off len).map some

end SlabStore

/-! ### Buffers -/

/-- `buf[pos..pos + piece.len()].copy_from_slice(piece)`. -/
def copyAt (buf : Bytes) (pos : Nat) (piece : Bytes) : Bytes :=
  buf.take pos ++ piece ++ buf.drop (pos + piece.length)

/-- As much of `full[off..]` as fits, and how much that is. -/
def copyFrom (full : Bytes) (off : Nat) (buf : Bytes) : Bytes × Nat :=
  if full.length ≤ off then (buf, 0)
  else
    let avail := min (full.length - off) buf.length
    (copyAt buf 0 ((full.drop off).take avail), avail)

/-- The default of the trait: decode the whole drop and copy. -/
def defaultDecodedRangeInto (plaintextFor : Option (Except CoreError Bytes)) (off : Nat)
    (buf : Bytes) : Bytes × Option (Except CoreError Nat) :=
  if buf = [] then (buf, some (.ok 0))
  else
    match plaintextFor with
    | none => (buf, none)
    | some (.error e) => (buf, some (.error e))
    | some (.ok full) =>
      let (buf, n) := copyFrom full off buf
      (buf, some (.ok n))

/-! ### The cached store -/

/-- The cache key of one frame of a drop. -/
def frameKey (H : Hash) (dropId : Digest) (i : Nat) : Digest := H (dropId.val ++ leBytes 4 i)

structure CachedSlabStore where
  inner : SlabStore
  cache : SieveCache
  footers : AList fun _ : Digest => SeekFooter
  frames : SieveCache

namespace CachedSlabStore

def withFrameBudget (inner : SlabStore) (entryCapacity byteBudget frameByteBudget : Nat) :
    CachedSlabStore :=
  let frameEntries := max 16 (min (frameByteBudget / (128 * 1024)) 1024)
  ⟨inner, .new entryCapacity byteBudget, ∅, .new frameEntries frameByteBudget⟩

variable (H : Hash) (z : Omnizip)

/-- A call's answer with the state it leaves; `none` is a panic. -/
abbrev Answer (α : Type) := Option (CachedSlabStore × Option (Except CoreError α))

/-- The path behind a miss. -/
def decodedFetchInsert (s : CachedSlabStore) (dropId : Digest) : Answer Bytes :=
  match s.inner.plaintextFor z dropId with
  | none => some (s, none)
  | some (.error e) => some (s, some (.error e))
  | some (.ok bytes) =>
    (s.cache.insert dropId bytes).map fun (cache, _) => ({ s with cache }, some (.ok bytes))

def decoded (s : CachedSlabStore) (dropId : Digest) : Answer Bytes :=
  match s.cache.get dropId with
  | (cache, some hit) => some ({ s with cache }, some (.ok hit))
  | (cache, none) => decodedFetchInsert z { s with cache } dropId

def plaintextFor (s : CachedSlabStore) (dropId : Digest) : Answer Bytes :=
  s.decodedFetchInsert z dropId

/-! ### Frames -/

/-- A frame from the cache or from its bytes; the inner `none` is the `?` behind a decoder that
failed. -/
def cachedFrame (codec : UInt8) (key : Digest) (frame : Bytes) (uncompLen : Nat)
    (frames : SieveCache) : Option (SieveCache × Option Bytes) :=
  match frames.get key with
  | (frames, some hit) => some (frames, some hit)
  | (frames, none) =>
    match decompress z codec frame uncompLen with
    | .error _ => some (frames, none)
    | .ok decoded => (frames.insert key decoded).map fun (frames, _) => (frames, some decoded)

/-- The loop of `cached_frame_range` over the frames from `i` on. -/
def frameRangeLoop (dropId : Digest) (codec : UInt8) (off len : Nat) :
    List Nat → List Nat → Nat → Bytes → Nat → SieveCache → Option (SieveCache × Option Bytes)
  | u :: us, c :: cs, i, body, cum, frames =>
    match cachedFrame z codec (frameKey H dropId i) (body.take c) u frames with
    | none => none
    | some (frames, none) => some (frames, none)
    | some (frames, some decoded) =>
      let sliceFrom := off - cum
      let sliceTo := min (off + len - cum) u
      if off + len < cum ∨ sliceTo < sliceFrom ∨ decoded.length < sliceTo then none
      else
        let piece := (decoded.take sliceTo).drop sliceFrom
        if off + len ≤ cum + u then some (frames, some piece)
        else
          match frameRangeLoop dropId codec off len us cs (i + 1) (body.drop c) (cum + u) frames with
          | some (frames, some rest) => some (frames, some (piece ++ rest))
          | other => other
  | _, _, _, _, _, frames => some (frames, some [])

/-- The loop of `cached_frame_range_into`: the buffer, and how much of it is written. -/
def frameIntoLoop (dropId : Digest) (codec : UInt8) (off want availTotal : Nat) :
    List Nat → List Nat → Nat → Bytes → Nat → Bytes → Nat → SieveCache →
      Option (SieveCache × Bytes × Option Nat)
  | u :: us, c :: cs, i, body, cum, buf, written, frames =>
    match cachedFrame z codec (frameKey H dropId i) (body.take c) u frames with
    | none => none
    | some (frames, none) => some (frames, buf, none)
    | some (frames, some decoded) =>
      let sliceFrom := off - cum
      let sliceTo := min (off + want - cum) u
      let take := min (sliceTo - sliceFrom) (u - sliceFrom)
      if 2 ^ 64 ≤ off + want then none
      else if take = 0 then some (frames, buf, some written)
      else if decoded.length < sliceFrom + take ∨ buf.length < written + take then none
      else
        let buf := copyAt buf written ((decoded.drop sliceFrom).take take)
        let written := written + take
        if availTotal ≤ written then some (frames, buf, some written)
        else
          frameIntoLoop dropId codec off want availTotal us cs (i + 1) (body.drop c) (cum + u) buf
            written frames
  | _, _, _, _, _, buf, written, frames => some (frames, buf, some written)

/-- The footer of a drop, parsed once; 4096 of them are too many. -/
def cachedFooter (s : CachedSlabStore) (dropId : Digest) (raw : Bytes) :
    CachedSlabStore × Except CoreError SeekFooter :=
  match s.footers.lookup dropId with
  | some hit => (s, .ok hit)
  | none =>
    match parseFooter raw with
    | .error e => (s, .error e)
    | .ok parsed =>
      let footers := if 4096 ≤ s.footers.keys.length then ∅ else s.footers
      ({ s with footers := footers.insert dropId parsed }, .ok parsed)

def cachedFrameRange (s : CachedSlabStore) (dropId : Digest) (off len : Nat) : Answer Bytes :=
  match s.inner.rawWindow dropId with
  | none => some (s, none)
  | some (raw, record) =>
    match s.cachedFooter dropId raw with
    | (s, .error e) => some (s, some (.error e))
    | (s, .ok footer) =>
      let total := footer.totalUncomp
      if 2 ^ 64 ≤ off + len then none
      else if total < off ∨ total < off + len then
        some (s, some (.error (.corrupt
          s!"decoded_range [{off}, {off + len}) outside drop length {total}")))
      else
        let first := footer.frameContaining off
        (frameRangeLoop H z dropId record.representation.codec off len
          (footer.uncompLens.drop first) (footer.compLens.drop first) first
          (raw.drop (footer.compressedOffsetOf first)) (footer.uncompOffset first) s.frames).map
          fun (frames, out) => ({ s with frames }, out.map .ok)

def cachedFrameRangeInto (s : CachedSlabStore) (dropId : Digest) (off : Nat) (buf : Bytes) :
    Option (CachedSlabStore × Bytes × Option (Except CoreError Nat)) :=
  match s.inner.rawWindow dropId with
  | none => some (s, buf, none)
  | some (raw, record) =>
    match s.cachedFooter dropId raw with
    | (s, .error e) => some (s, buf, some (.error e))
    | (s, .ok footer) =>
      let total := footer.totalUncomp
      if total < off then
        if 2 ^ 64 ≤ off + buf.length then none
        else some (s, buf, some (.error (.corrupt
          s!"decoded_range_into [{off}, {off + buf.length}) outside drop length {total}")))
      else
        let first := footer.frameContaining off
        (frameIntoLoop H z dropId record.representation.codec off buf.length
          (min (total - off) buf.length) (footer.uncompLens.drop first)
          (footer.compLens.drop first) first (raw.drop (footer.compressedOffsetOf first))
          (footer.uncompOffset first) buf 0 s.frames).map
          fun (frames, buf, out) => ({ s with frames }, buf, out.map .ok)

/-! ### Windows -/

def decodedRange (s : CachedSlabStore) (dropId : Digest) (off len : Nat) : Answer Bytes :=
  let outside := s!"decoded_range [{off}, {off + len}) outside drop"
  match s.cache.get dropId with
  | (cache, some hit) => (sliceRange outside hit off len).map fun r => ({ s with cache }, some r)
  | (cache, none) =>
    if s.inner.dropIsSeekable dropId = some true then
      cachedFrameRange H z { s with cache } dropId off len
    else
      match decodedFetchInsert z { s with cache } dropId with
      | some (s, some (.ok full)) => (sliceRange outside full off len).map fun r => (s, some r)
      | other => other

/-- A window written into a buffer. -/
def decodedRangeInto (s : CachedSlabStore) (dropId : Digest) (off : Nat) (buf : Bytes) :
    Option (CachedSlabStore × Bytes × Option (Except CoreError Nat)) :=
  if buf = [] then some (s, buf, some (.ok 0))
  else
    match s.cache.get dropId with
    | (cache, some hit) =>
      let (buf, n) := copyFrom hit off buf
      some ({ s with cache }, buf, some (.ok n))
    | (cache, none) =>
      if s.inner.dropIsSeekable dropId = some true then
        cachedFrameRangeInto H z { s with cache } dropId off buf
      else
        match decodedFetchInsert z { s with cache } dropId with
        | none => none
        | some (s, none) => some (s, buf, none)
        | some (s, some (.error e)) => some (s, buf, some (.error e))
        | some (s, some (.ok full)) =>
          let (buf, n) := copyFrom full off buf
          some (s, buf, some (.ok n))

end CachedSlabStore

/-! ### What a cache keeps -/

/-- A cache in step and within its bounds, with values that are right for their keys. -/
structure SieveCache.Keeps (P : Digest → Bytes → Prop) (c : SieveCache) : Prop where
  valid : c.Valid
  fits : c.Fits
  values : ∀ key v, c.entries.lookup key = some v → P key v

namespace SieveCache

variable {P : Digest → Bytes → Prop} {c : SieveCache}

theorem keeps_new (entryCapacity byteBudget : Nat) : (new entryCapacity byteBudget).Keeps P :=
  ⟨valid_new _ _, fits_new _ _, fun _ _ h => by cases h⟩

theorem Keeps.get (h : c.Keeps P) (key : Digest) :
    (c.get key).1.Keeps P ∧ ∀ v, (c.get key).2 = some v → P key v := by
  refine ⟨⟨valid_get h.valid key, fits_get h.fits key, ?_⟩, ?_⟩
  · intro other v hv
    rw [get_entries] at hv
    exact h.values other v hv
  · intro v hv
    rw [get_value] at hv
    exact h.values key v hv

theorem Keeps.insert (h : c.Keeps P) {key : Digest} {value : Bytes} (hP : P key value) :
    ∃ c' kept, c.insert key value = some (c', kept) ∧ c'.Keeps P := by
  obtain ⟨c', hinsert, hvalid, hfits, htaken⟩ := insert_spec h.valid h.fits key value
  refine ⟨c', _, hinsert, hvalid, hfits, ?_⟩
  intro other v hv
  rcases htaken.values other v hv with ⟨rfl, rfl⟩ | hold
  · exact hP
  · exact h.values other v hold

end SieveCache

/-- The plaintext of a drop, as the store decodes it. -/
def StoredPlaintext (z : Omnizip) (store : SlabStore) (dropId : Digest) (p : Bytes) : Prop :=
  store.plaintextFor z dropId = some (.ok p)

/-- The bytes of a frame in its container. -/
def frameBytes (footer : SeekFooter) (raw : Bytes) (i c : Nat) : Bytes :=
  (raw.drop (footer.compressedOffsetOf i)).take c

/-- What the bytes of one frame of one drop decode to, under the frame's key. -/
def StoredFrame (H : Hash) (z : Omnizip) (store : SlabStore) (key : Digest) (plain : Bytes) : Prop :=
  ∃ dropId raw record footer i u c, store.locateWindow dropId = some (raw, record) ∧
    parseFooter raw = .ok footer ∧ footer.uncompLens[i]? = some u ∧
    footer.compLens[i]? = some c ∧ key = frameKey H dropId i ∧
    decompress z record.representation.codec (frameBytes footer raw i c) u = .ok plain

namespace CachedSlabStore

/-- Nothing in the caches is wrong. -/
structure Sound (H : Hash) (z : Omnizip) (store : SlabStore) (s : CachedSlabStore) : Prop where
  inner : s.inner = store
  cache : s.cache.Keeps (StoredPlaintext z store)
  frames : s.frames.Keeps (StoredFrame H z store)
  footers : ∀ dropId footer, s.footers.lookup dropId = some footer →
    ∃ raw record, store.locateWindow dropId = some (raw, record) ∧ parseFooter raw = .ok footer

variable {H : Hash} {z : Omnizip} {store : SlabStore} {s : CachedSlabStore}

theorem sound_withFrameBudget (H : Hash) (z : Omnizip) (store : SlabStore)
    (entryCapacity byteBudget frameByteBudget : Nat) :
    Sound H z store (withFrameBudget store entryCapacity byteBudget frameByteBudget) :=
  ⟨rfl, SieveCache.keeps_new _ _, SieveCache.keeps_new _ _, fun _ _ h => by cases h⟩

/-! ### Whole drops -/

theorem Sound.lookup (h : Sound H z store s) (dropId : Digest) :
    Sound H z store { s with cache := (s.cache.get dropId).1 } :=
  ⟨h.inner, (h.cache.get dropId).1, h.frames, h.footers⟩

/-- **A miss answers what the store answers.** -/
theorem Sound.decodedFetchInsert (h : Sound H z store s) (dropId : Digest) :
    ∃ s', s.decodedFetchInsert z dropId = some (s', store.plaintextFor z dropId) ∧
      Sound H z store s' := by
  unfold CachedSlabStore.decodedFetchInsert
  rw [h.inner]
  cases hplain : store.plaintextFor z dropId with
  | none => exact ⟨s, rfl, h⟩
  | some result =>
      cases result with
      | error e => exact ⟨s, rfl, h⟩
      | ok bytes =>
          obtain ⟨cache, kept, hinsert, hkeeps⟩ :
              ∃ cache kept, s.cache.insert dropId bytes = some (cache, kept) ∧ _ :=
            h.cache.insert hplain
          simp only
          rw [hinsert]
          exact ⟨_, rfl, rfl, hkeeps, h.frames, h.footers⟩

/-- **The cache is transparent to whole drops.** -/
theorem Sound.decoded (h : Sound H z store s) (dropId : Digest) :
    ∃ s', s.decoded z dropId = some (s', store.plaintextFor z dropId) ∧ Sound H z store s' := by
  have hsound := h.lookup dropId
  have hvalue := (h.cache.get dropId).2
  unfold CachedSlabStore.decoded
  generalize s.cache.get dropId = looked at hsound hvalue ⊢
  obtain ⟨cache, hit⟩ := looked
  cases hit with
  | none => exact hsound.decodedFetchInsert dropId
  | some hit =>
      have hplain : store.plaintextFor z dropId = some (.ok hit) := hvalue hit rfl
      rw [hplain]
      exact ⟨_, rfl, hsound⟩

/-! ### Footers -/

theorem Sound.cachedFooter (h : Sound H z store s) {dropId : Digest} {raw : Bytes}
    {record : DropRecord} (hwindow : store.locateWindow dropId = some (raw, record)) :
    Sound H z store (s.cachedFooter dropId raw).1 ∧
      (s.cachedFooter dropId raw).2 = parseFooter raw := by
  unfold CachedSlabStore.cachedFooter
  cases hlookup : s.footers.lookup dropId with
  | some hit =>
      obtain ⟨raw', record', hwindow', hparse⟩ := h.footers dropId hit hlookup
      rw [hwindow] at hwindow'
      cases hwindow'
      exact ⟨h, hparse.symm⟩
  | none =>
      cases hparse : parseFooter raw with
      | error e => exact ⟨h, rfl⟩
      | ok parsed =>
          refine ⟨⟨h.inner, h.cache, h.frames, ?_⟩, rfl⟩
          intro other footer hother
          simp only at hother
          by_cases heq : other = dropId
          · rw [heq, AList.lookup_insert] at hother
            cases hother
            rw [heq]
            exact ⟨raw, record, hwindow, hparse⟩
          · rw [AList.lookup_insert_ne heq] at hother
            split at hother
            · cases hother
            · exact h.footers other footer hother

/-! ### Frames -/

/-- The frames of a container from the `i`-th on. -/
structure FramesFrom (footer : SeekFooter) (raw : Bytes) (i : Nat) (us cs : List Nat)
    (body : Bytes) : Prop where
  us : us = footer.uncompLens.drop i
  cs : cs = footer.compLens.drop i
  body : body = raw.drop (footer.compressedOffsetOf i)

theorem FramesFrom.cons {footer : SeekFooter} {raw body : Bytes} {i u c : Nat} {us cs : List Nat}
    (h : FramesFrom footer raw i (u :: us) (c :: cs) body) :
    footer.uncompLens[i]? = some u ∧ footer.compLens[i]? = some c ∧
      body.take c = frameBytes footer raw i c ∧
      FramesFrom footer raw (i + 1) us cs (body.drop c) := by
  obtain ⟨hus, hcs, hbody⟩ := h
  have hu : footer.uncompLens[i]? = some u := by
    rw [← List.head?_drop, ← hus]
    rfl
  have hc : footer.compLens[i]? = some c := by
    rw [← List.head?_drop, ← hcs]
    rfl
  refine ⟨hu, hc, by rw [hbody, frameBytes], ?_, ?_, ?_⟩
  · rw [← List.tail_drop, ← hus]
    rfl
  · rw [← List.tail_drop, ← hcs]
    rfl
  · rw [hbody, List.drop_drop]
    congr 1
    unfold SeekFooter.compressedOffsetOf
    rw [List.take_add_one, hc, List.sum_append]
    simp

/-- A seekable drop with its footer. -/
structure Container (store : SlabStore) (dropId : Digest) (raw : Bytes) (record : DropRecord)
    (footer : SeekFooter) : Prop where
  window : store.locateWindow dropId = some (raw, record)
  footer : parseFooter raw = .ok footer

/-- **A frame from the cache or from its bytes**: nothing wrong enters the cache, and a frame is
missing only where its bytes do not decode. -/
theorem cachedFrame_spec {dropId : Digest} {raw body : Bytes} {record : DropRecord}
    {footer : SeekFooter} (hcontainer : Container store dropId raw record footer) {i u c : Nat}
    {us cs : List Nat} (hfrom : FramesFrom footer raw i (u :: us) (c :: cs) body)
    {frames : SieveCache} (hframes : frames.Keeps (StoredFrame H z store)) :
    ∃ frames' out, cachedFrame z record.representation.codec (frameKey H dropId i) (body.take c) u
        frames = some (frames', out) ∧ frames'.Keeps (StoredFrame H z store) ∧
      (out = none → ∃ e, decompress z record.representation.codec (frameBytes footer raw i c) u
        = .error e) ∧
      ∀ plain, out = some plain → StoredFrame H z store (frameKey H dropId i) plain := by
  obtain ⟨hu, hc, hbytes, -⟩ := hfrom.cons
  obtain ⟨hlooked, hhit⟩ := hframes.get (frameKey H dropId i)
  unfold cachedFrame
  generalize frames.get (frameKey H dropId i) = looked at hlooked hhit ⊢
  obtain ⟨frames', hit⟩ := looked
  rw [hbytes]
  cases hit with
  | some hit => exact ⟨frames', some hit, rfl, hlooked, fun h => (by cases h), hhit⟩
  | none =>
      simp only
      cases hdecode : decompress z record.representation.codec (frameBytes footer raw i c) u with
      | error e => exact ⟨frames', none, rfl, hlooked, fun _ => ⟨e, rfl⟩, fun _ h => by cases h⟩
      | ok plain =>
          have hframe : StoredFrame H z store (frameKey H dropId i) plain :=
            ⟨dropId, raw, record, footer, i, u, c, hcontainer.window, hcontainer.footer, hu, hc, rfl,
              hdecode⟩
          obtain ⟨frames'', kept, hinsert, hkeeps⟩ := hlooked.insert hframe
          simp only
          rw [hinsert]
          refine ⟨frames'', some plain, rfl, hkeeps, fun h => (by cases h), ?_⟩
          intro plain' h
          cases h
          exact hframe

end CachedSlabStore

end LimniFS
