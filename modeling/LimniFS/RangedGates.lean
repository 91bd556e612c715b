/-
The length of a file, and the gates in front of its drops.

The parser checks that slices follow one another in the file.  How much of its drop a slice takes is
checked nowhere: a range that ends behind the drop is cut to it, and a range that is longer or shorter
than the slice is taken as it is.  The bytes that follow then stand somewhere else.  `file_length_iff`
says when each slice stands where it says, and that the length is then the one the inode has.

A drop may be refused before any of it is decoded: because of its AEAD id, because of its window
index, because it is a container with a dictionary, or because its container is not as long as the
record says.  The full read of a view asks all four, and the store's asks the first two of records
that are no containers.  The windows of a container ask nothing but where it lies and what its
footer says.  `ranged_gates_iff` says which drops that leaves.
-/
import LimniFS.MissingDrops
import LimniFS.ReadWindow
import LimniFS.SlabReader

namespace LimniFS

open Lib Lib.Parser

variable {store : SlabSource}

/-! ### Slices one behind the other -/

/-- Where the last of the slices ends. -/
def endOfSlices (start : Nat) (slices : List SliceRef) : Nat :=
  slices.getLast?.elim start SliceRef.fileByteEnd

theorem endOfSlices_cons (start : Nat) (slice : SliceRef) (rest : List SliceRef) :
    endOfSlices start (slice :: rest) = endOfSlices slice.fileByteEnd rest := by
  cases rest with
  | nil => rfl
  | cons next rest =>
      have hlast := List.getLast?_eq_some_getLast (List.cons_ne_nil next rest)
      rw [endOfSlices, endOfSlices, List.getLast?_cons_cons, hlast, Option.elim_some, Option.elim_some]

/-- The bytes of the slices, each from its own place in its drop. -/
def windowsOf (store : SlabSource) (slices : List SliceRef) : Bytes :=
  (slices.map fun s => s.window (plainOf store s)).flatten

/-- **Slices that supply what they cover stand where they say**, and end where the last one does. -/
theorem windowsOf_placed : ∀ (slices : List SliceRef) (index start : Nat),
    sliceMapGap index start slices = none →
    (∀ s ∈ slices, (s.window (plainOf store s)).length = s.span) →
    start + (windowsOf store slices).length = endOfSlices start slices ∧
      ∀ s ∈ slices, start ≤ s.fileByteStart ∧
        ((windowsOf store slices).drop (s.fileByteStart - start)).take s.span
          = s.window (plainOf store s) := by
  intro slices
  induction slices with
  | nil =>
      intro index start _ _
      exact ⟨rfl, fun _ hin => absurd hin List.not_mem_nil⟩
  | cons slice rest ih =>
      intro index start hgap hlen
      obtain ⟨rfl, hnext⟩ := sliceMapGap_cons hgap
      obtain ⟨hslice, hrest⟩ := List.forall_mem_cons.mp hlen
      obtain ⟨hend, hplaced⟩ := ih (index + 1) slice.fileByteEnd hnext hrest
      have hlt := slice.start_lt_end
      have hspan : slice.span = slice.fileByteEnd - slice.fileByteStart := rfl
      have hcons : windowsOf store (slice :: rest)
          = slice.window (plainOf store slice) ++ windowsOf store rest := rfl
      refine ⟨?_, List.forall_mem_cons.mpr ⟨⟨Nat.le_refl _, ?_⟩, ?_⟩⟩
      · rw [hcons, List.length_append, hslice, endOfSlices_cons, ← hend]
        omega
      · rw [Nat.sub_self, List.drop_zero, hcons, List.take_left' hslice]
      · intro s hs
        obtain ⟨hstart, hwindow⟩ := hplaced s hs
        refine ⟨by omega, ?_⟩
        have hskip : s.fileByteStart - slice.fileByteStart
            = (slice.window (plainOf store slice)).length + (s.fileByteStart - slice.fileByteEnd) := by
          omega
        rw [hcons, hskip, List.drop_length_add_append, hwindow]

theorem fileLen_slices {inode : Inode} {map : SliceMap} (h : inode.contentHandle = .sliceMap map) :
    inode.fileLen = endOfSlices 0 map.slices := by
  have hgap := map.contiguous
  unfold Inode.fileLen endOfSlices
  rw [h]
  simp only
  cases hslices : map.slices with
  | nil => rfl
  | cons first rest =>
      rw [hslices] at hgap
      obtain ⟨hfirst, -⟩ := sliceMapGap_cons hgap
      have hlast := List.getLast?_eq_some_getLast (List.cons_ne_nil first rest)
      simp only [hlast, List.head?_cons, Option.elim_some, hfirst, Nat.sub_zero]

/-! ### What a slice takes of its drop -/

theorem window_length (slice : SliceRef) (plaintext : Bytes) :
    (slice.window plaintext).length
      = min slice.dropByteLen (plaintext.length - slice.dropByteStart) := by
  rw [SliceRef.window, List.length_take, List.length_drop, SliceRef.dropByteEnd]
  omega

/-- If the drop can be read and the range starts in it, the range supplies as many bytes as the slice
covers. -/
def SliceRef.Supplies (store : SlabSource) (slice : SliceRef) : Prop :=
  ∀ plaintext, store slice.dropId = some (.ok plaintext) → slice.dropByteStart ≤ plaintext.length →
    min slice.dropByteLen (plaintext.length - slice.dropByteStart)
      = slice.fileByteEnd - slice.fileByteStart

theorem decodeSlice_of_start {slice : SliceRef} {plaintext : Bytes}
    (h : store slice.dropId = some (.ok plaintext)) (hstart : slice.dropByteStart ≤ plaintext.length) :
    decodeSlice store slice = .ok (slice.window plaintext) := by
  unfold decodeSlice
  rw [h]
  simp only
  rw [if_neg (Nat.not_lt.mpr hstart)]

theorem decodeSlice_start {slice : SliceRef} {chunk : Bytes} (h : decodeSlice store slice = .ok chunk) :
    ∃ plaintext, store slice.dropId = some (.ok plaintext) ∧
      slice.dropByteStart ≤ plaintext.length ∧ chunk = slice.window plaintext := by
  obtain ⟨plaintext, hdrop, rfl⟩ := decodeSlice_ok h
  refine ⟨plaintext, hdrop, ?_, rfl⟩
  by_contra hshort
  unfold decodeSlice at h
  rw [hdrop] at h
  simp only at h
  rw [if_pos (Nat.lt_of_not_le hshort)] at h
  cases h

/-- **A slice never gives another number of bytes than it covers** exactly if its range supplies
them. -/
theorem supplies_iff {slice : SliceRef} :
    slice.Supplies store ↔ ∀ chunk, decodeSlice store slice = .ok chunk → chunk.length = slice.span := by
  constructor
  · intro h chunk hchunk
    obtain ⟨plaintext, hdrop, hstart, rfl⟩ := decodeSlice_start hchunk
    rw [window_length, h plaintext hdrop hstart]
    rfl
  · intro h plaintext hdrop hstart
    rw [← window_length]
    exact h _ (decodeSlice_of_start hdrop hstart)

/-! ### Files -/

/-- The file has the inode's length, and each slice's bytes stand where the slice says. -/
structure InPlace (store : SlabSource) (inode : Inode) (p : Bytes) : Prop where
  length : p.length = inode.fileLen
  slices : ∀ s ∈ inode.slices,
    (p.drop s.fileByteStart).take s.span = s.window (plainOf store s)

/-- What is read, at once or chunk by chunk, is in place, and a slice that does not supply what it
covers is an error. -/
structure LengthsKept (store : SlabSource) (inode : Inode) : Prop where
  plaintext : ∀ p, filePlaintext inode (some store) = .ok p → InPlace store inode p
  chunks : ∀ parts : List Bytes, fileChunks inode (some store) = parts.map .ok →
    InPlace store inode parts.flatten
  slices : ∀ s ∈ inode.slices, ∀ chunk, decodeSlice store s = .ok chunk →
    chunk.length = s.fileByteEnd - s.fileByteStart

theorem filePlaintext_of_chunks {inode : Inode} {map : SliceMap}
    (h : inode.contentHandle = .sliceMap map) {parts : List Bytes}
    (hparts : fileChunks inode (some store) = parts.map .ok) :
    filePlaintext inode (some store) = .ok parts.flatten := by
  unfold fileChunks at hparts
  unfold filePlaintext
  rw [h] at hparts ⊢
  simp only at hparts ⊢
  have hchunks : map.slices.map (decodeSlice store) = parts.map .ok := by
    split at hparts
    · next hnil =>
        rw [hnil]
        exact hparts
    · next hnone => cases hnone
    · next hsome _ =>
        cases hsome
        exact hparts
  rw [hchunks, concatChunks_map_ok]

/-- **A file in slices is read at its length and in its place** exactly if every range that can be
read supplies as many bytes as its slice covers. -/
theorem file_length_iff {inode : Inode} {map : SliceMap} (hmap : inode.contentHandle = .sliceMap map) :
    LengthsKept store inode ↔ ∀ s ∈ inode.slices, s.Supplies store := by
  have hslices : inode.slices = map.slices := by rw [Inode.slices, hmap]
  constructor
  · intro h s hs
    exact supplies_iff.mpr (h.slices s hs)
  · intro hsupplies
    have hplain : ∀ p, filePlaintext inode (some store) = .ok p → InPlace store inode p := by
      intro p hp
      unfold filePlaintext at hp
      rw [hmap] at hp
      obtain ⟨parts, hparts, -⟩ := concatChunks_ok hp
      obtain ⟨hreadable, rfl⟩ := filePlaintext_slices hp
      have hlen : ∀ s ∈ map.slices, (s.window (plainOf store s)).length = s.span := by
        intro s hs
        obtain ⟨chunk, -, hchunk⟩ := List.mem_map.mp (hparts ▸ List.mem_map_of_mem hs)
        obtain ⟨plaintext, hdrop, -, rfl⟩ := decodeSlice_start hchunk.symm
        rw [plainOf_eq hdrop]
        exact supplies_iff.mp (hsupplies s (hslices ▸ hs)) _ hchunk.symm
      obtain ⟨hend, hplaced⟩ := windowsOf_placed map.slices 0 0 map.contiguous hlen
      refine ⟨?_, fun s hs => ?_⟩
      · rw [fileLen_slices hmap, ← hend, Nat.zero_add]
        rfl
      · exact (hplaced s (hslices ▸ hs)).2
    refine ⟨hplain, fun parts hparts => hplain _ (filePlaintext_of_chunks hmap hparts), ?_⟩
    intro s hs
    exact supplies_iff.mp (hsupplies s hs)

open LimniFS.Stored

/-- The first four bytes of a drop of eight. -/
theorem file_length_iff_head :
    LengthsKept windowStore (windowFile 0) ↔
      ∀ s ∈ (windowFile 0).slices, s.Supplies windowStore :=
  file_length_iff rfl

/-- **A slice of four bytes whose range has two left** in its drop is read as two. -/
theorem short_range_truncates :
    parseInodeWithCeiling defaultInlineDataMaxBytes (windowFileBytes 6)
        = (.ok (windowFile 6), []) ∧
      filePlaintext (windowFile 6) (some windowStore) = .ok (ascii "il") ∧
      (windowFile 6).fileLen = 4 ∧ ¬ LengthsKept windowStore (windowFile 6) := by
  have hshort : filePlaintext (windowFile 6) (some windowStore) = .ok (ascii "il") := by
    decide +kernel
  refine ⟨by decide +kernel, hshort, by decide, fun h => ?_⟩
  exact absurd (h.plaintext _ hshort).length (by decide)

/-! ### Windows of a view -/

/-- The payload is a container of frames. -/
abbrev DropRecord.Seekable (record : DropRecord) : Prop := record.flags &&& dropFlagSeekable ≠ 0

section

variable (z : Omnizip)

/-- The outer `none` is a panic. -/
def SlabView.plaintextRange (view : SlabView) (dropId : Digest) (off len : Nat) :
    Option (Option (Except CoreError Bytes)) :=
  match view.findRecord dropId with
  | none => some none
  | some record =>
    if record.flags &&& dropFlagSeekable ≠ 0 then
      match view.dropWindowBounds record with
      | .error e => some (some (.error e))
      | .ok (start, stop) =>
        (decodeSeekableRange z record.representation.codec
          ((view.bytes.drop start).take (stop - start)) off len).map some
    else
      match view.plaintextFor z dropId with
      | none => some none
      | some (.error e) => some (some (.error e))
      | some (.ok full) =>
        (sliceRange s!"drop range [{off}, {off + len}) outside plaintext" full off len).map some

end

/-! ### The gates -/

/-- A container that the full read does not take the frames of. -/
def ContainerRefused (record : DropRecord) (raw : Bytes) : Prop :=
  record.dictId ≠ noDict ∨
    ∃ footer, parseFooter raw = .ok footer ∧ footer.totalUncomp ≠ record.plaintextLen

/-- The gates of a view refuse the record. -/
def SlabView.GateRefuses (view : SlabView) (record : DropRecord) : Prop :=
  record.representation.aead ≠ 0 ∨ record.solidWindowIndex ≠ 0 ∨
    record.Seekable ∧ ∃ raw, view.window record = some raw ∧ ContainerRefused record raw

/-- The gates of a store refuse the record: those of a container are two. -/
def StoreGateRefuses (record : DropRecord) (raw : Bytes) : Prop :=
  record.Seekable ∧ ContainerRefused record raw ∨
    ¬ record.Seekable ∧ (record.representation.aead ≠ 0 ∨ record.solidWindowIndex ≠ 0)

/-- The window of a container with a footer is one that the full read of a view lets through. -/
def SlabView.RangeGated (view : SlabView) (record : DropRecord) : Prop :=
  record.Seekable → ∀ raw footer, view.window record = some raw → parseFooter raw = .ok footer →
    record.representation.aead = 0 ∧ record.solidWindowIndex = 0 ∧ record.dictId = noDict ∧
      footer.totalUncomp = record.plaintextLen

/-- The same of a store. -/
def StoreRangeGated (record : DropRecord) (raw : Bytes) : Prop :=
  record.Seekable → ∀ footer, parseFooter raw = .ok footer →
    record.dictId = noDict ∧ footer.totalUncomp = record.plaintextLen

/-- The call answers with an error. -/
def Rejects (answer : Option (Option (Except CoreError Bytes))) : Prop :=
  ∃ e, answer = some (some (.error e))

/-! ### What the full reads refuse -/

section

variable {z : Omnizip} {view : SlabView} {record : DropRecord} {dropId : Digest} {raw : Bytes}

theorem decodeSeekable_of_refused (hdict : record.dictId = noDict) (h : ContainerRefused record raw) :
    ∃ e, decodeSeekable z record.representation.codec raw record.plaintextLen = .error e := by
  rcases h with hne | ⟨footer, hfooter, hlen⟩
  · exact absurd hdict hne
  · unfold decodeSeekable
    rw [hfooter]
    simp only
    rw [if_pos hlen]
    exact ⟨_, rfl⟩

theorem SlabView.dropWindowBounds_window :
    (∃ e, view.dropWindowBounds record = .error e ∧ view.window record = none) ∨
    ∃ start stop, view.dropWindowBounds record = .ok (start, stop) ∧
      view.window record = some ((view.bytes.drop start).take (stop - start)) := by
  unfold SlabView.dropWindowBounds SlabView.window
  simp only
  by_cases h : view.bytes.length < view.solidWindowStart + record.offsetInWindow + record.lenInWindow
  · rw [if_pos h, if_pos h]
    exact .inl ⟨_, rfl, rfl⟩
  · rw [if_neg h, if_neg h]
    refine .inr ⟨_, _, rfl, ?_⟩
    rw [Nat.add_sub_cancel_left]

theorem SlabView.GateRefuses.plaintextFor (h : view.GateRefuses record)
    (hfind : view.findRecord dropId = some record) :
    ∃ e, view.plaintextFor z dropId = some (.error e) := by
  unfold SlabView.plaintextFor SlabView.plaintextForWithDictLookup
  rw [hfind]
  simp only
  rcases hcheck : checkDropReadable record with e | ⟨⟩
  · exact ⟨e, rfl⟩
  · unfold checkDropReadable at hcheck
    split_ifs at hcheck with haead hindex
    rcases h with hne | hne | ⟨hseek, raw, hraw, hrefused⟩
    · exact absurd hne haead
    · exact absurd hne hindex
    · unfold SlabView.window at hraw
      simp only at hraw ⊢
      split_ifs at hraw ⊢
      cases hraw
      unfold decodeDropBytes
      rw [if_pos hseek]
      by_cases hdict : record.dictId = noDict
      · rw [if_neg (by rw [hdict]; exact fun hne => hne rfl)]
        obtain ⟨e, he⟩ := decodeSeekable_of_refused (z := z) hdict hrefused
        exact ⟨e, by rw [he]⟩
      · rw [if_pos hdict]
        exact ⟨_, rfl⟩

theorem StoreGateRefuses.decodeDrop (h : StoreGateRefuses record raw) (table : DictTable) :
    ∃ e, decodeDrop z record raw table = .error e := by
  unfold LimniFS.decodeDrop
  rcases h with ⟨hseek, hrefused⟩ | ⟨hplain, hgate⟩
  · rw [if_pos hseek]
    by_cases hdict : record.dictId = noDict
    · rw [if_neg (by rw [hdict]; exact fun hne => hne rfl)]
      exact decodeSeekable_of_refused hdict hrefused
    · rw [if_pos hdict]
      exact ⟨_, rfl⟩
  · rw [if_neg hplain]
    by_cases haead : record.representation.aead = 0
    · rw [if_neg (fun hne => hne haead), if_pos (hgate.resolve_left fun hne => hne haead)]
      exact ⟨_, rfl⟩
    · rw [if_pos haead]
      exact ⟨_, rfl⟩

/-! ### The window behind the last byte -/

theorem decodeSeekableRange_end {codec : UInt8} {footer : SeekFooter}
    (hfooter : parseFooter raw = .ok footer) (hraw : raw.length ≤ defaultSlabMaxBytes) :
    decodeSeekableRange z codec raw footer.totalUncomp 0 = some (.ok []) := by
  have hlt := CachedSlabStore.totalUncomp_lt hfooter hraw
  unfold decodeSeekableRange
  rw [hfooter]
  simp only
  rw [if_neg (by omega), if_neg (by omega), footer.frameContaining_past (Nat.le_refl _),
    List.drop_length]
  rfl

theorem decodeSeekableRange_error {codec : UInt8} {e : CoreError} (h : parseFooter raw = .error e)
    (off len : Nat) : decodeSeekableRange z codec raw off len = some (.error e) := by
  unfold decodeSeekableRange
  rw [h]

/-! ### Views -/

theorem SlabView.window_length_le {bytes : Bytes} (hview : parseSlab bytes = .ok view)
    (h : view.window record = some raw) : raw.length ≤ defaultSlabMaxBytes := by
  obtain ⟨rfl, -, -, -, hceil⟩ := parseSlab_ok hview
  unfold SlabView.window at h
  simp only at h
  split_ifs at h
  cases h
  rw [List.length_take, List.length_drop]
  omega

/-- What the windows of a view answer for a container. -/
theorem SlabView.plaintextRange_seekable (hfind : view.findRecord dropId = some record)
    (hseek : record.Seekable) (off len : Nat) :
    (view.window record = none ∧ Rejects (view.plaintextRange z dropId off len)) ∨
    ∃ raw, view.window record = some raw ∧ view.plaintextRange z dropId off len
      = (decodeSeekableRange z record.representation.codec raw off len).map some := by
  unfold SlabView.plaintextRange
  rw [hfind]
  simp only
  rw [if_pos hseek]
  rcases @SlabView.dropWindowBounds_window view record with ⟨e, hbounds, hnone⟩ |
    ⟨start, stop, hbounds, hraw⟩
  · rw [hbounds]
    exact .inl ⟨hnone, e, rfl⟩
  · rw [hbounds]
    exact .inr ⟨_, hraw, rfl⟩

theorem SlabView.rejects_iff {bytes : Bytes} (hview : parseSlab bytes = .ok view)
    (hfind : view.findRecord dropId = some record) :
    (view.GateRefuses record → ∀ off len, Rejects (view.plaintextRange z dropId off len)) ↔
      view.RangeGated record := by
  constructor
  · intro h hseek raw footer hraw hfooter
    by_contra hgates
    have hrefuses : view.GateRefuses record := by
      by_cases haead : record.representation.aead = 0
      · by_cases hindex : record.solidWindowIndex = 0
        · refine .inr (.inr ⟨hseek, raw, hraw, ?_⟩)
          by_cases hdict : record.dictId = noDict
          · exact .inr ⟨footer, hfooter, fun hlen => hgates ⟨haead, hindex, hdict, hlen⟩⟩
          · exact .inl hdict
        · exact .inr (.inl hindex)
      · exact .inl haead
    obtain ⟨e, he⟩ := h hrefuses footer.totalUncomp 0
    rcases view.plaintextRange_seekable (z := z) hfind hseek footer.totalUncomp 0 with ⟨hnone, -⟩ |
      ⟨raw', hraw', hrange⟩
    · rw [hnone] at hraw
      cases hraw
    · obtain rfl := Option.some.inj (hraw.symm.trans hraw')
      rw [hrange, decodeSeekableRange_end hfooter (SlabView.window_length_le hview hraw)] at he
      cases he
  · intro hgated hrefuses off len
    by_cases hseek : record.Seekable
    · rcases view.plaintextRange_seekable (z := z) hfind hseek off len with ⟨-, hrejects⟩ |
        ⟨raw, hraw, hrange⟩
      · exact hrejects
      · rw [hrange]
        rcases hfooter : parseFooter raw with e | footer
        · rw [decodeSeekableRange_error hfooter]
          exact ⟨e, rfl⟩
        · obtain ⟨haead, hindex, hdict, hlen⟩ := hgated hseek raw footer hraw hfooter
          exfalso
          rcases hrefuses with hne | hne | ⟨-, raw', hraw', hne | ⟨footer', hfooter', hne⟩⟩
          · exact hne haead
          · exact hne hindex
          · exact hne hdict
          · obtain rfl := Option.some.inj (hraw.symm.trans hraw')
            obtain rfl := Except.ok.inj (hfooter.symm.trans hfooter')
            exact hne hlen
    · obtain ⟨e, he⟩ := hrefuses.plaintextFor (z := z) hfind
      unfold SlabView.plaintextRange
      rw [hfind]
      simp only
      rw [if_neg hseek, he]
      exact ⟨e, rfl⟩

/-! ### Stores -/

variable {store : SlabStore}

theorem SlabStore.rejects_iff (hloaded : ∀ view ∈ store.slabs, parseSlab view.bytes = .ok view)
    (hwindow : store.locateWindow dropId = some (raw, record)) :
    (StoreGateRefuses record raw → ∀ off len, Rejects (store.plaintextRange z dropId off len)) ↔
      StoreRangeGated record raw := by
  have hrange : record.Seekable → ∀ off len, store.plaintextRange z dropId off len
      = (decodeSeekableRange z record.representation.codec raw off len).map some := by
    intro hseek off len
    unfold SlabStore.plaintextRange
    rw [hwindow]
    simp only
    rw [if_pos hseek]
  constructor
  · intro h hseek footer hfooter
    by_contra hgates
    have hrefuses : StoreGateRefuses record raw := by
      refine .inl ⟨hseek, ?_⟩
      by_cases hdict : record.dictId = noDict
      · exact .inr ⟨footer, hfooter, fun hlen => hgates ⟨hdict, hlen⟩⟩
      · exact .inl hdict
    obtain ⟨e, he⟩ := h hrefuses footer.totalUncomp 0
    rw [hrange hseek, decodeSeekableRange_end hfooter (SlabStore.window_length_le hloaded hwindow)] at he
    cases he
  · intro hgated hrefuses off len
    by_cases hseek : record.Seekable
    · rw [hrange hseek]
      rcases hfooter : parseFooter raw with e | footer
      · rw [decodeSeekableRange_error hfooter]
        exact ⟨e, rfl⟩
      · obtain ⟨hdict, hlen⟩ := hgated hseek footer hfooter
        exfalso
        rcases hrefuses with ⟨-, hne | ⟨footer', hfooter', hne⟩⟩ | ⟨hplain, -⟩
        · exact hne hdict
        · obtain rfl := Except.ok.inj (hfooter.symm.trans hfooter')
          exact hne hlen
        · exact hplain hseek
    · obtain ⟨e, he⟩ := hrefuses.decodeDrop (z := z) store.dictionaries
      unfold SlabStore.plaintextRange
      rw [hwindow]
      simp only
      rw [if_neg hseek, he]
      exact ⟨e, rfl⟩

end

/-- **A drop that a gate refuses has no window that is answered, exactly where the drop is no
container, or its footer is not read, or it passes every gate.** -/
theorem ranged_gates_iff (z : Omnizip) :
    (∀ bytes view, parseSlab bytes = .ok view → ∀ dropId record,
      view.findRecord dropId = some record →
      (view.GateRefuses record → ∃ e, view.plaintextFor z dropId = some (.error e)) ∧
      ((view.GateRefuses record → ∀ off len, Rejects (view.plaintextRange z dropId off len)) ↔
        view.RangeGated record)) ∧
    (∀ store : SlabStore, (∀ view ∈ store.slabs, parseSlab view.bytes = .ok view) →
      ∀ dropId raw record, store.locateWindow dropId = some (raw, record) →
      (StoreGateRefuses record raw → ∃ e, store.plaintextFor z dropId = some (.error e)) ∧
      ((StoreGateRefuses record raw → ∀ off len, Rejects (store.plaintextRange z dropId off len)) ↔
        StoreRangeGated record raw)) := by
  refine ⟨fun bytes view hview dropId record hfind => ?_, fun store hloaded dropId raw record hwindow => ?_⟩
  · exact ⟨fun hrefuses => hrefuses.plaintextFor hfind, SlabView.rejects_iff hview hfind⟩
  · refine ⟨fun hrefuses => ?_, SlabStore.rejects_iff hloaded hwindow⟩
    obtain ⟨e, he⟩ := hrefuses.decodeDrop (z := z) store.dictionaries
    exact ⟨e, by rw [(SlabStore.answers_of_window hwindow).1, he]⟩

namespace Stored

/-- A container of three bytes whose record names dictionary 0. -/
def gatedRecord : DropRecord :=
  ⟨digest (ascii "gated"), 3, ⟨codecStore, 0, 0⟩, 0, 0, oneFrame.length, 0, dropFlagSeekable⟩

def gatedSlab : Bytes := slabBytes frameHeader [gatedRecord] oneFrame

def gatedView : SlabView := ⟨gatedSlab, frameHeader, [gatedRecord], 106⟩

end Stored

/-- **Both readers refuse the drop, and both answer a window of it.** -/
theorem refused_drop_is_read :
    parseSlab gatedSlab = .ok gatedView ∧
      ((gatedView.plaintextFor omnizip gatedRecord.dropId).map Except.toOption)
        = some none ∧
      gatedView.plaintextRange omnizip gatedRecord.dropId 0 3
        = some (some (.ok [1, 2, 3])) ∧
      (((SlabStore.mk [gatedView] fun _ => none).plaintextFor omnizip
        gatedRecord.dropId).map Except.toOption) = some none ∧
      (SlabStore.mk [gatedView] fun _ => none).plaintextRange omnizip
        gatedRecord.dropId 0 3 = some (some (.ok [1, 2, 3])) := by
  refine ⟨?_, ?_, ?_, ?_, ?_⟩
  · exact parseSlab_slabBytes ⟨by decide, by decide, by decide, by decide, by decide⟩
      (fun r hr => by
        rw [List.mem_singleton.mp hr]
        exact ⟨by decide, Or.inr rfl, Or.inr rfl, by decide +kernel⟩) rfl rfl
  · decide +kernel
  · decide +kernel
  · decide +kernel
  · decide +kernel

end LimniFS
