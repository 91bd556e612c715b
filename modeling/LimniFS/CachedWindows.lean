/-
What a window of a decodable drop is, whatever is cached.

`cache_is_transparent`: after any run of calls, a drop that the store decodes is answered with
its plaintext, and its windows with the windows of the plaintext.

The window that is written into a buffer also stands for the trait's default, which decodes the
whole drop and copies.  The two part where the window starts behind the end of a seekable drop
that is not resident: there the footer's length is a bound that is checked, and the default
copies nothing (`decodedRangeInto_refines_iff`).
-/
import LimniFS.CachedReads

namespace LimniFS

open Lib

/-- The codecs of the seekable drops of a store decode to as many bytes as was asked for. -/
def SlabStore.ExactContainers (z : Omnizip) (store : SlabStore) : Prop :=
  ∀ entry ∈ store.entries, entry.2.flags &&& dropFlagSeekable ≠ 0 →
    ∀ c n p, decompress z entry.2.representation.codec c n = .ok p → p.length = n

theorem sliceRange_inside {full : Bytes} {off len : Nat} (h : off + len ≤ full.length)
    (hfit : full.length < 2 ^ 64) (text : String) :
    sliceRange text full off len = some (.ok ((full.drop off).take len)) := by
  unfold sliceRange
  rw [if_neg (by omega), if_neg (by omega)]

namespace SlabStore

variable {z : Omnizip} {store : SlabStore} {dropId : Digest} {p : Bytes}

theorem plaintextFor_ok (h : store.plaintextFor z dropId = some (.ok p)) :
    ∃ raw record, store.locateWindow dropId = some (raw, record) ∧
      decodeDrop z record raw store.dictionaries = .ok p := by
  unfold plaintextFor at h
  obtain ⟨⟨raw, record⟩, hwindow, hdecode⟩ := Option.map_eq_some_iff.mp h
  exact ⟨raw, record, hwindow, hdecode⟩

theorem dropIsSeekable_eq {raw : Bytes} {record : DropRecord}
    (h : store.locateWindow dropId = some (raw, record)) :
    store.dropIsSeekable dropId = some (decide (record.flags &&& dropFlagSeekable ≠ 0)) := by
  unfold dropIsSeekable
  rw [h]
  rfl

/-- The frames of a seekable drop that decodes. -/
theorem container_of_seekable (hseek : store.dropIsSeekable dropId = some true)
    (h : store.plaintextFor z dropId = some (.ok p)) :
    ∃ raw record footer plains, CachedSlabStore.Container store dropId raw record footer ∧
      footer.totalUncomp = record.plaintextLen ∧
      FramesDecode z record.representation.codec footer.uncompLens footer.compLens raw plains ∧
      p = plains.flatten ∧ (store.ExactContainers z →
        plains.map List.length = footer.uncompLens) := by
  obtain ⟨raw, record, hwindow, hdecode⟩ := plaintextFor_ok h
  rw [dropIsSeekable_eq hwindow] at hseek
  have hflag : record.flags &&& dropFlagSeekable ≠ 0 := by simpa using hseek
  unfold decodeDrop at hdecode
  rw [if_pos hflag] at hdecode
  split at hdecode
  · cases hdecode
  · obtain ⟨footer, plains, hfooter, htotal, hframes, hp⟩ := framesDecode_of_decodeSeekable hdecode
    refine ⟨raw, record, footer, plains, ⟨hwindow, hfooter⟩, htotal, hframes, hp, ?_⟩
    intro hexact
    obtain ⟨slab, hfind, -⟩ := locateWindow_some hwindow
    exact hframes.lengths (hexact (slab, record)
      (List.mem_reverse.mp (List.mem_of_find?_eq_some hfind)) hflag)

end SlabStore

namespace CachedSlabStore

variable {H : Hash} {z : Omnizip} {store : SlabStore} {dropId : Digest} {s : CachedSlabStore}
  {p : Bytes}

/-! ### Transparency -/

/-- A window of a decodable drop. -/
theorem Sound.decodedRange_window (h : Sound H z store s) (hcol : NoCollision H store.frameNames)
    (hexact : store.ExactContainers z) (hplain : store.plaintextFor z dropId = some (.ok p))
    {off len : Nat} (hend : off + len ≤ p.length) (hfit : p.length < 2 ^ 64) :
    ∃ s', s.decodedRange H z dropId off len = some (s', some (.ok ((p.drop off).take len))) := by
  have hlooked := h.lookup dropId
  have hvalue := (h.cache.get dropId).2
  unfold CachedSlabStore.decodedRange
  simp only
  generalize s.cache.get dropId = looked at hlooked hvalue ⊢
  obtain ⟨cache, hit⟩ := looked
  cases hit with
  | some hit =>
      have hsame : store.plaintextFor z dropId = some (.ok hit) := hvalue hit rfl
      rw [hplain] at hsame
      cases hsame
      simp only
      rw [sliceRange_inside hend hfit]
      exact ⟨_, rfl⟩
  | none =>
      simp only [h.inner]
      by_cases hseek : store.dropIsSeekable dropId = some true
      · obtain ⟨raw, record, footer, plains, hcontainer, htotal, hframes, rfl, hlens⟩ :=
          SlabStore.container_of_seekable hseek hplain
        have haligned : Aligned footer.uncompLens plains := by
          rw [← hlens hexact]
          exact aligned_lengths plains
        rw [if_pos hseek]
        rw [← h.inner]
        exact hlooked.cachedFrameRange_ok hcol hcontainer
          (decodeSeekableRange_aligned hcontainer.footer hframes haligned hend hfit)
      · obtain ⟨mid, hfetch, -⟩ := hlooked.decodedFetchInsert dropId
        rw [h.inner, hplain] at hfetch
        rw [if_neg hseek, hfetch]
        simp only
        rw [sliceRange_inside hend hfit]
        exact ⟨_, rfl⟩

/-- Where no frames are read, the buffer is filled from the whole plaintext. -/
theorem Sound.decodedRangeInto_whole (h : Sound H z store s)
    (hplain : store.plaintextFor z dropId = some (.ok p))
    (hwhole : store.dropIsSeekable dropId = some false ∨ (s.cache.entries.lookup dropId).isSome)
    (off : Nat) (buf : Bytes) :
    ∃ s', s.decodedRangeInto H z dropId off buf
      = some (s', (copyFrom p off buf).1, some (.ok (copyFrom p off buf).2)) := by
  have hlooked := h.lookup dropId
  have hvalue := (h.cache.get dropId).2
  have hresident := SieveCache.get_value s.cache dropId
  unfold CachedSlabStore.decodedRangeInto
  by_cases hbuf : buf = []
  · rw [if_pos hbuf, hbuf, copyFrom_eq]
    refine ⟨s, ?_⟩
    simp [copyAt]
  · rw [if_neg hbuf]
    generalize s.cache.get dropId = looked at hlooked hvalue hresident ⊢
    obtain ⟨cache, hit⟩ := looked
    cases hit with
    | some hit =>
        have hsame : store.plaintextFor z dropId = some (.ok hit) := hvalue hit rfl
        rw [hplain] at hsame
        cases hsame
        exact ⟨_, rfl⟩
    | none =>
        simp only at hresident
        have hseek : store.dropIsSeekable dropId = some false := by
          rcases hwhole with hseek | hresident'
          · exact hseek
          · rw [← hresident] at hresident'
            cases hresident'
        obtain ⟨mid, hfetch, -⟩ := hlooked.decodedFetchInsert dropId
        rw [h.inner, hplain] at hfetch
        simp only [h.inner]
        rw [hseek, if_neg (by simp), hfetch]
        exact ⟨_, rfl⟩

/-- The buffer is filled from any place inside a container of exact frames, resident or not. -/
theorem Sound.decodedRangeInto_frames (h : Sound H z store s)
    (hcol : NoCollision H store.frameNames) {raw : Bytes} {record : DropRecord} {footer : SeekFooter}
    {plains : List Bytes} (hcontainer : Container store dropId raw record footer)
    (hframes : FramesDecode z record.representation.codec footer.uncompLens footer.compLens raw plains)
    (hlens : plains.map List.length = footer.uncompLens)
    (hseek : store.dropIsSeekable dropId = some true)
    (hplain : store.plaintextFor z dropId = some (.ok plains.flatten)) {off : Nat} {buf : Bytes}
    (hbuf : buf ≠ []) (hoff : off ≤ plains.flatten.length) (hfit : off + buf.length < 2 ^ 64) :
    ∃ s', s.decodedRangeInto H z dropId off buf = some (s', (copyFrom plains.flatten off buf).1,
      some (.ok (copyFrom plains.flatten off buf).2)) := by
  by_cases hwarm : (s.cache.entries.lookup dropId).isSome
  · exact h.decodedRangeInto_whole hplain (Or.inr hwarm) off buf
  · have hlooked := h.lookup dropId
    have hresident := SieveCache.get_value s.cache dropId
    unfold CachedSlabStore.decodedRangeInto
    rw [if_neg hbuf]
    generalize s.cache.get dropId = looked at hlooked hresident ⊢
    obtain ⟨cache, hit⟩ := looked
    cases hit with
    | some hit =>
        rw [← hresident] at hwarm
        exact absurd rfl hwarm
    | none =>
        simp only [h.inner]
        rw [if_pos hseek, ← h.inner]
        exact hlooked.cachedFrameRangeInto_fill hcol hcontainer hframes hlens hoff hbuf hfit

/-- **The buffer is filled from any place inside the drop.** -/
theorem Sound.decodedRangeInto_window (h : Sound H z store s)
    (hcol : NoCollision H store.frameNames) (hexact : store.ExactContainers z)
    (hplain : store.plaintextFor z dropId = some (.ok p)) {off : Nat} {buf : Bytes}
    (hoff : off ≤ p.length) (hfit : off + buf.length < 2 ^ 64) :
    ∃ s', s.decodedRangeInto H z dropId off buf
      = some (s', (copyFrom p off buf).1, some (.ok (copyFrom p off buf).2)) := by
  obtain ⟨raw, record, hwindow, -⟩ := SlabStore.plaintextFor_ok hplain
  have hseekable := SlabStore.dropIsSeekable_eq hwindow
  by_cases hbuf : buf = []
  · unfold CachedSlabStore.decodedRangeInto
    rw [if_pos hbuf, hbuf, copyFrom_eq]
    refine ⟨s, ?_⟩
    simp [copyAt]
  · by_cases hwhole : store.dropIsSeekable dropId = some false
    · exact h.decodedRangeInto_whole hplain (Or.inl hwhole) off buf
    · have hseek : store.dropIsSeekable dropId = some true := by
        rw [hseekable] at hwhole ⊢
        simpa using hwhole
      obtain ⟨raw, record, footer, plains, hcontainer, -, hframes, rfl, hlens⟩ :=
        SlabStore.container_of_seekable hseek hplain
      exact h.decodedRangeInto_frames hcol hcontainer hframes (hlens hexact) hseek hplain hbuf hoff hfit

/-- **After any calls and within any bounds, a drop that decodes is answered with its plaintext,
and its windows with the windows of the plaintext.** -/
theorem cache_is_transparent {H : Hash} {z : Omnizip} {store : SlabStore}
    (hcol : NoCollision H store.frameNames) (hexact : store.ExactContainers z)
    (entryCapacity byteBudget frameByteBudget : Nat) (calls : List Call) {s : CachedSlabStore}
    (hrun : (withFrameBudget store entryCapacity byteBudget frameByteBudget).run H z calls = some s)
    {dropId : Digest} {p : Bytes} (hplain : store.plaintextFor z dropId = some (.ok p))
    (hfit : p.length < 2 ^ 63) :
    (∃ s', s.decoded z dropId = some (s', some (.ok p))) ∧
    (∃ s', s.plaintextFor z dropId = some (s', some (.ok p))) ∧
    (∀ off len, off + len ≤ p.length →
      ∃ s', s.decodedRange H z dropId off len = some (s', some (.ok ((p.drop off).take len)))) ∧
    (∀ off (buf : Bytes), off ≤ p.length → buf.length < 2 ^ 63 →
      ∃ s' filled, s.decodedRangeInto H z dropId off buf
          = some (s', filled, some (.ok (min buf.length (p.length - off)))) ∧
        filled = (p.drop off).take (min buf.length (p.length - off))
          ++ buf.drop (min buf.length (p.length - off))) := by
  have hs := (sound_withFrameBudget H z store _ _ _).run calls hrun
  refine ⟨?_, ?_, ?_, ?_⟩
  · obtain ⟨s', hdecoded, -⟩ := hs.decoded dropId
    exact ⟨s', by rw [hdecoded, hplain]⟩
  · obtain ⟨s', hfetch, -⟩ := hs.decodedFetchInsert dropId
    exact ⟨s', by rw [CachedSlabStore.plaintextFor, hfetch, hplain]⟩
  · intro off len hend
    exact hs.decodedRange_window hcol hexact hplain hend (by omega)
  · intro off buf hoff hbuf
    obtain ⟨s', hinto⟩ := hs.decodedRangeInto_window hcol hexact hplain hoff
      (show off + buf.length < 2 ^ 64 by omega)
    rw [copyFrom_eq] at hinto
    refine ⟨s', _, hinto, ?_⟩
    simp only [copyAt, List.take_zero, List.nil_append, Nat.zero_add, List.length_take,
      List.length_drop]
    rw [Nat.min_eq_left (Nat.min_le_right _ _)]

/-! ### The default of the trait -/

/-- The trait's `decoded_range_into` on a cached store. -/
def defaultRangeInto (z : Omnizip) (s : CachedSlabStore) (dropId : Digest) (off : Nat)
    (buf : Bytes) : Option (CachedSlabStore × Bytes × Option (Except CoreError Nat)) :=
  if buf = [] then some (s, buf, some (.ok 0))
  else (s.plaintextFor z dropId).map fun (s, plain) => (s, defaultDecodedRangeInto plain off buf)

theorem Sound.defaultRangeInto_ok (h : Sound H z store s)
    (hplain : store.plaintextFor z dropId = some (.ok p)) (off : Nat) (buf : Bytes) :
    (s.defaultRangeInto z dropId off buf).map Prod.snd
      = some ((copyFrom p off buf).1, some (.ok (copyFrom p off buf).2)) := by
  unfold defaultRangeInto
  by_cases hbuf : buf = []
  · rw [if_pos hbuf, hbuf, copyFrom_eq]
    simp [copyAt]
  · obtain ⟨s', hfetch, -⟩ := h.decodedFetchInsert dropId
    rw [if_neg hbuf, CachedSlabStore.plaintextFor, hfetch, hplain, Option.map_some, Option.map_some]
    unfold defaultDecodedRangeInto
    simp only
    rw [if_neg hbuf]

/-- Behind the end of a seekable drop that is not resident nothing is answered `Ok`. -/
theorem Sound.decodedRangeInto_past (h : Sound H z store s) {raw : Bytes} {record : DropRecord}
    {footer : SeekFooter} (hcontainer : Container store dropId raw record footer)
    (hseek : store.dropIsSeekable dropId = some true)
    (hcold : s.cache.entries.lookup dropId = none) {off : Nat} (hoff : footer.totalUncomp < off)
    {buf : Bytes} (hbuf : buf ≠ []) (n : Nat) (filled : Bytes) :
    (s.decodedRangeInto H z dropId off buf).map Prod.snd ≠ some (filled, some (.ok n)) := by
  have hlooked := h.lookup dropId
  have hresident := SieveCache.get_value s.cache dropId
  rw [hcold] at hresident
  unfold CachedSlabStore.decodedRangeInto
  rw [if_neg hbuf]
  generalize s.cache.get dropId = looked at hlooked hresident ⊢
  obtain ⟨cache, hit⟩ := looked
  simp only at hresident
  subst hresident
  simp only [h.inner]
  rw [if_pos hseek]
  obtain ⟨-, hfooter⟩ := hlooked.cachedFooter hcontainer.window
  rw [hcontainer.footer] at hfooter
  unfold CachedSlabStore.cachedFrameRangeInto
  simp only [h.inner] at hfooter ⊢
  rw [SlabStore.rawWindow, hcontainer.window]
  simp only
  generalize CachedSlabStore.cachedFooter _ dropId raw = found at hfooter ⊢
  obtain ⟨mid, result⟩ := found
  simp only at hfooter
  subst hfooter
  simp only
  rw [if_pos hoff]
  split
  · exact fun heq => by cases heq
  · exact fun heq => by cases heq

/-- **The override is the default for all windows of a drop exactly if no frames are read**; with
exact frames the two part just behind the end of the drop. -/
theorem decodedRangeInto_refines_iff {H : Hash} {z : Omnizip} {store : SlabStore}
    (entryCapacity byteBudget frameByteBudget : Nat) (calls : List Call) {s : CachedSlabStore}
    (hrun : (withFrameBudget store entryCapacity byteBudget frameByteBudget).run H z calls = some s)
    {dropId : Digest} {p : Bytes} (hplain : store.plaintextFor z dropId = some (.ok p)) :
    ((∀ off buf, (s.decodedRangeInto H z dropId off buf).map Prod.snd
        = (s.defaultRangeInto z dropId off buf).map Prod.snd) ↔
      store.dropIsSeekable dropId = some false ∨ (s.cache.entries.lookup dropId).isSome) ∧
    (NoCollision H store.frameNames → store.ExactContainers z →
      ∀ off buf, p.length + buf.length < 2 ^ 64 →
      ((s.decodedRangeInto H z dropId off buf).map Prod.snd
          = (s.defaultRangeInto z dropId off buf).map Prod.snd ↔
        buf = [] ∨ store.dropIsSeekable dropId = some false ∨
          (s.cache.entries.lookup dropId).isSome ∨ off ≤ p.length)) := by
  have hs := (sound_withFrameBudget H z store _ _ _).run calls hrun
  obtain ⟨raw, record, hwindow, -⟩ := SlabStore.plaintextFor_ok hplain
  have hseekable := SlabStore.dropIsSeekable_eq hwindow
  have hcases : store.dropIsSeekable dropId = some false ∨ store.dropIsSeekable dropId = some true := by
    rw [hseekable]
    cases decide (record.flags &&& dropFlagSeekable ≠ 0)
    · exact Or.inl rfl
    · exact Or.inr rfl
  refine ⟨⟨?_, ?_⟩, ?_⟩
  · intro hsame
    refine hcases.imp id fun hseek => ?_
    obtain ⟨raw, record, footer, plains, hcontainer, -⟩ := SlabStore.container_of_seekable hseek hplain
    refine Option.isSome_iff_ne_none.mpr fun hcold => ?_
    have hpast := hsame (footer.totalUncomp + 1) [0]
    rw [hs.defaultRangeInto_ok hplain] at hpast
    exact hs.decodedRangeInto_past hcontainer hseek hcold (Nat.lt_succ_self _) (by simp) _ _ hpast
  · intro hwhole off buf
    obtain ⟨s', hinto⟩ := hs.decodedRangeInto_whole hplain hwhole off buf
    rw [hs.defaultRangeInto_ok hplain, hinto]
    rfl
  · intro hcol hexact off buf hfit
    constructor
    · intro hsame
      by_cases hbuf : buf = []
      · exact Or.inl hbuf
      · refine Or.inr (hcases.imp id fun hseek => ?_)
        obtain ⟨raw, record, footer, plains, hcontainer, -, -, rfl, hlens⟩ :=
          SlabStore.container_of_seekable hseek hplain
        have htotal : plains.flatten.length = footer.totalUncomp := by
          rw [List.length_flatten, hlens hexact]
          rfl
        by_cases hoff : off ≤ plains.flatten.length
        · exact Or.inr hoff
        · refine Or.inl (Option.isSome_iff_ne_none.mpr fun hcold => ?_)
          rw [hs.defaultRangeInto_ok hplain] at hsame
          have hpast : footer.totalUncomp < off := by omega
          exact hs.decodedRangeInto_past hcontainer hseek hcold hpast hbuf _ _ hsame
    · intro hcase
      rw [hs.defaultRangeInto_ok hplain]
      rcases hcase with hbuf | hseek | hresident | hoff
      · subst hbuf
        rw [copyFrom_eq]
        unfold CachedSlabStore.decodedRangeInto
        simp [copyAt]
      · obtain ⟨s', hinto⟩ := hs.decodedRangeInto_whole hplain (Or.inl hseek) off buf
        rw [hinto]
        rfl
      · obtain ⟨s', hinto⟩ := hs.decodedRangeInto_whole hplain (Or.inr hresident) off buf
        rw [hinto]
        rfl
      · obtain ⟨s', hinto⟩ := hs.decodedRangeInto_window hcol hexact hplain hoff
          (show off + buf.length < 2 ^ 64 by omega)
        rw [hinto]
        rfl

end CachedSlabStore

namespace Stored

/-- A container of one frame of three bytes. -/
def oneFrame : Bytes :=
  [1, 2, 3] ++ footerTable [[1, 2, 3]] [[1, 2, 3]] ++ seekableMagic ++ leBytes 2 seekableVersion
    ++ leBytes 4 1

def frameRecord : DropRecord :=
  ⟨digest (ascii "drop"), 3, ⟨codecStore, 0, 0⟩, 0, 0, oneFrame.length, noDict, dropFlagSeekable⟩

def frameHeader : SlabHeader := ⟨⟨0, digest (ascii "slab")⟩, 127, 0, 0⟩

/-- A slab with one seekable drop. -/
def frameSlab : Bytes := slabBytes frameHeader [frameRecord] oneFrame

def frameStore : SlabStore := ⟨[⟨frameSlab, frameHeader, [frameRecord], 106⟩], fun _ => none⟩

end Stored

open LimniFS.Stored

theorem parseSlab_frameSlab :
    parseSlab frameSlab
      = .ok ⟨frameSlab, frameHeader, [frameRecord], 106⟩ :=
  parseSlab_slabBytes ⟨by decide, by decide, by decide, by decide, by decide⟩
    (fun r hr => by
      rw [List.mem_singleton.mp hr]
      exact ⟨by decide, Or.inr rfl, Or.inr rfl, by decide +kernel⟩) rfl rfl

theorem frameStore_plain : frameStore.plaintextFor omnizip frameRecord.dropId
    = some (.ok [1, 2, 3]) := by decide +kernel

theorem frameStore_exact : frameStore.ExactContainers omnizip := by
  intro entry hentry _ c n p h
  obtain rfl : entry = (⟨frameSlab, frameHeader, [frameRecord], 106⟩,
      frameRecord) := List.mem_singleton.mp hentry
  have hstore : codecCall (storeCodec.decompress c n) = .ok p := h
  unfold storeCodec plainCodec at hstore
  simp only at hstore
  split at hstore
  · next hlen =>
      cases hstore
      exact hlen
  · cases hstore

/-- **A cold read one byte behind the end of a seekable drop** is an error; the default fills
nothing. -/
theorem past_end_differs :
    parseSlab frameSlab
        = .ok ⟨frameSlab, frameHeader, [frameRecord], 106⟩ ∧
      frameStore.plaintextFor omnizip frameRecord.dropId
        = some (.ok [1, 2, 3]) ∧
      ((CachedSlabStore.withFrameBudget frameStore 8 64 64).decodedRangeInto digest
          omnizip frameRecord.dropId 4 [0]).map Prod.snd
        = some ([0], some (.error
          (.corrupt "decoded_range_into [4, 5) outside drop length 3"))) ∧
      ((CachedSlabStore.withFrameBudget frameStore 8 64 64).defaultRangeInto
          omnizip frameRecord.dropId 4 [0]).map Prod.snd
        = some ([0], some (.ok 0)) := by
  refine ⟨parseSlab_frameSlab, frameStore_plain, ?_, ?_⟩
  · decide +kernel
  · decide +kernel

/-- The drop is cached whole after its first byte was read from its frame. -/
theorem cache_is_transparent_frame :
    ∃ s, (CachedSlabStore.withFrameBudget frameStore 8 64 64).run digest
        omnizip [.decodedRange frameRecord.dropId 0 1,
          .decoded frameRecord.dropId] = some s ∧
      ∃ s', s.decodedRange digest omnizip frameRecord.dropId 1 2
        = some (s', some (.ok [2, 3])) := by
  cases hrun : (CachedSlabStore.withFrameBudget frameStore 8 64 64).run digest
      omnizip [.decodedRange frameRecord.dropId 0 1,
        .decoded frameRecord.dropId] with
  | none => exact absurd (congrArg Option.isSome hrun) (by decide +kernel)
  | some s =>
      have hall := CachedSlabStore.cache_is_transparent (by decide +kernel) frameStore_exact 8 64 64 _
        hrun frameStore_plain (by decide)
      exact ⟨s, rfl, hall.2.2.1 1 2 (by decide)⟩

/-- The same drop read past its end, cold: no frames may be read. -/
theorem decodedRangeInto_refines_iff_frame :
    (∀ off buf, ((CachedSlabStore.withFrameBudget frameStore 8 64 64).decodedRangeInto
          digest omnizip frameRecord.dropId off buf).map Prod.snd
        = ((CachedSlabStore.withFrameBudget frameStore 8 64 64).defaultRangeInto
          omnizip frameRecord.dropId off buf).map Prod.snd) ↔
      frameStore.dropIsSeekable frameRecord.dropId = some false ∨
        ((CachedSlabStore.withFrameBudget frameStore 8 64 64).cache.entries.lookup
          frameRecord.dropId).isSome :=
  (CachedSlabStore.decodedRangeInto_refines_iff (H := digest) 8 64 64 [] rfl
    frameStore_plain).1

end LimniFS
