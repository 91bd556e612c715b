/-
When a source may say that it does not have a drop.

`None` stands for a drop that no slab has a record of, and a chain of sources goes on to the
next one when it sees it; what is there and cannot be read is to be an error.  The code loses
the difference in two places: a window that leaves its slab is `None`, and so is a frame that
does not decode, through a `?`.

`missing_only_if_absent_iff` says exactly which drops that leaves: the ones whose window lies
inside the slab and whose frames all decode.
-/
import LimniFS.CachedWindows
import LimniFS.LiveTree

namespace LimniFS

open Lib

/-- The first source that has the drop answers. -/
def ownedSlabChain (sources : List SlabSource) : SlabSource := fun dropId =>
  sources.findSome? fun source => source dropId

/-- No entry point says that the drop is missing, in any state and for any window, and a chain
never asks behind the store. -/
structure NeverMissing (H : Hash) (z : Omnizip) (store : SlabStore) (dropId : Digest) : Prop where
  plaintextFor : store.plaintextFor z dropId ≠ none
  plaintextRange : ∀ off len, store.plaintextRange z dropId off len ≠ some none
  chain : ∀ rest, ownedSlabChain (store.plaintextFor z :: rest) dropId = store.plaintextFor z dropId
  cached : ∀ entryCapacity byteBudget frameByteBudget calls s,
    (CachedSlabStore.withFrameBudget store entryCapacity byteBudget frameByteBudget).run H z calls
      = some s →
    (∀ s', s.decoded z dropId ≠ some (s', none)) ∧
    (∀ s', s.plaintextFor z dropId ≠ some (s', none)) ∧
    (∀ off len s', s.decodedRange H z dropId off len ≠ some (s', none)) ∧
    (∀ off buf s' buf', s.decodedRangeInto H z dropId off buf ≠ some (s', buf', none))

/-- The record's window lies inside its slab and, where it is a container whose footer parses,
every frame of it that is not empty decodes. -/
def WholeWindow (z : Omnizip) (store : SlabStore) (dropId : Digest) : Prop :=
  ∃ slab record raw, store.find dropId = some (slab, record) ∧ slab.window record = some raw ∧
    (record.flags &&& dropFlagSeekable ≠ 0 → ∀ footer, parseFooter raw = .ok footer →
      ∀ i u c, footer.uncompLens[i]? = some u → footer.compLens[i]? = some c → 0 < u →
        ∃ plain, decompress z record.representation.codec (frameBytes footer raw i c) u = .ok plain)

namespace CachedSlabStore

variable {H : Hash} {z : Omnizip} {store : SlabStore} {dropId : Digest} {raw : Bytes}
  {record : DropRecord} {footer : SeekFooter} {s : CachedSlabStore}

/-! ### Frames that decode are not missing -/

theorem allDecode_of_whole (hfooter : parseFooter raw = .ok footer)
    (hframes : ∀ i u c, footer.uncompLens[i]? = some u → footer.compLens[i]? = some c → 0 < u →
      ∃ plain, decompress z record.representation.codec (frameBytes footer raw i c) u = .ok plain)
    (off : Nat) : AllDecode z record footer raw (footer.frameContaining off) := by
  intro i u c hi hu hc
  by_cases hpos : 0 < u
  · exact hframes i u c hu hc hpos
  · -- an empty frame is the only one, and the window starts behind it
    exfalso
    obtain rfl : u = 0 := by omega
    have htotal := SeekFooter.totalUncomp_of_zero_mem hfooter (List.mem_of_getElem? hu)
    rw [footer.frameContaining_past (by omega)] at hi
    have hlt := (List.getElem?_eq_some_iff.mp hu).1
    omega

theorem Sound.cachedFrameRange_found (h : Sound H z store s)
    (hwindow : store.locateWindow dropId = some (raw, record))
    (hframes : ∀ footer, parseFooter raw = .ok footer → ∀ off,
      AllDecode z record footer raw (footer.frameContaining off)) {off len : Nat}
    {s' : CachedSlabStore} : s.cachedFrameRange H z dropId off len ≠ some (s', none) := by
  intro hcall
  unfold CachedSlabStore.cachedFrameRange at hcall
  rw [h.inner, SlabStore.rawWindow, hwindow] at hcall
  obtain ⟨hsound, hfooter⟩ := h.cachedFooter hwindow
  simp only at hcall
  generalize s.cachedFooter dropId raw = looked at hsound hfooter hcall
  obtain ⟨mid, footer⟩ := looked
  cases footer with
  | error e => cases hcall
  | ok footer =>
      simp only at hcall
      split at hcall
      · cases hcall
      · split at hcall
        · cases hcall
        · obtain ⟨⟨frames, found⟩, hloop, heq⟩ := Option.map_eq_some_iff.mp hcall
          have hsome := ((frameRangeLoop_spec ⟨hwindow, hfooter.symm⟩
            (framesFrom_drop footer raw _) hsound.frames).1 _ _ hloop).2
              (hframes footer hfooter.symm off)
          cases found with
          | some out => cases heq
          | none => cases hsome

theorem Sound.cachedFrameRangeInto_found (h : Sound H z store s)
    (hwindow : store.locateWindow dropId = some (raw, record))
    (hframes : ∀ footer, parseFooter raw = .ok footer → ∀ off,
      AllDecode z record footer raw (footer.frameContaining off)) {off : Nat} {buf buf' : Bytes}
    {s' : CachedSlabStore} :
    s.cachedFrameRangeInto H z dropId off buf ≠ some (s', buf', none) := by
  intro hcall
  unfold CachedSlabStore.cachedFrameRangeInto at hcall
  rw [h.inner, SlabStore.rawWindow, hwindow] at hcall
  obtain ⟨hsound, hfooter⟩ := h.cachedFooter hwindow
  simp only at hcall
  generalize s.cachedFooter dropId raw = looked at hsound hfooter hcall
  obtain ⟨mid, footer⟩ := looked
  cases footer with
  | error e => cases hcall
  | ok footer =>
      simp only at hcall
      split at hcall
      · split at hcall
        · cases hcall
        · cases hcall
      · obtain ⟨⟨frames, filled, found⟩, hloop, heq⟩ := Option.map_eq_some_iff.mp hcall
        have hsome := (frameIntoLoop_keeps ⟨hwindow, hfooter.symm⟩ (framesFrom_drop footer raw _)
          hsound.frames _ _ _ hloop).2 (hframes footer hfooter.symm off)
        cases found with
        | some n => cases heq
        | none => cases hsome

/-! ### A frame that does not decode is missing -/

theorem sum_take_le {l : List Nat} {i j : Nat} (h : i ≤ j) : (l.take i).sum ≤ (l.take j).sum := by
  rw [show j = i + (j - i) by omega, List.take_add, List.sum_append]
  exact Nat.le_add_right _ _

theorem take_succ_sum {l : List Nat} {i u : Nat} (hu : l[i]? = some u) :
    (l.take (i + 1)).sum = (l.take i).sum + u := by
  rw [List.take_add_one, hu, List.sum_append]
  rfl

theorem frame_end_le {f : SeekFooter} {i u : Nat} (hu : f.uncompLens[i]? = some u) :
    (f.uncompLens.take i).sum + u ≤ f.totalUncomp := by
  have hlt := (List.getElem?_eq_some_iff.mp hu).1
  have := sum_take_le (l := f.uncompLens) (i := i + 1) (j := f.uncompLens.length) hlt
  rwa [List.take_length, take_succ_sum hu] at this

theorem frameContaining_eq {f : SeekFooter} {i u p : Nat} (hu : f.uncompLens[i]? = some u)
    (hle : (f.uncompLens.take i).sum ≤ p) (hlt : p < (f.uncompLens.take i).sum + u) :
    f.frameContaining p = i := by
  have hnext := take_succ_sum hu
  have hinside : p < f.totalUncomp := Nat.lt_of_lt_of_le hlt (frame_end_le hu)
  obtain ⟨hfirst, hstart, u', hhead, hend⟩ := f.frameContaining_inside hinside
  generalize f.frameContaining p = first at hfirst hstart hhead hend ⊢
  rw [SeekFooter.uncompOffset_eq hfirst] at hstart hend
  rw [List.head?_drop] at hhead
  have hfound := take_succ_sum hhead
  rcases Nat.lt_trichotomy first i with h | h | h
  · have := sum_take_le (l := f.uncompLens) (i := first + 1) (j := i) h
    omega
  · exact h
  · have := sum_take_le (l := f.uncompLens) (i := i + 1) (j := first) h
    omega

theorem frameContaining_start {f : SeekFooter} {i u : Nat} (hu : f.uncompLens[i]? = some u)
    (hpos : 0 < u) : f.frameContaining (f.uncompLens.take i).sum = i ∧
      (f.uncompLens.take i).sum + u ≤ f.totalUncomp :=
  ⟨frameContaining_eq hu (Nat.le_refl _) (Nat.lt_add_of_pos_right hpos), frame_end_le hu⟩

theorem totalUncomp_lt (hfooter : parseFooter raw = .ok footer)
    (hraw : raw.length ≤ defaultSlabMaxBytes) : footer.totalUncomp < 2 ^ 63 := by
  obtain ⟨-, hcount, hrows⟩ := parseFooter_rows hfooter
  have hsum := List.sum_le_card_nsmul footer.uncompLens u32Limit fun u hu => Nat.le_of_lt (hrows u hu)
  rw [nsmul_eq_mul, Nat.cast_id] at hsum
  unfold SeekFooter.totalUncomp
  unfold defaultSlabMaxBytes at hraw
  unfold u32Limit at hsum
  omega

/-- **Nothing is cached, and the first byte of a frame that does not decode is read.** -/
theorem cold_frame_missing (hcontainer : Container store dropId raw record footer)
    (hseek : store.dropIsSeekable dropId = some true) (hraw : raw.length ≤ defaultSlabMaxBytes)
    {i u c : Nat} (hu : footer.uncompLens[i]? = some u) (hc : footer.compLens[i]? = some c)
    (hpos : 0 < u) {e : CoreError}
    (herror : decompress z record.representation.codec (frameBytes footer raw i c) u = .error e) :
    ∃ off s', (withFrameBudget store 0 0 0).decodedRange H z dropId off 1 = some (s', none) := by
  obtain ⟨hfirst, htotal⟩ := frameContaining_start hu hpos
  have hshort := totalUncomp_lt hcontainer.footer hraw
  refine ⟨(footer.uncompLens.take i).sum, ?_⟩
  have hus : footer.uncompLens.drop i = u :: footer.uncompLens.drop (i + 1) := by
    obtain ⟨hlt, hget⟩ := List.getElem?_eq_some_iff.mp hu
    rw [List.drop_eq_getElem_cons hlt, hget]
  have hcs : footer.compLens.drop i = c :: footer.compLens.drop (i + 1) := by
    obtain ⟨hlt, hget⟩ := List.getElem?_eq_some_iff.mp hc
    rw [List.drop_eq_getElem_cons hlt, hget]
  unfold decodedRange withFrameBudget
  simp only [SieveCache.get, SieveCache.new]
  rw [show AList.lookup dropId (∅ : AList fun _ : Digest => Bytes) = none from rfl]
  simp only
  rw [if_pos hseek]
  unfold cachedFrameRange cachedFooter
  simp only [SlabStore.rawWindow, hcontainer.window]
  rw [show AList.lookup dropId (∅ : AList fun _ : Digest => SeekFooter) = none from rfl]
  simp only [hcontainer.footer]
  rw [if_neg (by omega), if_neg (by omega), hfirst, hus, hcs]
  unfold frameRangeLoop cachedFrame
  simp only [SieveCache.get]
  rw [show AList.lookup (frameKey H dropId i) (∅ : AList fun _ : Digest => Bytes) = none from rfl]
  rw [frameBytes] at herror
  simp only [herror]
  exact ⟨_, rfl⟩

end CachedSlabStore

/-! ### Whole windows and missing drops -/

section

open CachedSlabStore

variable {H : Hash} {z : Omnizip} {store : SlabStore} {dropId : Digest}

theorem WholeWindow.located (h : WholeWindow z store dropId) :
    ∃ raw record, store.locateWindow dropId = some (raw, record) ∧
      (store.dropIsSeekable dropId = some true → ∀ footer, parseFooter raw = .ok footer →
        ∀ off, AllDecode z record footer raw (footer.frameContaining off)) := by
  obtain ⟨slab, record, raw, hfind, hraw, hframes⟩ := h
  have hwindow : store.locateWindow dropId = some (raw, record) := by
    unfold SlabStore.locateWindow
    rw [hfind]
    simp only [hraw]
    rfl
  refine ⟨raw, record, hwindow, ?_⟩
  intro hseek footer hfooter off
  rw [SlabStore.dropIsSeekable_eq hwindow] at hseek
  exact allDecode_of_whole hfooter (hframes (by simpa using hseek) footer hfooter) off

theorem SlabStore.answers_of_window {raw : Bytes} {record : DropRecord}
    (h : store.locateWindow dropId = some (raw, record)) :
    store.plaintextFor z dropId = some (decodeDrop z record raw store.dictionaries) ∧
      ∀ off len, store.plaintextRange z dropId off len ≠ some none := by
  refine ⟨?_, ?_⟩
  · unfold SlabStore.plaintextFor
    rw [h]
    rfl
  · intro off len hrange
    unfold SlabStore.plaintextRange at hrange
    rw [h] at hrange
    simp only at hrange
    split at hrange
    · obtain ⟨out, -, heq⟩ := Option.map_eq_some_iff.mp hrange
      cases heq
    · split at hrange
      · cases hrange
      · obtain ⟨out, -, heq⟩ := Option.map_eq_some_iff.mp hrange
        cases heq

variable {s s' : CachedSlabStore}

theorem WholeWindow.decodedRange_found (hwhole : WholeWindow z store dropId)
    (h : Sound H z store s) (off len : Nat) :
    s.decodedRange H z dropId off len ≠ some (s', none) := by
  obtain ⟨raw, record, hwindow, hframes⟩ := hwhole.located
  intro hcall
  have hlooked := h.lookup dropId
  unfold CachedSlabStore.decodedRange at hcall
  simp only at hcall
  generalize s.cache.get dropId = looked at hlooked hcall
  obtain ⟨cache, hit⟩ := looked
  cases hit with
  | some hit =>
      obtain ⟨out, -, heq⟩ := Option.map_eq_some_iff.mp hcall
      cases heq
  | none =>
      simp only [h.inner] at hcall
      by_cases hseek : store.dropIsSeekable dropId = some true
      · rw [if_pos hseek, ← h.inner] at hcall
        exact hlooked.cachedFrameRange_found hwindow (hframes hseek) hcall
      · obtain ⟨mid, hfetch, -⟩ := hlooked.decodedFetchInsert dropId
        rw [h.inner, (SlabStore.answers_of_window hwindow).1] at hfetch
        rw [if_neg hseek, hfetch] at hcall
        generalize decodeDrop z record raw store.dictionaries = plain at hcall
        cases plain with
        | error e => cases hcall
        | ok full =>
            obtain ⟨out, -, heq⟩ := Option.map_eq_some_iff.mp hcall
            cases heq

theorem WholeWindow.decodedRangeInto_found (hwhole : WholeWindow z store dropId)
    (h : Sound H z store s) (off : Nat) (buf buf' : Bytes) :
    s.decodedRangeInto H z dropId off buf ≠ some (s', buf', none) := by
  obtain ⟨raw, record, hwindow, hframes⟩ := hwhole.located
  intro hcall
  have hlooked := h.lookup dropId
  unfold CachedSlabStore.decodedRangeInto at hcall
  split at hcall
  · cases hcall
  · simp only at hcall
    generalize s.cache.get dropId = looked at hlooked hcall
    obtain ⟨cache, hit⟩ := looked
    cases hit with
    | some hit => cases hcall
    | none =>
        simp only [h.inner] at hcall
        by_cases hseek : store.dropIsSeekable dropId = some true
        · rw [if_pos hseek, ← h.inner] at hcall
          exact hlooked.cachedFrameRangeInto_found hwindow (hframes hseek) hcall
        · obtain ⟨mid, hfetch, -⟩ := hlooked.decodedFetchInsert dropId
          rw [h.inner, (SlabStore.answers_of_window hwindow).1] at hfetch
          rw [if_neg hseek, hfetch] at hcall
          generalize decodeDrop z record raw store.dictionaries = plain at hcall
          cases plain with
          | error e => cases hcall
          | ok full => cases hcall

theorem WholeWindow.neverMissing (hwhole : WholeWindow z store dropId) :
    NeverMissing H z store dropId := by
  obtain ⟨raw, record, hwindow, -⟩ := hwhole.located
  obtain ⟨hplain, hrange⟩ := SlabStore.answers_of_window (z := z) hwindow
  refine ⟨by rw [hplain]; exact Option.some_ne_none _, hrange, ?_, ?_⟩
  · intro rest
    unfold ownedSlabChain
    rw [List.findSome?_cons, hplain]
  · intro entryCapacity byteBudget frameByteBudget calls s hrun
    have h := Sound.run calls (sound_withFrameBudget H z store entryCapacity byteBudget
      frameByteBudget) hrun
    refine ⟨?_, ?_, ?_, ?_⟩
    · intro s' hcall
      obtain ⟨mid, hmid, -⟩ := h.decoded dropId
      rw [hmid, hplain] at hcall
      cases hcall
    · intro s' hcall
      obtain ⟨mid, hmid, -⟩ := h.decodedFetchInsert dropId
      rw [CachedSlabStore.plaintextFor, hmid, hplain] at hcall
      cases hcall
    · exact fun off len s' => hwhole.decodedRange_found h off len
    · exact fun off buf s' buf' => hwhole.decodedRangeInto_found h off buf buf'

theorem SlabStore.window_length_le (hloaded : ∀ view ∈ store.slabs, parseSlab view.bytes = .ok view)
    {raw : Bytes} {record : DropRecord} (h : store.locateWindow dropId = some (raw, record)) :
    raw.length ≤ defaultSlabMaxBytes := by
  obtain ⟨slab, hfind, hraw⟩ := SlabStore.locateWindow_some h
  obtain ⟨-, -, -, -, hceil⟩ := parseSlab_ok (hloaded slab (SlabStore.find_some hfind).1)
  unfold SlabView.window at hraw
  simp only at hraw
  split at hraw
  · cases hraw
  · cases hraw
    rw [List.length_take, List.length_drop]
    omega

theorem NeverMissing.whole (hloaded : ∀ view ∈ store.slabs, parseSlab view.bytes = .ok view)
    (h : NeverMissing H z store dropId) : WholeWindow z store dropId := by
  cases hwindow : store.locateWindow dropId with
  | none =>
      refine absurd ?_ h.plaintextFor
      unfold SlabStore.plaintextFor
      rw [hwindow]
      rfl
  | some located =>
      obtain ⟨raw, record⟩ := located
      obtain ⟨slab, hfind, hraw⟩ := SlabStore.locateWindow_some hwindow
      refine ⟨slab, record, raw, hfind, hraw, ?_⟩
      intro hflag footer hfooter i u c hu hc hpos
      cases hdecode : decompress z record.representation.codec (frameBytes footer raw i c) u with
      | ok plain => exact ⟨plain, rfl⟩
      | error e =>
          obtain ⟨off, s', hmissing⟩ := cold_frame_missing (H := H) ⟨hwindow, hfooter⟩
            (by rw [SlabStore.dropIsSeekable_eq hwindow]; simpa using hflag)
            (SlabStore.window_length_le hloaded hwindow) hu hc hpos hdecode
          exact absurd hmissing ((h.cached 0 0 0 [] _ rfl).2.2.1 off 1 s')

/-- **A source says that it lacks a drop only if no slab has a record of it, exactly where the
drop's window lies in its slab and the frames in it decode.** -/
theorem missing_only_if_absent_iff (H : Hash) (z : Omnizip) {store : SlabStore}
    (hloaded : ∀ view ∈ store.slabs, parseSlab view.bytes = .ok view) (dropId : Digest) :
    (store.contains dropId = true → NeverMissing H z store dropId) ↔
      (store.contains dropId = true → WholeWindow z store dropId) :=
  ⟨fun h hcontains => (h hcontains).whole hloaded, fun h hcontains => (h hcontains).neverMissing⟩

end

namespace Stored

/-- A container whose only frame has three bytes under a row that says two. -/
def shortFrame : Bytes :=
  [1, 2, 3] ++ footerTable [[1, 2]] [[1, 2, 3]] ++ seekableMagic ++ leBytes 2 seekableVersion
    ++ leBytes 4 1

def shortFrameRecord : DropRecord :=
  ⟨digest (ascii "frame"), 2, ⟨codecStore, 0, 0⟩, 0, 0, shortFrame.length, noDict, dropFlagSeekable⟩

def behindRecord : DropRecord := ⟨digest (ascii "behind"), 3, ⟨codecStore, 0, 0⟩, 0, 22, 3, noDict, 0⟩

def lostHeader : SlabHeader := ⟨⟨0, digest (ascii "slab")⟩, 180, 0, 0⟩

/-- A slab with a frame that does not decode and a window that ends a byte behind the slab. -/
def lostSlab : Bytes := slabBytes lostHeader [shortFrameRecord, behindRecord] (shortFrame ++ [1, 2, 3])

def lostView : SlabView := ⟨lostSlab, lostHeader, [shortFrameRecord, behindRecord], 156⟩

end Stored

open LimniFS.Stored

/-- **Two drops that are there and are reported missing**: one by every call, and one by the
cached windows, although the whole drop is an error. -/
theorem lost_drops_are_missing :
    parseSlab lostSlab = .ok lostView ∧
      (SlabStore.mk [lostView] fun _ => none).contains behindRecord.dropId = true ∧
      (SlabStore.mk [lostView] fun _ => none).plaintextFor omnizip
        behindRecord.dropId = none ∧
      (SlabStore.mk [lostView] fun _ => none).contains shortFrameRecord.dropId = true ∧
      (((SlabStore.mk [lostView] fun _ => none).plaintextFor omnizip
        shortFrameRecord.dropId).map Except.toOption) = some none ∧
      ((CachedSlabStore.withFrameBudget (SlabStore.mk [lostView] fun _ => none) 8 64
        64).decodedRange digest omnizip shortFrameRecord.dropId 0 1).map
          Prod.snd = some none := by
  refine ⟨?_, ?_, ?_, ?_, ?_, ?_⟩
  · exact parseSlab_slabBytes ⟨by decide, by decide, by decide, by decide, by decide⟩
      (fun r hr => by
        rcases List.mem_cons.mp hr with rfl | hr
        · exact ⟨by decide, Or.inr rfl, Or.inr rfl, by decide +kernel⟩
        · rw [List.mem_singleton.mp hr]
          exact ⟨by decide, Or.inr rfl, Or.inr rfl, by decide +kernel⟩) rfl rfl
  · decide +kernel
  · decide +kernel
  · decide +kernel
  · decide +kernel
  · decide +kernel

theorem missing_only_if_absent_iff_frame :
    (frameStore.contains frameRecord.dropId = true →
        NeverMissing digest omnizip frameStore frameRecord.dropId) ↔
      (frameStore.contains frameRecord.dropId = true →
        WholeWindow omnizip frameStore frameRecord.dropId) :=
  missing_only_if_absent_iff digest omnizip
    (fun view hview => by rw [List.mem_singleton.mp hview]; exact parseSlab_frameSlab) _

end LimniFS
