/-
What is packed is found by every front end.

Of the front ends only the CLI puts the dictionaries of an image in.  Without one a drop is decoded to
the same by a store with dictionaries and by one without: whole where it is not a container, and frame
by frame where it is one, since the frames of a container are those of the plaintext that the slices
cover.  So a slice over it is answered alike (`sameRange_stored`).
-/
import LimniFS.FrontEndWindows
import LimniFS.MetadataKept
import LimniFS.PackedDrops

namespace LimniFS

open Lib Lib.Parser Cursor

/-- The footer and the frames of a container that was encoded. -/
theorem frames_of_encodeSeekable {z : Omnizip} {codec : UInt8} {t : CodecTunables} {p c : Bytes}
    (hinv : ∀ x c, compressWithTunables z codec x t = .ok c →
      decompress z codec c x.length = .ok x)
    (hlen : p.length < u32Limit) (h : encodeSeekable z codec p t = .ok c) :
    ∃ footer, parseFooter c = .ok footer ∧
      FramesDecode z codec footer.uncompLens footer.compLens c (seekableFrames p) ∧
      (seekableFrames p).map List.length = footer.uncompLens := by
  unfold encodeSeekable at h
  simp only at h
  split at h
  · cases h
  · next cs hcs =>
      obtain ⟨hcount, hfit⟩ := encodeFrames_length z hcs
      have hdecode := framesDecode_encodeFrames hinv
        (footerTable (seekableFrames p) cs ++ seekableMagic ++ leBytes 2 seekableVersion
          ++ leBytes 4 (seekableFrames p).length) hcs
      simp only [← List.append_assoc] at hdecode
      cases h
      exact ⟨_, parseFooter_container (seekableFrames_ok hlen) hcount hfit, hdecode, rfl⟩

section

variable {H : Hash} {z : Omnizip} {ctx : WriteContext} {slabs : List SlabArtifact}
  {views : List SlabView} {texts : List Bytes}

theorem plaintextLen_of_loaded (hctx : ctx.WellFormed) (hslabs : packSlabs H ctx.drops = some slabs)
    (hcount : slabs.length < u32Limit)
    (hviews : List.Forall₂ (fun s view => parseSlab s.bytes = .ok view) slabs views)
    {d : PendingDrop} (hd : d ∈ localDrops ctx.drops) {p : Bytes}
    (hpacks : d.Packs H z p) : d.plaintextLen = p.length ∧ p.length < u32Limit := by
  obtain ⟨view, hview, r, hr, hrecord, -⟩ := keeps_of_packed hctx hslabs hcount hviews hd
  obtain ⟨slab, -, hparse⟩ := exists_mem_of_forall₂ hviews view hview
  have hle := ((parseSlab_ok hparse).2.1 r hr).plaintextLen
  have hlen : saturateU32 p.length ≤ defaultDropMaxPlaintextBytes := by
    rw [← hpacks.plaintextLen]
    rw [hrecord] at hle
    exact hle
  have hshort : p.length < u32Limit := by
    by_contra hlong
    rw [saturateU32, if_neg hlong] at hlen
    exact absurd hlen (by decide)
  exact ⟨hpacks.plaintextLen.trans (saturateU32_of_lt hshort), hshort⟩

/-- **Without a dictionary** the dictionaries of a store do not matter. -/
theorem plaintextFor_bare (hctx : ctx.WellFormed) (hslabs : packSlabs H ctx.drops = some slabs)
    (hcount : slabs.length < u32Limit)
    (hviews : List.Forall₂ (fun s view => parseSlab s.bytes = .ok view) slabs views)
    {d : PendingDrop} (hd : d ∈ localDrops ctx.drops) (hbare : d.dictId = noDict)
    (table : DictTable) : (⟨views, table⟩ : SlabStore).plaintextFor z d.id
      = some (decodeStored z d.codec d.flags d.compressed d.plaintextLen) := by
  obtain ⟨offset, hwindow⟩ := locateWindow_stored hctx hslabs hcount hviews table hd
  unfold SlabStore.plaintextFor
  rw [hwindow]
  exact congrArg some (decodeDrop_plain hbare rfl rfl)

theorem plaintextFor_missing (hctx : ctx.WellFormed) (hslabs : packSlabs H ctx.drops = some slabs)
    (hcount : slabs.length < u32Limit)
    (hviews : List.Forall₂ (fun s view => parseSlab s.bytes = .ok view) slabs views)
    {id : Digest} (hmissing : ∀ d ∈ localDrops ctx.drops, d.id ≠ id) (table : DictTable) :
    (⟨views, table⟩ : SlabStore).locateWindow id = none := by
  rw [Option.eq_none_iff_forall_ne_some]
  intro found hfound
  obtain ⟨d, hd, hid⟩ := stored_of_locateWindow hctx hslabs hcount hviews hfound
  exact hmissing d hd hid

/-- **A slice over a drop without a dictionary is answered alike**, also where no drop is there. -/
theorem sameRange_stored (hz : z.Lawful) (hctx : ctx.WellFormed)
    (hslabs : packSlabs H ctx.drops = some slabs) (hcount : slabs.length < u32Limit)
    (hviews : List.Forall₂ (fun s view => parseSlab s.bytes = .ok view) slabs views)
    (hpacked : PackedFrom H z texts ctx) (htexts : NoCollision H texts)
    (hnames : NoCollision H (⟨views, fun _ => none⟩ : SlabStore).frameNames) (table : DictTable)
    {slice : SliceRef} (hcovers : ∃ p ∈ texts, H p = slice.dropId ∧ slice.span = p.length)
    (hbare : ∀ d ∈ localDrops ctx.drops, d.id = slice.dropId → d.dictId = noDict) :
    SameRange H z ⟨views, fun _ => none⟩ ((⟨views, table⟩ : SlabStore).plaintextFor z) slice := by
  by_cases hlocal : ∃ d ∈ localDrops ctx.drops, d.id = slice.dropId
  · obtain ⟨d, hd, hid⟩ := hlocal
    have hnone := hbare d hd hid
    obtain ⟨offset, hwindow⟩ := locateWindow_stored hctx hslabs hcount hviews (fun _ => none) hd
    have hstore := plaintextFor_bare (z := z) hctx hslabs hcount hviews hd hnone (fun _ => none)
    have hsource := plaintextFor_bare (z := z) hctx hslabs hcount hviews hd hnone table
    have hseek := SlabStore.dropIsSeekable_eq hwindow
    rw [hid] at hwindow hstore hsource hseek
    by_cases hflag : d.flags &&& dropFlagSeekable ≠ 0
    · obtain ⟨p, hp, hpacks⟩ := hpacked.drops d hd
      obtain ⟨q, hq, hname, hspan⟩ := hcovers
      obtain rfl : p = q := htexts p hp q hq (hpacks.id.trans (hid.trans hname.symm))
      obtain ⟨hlen, hshort⟩ := plaintextLen_of_loaded hctx hslabs hcount hviews hd hpacks
      obtain ⟨hcodec, t, hencoded⟩ := hpacks.container hflag hnone
      have hinv := isSeekableCodec_inverts hz hcodec t
      have hdecoded : decodeStored z d.codec d.flags d.compressed d.plaintextLen = .ok p := by
        unfold decodeStored
        rw [if_pos hflag, hlen]
        exact decodeSeekable_encodeSeekable z hinv hshort hencoded
      rw [hdecoded] at hstore hsource
      obtain ⟨footer, hfooter, hframes, hlens⟩ := frames_of_encodeSeekable hinv hshort hencoded
      have hflat := seekableFrames_flatten p
      refine sameRange_frames hnames ⟨hwindow, hfooter⟩ hframes hlens ?_ ?_ ?_ ?_ ?_
      · rw [hseek]
        exact congrArg some (decide_eq_true hflag)
      · rw [hflat, hstore]
      · rw [hflat, hsource]
      · rw [hflat, hspan]
      · rw [hflat]
        exact Nat.lt_of_lt_of_le hshort (by decide)
    · refine sameRange_whole ?_ fun p => by rw [hstore, hsource]
      rw [hseek]
      exact fun heq => hflag (of_decide_eq_true (Option.some.inj heq))
  · -- a drop of a base is in neither store
    have hmissing : ∀ d ∈ localDrops ctx.drops, d.id ≠ slice.dropId :=
      fun d hd hid => hlocal ⟨d, hd, hid⟩
    have hwindow := plaintextFor_missing hctx hslabs hcount hviews hmissing
    refine sameRange_whole ?_ fun p => ?_
    · unfold SlabStore.dropIsSeekable
      rw [hwindow]
      simp
    · unfold SlabStore.plaintextFor
      rw [hwindow, hwindow]
      exact Iff.rfl

end

end LimniFS
