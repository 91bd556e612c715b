/-
Which images and files the front ends read alike.

The virtual filesystem refuses metadata in a sidecar, and apart from that the three front ends open the
same images (`libraryOpens_iff`, `vfsOpens_iff`).  A file none of whose drops names a dictionary is read
alike by them, window by window, whatever was read before (`front_ends_agree`).
-/
import LimniFS.CatFiles
import LimniFS.PackedWindows

namespace LimniFS

open Lib Lib.Parser Cursor

/-- None of the drops of the file is kept under a dictionary. -/
def WriteContext.FileWithoutDict (ctx : WriteContext) (number : Nat) : Prop :=
  ∀ inode ∈ ctx.inodes, inode.number = number → ∀ fileLen slices,
    inode.content = .dropBacked fileLen slices → ∀ slice ∈ slices, ∀ d ∈ localDrops ctx.drops,
      d.id = slice.dropId → d.dictId = noDict

/-! ### Windows -/

theorem exists_slice_at : ∀ (slices : List SliceRef) (index start offset : Nat),
    sliceMapGap index start slices = none → start ≤ offset → offset < endOfSlices start slices →
    ∃ slice ∈ slices, slice.fileByteStart ≤ offset ∧ offset < slice.fileByteEnd := by
  intro slices
  induction slices with
  | nil =>
      intro index start offset _ hstart hend
      exact absurd hend (Nat.not_lt.mpr hstart)
  | cons slice rest ih =>
      intro index start offset hgap hstart hend
      obtain ⟨rfl, hnext⟩ := sliceMapGap_cons hgap
      by_cases hin : offset < slice.fileByteEnd
      · exact ⟨slice, List.mem_cons_self, hstart, hin⟩
      · rw [endOfSlices_cons] at hend
        obtain ⟨found, hfound, hplace⟩ := ih _ _ offset hnext (Nat.not_lt.mp hin) hend
        exact ⟨found, List.mem_cons_of_mem _ hfound, hplace⟩

section

variable {H : Hash} {z : Omnizip} {store : SlabStore} {source : SlabSource} {inode : Inode}
  {offset n maxInlineBytes : Nat} {out : Bytes}

/-- **Where its slices are answered alike, a window of a file is.**  A chain without slabs is the same
as one that finds nothing. -/
theorem readWindow_same {chain : Option SlabSource} {s : CachedSlabStore}
    (hs : CachedSlabStore.Sound H z store s)
    (hchain : chain = some source ∨ chain = none ∧ ∀ id p, source id ≠ some (.ok p))
    (hsame : ∀ map, inode.contentHandle = .sliceMap map → ∀ slice ∈ map.slices,
      SameRange H z store source slice)
    (hbounded : inode.Bounded maxInlineBytes) (hinside : offset + n ≤ inode.fileLen) :
    (∃ s', s.readWindowInto H z inode offset n = some (s', .ok out)) ↔
      readWindowInto inode chain offset n = some (.ok out) := by
  unfold CachedSlabStore.readWindowInto LimniFS.readWindowInto
  by_cases hn : n = 0
  · rw [if_pos hn, if_pos hn]
    simp
  rw [if_neg hn, if_neg hn]
  cases hhandle : inode.contentHandle with
  | inlineData data =>
      by_cases hpast : data.length ≤ offset
      · simp [hpast]
      · simp [hpast]
  | sliceMap map =>
      simp only
      rw [fillWindow_same map.slices s [] hs (hsame map hhandle)]
      rcases hchain with rfl | ⟨rfl, hnone⟩
      · exact Iff.rfl
      · -- the slice that the window starts in cannot be read
        have hlen := fileLen_slices hhandle
        have hend : windowEnd offset n = offset + n := by
          have hfit := Cat.fileLen_lt hbounded hhandle
          unfold windowEnd
          omega
        obtain ⟨slice, hslice, hstart, hstop⟩ := exists_slice_at map.slices 0 0 offset
          map.contiguous (Nat.zero_le _) (by omega)
        have hunread : ¬ Cat.Decodes source slice := hnone _ _
        obtain ⟨e, herror⟩ := Cat.fillWindow_unread (show offset < offset + n by omega)
          (show offset + n - offset ≤ n by omega) map.slices 0 0 [] map.contiguous
          ⟨slice, hslice, ⟨by omega, hstop⟩, hunread⟩ (Nat.zero_le _)
        rw [hend, herror]
        simp
  | sharedInline index => simp
  | directory hash => simp
  | symlink target => simp
  | device dev => simp
  | pipe pipeId => simp

end

/-! ### Files of an image on disk -/

section

variable {H : Hash} {z : Omnizip} {ctx : WriteContext} {a : WriteArtifact} {dir : Directory}
  {threshold : Nat} {texts : List Bytes}

/-- What the writer hands on to `assemble`: a context that is coherent, with drops and slices for
texts that the hash tells apart. -/
structure WriteContext.Written (H : Hash) (z : Omnizip) (threshold : Nat) (texts : List Bytes)
    (ctx : WriteContext) : Prop where
  wellFormed : ctx.WellFormed
  coherent : ctx.Coherent H threshold
  packed : PackedFrom H z texts ctx
  texts : NoCollision H texts
  inlined : NoCollision H (inlineContents ctx.inodes)

/-- What a reader has of a regular file. -/
theorem file_returned (hctx : ctx.Written H z threshold texts) {bytes rest : Bytes}
    {blob : MetadataBlob} (hbytes : ctx.metadataBlob H = some bytes)
    (hparse : parseMetadataBlob bytes = (.ok blob, rest)) {number offset n : Nat} {inode : Inode}
    (hfile : blob.FileWindow number offset n inode) :
    (∃ data, inode.contentHandle = .inlineData data) ∨
      ∃ pending ∈ ctx.inodes, pending.number = number ∧ ∃ fileLen slices map,
        pending.content = .dropBacked fileLen slices ∧ inode.contentHandle = .sliceMap map ∧
        List.Forall₂ SliceReturned slices map.slices := by
  obtain ⟨hmem, hnumber⟩ := inodeByNumber_mem hfile.found
  obtain ⟨pending, hpending, hback⟩ := exists_mem_of_forall₂
    (returned_of_parsed hctx.coherent hctx.inlined hbytes hparse) inode hmem
  have hregular : pending.content.fileType = sIfreg := by
    rw [← (hctx.coherent.inodes pending hpending).fileType, ← hback.mode]
    simpa [Inode.isRegular, Inode.fileType] using hfile.regular
  have hcontent := hback.content
  cases hkind : pending.content with
  | inline data =>
      rw [hkind] at hcontent
      cases hhandle : inode.contentHandle with
      | inlineData got => exact Or.inl ⟨got, rfl⟩
      | _ =>
          rw [hhandle] at hcontent
          exact hcontent.elim
  | dropBacked fileLen slices =>
      rw [hkind] at hcontent
      cases hhandle : inode.contentHandle with
      | sliceMap map =>
          rw [hhandle] at hcontent
          exact Or.inr ⟨pending, hpending, hback.number.symm.trans hnumber, fileLen, slices, map,
            hkind, rfl, hcontent⟩
      | _ =>
          rw [hhandle] at hcontent
          exact hcontent.elim
  | symlink target =>
      rw [hkind] at hregular
      exact absurd hregular (show sIflnk ≠ sIfreg by decide)
  | directory entries =>
      rw [hkind] at hregular
      exact absurd hregular (show sIfdir ≠ sIfreg by decide)

variable {front : ManifestFront} {blob : MetadataBlob} {root : Nat} {views : List SlabView}
  {dicts : Option DictionarySection} {number offset n : Nat} {inode : Inode}

/-- **A file without a dictionary is answered alike** by every store of the image's slabs, whatever
it has cached, and by the chain of the CLI. -/
theorem OpensAs.window_same (hz : z.Lawful) (haudio : z.KnowsAudio)
    (hctx : ctx.Written H z threshold texts)
    (hfits : isFilterComposite ctx.metadataCodec = true →
      ∀ bytes, ctx.metadataBlob H = some bytes → FilteredFits z bytes)
    (ha : assemble H z ctx = some a) (hdisk : a.OnDisk dir)
    (h : OpensAs z ⟨a.bytes, dir⟩ front blob root views dicts)
    (hnames : NoCollision H (⟨views, fun _ => none⟩ : SlabStore).frameNames)
    (hbare : ctx.FileWithoutDict number) (hfile : blob.FileWindow number offset n inode)
    {s : CachedSlabStore} (hs : CachedSlabStore.Sound H z ⟨views, fun _ => none⟩ s) {out : Bytes} :
    (∃ s', s.readWindowInto H z inode offset n = some (s', .ok out)) ↔
      LimniFS.readWindowInto inode (cliSource z views dicts) offset n = some (.ok out) := by
  obtain ⟨bytes, rest, hbytes, hparse⟩ := h.metadata hz haudio hfits ha hdisk.sidecar
  obtain ⟨blobBytes, hblobBytes, -⟩ := assemble_metadata ha
  obtain ⟨-, -, hslabs, -, hcount⟩ := assemble_some hblobBytes ha
  have hviews := loadSlabs_onDisk a.slabs 0 views hdisk.slab (h.sections ha).2.2
  obtain ⟨-, -, hbounds, -⟩ := parseMetadataBlob_bounded hparse
  refine @readWindow_same H z _ ((cliStore views dicts).plaintextFor z) _ _ _ _ _ _ _ hs ?_ ?_
    (hbounds inode (inodeByNumber_mem hfile.found).1) hfile.inside
  · by_cases hnil : views = []
    · refine Or.inr ⟨if_pos hnil, fun id p hp => ?_⟩
      rw [hnil] at hp
      cases hp
    · exact Or.inl (if_neg hnil)
  · intro map hmap slice hslice
    rcases file_returned hctx hbytes hparse hfile with ⟨data, hdata⟩ |
      ⟨pending, hpending, hnumber, fileLen, slices, map', hcontent, hmap', hreturned⟩
    · rw [hdata] at hmap
      cases hmap
    · rw [hmap] at hmap'
      cases hmap'
      obtain ⟨given, hgiven, hstart, hend, hid, -, -⟩ := exists_mem_of_forall₂ hreturned slice hslice
      obtain ⟨p, hp, hname, hlen⟩ :=
        hctx.packed.slices pending hpending fileLen slices hcontent given hgiven
      refine sameRange_stored hz hctx.wellFormed hslabs hcount hviews hctx.packed hctx.texts hnames _
        ⟨p, hp, hname.trans hid.symm, ?_⟩ fun d hd hsame => ?_
      · rw [SliceRef.span, hstart, hend, hlen]
      · exact hbare pending hpending hnumber fileLen slices hcontent given hgiven d hd
          (hsame.trans hid)

/-! ### What is opened and read -/

theorem CliReads.opens {image : ImageFile} {out : Bytes}
    (h : CliReads z image number offset n out) : CliOpens z image := by
  obtain ⟨loaded, stores, inode, hload, hstores, -⟩ := h
  exact ⟨loaded, stores, hload, hstores⟩

theorem libraryOpens_iff (ha : assemble H z ctx = some a) (hdisk : a.OnDisk dir) {config : ReadConfig} :
    (∃ reader, ImageReader.fromParts z a.bytes dir config = some (.ok reader)) ↔
      CliOpens z ⟨a.bytes, dir⟩ := by
  rw [cliOpens_iff]
  constructor
  · rintro ⟨reader, hreader⟩
    obtain ⟨front, blob, root, views, dicts, h, -⟩ := (fromParts_eq_ok ha hdisk).mp hreader
    exact ⟨front, blob, root, views, dicts, h⟩
  · rintro ⟨front, blob, root, views, dicts, h⟩
    exact ⟨_, (fromParts_eq_ok ha hdisk).mpr ⟨front, blob, root, views, dicts, h, rfl⟩⟩

theorem vfsOpens_iff (ha : assemble H z ctx = some a) :
    (∃ vfs, Vfs.fromBytes z a.bytes dir = .ok vfs) ↔
      CliOpens z ⟨a.bytes, dir⟩ ∧ a.metadataSidecar = none := by
  rw [cliOpens_iff]
  constructor
  · rintro ⟨vfs, hvfs⟩
    obtain ⟨front, blob, root, views, dicts, h, hinline, -⟩ :=
      (@fromBytes_eq_ok z ⟨a.bytes, dir⟩ _).mp hvfs
    exact ⟨⟨front, blob, root, views, dicts, h⟩, (h.sections ha).1.mp hinline⟩
  · rintro ⟨⟨front, blob, root, views, dicts, h⟩, hside⟩
    exact ⟨_, (@fromBytes_eq_ok z ⟨a.bytes, dir⟩ _).mpr
      ⟨front, blob, root, views, dicts, h, (h.sections ha).1.mpr hside, rfl⟩⟩

/-- If windows are answered alike, the library reads what the CLI does. -/
theorem libraryReads_iff (ha : assemble H z ctx = some a) (hdisk : a.OnDisk dir) {config : ReadConfig}
    {out : Bytes}
    (hsame : ∀ {front blob root views dicts inode s},
      OpensAs z ⟨a.bytes, dir⟩ front blob root views dicts → blob.FileWindow number offset n inode →
      CachedSlabStore.Sound H z ⟨views, fun _ => none⟩ s →
      ((∃ s', s.readWindowInto H z inode offset n = some (s', .ok out)) ↔
        LimniFS.readWindowInto inode (cliSource z views dicts) offset n = some (.ok out))) :
    LibraryReads H z ⟨a.bytes, dir⟩ config number offset n out ↔
      CliReads z ⟨a.bytes, dir⟩ number offset n out := by
  constructor
  · rintro ⟨reader, inode, hreader, hfile, hread⟩
    obtain ⟨front, blob, root, views, dicts, h, rfl⟩ := (fromParts_eq_ok ha hdisk).mp hreader
    have hsound := CachedSlabStore.sound_withFrameBudget H z ⟨views, fun _ => none⟩
      config.cacheEntries config.cacheBytes config.frameCacheBytes
    exact h.cliReads_iff.mpr ⟨inode, hfile, (hsame h hfile hsound).mp (hread [] _ rfl)⟩
  · intro hread
    obtain ⟨front, blob, root, views, dicts, h⟩ := cliOpens_iff.mp hread.opens
    obtain ⟨inode, hfile, hwindow⟩ := h.cliReads_iff.mp hread
    refine ⟨_, inode, (fromParts_eq_ok ha hdisk).mpr ⟨front, blob, root, views, dicts, h, rfl⟩, hfile,
      fun calls s hrun => ?_⟩
    have hsound := (CachedSlabStore.sound_withFrameBudget H z ⟨views, fun _ => none⟩
      config.cacheEntries config.cacheBytes config.frameCacheBytes).run calls hrun
    exact (hsame h hfile hsound).mpr hwindow

theorem vfsRead_eq_ok {vfs : Vfs} {s s' : CachedSlabStore} {out : Bytes}
    (hfile : vfs.metadataBlob.FileWindow number offset n inode)
    (hkind : (∃ data, inode.contentHandle = .inlineData data) ∨
      ∃ map, inode.contentHandle = .sliceMap map) :
    vfs.read H z s number offset n = some (s', .ok out) ↔
      s.readWindowInto H z inode offset n = some (s', .ok out) := by
  have hmap : (s.readWindowInto H z inode offset n).map (fun p => (p.1, p.2.mapError VfsError.core))
      = some (s', .ok out) ↔ s.readWindowInto H z inode offset n = some (s', .ok out) := by
    rcases s.readWindowInto H z inode offset n with _ | ⟨mid, e | got⟩
    · simp
    · simp [Except.mapError]
    · simp [Except.mapError]
  unfold Vfs.read
  rw [hfile.found]
  rcases hkind with ⟨data, hdata⟩ | ⟨map, hslices⟩
  · simp only [hdata]
    exact hmap
  · simp only [hslices]
    exact hmap

/-- If windows are answered alike, the virtual filesystem reads what the CLI does, where it opens. -/
theorem vfsReads_iff (ha : assemble H z ctx = some a) {out : Bytes}
    (hkind : ∀ {front blob root views dicts inode},
      OpensAs z ⟨a.bytes, dir⟩ front blob root views dicts → blob.FileWindow number offset n inode →
      (∃ data, inode.contentHandle = .inlineData data) ∨ ∃ map, inode.contentHandle = .sliceMap map)
    (hsame : ∀ {front blob root views dicts inode s},
      OpensAs z ⟨a.bytes, dir⟩ front blob root views dicts → blob.FileWindow number offset n inode →
      CachedSlabStore.Sound H z ⟨views, fun _ => none⟩ s →
      ((∃ s', s.readWindowInto H z inode offset n = some (s', .ok out)) ↔
        LimniFS.readWindowInto inode (cliSource z views dicts) offset n = some (.ok out))) :
    VfsReads H z ⟨a.bytes, dir⟩ number offset n out ↔
      CliReads z ⟨a.bytes, dir⟩ number offset n out ∧ a.metadataSidecar = none := by
  constructor
  · rintro ⟨vfs, inode, hvfs, hfile, hread⟩
    obtain ⟨front, blob, root, views, dicts, h, hinline, rfl⟩ :=
      (@fromBytes_eq_ok z ⟨a.bytes, dir⟩ _).mp hvfs
    have hsound := CachedSlabStore.sound_withFrameBudget H z ⟨views, fun _ => none⟩
      defaultCacheCapacity defaultCacheBytes defaultFrameCacheBytes
    obtain ⟨s', hs'⟩ := hread [] _ rfl
    have hwindow := (hsame h hfile hsound).mp ⟨s', (vfsRead_eq_ok hfile (hkind h hfile)).mp hs'⟩
    exact ⟨h.cliReads_iff.mpr ⟨inode, hfile, hwindow⟩, (h.sections ha).1.mp hinline⟩
  · rintro ⟨hread, hside⟩
    obtain ⟨front, blob, root, views, dicts, h⟩ := cliOpens_iff.mp hread.opens
    obtain ⟨inode, hfile, hwindow⟩ := h.cliReads_iff.mp hread
    refine ⟨_, inode, (@fromBytes_eq_ok z ⟨a.bytes, dir⟩ _).mpr
      ⟨front, blob, root, views, dicts, h, (h.sections ha).1.mpr hside, rfl⟩, hfile,
      fun calls s hrun => ?_⟩
    have hsound := (CachedSlabStore.sound_withFrameBudget H z ⟨views, fun _ => none⟩
      defaultCacheCapacity defaultCacheBytes defaultFrameCacheBytes).run calls hrun
    obtain ⟨s', hs'⟩ := (hsame h hfile hsound).mpr hwindow
    exact ⟨s', (vfsRead_eq_ok hfile (hkind h hfile)).mpr hs'⟩

/-- A file without dictionaries is read alike, if what opens was written. -/
theorem reads_alike (hz : z.Lawful) (haudio : z.KnowsAudio)
    (hctx : CliOpens z ⟨a.bytes, dir⟩ → ctx.Written H z threshold texts)
    (hfits : isFilterComposite ctx.metadataCodec = true →
      ∀ bytes, ctx.metadataBlob H = some bytes → FilteredFits z bytes)
    (ha : assemble H z ctx = some a) (hdisk : a.OnDisk dir)
    (hnames : ∀ views, loadSlabs dir 0 (slabIndexOf a.slabs).entries = .ok views →
      NoCollision H (⟨views, fun _ => none⟩ : SlabStore).frameNames) (config : ReadConfig)
    (hbare : ctx.FileWithoutDict number) (offset n : Nat) (out : Bytes) :
    (LibraryReads H z ⟨a.bytes, dir⟩ config number offset n out ↔
      CliReads z ⟨a.bytes, dir⟩ number offset n out) ∧
    (VfsReads H z ⟨a.bytes, dir⟩ number offset n out ↔
      CliReads z ⟨a.bytes, dir⟩ number offset n out ∧ a.metadataSidecar = none) := by
  have hwritten : ∀ {front blob root views dicts},
      OpensAs z ⟨a.bytes, dir⟩ front blob root views dicts → ctx.Written H z threshold texts :=
    fun h => hctx (cliOpens_iff.mpr ⟨_, _, _, _, _, h⟩)
  have hsame : ∀ {front blob root views dicts inode s},
      OpensAs z ⟨a.bytes, dir⟩ front blob root views dicts → blob.FileWindow number offset n inode →
      CachedSlabStore.Sound H z ⟨views, fun _ => none⟩ s →
      ((∃ s', s.readWindowInto H z inode offset n = some (s', .ok out)) ↔
        LimniFS.readWindowInto inode (cliSource z views dicts) offset n = some (.ok out)) :=
    fun h hfile hs => h.window_same hz haudio (hwritten h) hfits ha hdisk
      (hnames _ (h.sections ha).2.2) hbare hfile hs
  refine ⟨libraryReads_iff ha hdisk hsame, vfsReads_iff ha (fun h hfile => ?_) hsame⟩
  obtain ⟨bytes, rest, hbytes, hparse⟩ := h.metadata hz haudio hfits ha hdisk.sidecar
  rcases file_returned (hwritten h) hbytes hparse hfile with hinline | ⟨-, -, -, -, -, map, -, hmap, -⟩
  · exact Or.inl hinline
  · exact Or.inr ⟨map, hmap⟩

/--
**The front ends agree, but for sidecars and dictionaries.**  Of an image on disk, and with any cache,
the library opens what the CLI opens, and the virtual filesystem what of it has its metadata inlined.
A window of a regular file without dictionaries is read alike by all that open the image: where one
reads it, whatever was read before, so do the others, and the same bytes.
-/
theorem front_ends_agree (hz : z.Lawful) (haudio : z.KnowsAudio)
    (hctx : ctx.Written H z threshold texts)
    (hfits : isFilterComposite ctx.metadataCodec = true →
      ∀ bytes, ctx.metadataBlob H = some bytes → FilteredFits z bytes)
    (ha : assemble H z ctx = some a) (hdisk : a.OnDisk dir)
    (hnames : ∀ views, loadSlabs dir 0 (slabIndexOf a.slabs).entries = .ok views →
      NoCollision H (⟨views, fun _ => none⟩ : SlabStore).frameNames) (config : ReadConfig) :
    ((∃ reader, ImageReader.fromParts z a.bytes dir config = some (.ok reader)) ↔
      CliOpens z ⟨a.bytes, dir⟩) ∧
    ((∃ vfs, Vfs.fromBytes z a.bytes dir = .ok vfs) ↔
      CliOpens z ⟨a.bytes, dir⟩ ∧ a.metadataSidecar = none) ∧
    ∀ number, ctx.FileWithoutDict number → ∀ offset n out,
      (LibraryReads H z ⟨a.bytes, dir⟩ config number offset n out ↔
        CliReads z ⟨a.bytes, dir⟩ number offset n out) ∧
      (VfsReads H z ⟨a.bytes, dir⟩ number offset n out ↔
        CliReads z ⟨a.bytes, dir⟩ number offset n out ∧ a.metadataSidecar = none) := by
  refine ⟨libraryOpens_iff ha hdisk, vfsOpens_iff ha, fun number hbare offset n out => ?_⟩
  exact reads_alike hz haudio (fun _ => hctx) hfits ha hdisk hnames config hbare offset n out

end

namespace Stored

theorem omnizip_knowsAudio : omnizip.KnowsAudio where
  wav x params h := by
    show x.take 4 = ascii "RIFF"
    by_contra hne
    have hnone : parseWav x = none := if_neg fun hall => hne hall.1
    have hsome : parseWav x = some params := h
    rw [hnone] at hsome
    cases hsome
  aiff x params h := by cases h

theorem thresholdTree_written (threshold : Nat) :
    (thresholdTree threshold).Written foldDigest omnizip 0 [ascii "abcd"] where
  wellFormed := thresholdTree_wellFormed threshold
  coherent :=
    { numbers := by
        show [1, 2].Nodup
        decide
      inodes := by
        intro inode hinode
        rcases List.mem_cons.mp hinode with rfl | hinode
        · exact ⟨by decide, by decide, by decide, by decide, by decide, by decide, trivial⟩
        · obtain rfl := List.mem_singleton.mp hinode
          exact ⟨by decide, by decide, by decide, by decide, by decide, by decide,
            4, by decide, rfl, by decide, rfl⟩
      xattrs := by
        intro inode hinode x hx
        rcases List.mem_cons.mp hinode with rfl | hinode
        · cases hx
        · obtain rfl := List.mem_singleton.mp hinode
          cases hx
      nlink := by
        intro inode hinode
        show 1 < u32Limit
        decide
      nodes := by
        intro node hnode
        obtain rfl := List.mem_singleton.mp hnode
        refine ⟨rfl, ?_, List.pairwise_singleton _ _⟩
        intro e he
        obtain rfl := List.mem_singleton.mp he
        exact ⟨by decide, by decide, by decide, rfl, by decide, by decide⟩ }
  packed :=
    { drops := by
        intro d hd
        obtain ⟨hd, -⟩ := List.mem_filter.mp hd
        obtain rfl := List.mem_singleton.mp hd
        exact ⟨_, List.mem_singleton_self _, rfl, rfl, fun hflag => (hflag UInt8.zero_and).elim⟩
      slices := by
        intro inode hinode fileLen slices hcontent slice hslice
        rcases List.mem_cons.mp hinode with rfl | hinode
        · cases hcontent
        · obtain rfl := List.mem_singleton.mp hinode
          cases hcontent
          obtain rfl := List.mem_singleton.mp hslice
          exact ⟨_, List.mem_singleton_self _, rfl, rfl⟩ }
  texts := by decide
  inlined := by
    intro x hx
    cases hx

end Stored

open LimniFS.Stored

/-- **Metadata in a sidecar is refused by the virtual filesystem only.** -/
theorem sidecar_opened_apart :
    (thresholdTree 0).Written foldDigest omnizip 0 [ascii "abcd"] ∧
      assemble foldDigest omnizip (thresholdTree 0)
        = some (thresholdImage 0) ∧
      (thresholdImage 0).OnDisk (filesOf (thresholdImage 0)) ∧
      ∀ config, ¬ FrontEndsAgree foldDigest omnizip
        ⟨(thresholdImage 0).bytes, filesOf (thresholdImage 0)⟩ config := by
  have ha : assemble foldDigest omnizip (thresholdTree 0)
      = some (thresholdImage 0) := assemble_thresholdTree (by decide +kernel)
  have hdisk := @onDisk_filesOf (thresholdImage 0) (by decide +kernel)
    (by decide +kernel)
  have hsidecar : (thresholdImage 0).metadataSidecar.isSome = true := by decide +kernel
  obtain ⟨stores, hstores⟩ := @exists_eq_ok _ _ (do
      let loaded ← loadImage omnizip
        ⟨(thresholdImage 0).bytes, filesOf (thresholdImage 0)⟩
      loadSlabChain omnizip
        ⟨(thresholdImage 0).bytes, filesOf (thresholdImage 0)⟩ loaded [])
    (by decide +kernel)
  generalize thresholdImage 0 = a at ha hdisk hsidecar hstores ⊢
  obtain ⟨loaded, hload, hchain⟩ := except_bind_eq_ok.mp hstores
  refine ⟨thresholdTree_written 0, ha, hdisk, fun config hagree => ?_⟩
  have hvfs := hagree.vfsOpens.mpr ⟨loaded, stores, hload, hchain⟩
  rw [((vfsOpens_iff ha).mp hvfs).2] at hsidecar
  cases hsidecar

/-- The same tree with its metadata inlined: the file is read alike by all. -/
theorem front_ends_agree_inlined :
    (thresholdImage 4096).metadataSidecar = none ∧ ∀ config offset n out,
      (LibraryReads foldDigest omnizip
          ⟨(thresholdImage 4096).bytes, filesOf (thresholdImage 4096)⟩
          config 2 offset n out ↔
        CliReads omnizip
          ⟨(thresholdImage 4096).bytes, filesOf (thresholdImage 4096)⟩
          2 offset n out) ∧
      (VfsReads foldDigest omnizip
          ⟨(thresholdImage 4096).bytes, filesOf (thresholdImage 4096)⟩
          2 offset n out ↔
        CliReads omnizip
          ⟨(thresholdImage 4096).bytes, filesOf (thresholdImage 4096)⟩
          2 offset n out ∧ (thresholdImage 4096).metadataSidecar = none) := by
  have ha : assemble foldDigest omnizip (thresholdTree 4096)
      = some (thresholdImage 4096) := assemble_thresholdTree (by decide +kernel)
  have hdisk := @onDisk_filesOf (thresholdImage 4096) (by decide +kernel)
    (by decide +kernel)
  have hnames : (loadSlabs (filesOf (thresholdImage 4096)) 0
      (slabIndexOf (thresholdImage 4096).slabs).entries).map
        (fun views => SlabStore.frameNames ⟨views, fun _ => none⟩) = .ok [] := by decide +kernel
  refine ⟨by decide +kernel, fun config offset n out => ?_⟩
  obtain ⟨-, -, hreads⟩ := front_ends_agree omnizip_lawful omnizip_knowsAudio
    (thresholdTree_written 4096) (fun hcomposite => absurd hcomposite (by decide +kernel)) ha
    hdisk (fun views hviews => by
      rw [hviews] at hnames
      have hnil := Except.ok.inj hnames
      simp only at hnil
      rw [hnil]
      intro x hx
      cases hx) config
  refine hreads 2 (fun inode _ _ fileLen slices _ slice _ d hd _ => ?_) offset n out
  obtain rfl := List.mem_singleton.mp (List.mem_filter.mp hd).1
  rfl

end LimniFS
