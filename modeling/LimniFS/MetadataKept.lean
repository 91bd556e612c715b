/-
What the readers find of an image that was written.

The writer inlines contents up to a threshold of its own, and the reader refuses those above its
ceiling.  A blob that the reader takes all the same is one that a reader with a higher ceiling
takes, with the same inodes (`parseMetadataBlob_lenient`); so whatever the writer's threshold, what
the reader gets out of a blob is what the writer put into it (`returned_of_parsed`).

An image that was packed and loaded has each of its local drops under its id, with the bytes that
were kept of it, and nothing else (`locateWindow_stored`, `stored_of_locateWindow`).  So what a reader
makes of an id is what it makes of that drop.

The metadata of an image is compressed by the codec of the configuration, and most codecs give back
what they were given.  FLAC gives back samples only, so an image with FLAC for its metadata would be
read wrongly if FLAC ever took a metadata blob for audio.  It does not: the blob begins with the number
of its inodes, and the number that `RIFF` or `FORM` stands for is of more inodes than fit.  So what a
front end reads of an image is the blob of the writer, inlined or not (`OpensAs.metadata`), with the
dictionaries behind the history (`OpensAs.dictionaries`).
-/
import LimniFS.Lib.ParserRules
import LimniFS.MetadataRoundTrip
import LimniFS.FrontEnds

namespace LimniFS

open Lib Lib.Parser Cursor

/-! ### A lower ceiling refuses more -/

section

variable {low high : Nat}

theorem parseContentHandle_lenient (h : low ≤ high) (mode : Nat) (flags : UInt8) (number : Nat) :
    Lenient (parseContentHandle mode flags number low) (parseContentHandle mode flags number high) := by
  unfold parseContentHandle
  refine Lenient.ite (Lenient.ite (Lenient.refl _) (Lenient.ite ?_ (Lenient.refl _)))
    (Lenient.refl _)
  refine Lenient.after _ fun inlineLen => ?_
  exact (lenient_ensure fun hlen => Nat.le_trans hlen h).bind fun _ => Lenient.refl _

theorem parseInode_lenient (h : low ≤ high) :
    Lenient (parseInodeWithCeiling low) (parseInodeWithCeiling high) := by
  unfold parseInodeWithCeiling
  refine Lenient.after _ fun number => Lenient.after _ fun mode => Lenient.after _ fun _ => ?_
  refine Lenient.after _ fun _ => Lenient.after _ fun _ => Lenient.after _ fun _ => ?_
  refine Lenient.after _ fun _ => Lenient.after _ fun flags => Lenient.after _ fun _ => ?_
  have hcontent : ∀ make : ContentHandle → Inode,
      Lenient (parseContentHandle mode flags number low >>= fun content => pure (make content))
        (parseContentHandle mode flags number high >>= fun content => pure (make content)) :=
    fun _ => (parseContentHandle_lenient h mode flags number).bind fun _ => Lenient.refl _
  -- an access time and attributes are read if the flags say so
  refine Lenient.ite ?_ ?_
  all_goals
    refine Lenient.after _ fun _ => ?_
    exact Lenient.ite (Lenient.after _ fun _ => hcontent _) (Lenient.after _ fun _ => hcontent _)

theorem parseSharedInline_lenient (h : low ≤ high) (i : Nat) (table : List Bytes) :
    Lenient (parseSharedInline low i table) (parseSharedInline high i table) := by
  unfold parseSharedInline
  refine Lenient.after _ fun dataLen => ?_
  exact (lenient_ensure fun hlen => Nat.le_trans hlen h).bind fun _ => Lenient.refl _

theorem parseSharedTable_lenient (h : low ≤ high) (inodes : List Inode) :
    Lenient (parseSharedTable low inodes) (parseSharedTable high inodes) := by
  intro bs out rest hout
  unfold parseSharedTable at hout ⊢
  by_cases hbs : 4 ≤ bs.length
  · rw [if_pos hbs] at hout ⊢
    refine Lenient.after _ (fun sharedCount => ?_) _ _ _ hout
    exact (Lenient.loop (parseSharedInline_lenient h) _ _ _).bind fun _ => Lenient.refl _
  · rw [if_neg hbs] at hout ⊢
    exact hout

theorem parseInodes_lenient (h : low ≤ high) (i : Nat) (inodes : List Inode) :
    Lenient (parseInodes low i inodes) (parseInodes high i inodes) := by
  unfold parseInodes
  exact (parseInode_lenient h).bind fun _ => Lenient.refl _

/-- **A blob that a reader takes is taken under any higher ceiling**, with the same inodes. -/
theorem parseMetadataBlob_lenient (h : low ≤ high) :
    Lenient (parseMetadataBlobWithCeiling low) (parseMetadataBlobWithCeiling high) := by
  unfold parseMetadataBlobWithCeiling
  refine Lenient.after _ fun inodeCount => Lenient.after _ fun _ => ?_
  refine (Lenient.loop (parseInodes_lenient h) _ _ _).bind fun inodes => ?_
  refine Lenient.after _ fun _ => Lenient.after _ fun _ => Lenient.after _ fun _ => ?_
  exact (parseSharedTable_lenient h inodes).bind fun _ => Lenient.refl _

end

/-! ### What a reader gets -/

theorem PendingContent.Valid.mono {low high : Nat} {content : PendingContent} (h : low ≤ high)
    (hvalid : content.Valid low) : content.Valid high := by
  cases content with
  | inline data => exact Nat.le_trans hvalid h
  | symlink target => exact hvalid
  | dropBacked fileLen slices => exact hvalid
  | directory entries => exact hvalid

section

variable {H : Hash} {ctx : WriteContext}

theorem WriteContext.Coherent.mono {low high : Nat} (h : low ≤ high) (hctx : ctx.Coherent H low) :
    ctx.Coherent H high where
  numbers := hctx.numbers
  inodes inode hinode :=
    { hctx.inodes inode hinode with content := (hctx.inodes inode hinode).content.mono h }
  xattrs := hctx.xattrs
  nlink := hctx.nlink
  nodes := hctx.nodes

/-- **What the reader takes is what the writer put there**, whatever the threshold of the writer. -/
theorem returned_of_parsed {threshold : Nat} {bytes rest : Bytes} {blob : MetadataBlob}
    (hctx : ctx.Coherent H threshold) (hcol : NoCollision H (inlineContents ctx.inodes))
    (hbytes : ctx.metadataBlob H = some bytes) (hparse : parseMetadataBlob bytes = (.ok blob, rest)) :
    List.Forall₂ (InodeReturned (ContentReturned H) ctx) ctx.inodes blob.inodes := by
  have hhigh := hctx.mono (Nat.le_max_left threshold defaultInlineDataMaxBytes)
  obtain ⟨resolved, hresolved, hread⟩ := parseMetadataBlob_apply hhigh hcol hbytes
  have hsame := parseMetadataBlob_lenient (Nat.le_max_right threshold defaultInlineDataMaxBytes)
    bytes blob rest hparse
  rw [hread] at hsame
  cases hsame
  exact hresolved

end

/-! ### The drops of a loaded image -/

section

variable {H : Hash} {ctx : WriteContext} {slabs : List SlabArtifact} {views : List SlabView}

theorem keeps_of_packed (hctx : ctx.WellFormed) (hslabs : packSlabs H ctx.drops = some slabs)
    (hcount : slabs.length < u32Limit)
    (hviews : List.Forall₂ (fun s view => parseSlab s.bytes = .ok view) slabs views)
    {d : PendingDrop} (hd : d ∈ localDrops ctx.drops) :
    ∃ view ∈ views, ∃ r ∈ view.dropRecords, view.Keeps r d := by
  rw [← slabGroups_flatten] at hd
  obtain ⟨group, hgroup, hin⟩ := List.mem_flatten.mp hd
  have hlen : ∀ e ∈ group, e.plaintextLen < u32Limit := by
    intro e he
    have hmem : e ∈ (slabGroups ctx.drops).flatten := List.mem_flatten.mpr ⟨group, hgroup, he⟩
    rw [slabGroups_flatten] at hmem
    exact hctx.plaintextLen e (List.mem_of_mem_filter hmem)
  obtain ⟨slab, hslab, o, ho, henc⟩ :=
    exists_mem_of_forall₂ (encodeSlabs_groups _ _ _ hslabs) group hgroup
  obtain ⟨view, hview, hparse⟩ := exists_mem_of_forall₂ hviews.flip slab hslab
  have hord : o < 2 ^ 64 := by
    unfold u32Limit at hcount
    omega
  obtain ⟨r, hr, hkeeps⟩ := exists_mem_of_forall₂ (keeps_of_encodeSlab hord hlen henc hparse) d hin
  exact ⟨view, hview, r, hr, hkeeps⟩

/-- **A local drop is found under its id**, with the bytes that were kept of it. -/
theorem locateWindow_stored (hctx : ctx.WellFormed) (hslabs : packSlabs H ctx.drops = some slabs)
    (hcount : slabs.length < u32Limit)
    (hviews : List.Forall₂ (fun s view => parseSlab s.bytes = .ok view) slabs views)
    (table : DictTable) {d : PendingDrop} (hd : d ∈ localDrops ctx.drops) :
    ∃ offset, (⟨views, table⟩ : SlabStore).locateWindow d.id
      = some (d.compressed, d.record offset) := by
  obtain ⟨view, hview, r, hr, hrecord, hwindow⟩ := keeps_of_packed hctx hslabs hcount hviews hd
  have hfind := SlabStore.find_of_nodup ⟨views, table⟩ (views_nodup hctx hslabs hcount hviews)
    hview hr
  have hid : r.dropId = d.id := by
    rw [hrecord]
    rfl
  refine ⟨r.offsetInWindow, ?_⟩
  rw [hid] at hfind
  unfold SlabStore.locateWindow
  rw [hfind]
  simp only
  rw [hwindow, ← hrecord]
  rfl

/-- **Nothing else is found.** -/
theorem stored_of_locateWindow (hctx : ctx.WellFormed) (hslabs : packSlabs H ctx.drops = some slabs)
    (hcount : slabs.length < u32Limit)
    (hviews : List.Forall₂ (fun s view => parseSlab s.bytes = .ok view) slabs views)
    {table : DictTable} {id : Digest} {found : Bytes × DropRecord}
    (h : (⟨views, table⟩ : SlabStore).locateWindow id = some found) :
    ∃ d ∈ localDrops ctx.drops, d.id = id := by
  unfold SlabStore.locateWindow at h
  split at h
  · cases h
  · next view r hfind =>
      obtain ⟨hview, hr, rfl⟩ := SlabStore.find_some hfind
      obtain ⟨slab, hslab, hparse⟩ := exists_mem_of_forall₂ hviews view hview
      have hmem : r.dropId ∈ slab.dropIds := by
        rw [← parseSlab_packed hslabs hcount hctx.plaintextLen hslab hparse]
        exact List.mem_map_of_mem hr
      have hids : r.dropId ∈ slabs.flatMap (·.dropIds) := List.mem_flatMap.mpr ⟨slab, hslab, hmem⟩
      rw [packSlabs_dropIds hslabs] at hids
      obtain ⟨d, hd, hid⟩ := List.mem_map.mp hids
      exact ⟨d, hd, hid⟩

end

/-- Audio is told by its first four bytes. -/
structure Omnizip.KnowsAudio (z : Omnizip) : Prop where
  wav : ∀ x params, z.parseWav x = some params → x.take 4 = ascii "RIFF"
  aiff : ∀ x params, z.parseAiff x = some params → x.take 4 = ascii "FORM"

section

variable {H : Hash} {z : Omnizip} {ctx : WriteContext} {blob : Bytes}

/-! ### The blob and its codec -/

theorem metadataBlob_count (h : ctx.metadataBlob H = some blob) :
    blob.take 4 = leBytes 4 ctx.inodes.length ∧ ctx.inodes.length < u32Limit ∧
      ctx.inodes.length * 8 ≤ blob.length := by
  simp only [WriteContext.metadataBlob, Option.bind_eq_bind, Option.bind_eq_some_iff,
    Option.pure_def, Option.some.injEq, u32Bytes_eq_some] at h
  obtain ⟨_, ⟨hcount, rfl⟩, encs, hencs, _, -, shared, -, rfl⟩ := h
  have hall := mapM_some_iff.mp hencs
  have hlong : ∀ enc ∈ encs, 8 ≤ enc.length := by
    refine forall_mem_of_forall₂ hall.flip (fun _ _ => trivial) ?_
    rintro enc inode henc -
    simp only [WriteContext.encodeInode, Option.bind_eq_bind, Option.bind_eq_some_iff,
      Option.pure_def, Option.some.injEq] at henc
    obtain ⟨content, -, rfl⟩ := henc
    simp only [List.length_append, leBytes_length]
    omega
  have hroom := @flatMap_length_ge Bytes id 8 encs hlong
  rw [List.flatMap_id, ← hall.length_eq] at hroom
  refine ⟨?_, hcount, ?_⟩
  · simp only [List.append_assoc]
    rw [List.take_left' (leBytes_length 4 _)]
  · simp only [List.length_append]
    omega

/-- **FLAC does not take metadata for audio.** -/
theorem flac_refuses_metadata (haudio : z.KnowsAudio) (h : ctx.metadataBlob H = some blob)
    (hlen : blob.length < u32Limit) (c : Bytes) : flacCompress z blob ≠ .ok c := by
  intro hok
  obtain ⟨params, pcm, hpayload⟩ := flac_payload_of_ok hok
  obtain ⟨hhead, hcount, hroom⟩ := metadataBlob_count h
  have htag : blob.take 4 = ascii "RIFF" ∨ blob.take 4 = ascii "FORM" := by
    unfold flacPayload at hpayload
    split at hpayload
    · cases hpayload
    · next params hparse =>
        rcases Option.or_eq_some_iff.mp hparse with hwav | ⟨-, haiff⟩
        · exact Or.inl (haudio.wav _ _ hwav)
        · exact Or.inr (haudio.aiff _ _ haiff)
  -- the number of inodes that the tag stands for
  have hmany : ctx.inodes.length = leNat (ascii "RIFF") ∨ ctx.inodes.length = leNat (ascii "FORM") := by
    rw [hhead] at htag
    rcases htag with htag | htag
    · exact Or.inl (by rw [← htag, leNat_leBytes hcount])
    · exact Or.inr (by rw [← htag, leNat_leBytes hcount])
  have hriff : leNat (ascii "RIFF") = 1179011410 := by decide
  have hform : leNat (ascii "FORM") = 1297239878 := by decide
  unfold u32Limit at hlen
  omega

/-- **Metadata is given back**, whatever its codec. -/
theorem decodeInlineBlob_onWire (hz : z.Lawful) (haudio : z.KnowsAudio)
    (h : ctx.metadataBlob H = some blob) (hlen : blob.length < u32Limit)
    (hfits : isFilterComposite ctx.metadataCodec = true → FilteredFits z blob) :
    decodeInlineBlob z (metadataOnWire z ctx.metadataCodec blob).1
      (metadataOnWire z ctx.metadataCodec blob).2 blob.length = .ok blob := by
  unfold metadataOnWire
  simp only
  by_cases hshort : (compressMetadata z ctx.metadataCodec blob).length < blob.length
  · rw [if_pos hshort]
    have hstore : ctx.metadataCodec ≠ codecStore := by
      intro hstore
      have hsame : compressMetadata z codecStore blob = blob := rfl
      rw [hstore, hsame] at hshort
      omega
    have hflac : ctx.metadataCodec ≠ codecFlac := by
      intro hflac
      have hfail : compressMetadata z codecFlac blob = blob := by
        unfold compressMetadata
        simp only
        rw [if_neg (show ¬ codecFlac = codecBrotli by decide)]
        rcases hcall : compress z codecFlac blob with e | c
        · rfl
        · have hcall' : codecCall (flacCompress z blob) = .ok c := hcall
          rcases hflac : flacCompress z blob with e | c'
          · rw [hflac] at hcall'
            rcases e with e | text
            · cases hcall'
            · cases hcall'
          · exact absurd hflac (flac_refuses_metadata haudio h hlen c')
      rw [hflac, hfail] at hshort
      omega
    unfold decodeInlineBlob
    rw [if_neg hstore, decompress_compressMetadata hz hflac hfits hshort]
    simp only [saturateU32_of_lt hlen]
    rw [if_neg (fun hne => hne rfl)]
  · rw [if_neg hshort]
    unfold decodeInlineBlob
    rw [if_pos rfl]

/-! ### An image that was written -/

variable {a : WriteArtifact} {dir : Directory} {front : ManifestFront} {read : MetadataBlob}
  {root : Nat} {views : List SlabView} {dicts : Option DictionarySection}

/-- What the parsers find in an image that was written. -/
theorem OpensAs.sections (ha : assemble H z ctx = some a)
    (h : OpensAs z ⟨a.bytes, dir⟩ front read root views dicts) :
    (front.metadataReference.inlineMetadata.isSome = true ↔ a.metadataSidecar = none) ∧
      dicts = trailingDictionaries (historyBytes .build ++ ctx.trailer) ∧
      loadSlabs dir 0 (slabIndexOf a.slabs).entries = .ok views := by
  obtain ⟨blob, hblob, hside⟩ := assemble_metadata ha
  obtain ⟨hbytes, -, hslabs, hlen, hcount⟩ := assemble_some hblob ha
  obtain ⟨rest, blobBytes, blobRest, index, rest', hfront, -, -, hindex, hviews, hdicts⟩ := h.parses
  rw [hbytes] at hfront
  obtain ⟨hrefers, -, -, -, -, rfl⟩ := parseManifestFront_assembled hlen hfront
  rw [reads_parseSlabIndex (writable_slabIndexOf hslabs hcount)] at hindex
  cases hindex
  refine ⟨?_, hdicts, hviews⟩
  rw [hrefers.inlined, ← hside, Option.isNone_iff_eq_none]

/-- **The dictionaries of an image that was written**, as they are put in. -/
theorem OpensAs.dictionaries (ha : assemble H z ctx = some a)
    (h : OpensAs z ⟨a.bytes, dir⟩ front read root views dicts) :
    dicts.elim (fun _ => none) installDicts
      = imageDictTable ctx.trainedDicts (ctx.baseRoot.elim [] deltaLinkageBytes) := by
  obtain ⟨-, rfl, -⟩ := h.sections ha
  rw [trailingDictionaries_history]
  unfold imageDictTable
  simp only
  rw [← WriteContext.trailer]
  by_cases hnil : ctx.trailer = []
  · rw [if_pos hnil, hnil]
    rfl
  · rw [if_neg hnil]
    rcases parseDictionarySection ctx.trailer with ⟨e | d, rest⟩
    · rfl
    · rfl

/-- **A reference that was written leads to its metadata**, inlined or in a sidecar. -/
theorem metadataBytes_assembled (hz : z.Lawful) (haudio : z.KnowsAudio)
    (hblob : ctx.metadataBlob H = some blob) (hlen : blob.length < u32Limit)
    (hfits : isFilterComposite ctx.metadataCodec = true → FilteredFits z blob)
    {ref : MetadataReference}
    (href : Reads (parseMetadataReference z) (assembledReference H z ctx blob) ref)
    (hdisk : ∀ m ∈ metadataSidecarFor H ctx.metadataExternalizeThreshold
      (metadataOnWire z ctx.metadataCodec blob).2,
      ∃ name, localSidecarName m.locator = .ok name ∧ dir name = some m.bytes) :
    metadataBytes z dir ref = .ok blob := by
  have hdecoded := decodeInlineBlob_onWire hz haudio hblob hlen hfits
  have hreadable := metadataReadable_of_ok (H := H) hlen (href [])
  unfold assembledReference at href
  unfold metadataSidecarFor at href hdisk
  simp only at href
  by_cases hext : ctx.metadataExternalizeThreshold < (metadataOnWire z ctx.metadataCodec blob).2.length
  · rw [if_pos hext] at href hdisk
    have hwritten := @reads_parseMetadataReference_external z (hashSection H blob) blob.length
      (metadataOnWire z ctx.metadataCodec blob).1 hlen _
      (fileUri_metadataLocator H (metadataOnWire z ctx.metadataCodec blob).2)
    have hsame := (@Reads.det _ _ _ _ _ [] [] _ _ href hwritten rfl).2.1
    obtain ⟨name, hname, hfile⟩ := hdisk _ rfl
    rw [hsame, metadataBytes, readExternalMetadata]
    simp only [hname, hfile]
    unfold decodeInlineBlob at hdecoded
    by_cases hstore : (metadataOnWire z ctx.metadataCodec blob).1 = codecStore
    · rw [if_pos hstore] at hdecoded ⊢
      exact hdecoded
    · rw [if_neg hstore] at hdecoded ⊢
      split at hdecoded
      · cases hdecoded
      · next raw hraw =>
          simp only at hdecoded
          split at hdecoded
          · cases hdecoded
          · cases hdecoded
            exact hraw
  · rw [if_neg hext] at href
    obtain ⟨hpos, hceil, -⟩ := hreadable.resolve_left hext
    have hwritten := @reads_parseMetadataReference_inline z (hashSection H blob) blob.length _ hlen
      _ _ hpos hceil hdecoded
    have hsame := (@Reads.det _ _ _ _ _ [] [] _ _ href hwritten rfl).2.1
    rw [hsame, metadataBytes]

/-- **The metadata of an image is the blob of the writer**, if its sidecar is there. -/
theorem OpensAs.metadata (hz : z.Lawful) (haudio : z.KnowsAudio)
    (hfits : isFilterComposite ctx.metadataCodec = true →
      ∀ blob, ctx.metadataBlob H = some blob → FilteredFits z blob)
    (ha : assemble H z ctx = some a) (h : OpensAs z ⟨a.bytes, dir⟩ front read root views dicts)
    (hdisk : ∀ m ∈ a.metadataSidecar,
      ∃ name, localSidecarName m.locator = .ok name ∧ dir name = some m.bytes) :
    ∃ blob blobRest, ctx.metadataBlob H = some blob ∧ parseMetadataBlob blob = (.ok read, blobRest) := by
  obtain ⟨blob, hblob, hmade⟩ := assemble_metadata ha
  obtain ⟨hbytes, -, -, hlen, -⟩ := assemble_some hblob ha
  obtain ⟨rest, blobBytes, blobRest, index, rest', hfront, hfound, hparse, -⟩ := h.parses
  rw [hbytes] at hfront
  obtain ⟨-, hreads, -, -, hsection, -⟩ := parseManifestFront_assembled hlen hfront
  rw [hsection] at hreads
  rw [hmade] at hdisk
  rw [metadataBytes_assembled hz haudio hblob hlen (fun hcomposite => hfits hcomposite blob hblob)
    hreads hdisk] at hfound
  cases hfound
  exact ⟨blob, blobRest, hblob, hparse⟩

end

end LimniFS
