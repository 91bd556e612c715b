/-
Which images a reader takes.

The writer and the reader have limits of their own, and `validate` holds only one of the writer's
against the reader's, the one for metadata that is inlined.  A file that is kept inline may be longer
than the reader allows; one that is kept whole may be too long for a drop or, with the header and its
record, for a slab; a dictionary may be too long; and two names that were no text may have become the
same.

All else fits.  So an image is taken exactly if nothing of this is there (`written_accepted_iff`).
-/
import Mathlib.Algebra.Order.BigOperators.Group.List
import LimniFS.FrontEndsAgree
import LimniFS.ReadableTree

namespace LimniFS

open Lib Lib.Parser Cursor

/-! ### Slabs -/

/-- A drop within the reader's limits, in a slab of its own. -/
structure PendingDrop.Fits (d : PendingDrop) : Prop where
  plaintext : d.plaintextLen ≤ defaultDropMaxPlaintextBytes
  alone : slabHeaderLen + dropRecordLen + d.compressed.length ≤ defaultSlabMaxBytes

section

variable {H : Hash} {drops : List PendingDrop} {slabs : List SlabArtifact}

theorem fits_of_parseSlab {ordinal : Nat} {group : List PendingDrop} {slab : SlabArtifact}
    {view : SlabView} (hord : ordinal < 2 ^ 64) (hlen : ∀ d ∈ group, d.plaintextLen < u32Limit)
    (h : encodeSlab H ordinal group = some slab) (hview : parseSlab slab.bytes = .ok view) :
    ∀ d ∈ group, d.Fits := by
  intro d hd
  obtain ⟨-, hvalid, hstart, htotal, hceil⟩ := parseSlab_ok hview
  obtain ⟨r, hr, hkeeps⟩ := exists_mem_of_forall₂ (keeps_of_encodeSlab hord hlen h hview) d hd
  have hplain := (hvalid r hr).plaintextLen
  have hwindow : r.lenInWindow ≤ windowLenSum view.dropRecords :=
    List.single_le_sum (fun _ _ => Nat.zero_le _) _ (List.mem_map_of_mem hr)
  have hcount : 1 * dropRecordLen ≤ view.dropRecords.length * dropRecordLen :=
    Nat.mul_le_mul_right _ (List.length_pos_of_mem hr)
  rw [hkeeps.record] at hplain hwindow
  have hsame : (d.record r.offsetInWindow).lenInWindow = d.compressed.length := rfl
  exact ⟨hplain, by omega⟩

/-- **A reader takes the slabs** exactly if each drop fits into one of its own. -/
theorem slabs_taken_iff (hlen : ∀ d ∈ drops, d.plaintextLen < u32Limit)
    (hslabs : packSlabs H drops = some slabs) (hcount : slabs.length < u32Limit) :
    (∀ slab ∈ slabs, ∃ view, parseSlab slab.bytes = .ok view) ↔
      ∀ d ∈ localDrops drops, d.Fits := by
  have hgroups := encodeSlabs_groups _ _ _ hslabs
  have hmem : ∀ group ∈ slabGroups drops, ∀ d ∈ group, d ∈ localDrops drops := by
    intro group hgroup d hd
    rw [← slabGroups_flatten]
    exact List.mem_flatten.mpr ⟨group, hgroup, hd⟩
  have hord : ∀ {o : Nat}, o < 0 + slabs.length → o < 2 ^ 64 := by
    intro o ho
    unfold u32Limit at hcount
    omega
  constructor
  · intro htaken d hd
    rw [← slabGroups_flatten] at hd
    obtain ⟨group, hgroup, hin⟩ := List.mem_flatten.mp hd
    obtain ⟨slab, hslab, o, ho, henc⟩ := exists_mem_of_forall₂ hgroups group hgroup
    obtain ⟨view, hview⟩ := htaken slab hslab
    exact fits_of_parseSlab (hord ho) (fun e he => hlen e (List.mem_of_mem_filter
      (hmem group hgroup e he))) henc hview d hin
  · intro hfits slab hslab
    obtain ⟨group, hgroup, o, ho, henc⟩ := exists_mem_of_forall₂ hgroups.flip slab hslab
    obtain ⟨hnonempty, hbudget⟩ := slabGroups_inBudget hgroup
    have htotal := total_of_footprint hbudget fun d hd => (hfits d (hmem group hgroup d hd)).alone
    obtain ⟨view, hview, -⟩ := (holds_encodeSlab (hord ho) hnonempty htotal
      (fun d hd => (hfits d (hmem group hgroup d hd)).plaintext) henc).parsed
    exact ⟨view, hview⟩

end

/-! ### What a run leaves of a tree -/

/-- A directory that no other names, and every other is named by one. -/
structure WriteContext.Rooted (ctx : WriteContext) (root : Nat) : Prop where
  inode : ∃ inode ∈ ctx.inodes, inode.number = root ∧ ∃ entries, inode.content = .directory entries
  free : ¬ ctx.Refers root
  others : ∀ inode ∈ ctx.inodes, ∀ entries, inode.content = .directory entries →
    inode.number ≠ root → ctx.Refers inode.number

/-- Names of one file have one length. -/
def OneLength (files : List (Path × SurveyMeta)) : Prop :=
  ∃ lenOf : Nat × Nat → Nat, ∀ f ∈ files, f.2.len = lenOf (f.2.dev, f.2.ino)

section

variable {env : WriterEnv} {config : WriteConfig} {workers : Workers env} {sched : Schedule}
  {tree : SourceTree env.readFile} {walked s : WriterState} {results : List ChunkedFileResult}
  {loose : List Nat}

theorem numbers_of_merged (hlen : results.length = walked.pendingFiles.length)
    (hinodes : s.inodes = walked.inodes
      ++ (walked.pendingFiles.zip results).map fun f => fileInode f.1 f.2.slices) :
    s.inodes.map (·.number) = walked.numbers := by
  have hfiles : ((walked.pendingFiles.zip results).map fun f => fileInode f.1 f.2.slices).map
      (·.number) = walked.pendingFiles.map (·.inodeNumber) := by
    rw [List.map_map]
    calc _ = ((walked.pendingFiles.zip results).map Prod.fst).map (·.inodeNumber) := by
            rw [List.map_map]
            rfl
      _ = walked.pendingFiles.map (·.inodeNumber) := by
            rw [List.map_fst_zip (Nat.le_of_eq hlen.symm)]
  rw [hinodes, List.map_append, hfiles]
  rfl

/-- **A walk that was finished is laid out**, whatever its names and lengths are. -/
theorem Walking.laid (h : Walking env.H [] loose walked)
    (hmerged : Merged env workers walked.pendingFiles results walked s)
    (hpending : ∀ pf ∈ walked.pendingFiles, ∀ data, env.readFile pf.path = .ok data →
      data ≠ [] ∧ data.length < 2 ^ 64)
    (hinodes : s.inodes = walked.inodes
      ++ (walked.pendingFiles.zip results).map fun f => fileInode f.1 f.2.slices)
    (hlayout : LayoutKept walked s) (hfew : s.inodes.length < u32Limit) :
    s.toWriteContext.Laid env.H walked.inlineThreshold := by
  have hcovers := covers_of_merged hmerged
  have hnumbers := numbers_of_merged hcovers.length_eq.symm hinodes
  -- the numbers are those from 1 on, and there are few
  have hbound : ∀ number ∈ walked.numbers, number < 2 ^ 64 := by
    intro number hmem
    have hlast := (h.bounded (List.mem_append_left [] hmem)).2
    have hmany := h.numbers.length_eq
    rw [List.append_nil, ← hnumbers, List.length_map, List.length_range'] at hmany
    unfold u32Limit at hfew
    omega
  have hnumber : ∀ inode ∈ s.inodes, inode.number < 2 ^ 64 := fun inode hinode =>
    hbound _ (hnumbers ▸ List.mem_map_of_mem hinode)
  have hall : ∀ inode ∈ s.inodes, inode.xattrs = [] ∧ inode.Valid walked.inlineThreshold := by
    intro inode hinode
    have hlow := hnumber inode hinode
    rw [hinodes] at hinode
    rcases List.mem_append.mp hinode with hold | hnew
    · exact ⟨(h.inodes inode hold).1, (h.inodes inode hold).2 hlow⟩
    · obtain ⟨⟨pf, r⟩, hmem, rfl⟩ := List.mem_map.mp hnew
      have hpf := (List.of_mem_zip hmem).1
      obtain ⟨data, hread, hcover⟩ := List.forall₂_zip hcovers hmem
      obtain ⟨hne, hlt⟩ := hpending pf hpf data hread
      obtain ⟨chunks, hflat, hchunks, hslices⟩ := hcover.slices
      have hcontiguous := contiguous_slicesFrom (H := env.H) chunks 0 (hchunks hne)
      rw [Nat.zero_add, hflat, ← hslices] at hcontiguous
      exact ⟨rfl, h.pending pf hpf hlow r.slices ⟨data.length, hlt, hcontiguous⟩⟩
  refine ⟨?_, fun inode hinode => (hall inode hinode).2, ?_, ?_⟩
  · rw [hnumbers]
    exact (List.nodup_append.mp h.nodup).1
  · intro inode hinode x hx
    unfold WriteContext.xattrsOf at hx
    rw [(hall inode hinode).1, hlayout.inodeXattrs] at hx
    cases hxs : walked.inodeXattrs inode.number with
    | none =>
        rw [hxs] at hx
        cases hx
    | some xs =>
        rw [hxs] at hx
        exact h.xattrs _ xs hxs x hx
  · intro node hnode
    rw [hlayout.dirNodes] at hnode
    obtain ⟨hencode, hsorted, hentries⟩ := h.nodes node hnode
    refine ⟨hencode, fun e he => ?_, hsorted⟩
    have hentry := hentries e he
    exact ⟨hentry.name.nonempty, hentry.name.noSlash, hentry.name.noNul, hentry.name.utf8,
      hbound _ hentry.number, hentry.type⟩

/-- The directory that the walk began with is the root. -/
theorem Walking.rooted {root : Nat} (h : Walking env.H [] [root] walked)
    (hclosed : DirectoryClosed root walked)
    (hinodes : s.inodes = walked.inodes
      ++ (walked.pendingFiles.zip results).map fun f => fileInode f.1 f.2.slices)
    (hlayout : LayoutKept walked s) : s.toWriteContext.Rooted root := by
  have hrefers : ∀ number, s.Refers number ↔ walked.Refers number := by
    intro number
    unfold WriteContext.Refers
    rw [hlayout.dirNodes]
  refine ⟨?_, fun hnamed => hclosed.free ((hrefers root).mp hnamed), ?_⟩
  · obtain ⟨inode, hinode, hnumber, hcontent⟩ := hclosed.inode
    refine ⟨inode, ?_, hnumber, hcontent⟩
    rw [hinodes]
    exact List.mem_append_left _ hinode
  · intro inode hinode entries hcontent hne
    rw [hinodes] at hinode
    rcases List.mem_append.mp hinode with hold | hnew
    · rcases h.directories inode hold entries hcontent with hroot | hnamed
      · exact absurd (List.mem_singleton.mp hroot) hne
      · exact (hrefers _).mpr hnamed
    · obtain ⟨f, -, rfl⟩ := List.mem_map.mp hnew
      cases hcontent

end

/-! ### What a reader finds -/

section

variable {H : Hash} {z : Omnizip} {ctx : WriteContext} {a : WriteArtifact} {blob : Bytes}
  {threshold root : Nat}

/-- The root is found by what refers to it. -/
theorem WriteContext.Rooted.found (h : ctx.Rooted root) (hlaid : ctx.Laid H threshold)
    {resolved : List Inode}
    (hreturned : List.Forall₂ (InodeReturned (ContentReturned H) ctx.wrapped) ctx.inodes resolved) :
    MetadataBlob.rootInodeNumber ⟨resolved, ctx.nodesReturned⟩ = some root := by
  have hnumbers : (resolved.map Inode.number).Nodup := by
    rw [(map_eq_map_of_forall₂ hreturned fun _ _ hr => hr.number.symm).symm]
    exact hlaid.numbers
  have hrefers : ∀ number,
      MetadataBlob.Refers ⟨resolved, ctx.nodesReturned⟩ number ↔ ctx.Refers number := by
    intro number
    simp [MetadataBlob.Refers, WriteContext.Refers, WriteContext.nodesReturned]
  have hdirectory : ∀ inode ∈ ctx.inodes, ∀ got,
      InodeReturned (ContentReturned H) ctx.wrapped inode got →
      (got.isDirectory = true ↔ ∃ entries, inode.content = .directory entries) := by
    intro inode hinode got hr
    have htype : got.fileType = inode.content.fileType := by
      rw [Inode.fileType, hr.mode, (hlaid.inodes inode hinode).fileType]
    rw [Inode.isDirectory, htype, beq_iff_eq]
    cases inode.content with
    | directory entries => exact ⟨fun _ => ⟨entries, rfl⟩, fun _ => rfl⟩
    | inline data => exact ⟨fun heq => absurd heq (by decide : sIfreg ≠ sIfdir), by simp⟩
    | dropBacked fileLen slices =>
        exact ⟨fun heq => absurd heq (by decide : sIfreg ≠ sIfdir), by simp⟩
    | symlink target => exact ⟨fun heq => absurd heq (by decide : sIflnk ≠ sIfdir), by simp⟩
  rw [rootInodeNumber_iff hnumbers, hrefers]
  refine ⟨?_, h.free, fun got hgot hdir hne => ?_⟩
  · obtain ⟨inode, hinode, hnumber, hcontent⟩ := h.inode
    obtain ⟨got, hgot, hr⟩ := exists_mem_of_forall₂ hreturned.flip inode hinode
    exact ⟨got, hgot, hr.number.trans hnumber, (hdirectory inode hinode got hr).mpr hcontent⟩
  · obtain ⟨inode, hinode, hr⟩ := exists_mem_of_forall₂ hreturned got hgot
    obtain ⟨entries, hcontent⟩ := (hdirectory inode hinode got hr).mp hdir
    rw [hrefers, hr.number]
    exact h.others inode hinode entries hcontent (hr.number ▸ hne)

theorem metadataBlob_ne_nil (hblob : ctx.metadataBlob H = some blob) : blob ≠ [] := by
  intro hnil
  have hcount := congrArg List.length (metadataBlob_count hblob).1
  rw [hnil, leBytes_length] at hcount
  cases hcount

theorem metadataReadable_of_le (hz : z.Lawful) (haudio : z.KnowsAudio)
    (hblob : ctx.metadataBlob H = some blob) (hlen : blob.length < u32Limit)
    (hfits : isFilterComposite ctx.metadataCodec = true → FilteredFits z blob)
    (hfull : compressMetadata z ctx.metadataCodec blob ≠ [])
    (hle : ctx.metadataExternalizeThreshold ≤ defaultInlineMetadataMaxBytes) :
    MetadataReadable z ctx blob := by
  unfold MetadataReadable
  by_cases hext : ctx.metadataExternalizeThreshold < (metadataOnWire z ctx.metadataCodec blob).2.length
  · exact Or.inl hext
  · refine Or.inr ⟨List.length_pos_iff.mpr ?_, Nat.le_trans (Nat.le_of_not_lt hext) hle, blob,
      decodeInlineBlob_onWire hz haudio hblob hlen hfits⟩
    unfold metadataOnWire
    simp only
    split
    · exact hfull
    · exact metadataBlob_ne_nil hblob

/-- **What a reader with the default limits takes**: every slab, the metadata and the sections of the
manifest, with the dictionaries behind them; and the image itself, once its files are there. -/
structure WriteArtifact.Accepted (H : Hash) (z : Omnizip) (ctx : WriteContext) (a : WriteArtifact) :
    Prop where
  slabs : ∀ slab ∈ a.slabs, ∃ view, parseSlab slab.bytes = .ok view
  metadata : ∃ bytes blob rest, ctx.metadataBlob H = some bytes ∧
    parseMetadataBlob bytes = (.ok blob, rest)
  manifest : ∃ sections rest, parseSections z a.bytes = (.ok sections, rest) ∧
    ∀ d ∈ ctx.emittedDictionaries, parseDictionarySection rest = (.ok d, [])
  opens : ∀ dir, a.OnDisk dir → CliOpens z ⟨a.bytes, dir⟩ ∧
    ∀ config, ∃ reader, ImageReader.fromParts z a.bytes dir config = some (.ok reader)

theorem withinCap_of_read {rest left : Bytes}
    (h : ∀ d ∈ ctx.emittedDictionaries, parseDictionarySection rest = (.ok d, left)) :
    ctx.trainedDicts.WithinCap := by
  intro d hd
  have hsome : ctx.emittedDictionaries = some ctx.trainedDicts.section_ :=
    if_neg (List.ne_nil_of_mem hd)
  exact dicts_within_cap (h _ hsome) _ (List.mem_map.mpr ⟨d, hd, rfl⟩)

theorem trailer_read (hbase : ctx.baseRoot = none) (hcap : ctx.trainedDicts.WithinCap) :
    ∀ d ∈ ctx.emittedDictionaries, parseDictionarySection ctx.trailer = (.ok d, []) := by
  intro d hd
  unfold WriteContext.emittedDictionaries at hd
  unfold WriteContext.trailer
  rw [hbase]
  split at hd
  · cases hd
  · next hsome =>
      cases hd
      rw [if_neg hsome]
      refine reads_parseDictionarySection ctx.trainedDicts.length_toList_lt ?_ []
      intro d hd
      obtain ⟨d', hd', rfl⟩ := List.mem_map.mp hd
      exact hcap d' hd'

/-- **An image whose parts are taken opens.** -/
theorem opensAs_of_taken (hz : z.Lawful) (haudio : z.KnowsAudio) (ha : assemble H z ctx = some a)
    (hblob : ctx.metadataBlob H = some blob) (hread : MetadataReadable z ctx blob)
    (hfits : isFilterComposite ctx.metadataCodec = true → FilteredFits z blob)
    {parsed : MetadataBlob} {left : Bytes} (hparse : parseMetadataBlob blob = (.ok parsed, left))
    (hroot : parsed.rootInodeNumber = some root)
    (hslabs : ∀ slab ∈ a.slabs, ∃ view, parseSlab slab.bytes = .ok view) {dir : Directory}
    (hdisk : a.OnDisk dir) :
    ∃ front views dicts, OpensAs z ⟨a.bytes, dir⟩ front parsed root views dicts := by
  obtain ⟨blob', hblob', hmade⟩ := assemble_metadata ha
  obtain rfl : blob' = blob := Option.some.inj (hblob'.symm.trans hblob)
  obtain ⟨hbytes, -, hpacked, hlen, hcount⟩ := assemble_some hblob ha
  obtain ⟨ref, -, href, hfront⟩ := @parseManifestFront_readable H z ctx blob' a.slabs hlen hread
  obtain ⟨views, hviews⟩ : ∃ views, (a.slabs.map SlabArtifact.bytes).mapM parseSlab = .ok views := by
    cases hmap : (a.slabs.map SlabArtifact.bytes).mapM parseSlab with
    | ok views => exact ⟨views, rfl⟩
    | error e =>
        obtain ⟨bytes, hmem, herror⟩ := exists_of_mapM_error hmap
        obtain ⟨slab, hslab, rfl⟩ := List.mem_map.mp hmem
        obtain ⟨view, hview⟩ := hslabs slab hslab
        rw [hview] at herror
        cases herror
  have hsidecar := hdisk.sidecar
  rw [hmade] at hsidecar
  rw [← hbytes] at hfront
  exact ⟨_, views, _, ⟨⟨_, blob', left, slabIndexOf a.slabs, _, hfront,
    metadataBytes_assembled hz haudio hblob hlen hfits href hsidecar, hparse,
    reads_parseSlabIndex (writable_slabIndexOf hpacked hcount) _,
    (loadSlabs_mapM a.slabs 0 hdisk.slab).trans hviews, rfl⟩, hroot⟩⟩

/-- **A context that was laid out is taken** exactly if what is inline is short, its names are apart,
its drops fit and its dictionaries are within the cap. -/
theorem accepted_iff (hz : z.Lawful) (haudio : z.KnowsAudio) (hctx : ctx.WellFormed)
    (hlaid : ctx.Laid H threshold) (hrooted : ctx.Rooted root) (hbase : ctx.baseRoot = none)
    (hle : ctx.metadataExternalizeThreshold ≤ defaultInlineMetadataMaxBytes)
    (ha : assemble H z ctx = some a) (hcol : NoCollision H (inlineContents ctx.inodes))
    (hfits : isFilterComposite ctx.metadataCodec = true →
      ∀ bytes, ctx.metadataBlob H = some bytes → FilteredFits z bytes)
    (hfull : ∀ bytes, ctx.metadataBlob H = some bytes →
      compressMetadata z ctx.metadataCodec bytes ≠ []) :
    a.Accepted H z ctx ↔ ReadableParts defaultInlineDataMaxBytes ctx.inodes ctx.dirNodes ∧
      (∀ d ∈ localDrops ctx.drops, d.Fits) ∧ ctx.trainedDicts.WithinCap := by
  obtain ⟨blob, hblob, -⟩ := assemble_metadata ha
  obtain ⟨hbytes, -, hpacked, hlen, hcount⟩ := assemble_some hblob ha
  have hslabs := slabs_taken_iff hctx.plaintextLen hpacked hcount
  constructor
  · intro h
    refine ⟨?_, hslabs.mp h.slabs, ?_⟩
    · obtain ⟨bytes, parsed, rest, hmade, hparse⟩ := h.metadata
      exact (hlaid.parsed_iff hcol hmade).mp ⟨parsed, rest, hparse⟩
    · obtain ⟨sections, rest, -, hdicts⟩ := h.manifest
      exact withinCap_of_read hdicts
  · rintro ⟨hparts, hdrops, hcap⟩
    have htaken := hslabs.mpr hdrops
    have hcomposite := fun hc => hfits hc blob hblob
    have hread := metadataReadable_of_le hz haudio hblob hlen hcomposite (hfull blob hblob) hle
    obtain ⟨resolved, hreturned, hparse⟩ := hlaid.parsed hcol hblob hparts
    obtain ⟨ref, -, href⟩ := reads_assembledReference (H := H) hlen hread
    have hsections : parseSections z a.bytes
        = (.ok (assembledSections H z ctx blob a.slabs ref), ctx.trailer) := by
      rw [hbytes]
      exact parseSections_assembled (writable_slabIndexOf hpacked hcount) href
    refine ⟨htaken, ⟨blob, _, _, hblob, hparse⟩, ⟨_, _, hsections, trailer_read hbase hcap⟩,
      fun dir hdisk => ?_⟩
    obtain ⟨front, views, dicts, hopens⟩ := opensAs_of_taken hz haudio ha hblob hread hcomposite
      hparse (hrooted.found hlaid hreturned) htaken hdisk
    have hcli : CliOpens z ⟨a.bytes, dir⟩ := cliOpens_iff.mpr ⟨_, _, _, _, _, hopens⟩
    exact ⟨hcli, fun config => (libraryOpens_iff ha hdisk).mpr hcli⟩

end

/-! ### The writer -/

/-- Within the limits of a reader: the tree, and what the drops of it and the dictionaries were made. -/
structure WithinLimits {readFile : Path → Except String Bytes} (config : WriteConfig)
    (tree : SourceTree readFile) (ctx : WriteContext) : Prop where
  inline : InlineFits config.defaults.inlineThreshold defaultInlineDataMaxBytes
    (tree.survey.files tree.root)
  names : tree.survey.NamesApart
  drops : ∀ d ∈ localDrops ctx.drops, d.Fits
  dictionaries : ctx.trainedDicts.WithinCap

section

variable {env : WriterEnv} {config : WriteConfig} {workers : Workers env} {sched : Schedule}
  {tree : SourceTree env.readFile} {s : WriterState} {a : WriteArtifact}

theorem inlineContents_files (inodes : List PendingInode)
    (files : List (PendingFile × ChunkedFileResult)) :
    inlineContents (inodes ++ files.map fun f => fileInode f.1 f.2.slices) = inlineContents inodes := by
  have hnone : inlineContents (files.map fun f => fileInode f.1 f.2.slices) = [] := by
    unfold inlineContents
    rw [List.filterMap_map, List.filterMap_eq_nil_iff]
    exact fun f _ => rfl
  unfold inlineContents at hnone ⊢
  rw [List.filterMap_append, hnone, List.append_nil]

theorem SurveyNode.Proper.symlinkTarget_none {node : SurveyNode} (h : node.Proper)
    (hdir : node.info.kind = .directory) : node.symlinkTarget = none := by
  obtain ⟨info, children, target⟩ := node
  obtain ⟨-, -, -, htarget⟩ := h
  cases target with
  | none => rfl
  | some t =>
      have hlink := (htarget t rfl).1
      have hboth : FileKind.directory = FileKind.symlink := hdir.symm.trans hlink
      cases hboth

theorem walking_start : Walking env.H [] [] (streamingStart config (directoryStart config)) where
  numbers := .refl _
  started := Nat.one_pos
  inodes inode hinode := absurd hinode List.not_mem_nil
  pending pf hpf := absurd hpf List.not_mem_nil
  xattrs number xs hxs := by cases hxs
  nodes node hnode := absurd hnode List.not_mem_nil
  targets key number hkey := by cases hkey
  directories inode hinode := absurd hinode List.not_mem_nil

section

variable {s₀ walked : WriterState} {chunker : ParallelFastCDC} {root : Nat}
  {results : List ChunkedFileResult}

theorem StreamedRun.inodes_eq (h : StreamedRun env config workers tree s₀ s chunker root walked results)
    (hfresh : s₀.Fresh) : s.inodes = walked.inodes
      ++ (walked.pendingFiles.zip results).map fun f => fileInode f.1 f.2.slices := by
  have hnew : (streamingStart config s₀).Fresh := hfresh
  obtain ⟨merged, hfin, -, hinodes, -⟩ :=
    kept_of_merged hnew (foldSurvey_walked _ _ _ _ _ _ h.walk) h.merged
  exact hfin.1.trans hinodes

/-- **A standalone image is laid out**, with the root that the walk began with. -/
theorem StreamedRun.laid
    (h : StreamedRun env config workers tree (directoryStart config) s chunker root walked results)
    (hproper : tree.survey.Proper) (hdir : tree.survey.info.kind = .directory)
    (hfew : s.inodes.length < u32Limit) :
    s.toWriteContext.Laid env.H walked.inlineThreshold ∧ s.toWriteContext.Rooted root := by
  have hfresh : (streamingStart config (directoryStart config)).Fresh := ⟨rfl, rfl, rfl, rfl⟩
  have hwalked := foldSurvey_walked _ _ _ _ _ _ h.walk
  have hpending := fun pf hpf data hread =>
    (@data_of_pending env tree _ _ hfresh hwalked pf hpf data hread).2
  have hinodes := h.inodes_eq ⟨rfl, rfl, rfl, rfl⟩
  have hwalk := h.walk
  rw [← hproper.symlinkTarget_none hdir] at hwalk
  obtain ⟨hnode, hclosed⟩ := foldSurvey_walking tree.survey tree.root hproper tree.agrees
    walking_start hwalk
  exact ⟨hnode.walking.laid h.merged hpending hinodes h.layout hfew,
    hnode.walking.rooted (hclosed hdir) hinodes h.layout⟩

end

/--
**What the writer makes of a valid configuration is accepted exactly within the limits.**
For every tree of a file system, configuration that is valid, schedule of the workers and state of
their caches: a reader takes the slabs, the metadata and the manifest, and opens the image, if and
only if each file that is kept inline is within the reader's ceiling for inline data, no directory has
a name twice, each drop that is packed fits into a slab of its own, and no dictionary is above the cap.
-/
theorem written_accepted_iff {metadataQuality : Nat}
    (hvalid : config.validate metadataQuality = .ok ()) (hproper : tree.survey.Proper)
    (hdir : tree.survey.info.kind = .directory) (hlinked : OneLength (tree.survey.files tree.root))
    (hz : env.z.Lawful) (haudio : env.z.KnowsAudio)
    (hrun : writeDirectoryStreaming env config workers sched tree (directoryStart config) = .ok s)
    (ha : assemble env.H env.z s.toWriteContext = some a)
    (hcol : NoCollision env.H (inlineContents s.inodes))
    (hfits : isFilterComposite s.metadataCodec = true →
      ∀ bytes, s.metadataBlob env.H = some bytes → FilteredFits env.z bytes)
    (hfull : ∀ bytes, s.metadataBlob env.H = some bytes →
      compressMetadata env.z s.metadataCodec bytes ≠ []) :
    a.Accepted env.H env.z s.toWriteContext ↔ WithinLimits config tree s.toWriteContext := by
  have hnew : (directoryStart config).Fresh := ⟨rfl, rfl, rfl, rfl⟩
  obtain ⟨chunker, number, walked, results, hstreamed⟩ := exists_streamedRun hrun
  have hinodes := hstreamed.inodes_eq hnew
  have hlayout := hstreamed.layout
  have hwalk := hstreamed.walk
  rw [← hproper.symlinkTarget_none hdir] at hwalk
  obtain ⟨lenOf, hlen⟩ := hlinked
  have hnolinks : LinksFit lenOf defaultInlineDataMaxBytes
      (streamingStart config (directoryStart config)) := by
    intro key number hkey
    cases hkey
  have hstep := foldSurvey_readable tree.survey tree.root hproper tree.agrees hlen hnolinks hwalk
  obtain ⟨blob, hblob, -⟩ := assemble_metadata ha
  obtain ⟨hlaid, hrooted⟩ := hstreamed.laid hproper hdir (metadataBlob_count hblob).2.1
  have hle : s.metadataExternalizeThreshold ≤ defaultInlineMetadataMaxBytes := by
    rw [hlayout.externalizeThreshold, hstep.carried.externalizeThreshold]
    exact WriteConfig.threshold_le_of_validate hvalid
  have hbase : s.baseRoot = none := hlayout.baseRoot.trans hstep.carried.baseRoot
  have hparts : ReadableParts defaultInlineDataMaxBytes s.inodes s.dirNodes ↔
      InlineFits config.defaults.inlineThreshold defaultInlineDataMaxBytes
        (tree.survey.files tree.root) ∧ tree.survey.NamesApart := by
    have hstart : ReadableParts defaultInlineDataMaxBytes
        (streamingStart config (directoryStart config)).inodes
        (streamingStart config (directoryStart config)).dirNodes :=
      ⟨fun d hd => absurd hd List.not_mem_nil, fun node hnode => absurd hnode List.not_mem_nil⟩
    refine Iff.trans ?_ (hstep.readable.trans (and_iff_right hstart))
    rw [hlayout.dirNodes]
    have hinline := inlineContents_files walked.inodes (walked.pendingFiles.zip results)
    rw [← hinodes] at hinline
    exact ⟨fun h => ⟨hinline ▸ h.inline, h.names⟩, fun h => ⟨hinline.symm ▸ h.inline, h.names⟩⟩
  rw [accepted_iff hz haudio (written_wellFormed hnew (Or.inr hrun)) hlaid
    hrooted hbase hle ha hcol hfits hfull, hparts]
  exact ⟨fun h => ⟨h.1.1, h.1.2, h.2.1, h.2.2⟩,
    fun h => ⟨⟨h.inline, h.names⟩, h.drops, h.dictionaries⟩⟩

end

namespace Stored

/-- A file one byte longer than the reader takes inline. -/
def longFile (path : Path) : Except String Bytes :=
  if path = [[0x61]] then .ok (List.replicate 4097 0) else .error "No such file or directory (os error 2)"

def longEnv : WriterEnv := { writerEnv with readFile := longFile }

def longTree : SourceTree longEnv.readFile where
  root := []
  survey := .node dirInfo (.cons [0x61] (.node (fileInfo 2 4097) .nil none) .nil) none
  agrees := by
    intro f hf data hread
    simp only [SurveyNode.files, SurveyChildren.files, dirInfo, fileInfo, if_true,
      List.nil_append, List.append_nil, List.mem_singleton, reduceCtorEq, if_false] at hf
    subst hf
    cases hread
    exact List.length_replicate
  len_lt := by decide

/-- The configuration that keeps it inline. -/
def longConfig : WriteConfig :=
  { writeConfig with defaults := { writeConfig.defaults with inlineThreshold := 8192 } }

end Stored

open LimniFS.Stored

theorem exists_written {env : WriterEnv} {x : Except WriteStop WriterState} {P : WriterState → Bool}
    (h : (x.toOption.bind fun s => (assemble env.H env.z s.toWriteContext).filter fun _ => P s).isSome
      = true) : ∃ s a, x = .ok s ∧ assemble env.H env.z s.toWriteContext = some a ∧ P s = true := by
  cases x with
  | error e => cases h
  | ok s =>
      obtain ⟨a, ha⟩ := Option.isSome_iff_exists.mp h
      obtain ⟨hassembled, hP⟩ := Option.filter_eq_some_iff.mp ha
      exact ⟨s, a, rfl, hassembled, hP⟩

theorem Stored.compressMetadata_ne_nil {H : Hash} {ctx : WriteContext} {blob : Bytes}
    (h : ctx.metadataBlob H = some blob) : compressMetadata omnizip codecBrotli blob ≠ [] := by
  have hsame : compressMetadata omnizip codecBrotli blob = blob := rfl
  rw [hsame]
  exact metadataBlob_ne_nil h

theorem Stored.exists_longImage :
    ∃ s a, writeDirectoryStreaming longEnv longConfig (fun _ _ => .empty) .sequential longTree
        (directoryStart longConfig) = .ok s ∧
      assemble longEnv.H longEnv.z s.toWriteContext = some a ∧ (inlineContents s.inodes).length = 1 ∧
      s.metadataCodec = codecBrotli ∧ ∃ bytes e rest,
        s.metadataBlob longEnv.H = some bytes ∧ parseMetadataBlob bytes = (.error e, rest) := by
  obtain ⟨s, a, hrun, ha, hP⟩ := @exists_written longEnv
    (writeDirectoryStreaming longEnv longConfig (fun _ _ => .empty) .sequential longTree
      (directoryStart longConfig))
    (fun s => (inlineContents s.inodes).length = 1 ∧ s.metadataCodec = codecBrotli ∧
      (s.metadataBlob longEnv.H).map (fun bytes => (parseMetadataBlob bytes).1.isOk) = some false)
    (by decide +kernel)
  obtain ⟨hone, hcodec, hrefused⟩ := of_decide_eq_true hP
  obtain ⟨bytes, hbytes, hparse⟩ := Option.map_eq_some_iff.mp hrefused
  refine ⟨s, a, hrun, ha, hone, hcodec, bytes, ?_⟩
  cases hread : parseMetadataBlob bytes with
  | mk result rest =>
      rw [hread] at hparse
      cases result with
      | ok blob => cases hparse
      | error e => exact ⟨e, rest, hbytes, rfl⟩

/-- **A valid configuration may keep a file inline that a reader refuses**: here one of 4097 bytes. -/
theorem long_inline_file_refused :
    longConfig.validate 5 = .ok () ∧
    ∃ s a, writeDirectoryStreaming longEnv longConfig (fun _ _ => .empty) .sequential
        longTree (directoryStart longConfig) = .ok s ∧
      assemble longEnv.H longEnv.z s.toWriteContext = some a ∧
      (∃ bytes e rest, s.metadataBlob longEnv.H = some bytes ∧
        parseMetadataBlob bytes = (.error e, rest)) ∧
      ¬ a.Accepted longEnv.H longEnv.z s.toWriteContext := by
  obtain ⟨s, a, hrun, ha, -, -, bytes, e, rest, hbytes, hparse⟩ := exists_longImage
  refine ⟨by decide +kernel, s, a, hrun, ha, ⟨bytes, e, rest, hbytes, hparse⟩, fun haccepted => ?_⟩
  obtain ⟨bytes', blob, rest', hbytes', hparse'⟩ := haccepted.metadata
  obtain rfl := Option.some.inj (hbytes.symm.trans hbytes')
  rw [hparse] at hparse'
  cases hparse'

/-- The same file is above the limits of a reader. -/
theorem written_accepted_iff_long :
    ∃ s a, writeDirectoryStreaming longEnv longConfig (fun _ _ => .empty) .sequential
        longTree (directoryStart longConfig) = .ok s ∧
      assemble longEnv.H longEnv.z s.toWriteContext = some a ∧
      longConfig.validate 5 = .ok () ∧
      ¬ a.Accepted longEnv.H longEnv.z s.toWriteContext := by
  have hvalid : longConfig.validate 5 = .ok () := by decide +kernel
  obtain ⟨s, a, hrun, ha, hone, hcodec, -⟩ := exists_longImage
  obtain ⟨data, hdata⟩ := List.length_eq_one_iff.mp hone
  have hproper : longTree.survey.Proper := by
    have hname : ProperName [0x61] := ⟨by decide, by decide, by decide, by decide⟩
    have hfile : (fileInfo 2 4097).Proper :=
      ⟨by decide, by decide, by decide, by decide, by decide, fun x hx => absurd hx List.not_mem_nil⟩
    have hroot : dirInfo.Proper :=
      ⟨by decide, by decide, by decide, by decide, by decide, fun x hx => absurd hx List.not_mem_nil⟩
    have hnone : ∀ (kind : FileKind), ∀ t ∈ (none : Option Bytes),
        kind = .symlink ∧ utf8Valid t = true := by
      intro kind t ht
      cases ht
    exact ⟨hroot, ⟨hname, ⟨hfile, trivial, Or.inr rfl, hnone _⟩, trivial⟩, Or.inl rfl, hnone _⟩
  refine ⟨s, a, hrun, ha, hvalid, fun haccepted => ?_⟩
  have hlimits := (written_accepted_iff hvalid hproper rfl ⟨fun _ => 4097, by decide⟩
    omnizip_lawful omnizip_knowsAudio hrun ha (by
      rw [hdata]
      intro x hx y hy _
      rw [List.mem_singleton.mp hx, List.mem_singleton.mp hy]) (by
      rw [hcodec]
      intro hcomposite
      cases hcomposite) (by
      rw [hcodec]
      exact fun bytes hbytes => compressMetadata_ne_nil hbytes)).mp haccepted
  have hfile : ([[0x61]], fileInfo 2 4097) ∈ longTree.survey.files longTree.root :=
    List.mem_cons_self
  exact absurd (hlimits.inline _ hfile (by decide)) (by decide)

end LimniFS
