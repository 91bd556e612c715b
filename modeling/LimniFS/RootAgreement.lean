/-
One root for one manifest?

The root of an image is computed when it is assembled, again by `readManifest` from a
strict parse, and again by a layer that wants to name its base, which parses what it
can and hashes as empty what it cannot.

An assembled manifest is read back section by section as soon as its metadata
reference is, so the three roots differ only in what they hash: `assemble` puts the
delta linkage of a layer into the root and the other two put nothing there.
-/
import LimniFS.Assemble
import LimniFS.Signing

namespace LimniFS

open Lib Lib.Parser Cursor

/-! ### The names of slabs and sidecars -/

theorem fileUri_slabLocator {ordinal : Nat} (hash : Digest) (h : ordinal < 2 ^ 64) :
    FileUri (slabLocator ordinal hash) := by
  have hname : ShortAscii (5 + (20 + (1 + (2 * (hash.val.take 4).length + 4))))
      ("slab-" ++ (toString ordinal ++ ("-" ++ (String.ofList (hexLower (hash.val.take 4))
        ++ ".bin")))) :=
    ShortAscii.append (shortAscii_of_check (by decide)) ((shortAscii_toString h).append
      (ShortAscii.append (shortAscii_of_check (by decide)) ((shortAscii_hexLower _).append
        (shortAscii_of_check (by decide)))))
  have huri := fileUri_ascii hname (by rw [List.length_take]; omega) (by simp [String.ext_iff])
  have htext : "file:" ++ ("slab-" ++ (toString ordinal ++ ("-"
      ++ (String.ofList (hexLower (hash.val.take 4)) ++ ".bin"))))
      = s!"file:slab-{ordinal}-" ++ String.ofList (hexLower (hash.val.take 4)) ++ ".bin" := by
    simp [String.ext_iff, toString]
  rw [htext] at huri
  exact huri

theorem fileUri_metadataLocator (H : Hash) (wire : Bytes) : FileUri (metadataLocator H wire) := by
  have hname : ShortAscii (9 + (2 * ((hashSection H wire).val.take 4).length + 4))
      ("metadata-" ++ (String.ofList (hexLower ((hashSection H wire).val.take 4)) ++ ".bin")) :=
    ShortAscii.append (shortAscii_of_check (by decide)) ((shortAscii_hexLower _).append
      (shortAscii_of_check (by decide)))
  have huri := fileUri_ascii hname (by rw [List.length_take]; omega) (by simp [String.ext_iff])
  have htext : "file:" ++ ("metadata-"
      ++ (String.ofList (hexLower ((hashSection H wire).val.take 4)) ++ ".bin"))
      = "file:metadata-" ++ String.ofList (hexLower ((hashSection H wire).val.take 4))
        ++ ".bin" := by
    simp [String.ext_iff]
  rw [htext] at huri
  exact huri

/-- The slabs are numbered on from `ordinal`, and named by number and hash. -/
theorem encodeSlabs_ids {H : Hash} :
    ∀ (groups : List (List PendingDrop)) (ordinal : Nat) (slabs : List SlabArtifact),
      encodeSlabs H ordinal groups = some slabs →
      (∀ s ∈ slabs, ordinal ≤ s.id.ordinal ∧ s.id.ordinal < ordinal + slabs.length ∧
        s.locator = slabLocator s.id.ordinal s.id.hash) ∧
      slabs.Pairwise fun a b => a.id.ordinal < b.id.ordinal := by
  intro groups
  induction groups with
  | nil =>
      intro ordinal slabs h
      cases h
      exact ⟨by simp, .nil⟩
  | cons group rest ih =>
      intro ordinal slabs h
      unfold encodeSlabs at h
      split at h
      · next slab tail hslab htail =>
          cases h
          obtain ⟨records, -, hart⟩ := Option.map_eq_some_iff.mp hslab
          obtain ⟨hall, hpair⟩ := ih _ _ htail
          have hord : slab.id.ordinal = ordinal := by rw [← hart]; rfl
          have hloc : slab.locator = slabLocator slab.id.ordinal slab.id.hash := by rw [← hart]; rfl
          refine ⟨?_, List.pairwise_cons.mpr ⟨?_, hpair⟩⟩
          · intro s hs
            rw [List.length_cons]
            rcases List.mem_cons.mp hs with rfl | hs
            · exact ⟨by omega, by omega, hloc⟩
            · obtain ⟨h₁, h₂, h₃⟩ := hall s hs
              exact ⟨by omega, by omega, h₃⟩
          · intro s hs
            have := (hall s hs).1
            omega
      · cases h

/-- **The slab index of an image can be read.** -/
theorem writable_slabIndexOf {H : Hash} {drops : List PendingDrop} {slabs : List SlabArtifact}
    (h : packSlabs H drops = some slabs) (hcount : slabs.length < u32Limit) :
    (slabIndexOf slabs).Writable := by
  obtain ⟨hall, hpair⟩ := encodeSlabs_ids _ _ _ h
  have hord : ∀ s ∈ slabs, s.id.ordinal < 2 ^ 64 := by
    intro s hs
    have := (hall s hs).2.1
    unfold u32Limit at hcount
    omega
  refine ⟨by simpa [slabIndexOf] using hcount, ?_, ?_, ?_⟩
  · intro entry hentry
    obtain ⟨s, hs, rfl⟩ := List.mem_map.mp hentry
    refine ⟨s.locator, rfl, ?_⟩
    rw [(hall s hs).2.2]
    exact fileUri_slabLocator _ (hord s hs)
  · intro entry hentry
    obtain ⟨s, hs, rfl⟩ := List.mem_map.mp hentry
    exact hord s hs
  · refine List.pairwise_map.mpr (hpair.imp ?_)
    intro a b hlt heq
    have hid : a.id = b.id := heq
    rw [hid] at hlt
    exact Nat.lt_irrefl _ hlt

/-! ### An assembled manifest is read back -/

section

variable {H : Hash} {z : Omnizip} {ctx : WriteContext} {blob : Bytes} {slabs : List SlabArtifact}

/-- The sections of a manifest without flags and with one history entry. -/
def plainSections (refBytes : Bytes) (ref : MetadataReference) (index : SlabIndex)
    (op : HistoryOp) : Sections where
  header := ManifestHeader.current
  headerBytes := ManifestHeader.current.toBytes
  flags := ⟨[]⟩
  flagsBytes := emptyFlagsBytes
  metadataReference := ref
  metadataReferenceBytes := refBytes
  slabIndex := index
  slabIndexBytes := slabIndexBytes index
  ecParamsBytes := none
  dmsPolicyBytes := none
  history := ⟨[⟨op, 0, [], []⟩]⟩
  historyBytes := historyBytes op

theorem parseSections_plain {refBytes : Bytes} {ref : MetadataReference} {index : SlabIndex}
    (hindex : index.Writable) (href : Reads (parseMetadataReference z) refBytes ref)
    (op : HistoryOp) (trailer : Bytes) :
    parseSections z (ManifestHeader.current.toBytes ++ (emptyFlagsBytes ++ (refBytes
        ++ (slabIndexBytes index ++ (historyBytes op ++ trailer)))))
      = (.ok (plainSections refBytes ref index op), trailer) := by
  have habsent : ∀ {α : Type} (p : CoreParser α), Reads (optionalSection false p) [] none :=
    fun _ => reads_pure none
  have hsections : Reads (parseSections z) (ManifestHeader.current.toBytes ++ (emptyFlagsBytes
      ++ (refBytes ++ (slabIndexBytes index ++ historyBytes op))))
      (plainSections refBytes ref index op) := by
    refine reads_parseManifestHeader.withSpan.bind ?_
    refine reads_parseFeatureFlagsSection.withSpan.bind ?_
    refine href.withSpan.bind ?_
    refine (reads_parseSlabIndex hindex).withSpan.bind ?_
    refine (habsent parseEcParams).bind_nil ?_
    refine (habsent parseDmsPolicy).bind_nil ?_
    rw [← List.append_nil (historyBytes op)]
    refine (reads_parseHistory op).withSpan.bind ?_
    exact reads_pure _
  have hread := hsections trailer
  simp only [List.append_assoc] at hread
  exact hread

/-- The sections of an assembled manifest around its metadata reference. -/
def assembledSections (H : Hash) (z : Omnizip) (ctx : WriteContext) (blob : Bytes)
    (slabs : List SlabArtifact) (ref : MetadataReference) : Sections :=
  plainSections (assembledReference H z ctx blob) ref (slabIndexOf slabs) .build

theorem parseSections_assembled {ref : MetadataReference} (hindex : (slabIndexOf slabs).Writable)
    (href : Reads (parseMetadataReference z) (assembledReference H z ctx blob) ref) :
    parseSections z (assembledManifest H z ctx blob slabs)
      = (.ok (assembledSections H z ctx blob slabs ref), ctx.trailer) :=
  parseSections_plain hindex href .build ctx.trailer

theorem parseMetadataReference_of_sections {s : Sections} {rest : Bytes}
    (h : parseSections z (assembledManifest H z ctx blob slabs) = (.ok s, rest)) :
    ∃ ref left, parseMetadataReference z (assembledReference H z ctx blob
      ++ (slabIndexBytes (slabIndexOf slabs) ++ (historyBytes .build ++ ctx.trailer)))
        = (.ok ref, left) := by
  unfold assembledManifest parseSections at h
  rw [reads_parseManifestHeader.withSpan.bind_append,
    reads_parseFeatureFlagsSection.withSpan.bind_append] at h
  obtain ⟨⟨ref, span⟩, left, href, -⟩ := bind_eq_ok.mp h
  exact ⟨ref, left, (withSpan_eq_ok.mp href).1⟩

end

/-! ### The other two roots -/

section

variable (H : Hash) (z : Omnizip)

/-- The root `readManifest` computes when it is given all bytes. -/
def manifestRoot (manifest : Bytes) : Except CoreError Digest :=
  match parseSections z manifest with
  | (.error e, _) => .error e
  | (.ok s, _) => .ok (s.root H)

/-- The bytes between two positions of a cursor, each given by what is left behind it. -/
def spanBetween (start stop : Bytes) : Bytes := start.take (start.length - stop.length)

def zeroDigest : Digest := ⟨List.replicate 32 0, zeros_length⟩

/-- Best effort: a section that fails leaves the cursor where it stopped.  After failed flags the
bytes of the flags count towards the metadata reference. -/
def computeMerkleRootFromSections (manifest : Bytes) : Digest :=
  match parseManifestHeader manifest with
  | (.error _, _) => zeroDigest
  | (.ok _, afterHeader) =>
    let flags := parseFeatureFlagsSection afterHeader
    let flagsEnd :=
      match flags.1 with
      | .ok _ => flags.2
      | .error _ => afterHeader
    let reference := parseMetadataReference z flags.2
    let slabIndex := parseSlabIndex reference.2
    let history := parseHistory slabIndex.2
    computeMerkleRoot H
      { metadata :=
          match reference.1 with
          | .ok ref => ref.metadataHash
          | .error _ => hashEmptySection H
        formatHeader := hashSection H (spanBetween manifest afterHeader)
        featureFlags := hashSection H (spanBetween afterHeader flagsEnd)
        metadataReference := hashSection H (spanBetween flagsEnd reference.2)
        slabIndex := hashSection H (spanBetween reference.2 slabIndex.2)
        cryptoParams := hashEmptySection H
        ecParams := hashEmptySection H
        dmsPolicy := hashEmptySection H
        deltaLinkage := hashEmptySection H
        history := hashSection H (spanBetween slabIndex.2 history.2) }

end

theorem spanBetween_append (used rest : Bytes) : spanBetween (used ++ rest) rest = used := by
  unfold spanBetween
  rw [List.length_append, Nat.add_sub_cancel, List.take_left]

section

variable {H : Hash} {z : Omnizip} {ctx : WriteContext} {blob : Bytes} {slabs : List SlabArtifact}

/-- On a manifest that can be read, best effort is the strict parse. -/
theorem computeMerkleRootFromSections_assembled {ref : MetadataReference}
    (hindex : (slabIndexOf slabs).Writable)
    (href : Reads (parseMetadataReference z) (assembledReference H z ctx blob) ref) :
    computeMerkleRootFromSections H z (assembledManifest H z ctx blob slabs)
      = (assembledSections H z ctx blob slabs ref).root H := by
  unfold computeMerkleRootFromSections assembledManifest
  simp only [reads_parseManifestHeader _, reads_parseFeatureFlagsSection _, href _,
    reads_parseSlabIndex hindex _, reads_parseHistory .build _, spanBetween_append]
  rfl

/-- Without a delta linkage the assembled root is the root of the sections. -/
theorem root_assembledSections (ctx : WriteContext) (slabs : List SlabArtifact)
    {ref : MetadataReference} (hmeta : ref.metadataHash = hashSection H blob)
    (hbase : ctx.baseRoot = none) :
    (assembledSections H z ctx blob slabs ref).root H
      = computeMerkleRoot H (assembledHashes H z ctx blob slabs) := by
  unfold Sections.root Sections.hashes assembledHashes
  rw [hbase]
  simp only [assembledSections, plainSections, hmeta]
  rfl

/-! ### Which metadata can be read -/

/-- The decoder takes the inlined bytes back to something of the blob's length. -/
def MetadataDecodes (z : Omnizip) (ctx : WriteContext) (blob : Bytes) : Prop :=
  ∃ decoded, decodeInlineBlob z (metadataOnWire z ctx.metadataCodec blob).1
    (metadataOnWire z ctx.metadataCodec blob).2 blob.length = .ok decoded

/-- The metadata is in a sidecar, or inlined within the reader's ceiling and decodable. -/
def MetadataReadable (z : Omnizip) (ctx : WriteContext) (blob : Bytes) : Prop :=
  let wire := (metadataOnWire z ctx.metadataCodec blob).2
  ctx.metadataExternalizeThreshold < wire.length ∨
    (0 < wire.length ∧ wire.length ≤ defaultInlineMetadataMaxBytes ∧ MetadataDecodes z ctx blob)

theorem metadataOnWire_length_le (codec : UInt8) (blob : Bytes) :
    (metadataOnWire z codec blob).2.length ≤ blob.length := by
  unfold metadataOnWire
  simp only
  split
  · next h => exact Nat.le_of_lt h
  · exact Nat.le_refl _

/-- Metadata that was compressed by any codec but FLAC is decompressed again. -/
theorem decompress_compressMetadata (hz : z.Lawful) {codec : UInt8} (hflac : codec ≠ codecFlac)
    (hfits : isFilterComposite codec = true → FilteredFits z blob)
    (hshort : (compressMetadata z codec blob).length < blob.length) :
    decompress z codec (compressMetadata z codec blob) blob.length = .ok blob := by
  unfold compressMetadata at hshort ⊢
  simp only at hshort ⊢
  split at hshort
  · next c hc =>
      split at hc
      · next hbrotli =>
          rw [hbrotli] at hfits hflac ⊢
          exact decompress_compressWithTunables hz hfits hflac hc
      · exact decompress_compress hz hfits hflac hc
  · omega

theorem metadataDecodes_of_ne_flac (hz : z.Lawful) (hlen : blob.length < u32Limit)
    (hflac : ctx.metadataCodec ≠ codecFlac)
    (hfits : isFilterComposite ctx.metadataCodec = true → FilteredFits z blob) :
    MetadataDecodes z ctx blob := by
  unfold MetadataDecodes metadataOnWire
  simp only
  by_cases hshort : (compressMetadata z ctx.metadataCodec blob).length < blob.length
  · rw [if_pos hshort]
    have hdec := decompress_compressMetadata hz hflac hfits hshort
    unfold decodeInlineBlob
    by_cases hstore : ctx.metadataCodec = codecStore
    · exact ⟨_, by rw [if_pos hstore]⟩
    · refine ⟨blob, ?_⟩
      rw [if_neg hstore, hdec]
      simp only [saturateU32_of_lt hlen]
      rw [if_neg (fun hne => hne rfl)]
  · rw [if_neg hshort]
    exact ⟨blob, by unfold decodeInlineBlob; rw [if_pos rfl]⟩

/-- A reference as `assemble` wrote it: the hash of the blob, and inlined metadata or the locator
of its sidecar. -/
structure RefersTo (H : Hash) (blob : Bytes) (sidecar : Option MetadataSidecar)
    (ref : MetadataReference) : Prop where
  hash : ref.metadataHash = hashSection H blob
  inlined : ref.inlineMetadata.isSome = sidecar.isNone
  locator : ∀ m ∈ sidecar, ref.locators = [⟨m.locator⟩]

/-- Readable metadata is read back with the hash of the blob. -/
theorem reads_assembledReference (hlen : blob.length < u32Limit)
    (hread : MetadataReadable z ctx blob) :
    ∃ ref, RefersTo H blob (metadataSidecarFor H ctx.metadataExternalizeThreshold
        (metadataOnWire z ctx.metadataCodec blob).2) ref ∧
      Reads (parseMetadataReference z) (assembledReference H z ctx blob) ref := by
  unfold assembledReference metadataSidecarFor
  simp only
  by_cases hext : ctx.metadataExternalizeThreshold
      < (metadataOnWire z ctx.metadataCodec blob).2.length
  · rw [if_pos hext]
    refine ⟨_, ⟨rfl, rfl, ?_⟩,
      reads_parseMetadataReference_external hlen (fileUri_metadataLocator H _)⟩
    intro m hm
    cases hm
    rfl
  · rw [if_neg hext]
    obtain ⟨hpos, hceil, decoded, hdec⟩ := hread.resolve_left hext
    refine ⟨_, ⟨rfl, rfl, ?_⟩, reads_parseMetadataReference_inline hlen hpos hceil hdec⟩
    intro m hm
    cases hm

theorem metadataReadable_of_ok (hlen : blob.length < u32Limit) {rest left : Bytes}
    {ref : MetadataReference}
    (hok : parseMetadataReference z (assembledReference H z ctx blob ++ rest) = (.ok ref, left)) :
    MetadataReadable z ctx blob := by
  by_cases hext : ctx.metadataExternalizeThreshold
      < (metadataOnWire z ctx.metadataCodec blob).2.length
  · exact Or.inl hext
  · unfold assembledReference metadataSidecarFor at hok
    simp only at hok
    rw [if_neg hext] at hok
    have hwire := metadataOnWire_length_le (z := z) ctx.metadataCodec blob
    exact Or.inr (parseMetadataReference_inline_ok hlen (Nat.lt_of_le_of_lt hwire hlen) hok)

/-! ### When the roots agree -/

/-- The strings hashed into the root and into its delta linkage, with and without a base. -/
def linkageStrings (H : Hash) (z : Omnizip) (ctx : WriteContext) (blob : Bytes)
    (slabs : List SlabArtifact) : List Bytes :=
  [(assembledHashes H z ctx blob slabs).preimage,
    (assembledHashes H z { ctx with baseRoot := none } blob slabs).preimage,
    [], ctx.baseRoot.elim [] deltaLinkageBytes]

theorem root_ne_of_layer {base : Digest} (hbase : ctx.baseRoot = some base)
    (hcol : NoCollision H (linkageStrings H z ctx blob slabs)) :
    computeMerkleRoot H (assembledHashes H z ctx blob slabs)
      ≠ computeMerkleRoot H (assembledHashes H z { ctx with baseRoot := none } blob slabs) := by
  intro heq
  have hpre := hcol _ (by simp [linkageStrings]) _ (by simp [linkageStrings]) heq
  have hdelta := congrArg SectionHashes.deltaLinkage (SectionHashes.preimage_inj hpre)
  simp only [assembledHashes, hbase, Option.map_some, Option.getD_some, Option.map_none,
    Option.getD_none, hashSection, hashEmptySection] at hdelta
  have hnil := hcol _ (by simp [linkageStrings, hbase]) _ (by simp [linkageStrings]) hdelta
  simp [deltaLinkageBytes] at hnil

theorem assemble_some {a : WriteArtifact} (hblob : ctx.metadataBlob H = some blob)
    (h : assemble H z ctx = some a) :
    a.bytes = assembledManifest H z ctx blob a.slabs ∧
      a.merkleRoot = computeMerkleRoot H (assembledHashes H z ctx blob a.slabs) ∧
      packSlabs H ctx.drops = some a.slabs ∧ blob.length < u32Limit ∧
      a.slabs.length < u32Limit := by
  have hfits : ∀ {n : Nat} {b : Bytes}, u32Bytes n = some b → n < u32Limit := by
    intro n b hn
    unfold u32Bytes at hn
    split at hn
    · assumption
    · cases hn
  simp only [assemble, hblob, Option.bind_eq_bind, Option.bind_eq_some_iff, Option.pure_def,
    Option.some.injEq] at h
  obtain ⟨slabs, hslabs, _, rfl, _, hlen, _, -, _, hcount, rfl⟩ := h
  exact ⟨rfl, rfl, hslabs, hfits hlen, hfits hcount⟩

/--
**When the three roots of an image agree.**  They do exactly when the image is not a layer
and its metadata is in a sidecar or inlined in a form the reader takes; and the reader takes
it from every codec but FLAC.
-/
theorem assembled_roots_agree_iff (hz : z.Lawful) {a : WriteArtifact}
    (hblob : ctx.metadataBlob H = some blob) (h : assemble H z ctx = some a)
    (hcol : NoCollision H (linkageStrings H z ctx blob a.slabs)) :
    ((a.merkleRoot = computeMerkleRootFromSections H z a.bytes ∧
        manifestRoot H z a.bytes = .ok a.merkleRoot)
      ↔ ctx.baseRoot = none ∧ MetadataReadable z ctx blob) ∧
    (ctx.metadataCodec ≠ codecFlac →
      (isFilterComposite ctx.metadataCodec = true → FilteredFits z blob) →
      MetadataDecodes z ctx blob) := by
  obtain ⟨hbytes, hroot, hslabs, hlen, hcount⟩ := assemble_some hblob h
  have hindex := writable_slabIndexOf hslabs hcount
  refine ⟨?_, metadataDecodes_of_ne_flac hz hlen⟩
  rw [hbytes, hroot]
  constructor
  · rintro ⟨-, hfull⟩
    have hread : MetadataReadable z ctx blob := by
      rcases hp : parseSections z (assembledManifest H z ctx blob a.slabs) with ⟨e | s, rest⟩
      · rw [manifestRoot, hp] at hfull
        cases hfull
      · obtain ⟨ref, left, hok⟩ := parseMetadataReference_of_sections hp
        exact metadataReadable_of_ok hlen hok
    refine ⟨?_, hread⟩
    obtain ⟨ref, ⟨hmeta, -, -⟩, href⟩ := reads_assembledReference (H := H) hlen hread
    rw [manifestRoot, parseSections_assembled hindex href] at hfull
    rcases hbase : ctx.baseRoot with _ | base
    · rfl
    · -- the same sections, assembled without the base
      have hplain := root_assembledSections (H := H) (z := z) { ctx with baseRoot := none } a.slabs
        hmeta rfl
      exact absurd ((Except.ok.inj hfull).symm.trans hplain) (root_ne_of_layer hbase hcol)
  · rintro ⟨hbase, hread⟩
    obtain ⟨ref, ⟨hmeta, -, -⟩, href⟩ := reads_assembledReference (H := H) hlen hread
    have hsame := root_assembledSections (H := H) (z := z) ctx a.slabs hmeta hbase
    constructor
    · rw [computeMerkleRootFromSections_assembled hindex href, hsame]
    · rw [manifestRoot, parseSections_assembled hindex href]
      exact congrArg Except.ok hsame

end

namespace Stored

/-- The tree of an empty directory, written as it is or as a layer on `base`. -/
def emptyTree (base : Option Digest) : WriteContext where
  inodes := [⟨1, 0x41ED, 0, 0, 0, [], .directory []⟩]
  dirNodes := [⟨[], dirNodeBytes [], dirNodeHash foldDigest []⟩]
  drops := []
  nlinkCounts := fun _ => none
  inodeXattrs := fun _ => none
  emitSharedInline := true
  metadataCodec := codecBrotli
  metadataExternalizeThreshold := 1000 * 1024
  trainedDicts := .none
  baseRoot := base
  fileCount := 0
  dirCount := 1
  rootInodeNumber := 1

def emptyTreeBlob : Bytes := ((emptyTree none).metadataBlob foldDigest).getD []

/-- The same tree as an image of its own. -/
def emptyImage (base : Option Digest) : WriteArtifact :=
  (assemble foldDigest omnizip (emptyTree base)).getD
    ⟨[], zeroDigest, [], none, 0, 0, 0, 0, 0⟩

end Stored

open LimniFS.Stored

/-- On a layer neither of the other two roots is the one the writer reported. -/
theorem layer_root_not_recomputed :
    ∃ a, assemble foldDigest omnizip (emptyTree (some zeroDigest)) = some a ∧
      a.merkleRoot ≠ computeMerkleRootFromSections foldDigest omnizip a.bytes ∧
      manifestRoot foldDigest omnizip a.bytes ≠ .ok a.merkleRoot := by
  refine ⟨emptyImage (some zeroDigest), rfl, ?_, ?_⟩
  · decide +kernel
  · decide +kernel

/-- The empty tree, not as a layer. -/
theorem assembled_roots_agree_iff_emptyTree :
    (((emptyImage none).merkleRoot = computeMerkleRootFromSections foldDigest
          omnizip (emptyImage none).bytes ∧
        manifestRoot foldDigest omnizip (emptyImage none).bytes
          = .ok (emptyImage none).merkleRoot)
      ↔ (emptyTree none).baseRoot = none ∧
        MetadataReadable omnizip (emptyTree none) emptyTreeBlob) ∧
    ((emptyTree none).metadataCodec ≠ codecFlac →
      (isFilterComposite (emptyTree none).metadataCodec = true →
        FilteredFits omnizip emptyTreeBlob) →
      MetadataDecodes omnizip (emptyTree none) emptyTreeBlob) :=
  assembled_roots_agree_iff omnizip_lawful rfl rfl (by decide +kernel)

end LimniFS
