/-
What readers find behind the history.

The sections there have no tags, and the two of them begin with the same version byte.  A reader
takes what it finds as dictionaries if it parses as such.  So the dictionaries of an image are
recovered when there are some, but a layer without dictionaries has its delta linkage read instead:
the first byte of the base root is then the number of dictionaries, and nothing keeps it from being
zero (`linkage_of_zero`).

`dictionaries_recovered_iff` says for which images both loaders recover what was emitted.
-/
import LimniFS.ImageReader
import LimniFS.RootAgreement

namespace LimniFS

open Lib Lib.Parser Cursor

/-- The dictionaries of a base image, for a layer to adopt.  Best effort: a section that fails
leaves the cursor where its parser stopped. -/
def loadBaseDictionarySection (z : Omnizip) (manifest : Bytes) :
    Except CoreError (Option DictionarySection) :=
  match parseManifestHeader manifest with
  | (.error e, _) => .error e
  | (.ok _, afterHeader) =>
    let afterFlags := (parseFeatureFlagsSection afterHeader).2
    let afterReference := (parseMetadataReference z afterFlags).2
    let afterIndex := (parseSlabIndex afterReference).2
    .ok (trailingDictionaries afterIndex)

theorem trailingDictionaries_history (op : HistoryOp) (trailer : Bytes) :
    trailingDictionaries (historyBytes op ++ trailer) =
      if trailer = [] then none else (parseDictionarySection trailer).1.toOption := by
  unfold trailingDictionaries
  rw [reads_parseHistory op trailer]
  simp only
  by_cases hnil : trailer = []
  · rw [if_pos hnil, if_pos hnil]
  · rw [if_neg hnil, if_neg hnil]
    rcases parseDictionarySection trailer with ⟨e | d, rest⟩
    · rfl
    · rfl

/-! ### An assembled image is loaded -/

section

variable {H : Hash} {z : Omnizip} {ctx : WriteContext} {blob : Bytes} {slabs : List SlabArtifact}
  {front : ManifestFront} {rest : Bytes}

/-- The front of an assembled manifest with readable metadata, and what follows it. -/
theorem parseManifestFront_readable (hlen : blob.length < u32Limit)
    (hread : MetadataReadable z ctx blob) :
    ∃ ref, RefersTo H blob (metadataSidecarFor H ctx.metadataExternalizeThreshold
        (metadataOnWire z ctx.metadataCodec blob).2) ref ∧
      Reads (parseMetadataReference z) (assembledReference H z ctx blob) ref ∧
      parseManifestFront z (assembledManifest H z ctx blob slabs) =
        (.ok ⟨ManifestHeader.current.toBytes, emptyFlagsBytes, ref, assembledReference H z ctx blob⟩,
          slabIndexBytes (slabIndexOf slabs) ++ (historyBytes .build ++ ctx.trailer)) := by
  obtain ⟨ref, hrefers, hreads⟩ := reads_assembledReference (H := H) hlen hread
  have hfront : Reads (parseManifestFront z) (ManifestHeader.current.toBytes ++ (emptyFlagsBytes
      ++ assembledReference H z ctx blob)) ⟨ManifestHeader.current.toBytes, emptyFlagsBytes, ref,
        assembledReference H z ctx blob⟩ := by
    refine reads_parseManifestHeader.withSpan.bind ?_
    refine reads_parseFeatureFlagsSection.withSpan.bind ?_
    exact hreads.withSpan.map fun r => (⟨ManifestHeader.current.toBytes, emptyFlagsBytes, r.1,
      r.2⟩ : ManifestFront)
  have hall := hfront (slabIndexBytes (slabIndexOf slabs) ++ (historyBytes .build ++ ctx.trailer))
  simp only [List.append_assoc] at hall
  exact ⟨ref, hrefers, hreads, hall⟩

/-- The front of an assembled manifest, if it can be read, and what follows it. -/
theorem parseManifestFront_assembled (hlen : blob.length < u32Limit)
    (h : parseManifestFront z (assembledManifest H z ctx blob slabs) = (.ok front, rest)) :
    RefersTo H blob (metadataSidecarFor H ctx.metadataExternalizeThreshold
        (metadataOnWire z ctx.metadataCodec blob).2) front.metadataReference ∧
      Reads (parseMetadataReference z) front.metadataReferenceBytes front.metadataReference ∧
      front.headerBytes = ManifestHeader.current.toBytes ∧ front.flagsBytes = emptyFlagsBytes ∧
      front.metadataReferenceBytes = assembledReference H z ctx blob ∧
      rest = slabIndexBytes (slabIndexOf slabs) ++ (historyBytes .build ++ ctx.trailer) := by
  have hok := h
  unfold assembledManifest parseManifestFront at hok
  rw [reads_parseManifestHeader.withSpan.bind_append,
    reads_parseFeatureFlagsSection.withSpan.bind_append] at hok
  obtain ⟨⟨ref, span⟩, left, href, -⟩ := bind_eq_ok.mp hok
  obtain ⟨ref', hrefers, hreads, hread⟩ := @parseManifestFront_readable H z ctx blob slabs hlen
    (metadataReadable_of_ok hlen (withSpan_eq_ok.mp href).1)
  rw [hread] at h
  cases h
  exact ⟨hrefers, hreads, rfl, rfl, rfl, rfl⟩

/-- The index of an assembled image, and the dictionaries found in it. -/
theorem loadImage_assembled {dir : Directory} {loaded : LoadedImage} (hlen : blob.length < u32Limit)
    (hindex : (slabIndexOf slabs).Writable)
    (h : loadImage z ⟨assembledManifest H z ctx blob slabs, dir⟩ = .ok loaded) :
    loaded.slabIndex = slabIndexOf slabs ∧
      loaded.dictSection = trailingDictionaries (historyBytes .build ++ ctx.trailer) := by
  obtain ⟨front, rest, bytes, blobRest, rest', hfront, -, -, hparsed, -, -, hdict⟩ :=
    loadImage_eq_ok.mp h
  obtain ⟨-, -, -, -, -, rfl⟩ := parseManifestFront_assembled hlen hfront
  rw [reads_parseSlabIndex hindex] at hparsed
  obtain ⟨hi, rfl⟩ := Prod.mk.inj hparsed
  exact ⟨(Except.ok.inj hi).symm, hdict⟩

/-- The dictionaries a layer finds in an assembled base. -/
theorem loadBaseDictionarySection_assembled {ref : MetadataReference}
    (hindex : (slabIndexOf slabs).Writable)
    (href : Reads (parseMetadataReference z) (assembledReference H z ctx blob) ref) :
    loadBaseDictionarySection z (assembledManifest H z ctx blob slabs)
      = .ok (trailingDictionaries (historyBytes .build ++ ctx.trailer)) := by
  unfold loadBaseDictionarySection assembledManifest
  rw [reads_parseManifestHeader]
  simp only
  rw [reads_parseFeatureFlagsSection, href, reads_parseSlabIndex hindex]

end

/-! ### The dictionaries -/

theorem dicts_within_cap {d : DictionarySection} {bs rest : Bytes}
    (h : parseDictionarySection bs = (.ok d, rest)) :
    ∀ dict ∈ d.dicts, dict.data.length ≤ maxDictSize := by
  simp only [parseDictionarySection, bind_eq_ok, pure_eq_ok] at h
  obtain ⟨_, _, -, _, _, -, count, _, -, dicts, _, hloop, rfl, -⟩ := h
  refine loop_invariant (I := fun l : List Dictionary => ∀ dict ∈ l, dict.data.length ≤ maxDictSize)
    ?_ (fun _ hin => absurd hin List.not_mem_nil) hloop
  intro index dicts bs dicts' rest hall hstep
  simp only [parseDictionary, bind_eq_ok, pure_eq_ok, ensure_eq_ok, readN_eq_ok] at hstep
  obtain ⟨codecId, _, -, classId, _, -, len, _, -, _, _, ⟨hcap, rfl⟩, data, _, ⟨rfl, rfl⟩, rfl, -⟩ := hstep
  exact forall_mem_snoc hall hcap

/-- The section `assemble` emitted, if it emitted one. -/
def WriteContext.emittedDictionaries (ctx : WriteContext) : Option DictionarySection :=
  if ctx.trainedDicts.toList = [] then none else some ctx.trainedDicts.section_

/-- There are dictionaries and a reader takes them all; or there are none, and the linkage, if the
image is a layer, is not a section of dictionaries. -/
def WriteContext.TailUnambiguous (ctx : WriteContext) : Prop :=
  if ctx.trainedDicts.toList = [] then
    ∀ base, ctx.baseRoot = some base → (parseDictionarySection (deltaLinkageBytes base)).1.toOption = none
  else ctx.trainedDicts.WithinCap

theorem deltaLinkageBytes_ne_nil (base : Digest) : deltaLinkageBytes base ≠ [] := by
  simp [deltaLinkageBytes]

/-- **What is found behind the history is what was emitted** exactly on an unambiguous tail. -/
theorem trailingDictionaries_iff (ctx : WriteContext) :
    trailingDictionaries (historyBytes .build ++ ctx.trailer) = ctx.emittedDictionaries ↔
      ctx.TailUnambiguous := by
  rw [trailingDictionaries_history, WriteContext.trailer, WriteContext.emittedDictionaries,
    WriteContext.TailUnambiguous]
  by_cases hdicts : ctx.trainedDicts.toList = []
  · rw [if_pos hdicts, if_pos hdicts, if_pos hdicts, List.nil_append]
    cases hbase : ctx.baseRoot with
    | none => simp
    | some base =>
        rw [Option.elim_some, if_neg (deltaLinkageBytes_ne_nil base)]
        constructor
        · intro h base' hsame
          obtain rfl := Option.some.inj hsame
          exact h
        · intro h
          exact h base rfl
  · rw [if_neg hdicts, if_neg hdicts, if_neg hdicts]
    have hne : encodeDictionarySection ctx.trainedDicts.section_ ++ ctx.baseRoot.elim [] deltaLinkageBytes
        ≠ [] := by simp [encodeDictionarySection]
    rw [if_neg hne]
    constructor
    · intro h d hd
      rcases hparse : parseDictionarySection (encodeDictionarySection ctx.trainedDicts.section_
        ++ ctx.baseRoot.elim [] deltaLinkageBytes) with ⟨e | parsed, rest⟩
      · rw [hparse] at h
        cases h
      · rw [hparse] at h
        obtain rfl := Option.some.inj h
        exact dicts_within_cap hparse _ (List.mem_map.mpr ⟨d, hd, rfl⟩)
    · intro hcap
      have hread := reads_parseDictionarySection ctx.trainedDicts.length_toList_lt (by
        intro d hd
        obtain ⟨d', hd', rfl⟩ := List.mem_map.mp hd
        exact hcap d' hd')
      rw [hread]
      rfl

/-- A manifest whose sections can be read gives both loaders what was emitted. -/
def RecoversDictionaries (z : Omnizip) (ctx : WriteContext) (a : WriteArtifact) : Prop :=
  ∀ s rest, parseSections z a.bytes = (.ok s, rest) →
    loadBaseDictionarySection z a.bytes = .ok ctx.emittedDictionaries ∧
    ∀ dir loaded, loadImage z ⟨a.bytes, dir⟩ = .ok loaded →
      loaded.dictSection = ctx.emittedDictionaries

theorem tailUnambiguous_of_recovers {H : Hash} {z : Omnizip} {ctx : WriteContext} {a : WriteArtifact}
    {blob : Bytes} (hblob : ctx.metadataBlob H = some blob) (h : assemble H z ctx = some a)
    (hread : MetadataReadable z ctx blob) (hrecovers : RecoversDictionaries z ctx a) :
    ctx.TailUnambiguous := by
  obtain ⟨hbytes, -, hslabs, hlen, hcount⟩ := assemble_some hblob h
  have hindex := writable_slabIndexOf hslabs hcount
  obtain ⟨ref, -, href⟩ := reads_assembledReference (H := H) hlen hread
  unfold RecoversDictionaries at hrecovers
  rw [hbytes] at hrecovers
  obtain ⟨hbase, -⟩ := hrecovers _ _ (parseSections_assembled hindex href)
  rw [loadBaseDictionarySection_assembled hindex href] at hbase
  exact (trailingDictionaries_iff ctx).mp (Except.ok.inj hbase)

/-- **The dictionaries that were emitted are recovered, and none where none were**, exactly if what
stands behind the history is unambiguous. -/
theorem dictionaries_recovered_iff {H : Hash} {z : Omnizip} {ctx : WriteContext} {a : WriteArtifact}
    {blob : Bytes} (hblob : ctx.metadataBlob H = some blob) (h : assemble H z ctx = some a) :
    RecoversDictionaries z ctx a ↔ (MetadataReadable z ctx blob → ctx.TailUnambiguous) := by
  refine ⟨fun hrecovers hread => tailUnambiguous_of_recovers hblob h hread hrecovers, ?_⟩
  obtain ⟨hbytes, -, hslabs, hlen, hcount⟩ := assemble_some hblob h
  have hindex := writable_slabIndexOf hslabs hcount
  unfold RecoversDictionaries
  rw [hbytes]
  · intro hplain s rest hparse
    obtain ⟨ref', left, hok⟩ := parseMetadataReference_of_sections hparse
    have hread := metadataReadable_of_ok hlen hok
    obtain ⟨ref, -, href⟩ := reads_assembledReference (H := H) hlen hread
    have hfound := (trailingDictionaries_iff ctx).mpr (hplain hread)
    refine ⟨?_, fun dir loaded hload => ?_⟩
    · rw [loadBaseDictionarySection_assembled hindex href, hfound]
    · rw [(loadImage_assembled hlen hindex hload).2, hfound]

/-! ### Which linkages are taken for dictionaries -/

/-- **A base root that starts with a zero byte** makes the linkage a section without dictionaries. -/
theorem linkage_of_zero {base : Digest} (h : base.val.head? = some 0) :
    (parseDictionarySection (deltaLinkageBytes base)).1.toOption = some ⟨[]⟩ := by
  obtain ⟨more, hmore⟩ : ∃ more, base.val = 0 :: more := List.head?_eq_some_iff.mp h
  have hbytes : deltaLinkageBytes base
      = encodeDictionarySection ⟨[]⟩ ++ (more ++ leBytes 4 0) := by
    rw [deltaLinkageBytes, hmore]
    rfl
  rw [hbytes, reads_parseDictionarySection (by decide) (fun _ hin => absurd hin List.not_mem_nil)]
  rfl

namespace Stored

/-- The root of a base image that starts with a byte above five. -/
def plainRoot : Digest := ⟨List.replicate 32 7, by decide⟩

end Stored

open LimniFS.Stored

/-- A layer of an empty directory, on a base with such a root. -/
theorem dictionaries_recovered_iff_layer :
    ∃ a, assemble foldDigest omnizip (emptyTree (some plainRoot)) = some a ∧
      (RecoversDictionaries omnizip (emptyTree (some plainRoot)) a ↔
        (MetadataReadable omnizip (emptyTree (some plainRoot))
            emptyTreeBlob →
          (emptyTree (some plainRoot)).TailUnambiguous)) :=
  ⟨emptyImage (some plainRoot), rfl,
    dictionaries_recovered_iff (H := foldDigest) rfl rfl⟩

/-- **A layer without dictionaries on a base whose root starts with a zero byte has one anyway.** -/
theorem linkage_read_as_dictionaries :
    ∃ a, assemble foldDigest omnizip (emptyTree (some zeroDigest)) = some a ∧
      ¬ RecoversDictionaries omnizip (emptyTree (some zeroDigest)) a := by
  refine ⟨emptyImage (some zeroDigest), rfl, fun hrecovers => ?_⟩
  have hread : MetadataReadable omnizip (emptyTree (some zeroDigest))
      emptyTreeBlob :=
    Or.inr ⟨by decide +kernel, by decide +kernel,
      metadataDecodes_of_ne_flac omnizip_lawful (by decide +kernel) (by decide)
        (fun hfilter => absurd hfilter (by decide))⟩
  have hplain := tailUnambiguous_of_recovers (H := foldDigest) rfl rfl hread hrecovers
  have hdicts : (emptyTree (some zeroDigest)).trainedDicts.toList = [] := rfl
  rw [WriteContext.TailUnambiguous, if_pos hdicts] at hplain
  have hnone := hplain zeroDigest rfl
  rw [linkage_of_zero rfl] at hnone
  cases hnone

end LimniFS
