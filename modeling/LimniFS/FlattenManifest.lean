/-
The manifest of a flattened image.

The sections that the flattener writes are read back, whatever slabs the layers had, except for
one limit: the metadata is inlined as it is, and the parser does not take more than a mebibyte.  A
chain whose metadata was compressed can be over that, and then the flattener panics on its own
output (`flattenManifest_read`).
-/
import LimniFS.FlattenBlob
import LimniFS.RootAgreement

namespace LimniFS

open Lib Lib.Parser Cursor

/-! ### Locators -/

/-- A URI that the parser took. -/
structure Locatable (uri : Bytes) : Prop where
  min_le : minLocatorUriBytes ≤ uri.length
  length_le : uri.length ≤ defaultLocatorMaxUriBytes
  checkUri : checkUri uri = .ok ⟨uri⟩

theorem uri_of_checkUri {uri : Bytes} {locator : LocatorEntry} (h : checkUri uri = .ok locator) :
    locator = ⟨uri⟩ := by
  unfold LimniFS.checkUri at h
  split at h
  · cases h
  · split at h
    · cases h
    · split at h
      · cases h
      · split at h
        · cases h
        · split at h
          · cases h
          · exact (Except.ok.inj h).symm

theorem parseLocatorEntry_ok {locator : LocatorEntry} {bs rest : Bytes}
    (h : parseLocatorEntryWithCeiling defaultLocatorMaxUriBytes bs = (.ok locator, rest)) :
    Locatable locator.uri := by
  simp only [parseLocatorEntryWithCeiling, bind_eq_ok, ensure_eq_ok, readN_eq_ok] at h
  obtain ⟨n, _, -, _, _, ⟨hmin, -⟩, _, _, ⟨hmax, -⟩, uri, _, ⟨rfl, -⟩, hcheck⟩ := h
  have hok := liftExcept_ok hcheck
  obtain rfl := uri_of_checkUri hok
  exact ⟨hmin, hmax, hok⟩

theorem parseLocatorEntries_ok {count : Nat} {locators : List LocatorEntry} {bs rest : Bytes}
    (h : parseLocatorEntriesWithCeiling count defaultLocatorMaxUriBytes bs = (.ok locators, rest)) :
    locators.length = count ∧ ∀ l ∈ locators, Locatable l.uri := by
  obtain ⟨_, _, -, hloop⟩ := bind_eq_ok.mp h
  refine ⟨?_, ?_⟩
  · have hlen := loop_length (fun i l bs l' rest hstep => by
      simp only [bind_eq_ok, pure_eq_ok] at hstep
      obtain ⟨_, _, _, rfl, -⟩ := hstep
      simp) hloop
    simpa using hlen
  · refine loop_invariant (I := fun locators => ∀ l ∈ locators, Locatable (LocatorEntry.uri l))
      (fun _ locators _ locators' _ hok hstep => ?_) (fun _ hin => absurd hin List.not_mem_nil) hloop
    simp only [bind_eq_ok, pure_eq_ok, mapError_eq_ok] at hstep
    obtain ⟨locator, _, hlocator, rfl, -⟩ := hstep
    exact forall_mem_snoc hok (parseLocatorEntry_ok hlocator)

theorem reads_locator {uri : Bytes} (h : Locatable uri) :
    Reads (parseLocatorEntryWithCeiling defaultLocatorMaxUriBytes) (locatorBytes uri) ⟨uri⟩ := by
  have hlt : uri.length < u32Limit := Nat.lt_of_le_of_lt h.length_le (by decide)
  refine (reads_readU32Le hlt).bind ?_
  refine (reads_ensure h.min_le).bind_nil ?_
  refine (reads_ensure h.length_le).bind_nil ?_
  rw [← List.append_nil uri]
  refine (reads_readN (by simp)).bind ?_
  rw [List.append_nil]
  exact reads_liftExcept h.checkUri

theorem reads_locators {uris : List Bytes} (h : ∀ uri ∈ uris, Locatable uri) :
    Reads (parseLocatorEntriesWithCeiling uris.length defaultLocatorMaxUriBytes)
      (uris.flatMap locatorBytes) (uris.map LocatorEntry.mk) := by
  have hlong : uris.length * (locatorLengthPrefixLen + minLocatorUriBytes)
      ≤ (uris.flatMap locatorBytes).length := by
    refine flatMap_length_ge uris fun uri huri => ?_
    have hmin := (h uri huri).min_le
    unfold locatorBytes locatorLengthPrefixLen
    rw [List.length_append, leBytes_length]
    omega
  have heach : List.Forall₂ (fun enc locator => ∀ (i : Nat) done, Reads (do
      let entry ← (parseLocatorEntryWithCeiling defaultLocatorMaxUriBytes).mapError
        (annotateCorrupt s!"locator entry {i}: ")
      pure (done ++ [entry]) : CoreParser (List LocatorEntry)) enc (done ++ [locator]))
      (uris.map locatorBytes) (uris.map LocatorEntry.mk) := by
    rw [List.forall₂_map_left_iff, List.forall₂_map_right_iff, List.forall₂_same]
    exact fun uri huri i done => (reads_locator (h uri huri)).mapError.map fun entry => done ++ [entry]
  refine Reads.demand ?_ hlong
  have hloop := reads_loop_each heach 0 []
  rwa [List.length_map, ← List.flatMap_def, List.nil_append] at hloop

/-! ### Slabs -/

/-- A slab of an index that was accepted. -/
structure SlabIndexEntry.Parsed (entry : SlabIndexEntry) : Prop where
  ordinal : entry.slabId.ordinal < 2 ^ 64
  nonempty : entry.locators ≠ []
  count : entry.locators.length < u32Limit
  locators : ∀ l ∈ entry.locators, Locatable l.uri

theorem parseSlabIndex_ok {index : SlabIndex} {bs rest : Bytes}
    (h : parseSlabIndex bs = (.ok index, rest)) :
    index.entries.length < u32Limit ∧ (index.entries.map SlabIndexEntry.slabId).Nodup ∧
      ∀ entry ∈ index.entries, entry.Parsed := by
  simp only [parseSlabIndex, bind_eq_ok, pure_eq_ok, readU32Le_eq_ok] at h
  obtain ⟨_, _, _, _, _, _, n, _, ⟨hn, -⟩, _, _, _, entries, _, hloop, rfl, -⟩ := h
  refine ⟨?_, ?_⟩
  · have hlen := loop_length (fun i l bs l' rest hstep => by
      simp only [parseSlabIndexEntry, bind_eq_ok, pure_eq_ok] at hstep
      obtain ⟨_, _, _, _, _, _, _, _, _, _, _, _, _, _, _, rfl, -⟩ := hstep
      simp) hloop
    rw [List.length_nil, Nat.zero_add] at hlen
    rwa [hlen]
  · refine loop_invariant (I := fun entries => (entries.map SlabIndexEntry.slabId).Nodup ∧
        ∀ entry ∈ entries, SlabIndexEntry.Parsed entry)
      (fun _ entries _ entries' _ hok hstep => ?_)
      ⟨List.nodup_nil, fun _ hin => absurd hin List.not_mem_nil⟩ hloop
    simp only [parseSlabIndexEntry, bind_eq_ok, pure_eq_ok, ensure_eq_ok, readU32Le_eq_ok, readSlabId,
      readU64Le_eq_ok] at hstep
    obtain ⟨id, _, ⟨ordinal, _, ⟨hordinal, -⟩, hash, _, -, rfl, -⟩, _, _, ⟨hnew, -⟩, count, _,
      ⟨hcount, -⟩, _, _, ⟨hne, -⟩, locators, _, hlocators, rfl, -⟩ := hstep
    obtain ⟨hlen, hall⟩ := parseLocatorEntries_ok hlocators
    refine ⟨?_, forall_mem_snoc hok.2 ⟨hordinal, ?_, by rw [hlen]; exact hcount, hall⟩⟩
    · rw [List.map_append, List.nodup_append]
      refine ⟨hok.1, List.nodup_singleton _, fun a ha b hb heq => ?_⟩
      obtain ⟨entry, hentry, rfl⟩ := List.mem_map.mp ha
      have hdiffers := List.all_eq_true.mp hnew entry hentry
      rw [List.mem_singleton.mp hb] at heq
      simp only [bne_iff_ne, ne_eq] at hdiffers
      exact hdiffers heq
    · rintro rfl
      exact hne hlen.symm

/-- A slab as the flattener writes it, that the parser takes. -/
structure MergedSlab.Valid (entry : MergedSlab) : Prop where
  ordinal : entry.1.ordinal < 2 ^ 64
  nonempty : entry.2 ≠ []
  locators : ∀ uri ∈ entry.2, Locatable uri

/-- What the parser makes of it. -/
def MergedSlab.entry (entry : MergedSlab) : SlabIndexEntry := ⟨entry.1, entry.2.map LocatorEntry.mk⟩

theorem flattenSlabEntry_eq_some {entry : MergedSlab} (h : entry.Valid) {enc : Bytes} :
    flattenSlabEntry entry = some enc ↔ entry.2.length < u32Limit ∧
      enc = leBytes 8 entry.1.ordinal ++ entry.1.hash.val ++ leBytes 4 entry.2.length
        ++ entry.2.flatMap locatorBytes := by
  have hmapM : entry.2.mapM sizedBytes = some (entry.2.map locatorBytes) := by
    rw [mapM_some_iff, List.forall₂_map_right_iff, List.forall₂_same]
    intro uri huri
    have hlt : uri.length < u32Limit := Nat.lt_of_le_of_lt (h.locators uri huri).length_le (by decide)
    exact sizedBytes_eq_some.mpr ⟨hlt, rfl⟩
  unfold flattenSlabEntry
  simp only [hmapM, Option.bind_eq_bind, Option.bind_eq_some_iff, u32Bytes_eq_some, Option.some.injEq,
    exists_eq_left', List.flatMap_def]
  constructor
  · rintro ⟨_, ⟨hlt, rfl⟩, rfl⟩
    exact ⟨hlt, rfl⟩
  · rintro ⟨hlt, rfl⟩
    exact ⟨_, ⟨hlt, rfl⟩, rfl⟩

theorem reads_flattenSlabs {slabs : List MergedSlab} (hvalid : ∀ entry ∈ slabs, entry.Valid)
    (hnodup : (slabs.map Prod.fst).Nodup) (hcount : slabs.length < u32Limit) {encs : List Bytes}
    (henc : slabs.mapM flattenSlabEntry = some encs) :
    Reads parseSlabIndex ([1] ++ leBytes 4 slabs.length ++ encs.flatten)
      ⟨slabs.map MergedSlab.entry⟩ := by
  let enc : SlabIndexEntry → Bytes := fun entry =>
    leBytes 8 entry.slabId.ordinal ++ entry.slabId.hash.val ++ leBytes 4 entry.locators.length
      ++ entry.locators.flatMap fun l => locatorBytes l.uri
  have hall := forall₂_and_mem_left (mapM_some_iff.mp henc)
  have hflat : encs.flatten = (slabs.map MergedSlab.entry).flatMap enc := by
    have hmap := map_eq_map_of_forall₂ (f := fun entry => enc (MergedSlab.entry entry)) (g := id) hall
      fun entry b hb => by
        obtain ⟨-, rfl⟩ := (flattenSlabEntry_eq_some (hvalid entry hb.2)).mp hb.1
        simp [enc, MergedSlab.entry, List.flatMap_map]
    rw [List.flatMap_def, List.map_map]
    exact congrArg List.flatten (hmap.trans (List.map_id _)).symm
  rw [hflat, List.append_assoc]
  refine (reads_readU8 1).bind ?_
  refine (reads_ensure rfl).bind_nil ?_
  refine (reads_readU32Le hcount).bind ?_
  have hlong : slabs.length * slabIndexEntryFixedLen
      ≤ ((slabs.map MergedSlab.entry).flatMap enc).length := by
    rw [← List.length_map (f := MergedSlab.entry)]
    refine flatMap_length_ge _ fun entry _ => ?_
    simp only [enc, slabIndexEntryFixedLen, List.length_append, leBytes_length, entry.slabId.hash.2]
    omega
  refine Reads.demand ?_ hlong
  have hloop : Reads (loop (parseSlabIndexEntry defaultLocatorMaxUriBytes)
      (slabs.map MergedSlab.entry).length 0 []) ((slabs.map MergedSlab.entry).flatMap enc)
      ([] ++ slabs.map MergedSlab.entry) := by
    refine reads_loop _ [] 0 fun before entry after heq => ?_
    have hmem : entry ∈ slabs.map MergedSlab.entry := by rw [heq]; simp
    obtain ⟨slab, hslab, rfl⟩ := List.mem_map.mp hmem
    have hslabValid := hvalid slab hslab
    obtain ⟨b, -, hb⟩ := exists_mem_of_forall₂ hall.flip slab hslab
    have hlt := ((flattenSlabEntry_eq_some hslabValid).mp hb.1).1
    have hids : (before.map SlabIndexEntry.slabId ++ slab.1 :: after.map SlabIndexEntry.slabId).Nodup := by
      have hmap := congrArg (List.map SlabIndexEntry.slabId) heq
      rw [List.map_append, List.map_cons, List.map_map] at hmap
      exact hmap ▸ hnodup
    simp only [enc, List.append_assoc]
    rw [← List.append_assoc (leBytes 8 _)]
    refine (reads_readSlabId hslabValid.ordinal).bind ?_
    refine (reads_ensure ?_).bind_nil ?_
    · rw [List.all_eq_true]
      intro e he
      have hne := (List.nodup_append.mp hids).2.2 e.slabId (List.mem_map_of_mem he) slab.1
        List.mem_cons_self
      simpa using hne
    have hlen : (MergedSlab.entry slab).locators.length = slab.2.length := List.length_map _
    rw [hlen]
    refine (reads_readU32Le hlt).bind ?_
    have hne : slab.2.length ≠ 0 := fun hzero => hslabValid.nonempty (List.length_eq_zero_iff.mp hzero)
    refine (reads_ensure hne).bind_nil ?_
    have hlocators := reads_locators hslabValid.locators
    have hsame : (MergedSlab.entry slab).locators.flatMap (fun l => locatorBytes l.uri)
        = slab.2.flatMap locatorBytes := by
      simp [MergedSlab.entry, List.flatMap_map]
    rw [hsame]
    exact hlocators.map fun locators => [] ++ before ++ [(⟨slab.1, locators⟩ : SlabIndexEntry)]
  rw [List.nil_append, List.length_map] at hloop
  exact hloop.map fun entries => (⟨entries⟩ : SlabIndex)

/-! ### The other sections -/

theorem reads_flattenHistory (layerCount : Nat) :
    Reads parseHistory (flattenHistory layerCount) ⟨[⟨.flatten, 0, [], leBytes 8 layerCount⟩]⟩ := by
  unfold flattenHistory
  simp only [List.append_assoc]
  refine (reads_readU8 1).bind ?_
  refine (reads_ensure rfl).bind_nil ?_
  refine (reads_readU32Le (n := 1) (by decide)).bind ?_
  refine (reads_ensure (by decide)).bind_nil ?_
  refine Reads.demand ?_ (by simp [historyEntryMinLen])
  have hentry : Reads (parseHistoryEntryWithCeiling defaultHistoryParamsMaxBytes)
      ([HistoryOp.flatten.toByte] ++ (leBytes 8 0 ++ (leBytes 4 0 ++ (leBytes 4 8
        ++ leBytes 8 layerCount)))) ⟨.flatten, 0, [], leBytes 8 layerCount⟩ := by
    refine (reads_readU8 _).bind ?_
    refine (reads_liftExcept (historyOp_toByte .flatten)).bind_nil ?_
    refine (reads_readU64Le (by decide)).bind ?_
    refine (reads_readU32Le (n := 0) (by decide)).bind ?_
    refine (reads_readFixed (n := 32 * 0) ⟨[], rfl⟩).bind_nil ?_
    refine (reads_readU32Le (n := 8) (by decide)).bind ?_
    refine (reads_ensure (by decide)).bind_nil ?_
    exact (reads_readN (leBytes_length 8 layerCount)).map fun params =>
      (⟨.flatten, 0, [], params⟩ : HistoryEntry)
  rw [← List.append_nil ([HistoryOp.flatten.toByte] ++ _)]
  refine Reads.bind ?_ (reads_pure _)
  rw [← List.append_nil ([HistoryOp.flatten.toByte] ++ _)]
  refine Reads.bind ?_ (reads_pure _)
  exact hentry.mapError.map fun entry => [entry]

section

variable {H : Hash} {z : Omnizip} {blob reference : Bytes}

/-- Reading the reference comes down to reading the inlined bytes. -/
theorem parse_flattenReference (h : flattenReference H blob = some reference) (rest : Bytes) :
    parseMetadataReference z (reference ++ rest)
      = (do
          let inlineMetadata ←
            readInlineBlob z blob.length defaultInlineMetadataMaxBytes blob.length codecStore
          ensure (([] : List LocatorEntry) ≠ [] ∨ inlineMetadata ≠ none) (unreachableError 37)
          pure ⟨H blob, [], inlineMetadata, codecStore, blob.length⟩ :
          CoreParser MetadataReference) (blob ++ rest) := by
  simp only [flattenReference, Option.bind_eq_bind, Option.bind_eq_some_iff, u32Bytes_eq_some,
    Option.some.injEq] at h
  obtain ⟨_, ⟨hlen, rfl⟩, rfl⟩ := h
  unfold parseMetadataReference parseMetadataReferenceWithCeilings
  simp only [List.append_assoc]
  rw [(reads_readU8 1).bind_append, if_pos rfl]
  unfold parseMetadataReferenceV1
  rw [(reads_readHash (hashSection H blob)).bind_append, (reads_readU32Le (by decide)).bind_append,
    reads_parseLocatorEntries_none.bind_nil_apply, (reads_readU32Le hlen).bind_append]
  rfl

theorem reads_flattenReference (h : flattenReference H blob = some reference) (hpos : 0 < blob.length)
    (hle : blob.length ≤ defaultInlineMetadataMaxBytes) :
    Reads (parseMetadataReference z) reference ⟨H blob, [], some blob, codecStore, blob.length⟩ := by
  intro rest
  rw [parse_flattenReference h]
  have hread : Reads (readInlineBlob z blob.length defaultInlineMetadataMaxBytes blob.length
      codecStore) blob (some blob) := by
    unfold readInlineBlob
    rw [if_neg (by omega)]
    refine (reads_ensure hle).bind_nil ?_
    intro rest
    rw [(reads_readN rfl).bind_append]
    exact (reads_liftExcept (r := decodeInlineBlob z codecStore blob blob.length) (if_pos rfl)).map
      some rest
  rw [hread.bind_append]
  rfl

theorem flattenReference_over (h : flattenReference H blob = some reference)
    (hover : defaultInlineMetadataMaxBytes < blob.length) (rest : Bytes) {x : MetadataReference}
    {left : Bytes} : parseMetadataReference z (reference ++ rest) ≠ (.ok x, left) := by
  intro hok
  rw [parse_flattenReference h] at hok
  obtain ⟨inline, mid, hread, -⟩ := bind_eq_ok.mp hok
  unfold readInlineBlob at hread
  rw [if_neg (by unfold defaultInlineMetadataMaxBytes at hover; omega)] at hread
  obtain ⟨_, _, hens, -⟩ := bind_eq_ok.mp hread
  obtain ⟨hle, -⟩ := ensure_eq_ok.mp hens
  omega

/-! ### The manifest -/

variable {inodes : List Inode} {nodes : List DirectoryNode} {slabs : List MergedSlab}
  {layerCount : Nat} {bytes : Bytes}

theorem flattenManifest_eq_some :
    flattenManifest H inodes nodes slabs layerCount = some bytes ↔
      ∃ blob reference encs, flattenMetadataBlob inodes nodes = some blob ∧
        flattenReference H blob = some reference ∧ slabs.length < u32Limit ∧
        slabs.mapM flattenSlabEntry = some encs ∧
        bytes = ManifestHeader.current.toBytes ++ emptyFlagsBytes ++ reference
          ++ ([1] ++ leBytes 4 slabs.length ++ encs.flatten) ++ flattenHistory layerCount := by
  unfold flattenManifest
  simp only [Option.bind_eq_bind, Option.bind_eq_some_iff, u32Bytes_eq_some, Option.some.injEq]
  constructor
  · rintro ⟨blob, hblob, reference, href, _, ⟨hcount, rfl⟩, encs, hencs, rfl⟩
    exact ⟨blob, reference, encs, hblob, href, hcount, hencs, rfl⟩
  · rintro ⟨blob, reference, encs, hblob, href, hcount, hencs, rfl⟩
    exact ⟨blob, hblob, reference, href, _, ⟨hcount, rfl⟩, encs, hencs, rfl⟩

theorem flattenMetadataBlob_pos (h : flattenMetadataBlob inodes nodes = some blob) :
    0 < blob.length := by
  obtain ⟨-, -, encs, wires, -, -, rfl⟩ := flattenMetadataBlob_eq_some.mp h
  simp

/-- **The flattener reads its own manifest exactly if the metadata is not over the ceiling**, and
then so does everybody. -/
theorem flattenManifest_read (hvalid : ∀ entry ∈ slabs, entry.Valid)
    (hnodup : (slabs.map Prod.fst).Nodup)
    (h : flattenManifest H inodes nodes slabs layerCount = some bytes) :
    ∃ blob, flattenMetadataBlob inodes nodes = some blob ∧
      ((rootFromSections H z bytes).isSome ↔ blob.length ≤ defaultInlineMetadataMaxBytes) ∧
      (blob.length ≤ defaultInlineMetadataMaxBytes → parseLayer z bytes
        = .ok ⟨⟨H blob, [], some blob, codecStore, blob.length⟩, slabs.map MergedSlab.entry⟩) := by
  obtain ⟨blob, reference, encs, hblob, href, hcount, hencs, rfl⟩ := flattenManifest_eq_some.mp h
  have hslabs := reads_flattenSlabs hvalid hnodup hcount hencs
  have hhistory := reads_flattenHistory layerCount
  generalize [1] ++ leBytes 4 slabs.length ++ encs.flatten = slabBytes at hslabs ⊢
  generalize flattenHistory layerCount = historyBytes at hhistory ⊢
  refine ⟨blob, hblob, ⟨?_, ?_⟩, ?_⟩
  · intro hroot
    by_contra hover
    obtain ⟨root, hroot⟩ := Option.isSome_iff_exists.mp hroot
    simp only [rootFromSections, List.append_assoc, reads_parseManifestHeader.withSpan.bind_append,
      reads_parseFeatureFlagsSection.withSpan.bind_append] at hroot
    rw [bind_apply] at hroot
    rcases hspan : (parseMetadataReference z).withSpan (reference ++ (slabBytes ++ historyBytes))
      with ⟨value, left⟩
    rw [hspan] at hroot
    cases value with
    | error e => cases hroot
    | ok value =>
        obtain ⟨hok, -⟩ := withSpan_eq_ok.mp hspan
        exact flattenReference_over href (Nat.lt_of_not_le hover) _ hok
  · intro hle
    have hreference := reads_flattenReference (z := z) href (flattenMetadataBlob_pos hblob) hle
    simp only [rootFromSections, List.append_assoc, reads_parseManifestHeader.withSpan.bind_append,
      reads_parseFeatureFlagsSection.withSpan.bind_append, hreference.withSpan.bind_append,
      hslabs.withSpan.bind_append]
    have hlast := hhistory.withSpan []
    rw [List.append_nil] at hlast
    rw [bind_apply, hlast]
    rfl
  · intro hle
    have hreference := reads_flattenReference (z := z) href (flattenMetadataBlob_pos hblob) hle
    simp only [parseLayer, parseLayerSections, List.append_assoc,
      reads_parseManifestHeader.bind_append, reads_parseFeatureFlagsSection.bind_append,
      hreference.bind_append, hslabs.bind_append]
    have hlast := hhistory []
    rw [List.append_nil] at hlast
    rw [bind_apply, hlast]
    rfl

end

end LimniFS
