/-
The sections a writer emits, and that they are read back.

A writer only ever emits part of what the parsers accept: no feature flags, one
locator per slab, one history entry.  For each section there is the bytes a writer
puts down and the fact that the section's parser reads them back.  The inlined
metadata is the one section that need not be readable: the parser has a ceiling the
writer may be told to ignore, and it decompresses what the writer compressed.
-/
import LimniFS.MerkleRoot

namespace LimniFS

open Lib Lib.Parser Cursor

/-! ### Header and feature flags -/

theorem reads_parseManifestHeader :
    Reads parseManifestHeader ManifestHeader.current.toBytes ManifestHeader.current := by
  have hbytes : ManifestHeader.current.toBytes = manifestMagic ++ (leBytes 2 1 ++ (leBytes 2 1
      ++ (leBytes 2 1 ++ [0, 0, 0, 0, 0, 0]))) := by
    simp [ManifestHeader.toBytes, ManifestHeader.current]
  rw [hbytes]
  refine (reads_readN (n := 4) (l := manifestMagic) rfl).bind ?_
  refine (reads_ensure rfl).bind_nil ?_
  refine (reads_readU16Le (by decide)).bind ?_
  refine (reads_readU16Le (by decide)).bind ?_
  refine (reads_readU16Le (by decide)).bind ?_
  rw [← List.append_nil [0, 0, 0, 0, 0, 0]]
  refine (reads_readN (n := 6) (l := [0, 0, 0, 0, 0, 0]) rfl).bind ?_
  exact (reads_ensure rfl).bind_nil (reads_pure _)

/-- A feature-flags section without entries. -/
def emptyFlagsBytes : Bytes := [1] ++ leBytes 4 0

theorem reads_parseFeatureFlagsSection :
    Reads parseFeatureFlagsSection emptyFlagsBytes ⟨[]⟩ := by
  refine (reads_readU8 1).bind ?_
  refine (reads_ensure rfl).bind_nil ?_
  rw [← List.append_nil (leBytes 4 0)]
  refine (reads_readU32Le (by decide)).bind ?_
  exact (reads_pure _).demand (by simp)

/-! ### Locators -/

/-- A locator the writer may emit: `file:` and a short ASCII name. -/
structure FileUri (uri : Bytes) : Prop where
  scheme : ∃ name, uri = ascii "file:" ++ name ∧ name ≠ []
  asciiOnly : ∀ b ∈ uri, b < 0x80
  length_le : uri.length ≤ defaultLocatorMaxUriBytes

theorem FileUri.checkUri {uri : Bytes} (h : FileUri uri) : checkUri uri = .ok ⟨uri⟩ := by
  have hutf8 := utf8Valid_ascii h.asciiOnly
  obtain ⟨name, rfl, hname⟩ := h.scheme
  have hsplit : splitOnce 58 (ascii "file:" ++ name) = some (ascii "file", name) := by
    unfold splitOnce
    rw [if_pos (List.mem_append_left _ (by decide))]
    rfl
  unfold LimniFS.checkUri
  rw [if_neg (by rw [hutf8]; decide), hsplit]
  simp only
  rw [if_neg (by decide), if_neg (by decide), if_neg hname]

theorem FileUri.min_le {uri : Bytes} (h : FileUri uri) : minLocatorUriBytes ≤ uri.length := by
  obtain ⟨name, rfl, -⟩ := h.scheme
  rw [List.length_append]
  exact Nat.le_add_right_of_le (by decide)

theorem FileUri.lt_u32 {uri : Bytes} (h : FileUri uri) : uri.length < u32Limit :=
  Nat.lt_of_le_of_lt h.length_le (by decide)

/-- A text of ASCII characters, at most `n` of them. -/
structure ShortAscii (n : Nat) (s : String) : Prop where
  length_le : s.toList.length ≤ n
  asciiOnly : ∀ c ∈ s.toList, c.toNat < 128

theorem shortAscii_of_check {n : Nat} {s : String}
    (h : (s.toList.length ≤ n && s.toList.all fun c => c.toNat < 128) = true) : ShortAscii n s := by
  rw [Bool.and_eq_true, decide_eq_true_eq, List.all_eq_true] at h
  exact ⟨h.1, fun c hc => of_decide_eq_true (h.2 c hc)⟩

theorem ShortAscii.append {m n : Nat} {s t : String} (hs : ShortAscii m s) (ht : ShortAscii n t) :
    ShortAscii (m + n) (s ++ t) where
  length_le := by
    rw [String.toList_append, List.length_append]
    exact Nat.add_le_add hs.length_le ht.length_le
  asciiOnly c hc := by
    rw [String.toList_append] at hc
    rcases List.mem_append.mp hc with h | h
    · exact hs.asciiOnly c h
    · exact ht.asciiOnly c h

theorem shortAscii_hexLower (bytes : Bytes) :
    ShortAscii (2 * bytes.length) (String.ofList (hexLower bytes)) where
  length_le := by
    rw [String.toList_ofList]
    induction bytes with
    | nil => exact Nat.le_refl 0
    | cons b rest ih =>
        unfold hexLower at ih ⊢
        rw [List.flatMap_cons, List.length_append, List.length_cons]
        have hb : (hexDigits false 2 b.toNat).length = 2 := rfl
        omega
  asciiOnly c hc := by
    have hdigit : ∀ n < 16, (hexDigit false n).toNat < 128 := by decide
    rw [String.toList_ofList] at hc
    obtain ⟨b, -, hb⟩ := List.mem_flatMap.mp hc
    simp only [hexDigits, List.nil_append, List.mem_append, List.mem_singleton] at hb
    rcases hb with rfl | rfl
    · exact hdigit _ (Nat.mod_lt _ (by decide))
    · exact hdigit _ (Nat.mod_lt _ (by decide))

theorem shortAscii_toString {n : Nat} (h : n < 2 ^ 64) : ShortAscii 20 (toString n) where
  length_le := by
    rw [Nat.toString_eq_ofList_toDigits, String.toList_ofList]
    exact (Nat.length_toDigits_le_iff (by decide) (by decide)).mpr
      (Nat.lt_trans h (by decide))
  asciiOnly c hc := by
    rw [Nat.toString_eq_ofList_toDigits, String.toList_ofList] at hc
    have hdigit := Nat.isDigit_of_mem_toDigits (by decide) (by decide) hc
    simp only [Char.isDigit, Bool.and_eq_true, decide_eq_true_eq] at hdigit
    have hle : c.val.toNat ≤ '9'.val.toNat := UInt32.le_iff_toNat_le.mp hdigit.2
    exact Nat.lt_of_le_of_lt hle (by decide)

theorem fileUri_ascii {n : Nat} {s : String} (h : ShortAscii n s) (hn : n ≤ 4000)
    (hne : s ≠ "") : FileUri (ascii ("file:" ++ s)) where
  scheme := by
    refine ⟨ascii s, by simp [ascii], ?_⟩
    intro hnil
    refine hne ?_
    unfold ascii at hnil
    rw [List.map_eq_nil_iff] at hnil
    exact String.toList_inj.mp (by rw [hnil]; rfl)
  asciiOnly b hb := by
    have hall : ShortAscii (5 + n) ("file:" ++ s) :=
      ShortAscii.append (shortAscii_of_check (by decide)) h
    obtain ⟨c, hc, rfl⟩ := List.mem_map.mp hb
    have hlt := hall.asciiOnly c hc
    rw [UInt8.lt_iff_toNat_lt, UInt8.toNat_ofNat']
    exact Nat.lt_of_le_of_lt (Nat.mod_le _ _) hlt
  length_le := by
    have hall : ShortAscii (5 + n) ("file:" ++ s) :=
      ShortAscii.append (shortAscii_of_check (by decide)) h
    have hlen := hall.length_le
    unfold ascii defaultLocatorMaxUriBytes
    rw [List.length_map]
    omega

/-- A locator with its length in front. -/
def locatorBytes (uri : Bytes) : Bytes := leBytes 4 uri.length ++ uri

theorem reads_parseLocatorEntry {uri : Bytes} (h : FileUri uri) :
    Reads (parseLocatorEntryWithCeiling defaultLocatorMaxUriBytes) (locatorBytes uri) ⟨uri⟩ := by
  refine (reads_readU32Le h.lt_u32).bind ?_
  refine (reads_ensure h.min_le).bind_nil ?_
  refine (reads_ensure h.length_le).bind_nil ?_
  rw [← List.append_nil uri]
  refine (reads_readN (by simp)).bind ?_
  rw [List.append_nil]
  exact reads_liftExcept h.checkUri

theorem reads_parseLocatorEntries_one {uri : Bytes} (h : FileUri uri) :
    Reads (parseLocatorEntriesWithCeiling 1 defaultLocatorMaxUriBytes) (locatorBytes uri)
      [⟨uri⟩] := by
  have hmin := h.min_le
  refine Reads.demand ?_ ?_
  · rw [← List.append_nil (locatorBytes uri)]
    refine Reads.bind ?_ (reads_pure _)
    exact (reads_parseLocatorEntry h).mapError.map fun entry => [entry]
  · unfold locatorBytes locatorLengthPrefixLen
    rw [List.length_append, leBytes_length]
    omega

theorem reads_parseLocatorEntries_none :
    Reads (parseLocatorEntriesWithCeiling 0 defaultLocatorMaxUriBytes) [] [] :=
  (reads_pure _).demand (by simp)

/-! ### Metadata reference -/

/-- Version 2: `locator` if the metadata went to a sidecar, `wire` if it is inlined. -/
def metadataReferenceBytes (metadataHash : Digest) (uncompressedLen : Nat) (codec : UInt8)
    (locator wire : Option Bytes) : Bytes :=
  [2] ++ (metadataHash.val ++ (leBytes 4 uncompressedLen ++ ([codec]
    ++ (leBytes 4 (if locator.isSome then 1 else 0) ++ (locator.elim [] locatorBytes
    ++ (leBytes 4 (wire.getD []).length ++ wire.getD []))))))

section

variable {z : Omnizip} {metadataHash : Digest} {uncompressedLen : Nat} {codec : UInt8}

/-- A reference to a sidecar is read back. -/
theorem reads_parseMetadataReference_external (hlen : uncompressedLen < u32Limit) {uri : Bytes}
    (huri : FileUri uri) :
    Reads (parseMetadataReference z)
      (metadataReferenceBytes metadataHash uncompressedLen codec (some uri) none)
      ⟨metadataHash, [⟨uri⟩], none, codec, uncompressedLen⟩ := by
  refine (reads_readU8 2).bind ?_
  rw [if_neg (by decide), if_pos rfl]
  refine (reads_readFixed metadataHash).bind ?_
  refine (reads_readU32Le hlen).bind ?_
  refine (reads_readU8 codec).bind ?_
  refine (reads_readU32Le (n := 1) (by decide)).bind ?_
  refine (reads_parseLocatorEntries_one huri).bind ?_
  rw [Option.getD_none, List.append_nil, ← List.append_nil (leBytes 4 _)]
  refine (reads_readU32Le (by decide)).bind ?_
  exact (reads_pure none).bind_nil ((reads_ensure (Or.inl (by simp))).bind_nil (reads_pure _))

/-- Reading a reference with inlined metadata comes down to reading the inlined bytes. -/
theorem parseMetadataReference_inline (hlen : uncompressedLen < u32Limit) {wire : Bytes}
    (hwire : wire.length < u32Limit) (rest : Bytes) :
    parseMetadataReference z
        (metadataReferenceBytes metadataHash uncompressedLen codec none (some wire) ++ rest)
      = (do
          let inlineMetadata ←
            readInlineBlob z wire.length defaultInlineMetadataMaxBytes uncompressedLen codec
          ensure (([] : List LocatorEntry) ≠ [] ∨ inlineMetadata ≠ none) (unreachableError 42)
          pure ⟨metadataHash, [], inlineMetadata, codec, uncompressedLen⟩ :
          CoreParser MetadataReference) (wire ++ rest) := by
  unfold metadataReferenceBytes parseMetadataReference parseMetadataReferenceWithCeilings
  simp only [List.append_assoc, Option.getD_some, Option.elim_none, List.nil_append]
  rw [(reads_readU8 2).bind_append, if_neg (by decide), if_pos rfl]
  unfold parseMetadataReferenceV2
  rw [(reads_readHash metadataHash).bind_append, (reads_readU32Le hlen).bind_append,
    (reads_readU8 codec).bind_append, (reads_readU32Le (by decide)).bind_append]
  have hnone := (reads_parseLocatorEntries_none).bind_append
    (f := fun locators => do
      let inlineDataLen ← readU32Le
      let inlineMetadata ←
        readInlineBlob z inlineDataLen defaultInlineMetadataMaxBytes uncompressedLen codec
      ensure (locators ≠ [] ∨ inlineMetadata ≠ none) (unreachableError 42)
      pure (⟨metadataHash, locators, inlineMetadata, codec, uncompressedLen⟩ : MetadataReference))
    (leBytes 4 wire.length ++ (wire ++ rest))
  rw [List.nil_append] at hnone
  exact hnone.trans ((reads_readU32Le hwire).bind_append _)

/-- **Inlined metadata is readable** when it is not empty, under the ceiling and decodable. -/
theorem reads_parseMetadataReference_inline (hlen : uncompressedLen < u32Limit)
    {wire blob : Bytes} (hpos : 0 < wire.length)
    (hceil : wire.length ≤ defaultInlineMetadataMaxBytes)
    (hblob : decodeInlineBlob z codec wire uncompressedLen = .ok blob) :
    Reads (parseMetadataReference z)
      (metadataReferenceBytes metadataHash uncompressedLen codec none (some wire))
      ⟨metadataHash, [], some blob, codec, uncompressedLen⟩ := by
  intro rest
  rw [parseMetadataReference_inline hlen (Nat.lt_of_le_of_lt hceil (by decide))]
  have hread : Reads (readInlineBlob z wire.length defaultInlineMetadataMaxBytes uncompressedLen
      codec) wire (some blob) := by
    unfold readInlineBlob
    rw [if_neg (by omega)]
    refine (reads_ensure hceil).bind_nil ?_
    intro rest
    rw [(reads_readN rfl).bind_append]
    exact (reads_liftExcept hblob).map some rest
  rw [hread.bind_append]
  rfl

/-- And only then. -/
theorem parseMetadataReference_inline_ok (hlen : uncompressedLen < u32Limit) {wire rest left : Bytes}
    {ref : MetadataReference} (hwire : wire.length < u32Limit)
    (hok : parseMetadataReference z
        (metadataReferenceBytes metadataHash uncompressedLen codec none (some wire) ++ rest)
      = (.ok ref, left)) :
    0 < wire.length ∧ wire.length ≤ defaultInlineMetadataMaxBytes ∧
      ∃ blob, decodeInlineBlob z codec wire uncompressedLen = .ok blob := by
  rw [parseMetadataReference_inline hlen hwire] at hok
  obtain ⟨inline, mid, hread, hrest⟩ := bind_eq_ok.mp hok
  unfold readInlineBlob at hread
  split at hread
  · next hzero =>
      obtain ⟨rfl, rfl⟩ := pure_eq_ok.mp hread
      obtain ⟨_, _, hens, -⟩ := bind_eq_ok.mp hrest
      obtain ⟨hcond, -⟩ := ensure_eq_ok.mp hens
      simp at hcond
  · next hpos =>
      simp only [bind_eq_ok, ensure_eq_ok] at hread
      obtain ⟨_, _, ⟨hceil, rfl⟩, w, _, hw, blob, _, hblob, -⟩ := hread
      have hwire' := reads_readN (l := wire) rfl rest
      rw [hwire'] at hw
      cases hw
      refine ⟨by omega, hceil, blob, ?_⟩
      rcases hd : decodeInlineBlob z codec wire uncompressedLen with e | b
      · rw [hd] at hblob
        cases hblob
      · rw [hd] at hblob
        cases hblob
        rfl

end

/-! ### Slab index -/

/-- One slab: its id and its only locator. -/
def slabEntryBytes (entry : SlabIndexEntry) : Bytes :=
  leBytes 8 entry.slabId.ordinal ++ entry.slabId.hash.val
    ++ (leBytes 4 1 ++ entry.locators.flatMap fun l => locatorBytes l.uri)

/-- Version, count and the slabs in order. -/
def slabIndexBytes (index : SlabIndex) : Bytes :=
  [1] ++ (leBytes 4 index.entries.length ++ index.entries.flatMap slabEntryBytes)

/-- What a writer puts in a slab index: distinct ids that fit, one file locator each. -/
structure SlabIndex.Writable (index : SlabIndex) : Prop where
  count : index.entries.length < u32Limit
  locator : ∀ entry ∈ index.entries, ∃ uri, entry.locators = [⟨uri⟩] ∧ FileUri uri
  ordinal : ∀ entry ∈ index.entries, entry.slabId.ordinal < 2 ^ 64
  distinct : index.entries.Pairwise fun a b => a.slabId ≠ b.slabId

theorem slabEntryBytes_length {entry : SlabIndexEntry} :
    slabIndexEntryFixedLen ≤ (slabEntryBytes entry).length := by
  simp only [slabEntryBytes, slabIndexEntryFixedLen, List.length_append, leBytes_length,
    entry.slabId.hash.2]
  omega

theorem reads_parseSlabIndexEntry {index : Nat} {done : List SlabIndexEntry}
    {entry : SlabIndexEntry} (hord : entry.slabId.ordinal < 2 ^ 64)
    (hloc : ∃ uri, entry.locators = [⟨uri⟩] ∧ FileUri uri)
    (hnew : ∀ e ∈ done, e.slabId ≠ entry.slabId) :
    Reads (parseSlabIndexEntry defaultLocatorMaxUriBytes index done) (slabEntryBytes entry)
      (done ++ [entry]) := by
  obtain ⟨uri, huri, hfile⟩ := hloc
  obtain ⟨id, locators⟩ := entry
  subst huri
  unfold slabEntryBytes
  refine (reads_readSlabId hord).bind ?_
  refine (reads_ensure ?_).bind_nil ?_
  · rw [List.all_eq_true]
    intro e he
    simpa using hnew e he
  refine (reads_readU32Le (by decide)).bind ?_
  refine (reads_ensure (by decide)).bind_nil ?_
  rw [List.flatMap_singleton]
  exact (reads_parseLocatorEntries_one hfile).map fun locators => done ++ [⟨id, locators⟩]

theorem flatMap_length_ge {α : Type} {enc : α → Bytes} {w : Nat} :
    ∀ l : List α, (∀ a ∈ l, w ≤ (enc a).length) → l.length * w ≤ (l.flatMap enc).length := by
  intro l
  induction l with
  | nil => intro _; simp
  | cons a rest ih =>
      intro h
      have hrest := ih fun b hb => h b (List.mem_cons_of_mem _ hb)
      have ha := h a List.mem_cons_self
      rw [List.flatMap_cons, List.length_append, List.length_cons, Nat.succ_mul]
      omega

/-- **A written slab index is read back.** -/
theorem reads_parseSlabIndex {index : SlabIndex} (h : index.Writable) :
    Reads parseSlabIndex (slabIndexBytes index) index := by
  refine (reads_readU8 1).bind ?_
  refine (reads_ensure rfl).bind_nil ?_
  refine (reads_readU32Le h.count).bind ?_
  refine Reads.demand ?_ (flatMap_length_ge _ fun _ _ => slabEntryBytes_length)
  have hloop : Reads (loop (parseSlabIndexEntry defaultLocatorMaxUriBytes) index.entries.length 0
      []) (index.entries.flatMap slabEntryBytes) ([] ++ index.entries) := by
    refine reads_loop index.entries [] 0 fun before entry after heq => ?_
    have hmem : entry ∈ index.entries := by rw [heq]; simp
    refine reads_parseSlabIndexEntry (h.ordinal entry hmem) (h.locator entry hmem) ?_
    intro e he
    have hdistinct := h.distinct
    rw [heq, List.pairwise_append] at hdistinct
    exact hdistinct.2.2 e he entry List.mem_cons_self
  rw [List.nil_append] at hloop
  exact hloop.map fun entries => (⟨entries⟩ : SlabIndex)

/-! ### History -/

/-- One entry, without a time, inputs or parameters. -/
def historyBytes (op : HistoryOp) : Bytes :=
  [1] ++ (leBytes 4 1 ++ ([op.toByte] ++ (leBytes 8 0 ++ (leBytes 4 0 ++ leBytes 4 0))))

theorem historyOp_toByte (op : HistoryOp) : historyOp op.toByte = .ok op := by
  cases op <;> rfl

theorem reads_parseHistoryEntry (op : HistoryOp) :
    Reads (parseHistoryEntryWithCeiling defaultHistoryParamsMaxBytes)
      ([op.toByte] ++ (leBytes 8 0 ++ (leBytes 4 0 ++ leBytes 4 0))) ⟨op, 0, [], []⟩ := by
  refine (reads_readU8 _).bind ?_
  refine (reads_liftExcept (historyOp_toByte op)).bind_nil ?_
  refine (reads_readU64Le (by decide)).bind ?_
  refine (reads_readU32Le (n := 0) (by decide)).bind ?_
  refine (reads_readFixed (n := 32 * 0) ⟨[], rfl⟩).bind_nil ?_
  rw [← List.append_nil (leBytes 4 0)]
  refine (reads_readU32Le (n := 0) (by decide)).bind ?_
  refine (reads_ensure (by decide)).bind_nil ?_
  exact (reads_readN (n := 0) (l := []) rfl).bind_nil (reads_pure _)

theorem reads_parseHistory (op : HistoryOp) :
    Reads parseHistory (historyBytes op) ⟨[⟨op, 0, [], []⟩]⟩ := by
  refine (reads_readU8 1).bind ?_
  refine (reads_ensure rfl).bind_nil ?_
  refine (reads_readU32Le (n := 1) (by decide)).bind ?_
  refine (reads_ensure (by decide)).bind_nil ?_
  refine Reads.demand ?_ (by simp [historyEntryMinLen])
  rw [← List.append_nil ([op.toByte] ++ _)]
  refine Reads.bind ?_ (reads_pure _)
  rw [← List.append_nil ([op.toByte] ++ _)]
  refine Reads.bind ?_ (reads_pure _)
  exact (reads_parseHistoryEntry op).mapError.map fun entry => [entry]

end LimniFS
