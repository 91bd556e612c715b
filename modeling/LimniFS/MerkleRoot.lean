/-
The root of a manifest.

The root is the hash of ten section hashes behind a domain separator.  `readManifest`
parses the sections in order, hashes the bytes each parser used, and combines them:
the slots of the encryption parameters and of the delta linkage always hold the hash
of nothing, and whatever stands after the history is counted and otherwise ignored.

Two facts carry everything that is said about the root later.  What an accepted
manifest is made of is its sections and a trailer (`parseSections_ok`), so its root is
a function of the sections.  And if the strings that were hashed do not collide, the
root determines the sections (`sections_eq_of_root_eq`).
-/
import LimniFS.ManifestSections

namespace LimniFS

open Lib Lib.Parser

/-! ### The combiner -/

def merkleDomainSeparator : Bytes := ascii "limnifs/v1"

structure SectionHashes where
  metadata : Digest
  formatHeader : Digest
  featureFlags : Digest
  metadataReference : Digest
  slabIndex : Digest
  cryptoParams : Digest
  ecParams : Digest
  dmsPolicy : Digest
  deltaLinkage : Digest
  history : Digest
  deriving DecidableEq

def hashSection (H : Hash) (bytes : Bytes) : Digest := H bytes

def hashEmptySection (H : Hash) : Digest := hashSection H []

/-- What is hashed into the root. -/
def SectionHashes.preimage (h : SectionHashes) : Bytes :=
  merkleDomainSeparator ++ (h.metadata.val ++ (h.formatHeader.val ++ (h.featureFlags.val
    ++ (h.metadataReference.val ++ (h.slabIndex.val ++ (h.cryptoParams.val ++ (h.ecParams.val
    ++ (h.dmsPolicy.val ++ (h.deltaLinkage.val ++ h.history.val)))))))))

def computeMerkleRoot (H : Hash) (hashes : SectionHashes) : Digest := H hashes.preimage

theorem Digest.append_inj {a b : Digest} {s t : Bytes} (h : a.val ++ s = b.val ++ t) :
    a = b ∧ s = t := by
  obtain ⟨hab, hst⟩ := List.append_inj h (by rw [a.2, b.2])
  exact ⟨Subtype.ext hab, hst⟩

theorem SectionHashes.preimage_inj {g h : SectionHashes} (heq : g.preimage = h.preimage) :
    g = h := by
  unfold SectionHashes.preimage at heq
  have h₀ := List.append_cancel_left heq
  obtain ⟨h₁, h₀⟩ := Digest.append_inj h₀
  obtain ⟨h₂, h₀⟩ := Digest.append_inj h₀
  obtain ⟨h₃, h₀⟩ := Digest.append_inj h₀
  obtain ⟨h₄, h₀⟩ := Digest.append_inj h₀
  obtain ⟨h₅, h₀⟩ := Digest.append_inj h₀
  obtain ⟨h₆, h₀⟩ := Digest.append_inj h₀
  obtain ⟨h₇, h₀⟩ := Digest.append_inj h₀
  obtain ⟨h₈, h₀⟩ := Digest.append_inj h₀
  obtain ⟨h₉, h₀⟩ := Digest.append_inj h₀
  cases g
  cases h
  simp only [SectionHashes.mk.injEq]
  exact ⟨h₁, h₂, h₃, h₄, h₅, h₆, h₇, h₈, h₉, Subtype.ext h₀⟩

/-- No two different strings of the list have one hash. -/
def NoCollision (H : Hash) (hashed : List Bytes) : Prop :=
  ∀ a ∈ hashed, ∀ b ∈ hashed, H a = H b → a = b

instance (H : Hash) (hashed : List Bytes) : Decidable (NoCollision H hashed) :=
  inferInstanceAs (Decidable (∀ a ∈ hashed, ∀ b ∈ hashed, H a = H b → a = b))

/-! ### The sections of a manifest, each with its bytes -/

structure Sections where
  header : ManifestHeader
  headerBytes : Bytes
  flags : FeatureFlags
  flagsBytes : Bytes
  metadataReference : MetadataReference
  metadataReferenceBytes : Bytes
  slabIndex : SlabIndex
  slabIndexBytes : Bytes
  ecParamsBytes : Option Bytes
  dmsPolicyBytes : Option Bytes
  history : History
  historyBytes : Bytes
  deriving DecidableEq

def ecFlag : Nat := 0x0001
def dmsFlag : Nat := 0x0002

/-- `flags.is_required(id) || flags.get(id).is_some()`. -/
def FeatureFlags.declares (flags : FeatureFlags) (flagId : Nat) : Bool :=
  ((flags.get flagId).any (·.required)) || (flags.get flagId).isSome

/-- The bytes of a section that is there only if `present`. -/
def optionalSection {α : Type} (present : Bool) (p : CoreParser α) : CoreParser (Option Bytes) :=
  if present then do
    let r ← p.withSpan
    pure (some r.2)
  else pure none

section

variable (z : Omnizip)

def parseSections : CoreParser Sections := do
  let header ← parseManifestHeader.withSpan
  let flags ← parseFeatureFlagsSection.withSpan
  let metadataReference ← (parseMetadataReference z).withSpan
  let slabIndex ← parseSlabIndex.withSpan
  let ecParams ← optionalSection (flags.1.declares ecFlag) parseEcParams
  let dmsPolicy ← optionalSection (flags.1.declares dmsFlag) parseDmsPolicy
  let history ← parseHistory.withSpan
  pure ⟨header.1, header.2, flags.1, flags.2, metadataReference.1, metadataReference.2,
    slabIndex.1, slabIndex.2, ecParams, dmsPolicy, history.1, history.2⟩

/-- The sections again, as one byte string. -/
def Sections.bytes (s : Sections) : Bytes :=
  s.headerBytes ++ (s.flagsBytes ++ (s.metadataReferenceBytes ++ (s.slabIndexBytes
    ++ (s.ecParamsBytes.getD [] ++ (s.dmsPolicyBytes.getD [] ++ s.historyBytes)))))

theorem framed_optionalSection {α : Type} {n : Nat} (present : Bool) {p : CoreParser α}
    (h : Framed n p) : Framed 0 (optionalSection present p) :=
  Framed.ite ((h.withSpan.bind fun _ => framed_pure _).weaken (Nat.zero_le _)) (framed_pure _)

theorem optionalSection_ok {α : Type} {n : Nat} {present : Bool} {p : CoreParser α}
    (h : Framed n p) {bs rest : Bytes} {b : Option Bytes}
    (hok : optionalSection present p bs = (.ok b, rest)) :
    bs = b.getD [] ++ rest := by
  unfold optionalSection at hok
  cases present with
  | false =>
      cases hok
      rfl
  | true =>
      rw [if_pos rfl, bind_eq_ok] at hok
      obtain ⟨⟨x, span⟩, mid, hp, hpure⟩ := hok
      cases hpure
      exact (h.withSpan_eq hp).1

theorem framed_parseSections : Framed 0 (parseSections z) :=
  (framed_parseManifestHeader.withSpan.bind fun _ =>
    framed_parseFeatureFlagsSection.withSpan.bind fun _ =>
    (framed_parseMetadataReference z).withSpan.bind fun _ =>
    framed_parseSlabIndex.withSpan.bind fun _ =>
    (framed_optionalSection _ framed_parseEcParams).bind fun _ =>
    (framed_optionalSection _ framed_parseDmsPolicy).bind fun _ =>
    framed_parseHistory.withSpan.bind fun _ => framed_pure _).weaken (Nat.zero_le _)

variable {z}

/-- **An accepted manifest is its sections and a trailer.** -/
theorem parseSections_ok {bs rest : Bytes} {s : Sections}
    (h : parseSections z bs = (.ok s, rest)) :
    bs = s.bytes ++ rest := by
  simp only [parseSections, bind_eq_ok, pure_eq_ok] at h
  obtain ⟨⟨hd, hdb⟩, r₁, hhd, ⟨fl, flb⟩, r₂, hfl, ⟨mr, mrb⟩, r₃, hmr, ⟨si, sib⟩, r₄, hsi,
    ec, r₅, hec, dms, r₆, hdms, ⟨hi, hib⟩, r₇, hhi, hs⟩ := h
  obtain ⟨rfl, rfl⟩ := hs
  obtain ⟨e₁, -, -⟩ := framed_parseManifestHeader.withSpan_eq hhd
  obtain ⟨e₂, -, -⟩ := framed_parseFeatureFlagsSection.withSpan_eq hfl
  obtain ⟨e₃, -, -⟩ := (framed_parseMetadataReference z).withSpan_eq hmr
  obtain ⟨e₄, -, -⟩ := framed_parseSlabIndex.withSpan_eq hsi
  have e₅ := optionalSection_ok framed_parseEcParams hec
  have e₆ := optionalSection_ok framed_parseDmsPolicy hdms
  obtain ⟨e₇, -, -⟩ := framed_parseHistory.withSpan_eq hhi
  simp only [Sections.bytes, List.append_assoc]
  rw [e₁, e₂, e₃, e₄, e₅, e₆, e₇]

theorem parseSections_append {bs rest : Bytes} {s : Sections}
    (h : parseSections z bs = (.ok s, rest)) (t : Bytes) :
    parseSections z (s.bytes ++ t) = (.ok s, t) := by
  obtain ⟨used, hbs, -, hreads⟩ := framed_parseSections z bs s rest h
  have hused : used = s.bytes :=
    List.append_cancel_right (hbs.symm.trans (parseSections_ok h))
  rw [← hused]
  exact hreads t

/-! ### The root of the sections -/

def Sections.hashes (H : Hash) (s : Sections) : SectionHashes where
  metadata := s.metadataReference.metadataHash
  formatHeader := hashSection H s.headerBytes
  featureFlags := hashSection H s.flagsBytes
  metadataReference := hashSection H s.metadataReferenceBytes
  slabIndex := hashSection H s.slabIndexBytes
  cryptoParams := hashEmptySection H
  ecParams := (s.ecParamsBytes.map (hashSection H)).getD (hashEmptySection H)
  dmsPolicy := (s.dmsPolicyBytes.map (hashSection H)).getD (hashEmptySection H)
  deltaLinkage := hashEmptySection H
  history := hashSection H s.historyBytes

def Sections.root (H : Hash) (s : Sections) : Digest := computeMerkleRoot H (s.hashes H)

/-- The strings hashed on the way to the root. -/
def Sections.hashed (H : Hash) (s : Sections) : List Bytes :=
  [(s.hashes H).preimage, s.headerBytes, s.flagsBytes, s.metadataReferenceBytes,
    s.slabIndexBytes, s.ecParamsBytes.getD [], s.dmsPolicyBytes.getD [], s.historyBytes]

theorem hash_getD (H : Hash) (b : Option Bytes) :
    (b.map (hashSection H)).getD (hashEmptySection H) = H (b.getD []) := by
  cases b <;> rfl

/-- **The root determines the sections**, if what was hashed does not collide. -/
theorem sections_eq_of_root_eq {H : Hash} {s₁ s₂ : Sections}
    (hcol : NoCollision H (s₁.hashed H ++ s₂.hashed H)) (hroot : s₁.root H = s₂.root H) :
    s₁.bytes = s₂.bytes := by
  have hinj : ∀ a ∈ s₁.hashed H, ∀ b ∈ s₂.hashed H, H a = H b → a = b := by
    intro a ha b hb
    exact hcol a (List.mem_append_left _ ha) b (List.mem_append_right _ hb)
  have hpre : (s₁.hashes H).preimage = (s₂.hashes H).preimage :=
    hinj _ (by simp [Sections.hashed]) _ (by simp [Sections.hashed]) hroot
  have hhashes := SectionHashes.preimage_inj hpre
  simp only [Sections.hashes, SectionHashes.mk.injEq, hash_getD, hashSection] at hhashes
  obtain ⟨-, hhd, hfl, hmr, hsi, -, hec, hdms, -, hhi⟩ := hhashes
  have ehd := hinj _ (by simp [Sections.hashed]) _ (by simp [Sections.hashed]) hhd
  have efl := hinj _ (by simp [Sections.hashed]) _ (by simp [Sections.hashed]) hfl
  have emr := hinj _ (by simp [Sections.hashed]) _ (by simp [Sections.hashed]) hmr
  have esi := hinj _ (by simp [Sections.hashed]) _ (by simp [Sections.hashed]) hsi
  have eec := hinj _ (by simp [Sections.hashed]) _ (by simp [Sections.hashed]) hec
  have edms := hinj _ (by simp [Sections.hashed]) _ (by simp [Sections.hashed]) hdms
  have ehi := hinj _ (by simp [Sections.hashed]) _ (by simp [Sections.hashed]) hhi
  simp only [Sections.bytes, ehd, efl, emr, esi, eec, edms, ehi]

end

/-! ### Reading a manifest -/

/-- How much of an image `read_manifest` looks at. -/
def verifyReadBudget : Nat := 1024 * 1024

structure ManifestView where
  header : ManifestHeader
  flags : FeatureFlags
  metadataReference : MetadataReference
  slabIndexLen : Nat
  historyLen : Nat
  extraBytesRemaining : Nat
  merkleRoot : Digest

def readManifest (H : Hash) (z : Omnizip) (image : Bytes) : Except CoreError ManifestView :=
  match parseSections z (image.take verifyReadBudget) with
  | (.error e, _) => .error e
  | (.ok s, rest) => .ok
    { header := s.header
      flags := s.flags
      metadataReference := s.metadataReference
      slabIndexLen := s.slabIndex.entries.length
      historyLen := s.history.entries.length
      extraBytesRemaining := rest.length
      merkleRoot := s.root H }

/-- The strings `read_manifest` hashes. -/
def hashedStrings (H : Hash) (z : Omnizip) (image : Bytes) : List Bytes :=
  match parseSections z (image.take verifyReadBudget) with
  | (.error _, _) => []
  | (.ok s, _) => s.hashed H

section

variable {H : Hash} {z : Omnizip}

theorem readManifest_ok {image : Bytes} {view : ManifestView}
    (h : readManifest H z image = .ok view) :
    ∃ s rest, parseSections z (image.take verifyReadBudget) = (.ok s, rest)
      ∧ view.merkleRoot = s.root H ∧ hashedStrings H z image = s.hashed H
      ∧ ∃ trailer, image = s.bytes ++ trailer := by
  unfold readManifest at h
  unfold hashedStrings
  rcases hs : parseSections z (image.take verifyReadBudget) with ⟨e | s, rest⟩
  · rw [hs] at h
    cases h
  · rw [hs] at h
    cases h
    refine ⟨s, rest, rfl, rfl, rfl, rest ++ image.drop verifyReadBudget, ?_⟩
    rw [← List.append_assoc, ← parseSections_ok hs, List.take_append_drop]

theorem readManifest_append {image : Bytes} {view : ManifestView}
    (h : readManifest H z image = .ok view) (trailer : Bytes) :
    ∃ view', readManifest H z (image ++ trailer) = .ok view'
      ∧ view'.merkleRoot = view.merkleRoot := by
  obtain ⟨s, rest, hs, hroot, -, -⟩ := readManifest_ok h
  have hfront : (image.take verifyReadBudget).length ≤ verifyReadBudget := by
    rw [List.length_take]
    exact Nat.min_le_left _ _
  have hlen : s.bytes.length ≤ verifyReadBudget := by
    rw [parseSections_ok hs, List.length_append] at hfront
    omega
  -- the bytes read of the longer image start with the sections of the shorter one
  have htake : (image ++ trailer).take verifyReadBudget
      = s.bytes ++ ((image ++ trailer).drop s.bytes.length).take
          (verifyReadBudget - s.bytes.length) := by
    have himage : image = s.bytes ++ (rest ++ image.drop verifyReadBudget) := by
      rw [← List.append_assoc, ← parseSections_ok hs, List.take_append_drop]
    have hsplit : image ++ trailer
        = s.bytes ++ (rest ++ image.drop verifyReadBudget ++ trailer) := by
      rw [← List.append_assoc, ← himage]
    rw [hsplit, List.take_append, List.drop_left, List.take_of_length_le hlen]
  have hok := parseSections_append hs
    (((image ++ trailer).drop s.bytes.length).take (verifyReadBudget - s.bytes.length))
  rw [← htake] at hok
  refine ⟨_, by unfold readManifest; rw [hok], ?_⟩
  exact hroot.symm

end

end LimniFS
