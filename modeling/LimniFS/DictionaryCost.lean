/-
What the dictionary pass does to the size of an image.

The gate weighs what the drops save against the contents of the dictionaries.  The section
that `assemble` writes for them is longer than that, by two bytes and six for each
dictionary, and a pass that saves less than those is let through and enlarges the image.
Shorter drops may also need fewer slabs, never more (`packGroups_length_le`), and each slab
that is not needed saves its header and its entry in the index.

`dictionaries_never_enlarge_iff` weighs all of this.
-/
import LimniFS.ExactPacking
import LimniFS.CompactionPreserves

namespace LimniFS

open Lib

/-! ### Shorter drops need no more slabs -/

/-- Drop for drop, the one list takes no more in a slab than the other. -/
abbrev NoLonger : List PendingDrop → List PendingDrop → Prop :=
  List.Forall₂ fun short long => short.slabFootprint ≤ long.slabFootprint

/-- Packing the shorter drops is never behind: with no more in its open group it needs no more
groups, and with more in it, it has closed one group less. -/
theorem packGroups_ahead (maxContent : Nat) {shorter longer : List PendingDrop}
    (h : NoLonger shorter longer) :
    ∀ (open' opened : List PendingDrop) (size' size : Nat),
      ((size' ≤ size → (opened = [] → open' = []) →
        (packGroups maxContent shorter open' size').length ≤
          (packGroups maxContent longer opened size).length) ∧
      (packGroups maxContent shorter open' size').length ≤
        (packGroups maxContent longer opened size).length + 1) := by
  induction h with
  | nil =>
      intro open' opened size' size
      unfold packGroups
      by_cases hopen' : open' = []
      · rw [if_pos hopen']
        exact ⟨fun _ _ => Nat.zero_le _, Nat.zero_le _⟩
      · rw [if_neg hopen']
        refine ⟨fun _ hnil => ?_, Nat.le_add_left 1 _⟩
        rw [if_neg fun hopened => hopen' (hnil hopened)]
        exact Nat.le_refl 1
  | @cons short long shorter longer hle _ ih =>
      intro open' opened size' size
      unfold packGroups
      by_cases hclose' : open' ≠ [] ∧ maxContent < size' + short.slabFootprint
      · by_cases hclose : opened ≠ [] ∧ maxContent < size + long.slabFootprint
        · rw [if_pos hclose', if_pos hclose, List.length_cons, List.length_cons]
          obtain ⟨hsame, -⟩ := ih [short] [long] short.slabFootprint long.slabFootprint
          have hle := hsame hle fun hnil => absurd hnil (List.cons_ne_nil _ _)
          exact ⟨fun _ _ => by omega, by omega⟩
        · rw [if_pos hclose', if_neg hclose, List.length_cons]
          obtain ⟨hsame, -⟩ := ih [short] (opened ++ [long]) short.slabFootprint
            (size + long.slabFootprint)
          have hle' := hsame (by omega) fun hnil => absurd hnil (by simp)
          refine ⟨fun hsize hnil => ?_, by omega⟩
          -- the longer drops close their group whenever the shorter ones do
          exact absurd ⟨fun hopened => hclose'.1 (hnil hopened), by omega⟩ hclose
      · by_cases hclose : opened ≠ [] ∧ maxContent < size + long.slabFootprint
        · rw [if_neg hclose', if_pos hclose, List.length_cons]
          have hle' := (ih (open' ++ [short]) [long] (size' + short.slabFootprint)
            long.slabFootprint).2
          exact ⟨fun _ _ => hle', by omega⟩
        · rw [if_neg hclose', if_neg hclose]
          obtain ⟨hsame, hbehind⟩ := ih (open' ++ [short]) (opened ++ [long])
            (size' + short.slabFootprint) (size + long.slabFootprint)
          exact ⟨fun hsize _ => hsame (by omega) fun hnil => absurd hnil (by simp), hbehind⟩

theorem packGroups_length_le (maxContent : Nat) {shorter longer : List PendingDrop}
    (h : NoLonger shorter longer) :
    (packGroups maxContent shorter [] 0).length ≤ (packGroups maxContent longer [] 0).length :=
  (packGroups_ahead maxContent h [] [] 0 0).1 (Nat.le_refl 0) fun _ => rfl

/-! ### The size of an image -/

/-- The manifest and the slabs. -/
def WriteArtifact.imageSize (a : WriteArtifact) : Nat :=
  a.bytes.length + (a.slabs.map (·.bytes.length)).sum

/-- What a slab takes besides its drops: its header, and its entry in the index. -/
def slabCost (ordinal : Nat) : Nat :=
  slabHeaderLen + (48 + (slabLocator ordinal zeroDigest).length)

/-- So many slabs from a number on. -/
def slabCosts (ordinal count : Nat) : Nat := ((List.range' ordinal count).map slabCost).sum

theorem hexLower_length (bytes : Bytes) : (hexLower bytes).length = 2 * bytes.length := by
  induction bytes with
  | nil => rfl
  | cons b rest ih =>
      rw [hexLower, List.flatMap_cons, List.length_append, List.length_cons]
      rw [hexLower] at ih
      rw [ih]
      simp [hexDigits]
      omega

theorem slabLocator_length (ordinal : Nat) (hash : Digest) :
    (slabLocator ordinal hash).length = (slabLocator ordinal zeroDigest).length := by
  unfold slabLocator ascii
  simp [hexLower_length, hash.2, zeroDigest.2]

theorem slabEntry_length (id : SlabId) (uri : Bytes) :
    (slabEntryBytes ⟨id, [⟨uri⟩]⟩).length = 48 + uri.length := by
  simp only [slabEntryBytes, locatorBytes, List.flatMap_cons, List.flatMap_nil, List.append_nil,
    List.length_append, leBytes_length, id.hash.2]
  omega

/-- What drops take in slabs. -/
def dropsSize (drops : List PendingDrop) : Nat :=
  drops.length * dropRecordLen + (solidWindow drops).length

theorem dropsSize_append (drops more : List PendingDrop) :
    dropsSize (drops ++ more) = dropsSize drops + dropsSize more := by
  unfold dropsSize solidWindow
  rw [List.length_append, List.flatMap_append, List.length_append, Nat.add_mul]
  omega

theorem encodeSlab_size {H : Hash} {ordinal : Nat} {group : List PendingDrop} {slab : SlabArtifact}
    (h : encodeSlab H ordinal group = some slab) :
    slab.bytes.length + (slabEntryBytes ⟨slab.id, [⟨slab.locator⟩]⟩).length =
      slabCost ordinal + dropsSize group := by
  obtain ⟨records, hrecords, rfl⟩ := Option.map_eq_some_iff.mp h
  have hcount := (window_of_recordsFrom hrecords).length_eq
  simp only [slabBytes_length, slabEntry_length, slabLocator_length, slabCost, dropsSize, hcount]
  omega

/-- The slabs and their entries. -/
theorem encodeSlabs_size {H : Hash} : ∀ (groups : List (List PendingDrop)) (ordinal : Nat)
    (slabs : List SlabArtifact), encodeSlabs H ordinal groups = some slabs →
      (slabs.map (·.bytes.length)).sum
          + ((slabIndexOf slabs).entries.flatMap slabEntryBytes).length =
        slabCosts ordinal groups.length + dropsSize groups.flatten := by
  intro groups
  induction groups with
  | nil =>
      intro ordinal slabs h
      cases h
      rfl
  | cons group rest ih =>
      intro ordinal slabs h
      unfold encodeSlabs at h
      split at h
      · next slab slabs' hslab hrest =>
          obtain rfl := Option.some.inj h
          have hfirst := encodeSlab_size hslab
          have hlater := ih _ _ hrest
          simp only [slabIndexOf, slabCosts] at hlater ⊢
          rw [List.map_cons, List.sum_cons, List.map_cons, List.flatMap_cons, List.length_append,
            List.length_cons, List.range'_succ, List.map_cons, List.sum_cons, List.flatten_cons,
            dropsSize_append]
          omega
      · cases h

section
variable {H : Hash} {z : Omnizip} {ctx : WriteContext} {blob : Bytes}

/-- An assembled manifest without the entries of its slab index and without its trailer. -/
def frameSize (H : Hash) (z : Omnizip) (ctx : WriteContext) (blob : Bytes) : Nat :=
  ManifestHeader.current.toBytes.length + (emptyFlagsBytes.length
    + ((assembledReference H z ctx blob).length + (5 + (historyBytes .build).length)))

/-- **The size of an image**, part by part. -/
theorem assembled_imageSize {a : WriteArtifact} (hblob : ctx.metadataBlob H = some blob)
    (h : assemble H z ctx = some a) :
    a.imageSize = frameSize H z ctx blob + (slabCosts 0 (slabGroups ctx.drops).length
      + (dropsSize (localDrops ctx.drops) + ctx.trailer.length)) := by
  obtain ⟨hbytes, -, hslabs, -, -⟩ := assemble_some hblob h
  have hsize := encodeSlabs_size _ _ _ hslabs
  rw [slabGroups_flatten] at hsize
  unfold WriteArtifact.imageSize frameSize
  rw [hbytes]
  simp only [assembledManifest, slabIndexBytes, List.length_append, List.length_singleton,
    leBytes_length]
  omega

theorem assemble_of_packed {ctx' : WriteContext} {a : WriteArtifact} {slabs : List SlabArtifact}
    (h : assemble H z ctx = some a) (hblob : ctx'.metadataBlob H = ctx.metadataBlob H)
    (hcodec : ctx'.metadataCodec = ctx.metadataCodec)
    (hslabs : packSlabs H ctx'.drops = some slabs) (hcount : slabs.length ≤ a.slabs.length) :
    ∃ a', assemble H z ctx' = some a' := by
  simp only [assemble, Option.bind_eq_bind, Option.bind_eq_some_iff, Option.pure_def,
    Option.some.injEq] at h
  obtain ⟨slabs₀, -, blob, hblob₀, _, hlen, _, hwire, _, hcount₀, rfl⟩ := h
  have hfits : ∃ bytes, u32Bytes slabs.length = some bytes := by
    unfold u32Bytes at hcount₀ ⊢
    split at hcount₀
    · next hlt => exact ⟨_, if_pos (Nat.lt_of_le_of_lt hcount hlt)⟩
    · cases hcount₀
  obtain ⟨_, hfits⟩ := hfits
  simp only [assemble, hslabs, hblob, hblob₀, hcodec, hlen, hwire, hfits, Option.bind_eq_bind,
    Option.bind_some, Option.pure_def]
  exact ⟨_, rfl⟩

end

/-! ### Packing after the pass -/

theorem compressed_lt_of_recordsFrom : ∀ (drops : List PendingDrop) (offset : Nat)
    (records : List DropRecord), recordsFrom offset drops = some records →
      ∀ d ∈ drops, d.compressed.length < u32Limit := by
  intro drops
  induction drops with
  | nil => exact fun _ _ _ d hd => absurd hd List.not_mem_nil
  | cons first rest ih =>
      intro offset records h
      unfold recordsFrom at h
      split at h
      · next hfits =>
          obtain ⟨tail, htail, -⟩ := Option.map_eq_some_iff.mp h
          exact List.forall_mem_cons.mpr ⟨by omega, ih _ _ htail⟩
      · cases h

theorem packSlabs_isSome {H : Hash} {drops : List PendingDrop} :
    (∃ slabs, packSlabs H drops = some slabs) ↔
      ∀ d ∈ localDrops drops, d.compressed.length < u32Limit := by
  constructor
  · rintro ⟨slabs, hslabs⟩ d hd
    rw [← slabGroups_flatten] at hd
    obtain ⟨group, hgroup, hd⟩ := List.mem_flatten.mp hd
    obtain ⟨slab, -, _, -, henc⟩ := exists_mem_of_forall₂ (encodeSlabs_groups _ _ _ hslabs) group hgroup
    obtain ⟨records, hrecords, -⟩ := Option.map_eq_some_iff.mp henc
    exact compressed_lt_of_recordsFrom _ _ _ hrecords d hd
  · intro h
    refine encodeSlabs_isSome _ 0 fun group hgroup => recordsFrom_isSome group 0 ?_
    rcases (slabGroups_inBudget hgroup).2 with hfits | ⟨d, rfl⟩
    · rw [footprint_eq] at hfits
      simp only [maxSlabTotalBytes, slabHeaderLen, u32Limit] at *
      omega
    · have hmem : d ∈ localDrops drops := by
        rw [← slabGroups_flatten]
        exact List.mem_flatten.mpr ⟨[d], hgroup, List.mem_singleton_self d⟩
      have hlt := h d hmem
      rw [solidWindow_cons, List.length_append]
      simpa [solidWindow] using hlt

section
variable (z : Omnizip) (classify : Bytes → Class) (dicts : TrainedDicts)

/-- What the drops save together. -/
def dictionarySaving (drops : List PendingDrop) : Int := (drops.map (savingOf z classify dicts)).sum

/-- The number of slabs the drops are packed into. -/
def slabCount (drops : List PendingDrop) : Nat := (slabGroups drops).length

/-- The saving, and what slabs save that are no longer needed, cover the section. -/
def SectionCovered (drops : List PendingDrop) : Prop :=
  ((encodeDictionarySection dicts.section_).length : Int)
      + slabCosts 0 (slabCount (drops.map (swapDrop z classify dicts))) ≤
    dictionarySaving z classify dicts drops + slabCosts 0 (slabCount drops)

instance (drops : List PendingDrop) : Decidable (SectionCovered z classify dicts drops) :=
  inferInstanceAs (Decidable (_ ≤ _))

end

section
variable {z : Omnizip} {classify : Bytes → Class} {dicts : TrainedDicts}

theorem swapDrop_length (d : PendingDrop) :
    ((swapDrop z classify dicts d).compressed.length : Int) =
        d.compressed.length - savingOf z classify dicts d ∧
      (swapDrop z classify dicts d).compressed.length ≤ d.compressed.length := by
  unfold swapDrop savingOf
  rcases hcand : dictCandidate z classify dicts d with _ | ⟨c, id⟩
  · simp
  · have hlt : c.length < d.compressed.length := by
      unfold dictCandidate at hcand
      split at hcand
      · cases hcand
      · split at hcand
        · cases hcand
        · split at hcand
          · cases hcand
          · split at hcand
            · cases hcand
            · split at hcand
              · next hlt =>
                  obtain ⟨rfl, -⟩ := Prod.mk.inj (Option.some.inj hcand)
                  exact hlt
              · cases hcand
    exact ⟨by simp, Nat.le_of_lt hlt⟩

theorem savingOf_referenced {d : PendingDrop} (h : d.codec = codecReferenced) :
    savingOf z classify dicts d = 0 := by
  have hcand : dictCandidate z classify dicts d = none := by
    unfold dictCandidate
    exact if_pos (by rw [h]; decide)
  unfold savingOf
  rw [hcand]

theorem dictionarySaving_local (drops : List PendingDrop) :
    dictionarySaving z classify dicts (localDrops drops) =
      dictionarySaving z classify dicts drops := by
  unfold dictionarySaving localDrops
  induction drops with
  | nil => rfl
  | cons d rest ih =>
      by_cases hcodec : d.codec = codecReferenced
      · rw [List.filter_cons_of_neg (by simp [hcodec]), ih, List.map_cons, List.sum_cons,
          savingOf_referenced hcodec]
        omega
      · rw [List.filter_cons_of_pos (by simp [hcodec]), List.map_cons, List.sum_cons, ih,
          List.map_cons, List.sum_cons]

theorem dropsSize_cons (d : PendingDrop) (drops : List PendingDrop) :
    dropsSize (d :: drops) = dropRecordLen + d.compressed.length + dropsSize drops := by
  unfold dropsSize
  rw [solidWindow_cons, List.length_append, List.length_cons, Nat.add_mul]
  omega

theorem dropsSize_swapped (drops : List PendingDrop) :
    (dropsSize (drops.map (swapDrop z classify dicts)) : Int) =
      dropsSize drops - dictionarySaving z classify dicts drops := by
  unfold dictionarySaving
  induction drops with
  | nil => rfl
  | cons d rest ih =>
      have hd : ((swapDrop z classify dicts d).compressed.length : Int) =
          d.compressed.length - savingOf z classify dicts d := (swapDrop_length d).1
      rw [List.map_cons, dropsSize_cons, dropsSize_cons, List.map_cons, List.sum_cons]
      omega

theorem noLonger_swapped (drops : List PendingDrop) :
    NoLonger (drops.map (swapDrop z classify dicts)) drops := by
  induction drops with
  | nil => exact .nil
  | cons d rest ih =>
      refine .cons ?_ ih
      exact Nat.add_le_add_left (swapDrop_length d).2 48

/-! ### Without the kept plaintexts -/

theorem localDrops_released (drops : List PendingDrop) :
    localDrops (drops.map releaseSample) = (localDrops drops).map releaseSample :=
  localDrops_map (f := releaseSample) (fun _ => rfl) drops

theorem dropsSize_released (drops : List PendingDrop) :
    dropsSize (drops.map releaseSample) = dropsSize drops := by
  induction drops with
  | nil => rfl
  | cons d rest ih =>
      rw [List.map_cons, dropsSize_cons, dropsSize_cons, ih]
      rfl

theorem packGroups_length_released (maxContent : Nat) (drops : List PendingDrop) :
    ∀ (opened : List PendingDrop) (size : Nat),
      (packGroups maxContent (drops.map releaseSample) (opened.map releaseSample) size).length =
        (packGroups maxContent drops opened size).length := by
  induction drops with
  | nil =>
      intro opened size
      cases opened <;> simp [packGroups]
  | cons d rest ih =>
      intro opened size
      have hfresh := ih [d] d.slabFootprint
      have hmore := ih (opened ++ [d]) (size + d.slabFootprint)
      rw [List.map_append] at hmore
      have hfoot : (releaseSample d).slabFootprint = d.slabFootprint := rfl
      rw [List.map_cons]
      simp only [packGroups, hfoot, ne_eq, List.map_eq_nil_iff]
      split
      · rw [List.length_cons, List.length_cons]
        exact congrArg (· + 1) hfresh
      · exact hmore

theorem slabCount_released (drops : List PendingDrop) :
    slabCount (drops.map releaseSample) = slabCount drops := by
  unfold slabCount slabGroups
  rw [localDrops_released]
  exact packGroups_length_released _ (localDrops drops) [] 0

theorem slabCount_swapped_le (drops : List PendingDrop) :
    slabCount (drops.map (swapDrop z classify dicts)) ≤ slabCount drops := by
  unfold slabCount slabGroups
  rw [localDrops_map (swapDrop_codec dicts)]
  exact packGroups_length_le _ (noLonger_swapped _)

/-! ### The gate -/

theorem toList_ne_nil_of_pay {drops : List PendingDrop}
    (h : dictionariesPay z classify dicts drops) : dicts.toList ≠ [] := by
  intro hnil
  have hnone : ∀ d : PendingDrop, savingOf z classify dicts d = 0 := by
    intro d
    unfold savingOf
    rcases hcand : dictCandidate z classify dicts d with _ | ⟨c, id⟩
    · rfl
    · obtain ⟨plaintext, content, -, hclass, -⟩ := dictCandidate_some hcand
      exact absurd (TrainedDicts.forClass_mem hclass).1 (by rw [hnil]; exact List.not_mem_nil)
  have hsum : (drops.map (savingOf z classify dicts)).sum = 0 := by
    rw [List.map_congr_left fun d _ => hnone d]
    simp
  unfold dictionariesPay at h
  rw [hsum] at h
  omega

end

section
variable (z : Omnizip) (classify : Bytes → Class) (dicts : TrainedDicts)

/-- What is assembled had the dictionaries been discarded. -/
def WriteContext.discarded (ctx : WriteContext) : WriteContext :=
  { ctx with drops := ctx.drops.map releaseSample, trainedDicts := .none }

/-- What is assembled with them. -/
def WriteContext.swapped (ctx : WriteContext) : WriteContext :=
  { ctx with
    drops := (ctx.drops.map (swapDrop z classify dicts)).map releaseSample
    trainedDicts := dicts }

/-- What is assembled after the pass. -/
def WriteContext.afterPass (ctx : WriteContext) : WriteContext :=
  { ctx with
    drops := (applyTrainedDictionaries z classify dicts ctx.drops).1
    trainedDicts := (applyTrainedDictionaries z classify dicts ctx.drops).2 }

theorem WriteContext.afterPass_eq (ctx : WriteContext) :
    ctx.afterPass z classify dicts =
      if dictionariesPay z classify dicts ctx.drops then ctx.swapped z classify dicts
      else ctx.discarded := by
  unfold afterPass applyTrainedDictionaries
  split <;> rfl

variable {z classify dicts} {H : Hash} {ctx : WriteContext}

theorem swapped_packs {slabs : List SlabArtifact}
    (h : packSlabs H ctx.discarded.drops = some slabs) :
    ∃ slabs' : List SlabArtifact,
      packSlabs H (ctx.swapped z classify dicts).drops = some slabs' ∧
        slabs'.length ≤ slabs.length := by
  obtain ⟨slabs', hslabs'⟩ :
      ∃ slabs', packSlabs H (ctx.swapped z classify dicts).drops = some slabs' := by
    refine packSlabs_isSome.mpr ?_
    have hfits := packSlabs_isSome.mp ⟨_, h⟩
    rw [WriteContext.discarded, localDrops_released] at hfits
    rw [WriteContext.swapped, localDrops_released, localDrops_map (swapDrop_codec dicts),
      List.map_map]
    intro d hd
    obtain ⟨d, hmem, rfl⟩ := List.mem_map.mp hd
    have hd := hfits (releaseSample d) (List.mem_map_of_mem hmem)
    exact Nat.lt_of_le_of_lt (swapDrop_length d).2 hd
  refine ⟨slabs', hslabs', ?_⟩
  rw [(encodeSlabs_groups _ _ _ hslabs').length_eq, (encodeSlabs_groups _ _ _ h).length_eq]
  show slabCount ((ctx.drops.map (swapDrop z classify dicts)).map releaseSample) ≤
    slabCount (ctx.drops.map releaseSample)
  rw [slabCount_released, slabCount_released]
  exact slabCount_swapped_le _

theorem localSize_discarded :
    dropsSize (localDrops ctx.discarded.drops) = dropsSize (localDrops ctx.drops) := by
  rw [WriteContext.discarded, localDrops_released, dropsSize_released]

theorem localSize_swapped :
    (dropsSize (localDrops (ctx.swapped z classify dicts).drops) : Int) =
      dropsSize (localDrops ctx.drops) - dictionarySaving z classify dicts ctx.drops := by
  rw [WriteContext.swapped, localDrops_released, dropsSize_released,
    localDrops_map (swapDrop_codec dicts), dropsSize_swapped, dictionarySaving_local]

theorem trailer_swapped (h : dicts.toList ≠ []) :
    (ctx.swapped z classify dicts).trailer.length =
      (encodeDictionarySection dicts.section_).length + ctx.discarded.trailer.length := by
  have hnone : TrainedDicts.none.toList = [] := rfl
  show ((if dicts.toList = [] then [] else encodeDictionarySection dicts.section_)
      ++ ctx.baseRoot.elim [] deltaLinkageBytes).length =
    _ + ((if TrainedDicts.none.toList = [] then [] else
      encodeDictionarySection TrainedDicts.none.section_)
        ++ ctx.baseRoot.elim [] deltaLinkageBytes).length
  rw [if_neg h, if_pos hnone, List.length_append, List.nil_append]

/-- The image with the dictionaries beside the one without. -/
theorem swapped_imageSize {a₀ : WriteArtifact}
    (hpay : dictionariesPay z classify dicts ctx.drops)
    (h : assemble H z ctx.discarded = some a₀) :
    ∃ a : WriteArtifact, assemble H z (ctx.swapped z classify dicts) = some a ∧
      (a.imageSize : Int) + dictionarySaving z classify dicts ctx.drops
          + slabCosts 0 (slabCount ctx.drops) =
        a₀.imageSize + (encodeDictionarySection dicts.section_).length
          + slabCosts 0 (slabCount (ctx.drops.map (swapDrop z classify dicts))) := by
  obtain ⟨blob, hblob⟩ : ∃ blob, ctx.discarded.metadataBlob H = some blob := by
    simp only [assemble, Option.bind_eq_bind, Option.bind_eq_some_iff] at h
    obtain ⟨_, -, blob, hblob, -⟩ := h
    exact ⟨blob, hblob⟩
  have hblob' : (ctx.swapped z classify dicts).metadataBlob H = ctx.discarded.metadataBlob H := rfl
  obtain ⟨-, -, hslabs₀, -, -⟩ := assemble_some hblob h
  obtain ⟨slabs, hslabs, hcount⟩ : ∃ slabs : List SlabArtifact,
      packSlabs H (ctx.swapped z classify dicts).drops = some slabs ∧
        slabs.length ≤ a₀.slabs.length := swapped_packs hslabs₀
  obtain ⟨a, ha⟩ := assemble_of_packed h hblob' rfl hslabs hcount
  refine ⟨a, ha, ?_⟩
  have hframe : frameSize H z (ctx.swapped z classify dicts) blob =
      frameSize H z ctx.discarded blob := rfl
  have hgroups₀ : (slabGroups ctx.discarded.drops).length = slabCount ctx.drops :=
    slabCount_released ctx.drops
  have hgroups : (slabGroups (ctx.swapped z classify dicts).drops).length =
      slabCount (ctx.drops.map (swapDrop z classify dicts)) :=
    slabCount_released (ctx.drops.map (swapDrop z classify dicts))
  have htrailer : (ctx.swapped z classify dicts).trailer.length =
      (encodeDictionarySection dicts.section_).length + ctx.discarded.trailer.length :=
    trailer_swapped (toList_ne_nil_of_pay hpay)
  have hlocal : (dropsSize (localDrops (ctx.swapped z classify dicts).drops) : Int) =
      dropsSize (localDrops ctx.drops) - dictionarySaving z classify dicts ctx.drops :=
    localSize_swapped
  rw [assembled_imageSize hblob h, assembled_imageSize (hblob'.trans hblob) ha, hframe, hgroups,
    hgroups₀, htrailer, localSize_discarded]
  omega

/--
**The pass enlarges no image whose dictionaries it discards, and one that it keeps exactly
when they do not cover their section.**  The gate asks only that they save more than their
contents.
-/
theorem dictionaries_never_enlarge_iff (H : Hash) (z : Omnizip) (classify : Bytes → Class)
    (dicts : TrainedDicts) (ctx : WriteContext) {a₀ : WriteArtifact}
    (h : assemble H z ctx.discarded = some a₀) :
    ∃ a : WriteArtifact, assemble H z (ctx.afterPass z classify dicts) = some a ∧
      (a.imageSize ≤ a₀.imageSize ↔
        (dictionariesPay z classify dicts ctx.drops →
          SectionCovered z classify dicts ctx.drops)) := by
  rw [WriteContext.afterPass_eq]
  by_cases hpay : dictionariesPay z classify dicts ctx.drops
  · rw [if_pos hpay]
    obtain ⟨a, ha, hsize⟩ := swapped_imageSize hpay h
    refine ⟨a, ha, ?_⟩
    unfold SectionCovered
    rw [imp_iff_right hpay]
    omega
  · rw [if_neg hpay]
    exact ⟨a₀, h, iff_of_true (Nat.le_refl _) fun h => absurd h hpay⟩

end

namespace Stored

/-- Two texts that begin with the dictionary. -/
def twoTexts : WriteContext :=
  let text (plaintext : Bytes) : PendingDrop :=
    { zstdDrop false with
      id := foldDigest plaintext
      compressed := plaintext
      plaintext := some plaintext }
  { oneFile (text (ascii "abcd")) .none with drops := [text (ascii "abcd"), text (ascii "abce")] }

end Stored

open LimniFS.Stored

/-- Two drops save four bytes together under a dictionary of three: it is kept, and its section
takes eleven. -/
theorem kept_dictionary_enlarges :
    dictionariesPay omnizip (fun _ => .text) textDict twoTexts.drops ∧
    ∃ a₀ a : WriteArtifact,
      assemble foldDigest omnizip twoTexts.discarded = some a₀ ∧
      assemble foldDigest omnizip
        (twoTexts.afterPass omnizip (fun _ => .text) textDict) = some a ∧
      a.imageSize = a₀.imageSize + 7 := by
  refine ⟨by decide +kernel, ?_⟩
  have hsizes : (assemble foldDigest omnizip twoTexts.discarded).bind
      (fun a₀ => (assemble foldDigest omnizip
        (twoTexts.afterPass omnizip (fun _ => .text) textDict)).map
          fun a => decide (a.imageSize = a₀.imageSize + 7)) = some true := by decide +kernel
  obtain ⟨a₀, h₀, h⟩ := Option.bind_eq_some_iff.mp hsizes
  obtain ⟨a, ha, hsize⟩ := Option.map_eq_some_iff.mp h
  exact ⟨a₀, a, h₀, ha, of_decide_eq_true hsize⟩

/-- Two texts under their dictionary. -/
theorem dictionaries_never_enlarge_iff_texts :
    ∃ a₀ a : WriteArtifact,
      assemble foldDigest omnizip twoTexts.discarded = some a₀ ∧
      assemble foldDigest omnizip
        (twoTexts.afterPass omnizip (fun _ => .text) textDict) = some a ∧
      (a.imageSize ≤ a₀.imageSize ↔
        (dictionariesPay omnizip (fun _ => .text) textDict twoTexts.drops →
          SectionCovered omnizip (fun _ => .text) textDict
            twoTexts.drops)) := by
  obtain ⟨a₀, h⟩ := Option.isSome_iff_exists.mp (show (assemble foldDigest omnizip
    twoTexts.discarded).isSome = true by decide +kernel)
  obtain ⟨a, ha, hiff⟩ := dictionaries_never_enlarge_iff foldDigest omnizip
    (fun _ => .text) textDict twoTexts h
  exact ⟨a₀, a, h, ha, hiff⟩

end LimniFS
