/-
Packing as a partition.

The packer charges 48 bytes for a record of 50, so a slab can come out two bytes a record longer than
its budget.  The budget is 4 MiB below what a reader takes, and a record is charged at least 48 bytes,
which leaves room for that whatever the drops are (`total_of_footprint`).

Nothing in the packer looks at how long a plaintext is, and a reader refuses a record of more than
64 MiB.
-/
import LimniFS.SlabWriter

namespace LimniFS

open Lib

/-- A slab holds just the records of these drops, each with its drop's bytes. -/
structure SlabArtifact.Holds (slab : SlabArtifact) (ordinal : Nat) (group : List PendingDrop) : Prop
    where
  nonempty : group ≠ []
  ordinal : slab.id.ordinal = ordinal
  ceiling : slab.bytes.length ≤ defaultSlabMaxBytes
  parsed : ∃ view, parseSlab slab.bytes = .ok view ∧ recordsFrom 0 group = some view.dropRecords ∧
    List.Forall₂ (fun r d => r = d.record r.offsetInWindow ∧
      r.offsetInWindow + r.lenInWindow < u32Limit ∧ view.window r = some d.compressed)
      view.dropRecords group

/-- The slabs are an ordered partition of the drops that are stored, and a reader takes each. -/
def PacksExactly (H : Hash) (drops : List PendingDrop) : Prop :=
  ∃ (slabs : List SlabArtifact) (groups : List (List PendingDrop)),
    packSlabs H drops = some slabs ∧ groups.flatten = localDrops drops ∧
    slabs.length = groups.length ∧
    ∀ (i : Nat) (slab : SlabArtifact) (group : List PendingDrop),
      slabs[i]? = some slab → groups[i]? = some group → slab.Holds i group

/-! ### The budget -/

/-- What the packer reckons the drops take. -/
def footprint (drops : List PendingDrop) : Nat := (drops.map PendingDrop.slabFootprint).sum

theorem footprint_snoc (drops : List PendingDrop) (d : PendingDrop) :
    footprint (drops ++ [d]) = footprint drops + d.slabFootprint := by
  simp [footprint]

theorem footprint_eq (drops : List PendingDrop) :
    footprint drops = 48 * drops.length + (solidWindow drops).length := by
  induction drops with
  | nil => rfl
  | cons d rest ih =>
      show d.slabFootprint + footprint rest = _
      rw [ih, solidWindow_cons, List.length_append, List.length_cons, PendingDrop.slabFootprint]
      omega

/-- A group is within its budget, or it is one drop. -/
def InBudget (maxContent : Nat) (group : List PendingDrop) : Prop :=
  footprint group ≤ maxContent ∨ ∃ d, group = [d]

theorem packGroups_inBudget (maxContent : Nat) :
    ∀ drops current : List PendingDrop, (current ≠ [] → InBudget maxContent current) →
      ∀ group ∈ packGroups maxContent drops current (footprint current),
        group ≠ [] ∧ InBudget maxContent group := by
  intro drops
  induction drops with
  | nil =>
      intro current hcurrent group hgroup
      unfold packGroups at hgroup
      by_cases hnil : current = []
      · rw [if_pos hnil] at hgroup
        exact absurd hgroup List.not_mem_nil
      · rw [if_neg hnil] at hgroup
        obtain rfl := List.mem_singleton.mp hgroup
        exact ⟨hnil, hcurrent hnil⟩
  | cons d rest ih =>
      intro current hcurrent group hgroup
      unfold packGroups at hgroup
      by_cases hfull : current ≠ [] ∧ maxContent < footprint current + d.slabFootprint
      · rw [if_pos hfull] at hgroup
        rcases List.mem_cons.mp hgroup with rfl | hlater
        · exact ⟨hfull.1, hcurrent hfull.1⟩
        · have hone : footprint [d] = d.slabFootprint := by simp [footprint]
          rw [← hone] at hlater
          exact ih [d] (fun _ => Or.inr ⟨d, rfl⟩) group hlater
      · rw [if_neg hfull, ← footprint_snoc] at hgroup
        refine ih (current ++ [d]) (fun _ => ?_) group hgroup
        by_cases hnil : current = []
        · exact Or.inr ⟨d, by rw [hnil]; rfl⟩
        · refine Or.inl ?_
          rw [footprint_snoc]
          exact Nat.le_of_not_lt fun hlt => hfull ⟨hnil, hlt⟩

theorem slabGroups_inBudget {drops group : List PendingDrop} (h : group ∈ slabGroups drops) :
    group ≠ [] ∧ InBudget (maxSlabTotalBytes - slabHeaderLen) group :=
  packGroups_inBudget _ (localDrops drops) [] (fun h => absurd rfl h) group h

/-- **The margin covers the two bytes that each record is undercharged.** -/
theorem total_of_footprint {group : List PendingDrop}
    (h : InBudget (maxSlabTotalBytes - slabHeaderLen) group)
    (halone : ∀ d ∈ group, slabHeaderLen + dropRecordLen + d.compressed.length ≤ defaultSlabMaxBytes) :
    slabHeaderLen + (group.length * dropRecordLen + (solidWindow group).length) ≤
      defaultSlabMaxBytes := by
  rcases h with hfits | ⟨d, rfl⟩
  · rw [footprint_eq] at hfits
    simp only [slabHeaderLen, dropRecordLen, defaultSlabMaxBytes, maxSlabTotalBytes] at *
    omega
  · have hlen := halone d List.mem_cons_self
    rw [solidWindow_cons]
    simp only [List.length_append, List.length_singleton, solidWindow, List.flatMap_nil,
      List.length_nil]
    omega

/-! ### Encoding -/

theorem recordsFrom_isSome : ∀ (drops : List PendingDrop) (offset : Nat),
    offset + (solidWindow drops).length < u32Limit → ∃ records, recordsFrom offset drops = some records := by
  intro drops
  induction drops with
  | nil => exact fun offset _ => ⟨[], rfl⟩
  | cons d rest ih =>
      intro offset h
      rw [solidWindow_cons, List.length_append] at h
      obtain ⟨records, hrecords⟩ := ih (offset + d.compressed.length) (by omega)
      refine ⟨d.record offset :: records, ?_⟩
      rw [recordsFrom, if_pos (by omega), hrecords]
      rfl

theorem encodeSlabs_isSome {H : Hash} : ∀ (groups : List (List PendingDrop)) (ordinal : Nat),
    (∀ group ∈ groups, ∃ records, recordsFrom 0 group = some records) →
      ∃ slabs, encodeSlabs H ordinal groups = some slabs := by
  intro groups
  induction groups with
  | nil => exact fun ordinal _ => ⟨[], rfl⟩
  | cons group rest ih =>
      intro ordinal h
      obtain ⟨⟨records, hrecords⟩, hrest⟩ := List.forall_mem_cons.mp h
      obtain ⟨slabs, hslabs⟩ := ih (ordinal + 1) hrest
      obtain ⟨slab, hslab⟩ : ∃ slab, encodeSlab H ordinal group = some slab := by
        rw [encodeSlab, hrecords]
        exact ⟨_, rfl⟩
      refine ⟨slab :: slabs, ?_⟩
      rw [encodeSlabs, hslab, hslabs]

/-- The slabs are numbered from the first on. -/
theorem encodeSlabs_getElem? {H : Hash} : ∀ (groups : List (List PendingDrop)) (ordinal : Nat)
    (slabs : List SlabArtifact), encodeSlabs H ordinal groups = some slabs →
      slabs.length = groups.length ∧ ∀ i slab group, slabs[i]? = some slab →
        groups[i]? = some group → encodeSlab H (ordinal + i) group = some slab := by
  intro groups
  induction groups with
  | nil =>
      intro ordinal slabs h
      cases h
      exact ⟨rfl, fun i slab group hslab _ => by cases hslab⟩
  | cons first rest ih =>
      intro ordinal slabs h
      unfold encodeSlabs at h
      split at h
      · next slab slabs' hslab hrest =>
          cases h
          obtain ⟨hlen, hall⟩ := ih _ _ hrest
          refine ⟨by rw [List.length_cons, List.length_cons, hlen], fun i s g hs hg => ?_⟩
          cases i with
          | zero =>
              cases hs
              cases hg
              exact hslab
          | succ i =>
              rw [List.getElem?_cons_succ] at hs hg
              have := hall i s g hs hg
              rwa [Nat.add_assoc, Nat.add_comm 1 i] at this
      · cases h

/-- A group that a reader's ceilings allow is read back from its slab. -/
theorem holds_encodeSlab {H : Hash} {ordinal : Nat} {group : List PendingDrop} {slab : SlabArtifact}
    (hord : ordinal < 2 ^ 64) (hnonempty : group ≠ [])
    (htotal : slabHeaderLen + (group.length * dropRecordLen + (solidWindow group).length) ≤
      defaultSlabMaxBytes)
    (hplain : ∀ d ∈ group, d.plaintextLen ≤ defaultDropMaxPlaintextBytes)
    (h : encodeSlab H ordinal group = some slab) : slab.Holds ordinal group := by
  obtain ⟨records, hrecords, rfl⟩ := Option.map_eq_some_iff.mp h
  have hwindow := window_of_recordsFrom hrecords
  have hcount : records.length = group.length := hwindow.length_eq
  have hsum := windowLenSum_recordsFrom _ _ _ hrecords
  let header := slabHeaderOf H ordinal records (solidWindow group)
  have hlen : header.totalLength = (slabBytes header records (solidWindow group)).length := by
    rw [slabBytes_length, ← flatMap_toBytes_length, ← List.length_append]
    rfl
  have hbytes : (slabBytes header records (solidWindow group)).length ≤ defaultSlabMaxBytes := by
    rw [slabBytes_length, hcount]
    exact htotal
  have hheader : header.Valid := by
    refine ⟨hord, Nat.le_add_right _ _, hlen ▸ hbytes, ?_, ?_⟩
    · show (0 : UInt8) ≠ 0xFF
      decide
    · show (0 : UInt8) ≠ 0xFF
      decide
  have hvalid : ∀ r ∈ records, r.Valid header := by
    refine forall_mem_of_forall₂ hwindow hplain ?_
    rintro r d ⟨hr, hfits, -⟩ hd
    refine ⟨?_, Or.inr ?_, Or.inr ?_, hfits⟩ <;> rw [hr]
    · exact hd
    · rfl
    · rfl
  refine ⟨hnonempty, rfl, hbytes, _, parseSlab_slabBytes hheader hvalid hsum hlen, hrecords, ?_⟩
  have hinside := window_le_of_recordsFrom _ _ _ hrecords
  refine (forall₂_and_mem_left hwindow).imp ?_
  rintro r d ⟨⟨heq, hfits, hcut⟩, hr⟩
  refine ⟨heq, hfits, ?_⟩
  rw [window_slabBytes header records (by have := hinside r hr; omega), hcut]

/-! ### The partition -/

theorem length_le_flatten {α : Type} {lists : List (List α)} (h : ∀ l ∈ lists, l ≠ []) :
    lists.length ≤ lists.flatten.length := by
  induction lists with
  | nil => exact Nat.le_refl 0
  | cons l rest ih =>
      obtain ⟨hl, hrest⟩ := List.forall_mem_cons.mp h
      have hpos := List.length_pos_iff.mpr hl
      have := ih hrest
      rw [List.length_cons, List.flatten_cons, List.length_append]
      omega

theorem plaintext_le_of_packsExactly {H : Hash} {drops : List PendingDrop} (h : PacksExactly H drops) :
    ∀ d ∈ localDrops drops, d.plaintextLen ≤ defaultDropMaxPlaintextBytes := by
  obtain ⟨slabs, groups, -, hflatten, hlen, hholds⟩ := h
  intro d hd
  rw [← hflatten] at hd
  obtain ⟨group, hgroup, hd⟩ := List.mem_flatten.mp hd
  obtain ⟨i, hi, hget⟩ := List.getElem_of_mem hgroup
  have hslab : i < slabs.length := hlen ▸ hi
  have hheld := hholds i slabs[i] group (List.getElem?_eq_getElem hslab)
    (by rw [List.getElem?_eq_getElem hi, hget])
  obtain ⟨view, hview, -, hrecords⟩ := hheld.parsed
  obtain ⟨-, hvalid, -⟩ := parseSlab_ok hview
  obtain ⟨r, hr, heq, -⟩ := exists_mem_of_forall₂ hrecords d hd
  have hplain := (hvalid r hr).plaintextLen
  rw [heq] at hplain
  exact hplain

/-- **Packing is an exact ordered partition that readers take, exactly if no plaintext is longer than
a reader allows.** -/
theorem packs_exactly_iff : ∀ (H : Hash) (drops : List PendingDrop), drops.length < 2 ^ 63 →
    (∀ d ∈ drops, d.compressed.length < maxSlabTotalBytes - 56 - 50) →
    (PacksExactly H drops ↔
      ∀ d ∈ localDrops drops, d.plaintextLen ≤ defaultDropMaxPlaintextBytes) := by
  intro H drops hcount hsmall
  refine ⟨plaintext_le_of_packsExactly, fun hplain => ?_⟩
  have hmem : ∀ group ∈ slabGroups drops, ∀ d ∈ group, d ∈ localDrops drops := by
    intro group hgroup d hd
    rw [← slabGroups_flatten]
    exact List.mem_flatten.mpr ⟨group, hgroup, hd⟩
  have htotal : ∀ group ∈ slabGroups drops,
      slabHeaderLen + (group.length * dropRecordLen + (solidWindow group).length) ≤
        defaultSlabMaxBytes := by
    intro group hgroup
    refine total_of_footprint (slabGroups_inBudget hgroup).2 fun d hd => ?_
    have hlen := hsmall d (List.mem_of_mem_filter (hmem group hgroup d hd))
    simp only [slabHeaderLen, dropRecordLen, defaultSlabMaxBytes, maxSlabTotalBytes] at *
    omega
  obtain ⟨slabs, hslabs⟩ := encodeSlabs_isSome (H := H) (slabGroups drops) 0 fun group hgroup => by
    have := htotal group hgroup
    refine recordsFrom_isSome group 0 ?_
    simp only [slabHeaderLen, dropRecordLen, defaultSlabMaxBytes, u32Limit] at *
    omega
  obtain ⟨hlen, hall⟩ := encodeSlabs_getElem? _ _ _ hslabs
  have hfew : (slabGroups drops).length ≤ drops.length := by
    calc (slabGroups drops).length ≤ (slabGroups drops).flatten.length :=
          length_le_flatten fun group hgroup => (slabGroups_inBudget hgroup).1
      _ = (localDrops drops).length := by rw [slabGroups_flatten]
      _ ≤ drops.length := List.length_filter_le ..
  refine ⟨slabs, slabGroups drops, hslabs, slabGroups_flatten drops, hlen,
    fun i slab group hslab hgroup => ?_⟩
  have hin := List.mem_of_getElem? hgroup
  have hi : i < (slabGroups drops).length := (List.getElem?_eq_some_iff.mp hgroup).1
  have henc := hall i slab group hslab hgroup
  rw [Nat.zero_add] at henc
  exact holds_encodeSlab (by omega) (slabGroups_inBudget hin).1 (htotal group hin)
    (fun d hd => hplain d (hmem group hin d hd)) henc

namespace Stored

/-- A drop of one byte more than a reader allows, which compressed well. -/
def longDrop : PendingDrop :=
  ⟨⟨List.replicate 32 7, rfl⟩, defaultDropMaxPlaintextBytes + 1, [1, 2, 3], codecBrotli, 0xFF, none, 0⟩

end Stored

/-- The packer stores the drop in a slab that no reader takes. -/
theorem long_plaintext_refused :
    Stored.longDrop.compressed.length < maxSlabTotalBytes - 56 - 50 ∧
      ¬ PacksExactly (fun _ => ⟨List.replicate 32 0, rfl⟩) [Stored.longDrop] := by
  refine ⟨by decide, fun h => ?_⟩
  have := plaintext_le_of_packsExactly h Stored.longDrop List.mem_cons_self
  exact absurd this (by decide)

theorem packs_exactly_iff_long :
    PacksExactly (fun _ => ⟨List.replicate 32 0, rfl⟩) [Stored.longDrop] ↔
      ∀ d ∈ localDrops [Stored.longDrop], d.plaintextLen ≤ defaultDropMaxPlaintextBytes :=
  packs_exactly_iff _ _ (by decide) (List.forall_mem_singleton.mpr (by decide))

end LimniFS
