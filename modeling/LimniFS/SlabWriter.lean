/-
Packing drops into slabs.

The writer keeps the drops it will store in the order it met them, cuts the list into
groups that fit a slab, and encodes each group: the records in order, then the drops'
bytes one after another.  Drops that only refer to a base image are left out.

A window is where the bytes were put (`window_of_recordsFrom`), so a record read back
from a slab decodes to whatever its drop's bytes decode to.
-/
import LimniFS.SlabStore

namespace LimniFS

open Lib

def maxSlabTotalBytes : Nat := 60 * 1024 * 1024

/-- A drop waiting to be stored; the plaintext is kept only for the dictionary pass. -/
structure PendingDrop where
  id : Digest
  plaintextLen : Nat
  compressed : Bytes
  codec : UInt8
  dictId : UInt8
  plaintext : Option Bytes
  flags : UInt8

namespace PendingDrop

/-- What the packer reckons a drop takes in a slab. -/
def slabFootprint (d : PendingDrop) : Nat := 48 + d.compressed.length

/-- The record of a drop whose bytes start at `offset`. -/
def record (d : PendingDrop) (offset : Nat) : DropRecord where
  dropId := d.id
  plaintextLen := d.plaintextLen
  representation := ⟨d.codec, 0, 0⟩
  solidWindowIndex := 0
  offsetInWindow := offset
  lenInWindow := d.compressed.length
  dictId := d.dictId
  flags := d.flags

end PendingDrop

structure SlabArtifact where
  id : SlabId
  bytes : Bytes
  locator : Bytes
  dropIds : List Digest

/-- The records of `drops` from `offset` on; `none` is the overflow that panics. -/
def recordsFrom : Nat → List PendingDrop → Option (List DropRecord)
  | _, [] => some []
  | offset, d :: rest =>
    if offset + d.compressed.length < u32Limit then
      (recordsFrom (offset + d.compressed.length) rest).map (d.record offset :: ·)
    else none

def solidWindow (drops : List PendingDrop) : Bytes := drops.flatMap (·.compressed)

@[simp] theorem solidWindow_cons (d : PendingDrop) (rest : List PendingDrop) :
    solidWindow (d :: rest) = d.compressed ++ solidWindow rest := by
  simp [solidWindow]

/-- `file:slab-{ordinal}-{h8}.bin`. -/
def slabLocator (ordinal : Nat) (hash : Digest) : Bytes :=
  ascii (s!"file:slab-{ordinal}-" ++ String.ofList (hexLower (hash.val.take 4)) ++ ".bin")

/-- The identity of a slab is the hash of what follows its header. -/
def slabIdOf (H : Hash) (ordinal : Nat) (records : List DropRecord) (window : Bytes) : SlabId :=
  ⟨ordinal, H (records.flatMap DropRecord.toBytes ++ window)⟩

def slabHeaderOf (H : Hash) (ordinal : Nat) (records : List DropRecord) (window : Bytes) :
    SlabHeader where
  slabId := slabIdOf H ordinal records window
  totalLength := slabHeaderLen + (records.flatMap DropRecord.toBytes ++ window).length
  ecDescriptor := 0
  cryptoHint := 0

def encodeSlab (H : Hash) (ordinal : Nat) (drops : List PendingDrop) : Option SlabArtifact :=
  (recordsFrom 0 drops).map fun records =>
    let window := solidWindow drops
    let id := slabIdOf H ordinal records window
    { id := id
      bytes := slabBytes (slabHeaderOf H ordinal records window) records window
      locator := slabLocator ordinal id.hash
      dropIds := drops.map (·.id) }

/-- Cut the drops into groups; `current` is the group being filled. -/
def packGroups (maxContent : Nat) :
    List PendingDrop → List PendingDrop → Nat → List (List PendingDrop)
  | [], current, _ => if current = [] then [] else [current]
  | d :: rest, current, currentSize =>
    if current ≠ [] ∧ maxContent < currentSize + d.slabFootprint then
      current :: packGroups maxContent rest [d] d.slabFootprint
    else packGroups maxContent rest (current ++ [d]) (currentSize + d.slabFootprint)

def encodeSlabs (H : Hash) : Nat → List (List PendingDrop) → Option (List SlabArtifact)
  | _, [] => some []
  | ordinal, group :: rest =>
    match encodeSlab H ordinal group, encodeSlabs H (ordinal + 1) rest with
    | some slab, some slabs => some (slab :: slabs)
    | _, _ => none

/-- The drops this image stores itself. -/
def localDrops (drops : List PendingDrop) : List PendingDrop :=
  drops.filter fun d => d.codec != codecReferenced

def slabGroups (drops : List PendingDrop) : List (List PendingDrop) :=
  packGroups (maxSlabTotalBytes - slabHeaderLen) (localDrops drops) [] 0

def packSlabs (H : Hash) (drops : List PendingDrop) : Option (List SlabArtifact) :=
  encodeSlabs H 0 (slabGroups drops)

/-! ### Every local drop is in exactly one group -/

theorem packGroups_flatten (maxContent : Nat) :
    ∀ (drops current : List PendingDrop) (size : Nat),
      (packGroups maxContent drops current size).flatten = current ++ drops := by
  intro drops
  induction drops with
  | nil =>
      intro current size
      unfold packGroups
      split
      · next h => rw [h]; rfl
      · simp
  | cons d rest ih =>
      intro current size
      unfold packGroups
      split
      · rw [List.flatten_cons, ih, List.singleton_append]
      · rw [ih, List.append_assoc, List.singleton_append]

theorem slabGroups_flatten (drops : List PendingDrop) :
    (slabGroups drops).flatten = localDrops drops := by
  unfold slabGroups
  rw [packGroups_flatten, List.nil_append]

/-! ### A record's window is its drop's bytes -/

/-- The bytes of a record's window among the bytes of all drops. -/
def cutWindow (window : Bytes) (r : DropRecord) : Bytes :=
  (window.drop r.offsetInWindow).take r.lenInWindow

theorem recordsFrom_spec :
    ∀ (drops : List PendingDrop) (offset : Nat) (records : List DropRecord),
      recordsFrom offset drops = some records →
      ∀ front : Bytes, front.length = offset →
        List.Forall₂ (fun r d => r = d.record r.offsetInWindow ∧
          r.offsetInWindow + r.lenInWindow < u32Limit ∧
          cutWindow (front ++ solidWindow drops) r = d.compressed) records drops := by
  intro drops
  induction drops with
  | nil =>
      intro offset records h front _
      cases h
      exact .nil
  | cons d rest ih =>
      intro offset records h front hfront
      unfold recordsFrom at h
      split at h
      · next hfits =>
          obtain ⟨tail, htail, rfl⟩ := Option.map_eq_some_iff.mp h
          have hassoc : front ++ solidWindow (d :: rest)
              = (front ++ d.compressed) ++ solidWindow rest := by
            rw [solidWindow_cons, List.append_assoc]
          refine .cons ⟨rfl, hfits, ?_⟩ ?_
          · show ((front ++ solidWindow (d :: rest)).drop offset).take d.compressed.length = _
            rw [← hfront, List.drop_left, solidWindow_cons, List.take_left]
          · rw [hassoc]
            exact ih _ _ htail (front ++ d.compressed) (by rw [List.length_append, hfront])
      · cases h

/-- **Each record of an encoded slab finds its drop's bytes.** -/
theorem window_of_recordsFrom {drops : List PendingDrop} {records : List DropRecord}
    (h : recordsFrom 0 drops = some records) :
    List.Forall₂ (fun r d => r = d.record r.offsetInWindow ∧
      r.offsetInWindow + r.lenInWindow < u32Limit ∧
      cutWindow (solidWindow drops) r = d.compressed) records drops :=
  recordsFrom_spec drops 0 records h [] rfl

theorem windowLenSum_recordsFrom :
    ∀ (drops : List PendingDrop) (offset : Nat) (records : List DropRecord),
      recordsFrom offset drops = some records →
      windowLenSum records = (solidWindow drops).length := by
  intro drops
  induction drops with
  | nil => intro offset records h; cases h; rfl
  | cons d rest ih =>
      intro offset records h
      unfold recordsFrom at h
      split at h
      · obtain ⟨tail, htail, rfl⟩ := Option.map_eq_some_iff.mp h
        rw [windowLenSum_cons, ih _ _ htail, solidWindow_cons, List.length_append]
        rfl
      · cases h

theorem window_le_of_recordsFrom :
    ∀ (drops : List PendingDrop) (offset : Nat) (records : List DropRecord),
      recordsFrom offset drops = some records →
      ∀ r ∈ records, r.offsetInWindow + r.lenInWindow ≤ offset + (solidWindow drops).length := by
  intro drops
  induction drops with
  | nil => intro offset records h r hr; cases h; cases hr
  | cons d rest ih =>
      intro offset records h r hr
      unfold recordsFrom at h
      rw [solidWindow_cons, List.length_append]
      split at h
      · obtain ⟨tail, htail, rfl⟩ := Option.map_eq_some_iff.mp h
        rcases List.mem_cons.mp hr with rfl | hr
        · show offset + d.compressed.length ≤ _
          omega
        · have := ih _ _ htail r hr
          omega
      · cases h

/-- In a slab put together from its parts, a window is cut out of the bytes behind the records. -/
theorem window_slabBytes (header : SlabHeader) (records : List DropRecord) {window : Bytes}
    {r : DropRecord} (h : r.offsetInWindow + r.lenInWindow ≤ window.length) :
    (⟨slabBytes header records window, header, records,
        slabHeaderLen + records.length * dropRecordLen⟩ : SlabView).window r
      = some (cutWindow window r) := by
  have hfront : slabHeaderLen + records.length * dropRecordLen
      = (header.toBytes ++ records.flatMap DropRecord.toBytes).length := by
    rw [List.length_append, SlabHeader.toBytes_length, flatMap_toBytes_length]
  unfold SlabView.window cutWindow
  simp only [slabBytes_length]
  rw [if_neg (by omega), slabBytes, ← List.append_assoc, hfront, ← List.drop_drop,
    List.drop_left]

/-! ### What is stored of the drops -/

/-- Every record of every slab, with the bytes of its window. -/
def storedDrops (drops : List PendingDrop) : List (DropRecord × Bytes) :=
  (slabGroups drops).flatMap fun group =>
    ((recordsFrom 0 group).getD []).map fun r => (r, cutWindow (solidWindow group) r)

/-- A record and its window are what was kept of a drop. -/
def StoredAs (s : DropRecord × Bytes) (d : PendingDrop) : Prop :=
  s.1 = d.record s.1.offsetInWindow ∧ s.2 = d.compressed

theorem recordsFrom_of_encodeSlabs {H : Hash} :
    ∀ (groups : List (List PendingDrop)) (ordinal : Nat) (slabs : List SlabArtifact),
      encodeSlabs H ordinal groups = some slabs →
      ∀ group ∈ groups, ∃ records, recordsFrom 0 group = some records := by
  intro groups
  induction groups with
  | nil => intro _ _ _ group hmem; cases hmem
  | cons first rest ih =>
      intro ordinal slabs h group hmem
      unfold encodeSlabs at h
      split at h
      · next slab slabs' hslab hrest =>
          rcases List.mem_cons.mp hmem with rfl | hmem
          · obtain ⟨records, hrecords, -⟩ := Option.map_eq_some_iff.mp hslab
            exact ⟨records, hrecords⟩
          · exact ih _ _ hrest group hmem
      · cases h

/-- **The records of an image are its local drops, in order.** -/
theorem storedDrops_localDrops {H : Hash} {drops : List PendingDrop} {slabs : List SlabArtifact}
    (h : packSlabs H drops = some slabs) :
    List.Forall₂ StoredAs (storedDrops drops) (localDrops drops) := by
  have hrecords := recordsFrom_of_encodeSlabs _ _ _ h
  rw [← slabGroups_flatten]
  unfold storedDrops
  generalize slabGroups drops = groups at hrecords
  induction groups with
  | nil => exact .nil
  | cons group rest ih =>
      obtain ⟨records, hrec⟩ := hrecords group List.mem_cons_self
      rw [List.flatMap_cons, List.flatten_cons]
      refine List.rel_append ?_ (ih fun g hg => hrecords g (List.mem_cons_of_mem _ hg))
      rw [hrec, Option.getD_some, List.forall₂_map_left_iff]
      refine (window_of_recordsFrom hrec).imp ?_
      rintro r d ⟨hr, -, hw⟩
      exact ⟨hr, hw⟩

/-! ### Reading back what was packed -/

/-- Each slab encodes its group, under a number of its own. -/
theorem encodeSlabs_groups {H : Hash} :
    ∀ (groups : List (List PendingDrop)) (ordinal : Nat) (slabs : List SlabArtifact),
      encodeSlabs H ordinal groups = some slabs →
      List.Forall₂ (fun slab group => ∃ o, o < ordinal + slabs.length ∧
        encodeSlab H o group = some slab) slabs groups := by
  intro groups
  induction groups with
  | nil => intro ordinal slabs h; cases h; exact .nil
  | cons group rest ih =>
      intro ordinal slabs h
      unfold encodeSlabs at h
      split at h
      · next slab slabs' hslab hrest =>
          cases h
          rw [List.length_cons]
          refine .cons ⟨ordinal, by omega, hslab⟩ ((ih _ _ hrest).imp ?_)
          rintro s g ⟨o, ho, hs⟩
          exact ⟨o, by omega, hs⟩
      · cases h

/-- **The slabs hold the ids of the local drops, in order.** -/
theorem packSlabs_dropIds {H : Hash} {drops : List PendingDrop} {slabs : List SlabArtifact}
    (h : packSlabs H drops = some slabs) :
    slabs.flatMap (·.dropIds) = (localDrops drops).map (·.id) := by
  have hids := map_eq_map_of_forall₂ (f := SlabArtifact.dropIds)
    (g := fun group => group.map PendingDrop.id) (encodeSlabs_groups _ _ _ h) (by
      rintro slab group ⟨o, -, hslab⟩
      obtain ⟨records, -, rfl⟩ := Option.map_eq_some_iff.mp hslab
      rfl)
  rw [List.flatMap_def, hids, ← slabGroups_flatten, List.map_flatten]

/-- A record of a slab that stands for a drop. -/
structure SlabView.Keeps (view : SlabView) (r : DropRecord) (d : PendingDrop) : Prop where
  record : r = d.record r.offsetInWindow
  window : view.window r = some d.compressed

/-- The records of an accepted slab stand for its drops. -/
theorem keeps_of_encodeSlab {H : Hash} {ordinal : Nat} {group : List PendingDrop} {slab : SlabArtifact}
    {view : SlabView} (hord : ordinal < 2 ^ 64) (hlen : ∀ d ∈ group, d.plaintextLen < u32Limit)
    (h : encodeSlab H ordinal group = some slab) (hview : parseSlab slab.bytes = .ok view) :
    List.Forall₂ view.Keeps view.dropRecords group := by
  obtain ⟨records, hrecords, rfl⟩ := Option.map_eq_some_iff.mp h
  have hwindow := window_of_recordsFrom hrecords
  have hplain : ∀ r ∈ records, r.Plain := by
    refine forall_mem_of_forall₂ hwindow hlen ?_
    rintro r d ⟨hr, hfits, -⟩ hd
    refine ⟨?_, ?_, ?_, hfits⟩ <;> rw [hr]
    · exact hd
    · rfl
    · rfl
  have hparsed := parseSlab_plain hord rfl rfl hplain
    (windowLenSum_recordsFrom _ _ _ hrecords) (by
      rw [slabBytes_length, ← flatMap_toBytes_length, ← List.length_append]
      rfl) hview
  subst hparsed
  refine (forall₂_and_mem_left hwindow).imp ?_
  rintro r d ⟨⟨hr, -, hcut⟩, hmem⟩
  have hinside := window_le_of_recordsFrom _ _ _ hrecords r hmem
  rw [Nat.zero_add] at hinside
  exact ⟨hr, by rw [window_slabBytes _ _ hinside, hcut]⟩

/-- An accepted slab has a record for each of its drops. -/
theorem parseSlab_encodeSlab {H : Hash} {ordinal : Nat} {drops : List PendingDrop}
    {slab : SlabArtifact} {view : SlabView} (hord : ordinal < 2 ^ 64)
    (hlen : ∀ d ∈ drops, d.plaintextLen < u32Limit) (h : encodeSlab H ordinal drops = some slab)
    (hview : parseSlab slab.bytes = .ok view) :
    view.dropRecords.map (·.dropId) = slab.dropIds := by
  have hkept := keeps_of_encodeSlab hord hlen h hview
  obtain ⟨records, -, rfl⟩ := Option.map_eq_some_iff.mp h
  exact map_eq_map_of_forall₂ hkept fun r d hr => by rw [hr.record]; rfl

/-- An accepted slab among those packed has a record for each of its drops. -/
theorem parseSlab_packed {H : Hash} {drops : List PendingDrop} {slabs : List SlabArtifact}
    (h : packSlabs H drops = some slabs) (hcount : slabs.length < u32Limit)
    (hlen : ∀ d ∈ drops, d.plaintextLen < u32Limit) {slab : SlabArtifact} (hslab : slab ∈ slabs)
    {view : SlabView} (hview : parseSlab slab.bytes = .ok view) :
    view.dropRecords.map (·.dropId) = slab.dropIds := by
  have hgroups := encodeSlabs_groups _ _ _ h
  have hall : ∀ group ∈ slabGroups drops, ∀ d ∈ group, d.plaintextLen < u32Limit := by
    intro group hgroup d hd
    have hmem : d ∈ (slabGroups drops).flatten := List.mem_flatten.mpr ⟨group, hgroup, hd⟩
    rw [slabGroups_flatten] at hmem
    exact hlen d (List.mem_of_mem_filter hmem)
  have hread : ∀ slab ∈ slabs, ∀ view, parseSlab slab.bytes = .ok view →
      view.dropRecords.map (·.dropId) = slab.dropIds := by
    refine forall_mem_of_forall₂ hgroups hall ?_
    rintro slab group ⟨o, ho, henc⟩ hgroup view hview
    refine parseSlab_encodeSlab ?_ hgroup henc hview
    unfold u32Limit at hcount
    omega
  exact hread slab hslab view hview

end LimniFS
