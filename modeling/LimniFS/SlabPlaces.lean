/-
Slabs by ordinal and slabs in the order of the index.

The library places the slabs of an index by their ordinals and the store of the CLI and of the
virtual filesystem takes them as they come.  Nothing in the parser of the index makes the two the
same: ordinals may be as high as 64 bits allow, leave gaps, repeat or come in any order.

`SlabIndex.PlacesAgree` says of an index alone when the two are the same: no ordinal is too high, none
is left out, and the files come last in one order.  Opening is total and answers as the other store
does, whatever the files are, exactly for such indexes.
-/
import LimniFS.ReadWindow
import LimniFS.TrailingSections

namespace LimniFS

open Lib Lib.Parser Cursor

/-! ### The two orders -/

/-- The file that the first locator of an entry names. -/
def SlabIndexEntry.fileName (entry : SlabIndexEntry) : Option Bytes :=
  match entry.locators with
  | [] => none
  | locator :: _ => (localSidecarName locator.uri).toOption

namespace SlabIndex

/-- The files in the order of the index, if every first locator names one. -/
def fileNames (index : SlabIndex) : Option (List Bytes) :=
  index.entries.mapM SlabIndexEntry.fileName

/-- The file of an ordinal: the last entry that has the ordinal counts. -/
def fileAt (index : SlabIndex) (ordinal : Nat) : Option Bytes :=
  lastSome (fun entry => if entry.slabId.ordinal = ordinal then entry.fileName else none)
    index.entries

/-- One more than the highest ordinal, whatever it is. -/
def placeCount (index : SlabIndex) : Nat :=
  index.entries.foldl (fun count entry => max count (entry.slabId.ordinal + 1)) 0

/-- The files in the order of their ordinals, if no ordinal is left out. -/
def filesByOrdinal (index : SlabIndex) : Option (List Bytes) :=
  (List.range index.placeCount).mapM index.fileAt

/-- No ordinal is too high for the sum or for the `room` of a table; and if `load_mmap` finds a name
in every entry, no ordinal is left out and the files come last in the order of the index. -/
structure PlacesAgree (room : Nat → Nat) (index : SlabIndex) : Prop where
  fits : ∀ entry ∈ index.entries,
    entry.slabId.ordinal + 1 < 2 ^ 64 ∧ entry.slabId.ordinal < room index.entries.length
  order : ∀ names, index.fileNames = some names →
    ∃ placed, index.filesByOrdinal = some placed ∧ placed.dedup = names.dedup

end SlabIndex

/-- The reader answers for every drop as the store does, whatever it was asked before. -/
def ImageReader.AnswersAs (H : Hash) (z : Omnizip) (reader : ImageReader) (store : SlabStore) : Prop :=
  ∀ calls s, reader.store.run H z calls = some s → ∀ dropId,
    ∃ s', s.plaintextFor z dropId = some (s', store.plaintextFor z dropId)

/-- Opening an image with this index does not panic, its table is no longer than the `room` for the
index, and where the store of the index can be loaded from the same files it answers as that does. -/
structure OpensTotally (H : Hash) (z : Omnizip) (room : Nat → Nat) (index : SlabIndex) : Prop where
  returns : ∀ manifest dir config blob, openParts z manifest dir = .ok (blob, index) →
    (ImageReader.fromParts z manifest dir config).isSome
  bounded : ∀ count, sourceCount index.entries = some count → count ≤ room index.entries.length
  answers : ∀ manifest dir config blob root store, openParts z manifest dir = .ok (blob, index) →
    blob.rootInodeNumber = some root → SlabStore.load dir index = .ok store →
    ∃ reader, ImageReader.fromParts z manifest dir config = some (.ok reader) ∧
      reader.AnswersAs H z store

/-! ### Slabs by name -/

/-- The slab in a file, if it is there and can be parsed. -/
def slabNamed (dir : Directory) (name : Bytes) : Option SlabView :=
  (dir name).bind fun bytes => (parseSlab bytes).toOption

theorem toOption_eq_some {ε α : Type} {x : Except ε α} {a : α} : x.toOption = some a ↔ x = .ok a := by
  cases x <;> simp [Except.toOption]

theorem mapM_bind_eq_some {α β γ : Type} {f : α → Option β} {g : β → Option γ} :
    ∀ {as : List α} {cs : List γ}, as.mapM (fun a => (f a).bind g) = some cs ↔
      ∃ bs, as.mapM f = some bs ∧ bs.mapM g = some cs := by
  intro as
  induction as with
  | nil => simp
  | cons a as ih =>
      intro cs
      simp only [List.mapM_cons, Option.bind_eq_bind, Option.bind_eq_some_iff]
      constructor
      · rintro ⟨c, ⟨b, hb, hc⟩, cs', hcs, h⟩
        obtain ⟨bs, hbs, hcs⟩ := ih.mp hcs
        refine ⟨b :: bs, ⟨b, hb, bs, hbs, rfl⟩, ?_⟩
        simp only [List.mapM_cons, Option.bind_eq_bind, Option.bind_eq_some_iff]
        exact ⟨c, hc, cs', hcs, h⟩
      · rintro ⟨bs', ⟨b, hb, bs, hbs, hcons⟩, hcs⟩
        obtain rfl := Option.some.inj hcons
        simp only [List.mapM_cons, Option.bind_eq_bind, Option.bind_eq_some_iff] at hcs
        obtain ⟨c, hc, cs', hcs, h⟩ := hcs
        exact ⟨c, ⟨b, hb, hc⟩, cs', ih.mpr ⟨bs, hbs, hcs⟩, h⟩

theorem loadSlab_eq_ok {dir : Directory} {ordinal : Nat} {entry : SlabIndexEntry} {view : SlabView} :
    loadSlab dir ordinal entry = .ok view ↔ entry.fileName.bind (slabNamed dir) = some view := by
  unfold loadSlab SlabIndexEntry.fileName slabNamed
  cases entry.locators with
  | nil => simp
  | cons locator rest =>
      dsimp only
      cases hname : localSidecarName locator.uri with
      | error e => simp [Except.toOption]
      | ok name =>
          cases hfile : dir name with
          | none => simp [Except.toOption, hfile]
          | some bytes =>
              have hok : (Except.ok name : Except CoreError Bytes).toOption = some name := rfl
              simp [hok, hfile, toOption_eq_some]

theorem loadSlabs_eq_ok {dir : Directory} : ∀ (entries : List SlabIndexEntry) (ordinal : Nat)
    (views : List SlabView), loadSlabs dir ordinal entries = .ok views ↔
      entries.mapM (fun entry => entry.fileName.bind (slabNamed dir)) = some views := by
  intro entries
  induction entries with
  | nil =>
      intro ordinal views
      simp [loadSlabs]
  | cons entry rest ih =>
      intro ordinal views
      rw [loadSlabs, List.mapM_cons]
      cases hslab : loadSlab dir ordinal entry with
      | error e =>
          cases hfound : entry.fileName.bind (slabNamed dir) with
          | none => simp
          | some view =>
              rw [loadSlab_eq_ok.mpr hfound] at hslab
              cases hslab
      | ok view =>
          rw [loadSlab_eq_ok.mp hslab]
          cases hrest : loadSlabs dir (ordinal + 1) rest with
          | error e =>
              cases hfound : rest.mapM fun entry => entry.fileName.bind (slabNamed dir) with
              | none => simp
              | some views =>
                  rw [(ih _ _).mpr hfound] at hrest
                  cases hrest
          | ok views =>
              rw [(ih _ _).mp hrest]
              simp

/-- **What `load_mmap` loads**: the files of the index in its order. -/
theorem load_eq_ok {dir : Directory} {index : SlabIndex} {store : SlabStore} :
    SlabStore.load dir index = .ok store ↔ ∃ names views, index.fileNames = some names ∧
      names.mapM (slabNamed dir) = some views ∧ store = ⟨views, fun _ => none⟩ := by
  unfold SlabStore.load
  constructor
  · intro h
    split at h
    · cases h
    · next views hviews =>
        cases h
        obtain ⟨names, hnames, hslabs⟩ := mapM_bind_eq_some.mp ((loadSlabs_eq_ok _ _ _).mp hviews)
        exact ⟨names, views, hnames, hslabs, rfl⟩
  · rintro ⟨names, views, hnames, hslabs, rfl⟩
    rw [(loadSlabs_eq_ok _ _ _).mpr (mapM_bind_eq_some.mpr ⟨names, hnames, hslabs⟩)]

/-! ### The table of the library -/

section

variable {dir : Directory} {index : SlabIndex}

theorem foldlM_countSlab : ∀ (entries : List SlabIndexEntry) (count total : Nat),
    entries.foldlM countSlab count = some total ↔
      (∀ entry ∈ entries, entry.slabId.ordinal + 1 < 2 ^ 64) ∧
        total = entries.foldl (fun count entry => max count (entry.slabId.ordinal + 1)) count := by
  intro entries
  induction entries with
  | nil =>
      intro count total
      simp [eq_comm]
  | cons entry rest ih =>
      intro count total
      rw [List.foldlM_cons, List.foldl_cons, List.forall_mem_cons, countSlab]
      by_cases hfits : entry.slabId.ordinal + 1 < 2 ^ 64
      · rw [if_pos hfits]
        simp only [Option.bind_eq_bind, Option.bind_some, hfits, true_and]
        exact ih _ _
      · rw [if_neg hfits]
        simp only [Option.bind_eq_bind, Option.bind_none, reduceCtorEq, hfits, false_and]

theorem sourceCount_eq_some {total : Nat} : sourceCount index.entries = some total ↔
    (∀ entry ∈ index.entries, entry.slabId.ordinal + 1 < 2 ^ 64) ∧ total = index.placeCount :=
  foldlM_countSlab _ _ _

theorem foldl_max_le_iff : ∀ (entries : List SlabIndexEntry) (count bound : Nat),
    entries.foldl (fun count entry => max count (entry.slabId.ordinal + 1)) count ≤ bound ↔
      count ≤ bound ∧ ∀ entry ∈ entries, entry.slabId.ordinal < bound := by
  intro entries
  induction entries with
  | nil => simp
  | cons entry rest ih =>
      intro count bound
      rw [List.foldl_cons, ih, List.forall_mem_cons, Nat.max_le, Nat.succ_le_iff, and_assoc]

theorem SlabIndex.placeCount_le_iff {bound : Nat} : index.placeCount ≤ bound ↔
    ∀ entry ∈ index.entries, entry.slabId.ordinal < bound := by
  rw [SlabIndex.placeCount, foldl_max_le_iff]
  simp

theorem SlabIndex.lt_placeCount : ∀ entry ∈ index.entries, entry.slabId.ordinal < index.placeCount :=
  SlabIndex.placeCount_le_iff.mp (Nat.le_refl _)

/-- **No place is outside the table.** -/
theorem isSome_placeSources : ∀ (entries : List SlabIndexEntry) (sources : List (Option Bytes)),
    (∀ entry ∈ entries, entry.slabId.ordinal < sources.length) →
    (placeSources dir entries sources).isSome := by
  intro entries
  induction entries with
  | nil =>
      intro sources _
      rfl
  | cons entry rest ih =>
      intro sources hlt
      obtain ⟨hfirst, hrest⟩ := List.forall_mem_cons.mp hlt
      rw [placeSources]
      split
      · rfl
      · exact ih sources hrest
      · rw [if_pos hfirst]
        exact ih _ fun e he => by
          rw [List.length_set]
          exact hrest e he

theorem isSome_slabSources (hfits : ∀ entry ∈ index.entries, entry.slabId.ordinal + 1 < 2 ^ 64) :
    (slabSources dir index.entries).isSome := by
  unfold slabSources
  rw [sourceCount_eq_some.mpr ⟨hfits, rfl⟩, Option.bind_some, Option.isSome_map]
  refine isSome_placeSources _ _ fun entry he => ?_
  rw [List.length_replicate]
  exact SlabIndex.lt_placeCount entry he

theorem slabSource_found {entry : SlabIndexEntry} {name bytes : Bytes}
    (hname : entry.fileName = some name) (hfile : dir name = some bytes) :
    slabSource dir entry.locators = .ok (some bytes) := by
  unfold SlabIndexEntry.fileName at hname
  cases hlocators : entry.locators with
  | nil =>
      rw [hlocators] at hname
      cases hname
  | cons locator rest =>
      rw [hlocators] at hname
      rw [slabSource, toOption_eq_some.mp hname]
      simp only [hfile]

/-- Where every entry's first file is there, a place has the file of the last entry for it. -/
theorem placeSources_found : ∀ (entries : List SlabIndexEntry) (sources : List (Option Bytes)),
    (∀ entry ∈ entries, entry.slabId.ordinal < sources.length) →
    (∀ entry ∈ entries, ∃ name bytes, entry.fileName = some name ∧ dir name = some bytes) →
    ∃ placed, placeSources dir entries sources = some (.ok placed) ∧
      placed.length = sources.length ∧ ∀ j, placed.getD j none
        = (lastSome (fun entry => if entry.slabId.ordinal = j then entry.fileName else none)
            entries).elim (sources.getD j none) dir := by
  intro entries
  induction entries with
  | nil =>
      intro sources _ _
      exact ⟨sources, rfl, rfl, fun j => rfl⟩
  | cons entry rest ih =>
      intro sources hlt hfound
      obtain ⟨hfirst, hlt⟩ := List.forall_mem_cons.mp hlt
      obtain ⟨⟨name, bytes, hname, hfile⟩, hfound⟩ := List.forall_mem_cons.mp hfound
      obtain ⟨placed, hplaced, hlen, hget⟩ := ih (sources.set entry.slabId.ordinal (some bytes))
        (fun e he => by rw [List.length_set]; exact hlt e he) hfound
      refine ⟨placed, ?_, by rw [hlen, List.length_set], fun j => ?_⟩
      · rw [placeSources, slabSource_found hname hfile]
        simp only [if_pos hfirst]
        exact hplaced
      · rw [hget, lastSome_cons]
        cases lastSome (fun entry : SlabIndexEntry =>
            if entry.slabId.ordinal = j then entry.fileName else none) rest with
        | some later => rfl
        | none =>
            rw [Option.none_or]
            by_cases hj : entry.slabId.ordinal = j
            · subst hj
              simp [hname, hfile, hfirst]
            · simp [hj]

/-- The bytes at a place: an empty slab where no entry has the ordinal. -/
def SlabIndex.bytesAt (index : SlabIndex) (dir : Directory) (ordinal : Nat) : Bytes :=
  ((index.fileAt ordinal).bind dir).getD []

theorem fileName_of_fileNames {names : List Bytes} (hnames : index.fileNames = some names) :
    ∀ entry ∈ index.entries, ∃ name ∈ names, entry.fileName = some name :=
  exists_mem_of_forall₂ (mapM_some_iff.mp hnames).flip

/-- **What the library places**, where the store of the index can be loaded. -/
theorem slabSources_found {names : List Bytes}
    (hfits : ∀ entry ∈ index.entries, entry.slabId.ordinal + 1 < 2 ^ 64)
    (hnames : index.fileNames = some names) (hthere : ∀ name ∈ names, (dir name).isSome) :
    slabSources dir index.entries
      = some (.ok ((List.range index.placeCount).map (index.bytesAt dir))) := by
  obtain ⟨placed, hplaced, hlen, hget⟩ := @placeSources_found dir index.entries
    (List.replicate index.placeCount none)
    (fun entry he => by
      rw [List.length_replicate]
      exact SlabIndex.lt_placeCount entry he)
    (fun entry he => by
      obtain ⟨name, hmem, hname⟩ := fileName_of_fileNames hnames entry he
      obtain ⟨bytes, hbytes⟩ := Option.isSome_iff_exists.mp (hthere name hmem)
      exact ⟨name, bytes, hname, hbytes⟩)
  rw [List.length_replicate] at hlen
  unfold slabSources
  rw [sourceCount_eq_some.mpr ⟨hfits, rfl⟩, Option.bind_some, hplaced, Option.map_some, Except.map]
  refine congrArg some (congrArg Except.ok (List.ext_getElem (by simp [hlen]) fun j hj _ => ?_))
  have hj : j < placed.length := by simpa using hj
  have hplace : placed[j] = (lastSome (fun entry : SlabIndexEntry =>
      if entry.slabId.ordinal = j then entry.fileName else none) index.entries).elim none dir := by
    have hplace := hget j
    rw [List.getD_eq_getElem?_getD, List.getElem?_eq_getElem hj, Option.getD_some] at hplace
    rw [hplace]
    simp [← hlen, hj]
  rw [List.getElem_map, hplace, List.getElem_map, List.getElem_range, SlabIndex.bytesAt,
    SlabIndex.fileAt]
  cases lastSome (fun entry : SlabIndexEntry =>
    if entry.slabId.ordinal = j then entry.fileName else none) index.entries <;> rfl

end

end LimniFS
