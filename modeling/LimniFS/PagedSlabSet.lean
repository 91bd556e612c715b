/-
Finding a drop among the slabs of an image read through positioned readers.

The set mirrors the store of `SlabStore`, but the two are indexed, gated and bounded by
code of their own.  Both find the last slab that has the id; there the set takes the first
record that carries it and the store the last one.  The set answers an error where the
window leaves the slab, and the store says that there is no such drop.  The set asks the
gates of every record, and the store does not ask them of a container.

`set_agrees_iff` says when the two answer alike in spite of that.
-/
import LimniFS.PagedSlab
import LimniFS.Lib.ParallelMap
import Mathlib.Data.List.Induction

namespace LimniFS

open Lib

/-! ### The set -/

/-- The ordinals by drop id in the order they are put in; a later one wins. -/
def indexOf (slabs : List (List DropRecord)) : List (Digest × Nat) :=
  slabs.zipIdx.flatMap fun (records, ordinal) => records.map fun r => (r.dropId, ordinal)

structure PagedSlabSet where
  slabs : List PagedSlab
  dropIndex : List (Digest × Nat)
  dictionaries : DictTable

namespace PagedSlabSet

variable (z : Omnizip)

/-- The slab's ordinal, in front of the reason. -/
def withOrdinal (ordinal : Nat) : CoreError → CoreError
  | .corrupt reason => .corrupt (s!"slab ordinal {ordinal}: " ++ reason)
  | other => other

/-- Open one reader after another; the first failure is the result. -/
def openSlabs (openSlab : PositionedReader → Option (Except CoreError PagedSlab)) :
    Nat → List PositionedReader → Option (Except CoreError (List PagedSlab))
  | _, [] => some (.ok [])
  | ordinal, reader :: readers =>
    match openSlab reader with
    | none => none
    | some (.error e) => some (.error (withOrdinal ordinal e))
    | some (.ok slab) =>
      match openSlabs openSlab (ordinal + 1) readers with
      | some (.ok slabs) => some (.ok (slab :: slabs))
      | other => other

/-- `PagedSlabSet::open`; `none` is a panic. -/
def openReaders (readers : List PositionedReader) : Option (Except CoreError PagedSlabSet) :=
  match openSlabs PagedSlab.openReader 0 readers with
  | none => none
  | some (.error e) => some (.error e)
  | some (.ok slabs) =>
    some (.ok ⟨slabs, indexOf (slabs.map PagedSlab.dropRecords), fun _ => none⟩)

def setDictionaries (s : PagedSlabSet) (dictionaries : DictTable) : PagedSlabSet :=
  { s with dictionaries }

/-- The slab a drop is read from. -/
def ordinalOf (index : List (Digest × Nat)) (dropId : Digest) : Option Nat :=
  (index.reverse.find? fun entry => entry.1 = dropId).map Prod.snd

/-- A lookup with the state it leaves; the inner `none` says that no slab has the id. -/
def plaintextFor (s : PagedSlabSet) (dropId : Digest) :
    Option (PagedSlabSet × Option (Except CoreError Bytes)) :=
  match ordinalOf s.dropIndex dropId with
  | none => some (s, none)
  | some ordinal =>
    match s.slabs[ordinal]? with
    | none => some (s, none)
    | some slab =>
      (slab.plaintextForWithDictLookup z dropId s.dictionaries).map fun (slab, out) =>
        ({ s with slabs := s.slabs.set ordinal slab }, out)

/-- A call on a set or, through `slab(ordinal)`, on one of its slabs. -/
inductive Call where
  | plaintextFor (dropId : Digest)
  | onSlab (ordinal : Nat) (call : PagedSlab.Call)

/-- The state a call leaves; `none` is a panic. -/
def Call.apply (s : PagedSlabSet) : Call → Option PagedSlabSet
  | .plaintextFor dropId => (s.plaintextFor z dropId).map Prod.fst
  | .onSlab ordinal call =>
    match s.slabs[ordinal]? with
    | none => some s
    | some slab => (call.apply z slab).map fun slab => { s with slabs := s.slabs.set ordinal slab }

def run (s : PagedSlabSet) (calls : List Call) : Option PagedSlabSet :=
  calls.foldlM (Call.apply z) s

end PagedSlabSet

/-! ### The store of the same slabs -/

namespace SlabStore

def fromBytes (slabs : List Bytes) : Except CoreError SlabStore :=
  (slabs.mapM parseSlab).map fun views => ⟨views, fun _ => none⟩

def setDictionaries (store : SlabStore) (dictionaries : DictTable) : SlabStore :=
  { store with dictionaries }

end SlabStore

/-- The record the store reads: the last one that carries the id. -/
def SlabView.lastRecord (view : SlabView) (dropId : Digest) : Option DropRecord :=
  view.dropRecords.reverse.find? fun r => r.dropId = dropId

/-- **Both find the last slab that has the id**, and the store its last record there. -/
theorem find_cases (views : List SlabView) (dictionaries : DictTable) (dropId : Digest) :
    ((SlabStore.mk views dictionaries).find dropId = none ∧
      PagedSlabSet.ordinalOf (indexOf (views.map (·.dropRecords))) dropId = none) ∨
    ∃ ordinal view record, (SlabStore.mk views dictionaries).find dropId = some (view, record) ∧
      PagedSlabSet.ordinalOf (indexOf (views.map (·.dropRecords))) dropId = some ordinal ∧
      views[ordinal]? = some view ∧ view.lastRecord dropId = some record := by
  unfold SlabStore.find SlabStore.entries PagedSlabSet.ordinalOf indexOf
  simp only
  induction views using List.reverseRecOn with
  | nil => exact Or.inl ⟨rfl, rfl⟩
  | append_singleton views view ih =>
      rw [List.flatMap_append, List.map_append, List.zipIdx_append, List.flatMap_append,
        List.reverse_append, List.reverse_append, List.find?_append, List.find?_append]
      simp only [List.flatMap_cons, List.flatMap_nil, List.append_nil, List.map_cons, List.map_nil,
        List.zipIdx_singleton, List.length_map, Nat.zero_add, ← List.map_reverse, List.find?_map,
        Function.comp_def]
      cases hlast : view.dropRecords.reverse.find? fun r => r.dropId = dropId with
      | some record =>
          refine Or.inr ⟨views.length, view, record, rfl, rfl, ?_, hlast⟩
          rw [List.getElem?_concat_length]
      | none =>
          rw [Option.map_none, Option.none_or, Option.map_none, Option.none_or]
          rcases ih with hnone | ⟨ordinal, view', record, hfind, hordinal, hview, hrecord⟩
          · exact Or.inl hnone
          · refine Or.inr ⟨ordinal, view', record, hfind, hordinal, ?_, hrecord⟩
            rw [List.getElem?_append_left (List.getElem?_eq_some_iff.mp hview).1, hview]

/-! ### Runs of the set -/

namespace PagedSlabSet

/-- What holds of a set between any two calls: one reader for each slab, and their index. -/
structure Serving (views : List SlabView) (s : PagedSlabSet) : Prop where
  slabs : List.Forall₂ (fun view slab => PagedSlab.Serving view.bytes view slab) views s.slabs
  index : s.dropIndex = indexOf (views.map (·.dropRecords))

variable {z : Omnizip} {views : List SlabView} {s : PagedSlabSet}

theorem openSlabs_spec : ∀ {slabs : List Bytes} {views : List SlabView}
    {readers : List PositionedReader} (ordinal : Nat),
    List.Forall₂ (fun slab view => parseSlab slab = .ok view) slabs views →
    List.Forall₂ ReadsFrom slabs readers →
    ∃ paged, openSlabs PagedSlab.openReader ordinal readers = some (.ok paged) ∧
      List.Forall₂ (fun view slab => PagedSlab.Serving view.bytes view slab) views paged := by
  intro slabs views readers ordinal hviews
  induction hviews generalizing readers ordinal with
  | nil =>
      intro hreaders
      cases hreaders
      exact ⟨[], rfl, .nil⟩
  | @cons slab view slabs views hparse hviews ih =>
      intro hreaders
      obtain ⟨reader, readers, hreader, hrest, rfl⟩ := List.forall₂_cons_left_iff.mp hreaders
      obtain ⟨first, hfirst, hserving⟩ : ∃ s, PagedSlab.openReader reader = some (.ok s) ∧
          s.Serving slab view := PagedSlab.openWithCachePages_spec hparse hreader pagedCachePages
      obtain ⟨paged, hpaged, hall⟩ := ih (ordinal + 1) hrest
      have hbytes := (parseSlab_ok hparse).1
      rw [← hbytes] at hserving
      refine ⟨first :: paged, ?_, .cons hserving hall⟩
      simp only [openSlabs, hfirst, hpaged]

theorem openReaders_spec {slabs : List Bytes} {readers : List PositionedReader}
    (hviews : List.Forall₂ (fun slab view => parseSlab slab = .ok view) slabs views)
    (hreaders : List.Forall₂ ReadsFrom slabs readers) (dictionaries : DictTable) :
    ∃ s, openReaders readers = some (.ok s) ∧ (s.setDictionaries dictionaries).Serving views := by
  obtain ⟨paged, hpaged, hall⟩ := openSlabs_spec 0 hviews hreaders
  unfold openReaders
  rw [hpaged]
  refine ⟨_, rfl, hall, ?_⟩
  have hrecords : views.map (·.dropRecords) = paged.map PagedSlab.dropRecords :=
    map_eq_map_of_forall₂ hall fun view slab hserving =>
      (congrArg SlabRecordTable.dropRecords hserving.table).symm
  exact (congrArg indexOf hrecords).symm

/-- **A lookup answers what the last slab that has the id answers in memory.** -/
theorem Serving.plaintextFor (hs : s.Serving views)
    (hviews : ∀ view ∈ views, parseSlab view.bytes = .ok view) (dropId : Digest) :
    ∃ s', s'.Serving views ∧ s'.dictionaries = s.dictionaries ∧
      ((SlabStore.mk views s.dictionaries).find dropId = none ∧
        s.plaintextFor z dropId = some (s', none) ∨
      ∃ view record, (SlabStore.mk views s.dictionaries).find dropId = some (view, record) ∧
        view.lastRecord dropId = some record ∧ s.plaintextFor z dropId
          = some (s', view.plaintextForWithDictLookup z dropId s.dictionaries)) := by
  unfold PagedSlabSet.plaintextFor
  rw [hs.index]
  rcases find_cases views s.dictionaries dropId with
    ⟨hnone, hordinal⟩ | ⟨ordinal, view, record, hfind, hordinal, hview, hrecord⟩
  · rw [hordinal]
    exact ⟨s, hs, rfl, Or.inl ⟨hnone, rfl⟩⟩
  · obtain ⟨slab, hslab, hserving⟩ := getElem?_of_forall₂ hs.slabs hview
    have hparse := hviews view (List.mem_of_getElem? hview)
    obtain ⟨slab', hlookup, hserving'⟩ :=
      hserving.plaintextFor (z := z) hparse dropId s.dictionaries
    rw [hordinal]
    simp only [hslab, hlookup, Option.map_some]
    refine ⟨_, ⟨forall₂_set hs.slabs hview hserving', rfl⟩, ?_,
      Or.inr ⟨view, record, hfind, hrecord, rfl⟩⟩
    rfl

theorem Serving.apply (hs : s.Serving views)
    (hviews : ∀ view ∈ views, parseSlab view.bytes = .ok view) {call : Call} {s' : PagedSlabSet}
    (hcall : call.apply z s = some s') : s'.Serving views ∧ s'.dictionaries = s.dictionaries := by
  cases call with
  | plaintextFor dropId =>
      obtain ⟨s'', hserving, hdicts, hanswer⟩ := hs.plaintextFor (z := z) hviews dropId
      rw [Call.apply] at hcall
      rcases hanswer with ⟨-, hanswer⟩ | ⟨view, record, -, -, hanswer⟩
      · rw [hanswer] at hcall
        cases hcall
        exact ⟨hserving, hdicts⟩
      · rw [hanswer] at hcall
        cases hcall
        exact ⟨hserving, hdicts⟩
  | onSlab ordinal call =>
      rw [Call.apply] at hcall
      cases hslab : s.slabs[ordinal]? with
      | none =>
          rw [hslab] at hcall
          cases hcall
          exact ⟨hs, rfl⟩
      | some slab =>
          rw [hslab] at hcall
          obtain ⟨slab', hslab', rfl⟩ := Option.map_eq_some_iff.mp hcall
          obtain ⟨view, hview, hserving⟩ := getElem?_of_forall₂ hs.slabs.flip hslab
          have hparse := hviews view (List.mem_of_getElem? hview)
          exact ⟨⟨forall₂_set hs.slabs hview (hserving.apply hparse hslab'), hs.index⟩, rfl⟩

theorem Serving.run (hviews : ∀ view ∈ views, parseSlab view.bytes = .ok view) :
    ∀ (calls : List Call) {s s' : PagedSlabSet}, s.Serving views → s.run z calls = some s' →
      s'.Serving views ∧ s'.dictionaries = s.dictionaries := by
  intro calls
  induction calls with
  | nil =>
      intro s s' hs hrun
      cases hrun
      exact ⟨hs, rfl⟩
  | cons call calls ih =>
      intro s s' hs hrun
      rw [PagedSlabSet.run, List.foldlM_cons] at hrun
      obtain ⟨mid, hmid, hrest⟩ := Option.bind_eq_some_iff.mp hrun
      obtain ⟨hserving, hdicts⟩ := hs.apply hviews hmid
      obtain ⟨hserving', hdicts'⟩ := ih hserving hrest
      exact ⟨hserving', hdicts'.trans hdicts⟩

end PagedSlabSet

/-! ### Where the two agree -/

/-- The record's window lies inside its slab and its bytes decode to `p`. -/
def SlabView.Decodes (z : Omnizip) (view : SlabView) (dictLookup : DictTable) (record : DropRecord)
    (p : Bytes) : Prop :=
  ∃ raw, view.window record = some raw ∧ decodeDropBytes z record raw dictLookup = .ok p

/-- In the last slab that has the id, the last record's window lies inside the slab, and the
first record that carries the id is as good as the last one: the first one has to pass the
gates and the last one to pass them or to be a container, and then they decode to the same. -/
def AnsweredAlike (z : Omnizip) (views : List SlabView) (dictionaries : DictTable)
    (dropId : Digest) : Prop :=
  ∀ view last, (SlabStore.mk views dictionaries).find dropId = some (view, last) →
    (view.window last).isSome ∧
    ∀ first, view.findRecord dropId = some first → ∀ p,
      (((last.flags &&& dropFlagSeekable ≠ 0 ∨ checkDropReadable last = .ok ()) ∧
        view.Decodes z dictionaries last p) ↔
      (checkDropReadable first = .ok () ∧ view.Decodes z dictionaries first p))

theorem decodeDrop_eq_ok (z : Omnizip) (record : DropRecord) (raw : Bytes) (dictLookup : DictTable)
    (p : Bytes) : decodeDrop z record raw dictLookup = .ok p ↔
      (record.flags &&& dropFlagSeekable ≠ 0 ∨ checkDropReadable record = .ok ()) ∧
        decodeDropBytes z record raw dictLookup = .ok p := by
  unfold decodeDrop decodeDropBytes checkDropReadable
  by_cases hseek : record.flags &&& dropFlagSeekable ≠ 0
  · rw [if_pos hseek, if_pos hseek]
    exact ⟨fun h => ⟨Or.inl hseek, h⟩, And.right⟩
  · rw [if_neg hseek, if_neg hseek]
    by_cases haead : record.representation.aead ≠ 0
    · rw [if_pos haead, if_pos haead]
      exact ⟨fun h => (by cases h), fun h => absurd (h.1.resolve_left hseek) (by simp)⟩
    · rw [if_neg haead, if_neg haead]
      by_cases hindex : record.solidWindowIndex ≠ 0
      · rw [if_pos hindex, if_pos hindex]
        exact ⟨fun h => (by cases h), fun h => absurd (h.1.resolve_left hseek) (by simp)⟩
      · rw [if_neg hindex, if_neg hindex]
        exact ⟨fun h => ⟨Or.inr rfl, h⟩, And.right⟩

theorem SlabView.answer_eq_ok (z : Omnizip) {view : SlabView} {dropId : Digest} {first : DropRecord}
    (h : view.findRecord dropId = some first) (dictLookup : DictTable) :
    ∃ r, view.plaintextForWithDictLookup z dropId dictLookup = some r ∧
      ∀ p, r = .ok p ↔ checkDropReadable first = .ok () ∧ view.Decodes z dictLookup first p := by
  unfold plaintextForWithDictLookup Decodes SlabView.window
  rw [h]
  simp only
  cases hgates : checkDropReadable first with
  | error e => exact ⟨_, rfl, fun p => ⟨fun h => (by cases h), fun h => (by cases h.1)⟩⟩
  | ok _ =>
      simp only
      by_cases hpast : view.bytes.length < view.solidWindowStart + first.offsetInWindow
          + first.lenInWindow
      · rw [if_pos hpast, if_pos hpast]
        refine ⟨_, rfl, fun p => ⟨fun h => (by cases h), ?_⟩⟩
        rintro ⟨-, raw, hraw, -⟩
        cases hraw
      · rw [if_neg hpast, if_neg hpast]
        refine ⟨_, rfl, fun p => ⟨fun h => ⟨trivial, _, rfl, h⟩, ?_⟩⟩
        rintro ⟨-, raw, hraw, hdecode⟩
        cases hraw
        exact hdecode

/-- What the store answers where it finds a record. -/
theorem SlabStore.answer_eq_ok (z : Omnizip) {store : SlabStore} {dropId : Digest} {view : SlabView}
    {last : DropRecord} (h : store.find dropId = some (view, last)) :
    (view.window last = none ∧ store.plaintextFor z dropId = none) ∨
    (view.window last).isSome ∧ ∃ r, store.plaintextFor z dropId = some r ∧
      ∀ p, r = .ok p ↔ (last.flags &&& dropFlagSeekable ≠ 0 ∨ checkDropReadable last = .ok ()) ∧
        view.Decodes z store.dictionaries last p := by
  unfold plaintextFor locateWindow SlabView.Decodes
  rw [h]
  simp only
  cases hwindow : view.window last with
  | none => exact Or.inl ⟨rfl, rfl⟩
  | some raw =>
      refine Or.inr ⟨rfl, _, rfl, fun p => ?_⟩
      rw [decodeDrop_eq_ok]
      constructor
      · rintro ⟨hgates, hdecode⟩
        exact ⟨hgates, raw, rfl, hdecode⟩
      · rintro ⟨hgates, raw', hraw, hdecode⟩
        cases hraw
        exact ⟨hgates, hdecode⟩

/-- **The set and the store answer alike exactly where the records they choose do.** -/
theorem set_agrees_iff (z : Omnizip) {slabs : List Bytes} {views : List SlabView}
    {readers : List PositionedReader} (hviews : slabs.mapM parseSlab = .ok views)
    (hreaders : List.Forall₂ ReadsFrom slabs readers) (dictionaries : DictTable) :
    ∃ store s, SlabStore.fromBytes slabs = .ok store ∧
      PagedSlabSet.openReaders readers = some (.ok s) ∧
      ∀ calls s', (s.setDictionaries dictionaries).run z calls = some s' →
      ∀ dropId, ∃ s'' out, s'.plaintextFor z dropId = some (s'', out) ∧
        (out.map Except.toOption
            = ((store.setDictionaries dictionaries).plaintextFor z dropId).map Except.toOption ↔
          AnsweredAlike z views dictionaries dropId) := by
  have hparsed := mapM_ok_iff.mp hviews
  obtain ⟨s, hopen, hserving⟩ := PagedSlabSet.openReaders_spec hparsed hreaders dictionaries
  have hbytes : ∀ view ∈ views, parseSlab view.bytes = .ok view := by
    intro view hview
    obtain ⟨slab, -, hparse⟩ := exists_mem_of_forall₂ hparsed view hview
    rw [(parseSlab_ok hparse).1]
    exact hparse
  refine ⟨⟨views, fun _ => none⟩, s, by rw [SlabStore.fromBytes, hviews]; rfl, hopen, ?_⟩
  intro calls s' hrun dropId
  obtain ⟨hserving', hdicts⟩ := hserving.run hbytes calls hrun
  obtain ⟨s'', -, -, hanswer⟩ := hserving'.plaintextFor (z := z) hbytes dropId
  have htable : s'.dictionaries = dictionaries := hdicts
  rw [htable] at hanswer
  have hstore : (SlabStore.mk views fun _ => none).setDictionaries dictionaries
      = ⟨views, dictionaries⟩ := rfl
  rw [hstore]
  unfold AnsweredAlike
  rcases hanswer with ⟨hnone, hlookup⟩ | ⟨view, last, hfind, hlast, hlookup⟩
  · refine ⟨s'', _, hlookup, ?_⟩
    have hmissing : (SlabStore.mk views dictionaries).plaintextFor z dropId = none := by
      rw [SlabStore.plaintextFor, SlabStore.locateWindow, hnone]
      rfl
    rw [hmissing, hnone]
    exact ⟨fun _ view last h => (by cases h), fun _ => rfl⟩
  · obtain ⟨first, hfirst⟩ : ∃ first, view.findRecord dropId = some first := by
      unfold SlabView.lastRecord at hlast
      have hid := List.find?_some hlast
      exact Option.isSome_iff_exists.mp (List.find?_isSome.mpr
        ⟨last, List.mem_reverse.mp (List.mem_of_find?_eq_some hlast), hid⟩)
    refine ⟨s'', _, hlookup, ?_⟩
    obtain ⟨r, hr, hrok⟩ := view.answer_eq_ok z hfirst dictionaries
    rw [hr, hfind]
    rcases SlabStore.answer_eq_ok z hfind with ⟨hwindow, hnone⟩ | ⟨hwindow, r', hr', hrok'⟩
    · rw [hnone]
      refine ⟨fun h => (by cases h), fun h => ?_⟩
      have hinside := (h view last rfl).1
      rw [hwindow] at hinside
      cases hinside
    · rw [hr', Option.map_some, Option.map_some, Option.some_inj, toOption_eq_iff]
      constructor
      · intro h view' last' heq
        cases heq
        refine ⟨hwindow, fun first' hfirst' p => ?_⟩
        rw [hfirst] at hfirst'
        cases hfirst'
        rw [← hrok p, ← hrok' p]
        exact (h p).symm
      · intro h p
        rw [hrok p, hrok' p]
        exact ((h view last rfl).2 first hfirst p).symm

/-- Where the id occurs once: the window lies inside the slab, and no container decodes that the
gates refuse. -/
theorem answeredAlike_of_once (z : Omnizip) {views : List SlabView} (dictionaries : DictTable)
    {dropId : Digest} {view : SlabView} {record : DropRecord}
    (hfind : (SlabStore.mk views dictionaries).find dropId = some (view, record))
    (honce : view.findRecord dropId = some record) :
    AnsweredAlike z views dictionaries dropId ↔ (view.window record).isSome ∧
      (record.flags &&& dropFlagSeekable ≠ 0 → checkDropReadable record ≠ .ok () →
        ∀ p, ¬ view.Decodes z dictionaries record p) := by
  unfold AnsweredAlike
  rw [hfind]
  constructor
  · intro h
    obtain ⟨hwindow, halike⟩ := h view record rfl
    refine ⟨hwindow, fun hseek hgates p hdecodes => ?_⟩
    exact hgates ((halike record honce p).mp ⟨Or.inl hseek, hdecodes⟩).1
  · rintro ⟨hwindow, hcontainer⟩ view' last heq
    cases heq
    refine ⟨hwindow, fun first hfirst p => ?_⟩
    rw [honce] at hfirst
    cases hfirst
    constructor
    · rintro ⟨hseek | hgates, hdecodes⟩
      · exact ⟨Decidable.byContradiction fun hgates => hcontainer hseek hgates p hdecodes, hdecodes⟩
      · exact ⟨hgates, hdecodes⟩
    · rintro ⟨hgates, hdecodes⟩
      exact ⟨Or.inr hgates, hdecodes⟩

namespace Stored

def strayRecord : DropRecord := ⟨digest (ascii "drop"), 3, ⟨0, 0, 0⟩, 0, 1, 3, noDict, 0⟩

def strayHeader : SlabHeader := ⟨⟨0, digest (ascii "slab")⟩, 109, 0, 0⟩

/-- One record whose window ends a byte behind the slab. -/
def straySlab : Bytes := slabBytes strayHeader [strayRecord] [1, 2, 3]

def strayView : SlabView := ⟨straySlab, strayHeader, [strayRecord], 106⟩

def strayReader : PositionedReader := fun offset len => .ok ((straySlab.drop offset).take len)

end Stored

open LimniFS.Stored

theorem parseSlab_straySlab : parseSlab straySlab = .ok strayView :=
  parseSlab_slabBytes ⟨by decide, by decide, by decide, by decide, by decide⟩
    (fun r hr => by
      rw [List.mem_singleton.mp hr]
      exact ⟨by decide, Or.inr rfl, Or.inr rfl, by decide⟩) rfl rfl

/-- **A window that leaves its slab**: an error for the set, and no such drop for the store. -/
theorem stray_window_differs :
    parseSlab straySlab = .ok strayView ∧
      ∃ s s' e, PagedSlabSet.openReaders [strayReader] = some (.ok s) ∧
        s.plaintextFor omnizip strayRecord.dropId = some (s', some (.error e)) ∧
        (SlabStore.mk [strayView] fun _ => none).plaintextFor omnizip
          strayRecord.dropId = none := by
  obtain ⟨s, hopen, hs⟩ := PagedSlabSet.openReaders_spec (.cons parseSlab_straySlab .nil)
    (.cons (fun _ _ => rfl) .nil) (fun _ => none)
  have hserving : s.Serving [strayView] := ⟨hs.slabs, hs.index⟩
  obtain ⟨s', -, -, hanswer⟩ := hserving.plaintextFor (z := omnizip)
    (fun view hview => by rw [List.mem_singleton.mp hview]; exact parseSlab_straySlab)
    strayRecord.dropId
  have hfind : (SlabStore.mk [strayView] s.dictionaries).find strayRecord.dropId
      = some (strayView, strayRecord) := by
    show (SlabStore.mk [strayView] fun _ => none).find _ = _
    decide +kernel
  rcases hanswer with ⟨hnone, -⟩ | ⟨view, record, hsome, -, hlookup⟩
  · rw [hfind] at hnone
    cases hnone
  · rw [hfind] at hsome
    cases hsome
    exact ⟨parseSlab_straySlab, s, s', windowPastSlab 107 110 109, hopen, hlookup, by decide +kernel⟩

theorem set_agrees_iff_stray :
    ∃ store s, SlabStore.fromBytes [straySlab] = .ok store ∧
      PagedSlabSet.openReaders [strayReader] = some (.ok s) ∧
      ∀ calls s', (s.setDictionaries fun _ => none).run omnizip calls = some s' →
      ∀ dropId, ∃ s'' out, s'.plaintextFor omnizip dropId = some (s'', out) ∧
        (out.map Except.toOption
            = ((store.setDictionaries fun _ => none).plaintextFor omnizip dropId).map
              Except.toOption ↔
          AnsweredAlike omnizip [strayView] (fun _ => none) dropId) :=
  set_agrees_iff omnizip (mapM_ok_iff.mpr (.cons parseSlab_straySlab .nil))
    (.cons (fun _ _ => rfl) .nil) fun _ => none

end LimniFS
