/-
Reading the drops of one slab through a positioned reader.

The record table is read eagerly, the header and then record by record, and never a byte of
the window behind it; a drop's bytes are fetched on demand through the page cache.  Gates and
decoder are those of `SlabReader`.  No block is taken to be too large for the allocator
(`isizeMax`): a read of a slab is no longer than the slab.

Where `parseSlab` accepts the object, the walk over the reader stops at the same record
(`recordTable_spec`), and every lookup answers what the view in memory answers, whatever was
read before (`paged_agrees`).
-/
import LimniFS.PagedReads
import LimniFS.SlabReader

namespace LimniFS

open Lib Lib.Parser Cursor

/-! ### The record table -/

/-- Everything in front of a slab's window. -/
structure SlabRecordTable where
  header : SlabHeader
  dropRecords : List DropRecord
  solidWindowStart : Nat

section

variable {σ : Type}

/-- A reader that may change with every read; `none` is a panic. -/
abbrev StatefulRead (σ : Type) := σ → Nat → Nat → Option (σ × Except CoreError Bytes)

/-- The record walk; the fuel bounds the number of records left. -/
def recordTable (readAt : StatefulRead σ) (header : SlabHeader) :
    Nat → σ → Nat → Nat → List DropRecord → Option (σ × Except CoreError SlabRecordTable)
  | 0, _, _, _, _ => none
  | fuel + 1, s, pos, windowLenSum, records =>
    if header.totalLength < pos then
      some (s, .error (.corrupt
        s!"slab cursor position {pos} past total_length {header.totalLength}"))
    else
      let remaining := header.totalLength - pos
      if remaining = windowLenSum then some (s, .ok ⟨header, records, pos⟩)
      else if remaining < windowLenSum then
        some (s, .error (.corrupt (s!"slab drop records overran solid window: cursor_pos={pos},"
          ++ s!" window_sum={windowLenSum}, total_length={header.totalLength}")))
      else if remaining - windowLenSum < dropRecordLen then
        some (s, .error (.corrupt (s!"slab has {remaining - windowLenSum} trailing bytes that are"
          ++ " neither a full drop record nor accounted for by the solid window")))
      else
        match readAt s pos dropRecordLen with
        | none => none
        | some (s, .error e) => some (s, .error e)
        | some (s, .ok bytes) =>
          if bytes.length ≠ dropRecordLen then
            some (s, .error (.tooShort bytes.length dropRecordLen))
          else
            match parseDropRecord header bytes with
            | (.error e, _) => some (s, .error e)
            | (.ok record, _) =>
              if 2 ^ 64 ≤ windowLenSum + record.lenInWindow then
                some (s, .error (.corrupt
                  s!"slab drop len_in_window sum overflow at record {records.length}"))
              else
                recordTable readAt header fuel s (pos + dropRecordLen)
                  (windowLenSum + record.lenInWindow) (records ++ [record])

def parseSlabRecordTable (readAt : StatefulRead σ) (s : σ) :
    Option (σ × Except CoreError SlabRecordTable) :=
  match readAt s 0 slabHeaderLen with
  | none => none
  | some (s, .error e) => some (s, .error e)
  | some (s, .ok bytes) =>
    if bytes.length ≠ slabHeaderLen then some (s, .error (.tooShort bytes.length slabHeaderLen))
    else
      match parseSlabHeader bytes with
      | (.error e, _) => some (s, .error e)
      | (.ok header, _) =>
        recordTable readAt header (header.totalLength + 1) s slabHeaderLen 0 []

end

/-- A reader used as it is. -/
def PositionedReader.read (reader : PositionedReader) : StatefulRead Unit :=
  fun s offset len => some (s, reader offset len)

/-! ### The slab -/

structure PagedSlab where
  paged : PagedBytes
  table : SlabRecordTable

namespace PagedSlab

variable (z : Omnizip)

def openWithCachePages (reader : PositionedReader) (cachePages : Nat) :
    Option (Except CoreError PagedSlab) :=
  match parseSlabRecordTable (PagedBytes.readAt isizeMax)
      (PagedBytes.withCachePages reader cachePages) with
  | none => none
  | some (_, .error e) => some (.error e)
  | some (paged, .ok table) => some (.ok ⟨paged.setLen table.header.totalLength, table⟩)

/-- `PagedSlab::open`. -/
def openReader (reader : PositionedReader) : Option (Except CoreError PagedSlab) :=
  openWithCachePages reader pagedCachePages

def header (s : PagedSlab) : SlabHeader := s.table.header

def byteLen (s : PagedSlab) : Nat := s.table.header.totalLength

def dropRecords (s : PagedSlab) : List DropRecord := s.table.dropRecords

def solidWindowOffset (s : PagedSlab) : Nat := s.table.solidWindowStart

def findRecord (s : PagedSlab) (dropId : Digest) : Option DropRecord :=
  s.table.dropRecords.find? fun r => r.dropId = dropId

def readAt (s : PagedSlab) (offset len : Nat) : Option (PagedSlab × Except CoreError Bytes) :=
  (s.paged.readAt isizeMax offset len).map fun (paged, out) => ({ s with paged }, out)

/-- A lookup with the state it leaves; the inner `none` says that no record has the id. -/
def plaintextForWithDictLookup (s : PagedSlab) (dropId : Digest) (dictLookup : DictTable) :
    Option (PagedSlab × Option (Except CoreError Bytes)) :=
  match s.findRecord dropId with
  | none => some (s, none)
  | some record =>
    match checkDropReadable record with
    | .error e => some (s, some (.error e))
    | .ok () =>
      let start := s.table.solidWindowStart + record.offsetInWindow
      let stop := start + record.lenInWindow
      if 2 ^ 64 ≤ stop then some (s, none)
      else if s.byteLen < stop then some (s, some (.error (windowPastSlab start stop s.byteLen)))
      else
        match s.readAt start record.lenInWindow with
        | none => none
        | some (s, .error e) => some (s, some (.error e))
        | some (s, .ok raw) =>
          if raw.length ≠ record.lenInWindow then
            some (s, some (.error (.corrupt (s!"drop bytes truncated: {raw.length} of"
              ++ s!" {record.lenInWindow} bytes at slab offset {start}"))))
          else some (s, some (decodeDropBytes z record raw dictLookup))

end PagedSlab

/-! ### The walk over a reader -/

theorem framed_parseSlabHeader : Framed 56 parseSlabHeader :=
  (framed_readN 4).bind fun _ => framed_ensure.bind fun _ => framed_readU16Le.bind fun _ =>
    framed_ensure.bind fun _ => framed_readSlabId.bind fun _ => framed_readU64Le.bind fun _ =>
    framed_ensure.bind fun _ => framed_ensure.bind fun _ => framed_readU8.bind fun _ =>
    framed_ensure.bind fun _ => framed_readU8.bind fun _ => framed_ensure.bind fun _ =>
    framed_pure _

theorem framed_parseDropRecord (header : SlabHeader) : Framed 50 (parseDropRecord header) :=
  (framed_readFixed 32).bind fun _ => framed_readU32Le.bind fun _ => framed_ensure.bind fun _ =>
    (framed_readFixed 3).bind fun _ => framed_ensure.bind fun _ => framed_ensure.bind fun _ =>
    framed_readU8.bind fun _ => framed_readU32Le.bind fun _ => framed_readU32Le.bind fun _ =>
    framed_ensure.bind fun _ => framed_readU8.bind fun _ => framed_readU8.bind fun _ =>
    framed_pure _

theorem parse_front {α : Type} {n : Nat} {p : CoreParser α} (hframed : Framed n p)
    (hexact : Exact n p) {bs rest : Bytes} {x : α} (h : p bs = (.ok x, rest)) :
    n ≤ bs.length ∧ rest = bs.drop n ∧ p (bs.take n) = (.ok x, []) := by
  obtain ⟨used, rfl, -, hreads⟩ := hframed bs x rest h
  have hlen := hexact _ x rest h
  rw [List.length_append] at hlen
  obtain rfl : used.length = n := by omega
  refine ⟨by rw [List.length_append]; omega, List.drop_left.symm, ?_⟩
  rw [List.take_left, ← List.append_nil used]
  exact hreads []

section

variable {σ : Type} {object : Bytes} {I : σ → Prop} {readAt : StatefulRead σ}

/-- Reads inside the object return their range and keep the invariant. -/
def Serves (object : Bytes) (I : σ → Prop) (readAt : StatefulRead σ) : Prop :=
  ∀ s, I s → ∀ offset len, offset + len ≤ object.length →
    ∃ s', readAt s offset len = some (s', .ok (window object offset (offset + len))) ∧ I s'

theorem serves_read {reader : PositionedReader} (h : ReadsFrom object reader) :
    Serves object (fun _ => True) reader.read := by
  intro s _ offset len _
  refine ⟨s, ?_, trivial⟩
  rw [PositionedReader.read, h, window, Nat.add_sub_cancel_left]

theorem serves_readAt (hshort : object.length ≤ defaultSlabMaxBytes) :
    Serves object (PagedBytes.Sound object) (PagedBytes.readAt isizeMax) := by
  intro p h offset len hinside
  unfold defaultSlabMaxBytes at hshort
  have hfit : offset + len < 2 ^ 64 := by omega
  have hreserves : p.Reserves isizeMax offset len := by
    have hle := p.clamp_le (offset + len)
    unfold PagedBytes.Reserves PagedBytes.VectorsFit Allocates PagedBytes.pageCount
      pagedPageSize pageSlotBytes isizeMax
    omega
  rcases PagedBytes.readAt_spec h isizeMax hfit with ⟨-, hover | hnone⟩ | ⟨-, hread⟩
  · unfold pagedPageSize at hover
    omega
  · exact absurd hreserves hnone
  · exact hread

/-- **The walk over a reader finds the records the walk over the bytes finds.** -/
theorem recordTable_spec (hserves : Serves object I readAt) {header : SlabHeader}
    (htotal : header.totalLength = object.length) (hshort : object.length ≤ defaultSlabMaxBytes) :
    ∀ (fuel more : Nat) (s : σ) (pos sum : Nat) (done records : List DropRecord) (behind : Bytes),
    I s → pos ≤ object.length → fuel < more →
    slabRecords header fuel (object.drop pos) sum done = .ok (records, behind) →
    ∃ s', recordTable readAt header more s pos sum done
        = some (s', .ok ⟨header, records, object.length - behind.length⟩) ∧ I s' := by
  intro fuel
  induction fuel with
  | zero =>
      intro more s pos sum done records behind hI hpos hmore h
      obtain ⟨more, rfl⟩ : ∃ k, more = k + 1 := ⟨more - 1, by omega⟩
      unfold slabRecords at h
      split at h
      · next hlen =>
          cases h
          rw [List.length_drop] at hlen
          refine ⟨s, ?_, hI⟩
          unfold recordTable
          simp only
          rw [if_neg (by omega), if_pos (by omega), List.length_drop,
            show object.length - (object.length - pos) = pos by omega]
      · cases h
  | succ fuel ih =>
      intro more s pos sum done records behind hI hpos hmore h
      obtain ⟨more, rfl⟩ : ∃ k, more = k + 1 := ⟨more - 1, by omega⟩
      unfold slabRecords at h
      simp only [List.length_drop] at h
      unfold recordTable
      simp only
      rw [if_neg (by omega), htotal]
      split at h
      · next hlen =>
          cases h
          rw [if_pos hlen, List.length_drop, show object.length - (object.length - pos) = pos by omega]
          exact ⟨s, rfl, hI⟩
      · next hlen =>
          rw [if_neg hlen]
          split at h
          · cases h
          · next hover =>
              rw [if_neg hover]
              split at h
              · cases h
              · next htrail =>
                  rw [if_neg htrail]
                  split at h
                  · cases h
                  · next record rest hrecord =>
                      obtain ⟨hroom, hrest, hfront⟩ :=
                        parse_front (framed_parseDropRecord header) (exact_parseDropRecord header) hrecord
                      rw [List.length_drop] at hroom
                      unfold dropRecordLen
                      obtain ⟨s', hread, hI'⟩ := hserves s hI pos 50 (by omega)
                      have hbytes : window object pos (pos + 50) = (object.drop pos).take 50 := by
                        rw [window, Nat.add_sub_cancel_left]
                      have hwindow := (parseDropRecord_valid hrecord).window
                      unfold u32Limit at hwindow
                      unfold defaultSlabMaxBytes at hshort
                      rw [hread]
                      simp only
                      rw [hbytes, if_neg (by rw [List.length_take, List.length_drop]; omega), hfront]
                      simp only
                      rw [if_neg (by omega)]
                      rw [hrest, List.drop_drop] at h
                      exact ih more s' (pos + 50) _ _ records behind hI' (by omega) (by omega) h

/-- **What is accepted in memory has the same table over any reader.** -/
theorem parseSlabRecordTable_spec (hserves : Serves object I readAt) {view : SlabView}
    (h : parseSlab object = .ok view) {s : σ} (hI : I s) :
    ∃ s', parseSlabRecordTable readAt s
        = some (s', .ok ⟨view.header, view.dropRecords, view.solidWindowStart⟩) ∧ I s' := by
  obtain ⟨-, -, -, -, hshort⟩ := parseSlab_ok h
  unfold parseSlab at h
  split at h
  · cases h
  · next header rest hheader =>
      obtain ⟨hroom, hrest, hfront⟩ := parse_front framed_parseSlabHeader exact_parseSlabHeader hheader
      split at h
      · cases h
      · next htotal =>
          have htotal := Decidable.not_not.mp htotal
          split at h
          · cases h
          · next records behind hrecords =>
              cases h
              obtain ⟨s', hread, hI'⟩ := hserves s hI 0 56 (by omega)
              have hbytes : window object 0 (0 + 56) = object.take 56 := rfl
              rw [hrest, List.length_drop] at hrecords
              obtain ⟨s'', htable, hI''⟩ := recordTable_spec hserves htotal hshort _
                (header.totalLength + 1) s' 56 0 [] records behind hI' hroom (by omega) hrecords
              unfold parseSlabRecordTable slabHeaderLen
              rw [hread]
              simp only
              rw [hbytes, if_neg (by rw [List.length_take]; omega), hfront]
              exact ⟨s'', htable, hI''⟩

end

/-! ### Lookups -/

namespace PagedSlab

/-- A call on a slab. -/
inductive Call where
  | readAt (offset len : Nat)
  | plaintextFor (dropId : Digest) (dictLookup : DictTable)

variable (z : Omnizip)

/-- The state a call leaves; `none` is a panic. -/
def Call.apply (s : PagedSlab) : Call → Option PagedSlab
  | .readAt offset len => (s.readAt offset len).map Prod.fst
  | .plaintextFor dropId dictLookup =>
    (s.plaintextForWithDictLookup z dropId dictLookup).map Prod.fst

def run (s : PagedSlab) (calls : List Call) : Option PagedSlab :=
  calls.foldlM (Call.apply z) s

/-- What holds of a reader of a slab between any two calls. -/
structure Serving (slab : Bytes) (view : SlabView) (s : PagedSlab) : Prop where
  paged : PagedBytes.Sound slab s.paged
  table : s.table = ⟨view.header, view.dropRecords, view.solidWindowStart⟩

variable {slab : Bytes} {view : SlabView} {s : PagedSlab}

theorem openWithCachePages_spec (h : parseSlab slab = .ok view) {reader : PositionedReader}
    (hreader : ReadsFrom slab reader) (cachePages : Nat) :
    ∃ s, openWithCachePages reader cachePages = some (.ok s) ∧ s.Serving slab view := by
  obtain ⟨-, -, -, -, hshort⟩ := parseSlab_ok h
  obtain ⟨paged, htable, hsound⟩ := parseSlabRecordTable_spec (serves_readAt hshort) h
    (PagedBytes.sound_withCachePages hreader cachePages)
  unfold openWithCachePages
  rw [htable]
  refine ⟨_, rfl, ?_, rfl⟩
  simp only [parseSlab_total h]
  exact hsound.setLen

variable {z}

/-- **A lookup answers what the view in memory answers.** -/
theorem Serving.plaintextFor (hs : s.Serving slab view) (h : parseSlab slab = .ok view)
    (dropId : Digest) (dictLookup : DictTable) :
    ∃ s', s.plaintextForWithDictLookup z dropId dictLookup
        = some (s', view.plaintextForWithDictLookup z dropId dictLookup) ∧ s'.Serving slab view := by
  obtain ⟨hbytes, hvalid, hstart, hlen, hshort⟩ := parseSlab_ok h
  have htotal := parseSlab_total h
  obtain ⟨paged, table⟩ := s
  obtain ⟨hsound, rfl⟩ := hs
  have hserving : ∀ {paged}, PagedBytes.Sound slab paged →
      Serving slab view ⟨paged, view.header, view.dropRecords, view.solidWindowStart⟩ :=
    fun hsound => ⟨hsound, rfl⟩
  unfold plaintextForWithDictLookup SlabView.plaintextForWithDictLookup findRecord
    SlabView.findRecord byteLen
  simp only
  cases hfind : view.dropRecords.find? fun r => r.dropId = dropId with
  | none => exact ⟨_, rfl, hserving hsound⟩
  | some record =>
      simp only
      cases checkDropReadable record with
      | error e => exact ⟨_, rfl, hserving hsound⟩
      | ok _ =>
          simp only
          have hwindow := (hvalid record (List.mem_of_find?_eq_some hfind)).window
          unfold u32Limit at hwindow
          unfold defaultSlabMaxBytes at hshort
          rw [if_neg (by omega), hbytes, htotal]
          by_cases hpast : slab.length < view.solidWindowStart + record.offsetInWindow
              + record.lenInWindow
          · rw [if_pos hpast, if_pos hpast]
            exact ⟨_, rfl, hserving hsound⟩
          · rw [if_neg hpast, if_neg hpast]
            obtain ⟨paged', hread, hsound'⟩ := serves_readAt hshort paged hsound
              (view.solidWindowStart + record.offsetInWindow) record.lenInWindow (by omega)
            unfold readAt
            simp only
            rw [hread, Option.map_some, window, Nat.add_sub_cancel_left]
            simp only
            rw [if_neg (by rw [List.length_take, List.length_drop]; omega)]
            exact ⟨_, rfl, hserving hsound'⟩

theorem Serving.apply (hs : s.Serving slab view) (h : parseSlab slab = .ok view) {call : Call}
    {s' : PagedSlab} (hcall : call.apply z s = some s') : s'.Serving slab view := by
  cases call with
  | readAt offset len =>
      obtain ⟨⟨s'', out⟩, hread, rfl⟩ := Option.map_eq_some_iff.mp hcall
      obtain ⟨⟨paged, out⟩, hpaged, heq⟩ := Option.map_eq_some_iff.mp hread
      cases heq
      have hop : PagedBytes.Op.apply isizeMax slab s.paged (.readAt offset len) = some paged := by
        rw [PagedBytes.Op.apply, hpaged]
        rfl
      exact ⟨PagedBytes.Op.apply_sound hs.paged hop, hs.table⟩
  | plaintextFor dropId dictLookup =>
      obtain ⟨s'', hlookup, hs''⟩ := hs.plaintextFor (z := z) h dropId dictLookup
      rw [Call.apply, hlookup] at hcall
      cases hcall
      exact hs''

theorem Serving.run : ∀ (calls : List Call) {s s' : PagedSlab}, s.Serving slab view →
    parseSlab slab = .ok view → s.run z calls = some s' → s'.Serving slab view := by
  intro calls
  induction calls with
  | nil =>
      intro s s' hs _ hrun
      cases hrun
      exact hs
  | cons call calls ih =>
      intro s s' hs h hrun
      rw [PagedSlab.run, List.foldlM_cons] at hrun
      obtain ⟨mid, hmid, hrest⟩ := Option.bind_eq_some_iff.mp hrun
      exact ih (hs.apply h hmid) h hrest

end PagedSlab

/-- **A slab read through a positioned reader is the slab in memory**, and whatever has no
record table over a reader is no slab in memory. -/
theorem paged_agrees (z : Omnizip) :
    (∀ (slab : Bytes) (view : SlabView), parseSlab slab = .ok view →
      ∀ (reader : PositionedReader), ReadsFrom slab reader → ∀ cachePages : Nat,
      ∃ s, PagedSlab.openWithCachePages reader cachePages = some (.ok s) ∧
        s.header = view.header ∧ s.dropRecords = view.dropRecords ∧
        s.solidWindowOffset = view.solidWindowStart ∧
        ∀ calls s', s.run z calls = some s' → ∀ dropId dictLookup, ∃ s'',
          s'.plaintextForWithDictLookup z dropId dictLookup
            = some (s'', view.plaintextForWithDictLookup z dropId dictLookup)) ∧
    (∀ (object : Bytes) (reader : PositionedReader), ReadsFrom object reader →
      ∀ e, parseSlabRecordTable reader.read () = some ((), .error e) →
      ∃ e', parseSlab object = .error e') := by
  refine ⟨?_, ?_⟩
  · intro slab view h reader hreader cachePages
    obtain ⟨s, hopen, hs⟩ := PagedSlab.openWithCachePages_spec h hreader cachePages
    refine ⟨s, hopen, congrArg SlabRecordTable.header hs.table,
      congrArg SlabRecordTable.dropRecords hs.table,
      congrArg SlabRecordTable.solidWindowStart hs.table, ?_⟩
    intro calls s' hrun dropId dictLookup
    obtain ⟨s'', hlookup, -⟩ := (hs.run calls h hrun).plaintextFor (z := z) h dropId dictLookup
    exact ⟨s'', hlookup⟩
  · intro object reader hreader e herror
    cases h : parseSlab object with
    | error e' => exact ⟨e', rfl⟩
    | ok view =>
        obtain ⟨s, htable, -⟩ := parseSlabRecordTable_spec (serves_read hreader) h (s := ()) trivial
        rw [htable] at herror
        cases herror

end LimniFS
