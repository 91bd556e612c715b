/-
Windows of a file.

`read_window_into` fills a buffer from the drops under a window and touches no other.
It asks a drop for the bytes at the window's place in the slice, counted from the
beginning of the drop; `file_plaintext` counts from the slice's own start in it.  So a
window shows the file exactly when the first bytes of the drops make up the file
(`read_window_iff`).

The one direction is an induction over the slices, with what is filled so far as the
invariant.  For the other, windows of one byte are enough: they determine the bytes of
each drop that its slice shows.
-/
import LimniFS.LiveTree
import LimniFS.ParsedMetadata

namespace LimniFS

open Lib Lib.Parser

/-! ### Reading a window -/

/-- What `SlabSource::decoded_range_into` puts into a buffer of length `len`, by default. -/
def decodedRangeInto (store : SlabSource) (dropId : Digest) (off len : Nat) :
    Option (Except CoreError Bytes) :=
  if len = 0 then some (.ok [])
  else
    match store dropId with
    | none => none
    | some (.error e) => some (.error e)
    | some (.ok full) =>
      if full.length ≤ off then some (.ok [])
      else some (.ok ((full.drop off).take (min (full.length - off) len)))

/-- The loop over the slices; nothing if a range of the buffer does not exist. -/
def fillWindow (store : SlabSource) (offset n windowEnd : Nat) :
    List SliceRef → Bytes → Option (Except CoreError Bytes)
  | [], filled => some (.ok filled)
  | slice :: rest, filled =>
    if slice.fileByteEnd ≤ offset ∨ windowEnd ≤ slice.fileByteStart then
      fillWindow store offset n windowEnd rest filled
    else
      let fromAbs := max offset slice.fileByteStart
      let want := min windowEnd slice.fileByteEnd - fromAbs
      if want = 0 then fillWindow store offset n windowEnd rest filled
      else if n < filled.length + want then none
      else
        match decodedRangeInto store slice.dropId (fromAbs - slice.fileByteStart) want with
        | none => some (.error (.corrupt "slice references a drop missing from every slab"))
        | some (.error e) => some (.error e)
        | some (.ok got) =>
          if (filled ++ got).length = n ∨ windowEnd ≤ slice.fileByteEnd then
            some (.ok (filled ++ got))
          else fillWindow store offset n windowEnd rest (filled ++ got)

/-- `offset.saturating_add(n)`. -/
def windowEnd (offset n : Nat) : Nat := min (offset + n) (2 ^ 64 - 1)

/-- What is read into a buffer of length `n`. -/
def readWindowInto (inode : Inode) (store : Option SlabSource) (offset n : Nat) :
    Option (Except CoreError Bytes) :=
  if n = 0 then some (.ok [])
  else
    match inode.contentHandle with
    | .inlineData data =>
      if data.length ≤ offset then some (.ok [])
      else some (.ok ((data.drop offset).take (min (offset + n) data.length - offset)))
    | .sliceMap map =>
      match store with
      | none =>
        some (.error (.corrupt "read_window_into: slice-backed file but no slab store provided"))
      | some store => fillWindow store offset n (windowEnd offset n) map.slices []
    | _ => some (.ok [])

/-! ### What stands under a slice -/

/-- How many bytes of the file the slice covers. -/
def SliceRef.span (slice : SliceRef) : Nat := slice.fileByteEnd - slice.fileByteStart

/-- The bytes of the slice's drop, if it can be read. -/
def plainOf (store : SlabSource) (slice : SliceRef) : Bytes :=
  match store slice.dropId with
  | some (.ok plaintext) => plaintext
  | _ => []

/-- The first bytes of the drop, as many as the slice covers. -/
def headOf (store : SlabSource) (slice : SliceRef) : Bytes := (plainOf store slice).take slice.span

/-- The first bytes of the drops make up the file, and no drop is shorter than its slice
unless nothing follows it. -/
structure HeadsMakeFile (store : SlabSource) (slices : List SliceRef) : Prop where
  file : (slices.map (headOf store)).flatten =
    (slices.map fun s => s.window (plainOf store s)).flatten
  full : slices.Pairwise fun s t => s.span ≤ (plainOf store s).length ∨ headOf store t = []

/-- `HeadsMakeFile` of a file in slices; nothing is asked of inline bytes. -/
def Inode.HeadsMakeFile (store : SlabSource) (inode : Inode) : Prop :=
  match inode.contentHandle with
  | .sliceMap map => LimniFS.HeadsMakeFile store map.slices
  | _ => True

/-- Every drop the slices name can be read. -/
def Readable (store : SlabSource) (slices : List SliceRef) : Prop :=
  ∀ s ∈ slices, store s.dropId = some (.ok (plainOf store s))

section
variable {store : SlabSource}

theorem decodedRangeInto_readable {slice : SliceRef}
    (h : store slice.dropId = some (.ok (plainOf store slice))) {off len : Nat} (hlen : len ≠ 0) :
    decodedRangeInto store slice.dropId off len =
      some (.ok (((plainOf store slice).drop off).take len)) := by
  rw [decodedRangeInto, if_neg hlen, h]
  by_cases hoff : (plainOf store slice).length ≤ off
  · simp [hoff]
  · simp only [if_neg hoff, List.take_eq_take_iff, List.length_drop, Option.some.injEq,
      Except.ok.injEq]
    omega

theorem plainOf_eq {slice : SliceRef} {plaintext : Bytes}
    (h : store slice.dropId = some (.ok plaintext)) : plainOf store slice = plaintext := by
  rw [plainOf, h]

theorem filePlaintext_slices {slices : List SliceRef} {p : Bytes}
    (h : concatChunks (slices.map (decodeSlice store)) = .ok p) :
    Readable store slices ∧ p = (slices.map fun s => s.window (plainOf store s)).flatten := by
  induction slices generalizing p with
  | nil =>
      cases h
      exact ⟨fun _ hs => absurd hs List.not_mem_nil, rfl⟩
  | cons slice rest ih =>
      rw [List.map_cons] at h
      cases hslice : decodeSlice store slice with
      | error e =>
          rw [hslice] at h
          cases h
      | ok chunk =>
          rw [hslice] at h
          obtain ⟨plaintext, hread, rfl⟩ := decodeSlice_ok hslice
          have hplain := plainOf_eq hread
          unfold concatChunks at h
          split at h
          · cases h
          · next tail htail =>
              cases h
              obtain ⟨hrest, rfl⟩ := ih htail
              refine ⟨List.forall_mem_cons.mpr ⟨by rw [hread, hplain], hrest⟩, ?_⟩
              rw [List.map_cons, List.flatten_cons, hplain]

theorem sliceMapGap_cons {index start : Nat} {slice : SliceRef} {rest : List SliceRef}
    (h : sliceMapGap index start (slice :: rest) = none) :
    slice.fileByteStart = start ∧ sliceMapGap (index + 1) slice.fileByteEnd rest = none := by
  unfold sliceMapGap at h
  by_cases hstart : slice.fileByteStart = start
  · rw [if_neg (not_not_intro hstart)] at h
    exact ⟨hstart, h⟩
  · rw [if_pos hstart] at h
    cases h

theorem sliceMapGap_le : ∀ {slices : List SliceRef} {index start : Nat},
    sliceMapGap index start slices = none → ∀ slice ∈ slices, start ≤ slice.fileByteStart := by
  intro slices
  induction slices with
  | nil =>
      intro _ _ _ slice hslice
      cases hslice
  | cons first rest ih =>
      intro index start hgap slice hslice
      obtain ⟨rfl, hnext⟩ := sliceMapGap_cons hgap
      rcases List.mem_cons.mp hslice with rfl | hslice
      · exact Nat.le_refl _
      · exact Nat.le_trans (Nat.le_of_lt first.start_lt_end) (ih hnext slice hslice)

/-! ### Filling a window -/

/-- What a slice puts into the window that starts at `offset`. -/
def windowOf (store : SlabSource) (offset windowEnd : Nat) (slice : SliceRef) : Bytes :=
  ((headOf store slice).drop (offset - slice.fileByteStart)).take
    (windowEnd - max offset slice.fileByteStart)

theorem windowOf_eq (offset windowEnd : Nat) (slice : SliceRef) :
    windowOf store offset windowEnd slice =
      ((plainOf store slice).drop (max offset slice.fileByteStart - slice.fileByteStart)).take
        (min windowEnd slice.fileByteEnd - max offset slice.fileByteStart) := by
  have hlt := slice.start_lt_end
  have hfrom : max offset slice.fileByteStart - slice.fileByteStart = offset - slice.fileByteStart := by
    omega
  rw [windowOf, headOf, SliceRef.span, List.drop_take, List.take_take, hfrom]
  congr 1
  omega

theorem windowOf_length (offset windowEnd : Nat) (slice : SliceRef) :
    (windowOf store offset windowEnd slice).length ≤
      min windowEnd slice.fileByteEnd - max offset slice.fileByteStart := by
  rw [windowOf_eq, List.length_take]
  exact Nat.min_le_left _ _

/-- One slice: its bytes are put behind what is there, and the loop goes on or the window is
full. -/
theorem fillWindow_cons {offset n windowEnd : Nat} {slice : SliceRef} {filled : Bytes}
    (hread : store slice.dropId = some (.ok (plainOf store slice)))
    (hn : windowEnd - offset ≤ n) (hfilled : filled.length ≤ slice.fileByteStart - offset)
    (rest : List SliceRef) :
    fillWindow store offset n windowEnd (slice :: rest) filled =
        fillWindow store offset n windowEnd rest (filled ++ windowOf store offset windowEnd slice) ∨
      windowEnd ≤ slice.fileByteEnd ∧
        fillWindow store offset n windowEnd (slice :: rest) filled =
          some (.ok (filled ++ windowOf store offset windowEnd slice)) := by
  have hlt := slice.start_lt_end
  have hlen : (windowOf store offset windowEnd slice).length ≤ _ :=
    windowOf_length offset windowEnd slice
  rw [fillWindow.eq_2]
  by_cases hskip : slice.fileByteEnd ≤ offset ∨ windowEnd ≤ slice.fileByteStart
  · rw [if_pos hskip]
    have hnil : windowOf store offset windowEnd slice = [] :=
      List.length_eq_zero_iff.mp (by omega)
    rw [hnil, List.append_nil]
    exact Or.inl rfl
  · rw [if_neg hskip]
    by_cases hwant : min windowEnd slice.fileByteEnd - max offset slice.fileByteStart = 0
    · rw [if_pos hwant]
      have hnil : windowOf store offset windowEnd slice = [] :=
        List.length_eq_zero_iff.mp (by omega)
      rw [hnil, List.append_nil]
      exact Or.inl rfl
    · rw [if_neg hwant, if_neg (by omega), decodedRangeInto_readable hread hwant, ← windowOf_eq]
      simp only
      by_cases hstop : (filled ++ windowOf store offset windowEnd slice).length = n ∨
          windowEnd ≤ slice.fileByteEnd
      · rw [if_pos hstop]
        rw [List.length_append] at hstop
        exact Or.inr ⟨by omega, rfl⟩
      · rw [if_neg hstop]
        exact Or.inl rfl

/-- **The window holds the first bytes of the drops**, put one after another. -/
theorem fillWindow_eq {offset n windowEnd : Nat} (hn : windowEnd - offset ≤ n) :
    ∀ (slices : List SliceRef) (index start : Nat) (filled : Bytes),
      sliceMapGap index start slices = none → Readable store slices →
      (slices.Pairwise fun s t => s.span ≤ (plainOf store s).length ∨ headOf store t = []) →
      filled.length ≤ start - offset →
      fillWindow store offset n windowEnd slices filled =
        some (.ok (filled ++ (((slices.map (headOf store)).flatten.drop (offset - start)).take
          (windowEnd - max offset start)))) := by
  intro slices
  induction slices with
  | nil =>
      intro index start filled _ _ _ _
      simp [fillWindow]
  | cons slice rest ih =>
      intro index start filled hgap hread hfull hfilled
      obtain ⟨rfl, hnext⟩ := sliceMapGap_cons hgap
      obtain ⟨hslice, hrest⟩ := List.forall_mem_cons.mp hread
      obtain ⟨hhead, hfull⟩ := List.pairwise_cons.mp hfull
      have hlt := slice.start_lt_end
      have hlen : (windowOf store offset windowEnd slice).length ≤ _ :=
        windowOf_length offset windowEnd slice
      -- What follows a drop that is too short is empty, so the rest starts where the slice ends.
      have hsplit : (((slice :: rest).map (headOf store)).flatten.drop
            (offset - slice.fileByteStart)).take (windowEnd - max offset slice.fileByteStart) =
          windowOf store offset windowEnd slice ++
            ((rest.map (headOf store)).flatten.drop (offset - slice.fileByteEnd)).take
              (windowEnd - max offset slice.fileByteEnd) := by
        rw [List.map_cons, List.flatten_cons, List.drop_append, List.take_append, windowOf]
        by_cases hspan : slice.span ≤ (plainOf store slice).length
        · have hheadLen : (headOf store slice).length = slice.span := by
            rw [headOf, List.length_take, Nat.min_eq_left hspan]
          rw [List.length_drop, hheadLen, SliceRef.span]
          congr 2
          · omega
          · congr 1
            omega
        · have hempty : (rest.map (headOf store)).flatten = [] := by
            refine List.flatten_eq_nil_iff.mpr fun l hl => ?_
            obtain ⟨t, ht, rfl⟩ := List.mem_map.mp hl
            exact (hhead t ht).resolve_left hspan
          simp [hempty]
      rw [hsplit]
      rcases fillWindow_cons hslice hn hfilled rest with hgo | ⟨hend, hstop⟩
      · rw [hgo, ih (index + 1) slice.fileByteEnd _ hnext hrest hfull ?_, List.append_assoc]
        rw [List.length_append]
        omega
      · rw [hstop, Nat.sub_eq_zero_of_le (Nat.le_trans hend (Nat.le_max_right _ _)), List.take_zero,
          List.append_nil]

/-! ### Windows of one byte -/

/-- The byte a window of one byte shows. -/
def byteAt (store : SlabSource) : List SliceRef → Nat → Option UInt8
  | [], _ => none
  | s :: rest, o => if o < s.span then (plainOf store s)[o]? else byteAt store rest (o - s.span)

theorem fillWindow_byte {offset : Nat} : ∀ (slices : List SliceRef) (index start : Nat),
    sliceMapGap index start slices = none → Readable store slices → start ≤ offset →
    fillWindow store offset 1 (offset + 1) slices [] =
      some (.ok (byteAt store slices (offset - start)).toList) := by
  intro slices
  induction slices with
  | nil =>
      intro index start _ _ _
      rfl
  | cons slice rest ih =>
      intro index start hgap hread hstart
      obtain ⟨rfl, hnext⟩ := sliceMapGap_cons hgap
      obtain ⟨hslice, hrest⟩ := List.forall_mem_cons.mp hread
      have hlt := slice.start_lt_end
      rw [fillWindow.eq_2]
      by_cases hend : slice.fileByteEnd ≤ offset
      · rw [if_pos (Or.inl hend), ih (index + 1) _ hnext hrest hend, byteAt, SliceRef.span,
          if_neg (by omega)]
        have hoff : offset - slice.fileByteStart - (slice.fileByteEnd - slice.fileByteStart) =
            offset - slice.fileByteEnd := by omega
        rw [hoff]
      · have hwant : min (offset + 1) slice.fileByteEnd - max offset slice.fileByteStart = 1 := by
          omega
        have hbyte : byteAt store (slice :: rest) (offset - slice.fileByteStart) =
            (plainOf store slice)[offset - slice.fileByteStart]? := by
          rw [byteAt, SliceRef.span, if_pos (by omega)]
        rw [if_neg (by omega), hbyte]
        simp only [hwant]
        rw [if_neg Nat.one_ne_zero, if_neg (by simp),
          decodedRangeInto_readable hslice Nat.one_ne_zero, Nat.max_eq_left hstart]
        simp only [List.nil_append]
        rw [if_pos (Or.inr (by omega)), List.take_one, List.head?_drop]

theorem heads_of_byteAt : ∀ (slices : List SliceRef) (p : Bytes),
    (∀ o, p[o]? = byteAt store slices o) →
      (slices.map (headOf store)).flatten = p ∧
        slices.Pairwise fun s t => s.span ≤ (plainOf store s).length ∨ headOf store t = [] := by
  intro slices
  induction slices with
  | nil =>
      intro p h
      refine ⟨?_, List.Pairwise.nil⟩
      have hlen : p.length ≤ 0 := List.getElem?_eq_none_iff.mp (h 0)
      exact (List.eq_nil_of_length_eq_zero (Nat.le_zero.mp hlen)).symm
  | cons slice rest ih =>
      intro p h
      have hhead : p.take slice.span = headOf store slice := by
        refine List.ext_getElem? fun o => ?_
        rw [headOf, List.getElem?_take, List.getElem?_take]
        by_cases ho : o < slice.span
        · rw [if_pos ho, if_pos ho, h o, byteAt, if_pos ho]
        · rw [if_neg ho, if_neg ho]
      have hrest : ∀ o, (p.drop slice.span)[o]? = byteAt store rest o := by
        intro o
        rw [List.getElem?_drop, h, byteAt, if_neg (by omega), Nat.add_sub_cancel_left]
      obtain ⟨hflat, hfull⟩ := ih _ hrest
      refine ⟨?_, List.pairwise_cons.mpr ⟨fun t ht => ?_, hfull⟩⟩
      · rw [List.map_cons, List.flatten_cons, hflat, ← hhead, List.take_append_drop]
      · by_cases hspan : slice.span ≤ (plainOf store slice).length
        · exact Or.inl hspan
        · right
          have hshort : p.length ≤ slice.span := by
            have hlen := congrArg List.length hhead
            rw [headOf, List.length_take, List.length_take] at hlen
            omega
          rw [List.drop_of_length_le hshort] at hflat
          exact List.flatten_eq_nil_iff.mp hflat _ (List.mem_map_of_mem ht)

theorem byteAt_none : ∀ (slices : List SliceRef) (index start limit : Nat),
    sliceMapGap index start slices = none → (∀ s ∈ slices, s.fileByteEnd ≤ limit) →
    start ≤ limit → byteAt store slices (limit - start) = none := by
  intro slices
  induction slices with
  | nil =>
      intro index start limit _ _ _
      rfl
  | cons slice rest ih =>
      intro index start limit hgap hlimit hstart
      obtain ⟨rfl, hnext⟩ := sliceMapGap_cons hgap
      obtain ⟨hend, hrest⟩ := List.forall_mem_cons.mp hlimit
      have hlt := slice.start_lt_end
      rw [byteAt, SliceRef.span, if_neg (by omega)]
      have hoff : limit - slice.fileByteStart - (slice.fileByteEnd - slice.fileByteStart) =
          limit - slice.fileByteEnd := by omega
      rw [hoff]
      exact ih (index + 1) _ limit hnext hrest hend

end

theorem fillWindow_past {store : SlabSource} {offset n windowEnd : Nat} :
    ∀ (slices : List SliceRef) (filled : Bytes), (∀ s ∈ slices, s.fileByteEnd ≤ offset) →
      fillWindow store offset n windowEnd slices filled = some (.ok filled) := by
  intro slices
  induction slices with
  | nil =>
      intro filled _
      rfl
  | cons slice rest ih =>
      intro filled h
      obtain ⟨hslice, hrest⟩ := List.forall_mem_cons.mp h
      rw [fillWindow.eq_2, if_pos (Or.inl hslice)]
      exact ih filled hrest

/-! ### Windows and files -/

section
variable {store : SlabSource} {maxInlineBytes : Nat} {bs rest : Bytes} {inode : Inode} {p : Bytes}

/-- Every window shows what the file has there. -/
def WindowsShow (inode : Inode) (store : SlabSource) (p : Bytes) : Prop :=
  ∀ offset < 2 ^ 64, ∀ n,
    readWindowInto inode (some store) offset n = some (.ok ((p.drop offset).take n))

theorem windowsShow_inline {data : Bytes} (h : inode.contentHandle = .inlineData data) :
    WindowsShow inode store data := by
  intro offset _ n
  rw [readWindowInto, h]
  by_cases hn : n = 0
  · simp [hn]
  · rw [if_neg hn]
    by_cases hoff : data.length ≤ offset
    · simp [hoff]
    · simp only [if_neg hoff, Option.some.injEq, Except.ok.injEq, List.take_eq_take_iff,
        List.length_drop]
      omega

theorem readWindowInto_slices {map : SliceMap} (h : inode.contentHandle = .sliceMap map) {n : Nat}
    (hn : n ≠ 0) (offset : Nat) : readWindowInto inode (some store) offset n =
      fillWindow store offset n (windowEnd offset n) map.slices [] := by
  rw [readWindowInto, if_neg hn, h]

theorem byteAt_of_windows {map : SliceMap} (hmap : inode.contentHandle = .sliceMap map)
    (hread : Readable store map.slices) (hlt : ∀ s ∈ map.slices, s.fileByteEnd < 2 ^ 64)
    (h : WindowsShow inode store p) : ∀ o, p[o]? = byteAt store map.slices o := by
  have hbyte : ∀ o < 2 ^ 64 - 1, p[o]? = byteAt store map.slices o := by
    intro o ho
    have hshow := h o (by omega) 1
    have hend : windowEnd o 1 = o + 1 := by
      unfold windowEnd
      omega
    rw [readWindowInto_slices hmap Nat.one_ne_zero, hend,
      fillWindow_byte map.slices 0 0 map.contiguous hread (Nat.zero_le o), Nat.sub_zero,
      List.take_one, List.head?_drop] at hshow
    have hlist := congrArg List.head? (Except.ok.inj (Option.some.inj hshow))
    rw [Option.head?_toList, Option.head?_toList] at hlist
    exact hlist.symm
  have hlast : p.length ≤ 2 ^ 64 - 1 := by
    have hshow := h (2 ^ 64 - 1) (by omega) 1
    rw [readWindowInto_slices hmap Nat.one_ne_zero,
      fillWindow_past map.slices [] fun s hs => Nat.le_sub_one_of_lt (hlt s hs)] at hshow
    have hlen := congrArg List.length (Except.ok.inj (Option.some.inj hshow))
    rw [List.length_nil, List.length_take, List.length_drop] at hlen
    omega
  intro o
  by_cases ho : o < 2 ^ 64 - 1
  · exact hbyte o ho
  · rw [List.getElem?_eq_none (by omega)]
    exact (byteAt_none map.slices 0 0 o map.contiguous (fun s hs => by have := hlt s hs; omega)
      (Nat.zero_le o)).symm

theorem heads_length_le {limit : Nat} : ∀ (slices : List SliceRef) (index start : Nat),
    sliceMapGap index start slices = none → (∀ s ∈ slices, s.fileByteEnd ≤ limit) →
    (slices.map (headOf store)).flatten.length ≤ limit - start := by
  intro slices
  induction slices with
  | nil =>
      intro index start _ _
      exact Nat.zero_le _
  | cons slice rest ih =>
      intro index start hgap hlimit
      obtain ⟨rfl, hnext⟩ := sliceMapGap_cons hgap
      obtain ⟨hslice, hrest⟩ := List.forall_mem_cons.mp hlimit
      have hlt := slice.start_lt_end
      have htail := ih (index + 1) slice.fileByteEnd hnext hrest
      have hhead : (headOf store slice).length ≤ slice.fileByteEnd - slice.fileByteStart := by
        rw [headOf, List.length_take, SliceRef.span]
        exact Nat.min_le_left _ _
      rw [List.map_cons, List.flatten_cons, List.length_append]
      omega

theorem windowsShow_slices {map : SliceMap} (hmap : inode.contentHandle = .sliceMap map)
    (hread : Readable store map.slices) (hlt : ∀ s ∈ map.slices, s.fileByteEnd < 2 ^ 64)
    (h : HeadsMakeFile store map.slices) :
    WindowsShow inode store (map.slices.map fun s => s.window (plainOf store s)).flatten := by
  intro offset hoff n
  rw [← h.file]
  by_cases hn : n = 0
  · simp [readWindowInto, hn]
  · have hlen : (map.slices.map (headOf store)).flatten.length ≤ 2 ^ 64 - 1 - 0 :=
      heads_length_le map.slices 0 0 map.contiguous fun s hs => Nat.le_sub_one_of_lt (hlt s hs)
    have hend : windowEnd offset n - offset ≤ n := by
      unfold windowEnd
      omega
    rw [readWindowInto_slices hmap hn, fillWindow_eq hend map.slices 0 0 [] map.contiguous hread
      h.full (Nat.zero_le _), List.nil_append, Nat.sub_zero, Nat.max_eq_left (Nat.zero_le offset)]
    congr 2
    rw [List.take_eq_take_iff, List.length_drop]
    unfold windowEnd
    omega

/-- **A window reads the file exactly when the first bytes of the drops make up the file.** -/
theorem read_window_iff : ∀ (maxInlineBytes : Nat) (bs rest : Bytes) (inode : Inode)
    (store : SlabSource) (p : Bytes),
    parseInodeWithCeiling maxInlineBytes bs = (.ok inode, rest) →
    ((∃ data, inode.contentHandle = .inlineData data) ∨ ∃ map, inode.contentHandle = .sliceMap map) →
    filePlaintext inode (some store) = .ok p →
    (WindowsShow inode store p ↔ inode.HeadsMakeFile store) := by
  intro maxInlineBytes bs rest inode store p hparse hkind hp
  rcases hkind with ⟨data, hdata⟩ | ⟨map, hmap⟩
  · unfold filePlaintext at hp
    rw [hdata] at hp
    cases hp
    unfold Inode.HeadsMakeFile
    rw [hdata]
    exact iff_of_true (windowsShow_inline hdata) trivial
  · unfold filePlaintext at hp
    rw [hmap] at hp
    obtain ⟨hread, rfl⟩ := filePlaintext_slices hp
    have hlt := fun s hs => (parseInode_slices_lt hparse hmap s hs).1
    unfold Inode.HeadsMakeFile
    rw [hmap]
    constructor
    · intro h
      obtain ⟨hfile, hfull⟩ := heads_of_byteAt _ _ (byteAt_of_windows hmap hread hlt h)
      exact ⟨hfile, hfull⟩
    · exact windowsShow_slices hmap hread hlt

end

namespace Stored

/-- The inode of a file: four bytes of a drop, from `start` on. -/
def windowFile (start : Nat) : Inode :=
  ⟨1, 0x81A4, 0, 0, 0, 0, 1, none, [],
    .sliceMap ⟨[⟨0, 4, digest (ascii "drop"), start, 4, by decide⟩], rfl⟩⟩

/-- What comes before the content of an inode without optional fields. -/
def inodeHeadBytes (inode : Inode) : Bytes :=
  leBytes 8 inode.number ++ leBytes 4 inode.mode ++ leBytes 4 inode.uid ++ leBytes 4 inode.gid
    ++ leBytes 8 inode.mtimeNs ++ leBytes 8 inode.ctimeNs ++ leBytes 4 inode.nlink ++ [0]

def windowFileBytes (start : Nat) : Bytes :=
  inodeHeadBytes (windowFile start) ++ leBytes 4 1 ++ leBytes 8 0 ++ leBytes 8 4
    ++ (digest (ascii "drop")).val ++ leBytes 4 start ++ leBytes 4 4

def windowStore : SlabSource := fun id =>
  if id = digest (ascii "drop") then some (.ok (ascii "headtail")) else none

end Stored

open LimniFS.Stored

/-- A slice that starts inside its drop: the file ends in one word and the window shows the
other. -/
theorem window_shows_the_head :
    parseInodeWithCeiling defaultInlineDataMaxBytes (windowFileBytes 4) =
        (.ok (windowFile 4), []) ∧
      filePlaintext (windowFile 4) (some windowStore) = .ok (ascii "tail") ∧
      readWindowInto (windowFile 4) (some windowStore) 0 4 =
        some (.ok (ascii "head")) ∧
      ¬ WindowsShow (windowFile 4) windowStore (ascii "tail") := by
  refine ⟨by decide +kernel, by decide +kernel, by decide +kernel, fun h => ?_⟩
  exact absurd (h 0 (by decide) 4) (by decide +kernel)

theorem read_window_iff_of_parsed :
    parseInodeWithCeiling defaultInlineDataMaxBytes (windowFileBytes 0) =
        (.ok (windowFile 0), []) ∧
      (WindowsShow (windowFile 0) windowStore (ascii "head") ↔
        (windowFile 0).HeadsMakeFile windowStore) :=
  ⟨by decide +kernel,
    read_window_iff defaultInlineDataMaxBytes (windowFileBytes 0) [] (windowFile 0)
      windowStore (ascii "head") (by decide +kernel) (Or.inr ⟨_, rfl⟩) (by decide +kernel)⟩

end LimniFS
