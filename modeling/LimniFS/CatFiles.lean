/-
What is printed of one file.

All drops, one behind the other, are what the slices name exactly if every drop is as long as its slice
and taken whole (`honours_iff`).  Then windows show the same, from whatever place on, so both ways to
print the file agree (`printed_alike`).
-/
import LimniFS.CatWindows
import LimniFS.FlattenEncoding

namespace LimniFS.Cat

open Lib

/-! ### What the slices name -/

/-- What is printed are the slices' ranges of their drops, each where its slice stands in the file. -/
structure Honours (store : SlabSource) (slices : List SliceRef) (out : Bytes) : Prop where
  ranges : out = windowsOf store slices
  placed : ∀ s ∈ slices, (out.drop s.fileByteStart).take s.span = s.window (plainOf store s)

/-- Every slice takes the whole of its drop. -/
def TakesWhole (store : SlabSource) (slices : List SliceRef) : Prop :=
  ∀ s ∈ slices, s.window (plainOf store s) = plainOf store s

/-- There is a source if there is nothing to read from it; where its drops can be read they are whole,
and where not there is no gap before them. -/
structure SlicesAlike (source : Option SlabSource) (slices : List SliceRef) : Prop where
  absent : source = none → slices ≠ []
  whole : ∀ store, source = some store → Readable store slices →
    WholeDrops store slices ∧ TakesWhole store slices
  unread : ∀ store, source = some store → ¬ Readable store slices → NoGap store slices

/-! ### Slices and whole drops -/

section
variable {store : SlabSource}

theorem takesWhole_of_length : ∀ (slices : List SliceRef),
    (slices.map (plainOf store)).flatten.length ≤ (windowsOf store slices).length →
    TakesWhole store slices := by
  intro slices
  have hpart : ∀ s : SliceRef, (s.window (plainOf store s)).length ≤ (plainOf store s).length := by
    intro s
    rw [window_length]
    omega
  have hle : ∀ slices : List SliceRef,
      (windowsOf store slices).length ≤ (slices.map (plainOf store)).flatten.length := by
    intro slices
    induction slices with
    | nil => exact Nat.le_refl _
    | cons slice rest ih =>
        have hslice := hpart slice
        simp only [windowsOf, List.map_cons, List.flatten_cons, List.length_append] at ih ⊢
        omega
  induction slices with
  | nil =>
      intro _ s hs
      exact absurd hs List.not_mem_nil
  | cons slice rest ih =>
      intro hlen
      have hslice := hpart slice
      have hrest := hle rest
      simp only [windowsOf, List.map_cons, List.flatten_cons, List.length_append] at hlen hrest
      refine List.forall_mem_cons.mpr ⟨?_, ih (by unfold windowsOf; omega)⟩
      exact ((List.take_sublist _ _).trans (List.drop_sublist _ _)).eq_of_length (by
        show (slice.window (plainOf store slice)).length = _
        omega)

/-- **What is printed of whole drops honours their slices.** -/
theorem placed_of_whole : ∀ (slices : List SliceRef) (index start : Nat),
    sliceMapGap index start slices = none → WholeDrops store slices →
    ∀ s ∈ slices, start ≤ s.fileByteStart ∧
      (((slices.map (plainOf store)).flatten).drop (s.fileByteStart - start)).take s.span
        = plainOf store s := by
  intro slices
  induction slices with
  | nil =>
      intro index start _ _ s hs
      exact absurd hs List.not_mem_nil
  | cons slice rest ih =>
      intro index start hgap hwhole
      obtain ⟨rfl, hnext⟩ := sliceMapGap_cons hgap
      obtain ⟨hlong, hlongs⟩ := List.forall_mem_cons.mp hwhole.noLonger
      obtain ⟨hfull, hfulls⟩ := List.pairwise_cons.mp hwhole.full
      have hlt := slice.start_lt_end
      have hspan : slice.span = slice.fileByteEnd - slice.fileByteStart := rfl
      have hplaced := ih (index + 1) slice.fileByteEnd hnext ⟨hlongs, hfulls⟩
      rw [List.map_cons, List.flatten_cons]
      by_cases hshort : slice.span ≤ (plainOf store slice).length
      · have hlen : (plainOf store slice).length = slice.span := Nat.le_antisymm hlong hshort
        refine List.forall_mem_cons.mpr ⟨⟨Nat.le_refl _, ?_⟩, fun s hs => ?_⟩
        · rw [Nat.sub_self, List.drop_zero, List.take_left' hlen]
        · obtain ⟨hstart, hshown⟩ := hplaced s hs
          refine ⟨by omega, ?_⟩
          rw [show s.fileByteStart - slice.fileByteStart
              = (plainOf store slice).length + (s.fileByteStart - slice.fileByteEnd) by omega,
            List.drop_length_add_append, hshown]
      · -- what follows is empty
        have hempty : ∀ t ∈ rest, plainOf store t = [] := fun t ht => (hfull t ht).resolve_left hshort
        have hnil : (rest.map (plainOf store)).flatten = [] := by
          refine List.flatten_eq_nil_iff.mpr fun l hl => ?_
          obtain ⟨t, ht, rfl⟩ := List.mem_map.mp hl
          exact hempty t ht
        rw [hnil, List.append_nil]
        refine List.forall_mem_cons.mpr ⟨⟨Nat.le_refl _, ?_⟩, fun s hs => ?_⟩
        · rw [Nat.sub_self, List.drop_zero, List.take_of_length_le (Nat.le_of_not_le hshort)]
        · obtain ⟨hstart, -⟩ := hplaced s hs
          refine ⟨by omega, ?_⟩
          rw [hempty s hs, List.drop_of_length_le (by omega), List.take_nil]

/-- **Drops that are honoured whole are whole.** -/
theorem whole_of_placed : ∀ (slices : List SliceRef) (index start : Nat),
    sliceMapGap index start slices = none →
    (∀ s ∈ slices, (((slices.map (plainOf store)).flatten).drop (s.fileByteStart - start)).take s.span
      = plainOf store s) → WholeDrops store slices := by
  intro slices
  induction slices with
  | nil =>
      intro index start _ _
      exact ⟨fun s hs => absurd hs List.not_mem_nil, List.Pairwise.nil⟩
  | cons slice rest ih =>
      intro index start hgap hplaced
      obtain ⟨rfl, hnext⟩ := sliceMapGap_cons hgap
      obtain ⟨hslice, hrest⟩ := List.forall_mem_cons.mp hplaced
      have hlt := slice.start_lt_end
      have hspan : slice.span = slice.fileByteEnd - slice.fileByteStart := rfl
      rw [Nat.sub_self, List.drop_zero, List.map_cons, List.flatten_cons] at hslice
      have hlen := congrArg List.length hslice
      rw [List.length_take, List.length_append] at hlen
      by_cases hshort : slice.span ≤ (plainOf store slice).length
      · have hexact : (plainOf store slice).length = slice.span := by omega
        have hwhole := ih (index + 1) slice.fileByteEnd hnext fun s hs => by
          have hstart := sliceMapGap_le hnext s hs
          have hshown := hrest s hs
          rwa [show s.fileByteStart - slice.fileByteStart
              = (plainOf store slice).length + (s.fileByteStart - slice.fileByteEnd) by omega,
            List.map_cons, List.flatten_cons, List.drop_length_add_append] at hshown
        exact ⟨List.forall_mem_cons.mpr ⟨Nat.le_of_eq hexact, hwhole.noLonger⟩,
          List.pairwise_cons.mpr ⟨fun _ _ => Or.inl hshort, hwhole.full⟩⟩
      · have hnil : (rest.map (plainOf store)).flatten = [] :=
          List.eq_nil_of_length_eq_zero (by omega)
        have hempty : ∀ t ∈ rest, plainOf store t = [] := fun t ht =>
          List.flatten_eq_nil_iff.mp hnil _ (List.mem_map_of_mem ht)
        refine ⟨List.forall_mem_cons.mpr ⟨by omega, fun t ht => ?_⟩,
          List.pairwise_cons.mpr ⟨fun t ht => Or.inr (hempty t ht), ?_⟩⟩
        · rw [hempty t ht]
          exact Nat.zero_le _
        · exact List.pairwise_of_forall_mem_list fun s _ t ht => Or.inr (hempty t ht)

theorem flatten_takesWhole {slices : List SliceRef} (h : TakesWhole store slices) :
    windowsOf store slices = (slices.map (plainOf store)).flatten :=
  congrArg List.flatten (List.map_congr_left h)

/-- **All drops, one behind the other, honour the slices** exactly if the drops are whole and taken whole. -/
theorem honours_iff {map : SliceMap} : Honours store map.slices (map.slices.map (plainOf store)).flatten ↔
    WholeDrops store map.slices ∧ TakesWhole store map.slices := by
  constructor
  · intro h
    have htakes : TakesWhole store map.slices :=
      takesWhole_of_length map.slices (Nat.le_of_eq (congrArg List.length h.ranges))
    refine ⟨whole_of_placed map.slices 0 0 map.contiguous fun s hs => ?_, htakes⟩
    rw [Nat.sub_zero, h.placed s hs, htakes s hs]
  · rintro ⟨hwhole, htakes⟩
    refine ⟨(flatten_takesWhole htakes).symm, fun s hs => ?_⟩
    obtain ⟨-, hplaced⟩ := placed_of_whole map.slices 0 0 map.contiguous hwhole s hs
    rwa [Nat.sub_zero, ← htakes s hs] at hplaced

theorem headsMakeFile_of_whole {slices : List SliceRef} (hwhole : WholeDrops store slices)
    (htakes : TakesWhole store slices) : HeadsMakeFile store slices := by
  refine ⟨?_, hwhole.headsFull⟩
  rw [hwhole.heads]
  exact (flatten_takesWhole htakes).symm

theorem wholeDrops_eq_ok : ∀ {slices : List SliceRef} {out : Bytes},
    wholeDrops store slices = .ok out ↔
      Readable store slices ∧ out = (slices.map (plainOf store)).flatten := by
  intro slices
  induction slices with
  | nil =>
      intro out
      simp [wholeDrops, Readable, eq_comm]
  | cons slice rest ih =>
      intro out
      unfold wholeDrops Readable
      rw [List.forall_mem_cons, List.map_cons, List.flatten_cons]
      rcases hdrop : store slice.dropId with _ | _ | plaintext
      · simp
      · simp
      · rw [plainOf_eq hdrop]
        simp only [true_and]
        constructor
        · intro h
          obtain ⟨more, hmore, rfl⟩ := map_eq_ok h
          obtain ⟨hrest, rfl⟩ := ih.mp hmore
          exact ⟨hrest, rfl⟩
        · rintro ⟨hrest, rfl⟩
          rw [ih.mpr ⟨hrest, rfl⟩]
          rfl

end

/-! ### One file -/

section
variable {target : Inode} {path : Bytes}

theorem debugOther_eq_none {handle : ContentHandle} :
    debugOther handle = none ↔ (∃ data, handle = .inlineData data) ∨ ∃ map, handle = .sliceMap map := by
  cases handle <;> simp [debugOther]

theorem debugOther_of_sectionBody {source : Option SlabSource} {body : Bytes}
    (h : sectionBody source path target = .ok body) : debugOther target.contentHandle = none := by
  unfold sectionBody at h
  cases hhandle : target.contentHandle <;> simp [hhandle, debugOther] at h ⊢

theorem sectionBody_slices {store : SlabSource} {map : SliceMap} {body : Bytes}
    (hmap : target.contentHandle = .sliceMap map) :
    sectionBody (some store) path target = .ok body ↔
      Readable store map.slices ∧ body = (map.slices.map (plainOf store)).flatten := by
  unfold sectionBody
  rw [hmap]
  exact wholeDrops_eq_ok

theorem printed_inline {source : Option SlabSource} {data : Bytes}
    (h : target.contentHandle = .inlineData data) (hlen : data.length < 2 ^ 64) :
    printed target source [] = some (.ok data) := by
  have hfile : target.fileLen = data.length := by
    unfold Inode.fileLen
    rw [h]
  refine catLoop_shows (by omega) (Nat.le_of_eq hfile.symm) (fun pos hpos n => ?_) List.nil_prefix
  have hshow := @windowsShow_inline (fun _ => none) target data h pos (by omega) n
  rw [readWindowInto, h] at hshow ⊢
  exact hshow

theorem printed_no_source {map : SliceMap} (h : target.contentHandle = .sliceMap map)
    (hne : map.slices ≠ []) : ∃ e, printed target none [] = some (.error e) := by
  have hpos : 0 < target.fileLen := by
    have hlast := List.getLast?_eq_some_getLast hne
    have hlt := (map.slices.getLast hne).start_lt_end
    rw [fileLen_slices h, endOfSlices, hlast, Option.elim_some]
    omega
  refine ⟨.corrupt "read_window_into: slice-backed file but no slab store provided",
    catLoop_error hpos ?_⟩
  rw [readWindowInto, if_neg (by unfold catWindow; simp; omega), h]

theorem slices_le_fileLen {map : SliceMap} (h : target.contentHandle = .sliceMap map) :
    ∀ s ∈ map.slices, s.fileByteEnd ≤ target.fileLen := by
  have hends : ∀ (slices : List SliceRef) (index start : Nat), sliceMapGap index start slices = none →
      start ≤ endOfSlices start slices ∧ ∀ s ∈ slices, s.fileByteEnd ≤ endOfSlices start slices := by
    intro slices
    induction slices with
    | nil =>
        intro index start _
        exact ⟨Nat.le_refl _, fun s hs => absurd hs List.not_mem_nil⟩
    | cons slice rest ih =>
        intro index start hgap
        obtain ⟨rfl, hnext⟩ := sliceMapGap_cons hgap
        obtain ⟨hle, hrest⟩ := ih (index + 1) slice.fileByteEnd hnext
        have hlt := slice.start_lt_end
        rw [endOfSlices_cons]
        exact ⟨by omega, List.forall_mem_cons.mpr ⟨hle, hrest⟩⟩
  rw [fileLen_slices h]
  exact (hends map.slices 0 0 map.contiguous).2

theorem fileLen_lt {maxInlineBytes : Nat} (hbounded : target.Bounded maxInlineBytes)
    {map : SliceMap} (h : target.contentHandle = .sliceMap map) : target.fileLen < 2 ^ 64 := by
  rw [fileLen_slices h, endOfSlices]
  cases hlast : map.slices.getLast? with
  | none => decide
  | some s => exact (hbounded.slices map h s (List.mem_of_getLast? hlast)).1

/-- **Where slices are alike** the commands print the same, and what the slices name. -/
theorem printed_alike {source : Option SlabSource}
    (hbounded : target.Bounded defaultInlineDataMaxBytes)
    (hfile : debugOther target.contentHandle = none)
    (halike : ∀ map, target.contentHandle = .sliceMap map → SlicesAlike source map.slices) :
    ∃ r, printed target source [] = some r ∧
      (∀ body, r = .ok body ↔ sectionBody source path target = .ok body) ∧
      ∀ map store body, target.contentHandle = .sliceMap map → source = some store → r = .ok body →
        Honours store map.slices body := by
  rcases debugOther_eq_none.mp hfile with ⟨data, hdata⟩ | ⟨map, hmap⟩
  · have hshort := hbounded.inline data hdata
    refine ⟨_, printed_inline hdata (by unfold defaultInlineDataMaxBytes at hshort; omega),
      fun body => ?_, fun map store body hmap => ?_⟩
    · unfold sectionBody
      rw [hdata]
    · rw [hdata] at hmap
      cases hmap
  · have halike := halike map hmap
    have hlen := fileLen_lt hbounded hmap
    cases source with
    | none =>
        obtain ⟨e, herror⟩ := printed_no_source hmap (halike.absent rfl)
        refine ⟨_, herror, fun body => ?_, fun _ _ _ _ hsource => by cases hsource⟩
        unfold sectionBody
        rw [hmap]
        simp
    | some store =>
        by_cases hread : Readable store map.slices
        · obtain ⟨hwhole, htakes⟩ := halike.whole store rfl hread
          have hshow := windowsShow_slices hmap hread (fun s hs => (hbounded.slices map hmap s hs).1)
            (headsMakeFile_of_whole hwhole htakes)
          rw [show (map.slices.map fun s => s.window (plainOf store s)).flatten
            = (map.slices.map (plainOf store)).flatten from flatten_takesWhole htakes] at hshow
          have hfits := @heads_length_le store target.fileLen map.slices 0 0 map.contiguous
            (slices_le_fileLen hmap)
          rw [hwhole.heads, Nat.sub_zero] at hfits
          have hprinted : printed target (some store) []
              = some (.ok (map.slices.map (plainOf store)).flatten) :=
            catLoop_shows (by omega) hfits (fun pos hpos n => hshow pos (by omega) n)
              List.nil_prefix
          refine ⟨_, hprinted, fun body => ?_, fun map' store' body hmap' hsource hok => ?_⟩
          · rw [sectionBody_slices hmap]
            constructor
            · intro hok
              exact ⟨hread, (Except.ok.inj hok).symm⟩
            · rintro ⟨-, rfl⟩
              rfl
          · obtain rfl := Option.some.inj hsource
            obtain rfl := ContentHandle.sliceMap.inj (hmap.symm.trans hmap')
            rw [← Except.ok.inj hok]
            exact honours_iff.mpr ⟨hwhole, htakes⟩
        · obtain ⟨e, herror⟩ := (printed_fails_iff hmap hlen (slices_le_fileLen hmap) hread).mpr
            (halike.unread store rfl hread)
          refine ⟨_, herror, fun body => ?_, fun _ _ _ _ _ hok => by cases hok⟩
          rw [sectionBody_slices hmap]
          exact ⟨fun hok => absurd hok (by simp), fun hok => absurd hok.1 hread⟩

end

end LimniFS.Cat
