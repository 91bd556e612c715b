/-
When the two modes of an extraction agree.

The windowed mode stops where a drop ends before its slice does, and never shows what a drop has
behind its slice; the other mode writes every drop whole.  So the two agree, for every
size of the copy's buffer, exactly when each drop is as long as its slice, except that one drop may
be shorter if all that follow it are empty (`extract_modes_agree_iff`).  The windows take the frames
of a seekable drop to be as long as the container's rows say, so its codec has to see to that.

That this is enough holds for a buffer of any size.  That it is needed is seen with a buffer of one
byte, which stops at the first byte that is not there.
-/
import LimniFS.ExtractModes

namespace LimniFS

open Lib Lib.Parser

/-! ### Drops and slices of the same length -/

/-- No drop is longer than its slice, and behind one that is shorter all are empty. -/
structure WholeDrops (store : SlabSource) (slices : List SliceRef) : Prop where
  noLonger : ∀ s ∈ slices, (plainOf store s).length ≤ s.span
  full : slices.Pairwise fun s t => s.span ≤ (plainOf store s).length ∨ plainOf store t = []

section
variable {store : SlabSource}

theorem WholeDrops.heads {slices : List SliceRef} (h : WholeDrops store slices) :
    slices.map (headOf store) = slices.map (plainOf store) :=
  List.map_congr_left fun s hs => List.take_of_length_le (h.noLonger s hs)

theorem WholeDrops.headsFull {slices : List SliceRef} (h : WholeDrops store slices) :
    slices.Pairwise fun s t => s.span ≤ (plainOf store s).length ∨ headOf store t = [] := by
  refine h.full.imp fun hor => hor.imp_right fun hnil => ?_
  rw [headOf, hnil, List.take_nil]

theorem wholeDrops_of_bytes : ∀ (slices : List SliceRef) (limit : Nat),
    (slices.map (plainOf store)).flatten.length ≤ limit →
    (∀ o < limit, byteAt store slices o ≠ none) → byteAt store slices limit = none →
    WholeDrops store slices ∧ limit = (slices.map (plainOf store)).flatten.length := by
  intro slices
  induction slices with
  | nil =>
      intro limit _ hsome _
      refine ⟨⟨fun s hs => absurd hs List.not_mem_nil, List.Pairwise.nil⟩, ?_⟩
      by_contra hne
      exact hsome 0 (Nat.pos_of_ne_zero hne) rfl
  | cons slice rest ih =>
      intro limit hlimit hsome hnone
      rw [List.map_cons, List.flatten_cons, List.length_append] at hlimit ⊢
      by_cases hshort : (plainOf store slice).length < slice.span
      · -- the first byte that is not there is the one behind the drop
        have hend : byteAt store (slice :: rest) (plainOf store slice).length = none := by
          rw [byteAt, if_pos hshort, List.getElem?_eq_none (Nat.le_refl _)]
        have hle : limit ≤ (plainOf store slice).length := by
          by_contra hlt
          exact hsome _ (Nat.lt_of_not_le hlt) hend
        have hempty : ∀ t ∈ rest, plainOf store t = [] := by
          have hnil : (rest.map (plainOf store)).flatten = [] :=
            List.eq_nil_of_length_eq_zero (by omega)
          intro t ht
          exact List.flatten_eq_nil_iff.mp hnil _ (List.mem_map_of_mem ht)
        refine ⟨⟨List.forall_mem_cons.mpr ⟨Nat.le_of_lt hshort, fun t ht => ?_⟩,
          List.pairwise_cons.mpr ⟨fun t ht => Or.inr (hempty t ht), ?_⟩⟩, by omega⟩
        · rw [hempty t ht]
          exact Nat.zero_le _
        · exact List.pairwise_of_forall_mem_list fun s _ t ht => Or.inr (hempty t ht)
      · have hspan : slice.span ≤ (plainOf store slice).length := Nat.le_of_not_lt hshort
        have hshift : ∀ o, byteAt store (slice :: rest) (slice.span + o) = byteAt store rest o := by
          intro o
          rw [byteAt, if_neg (by omega), Nat.add_sub_cancel_left]
        obtain ⟨limit, rfl⟩ : ∃ more, limit = slice.span + more := ⟨limit - slice.span, by omega⟩
        obtain ⟨hrest, hsame⟩ := ih limit (by omega)
          (fun o ho => by rw [← hshift]; exact hsome _ (by omega)) (by rw [← hshift]; exact hnone)
        refine ⟨⟨List.forall_mem_cons.mpr ⟨by omega, hrest.noLonger⟩,
          List.pairwise_cons.mpr ⟨fun _ _ => Or.inl hspan, hrest.full⟩⟩, by omega⟩

end

namespace CachedSlabStore

variable {H : Hash} {z : Omnizip} {store : SlabStore} {s : CachedSlabStore}

/-! ### Drops that are whole -/

/-- What a copy has written is the front of what the drops hold, and at its end all of it. -/
theorem Sound.copyFile_whole (hcol : NoCollision H store.frameNames)
    (hexact : store.ExactContainers z) {map : SliceMap} {n : Nat} (hn : 0 < n)
    (hread : Readable (store.plaintextFor z) map.slices)
    (hlt : ∀ slice ∈ map.slices, slice.fileByteEnd < 2 ^ 64)
    (hwhole : WholeDrops (store.plaintextFor z) map.slices) :
    ∀ (fuel : Nat) {s : CachedSlabStore} {pos : Nat} {written out : Bytes}, Sound H z store s →
      written = (map.slices.map (plainOf (store.plaintextFor z))).flatten.take pos →
      pos ≤ (map.slices.map (plainOf (store.plaintextFor z))).flatten.length →
      copyFile H z map.slices n fuel s pos written = some (.ok out) →
      out = (map.slices.map (plainOf (store.plaintextFor z))).flatten := by
  intro fuel
  induction fuel with
  | zero =>
      intro s pos written out _ _ _ hcopy
      cases hcopy
  | succ fuel ih =>
      intro s pos written out h hwritten hpos hcopy
      have hlimit : (map.slices.map (headOf (store.plaintextFor z))).flatten.length ≤ 2 ^ 64 - 1 - 0 :=
        heads_length_le map.slices 0 0 map.contiguous fun s hs => Nat.le_sub_one_of_lt (hlt s hs)
      rw [hwhole.heads] at hlimit
      have hend : windowEnd pos n - pos ≤ n := by
        unfold windowEnd
        omega
      rw [copyFile] at hcopy
      split at hcopy
      · cases hcopy
      · cases hcopy
      · next mid got hfill =>
          obtain ⟨hwindow, hmid⟩ := Sound.fillWindow hcol hexact h hread hlt hfill
          rw [fillWindow_eq hend map.slices 0 0 [] map.contiguous hread hwhole.headsFull
            (Nat.zero_le _), hwhole.heads, List.nil_append, Nat.sub_zero,
            Nat.max_eq_left (Nat.zero_le pos)] at hwindow
          have hgot := Except.ok.inj (Option.some.inj hwindow)
          by_cases hnil : got = []
          · rw [if_pos hnil] at hcopy
            cases hcopy
            rw [hnil] at hgot
            have hlen := congrArg List.length hgot
            rw [List.length_take, List.length_drop, List.length_nil] at hlen
            have hdone : (map.slices.map (plainOf (store.plaintextFor z))).flatten.length ≤ pos := by
              unfold windowEnd at hlen
              omega
            rw [hwritten, List.take_of_length_le hdone]
          · rw [if_neg hnil] at hcopy
            have hlen := congrArg List.length hgot
            rw [List.length_take, List.length_drop] at hlen
            refine ih hmid ?_ (by omega) hcopy
            rw [hwritten, ← hgot, List.take_add]
            congr 1
            rw [List.take_eq_take_iff, List.length_take]
            omega

/-! ### A buffer of one byte -/

/-- The byte at a place up to which there are bytes. -/
theorem Sound.fillWindow_byte (hcol : NoCollision H store.frameNames)
    (hexact : store.ExactContainers z) (h : Sound H z store s) {pos : Nat} (hpos : pos < 2 ^ 64 - 1) :
    ∀ (slices : List SliceRef) (index start : Nat), sliceMapGap index start slices = none →
      Readable (store.plaintextFor z) slices → start ≤ pos →
      (∀ o < pos - start, byteAt (store.plaintextFor z) slices o ≠ none) →
      ∃ s', s.fillWindow H z pos 1 (pos + 1) slices [] =
          some (s', .ok (byteAt (store.plaintextFor z) slices (pos - start)).toList) ∧
        Sound H z store s' := by
  intro slices
  induction slices with
  | nil =>
      intro index start _ _ _ _
      exact ⟨s, rfl, h⟩
  | cons slice rest ih =>
      intro index start hgap hread hstart hbefore
      obtain ⟨rfl, hnext⟩ := sliceMapGap_cons hgap
      obtain ⟨hslice, hrest⟩ := List.forall_mem_cons.mp hread
      have hlt := slice.start_lt_end
      rw [CachedSlabStore.fillWindow]
      by_cases hend : slice.fileByteEnd ≤ pos
      · have hshift : ∀ o, byteAt (store.plaintextFor z) (slice :: rest) (slice.span + o) =
            byteAt (store.plaintextFor z) rest o := by
          intro o
          rw [byteAt, if_neg (by omega), Nat.add_sub_cancel_left]
        have hoff : pos - slice.fileByteStart = slice.span + (pos - slice.fileByteEnd) := by
          unfold SliceRef.span
          omega
        rw [if_pos (Or.inl hend), hoff, hshift]
        refine ih (index + 1) _ hnext hrest hend fun o ho => ?_
        rw [← hshift]
        exact hbefore _ (by omega)
      · have hwant : min (pos + 1) slice.fileByteEnd - max pos slice.fileByteStart = 1 := by omega
        have hbyte : ∀ o < slice.span, byteAt (store.plaintextFor z) (slice :: rest) o =
            (plainOf (store.plaintextFor z) slice)[o]? := by
          intro o ho
          rw [byteAt, if_pos ho]
        have hinside : pos - slice.fileByteStart < slice.span := by
          unfold SliceRef.span
          omega
        -- the byte before this one is there, so the drop reaches at least to this one
        have hoff : pos - slice.fileByteStart ≤ (plainOf (store.plaintextFor z) slice).length := by
          by_contra hpast
          refine hbefore (pos - slice.fileByteStart - 1) (by omega) ?_
          rw [hbyte _ (by omega)]
          exact List.getElem?_eq_none (by omega)
        have hfit : pos - slice.fileByteStart + ([0] : Bytes).length < 2 ^ 64 := by
          rw [List.length_singleton]
          omega
        obtain ⟨s', hcopy⟩ := h.decodedRangeInto_window hcol hexact hslice hoff hfit
        have htook := copyFrom_take (plainOf (store.plaintextFor z) slice)
          (pos - slice.fileByteStart) [0]
        rw [List.length_singleton, List.take_one, List.head?_drop] at htook
        rw [if_neg (by omega), hbyte _ hinside]
        simp only [hwant]
        rw [if_neg Nat.one_ne_zero, if_neg (by simp), Nat.max_eq_left hstart, List.replicate_one, hcopy]
        simp only [List.nil_append]
        rw [if_pos (Or.inr (by omega)), htook]
        exact ⟨s', rfl, h.decodedRangeInto hcopy⟩

theorem fillWindow_past {offset n windowEnd : Nat} : ∀ (slices : List SliceRef) (filled : Bytes),
    (∀ slice ∈ slices, slice.fileByteEnd ≤ offset) →
      s.fillWindow H z offset n windowEnd slices filled = some (s, .ok filled) := by
  intro slices
  induction slices with
  | nil =>
      intro filled _
      rfl
  | cons slice rest ih =>
      intro filled hpast
      obtain ⟨hslice, hrest⟩ := List.forall_mem_cons.mp hpast
      rw [CachedSlabStore.fillWindow, if_pos (Or.inl hslice)]
      exact ih filled hrest

/-- A copy byte by byte ends at the first byte that is not there. -/
theorem Sound.copyFile_bytes (hcol : NoCollision H store.frameNames)
    (hexact : store.ExactContainers z) {map : SliceMap}
    (hread : Readable (store.plaintextFor z) map.slices)
    (hlt : ∀ slice ∈ map.slices, slice.fileByteEnd < 2 ^ 64) {limit : Nat}
    (hlimit : limit ≤ 2 ^ 64 - 1)
    (hsome : ∀ o < limit, byteAt (store.plaintextFor z) map.slices o ≠ none)
    (hnone : byteAt (store.plaintextFor z) map.slices limit = none) :
    ∀ (more : Nat) {s : CachedSlabStore} {pos : Nat} {written : Bytes}, Sound H z store s →
      pos + more = limit → written.length = pos →
      ∃ out, copyFile H z map.slices 1 (more + 1) s pos written = some (.ok out) ∧
        out.length = limit := by
  intro more
  induction more with
  | zero =>
      intro s pos written h hpos hwritten
      rw [Nat.add_zero] at hpos
      subst hpos
      have hfill : ∃ s', s.fillWindow H z pos 1 (windowEnd pos 1) map.slices [] = some (s', .ok []) := by
        by_cases hlast : pos = 2 ^ 64 - 1
        · exact ⟨s, fillWindow_past map.slices [] fun slice hin => by
            have hend := hlt slice hin
            omega⟩
        · have hend : windowEnd pos 1 = pos + 1 := by
            unfold windowEnd
            omega
          obtain ⟨s', hfill, -⟩ := h.fillWindow_byte hcol hexact (by omega) map.slices 0 0
            map.contiguous hread (Nat.zero_le pos) fun o ho => hsome o (by omega)
          rw [Nat.sub_zero, hnone] at hfill
          exact ⟨s', by rw [hend, hfill]; rfl⟩
      obtain ⟨s', hfill⟩ := hfill
      rw [copyFile, hfill]
      exact ⟨written, rfl, hwritten⟩
  | succ more ih =>
      intro s pos written h hpos hwritten
      have hend : windowEnd pos 1 = pos + 1 := by
        unfold windowEnd
        omega
      obtain ⟨s', hfill, hs'⟩ := h.fillWindow_byte hcol hexact (by omega) map.slices 0 0
        map.contiguous hread (Nat.zero_le pos) fun o ho => hsome o (by omega)
      obtain ⟨b, hb⟩ := Option.ne_none_iff_exists'.mp (hsome pos (by omega))
      rw [Nat.sub_zero, hb] at hfill
      rw [copyFile, hend, hfill]
      simp only [Option.toList_some, List.cons_ne_nil, if_false, List.length_singleton]
      exact ih hs' (by omega) (by rw [List.length_append, hwritten, List.length_singleton])

/-- More fuel changes nothing. -/
theorem copyFile_mono {slices : List SliceRef} {n : Nat} {r : Except CoreError Bytes} :
    ∀ (fuel more : Nat) {s : CachedSlabStore} {pos : Nat} {written : Bytes},
      copyFile H z slices n fuel s pos written = some r →
      copyFile H z slices n (fuel + more) s pos written = some r := by
  intro fuel more
  induction fuel with
  | zero =>
      intro s pos written h
      cases h
  | succ fuel ih =>
      intro s pos written h
      rw [Nat.succ_add, copyFile]
      rw [copyFile] at h
      split at h
      · cases h
      · exact h
      · next mid got hfill =>
          by_cases hnil : got = []
          · rw [if_pos hnil] at h ⊢
            exact h
          · rw [if_neg hnil] at h ⊢
            exact ih h

theorem copyFile_unique {slices : List SliceRef} {n fuel fuel' : Nat} {pos : Nat}
    {written out out' : Bytes} (h : copyFile H z slices n fuel s pos written = some (.ok out))
    (h' : copyFile H z slices n fuel' s pos written = some (.ok out')) : out = out' := by
  have hmore := copyFile_mono fuel fuel' h
  rw [Nat.add_comm, copyFile_mono fuel' fuel h'] at hmore
  cases hmore
  rfl

/-! ### Agreement -/

theorem extracts_sequential {slices : List SliceRef} {n : Nat} {out : Bytes} :
    Extracts H z s slices false n out ↔
      ∃ fuel, copyFile H z slices n fuel s 0 [] = some (.ok out) := by
  rw [Extracts, if_neg (by simp)]

theorem extracts_parallel {slices : List SliceRef} {n : Nat} {out : Bytes}
    (hmany : 1 < slices.length) :
    Extracts H z s slices true n out ↔ ParallelOutput H z s slices out := by
  rw [Extracts, if_pos ⟨rfl, hmany⟩]

/-- One slice, or one drop that cannot be decoded, leaves the parallel mode nothing of its own. -/
theorem Sound.modesAgree_of_alone (h : Sound H z store s) {slices : List SliceRef}
    (halone : slices.length ≤ 1 ∨ ¬ Readable (store.plaintextFor z) slices) :
    ModesAgree H z s slices := by
  intro n hn out out' hparallel hwindowed
  by_cases hmany : 1 < slices.length
  · obtain ⟨hread, -⟩ := h.parallelOutput_iff.mp ((extracts_parallel hmany).mp hparallel)
    exact absurd hread (halone.resolve_left (by omega))
  · rw [Extracts, if_neg fun h => hmany h.2] at hparallel
    obtain ⟨fuel, hcopy⟩ := extracts_sequential.mp hwindowed
    obtain ⟨fuel', hcopy'⟩ := hparallel
    exact copyFile_unique hcopy' hcopy

theorem Sound.modesAgree_of_whole (h : Sound H z store s) (hcol : NoCollision H store.frameNames)
    (hexact : store.ExactContainers z) {map : SliceMap}
    (hlt : ∀ slice ∈ map.slices, slice.fileByteEnd < 2 ^ 64)
    (hwhole : WholeDrops (store.plaintextFor z) map.slices) : ModesAgree H z s map.slices := by
  by_cases hmany : 1 < map.slices.length
  · intro n hn out out' hparallel hwindowed
    obtain ⟨fuel, hcopy⟩ := extracts_sequential.mp hwindowed
    obtain ⟨hread, rfl⟩ := h.parallelOutput_iff.mp ((extracts_parallel hmany).mp hparallel)
    exact (Sound.copyFile_whole hcol hexact hn hread hlt hwhole fuel h List.take_zero.symm
      (Nat.zero_le _) hcopy).symm
  · exact h.modesAgree_of_alone (Or.inl (Nat.le_of_not_lt hmany))

/-- What is copied byte by byte ends at the first byte that is not there; as much as all the drops
hold is there only where every drop is as long as its slice. -/
theorem Sound.wholeDrops_of_modesAgree (h : Sound H z store s)
    (hcol : NoCollision H store.frameNames) (hexact : store.ExactContainers z) {map : SliceMap}
    (hlt : ∀ slice ∈ map.slices, slice.fileByteEnd < 2 ^ 64) (hmany : 1 < map.slices.length)
    (hread : Readable (store.plaintextFor z) map.slices) (hagree : ModesAgree H z s map.slices) :
    WholeDrops (store.plaintextFor z) map.slices := by
  have hend : byteAt (store.plaintextFor z) map.slices (2 ^ 64 - 1) = none :=
    byteAt_none map.slices 0 0 (2 ^ 64 - 1) map.contiguous
      (fun slice hin => Nat.le_sub_one_of_lt (hlt slice hin)) (Nat.zero_le _)
  have hstop : ∃ o, byteAt (store.plaintextFor z) map.slices o = none := ⟨_, hend⟩
  obtain ⟨out, hcopy, hlen⟩ := h.copyFile_bytes hcol hexact hread hlt (Nat.find_min' hstop hend)
    (fun o ho => Nat.find_min hstop ho) (Nat.find_spec hstop) (Nat.find hstop)
    (Nat.zero_add _) List.length_nil
  have hboth := hagree 1 Nat.one_pos _ out
    ((extracts_parallel hmany).mpr (h.parallelOutput_iff.mpr ⟨hread, rfl⟩))
    (extracts_sequential.mpr ⟨_, hcopy⟩)
  rw [← hboth] at hlen
  exact (wholeDrops_of_bytes map.slices _ (Nat.le_of_eq hlen)
    (fun o ho => Nat.find_min hstop ho) (Nat.find_spec hstop)).1

/-- **The two modes of an extraction agree for a file of one slice, for one of which the drops
cannot all be decoded, and where every drop is as long as its slice and the seekable drops decode
to as much as was asked for; among stores of such drops they agree nowhere else.** -/
theorem extract_modes_agree_iff : ∀ (H : Hash) (z : Omnizip) (store : SlabStore)
    (entryCapacity byteBudget frameByteBudget maxInlineBytes : Nat) (bs rest : Bytes) (inode : Inode)
    (map : SliceMap), NoCollision H store.frameNames →
    parseInodeWithCeiling maxInlineBytes bs = (.ok inode, rest) →
    inode.contentHandle = .sliceMap map →
    (map.slices.length ≤ 1 ∨ ¬ Readable (store.plaintextFor z) map.slices ∨
        (store.ExactContainers z ∧ WholeDrops (store.plaintextFor z) map.slices) →
      ModesAgree H z (withFrameBudget store entryCapacity byteBudget frameByteBudget) map.slices) ∧
    (store.ExactContainers z →
      ModesAgree H z (withFrameBudget store entryCapacity byteBudget frameByteBudget) map.slices →
      map.slices.length ≤ 1 ∨ ¬ Readable (store.plaintextFor z) map.slices ∨
        WholeDrops (store.plaintextFor z) map.slices) := by
  intro H z store entryCapacity byteBudget frameByteBudget maxInlineBytes bs rest inode map hcol
    hparse hmap
  have hlt := fun s hs => (parseInode_slices_lt hparse hmap s hs).1
  have hs := sound_withFrameBudget H z store entryCapacity byteBudget frameByteBudget
  constructor
  · rintro (hone | hmissing | ⟨hexact, hwhole⟩)
    · exact hs.modesAgree_of_alone (Or.inl hone)
    · exact hs.modesAgree_of_alone (Or.inr hmissing)
    · exact hs.modesAgree_of_whole hcol hexact hlt hwhole
  · intro hexact hagree
    refine or_iff_not_imp_left.mpr fun hmany => or_iff_not_imp_left.mpr fun hread => ?_
    exact hs.wholeDrops_of_modesAgree hcol hexact hlt (Nat.lt_of_not_le hmany)
      (not_not.mp hread) hagree

end CachedSlabStore

namespace Stored

def splitMap : SliceMap :=
  ⟨[⟨0, 2, frameRecord.dropId, 0, 2, by decide⟩, ⟨2, 5, frameRecord.dropId, 0, 3, by decide⟩], rfl⟩

/-- A file of five bytes: two of a drop of three, and all of it. -/
def splitFile : Inode := ⟨1, 0x81A4, 0, 0, 0, 0, 1, none, [], .sliceMap splitMap⟩

def splitFileBytes : Bytes :=
  inodeHeadBytes splitFile ++ leBytes 4 2
    ++ leBytes 8 0 ++ leBytes 8 2 ++ frameRecord.dropId.val ++ leBytes 4 0 ++ leBytes 4 2
    ++ leBytes 8 2 ++ leBytes 8 5 ++ frameRecord.dropId.val ++ leBytes 4 0 ++ leBytes 4 3

def splitStore : CachedSlabStore := CachedSlabStore.withFrameBudget frameStore 8 64 64

end Stored

open LimniFS.Stored

/-- A slice of the first two bytes of a drop: one mode writes the third as well. -/
theorem parallel_mode_writes_whole_drops :
    parseInodeWithCeiling defaultInlineDataMaxBytes splitFileBytes =
        (.ok splitFile, []) ∧
      CachedSlabStore.Extracts digest omnizip splitStore splitMap.slices
        true 8192 [1, 2, 3, 1, 2, 3] ∧
      CachedSlabStore.Extracts digest omnizip splitStore splitMap.slices
        false 8192 [1, 2, 1, 2, 3] ∧
      ¬ CachedSlabStore.ModesAgree digest omnizip splitStore
        splitMap.slices := by
  have hparallel : CachedSlabStore.Extracts digest omnizip splitStore
      splitMap.slices true 8192 [1, 2, 3, 1, 2, 3] := by
    have hs := CachedSlabStore.sound_withFrameBudget digest omnizip frameStore
      8 64 64
    refine (CachedSlabStore.extracts_parallel (by decide)).mpr ?_
    exact hs.parallelOutput_iff.mpr ⟨by unfold Readable; decide +kernel, by decide +kernel⟩
  have hcopied : CachedSlabStore.Extracts digest omnizip splitStore
      splitMap.slices false 8192 [1, 2, 1, 2, 3] :=
    CachedSlabStore.extracts_sequential.mpr ⟨3, by decide +kernel⟩
  refine ⟨by decide +kernel, hparallel, hcopied, fun hagree => ?_⟩
  exact absurd (hagree 8192 (by decide) _ _ hparallel hcopied) (by decide)

theorem extract_modes_agree_iff_split :
    parseInodeWithCeiling defaultInlineDataMaxBytes splitFileBytes =
        (.ok splitFile, []) ∧
      (CachedSlabStore.ModesAgree digest omnizip splitStore
          splitMap.slices ↔
        splitMap.slices.length ≤ 1 ∨
          ¬ Readable (frameStore.plaintextFor omnizip) splitMap.slices ∨
          WholeDrops (frameStore.plaintextFor omnizip) splitMap.slices) := by
  have hfile : parseInodeWithCeiling defaultInlineDataMaxBytes splitFileBytes =
      (.ok splitFile, []) := by
    decide +kernel
  obtain ⟨hagree, hwhole⟩ := CachedSlabStore.extract_modes_agree_iff digest omnizip
    frameStore 8 64 64 defaultInlineDataMaxBytes splitFileBytes [] splitFile
    splitMap (by decide +kernel) hfile rfl
  refine ⟨hfile, hwhole frameStore_exact, fun hcond => hagree ?_⟩
  exact hcond.imp_right (Or.imp_right fun h => ⟨frameStore_exact, h⟩)

end LimniFS
