/-
Windows through a cache and windows without one.

`read_window_into` is one loop over two kinds of sources.  If for every slice a range of its drop is
answered alike by both, so is every window (`fillWindow_same`).  A range is answered alike where no
frames are read, and where they are read from a container of exact frames that both can decode.
-/
import LimniFS.FrontEnds
import LimniFS.RangedGates

namespace LimniFS

open Lib Lib.Parser

/-! ### The same ranges -/

/-- A range of the slice's drop that the cached store answers. -/
def CachedSlabStore.Takes (H : Hash) (z : Omnizip) (s : CachedSlabStore) (dropId : Digest)
    (off want : Nat) (got : Bytes) : Prop :=
  ∃ s' buf k, s.decodedRangeInto H z dropId off (List.replicate want 0)
    = some (s', buf, some (.ok k)) ∧ buf.take k = got

/-- Every range of the slice is answered alike, whatever is cached. -/
def SameRange (H : Hash) (z : Omnizip) (store : SlabStore) (source : SlabSource) (slice : SliceRef) :
    Prop :=
  ∀ s, CachedSlabStore.Sound H z store s → ∀ off want, 0 < want → off + want ≤ slice.span →
    ∀ got, s.Takes H z slice.dropId off want got ↔
      decodedRangeInto source slice.dropId off want = some (.ok got)

section

variable {H : Hash} {z : Omnizip} {store : SlabStore} {source : SlabSource}

/-- **Where the ranges are the same, the windows are.** -/
theorem fillWindow_same {offset n windowEnd : Nat} {out : Bytes} :
    ∀ (slices : List SliceRef) (s : CachedSlabStore) (filled : Bytes),
      CachedSlabStore.Sound H z store s → (∀ slice ∈ slices, SameRange H z store source slice) →
      ((∃ s', CachedSlabStore.fillWindow H z offset n windowEnd slices s filled = some (s', .ok out)) ↔
        fillWindow source offset n windowEnd slices filled = some (.ok out)) := by
  intro slices
  induction slices with
  | nil =>
      intro s filled _ _
      simp [CachedSlabStore.fillWindow, fillWindow]
  | cons slice rest ih =>
      intro s filled hs hsame
      obtain ⟨hslice, hrest⟩ := List.forall_mem_cons.mp hsame
      have hlt := slice.start_lt_end
      rw [CachedSlabStore.fillWindow, fillWindow.eq_2]
      by_cases hskip : slice.fileByteEnd ≤ offset ∨ windowEnd ≤ slice.fileByteStart
      · rw [if_pos hskip, if_pos hskip]
        exact ih s filled hs hrest
      · rw [if_neg hskip, if_neg hskip]
        simp only
        by_cases hwant : min windowEnd slice.fileByteEnd - max offset slice.fileByteStart = 0
        · rw [if_pos hwant, if_pos hwant]
          exact ih s filled hs hrest
        · rw [if_neg hwant, if_neg hwant]
          by_cases hroom : n < filled.length +
              (min windowEnd slice.fileByteEnd - max offset slice.fileByteStart)
          · rw [if_pos hroom, if_pos hroom]
            simp
          · rw [if_neg hroom, if_neg hroom]
            have hrange := hslice s hs (max offset slice.fileByteStart - slice.fileByteStart)
              (min windowEnd slice.fileByteEnd - max offset slice.fileByteStart)
              (Nat.pos_of_ne_zero hwant) (by unfold SliceRef.span; omega)
            generalize hcall : s.decodedRangeInto H z slice.dropId _ _ = answer
            -- what the store does not answer, the source does not answer either
            have hrefused : (∀ s' buf k, answer ≠ some (s', buf, some (.ok k))) →
                ∀ got, decodedRangeInto source slice.dropId
                  (max offset slice.fileByteStart - slice.fileByteStart)
                  (min windowEnd slice.fileByteEnd - max offset slice.fileByteStart)
                    ≠ some (.ok got) := by
              intro hnot got hgot
              obtain ⟨s', buf, k, htook, -⟩ := (hrange got).mpr hgot
              exact hnot s' buf k (hcall.symm.trans htook)
            rcases answer with _ | ⟨mid, buf, _ | e | k⟩
            · have hnone := hrefused fun s' buf k h => by cases h
              rcases hsource : decodedRangeInto source slice.dropId _ _ with _ | e | got
              · simp
              · simp
              · exact absurd hsource (hnone got)
            · have hnone := hrefused fun s' buf k h => by cases h
              rcases hsource : decodedRangeInto source slice.dropId _ _ with _ | e | got
              · simp
              · simp
              · exact absurd hsource (hnone got)
            · have hnone := hrefused fun s' buf k h => by cases h
              rcases hsource : decodedRangeInto source slice.dropId _ _ with _ | e | got
              · simp
              · simp
              · exact absurd hsource (hnone got)
            · rw [(hrange _).mp ⟨mid, buf, k, hcall, rfl⟩]
              simp only
              by_cases hstop : (filled ++ buf.take k).length = n ∨ windowEnd ≤ slice.fileByteEnd
              · rw [if_pos hstop, if_pos hstop]
                simp
              · rw [if_neg hstop, if_neg hstop]
                exact ih mid _ (hs.decodedRangeInto hcall) hrest

/-! ### Drops that are decoded whole -/

theorem decodedRangeInto_of_ok {dropId : Digest} {p : Bytes} (h : source dropId = some (.ok p))
    {off want : Nat} (hwant : want ≠ 0) :
    decodedRangeInto source dropId off want = some (.ok ((p.drop off).take want)) := by
  rw [decodedRangeInto, if_neg hwant, h]
  by_cases hoff : p.length ≤ off
  · simp [hoff]
  · simp only [if_neg hoff, List.take_eq_take_iff, List.length_drop, Option.some.injEq,
      Except.ok.injEq]
    omega

theorem decodedRangeInto_ok {dropId : Digest} {off want : Nat} (hwant : want ≠ 0) {got : Bytes}
    (h : decodedRangeInto source dropId off want = some (.ok got)) :
    ∃ p, source dropId = some (.ok p) := by
  rw [decodedRangeInto, if_neg hwant] at h
  split at h
  · cases h
  · cases h
  · next full hfull => exact ⟨full, hfull⟩

/-- A store that does not decode the drop answers no range that is not read from frames. -/
theorem CachedSlabStore.Sound.takes_whole {s : CachedSlabStore} (hs : Sound H z store s)
    {dropId : Digest} (hseek : store.dropIsSeekable dropId ≠ some true) {off want : Nat}
    (hwant : 0 < want) {got : Bytes} (h : s.Takes H z dropId off want got) :
    ∃ p, store.plaintextFor z dropId = some (.ok p) := by
  obtain ⟨s', buf, k, hcall, -⟩ := h
  have hlooked := hs.lookup dropId
  have hvalue := (hs.cache.get dropId).2
  unfold CachedSlabStore.decodedRangeInto at hcall
  rw [if_neg (by simpa using Nat.ne_of_gt hwant)] at hcall
  simp only at hcall
  generalize s.cache.get dropId = looked at hlooked hvalue hcall
  obtain ⟨cache, hit⟩ := looked
  cases hit with
  | some hit => exact ⟨hit, hvalue hit rfl⟩
  | none =>
      obtain ⟨mid, hfetch, -⟩ := hlooked.decodedFetchInsert dropId
      simp only [hs.inner] at hcall
      rw [if_neg hseek] at hcall
      rw [hs.inner] at hfetch
      rw [hfetch] at hcall
      rcases hplain : store.plaintextFor z dropId with _ | e | p
      · rw [hplain] at hcall
        cases hcall
      · rw [hplain] at hcall
        cases hcall
      · exact ⟨p, rfl⟩

/-- **A drop that is decoded whole is answered alike** if both decode it to the same. -/
theorem sameRange_whole {slice : SliceRef} (hseek : store.dropIsSeekable slice.dropId ≠ some true)
    (hsame : ∀ p, store.plaintextFor z slice.dropId = some (.ok p) ↔
      source slice.dropId = some (.ok p)) : SameRange H z store source slice := by
  intro s hs off want hwant _ got
  have htaken : ∀ p, store.plaintextFor z slice.dropId = some (.ok p) →
      s.Takes H z slice.dropId off want ((p.drop off).take want) := by
    intro p hplain
    obtain ⟨raw, record, hwindow, -⟩ := SlabStore.plaintextFor_ok hplain
    have hnot : store.dropIsSeekable slice.dropId = some false := by
      rw [SlabStore.dropIsSeekable_eq hwindow] at hseek ⊢
      simpa using hseek
    obtain ⟨s', hcopy⟩ := hs.decodedRangeInto_whole hplain (Or.inl hnot) off (List.replicate want 0)
    refine ⟨s', _, _, hcopy, ?_⟩
    rw [CachedSlabStore.copyFrom_take, List.length_replicate]
  constructor
  · intro htook
    obtain ⟨p, hplain⟩ := hs.takes_whole hseek hwant htook
    obtain ⟨s', buf, k, hcall, rfl⟩ := htook
    obtain ⟨s'', buf', k', hcall', hgot⟩ := htaken p hplain
    rw [hcall] at hcall'
    cases hcall'
    rw [decodedRangeInto_of_ok ((hsame p).mp hplain) (Nat.ne_of_gt hwant), hgot]
  · intro hgot
    obtain ⟨p, hp⟩ := decodedRangeInto_ok (Nat.ne_of_gt hwant) hgot
    rw [decodedRangeInto_of_ok hp (Nat.ne_of_gt hwant)] at hgot
    cases hgot
    exact htaken p ((hsame p).mpr hp)

/-- **A container of exact frames is answered alike**, as far as it reaches. -/
theorem sameRange_frames {slice : SliceRef} (hcol : NoCollision H store.frameNames) {raw : Bytes}
    {record : DropRecord} {footer : SeekFooter} {plains : List Bytes}
    (hcontainer : CachedSlabStore.Container store slice.dropId raw record footer)
    (hframes : FramesDecode z record.representation.codec footer.uncompLens footer.compLens raw plains)
    (hlens : plains.map List.length = footer.uncompLens)
    (hseek : store.dropIsSeekable slice.dropId = some true)
    (hplain : store.plaintextFor z slice.dropId = some (.ok plains.flatten))
    (hsource : source slice.dropId = some (.ok plains.flatten))
    (hspan : slice.span ≤ plains.flatten.length) (hfit : plains.flatten.length < 2 ^ 64) :
    SameRange H z store source slice := by
  intro s hs off want hwant hend got
  have hne : List.replicate want (0 : UInt8) ≠ [] := by simpa using Nat.ne_of_gt hwant
  obtain ⟨s', hcopy⟩ := hs.decodedRangeInto_frames hcol hcontainer hframes hlens hseek hplain
    hne (show off ≤ plains.flatten.length by omega) (by rw [List.length_replicate]; omega)
  have htake := CachedSlabStore.copyFrom_take plains.flatten off (List.replicate want 0)
  rw [List.length_replicate] at htake
  rw [decodedRangeInto_of_ok hsource (Nat.ne_of_gt hwant)]
  constructor
  · rintro ⟨s'', buf, k, hcall, rfl⟩
    rw [hcopy] at hcall
    cases hcall
    rw [htake]
  · intro hgot
    cases hgot
    exact ⟨s', _, _, hcopy, htake⟩

end

end LimniFS
