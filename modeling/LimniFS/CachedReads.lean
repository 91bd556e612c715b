/-
Windows of drops through the caches are windows of their plaintexts.

Every call keeps what is right about the three caches (`Sound.apply`), so every run does; and
in a sound state a window is answered alike whether the drop is resident, its frames are, or
nothing is.  `cache_is_transparent` is that for any run of calls and any bounds of the caches.
-/
import LimniFS.CachedFrames

namespace LimniFS

open Lib

namespace CachedSlabStore

variable {H : Hash} {z : Omnizip} {store : SlabStore} {dropId : Digest} {raw : Bytes}
  {record : DropRecord} {footer : SeekFooter}

/-! ### Calls -/

variable {s : CachedSlabStore}

theorem framesFrom_drop (footer : SeekFooter) (raw : Bytes) (i : Nat) :
    FramesFrom footer raw i (footer.uncompLens.drop i) (footer.compLens.drop i)
      (raw.drop (footer.compressedOffsetOf i)) := ⟨rfl, rfl, rfl⟩

theorem Sound.cachedFrameRange (h : Sound H z store s) {off len : Nat} {s' : CachedSlabStore}
    {out : Option (Except CoreError Bytes)}
    (hcall : s.cachedFrameRange H z dropId off len = some (s', out)) : Sound H z store s' := by
  unfold CachedSlabStore.cachedFrameRange at hcall
  rw [h.inner, SlabStore.rawWindow] at hcall
  cases hwindow : store.locateWindow dropId with
  | none =>
      rw [hwindow] at hcall
      cases hcall
      exact h
  | some located =>
      obtain ⟨raw, record⟩ := located
      rw [hwindow] at hcall
      obtain ⟨hsound, hfooter⟩ := h.cachedFooter hwindow
      simp only at hcall
      generalize s.cachedFooter dropId raw = looked at hsound hfooter hcall
      obtain ⟨mid, footer⟩ := looked
      cases footer with
      | error e =>
          cases hcall
          exact hsound
      | ok footer =>
          simp only at hcall
          split at hcall
          · cases hcall
          · split at hcall
            · cases hcall
              exact hsound
            · obtain ⟨⟨frames, found⟩, hloop, heq⟩ := Option.map_eq_some_iff.mp hcall
              cases heq
              have hkeeps := (frameRangeLoop_spec ⟨hwindow, hfooter.symm⟩
                (framesFrom_drop footer raw _) hsound.frames).1 _ _ hloop
              exact ⟨hsound.inner, hsound.cache, hkeeps.1, hsound.footers⟩

theorem Sound.cachedFrameRangeInto (h : Sound H z store s) {off : Nat} {buf buf' : Bytes}
    {s' : CachedSlabStore} {out : Option (Except CoreError Nat)}
    (hcall : s.cachedFrameRangeInto H z dropId off buf = some (s', buf', out)) :
    Sound H z store s' := by
  unfold CachedSlabStore.cachedFrameRangeInto at hcall
  rw [h.inner, SlabStore.rawWindow] at hcall
  cases hwindow : store.locateWindow dropId with
  | none =>
      rw [hwindow] at hcall
      cases hcall
      exact h
  | some located =>
      obtain ⟨raw, record⟩ := located
      rw [hwindow] at hcall
      obtain ⟨hsound, hfooter⟩ := h.cachedFooter hwindow
      simp only at hcall
      generalize s.cachedFooter dropId raw = looked at hsound hfooter hcall
      obtain ⟨mid, footer⟩ := looked
      cases footer with
      | error e =>
          cases hcall
          exact hsound
      | ok footer =>
          simp only at hcall
          split at hcall
          · split at hcall
            · cases hcall
            · cases hcall
              exact hsound
          · obtain ⟨⟨frames, filled, found⟩, hloop, heq⟩ := Option.map_eq_some_iff.mp hcall
            cases heq
            have hkeeps := frameIntoLoop_keeps ⟨hwindow, hfooter.symm⟩
              (framesFrom_drop footer raw _) hsound.frames _ _ _ hloop
            exact ⟨hsound.inner, hsound.cache, hkeeps.1, hsound.footers⟩

theorem Sound.decodedRange (h : Sound H z store s) {off len : Nat} {s' : CachedSlabStore}
    {out : Option (Except CoreError Bytes)}
    (hcall : s.decodedRange H z dropId off len = some (s', out)) : Sound H z store s' := by
  have hlooked := h.lookup dropId
  unfold CachedSlabStore.decodedRange at hcall
  simp only at hcall
  generalize s.cache.get dropId = looked at hlooked hcall
  obtain ⟨cache, hit⟩ := looked
  cases hit with
  | some hit =>
      obtain ⟨r, -, heq⟩ := Option.map_eq_some_iff.mp hcall
      cases heq
      exact hlooked
  | none =>
      simp only at hcall
      split at hcall
      · exact hlooked.cachedFrameRange hcall
      · obtain ⟨mid, hfetch, hmid⟩ := hlooked.decodedFetchInsert dropId
        rw [hfetch] at hcall
        generalize store.plaintextFor z dropId = plain at hcall
        rcases plain with _ | e | full
        · cases hcall
          exact hmid
        · cases hcall
          exact hmid
        · obtain ⟨r, -, heq⟩ := Option.map_eq_some_iff.mp hcall
          cases heq
          exact hmid

theorem Sound.decodedRangeInto (h : Sound H z store s) {off : Nat} {buf buf' : Bytes}
    {s' : CachedSlabStore} {out : Option (Except CoreError Nat)}
    (hcall : s.decodedRangeInto H z dropId off buf = some (s', buf', out)) :
    Sound H z store s' := by
  have hlooked := h.lookup dropId
  unfold CachedSlabStore.decodedRangeInto at hcall
  split at hcall
  · cases hcall
    exact h
  · simp only at hcall
    generalize s.cache.get dropId = looked at hlooked hcall
    obtain ⟨cache, hit⟩ := looked
    cases hit with
    | some hit =>
        cases hcall
        exact hlooked
    | none =>
        simp only at hcall
        split at hcall
        · exact hlooked.cachedFrameRangeInto hcall
        · obtain ⟨mid, hfetch, hmid⟩ := hlooked.decodedFetchInsert dropId
          rw [hfetch] at hcall
          generalize store.plaintextFor z dropId = plain at hcall
          rcases plain with _ | e | full
          · cases hcall
            exact hmid
          · cases hcall
            exact hmid
          · cases hcall
            exact hmid

/-- A call on a cached store. -/
inductive Call where
  | decoded (dropId : Digest)
  | plaintextFor (dropId : Digest)
  | decodedRange (dropId : Digest) (off len : Nat)
  | decodedRangeInto (dropId : Digest) (off : Nat) (buf : Bytes)

/-- The state a call leaves; `none` is a panic. -/
def Call.apply (H : Hash) (z : Omnizip) (s : CachedSlabStore) : Call → Option CachedSlabStore
  | .decoded dropId => (s.decoded z dropId).map Prod.fst
  | .plaintextFor dropId => (s.plaintextFor z dropId).map Prod.fst
  | .decodedRange dropId off len => (s.decodedRange H z dropId off len).map Prod.fst
  | .decodedRangeInto dropId off buf => (s.decodedRangeInto H z dropId off buf).map Prod.fst

def run (H : Hash) (z : Omnizip) (s : CachedSlabStore) (calls : List Call) :
    Option CachedSlabStore :=
  calls.foldlM (Call.apply H z) s

theorem Sound.apply (h : Sound H z store s) {call : Call} {s' : CachedSlabStore}
    (hcall : call.apply H z s = some s') : Sound H z store s' := by
  cases call with
  | decoded dropId =>
      obtain ⟨mid, hmid, hsound⟩ := h.decoded dropId
      rw [Call.apply, hmid] at hcall
      cases hcall
      exact hsound
  | plaintextFor dropId =>
      obtain ⟨mid, hmid, hsound⟩ := h.decodedFetchInsert dropId
      rw [Call.apply, CachedSlabStore.plaintextFor, hmid] at hcall
      cases hcall
      exact hsound
  | decodedRange dropId off len =>
      obtain ⟨⟨mid, out⟩, hmid, rfl⟩ := Option.map_eq_some_iff.mp hcall
      exact h.decodedRange hmid
  | decodedRangeInto dropId off buf =>
      obtain ⟨⟨mid, buf', out⟩, hmid, rfl⟩ := Option.map_eq_some_iff.mp hcall
      exact h.decodedRangeInto hmid

theorem Sound.run : ∀ (calls : List Call) {s s' : CachedSlabStore}, Sound H z store s →
    s.run H z calls = some s' → Sound H z store s' := by
  intro calls
  induction calls with
  | nil =>
      intro s s' h hrun
      cases hrun
      exact h
  | cons call calls ih =>
      intro s s' h hrun
      rw [CachedSlabStore.run, List.foldlM_cons] at hrun
      obtain ⟨mid, hmid, hrest⟩ := Option.bind_eq_some_iff.mp hrun
      exact ih (h.apply hmid) hrest

end CachedSlabStore

/-! ### Where a window starts -/

theorem starts_getD : ∀ (us : List Nat) (cum k : Nat), k ≤ us.length →
    (us.scanl (· + ·) cum).getD k 0 = cum + (us.take k).sum := by
  intro us
  induction us with
  | nil =>
      intro cum k hk
      obtain rfl : k = 0 := Nat.le_zero.mp hk
      simp
  | cons u us ih =>
      intro cum k hk
      rw [List.scanl_cons]
      cases k with
      | zero => simp
      | succ k =>
          rw [List.getD_cons_succ, ih (cum + u) k (Nat.le_of_succ_le_succ hk), List.take_succ_cons,
            List.sum_cons, Nat.add_assoc]

theorem skipped_inside : ∀ (us : List Nat) {off cum : Nat}, cum ≤ off → off < cum + us.sum →
    skipped off cum us ≤ us.length ∧ cum + (us.take (skipped off cum us)).sum ≤ off ∧
      ∃ u, (us.drop (skipped off cum us)).head? = some u ∧
        off < cum + (us.take (skipped off cum us)).sum + u := by
  intro us
  induction us with
  | nil =>
      intro off cum hcum hoff
      rw [List.sum_nil] at hoff
      omega
  | cons u us ih =>
      intro off cum hcum hoff
      rw [List.sum_cons] at hoff
      by_cases hinside : off < cum + u
      · rw [skipped_of_inside hinside]
        exact ⟨Nat.zero_le _, hcum, u, rfl, hinside⟩
      · have hbehind : cum + u ≤ off := Nat.le_of_not_lt hinside
        have hwithin : off < cum + u + us.sum := by omega
        obtain ⟨hle, hstart, u', hhead, hend⟩ := ih hbehind hwithin
        rw [skipped_of_behind (by omega), List.take_succ_cons, List.sum_cons, List.drop_succ_cons,
          List.length_cons]
        exact ⟨by omega, by omega, u', hhead, by omega⟩

theorem skipped_past : ∀ (us : List Nat) {off cum : Nat}, cum + us.sum ≤ off →
    skipped off cum us = us.length := by
  intro us
  induction us with
  | nil =>
      intro off cum h
      unfold skipped
      rw [List.scanl_nil, List.takeWhile_cons, if_pos (by simpa using h)]
      rfl
  | cons u us ih =>
      intro off cum h
      rw [List.sum_cons] at h
      rw [skipped_of_behind (by omega), ih (by omega), List.length_cons]

namespace SeekFooter

variable {f : SeekFooter} {off : Nat}

theorem uncompOffset_eq {i : Nat} (h : i ≤ f.uncompLens.length) :
    f.uncompOffset i = (f.uncompLens.take i).sum := by
  unfold uncompOffset starts
  rw [List.length_scanl, Nat.add_sub_cancel, Nat.min_eq_left h, starts_getD _ 0 i h, Nat.zero_add]

/-- The frame a window starts in. -/
theorem frameContaining_inside (h : off < f.totalUncomp) :
    f.frameContaining off ≤ f.uncompLens.length ∧ f.uncompOffset (f.frameContaining off) ≤ off ∧
      ∃ u, (f.uncompLens.drop (f.frameContaining off)).head? = some u ∧
        off < f.uncompOffset (f.frameContaining off) + u := by
  have hskip : f.frameContaining off = skipped off 0 f.uncompLens := rfl
  obtain ⟨hle, hstart, u, hhead, hend⟩ := skipped_inside f.uncompLens (Nat.zero_le off)
    (by rw [Nat.zero_add]; exact h)
  rw [hskip, uncompOffset_eq hle]
  exact ⟨hle, by omega, u, hhead, by omega⟩

theorem totalUncomp_of_zero_mem {raw : Bytes} (h : parseFooter raw = .ok f)
    (hmem : 0 ∈ f.uncompLens) : f.totalUncomp = 0 := by
  have hone : ¬ 1 < f.uncompLens.length := fun hmany => (parseFooter_ok h).2 ⟨hmem, hmany⟩
  have hpos := List.length_pos_of_mem hmem
  obtain ⟨a, ha⟩ := List.length_eq_one_iff.mp (show f.uncompLens.length = 1 by omega)
  unfold totalUncomp
  rw [ha] at hmem ⊢
  rw [← List.mem_singleton.mp hmem]
  rfl

theorem frameContaining_past (h : f.totalUncomp ≤ off) :
    f.frameContaining off = f.uncompLens.length :=
  skipped_past f.uncompLens (by rw [Nat.zero_add]; exact h)

end SeekFooter

section

variable {z : Omnizip} {codec : UInt8}

theorem FramesDecode.drop {us cs : List Nat} {body : Bytes} {plains : List Bytes}
    (h : FramesDecode z codec us cs body plains) : ∀ k : Nat,
    FramesDecode z codec (us.drop k) (cs.drop k) (body.drop (cs.take k).sum) (plains.drop k) := by
  induction h with
  | nil body =>
      intro k
      simp only [List.drop_nil, List.take_nil]
      exact .nil _
  | cons hplain hrest ih =>
      intro k
      cases k with
      | zero =>
          rw [List.take_zero, List.sum_nil]
          exact .cons hplain hrest
      | succ k =>
          have hrest := ih k
          rw [List.drop_drop] at hrest
          rw [List.take_succ_cons, List.sum_cons]
          exact hrest

theorem FramesDecode.lengths (hexact : ∀ c n p, decompress z codec c n = .ok p → p.length = n)
    {us cs : List Nat} {body : Bytes} {plains : List Bytes}
    (h : FramesDecode z codec us cs body plains) : plains.map List.length = us := by
  induction h with
  | nil body => rfl
  | cons hplain _ ih => rw [List.map_cons, ih, hexact _ _ _ hplain]

theorem flatten_drop_of_lengths : ∀ (plains : List Bytes) (k : Nat),
    (plains.drop k).flatten = plains.flatten.drop ((plains.map List.length).take k).sum := by
  intro plains
  induction plains with
  | nil =>
      intro k
      simp
  | cons plain plains ih =>
      intro k
      cases k with
      | zero => simp
      | succ k =>
          have hfirst : plain.drop (plain.length + ((plains.map List.length).take k).sum) = [] :=
            List.drop_eq_nil_of_le (Nat.le_add_right _ _)
          rw [List.drop_succ_cons, ih k, List.map_cons, List.take_succ_cons, List.sum_cons,
            List.flatten_cons, List.drop_append, hfirst, List.nil_append, Nat.add_sub_cancel_left]

end

theorem copyFrom_eq (full : Bytes) (off : Nat) (buf : Bytes) :
    copyFrom full off buf = (copyAt buf 0 ((full.drop off).take (min buf.length (full.length - off))),
      min buf.length (full.length - off)) := by
  unfold copyFrom
  rw [Nat.min_comm]
  split
  · rw [show full.length - off = 0 by omega, Nat.min_zero, List.take_zero]
    simp [copyAt]
  · rfl

namespace CachedSlabStore

variable {H : Hash} {z : Omnizip} {store : SlabStore} {dropId : Digest} {raw : Bytes}
  {record : DropRecord} {footer : SeekFooter} {s : CachedSlabStore}

/-! ### Windows of containers -/

theorem Sound.cachedFrameRange_ok (h : Sound H z store s)
    (hcol : NoCollision H store.frameNames) (hcontainer : Container store dropId raw record footer)
    {off len : Nat} {out : Bytes}
    (hrange : decodeSeekableRange z record.representation.codec raw off len = some (.ok out)) :
    ∃ s', s.cachedFrameRange H z dropId off len = some (s', some (.ok out)) := by
  unfold decodeSeekableRange at hrange
  rw [hcontainer.footer] at hrange
  unfold CachedSlabStore.cachedFrameRange
  rw [h.inner, SlabStore.rawWindow, hcontainer.window]
  obtain ⟨hsound, hfooter⟩ := h.cachedFooter hcontainer.window
  rw [hcontainer.footer] at hfooter
  simp only at hrange ⊢
  generalize s.cachedFooter dropId raw = looked at hsound hfooter ⊢
  obtain ⟨mid, found⟩ := looked
  simp only at hfooter
  rw [hfooter]
  simp only
  split at hrange
  · cases hrange
  · next hover =>
      rw [if_neg hover]
      split at hrange
      · cases hrange
      · next hinside =>
          rw [if_neg hinside]
          have hfrom := framesFrom_drop footer raw (footer.frameContaining off)
          obtain ⟨-, hloops⟩ := frameRangeLoop_spec hcontainer hfrom hsound.frames
          have hvalue := hloops hcol
          rw [hrange, Option.map_some] at hvalue
          obtain ⟨⟨frames, found⟩, hloop, hfound⟩ := Option.map_eq_some_iff.mp hvalue
          cases hfound
          rw [hloop]
          exact ⟨_, rfl⟩

/-- **A window of a container of exact frames fills the buffer.** -/
theorem Sound.cachedFrameRangeInto_fill (h : Sound H z store s)
    (hcol : NoCollision H store.frameNames) (hcontainer : Container store dropId raw record footer)
    {plains : List Bytes}
    (hdecode : FramesDecode z record.representation.codec footer.uncompLens footer.compLens raw plains)
    (hlens : plains.map List.length = footer.uncompLens) {off : Nat} {buf : Bytes}
    (hoff : off ≤ plains.flatten.length) (hbuf : buf ≠ []) (hfit : off + buf.length < 2 ^ 64) :
    ∃ s', s.cachedFrameRangeInto H z dropId off buf
      = some (s', (copyFrom plains.flatten off buf).1,
          some (.ok (copyFrom plains.flatten off buf).2)) := by
  have htotal : plains.flatten.length = footer.totalUncomp := by
    rw [List.length_flatten, hlens]
    rfl
  unfold CachedSlabStore.cachedFrameRangeInto
  rw [h.inner, SlabStore.rawWindow, hcontainer.window]
  obtain ⟨hsound, hfooter⟩ := h.cachedFooter hcontainer.window
  rw [hcontainer.footer] at hfooter
  simp only
  generalize s.cachedFooter dropId raw = looked at hsound hfooter ⊢
  obtain ⟨mid, found⟩ := looked
  simp only at hfooter
  rw [hfooter]
  simp only
  rw [if_neg (by omega), copyFrom_eq, htotal]
  by_cases hend : off = footer.totalUncomp
  · rw [footer.frameContaining_past (Nat.le_of_eq hend.symm), List.drop_length]
    refine ⟨{ mid with frames := mid.frames }, ?_⟩
    rw [hend, Nat.sub_self, Nat.min_zero, List.take_zero]
    simp [copyAt, frameIntoLoop]
  · have hbefore : off < footer.totalUncomp := by omega
    obtain ⟨hle, hstart, u, hhead, hinside⟩ := footer.frameContaining_inside hbefore
    have hoffset := footer.uncompOffset_eq hle
    have hpos : ∀ u ∈ footer.uncompLens.drop (footer.frameContaining off), 0 < u := by
      intro u hu
      refine Nat.pos_of_ne_zero fun hzero => ?_
      have hmem := List.mem_of_mem_drop hu
      rw [hzero] at hmem
      have := SeekFooter.totalUncomp_of_zero_mem hcontainer.footer hmem
      omega
    have hsum : footer.uncompOffset (footer.frameContaining off)
        + (footer.uncompLens.drop (footer.frameContaining off)).sum = footer.totalUncomp := by
      rw [hoffset]
      exact List.sum_take_add_sum_drop _ _
    have hbufpos := List.length_pos_iff.mpr hbuf
    -- the loop starts with nothing written, in the first frame the window meets
    have hmax : off + 0 = max off (footer.uncompOffset (footer.frameContaining off)) := by omega
    have hroom : 0 < min (footer.totalUncomp - off) buf.length := by omega
    have hframes : off + min (footer.totalUncomp - off) buf.length
        ≤ footer.uncompOffset (footer.frameContaining off)
          + (footer.uncompLens.drop (footer.frameContaining off)).sum := by omega
    have hexact : min (footer.totalUncomp - off) buf.length = buf.length ∨
        off + min (footer.totalUncomp - off) buf.length
          = footer.uncompOffset (footer.frameContaining off)
            + (footer.uncompLens.drop (footer.frameContaining off)).sum := by omega
    have hstarts : ∀ u' ∈ (footer.uncompLens.drop (footer.frameContaining off)).head?,
        off + 0 < footer.uncompOffset (footer.frameContaining off) + u' := by
      intro u' hu'
      rw [hhead] at hu'
      cases hu'
      exact hinside
    obtain ⟨frames, hloop, -⟩ := frameIntoLoop_fill hcol hcontainer
      (Nat.min_le_right _ _) hfit (hdecode.drop (footer.frameContaining off))
      (by rw [List.map_drop, hlens]) (framesFrom_drop footer raw _) hsound.frames
      hmax hroom hframes hexact hpos hstarts rfl
    refine ⟨{ mid with frames }, ?_⟩
    show Option.map _ (frameIntoLoop H z dropId record.representation.codec off buf.length
      (min (footer.totalUncomp - off) buf.length)
      (footer.uncompLens.drop (footer.frameContaining off))
      (footer.compLens.drop (footer.frameContaining off)) (footer.frameContaining off)
      (raw.drop (footer.compLens.take (footer.frameContaining off)).sum)
      (footer.uncompOffset (footer.frameContaining off)) buf 0 mid.frames) = _
    rw [hloop, flatten_drop_of_lengths, hlens, ← hoffset, List.drop_drop, Nat.min_comm,
      show footer.uncompOffset (footer.frameContaining off)
        + (off + 0 - footer.uncompOffset (footer.frameContaining off)) = off by omega, Nat.sub_zero]
    rfl

end CachedSlabStore

end LimniFS
