/-
The loops over the cached frames of a seekable drop.

A frame's key is a hash of its drop's id and its number.  As long as no two of these hashes
collide, what is under a key is that frame, and the loop over cached frames answers what the
loop over the frames themselves answers (`frameRangeLoop_spec`); where every frame decodes to
as many bytes as its row says, the loop that writes into a buffer fills it
(`frameIntoLoop_fill`).  Whatever collides, nothing wrong enters the cache.
-/
import LimniFS.MerkleRoot
import LimniFS.SlabCache

namespace LimniFS

open Lib

/-! ### Frame keys -/

/-- What the keys of the frames of a store are hashes of. -/
def SlabStore.frameNames (store : SlabStore) : List Bytes :=
  store.entries.flatMap fun (_, record) =>
    match store.locateWindow record.dropId with
    | none => []
    | some (raw, _) =>
      match parseFooter raw with
      | .error _ => []
      | .ok footer =>
        (List.range footer.uncompLens.length).map fun i => record.dropId.val ++ leBytes 4 i

theorem footerRows_length : ∀ (n : Nat) (l : Bytes), (footerRows n l).length = n := by
  intro n
  induction n with
  | zero => intro l; rfl
  | succ n ih =>
      intro l
      rw [footerRows, List.length_cons, ih]

theorem leNat_take_lt (l : Bytes) : leNat (l.take 4) < u32Limit := by
  have h := leNat_lt (l.take 4)
  have hlen : (l.take 4).length ≤ 4 := by
    rw [List.length_take]
    exact Nat.min_le_left _ _
  exact Nat.lt_of_lt_of_le h (Nat.pow_le_pow_right (by decide) hlen)

theorem footerRows_lt : ∀ (n : Nat) (l : Bytes), ∀ row ∈ footerRows n l,
    row.1 < u32Limit ∧ row.2 < u32Limit := by
  intro n
  induction n with
  | zero => intro l row h; cases h
  | succ n ih =>
      intro l row h
      rcases List.mem_cons.mp h with rfl | h
      · exact ⟨leNat_take_lt _, leNat_take_lt _⟩
      · exact ih _ row h

theorem parseFooter_rows {container : Bytes} {footer : SeekFooter}
    (h : parseFooter container = .ok footer) :
    footer.uncompLens.length < u32Limit ∧ footer.uncompLens.length * 8 ≤ container.length ∧
      ∀ u ∈ footer.uncompLens, u < u32Limit := by
  unfold parseFooter at h
  simp only at h
  split at h
  · cases h
  · split at h
    · cases h
    · split at h
      · cases h
      · split at h
        · cases h
        · next hcount =>
            split at h
            · cases h
            · split at h
              · cases h
              · cases h
                simp only [List.length_map, footerRows_length]
                refine ⟨leNat_take_lt _, by omega, ?_⟩
                intro u hu
                obtain ⟨row, hrow, rfl⟩ := List.mem_map.mp hu
                exact (footerRows_lt _ _ row hrow).1

theorem SlabStore.locateWindow_some {store : SlabStore} {dropId : Digest} {raw : Bytes}
    {record : DropRecord} (h : store.locateWindow dropId = some (raw, record)) :
    ∃ slab, store.find dropId = some (slab, record) ∧ slab.window record = some raw := by
  unfold locateWindow at h
  cases hfind : store.find dropId with
  | none =>
      rw [hfind] at h
      cases h
  | some entry =>
      obtain ⟨slab, record'⟩ := entry
      rw [hfind] at h
      simp only [Option.map_eq_some_iff] at h
      obtain ⟨raw', hraw, heq⟩ := h
      cases heq
      exact ⟨slab, rfl, hraw⟩

namespace CachedSlabStore

variable {H : Hash} {z : Omnizip} {store : SlabStore} {dropId : Digest} {raw : Bytes}
  {record : DropRecord} {footer : SeekFooter}

theorem mem_frameNames (hcontainer : Container store dropId raw record footer) {i u : Nat}
    (hu : footer.uncompLens[i]? = some u) : dropId.val ++ leBytes 4 i ∈ store.frameNames := by
  obtain ⟨slab, hfind, -⟩ := SlabStore.locateWindow_some hcontainer.window
  obtain ⟨-, -, hid⟩ := SlabStore.find_some hfind
  have hentry : (slab, record) ∈ store.entries :=
    List.mem_reverse.mp (List.mem_of_find?_eq_some hfind)
  refine List.mem_flatMap.mpr ⟨(slab, record), hentry, ?_⟩
  simp only [hid, hcontainer.window, hcontainer.footer, List.mem_map, List.mem_range]
  exact ⟨i, (List.getElem?_eq_some_iff.mp hu).1, rfl⟩

/-- **Without a collision, what is under a frame's key is that frame.** -/
theorem decodes_of_storedFrame (hcol : NoCollision H store.frameNames)
    (hcontainer : Container store dropId raw record footer) {i u c : Nat}
    (hu : footer.uncompLens[i]? = some u) (hc : footer.compLens[i]? = some c) {plain : Bytes}
    (h : StoredFrame H z store (frameKey H dropId i) plain) :
    decompress z record.representation.codec (frameBytes footer raw i c) u = .ok plain := by
  obtain ⟨dropId', raw', record', footer', i', u', c', hwindow', hfooter', hu', hc', hkey, hplain⟩ := h
  have hname := hcol _ (mem_frameNames hcontainer hu) _
    (mem_frameNames ⟨hwindow', hfooter'⟩ hu') hkey
  have hlen : dropId.val.length = dropId'.val.length := dropId.2.trans dropId'.2.symm
  obtain ⟨hid, hindex⟩ := List.append_inj hname hlen
  obtain rfl : dropId = dropId' := Subtype.ext hid
  rw [hcontainer.window] at hwindow'
  cases hwindow'
  rw [hcontainer.footer] at hfooter'
  cases hfooter'
  have hcount := (parseFooter_rows hcontainer.footer).1
  have hi : i < 256 ^ 4 := Nat.lt_trans (List.getElem?_eq_some_iff.mp hu).1 hcount
  have hi' : i' < 256 ^ 4 := Nat.lt_trans (List.getElem?_eq_some_iff.mp hu').1 hcount
  obtain rfl : i = i' := by rw [← leNat_leBytes hi, hindex, leNat_leBytes hi']
  rw [hu] at hu'
  rw [hc] at hc'
  cases hu'
  cases hc'
  exact hplain

/-! ### The loop that collects -/

/-- Every frame from the `i`-th on decodes. -/
def AllDecode (z : Omnizip) (record : DropRecord) (footer : SeekFooter) (raw : Bytes) (i : Nat) :
    Prop :=
  ∀ j u c, i ≤ j → footer.uncompLens[j]? = some u → footer.compLens[j]? = some c →
    ∃ plain, decompress z record.representation.codec (frameBytes footer raw j c) u = .ok plain

theorem AllDecode.tail {i : Nat} (h : AllDecode z record footer raw i) :
    AllDecode z record footer raw (i + 1) :=
  fun j u c hj hu hc => h j u c (by omega) hu hc

/-- **The loop over cached frames**: nothing wrong enters the cache, no frame is missing where all
of them decode, and without a collision the answer is the one of the loop over the frames. -/
theorem frameRangeLoop_spec (hcontainer : Container store dropId raw record footer)
    {off len : Nat} : ∀ {us cs : List Nat} {i : Nat} {body : Bytes} {cum : Nat}
    {frames : SieveCache}, FramesFrom footer raw i us cs body →
    frames.Keeps (StoredFrame H z store) →
    (∀ frames' out, frameRangeLoop H z dropId record.representation.codec off len us cs i body cum
        frames = some (frames', out) →
      frames'.Keeps (StoredFrame H z store) ∧
        (AllDecode z record footer raw i → out.isSome)) ∧
    (NoCollision H store.frameNames →
      (frameRangeLoop H z dropId record.representation.codec off len us cs i body cum frames).map
          Prod.snd
        = (rangeFrames z record.representation.codec off len us cs body cum).map
          Except.toOption) := by
  intro us
  induction us with
  | nil =>
      intro cs i body cum frames _ hframes
      unfold frameRangeLoop rangeFrames
      refine ⟨?_, fun _ => rfl⟩
      intro frames' out h
      cases h
      exact ⟨hframes, fun _ => rfl⟩
  | cons u us ih =>
      intro cs i body cum frames hfrom hframes
      cases cs with
      | nil =>
          unfold frameRangeLoop rangeFrames
          refine ⟨?_, fun _ => rfl⟩
          intro frames' out h
          cases h
          exact ⟨hframes, fun _ => rfl⟩
      | cons c cs =>
          obtain ⟨hu, hc, hbytes, hnext⟩ := hfrom.cons
          obtain ⟨mid, out, hframe, hmid, hmissing, hstored⟩ :=
            cachedFrame_spec (H := H) (z := z) hcontainer hfrom hframes
          unfold frameRangeLoop rangeFrames
          rw [hframe]
          cases out with
          | none =>
              obtain ⟨e, herror⟩ := hmissing rfl
              rw [hbytes, herror]
              refine ⟨?_, fun _ => rfl⟩
              intro frames' out h
              cases h
              refine ⟨hmid, fun hall => ?_⟩
              obtain ⟨plain, hplain⟩ := hall i u c (Nat.le_refl i) hu hc
              rw [herror] at hplain
              cases hplain
          | some decoded =>
              obtain ⟨hkeeps, hvalue⟩ := @ih cs (i + 1) (body.drop c) (cum + u) mid hnext hmid
              simp only
              refine ⟨?_, fun hcol => ?_⟩
              · intro frames' out h
                split at h
                · cases h
                · split at h
                  · cases h
                    exact ⟨hmid, fun _ => rfl⟩
                  · split at h
                    · next frames'' rest hloop =>
                        cases h
                        exact ⟨(hkeeps _ _ hloop).1, fun _ => rfl⟩
                    · obtain ⟨hkept, hsome⟩ := hkeeps _ _ h
                      exact ⟨hkept, fun hall => hsome hall.tail⟩
              · have hplain := decodes_of_storedFrame hcol hcontainer hu hc (hstored decoded rfl)
                rw [hbytes, hplain]
                simp only
                split
                · rfl
                · split
                  · rfl
                  · have hrest := hvalue hcol
                    cases hloop : rangeFrames z record.representation.codec off len us cs
                        (body.drop c) (cum + u) with
                    | none =>
                        rw [hloop, Option.map_none, Option.map_eq_none_iff] at hrest
                        rw [hrest]
                        rfl
                    | some result =>
                        rw [hloop, Option.map_some, Option.map_eq_some_iff] at hrest
                        obtain ⟨⟨frames', out⟩, hcached, hout⟩ := hrest
                        rw [hcached]
                        cases result with
                        | error e =>
                            cases hout
                            rfl
                        | ok rest =>
                            cases hout
                            rfl

/-! ### The loop that fills a buffer -/

theorem copyAt_length {buf piece : Bytes} {pos : Nat} (h : pos + piece.length ≤ buf.length) :
    (copyAt buf pos piece).length = buf.length := by
  unfold copyAt
  rw [List.length_append, List.length_append, List.length_take, List.length_drop]
  omega

theorem copyAt_copyAt {buf piece rest : Bytes} {pos : Nat}
    (h : pos + piece.length ≤ buf.length) :
    copyAt (copyAt buf pos piece) (pos + piece.length) rest = copyAt buf pos (piece ++ rest) := by
  have hpos : (buf.take pos).length = pos := by
    rw [List.length_take]
    omega
  have hfront : (buf.take pos ++ piece).length = pos + piece.length := by
    rw [List.length_append, hpos]
  have htake : (copyAt buf pos piece).take (pos + piece.length) = buf.take pos ++ piece := by
    unfold copyAt
    rw [← hfront, List.take_left]
  have hdrop : (copyAt buf pos piece).drop (pos + piece.length + rest.length)
      = buf.drop (pos + (piece ++ rest).length) := by
    unfold copyAt
    rw [List.drop_append, hfront, List.drop_eq_nil_of_le (by rw [hfront]; omega), List.nil_append,
      List.drop_drop, List.length_append]
    congr 1
    omega
  rw [copyAt, htake, hdrop, copyAt, List.append_assoc (buf.take pos)]

/-- Nothing wrong enters the cache, and no frame is missing where all of them decode. -/
theorem frameIntoLoop_keeps (hcontainer : Container store dropId raw record footer)
    {off want availTotal : Nat} : ∀ {us cs : List Nat} {i : Nat} {body : Bytes} {cum : Nat}
    {buf : Bytes} {written : Nat} {frames : SieveCache}, FramesFrom footer raw i us cs body →
    frames.Keeps (StoredFrame H z store) →
    ∀ frames' buf' out, frameIntoLoop H z dropId record.representation.codec off want availTotal
        us cs i body cum buf written frames = some (frames', buf', out) →
      frames'.Keeps (StoredFrame H z store) ∧
        (AllDecode z record footer raw i → out.isSome) := by
  intro us
  induction us with
  | nil =>
      intro cs i body cum buf written frames _ hframes frames' buf' out h
      cases h
      exact ⟨hframes, fun _ => rfl⟩
  | cons u us ih =>
      intro cs i body cum buf written frames hfrom hframes frames' buf' out h
      cases cs with
      | nil =>
          cases h
          exact ⟨hframes, fun _ => rfl⟩
      | cons c cs =>
          obtain ⟨hu, hc, hbytes, hnext⟩ := hfrom.cons
          obtain ⟨mid, hit, hframe, hmid, hmissing, -⟩ :=
            cachedFrame_spec (H := H) (z := z) hcontainer hfrom hframes
          unfold frameIntoLoop at h
          rw [hframe] at h
          cases hit with
          | none =>
              cases h
              refine ⟨hmid, fun hall => ?_⟩
              obtain ⟨e, herror⟩ := hmissing rfl
              obtain ⟨plain, hplain⟩ := hall i u c (Nat.le_refl i) hu hc
              rw [herror] at hplain
              cases hplain
          | some decoded =>
              simp only at h
              split at h
              · cases h
              · split at h
                · cases h
                  exact ⟨hmid, fun _ => rfl⟩
                · split at h
                  · cases h
                  · split at h
                    · cases h
                      exact ⟨hmid, fun _ => rfl⟩
                    · obtain ⟨hkept, hsome⟩ := ih hnext hmid _ _ _ h
                      exact ⟨hkept, fun hall => hsome hall.tail⟩

/-- **Where the frames decode to what their rows say, the loop fills the buffer.** -/
theorem frameIntoLoop_fill (hcol : NoCollision H store.frameNames)
    (hcontainer : Container store dropId raw record footer) {off want availTotal : Nat}
    (hwant : availTotal ≤ want) (hfit : off + want < 2 ^ 64) :
    ∀ {us cs : List Nat} {body : Bytes} {plains : List Bytes},
    FramesDecode z record.representation.codec us cs body plains →
    plains.map List.length = us → ∀ {i cum : Nat} {buf : Bytes} {written : Nat}
    {frames : SieveCache}, FramesFrom footer raw i us cs body →
    frames.Keeps (StoredFrame H z store) → off + written = max off cum → written < availTotal →
    off + availTotal ≤ cum + us.sum → (availTotal = want ∨ off + availTotal = cum + us.sum) →
    (∀ u ∈ us, 0 < u) → (∀ u ∈ us.head?, off + written < cum + u) → buf.length = want →
    ∃ frames', frameIntoLoop H z dropId record.representation.codec off want availTotal us cs i
        body cum buf written frames
      = some (frames', copyAt buf written
          ((plains.flatten.drop (off + written - cum)).take (availTotal - written)),
          some availTotal) ∧
      frames'.Keeps (StoredFrame H z store) := by
  intro us cs body plains hdecode
  induction hdecode with
  | nil body =>
      intro _ i cum buf written frames _ _ hmax hwritten hend _ _ _ _
      rw [List.sum_nil] at hend
      omega
  | @cons u c us cs body plain plains hplain hrest ih =>
      intro hexact i cum buf written frames hfrom hframes hmax hwritten hend htotal hpos hhead hbuf
      obtain ⟨hlen, hexact⟩ := List.cons.inj hexact
      have hinside := hhead u rfl
      rw [List.sum_cons] at hend htotal
      obtain ⟨hu, hc, hbytes, hnext⟩ := hfrom.cons
      obtain ⟨mid, hit, hframe, hmid, hmissing, hstored⟩ :=
        cachedFrame_spec (H := H) (z := z) hcontainer hfrom hframes
      obtain ⟨decoded, rfl⟩ : ∃ decoded, hit = some decoded := by
        cases hit with
        | some decoded => exact ⟨decoded, rfl⟩
        | none =>
            obtain ⟨e, herror⟩ := hmissing rfl
            rw [← hbytes, hplain] at herror
            cases herror
      have hdecoded := decodes_of_storedFrame hcol hcontainer hu hc (hstored decoded rfl)
      rw [← hbytes, hplain] at hdecoded
      cases hdecoded
      have hfrom' : off - cum = off + written - cum := by omega
      unfold frameIntoLoop
      rw [hframe]
      simp only [hfrom']
      rw [if_neg (by omega)]
      -- the window ends in this frame, or the frame ends first
      by_cases hlast : off + availTotal ≤ cum + u
      · have htake : min (min (off + want - cum) u - (off + written - cum))
            (u - (off + written - cum)) = availTotal - written := by omega
        have hpiece : ((plain.drop (off + written - cum)).take (availTotal - written)).length
            = availTotal - written := by
          rw [List.length_take, List.length_drop]
          omega
        rw [htake, if_neg (by omega), if_neg (by omega), if_pos (by omega)]
        refine ⟨mid, ?_, hmid⟩
        rw [List.flatten_cons, List.drop_append_of_le_length (by omega),
          List.take_append_of_le_length (by rw [List.length_drop]; omega),
          show written + (availTotal - written) = availTotal by omega]
      · have htake : min (min (off + want - cum) u - (off + written - cum))
            (u - (off + written - cum)) = u - (off + written - cum) := by omega
        have hpiece : ((plain.drop (off + written - cum)).take (u - (off + written - cum)))
            = plain.drop (off + written - cum) := by
          rw [List.take_of_length_le]
          rw [List.length_drop]
          omega
        have hpieceLen : (plain.drop (off + written - cum)).length = u - (off + written - cum) := by
          rw [List.length_drop]
          omega
        rw [htake, if_neg (by omega), if_neg (by omega), if_neg (by omega), hpiece]
        have hbuf' : (copyAt buf written (plain.drop (off + written - cum))).length = want := by
          rw [copyAt_length (by omega)]
          exact hbuf
        have hmax' : off + (written + (u - (off + written - cum))) = max off (cum + u) := by omega
        have hhead' : ∀ u' ∈ us.head?,
            off + (written + (u - (off + written - cum))) < cum + u + u' := by
          intro u' hu'
          have := hpos u' (List.mem_cons_of_mem _ (List.mem_of_head? hu'))
          omega
        obtain ⟨frames', hloop, hkeeps⟩ := ih hexact hnext hmid hmax' (by omega) (by omega)
          (by omega) (fun u' hu' => hpos u' (List.mem_cons_of_mem _ hu')) hhead' hbuf'
        refine ⟨frames', ?_, hkeeps⟩
        have hbehind : off + (written + (u - (off + written - cum))) - (cum + u)
            = off + written - cum - plain.length := by omega
        have hleft : availTotal - (written + (u - (off + written - cum)))
            = availTotal - written - (u - (off + written - cum)) := by omega
        have hfirst : (plain.drop (off + written - cum)).take (availTotal - written)
            = plain.drop (off + written - cum) := List.take_of_length_le (by omega)
        rw [hloop, ← hpieceLen, copyAt_copyAt (by omega), List.flatten_cons, List.drop_append,
          List.take_append, hfirst, hpieceLen, hbehind, hleft]

end CachedSlabStore

end LimniFS
