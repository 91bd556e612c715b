/-
Windows of a seekable container.

The footer tells which frame a window starts in; that frame and the ones behind it are
decoded until the window is full, and the first and the last are cut.  Where a frame lies
in the plaintext is taken from the footer, never from what the frames decode to.

`range_agrees_iff` says when that is sound.  A container that `encodeSeekable` made is
always cut right.  For any other, the windows agree with the whole decode exactly if no
frame decodes to more than its row says and nothing follows a frame that decodes to less.
-/
import Mathlib.Algebra.Order.BigOperators.Group.List
import LimniFS.Seekable

namespace LimniFS

open Lib

/-! ### Where the frames lie -/

namespace SeekFooter

/-- The plaintext offset at the start of every frame, and the total behind them. -/
def starts (f : SeekFooter) : List Nat := f.uncompLens.scanl (· + ·) 0

def uncompOffset (f : SeekFooter) (i : Nat) : Nat := f.starts.getD (min i (f.starts.length - 1)) 0

/-- `partition_point` of the sorted starts, less one. -/
def frameContaining (f : SeekFooter) (off : Nat) : Nat :=
  (f.starts.takeWhile (· ≤ off)).length - 1

def compressedOffsetOf (f : SeekFooter) (i : Nat) : Nat := (f.compLens.take i).sum

end SeekFooter

variable (z : Omnizip)

/-- The loop of `decode_seekable_range` over the frames that are left; `none` is a panic. -/
def rangeFrames (codec : UInt8) (off len : Nat) :
    List Nat → List Nat → Bytes → Nat → Option (Except CoreError Bytes)
  | u :: us, c :: cs, body, cum =>
    match decompress z codec (body.take c) u with
    | .error e => some (.error e)
    | .ok decoded =>
      let sliceFrom := off - cum
      let sliceTo := min (off + len - cum) u
      if off + len < cum ∨ sliceTo < sliceFrom ∨ decoded.length < sliceTo then none
      else
        let piece := (decoded.take sliceTo).drop sliceFrom
        if off + len ≤ cum + u then some (.ok piece)
        else
          match rangeFrames codec off len us cs (body.drop c) (cum + u) with
          | some (.ok rest) => some (.ok (piece ++ rest))
          | other => other
  | _, _, _, _ => some (.ok [])

/-- `none` is a panic; `off + len` is computed on every path behind the footer. -/
def decodeSeekableRange (codec : UInt8) (container : Bytes) (off len : Nat) :
    Option (Except CoreError Bytes) :=
  match parseFooter container with
  | .error e => some (.error e)
  | .ok footer =>
    let total := footer.totalUncomp
    if 2 ^ 64 ≤ off + len then none
    else if total < off ∨ total < off + len then
      some (.error (.corrupt (s!"seekable range [{off}, {off + len}) outside plaintext length"
        ++ s!" {total}")))
    else
      let first := footer.frameContaining off
      rangeFrames z codec off len (footer.uncompLens.drop first) (footer.compLens.drop first)
        (container.drop (footer.compressedOffsetOf first)) (footer.uncompOffset first)

/-! ### What the frames decode to -/

/-- The frames at the front of `body` decode to these plaintexts. -/
inductive FramesDecode (codec : UInt8) : List Nat → List Nat → Bytes → List Bytes → Prop
  | nil (body : Bytes) : FramesDecode codec [] [] body []
  | cons {u c : Nat} {us cs : List Nat} {body plain : Bytes} {plains : List Bytes} :
      decompress z codec (body.take c) u = .ok plain →
      FramesDecode codec us cs (body.drop c) plains →
      FramesDecode codec (u :: us) (c :: cs) body (plain :: plains)

variable {z} {codec : UInt8}

theorem framesDecode_of_decodeFrames : ∀ {us cs : List Nat} {body p : Bytes},
    us.length = cs.length → decodeFrames z codec us cs body = .ok p →
    ∃ plains, FramesDecode z codec us cs body plains ∧ p = plains.flatten := by
  intro us
  induction us with
  | nil =>
      intro cs body p hlen h
      rw [List.length_eq_zero_iff.mp hlen.symm] at h ⊢
      cases h
      exact ⟨[], .nil body, rfl⟩
  | cons u us ih =>
      intro cs body p hlen h
      cases cs with
      | nil => cases hlen
      | cons c cs =>
          unfold decodeFrames at h
          cases hplain : decompress z codec (body.take c) u with
          | error e =>
              rw [hplain] at h
              cases h
          | ok plain =>
              rw [hplain] at h
              simp only at h
              cases hrest : decodeFrames z codec us cs (body.drop c) with
              | error e =>
                  rw [hrest] at h
                  cases h
              | ok rest =>
                  rw [hrest] at h
                  cases h
                  obtain ⟨plains, hdecode, rfl⟩ := ih (Nat.succ.inj hlen) hrest
                  exact ⟨plain :: plains, .cons hplain hdecode, rfl⟩

/-- The rows of the footer are right as far as the plaintext goes: a frame is as long as its row
says, or it is shorter and nothing follows it. -/
def Aligned : List Nat → List Bytes → Prop
  | u :: us, plain :: plains =>
    (plain.length = u ∧ Aligned us plains) ∨ (plain.length < u ∧ ∀ p ∈ plains, p = [])
  | _, _ => True

theorem flatten_of_all_nil {plains : List Bytes} (h : ∀ p ∈ plains, p = []) :
    plains.flatten = [] := List.flatten_eq_nil_iff.mpr h

theorem aligned_of_all_nil : ∀ (us : List Nat) {plains : List Bytes}, (∀ p ∈ plains, p = []) →
    Aligned us plains := by
  intro us
  induction us with
  | nil =>
      intro plains _
      trivial
  | cons u us ih =>
      intro plains h
      cases plains with
      | nil => trivial
      | cons plain plains =>
          obtain ⟨rfl, hrest⟩ := List.forall_mem_cons.mp h
          by_cases hu : u = 0
          · exact Or.inl ⟨hu.symm, ih hrest⟩
          · exact Or.inr ⟨Nat.pos_of_ne_zero hu, hrest⟩

/-! ### Aligned frames are cut right -/

/-- The loop from a frame on whose end the window has not passed. -/
theorem rangeFrames_aligned {off len : Nat} : ∀ {us cs : List Nat} {body : Bytes}
    {plains : List Bytes}, FramesDecode z codec us cs body plains → Aligned us plains →
    ∀ cum, cum ≤ off + len → off + len ≤ cum + plains.flatten.length →
      (∀ u ∈ us.head?, off ≤ cum + u) →
      rangeFrames z codec off len us cs body cum
        = some (.ok ((plains.flatten.take (off + len - cum)).drop (off - cum))) := by
  intro us cs body plains hdecode
  induction hdecode with
  | nil body =>
      intro _ cum _ _ _
      simp [rangeFrames]
  | @cons u c us cs body plain plains hplain hrest ih =>
      intro haligned cum hcum hend hhead
      have hoff : off ≤ cum + u := hhead u rfl
      rw [List.flatten_cons, List.length_append] at hend
      unfold rangeFrames
      rw [hplain]
      simp only
      by_cases hlast : off + len ≤ cum + u
      · -- the window ends in this frame
        have hshort : off + len - cum ≤ plain.length := by
          rcases haligned with ⟨hlen, -⟩ | ⟨-, hnil⟩
          · omega
          · rw [flatten_of_all_nil hnil] at hend
            simp only [List.length_nil] at hend
            omega
        rw [if_neg (by omega), if_pos hlast, Nat.min_eq_left (by omega), List.flatten_cons,
          List.take_append_of_le_length hshort]
      · obtain ⟨hlen, haligned⟩ : plain.length = u ∧ Aligned us plains := by
          rcases haligned with h | ⟨hlen, hnil⟩
          · exact h
          · rw [flatten_of_all_nil hnil] at hend
            simp only [List.length_nil] at hend
            omega
        have hih := ih haligned (cum + u) (by omega) (by omega) (fun u' _ => by omega)
        have hwhole : plain.take (off + len - cum) = plain := List.take_of_length_le (by omega)
        rw [if_neg (by omega), if_neg hlast, hih, Nat.min_eq_right (by omega)]
        simp only [Option.some.injEq, Except.ok.injEq]
        rw [List.take_of_length_le (Nat.le_of_eq hlen), List.flatten_cons, List.take_append,
          hwhole, List.drop_append, hlen, show off - (cum + u) = 0 by omega,
          show off - cum - u = 0 by omega,
          show off + len - cum - u = off + len - (cum + u) by omega]

/-- The frame a window starts in, counted from a frame that starts at or in front of it. -/
def skipped (off cum : Nat) (us : List Nat) : Nat :=
  ((us.scanl (· + ·) cum).takeWhile (· ≤ off)).length - 1

theorem skipped_of_inside {off cum u : Nat} {us : List Nat} (h : off < cum + u) :
    skipped off cum (u :: us) = 0 := by
  have hnext : ((us.scanl (· + ·) (cum + u)).takeWhile (· ≤ off)) = [] := by
    cases us <;> simp [h]
  rw [skipped, List.scanl_cons, List.takeWhile_cons, hnext]
  split <;> rfl

theorem skipped_of_behind {off cum u : Nat} {us : List Nat} (h : cum + u ≤ off) :
    skipped off cum (u :: us) = skipped off (cum + u) us + 1 := by
  have hpos : 0 < ((us.scanl (· + ·) (cum + u)).takeWhile (· ≤ off)).length := by
    cases us <;> simp [h]
  rw [skipped, List.scanl_cons, List.takeWhile_cons, if_pos (by simp; omega), List.length_cons]
  unfold skipped
  omega

/-- **A window of aligned frames, from the frame it starts in.** -/
theorem rangeFrames_skipped {off len : Nat} : ∀ {us cs : List Nat} {body : Bytes}
    {plains : List Bytes}, FramesDecode z codec us cs body plains → Aligned us plains →
    ∀ cum, cum ≤ off → off + len ≤ cum + plains.flatten.length →
      rangeFrames z codec off len (us.drop (skipped off cum us)) (cs.drop (skipped off cum us))
          (body.drop (cs.take (skipped off cum us)).sum)
          ((us.scanl (· + ·) cum).getD (skipped off cum us) 0)
        = some (.ok ((plains.flatten.drop (off - cum)).take len)) := by
  intro us cs body plains hdecode
  induction hdecode with
  | nil body =>
      intro _ cum hcum hend
      simp [rangeFrames]
  | @cons u c us cs body plain plains hplain hrest ih =>
      intro haligned cum hcum hend
      by_cases hinside : off < cum + u
      · rw [skipped_of_inside hinside]
        have hcut := rangeFrames_aligned (FramesDecode.cons hplain hrest) haligned cum (by omega)
          hend (fun u' hu' => by cases hu'; omega)
        simp only [List.drop_zero, List.take_zero, List.sum_nil, List.scanl_cons,
          List.getD_cons_zero]
        rw [hcut, List.drop_take, show off + len - cum - (off - cum) = len by omega]
      · obtain ⟨hlen, haligned⟩ : plain.length = u ∧ Aligned us plains := by
          rcases haligned with h | ⟨hlen, hnil⟩
          · exact h
          · rw [List.flatten_cons, flatten_of_all_nil hnil, List.append_nil] at hend
            omega
        rw [List.flatten_cons, List.length_append] at hend
        have hih := ih haligned (cum + u) (by omega) (by omega)
        rw [skipped_of_behind (by omega)]
        simp only [List.drop_succ_cons, List.take_succ_cons, List.sum_cons, List.scanl_cons,
          List.getD_cons_succ, ← List.drop_drop]
        have hbehind : plain.drop (off - cum) = [] := List.drop_eq_nil_of_le (by omega)
        rw [hih, List.flatten_cons, List.drop_append, hbehind, List.nil_append, hlen,
          show off - cum - u = off - (cum + u) by omega]

/-! ### Frames that do not fit are cut wrong -/

theorem aligned_of_rangeFrames {off len : Nat} : ∀ {us cs : List Nat} {body : Bytes}
    {plains : List Bytes}, FramesDecode z codec us cs body plains →
    ∀ cum r, off ≤ cum → cum + plains.flatten.length ≤ off + len → off + len ≤ cum + us.sum →
      rangeFrames z codec off len us cs body cum = some (.ok r) →
      Aligned us plains ∧ cum + plains.flatten.length = off + len := by
  intro us cs body plains hdecode
  induction hdecode with
  | nil body =>
      intro cum r _ hend htotal _
      rw [List.sum_nil] at htotal
      exact ⟨trivial, Nat.le_antisymm hend htotal⟩
  | @cons u c us cs body plain plains hplain hrest ih =>
      intro cum r hcum hend htotal h
      rw [List.flatten_cons, List.length_append] at hend ⊢
      rw [List.sum_cons] at htotal
      unfold rangeFrames at h
      rw [hplain] at h
      simp only at h
      split at h
      · cases h
      · next hslice =>
          by_cases hlast : off + len ≤ cum + u
          · -- the frame reaches the end of the window, so nothing is behind it
            have hnil : plains.flatten = [] := List.length_eq_zero_iff.mp (by omega)
            have hrest : ∀ p ∈ plains, p = [] := List.flatten_eq_nil_iff.mp hnil
            refine ⟨?_, by omega⟩
            by_cases hlen : plain.length = u
            · exact Or.inl ⟨hlen, aligned_of_all_nil us hrest⟩
            · exact Or.inr ⟨by omega, hrest⟩
          · rw [if_neg hlast] at h
            cases hloop : rangeFrames z codec off len us cs (body.drop c) (cum + u) with
            | none =>
                rw [hloop] at h
                cases h
            | some result =>
                rw [hloop] at h
                cases result with
                | error e => cases h
                | ok rest =>
                    obtain ⟨haligned, hall⟩ := ih (cum + u) rest (by omega) (by omega) (by omega)
                      hloop
                    exact ⟨Or.inl ⟨by omega, haligned⟩, by omega⟩

/-! ### Containers -/

/-- The frames of a container are as long as its footer says, as far as the plaintext goes. -/
def FramesFit (z : Omnizip) (codec : UInt8) (container : Bytes) : Prop :=
  ∀ footer plains, parseFooter container = .ok footer →
    FramesDecode z codec footer.uncompLens footer.compLens container plains →
    Aligned footer.uncompLens plains

theorem parseFooter_ok {container : Bytes} {footer : SeekFooter}
    (h : parseFooter container = .ok footer) :
    footer.uncompLens.length = footer.compLens.length ∧
      ¬ (0 ∈ footer.uncompLens ∧ 1 < footer.uncompLens.length) := by
  unfold parseFooter at h
  split at h
  · cases h
  · simp only at h
    split at h
    · cases h
    · split at h
      · cases h
      · split at h
        · cases h
        · split at h
          · cases h
          · split at h
            · cases h
            · next hzero =>
                cases h
                exact ⟨by simp, hzero⟩

theorem framesDecode_of_decodeSeekable {container : Bytes} {n : Nat} {p : Bytes}
    (h : decodeSeekable z codec container n = .ok p) :
    ∃ footer plains, parseFooter container = .ok footer ∧ footer.totalUncomp = n ∧
      FramesDecode z codec footer.uncompLens footer.compLens container plains ∧
      p = plains.flatten := by
  unfold decodeSeekable at h
  cases hfooter : parseFooter container with
  | error e =>
      rw [hfooter] at h
      cases h
  | ok footer =>
      rw [hfooter] at h
      simp only at h
      split at h
      · cases h
      · next htotal =>
          obtain ⟨plains, hdecode, hp⟩ :=
            framesDecode_of_decodeFrames (parseFooter_ok hfooter).1 h
          exact ⟨footer, plains, rfl, Decidable.not_not.mp htotal, hdecode, hp⟩

theorem aligned_length_le : ∀ {us : List Nat} {plains : List Bytes}, us.length = plains.length →
    Aligned us plains → plains.flatten.length ≤ us.sum := by
  intro us
  induction us with
  | nil =>
      intro plains hlen _
      rw [List.length_eq_zero_iff.mp hlen.symm]
      exact Nat.le_refl _
  | cons u us ih =>
      intro plains hlen h
      cases plains with
      | nil => cases hlen
      | cons plain plains =>
          rw [List.flatten_cons, List.length_append, List.sum_cons]
          rcases h with ⟨hplain, hrest⟩ | ⟨hplain, hnil⟩
          · have := ih (Nat.succ.inj hlen) hrest
            omega
          · rw [flatten_of_all_nil hnil, List.length_nil]
            omega

theorem FramesDecode.length_eq {us cs : List Nat} {body : Bytes} {plains : List Bytes}
    (h : FramesDecode z codec us cs body plains) : us.length = plains.length := by
  induction h with
  | nil body => rfl
  | cons _ _ ih => rw [List.length_cons, List.length_cons, ih]

theorem FramesDecode.det {us cs : List Nat} {body : Bytes} {plains plains' : List Bytes}
    (h : FramesDecode z codec us cs body plains) (h' : FramesDecode z codec us cs body plains') :
    plains = plains' := by
  induction h generalizing plains' with
  | nil body =>
      cases h'
      rfl
  | cons hplain _ ih =>
      cases h' with
      | cons hplain' hrest' =>
          rw [hplain] at hplain'
          rw [Except.ok.inj hplain', ih hrest']

/-- A window inside the plaintext of aligned frames. -/
theorem decodeSeekableRange_aligned {container : Bytes} {footer : SeekFooter}
    {plains : List Bytes} (hfooter : parseFooter container = .ok footer)
    (hdecode : FramesDecode z codec footer.uncompLens footer.compLens container plains)
    (haligned : Aligned footer.uncompLens plains) {off len : Nat}
    (hend : off + len ≤ plains.flatten.length) (hfit : plains.flatten.length < 2 ^ 64) :
    decodeSeekableRange z codec container off len
      = some (.ok ((plains.flatten.drop off).take len)) := by
  have htotal : off + len ≤ footer.totalUncomp :=
    Nat.le_trans hend (aligned_length_le hdecode.length_eq haligned)
  have hwithin : off + len ≤ 0 + plains.flatten.length := by omega
  have hcut := rangeFrames_skipped hdecode haligned 0 (Nat.zero_le off) hwithin
  have hindex : skipped off 0 footer.uncompLens ≤ footer.starts.length - 1 := by
    unfold skipped SeekFooter.starts
    have hprefix : ((footer.uncompLens.scanl (· + ·) 0).takeWhile fun s => s ≤ off).Sublist
        (footer.uncompLens.scanl (· + ·) 0) := List.takeWhile_sublist _
    have := hprefix.length_le
    omega
  unfold decodeSeekableRange
  rw [hfooter]
  simp only
  rw [if_neg (by omega), if_neg (by omega), SeekFooter.uncompOffset]
  show rangeFrames z codec off len (footer.uncompLens.drop (skipped off 0 footer.uncompLens))
    (footer.compLens.drop (skipped off 0 footer.uncompLens))
    (container.drop (footer.compLens.take (skipped off 0 footer.uncompLens)).sum)
    (footer.starts.getD (min (skipped off 0 footer.uncompLens) (footer.starts.length - 1)) 0) = _
  rw [Nat.min_eq_left hindex]
  exact hcut

/-- **The windows of a container agree with its plaintext exactly if its frames fit.** -/
theorem range_agrees_iff {container : Bytes} {n : Nat} {p : Bytes} (hn : n < u32Limit)
    (h : decodeSeekable z codec container n = .ok p) :
    (∀ off len, off + len ≤ p.length →
      decodeSeekableRange z codec container off len = some (.ok ((p.drop off).take len))) ↔
    FramesFit z codec container := by
  obtain ⟨footer, plains, hfooter, htotal, hdecode, rfl⟩ := framesDecode_of_decodeSeekable h
  constructor
  · intro hwindows footer' plains' hfooter' hdecode'
    rw [hfooter] at hfooter'
    cases hfooter'
    rw [← hdecode.det hdecode']
    -- the window of the whole plaintext decides
    have hwhole := hwindows 0 plains.flatten.length (by omega)
    unfold decodeSeekableRange at hwhole
    rw [hfooter] at hwhole
    simp only at hwhole
    split at hwhole
    · cases hwhole
    · split at hwhole
      · cases hwhole
      · next hshort =>
          obtain ⟨hlens, hzero⟩ := parseFooter_ok hfooter
          obtain ⟨us, cs⟩ := footer
          simp only [SeekFooter.totalUncomp] at *
          cases us with
          | nil => trivial
          | cons u us =>
              by_cases hu : u = 0
              · -- only the single empty frame starts with no bytes
                have hus : us = [] := by
                  cases us with
                  | nil => rfl
                  | cons u' us => exact absurd ⟨by simp [hu], by simp⟩ hzero
                subst hu hus
                rw [List.sum_cons, List.sum_nil] at hshort
                cases hdecode with
                | @cons _ c _ cs _ plain plains _ hrest =>
                    have hnil : (plain :: plains).flatten = [] :=
                      List.length_eq_zero_iff.mp (by omega)
                    exact aligned_of_all_nil _ (List.flatten_eq_nil_iff.mp hnil)
              · have hpos : 0 < 0 + u := by omega
                have hfirst : SeekFooter.frameContaining ⟨u :: us, cs⟩ 0 = 0 :=
                  skipped_of_inside hpos
                simp only [hfirst, SeekFooter.uncompOffset, SeekFooter.compressedOffsetOf,
                  SeekFooter.starts, Nat.zero_min, List.scanl_cons, List.getD_cons_zero,
                  List.drop_zero, List.take_zero, List.sum_nil] at hwhole
                refine (aligned_of_rangeFrames hdecode 0 _ (Nat.le_refl 0) ?_ ?_ hwhole).1
                · omega
                · omega
  · intro hfit off len hend
    have haligned := hfit footer plains hfooter hdecode
    refine decodeSeekableRange_aligned hfooter hdecode haligned hend ?_
    have hle := aligned_length_le hdecode.length_eq haligned
    unfold u32Limit at hn
    unfold SeekFooter.totalUncomp at htotal
    omega

/-! ### Containers that were encoded -/

theorem framesDecode_encodeFrames {t : CodecTunables}
    (hinv : ∀ x c, compressWithTunables z codec x t = .ok c →
      decompress z codec c x.length = .ok x) (tail : Bytes) :
    ∀ {frames cs : List Bytes}, encodeFrames z codec t frames = .ok cs →
      FramesDecode z codec (frames.map List.length) (cs.map List.length) (cs.flatten ++ tail)
        frames := by
  intro frames
  induction frames with
  | nil =>
      intro cs h
      cases h
      exact .nil _
  | cons frame rest ih =>
      intro cs h
      unfold encodeFrames at h
      split at h
      · cases h
      · next c hc =>
          split at h
          · cases h
          · split at h
            · cases h
            · next cs' hcs' =>
                cases h
                rw [List.map_cons, List.map_cons, List.flatten_cons, List.append_assoc]
                refine .cons ?_ ?_
                · rw [List.take_left' rfl]
                  exact hinv frame c hc
                · rw [List.drop_left' rfl]
                  exact ih hcs'

theorem aligned_lengths : ∀ frames : List Bytes, Aligned (frames.map List.length) frames := by
  intro frames
  induction frames with
  | nil => trivial
  | cons frame rest ih => exact Or.inl ⟨rfl, ih⟩

theorem length_of_seekableFrames {plaintext : Bytes}
    (h : (seekableFrames plaintext).length < u32Limit) : plaintext.length < 2 ^ 64 := by
  have hbound : ∀ l ∈ (seekableFrames plaintext).map List.length, l ≤ seekableFrameSize := by
    intro l hl
    obtain ⟨frame, hframe, rfl⟩ := List.mem_map.mp hl
    unfold seekableFrames at hframe
    split at hframe
    · rw [List.mem_singleton.mp hframe]
      exact Nat.zero_le _
    · exact (chunksOf_bounds (by decide) _ _ frame hframe).2
  have hsum := List.sum_le_card_nsmul _ _ hbound
  rw [← List.length_flatten, seekableFrames_flatten, List.length_map, nsmul_eq_mul, Nat.cast_id] at hsum
  unfold u32Limit at h
  unfold seekableFrameSize at hsum
  omega

/-- **Every window of an encoded plaintext is read back.** -/
theorem decodeSeekableRange_encodeSeekable {t : CodecTunables} {plaintext c : Bytes}
    (hinv : ∀ x c, compressWithTunables z codec x t = .ok c →
      decompress z codec c x.length = .ok x)
    (hcount : (seekableFrames plaintext).length < u32Limit)
    (h : encodeSeekable z codec plaintext t = .ok c) {off len : Nat}
    (hend : off + len ≤ plaintext.length) :
    decodeSeekableRange z codec c off len = some (.ok ((plaintext.drop off).take len)) := by
  unfold encodeSeekable at h
  simp only at h
  split at h
  · cases h
  · next cs hcs =>
      obtain ⟨hlen, hfit⟩ := encodeFrames_length z hcs
      have hfooter := parseFooter_container (framesOK_of_count hcount) hlen hfit
      have hflat := seekableFrames_flatten plaintext
      cases h
      have hdecode := framesDecode_encodeFrames hinv
        (footerTable (seekableFrames plaintext) cs ++ seekableMagic ++ leBytes 2 seekableVersion
          ++ leBytes 4 (seekableFrames plaintext).length) hcs
      simp only [← List.append_assoc] at hdecode
      have hwithin : off + len ≤ (seekableFrames plaintext).flatten.length := by
        rw [hflat]
        exact hend
      have hcut := decodeSeekableRange_aligned hfooter hdecode (aligned_lengths _) hwithin
        (by rw [hflat]; exact length_of_seekableFrames hcount)
      rwa [hflat] at hcut

/-- **What is encoded is read back whole and window by window, and the windows of any container
agree with what it decodes to exactly if its frames fit.** -/
theorem seekable_round_trip_iff (z : Omnizip) (codec : UInt8) :
    (∀ t plaintext c, (∀ x c, compressWithTunables z codec x t = .ok c →
        decompress z codec c x.length = .ok x) →
      (seekableFrames plaintext).length < u32Limit →
      encodeSeekable z codec plaintext t = .ok c →
      (plaintext.length < u32Limit → decodeSeekable z codec c plaintext.length = .ok plaintext) ∧
      ∀ off len, off + len ≤ plaintext.length →
        decodeSeekableRange z codec c off len = some (.ok ((plaintext.drop off).take len))) ∧
    (∀ container n p, n < u32Limit → decodeSeekable z codec container n = .ok p →
      ((∀ off len, off + len ≤ p.length →
        decodeSeekableRange z codec container off len = some (.ok ((p.drop off).take len))) ↔
      FramesFit z codec container)) :=
  ⟨fun _ _ _ hinv hcount h => ⟨fun hlen => decodeSeekable_encodeSeekable z hinv hlen h,
    fun _ _ hend => decodeSeekableRange_encodeSeekable hinv hcount h hend⟩,
    fun _ _ _ hn h => range_agrees_iff hn h⟩

namespace Stored

/-- A block of LZ4 behind the length of what it holds: a token and nothing but literals. -/
def literalBlock (x : Bytes) : Bytes := leBytes 4 x.length ++ UInt8.ofNat (16 * x.length) :: x

def literalDecompress (c : Bytes) (n : Nat) : Coded :=
  if c = literalBlock (c.drop 5) ∧ (c.drop 5).length = n then .ok (c.drop 5)
  else .error (.error "literals")

def literalOmnizip : Omnizip := { omnizip with lz4Decompress := literalDecompress }

/-- The frame of bytes that the filter for x86 leaves as they are. -/
def filteredFrame (x : Bytes) : Bytes := leBytes 4 x.length ++ literalBlock x

/-- Two frames, the first of which decodes to one byte more than its row says. -/
def longFrame : Bytes :=
  filteredFrame [1, 2] ++ filteredFrame [3]
    ++ footerTable [[1], [2, 3]] [filteredFrame [1, 2], filteredFrame [3]] ++ seekableMagic
    ++ leBytes 2 seekableVersion ++ leBytes 4 2

end Stored

/-- **A container of a codec that does not look at the length decodes, and its whole window
panics.** -/
theorem long_frame_panics :
    decodeSeekable Stored.literalOmnizip codecBcjX86Lz4 Stored.longFrame 3 = .ok [1, 2, 3] ∧
      decodeSeekableRange Stored.literalOmnizip codecBcjX86Lz4 Stored.longFrame 0 3 = none := by
  refine ⟨?_, ?_⟩
  · decide +kernel
  · decide +kernel

end LimniFS
