/-
RFC 7253's definition of OCB, for a 128-bit block and a 128-bit tag.

Everything here is a string of bits, numbered from one at the left, and the block
cipher is a function on strings; the names are the standard's.  The encryption is
written from the offset it starts at, because the standard derives that offset from
the nonce alone and uses the nonce for nothing else.  Two starts never give one tag
(`encryptFrom_tag_injective`): the checksum is the same, the offsets differ by the same
strings, and the cipher is injective.
-/
import Mathlib.NumberTheory.Padics.PadicVal.Basic
import LimniFS.Lib.BitString

namespace LimniFS.Rfc7253

open Lib Lib.BitString

/-- `TAGLEN`. -/
def taglen : Nat := 128

/-! ### Key-dependent variables -/

/-- `double(S)`. -/
def double (s : BitString) : BitString :=
  let shifted := s.drop 1 ++ [false]
  if s.bit 0 = false then shifted
  else xorBits shifted (zeros 120 ++ [true, false, false, false, false, true, true, true])

/-- `ntz(n)`: how often two divides `n`. -/
def ntz (n : Nat) : Nat := padicValNat 2 n

section
variable (E : BitString → BitString)

/-- `L_*`. -/
def lStar : BitString := E (zeros 128)

/-- `L_$`. -/
def lDollar : BitString := double (lStar E)

/-- `L_i`. -/
def l : Nat → BitString
  | 0 => double (lDollar E)
  | i + 1 => double (l i)

/-! ### Nonce-dependent variables -/

/-- `num2str(TAGLEN mod 128,7) || zeros(120-bitlen(N)) || 1 || N`. -/
def nonceOf (N : BitString) : BitString :=
  num2str (taglen % 128) 7 ++ zeros (120 - N.length) ++ [true] ++ N

/-- `str2num(Nonce[123..128])`. -/
def bottom (N : BitString) : Nat := str2num ((nonceOf N).sub 123 128)

/-- `ENCIPHER(K, Nonce[1..122] || zeros(6))`. -/
def ktop (N : BitString) : BitString := E ((nonceOf N).sub 1 122 ++ zeros 6)

/-- `Ktop || (Ktop[1..64] xor Ktop[9..72])`. -/
def stretch (N : BitString) : BitString :=
  ktop E N ++ xorBits ((ktop E N).sub 1 64) ((ktop E N).sub 9 72)

/-- `Offset_0 = Stretch[1+bottom..128+bottom]`. -/
def offset0 (N : BitString) : BitString := (stretch E N).sub (1 + bottom N) (128 + bottom N)

/-! ### Blocks -/

/-- The `i`-th block of a string, counted from one. -/
def blockAt (S : BitString) (i : Nat) : BitString := S.sub (128 * (i - 1) + 1) (128 * i)

/-- How many whole blocks a string has: `m` with `bitlen(S) = 128m + bitlen(S_*)`. -/
def fullBlocks (S : BitString) : Nat := S.length / 128

/-- `S_*`. -/
def lastBlock (S : BitString) : BitString := S.drop (128 * fullBlocks S)

/-- `S_* || 1 || zeros(127-bitlen(S_*))`. -/
def padded (S : BitString) : BitString :=
  lastBlock S ++ [true] ++ zeros (127 - (lastBlock S).length)

/-- `Offset_i`, from `Offset_0`. -/
def offset (start : BitString) : Nat → BitString
  | 0 => start
  | i + 1 => xorBits (offset start i) (l E (ntz (i + 1)))

/-! ### HASH(K, A) -/

/-- `Sum_i`. -/
def sum (A : BitString) : Nat → BitString
  | 0 => zeros 128
  | i + 1 =>
      xorBits (sum A i) (E (xorBits (blockAt A (i + 1)) (offset E (zeros 128) (i + 1))))

def hash (A : BitString) : BitString :=
  let m := fullBlocks A
  if 0 < (lastBlock A).length then
    let offsetStar := xorBits (offset E (zeros 128) m) (lStar E)
    xorBits (sum E A m) (E (xorBits (padded A) offsetStar))
  else
    sum E A m

/-! ### OCB-ENCRYPT(K, N, A, P) -/

/-- `Checksum_i`. -/
def checksum (P : BitString) : Nat → BitString
  | 0 => zeros 128
  | i + 1 => xorBits (checksum P i) (blockAt P (i + 1))

/-- `C_i`. -/
def cipherBlock (start P : BitString) (i : Nat) : BitString :=
  xorBits (offset E start i) (E (xorBits (blockAt P i) (offset E start i)))

/-- `C_1 || ... || C_i`. -/
def cipherBlocks (start P : BitString) : Nat → BitString
  | 0 => []
  | i + 1 => cipherBlocks start P i ++ cipherBlock E start P (i + 1)

/-- The ciphertext `C_1 || ... || C_m || C_*` and the tag, from `Offset_0`. -/
def encryptFrom (start A P : BitString) : BitString × BitString :=
  let m := fullBlocks P
  if 0 < (lastBlock P).length then
    let offsetStar := xorBits (offset E start m) (lStar E)
    let pad := E offsetStar
    let cStar := xorBits (lastBlock P) (pad.sub 1 (lastBlock P).length)
    let checksumStar := xorBits (checksum P m) (padded P)
    (cipherBlocks E start P m ++ cStar,
      xorBits (E (xorBits (xorBits checksumStar offsetStar) (lDollar E))) (hash E A))
  else
    (cipherBlocks E start P m,
      xorBits (E (xorBits (xorBits (checksum P m) (offset E start m)) (lDollar E))) (hash E A))

/-- The ciphertext and the tag of the standard. -/
def encrypt (N A P : BitString) : BitString × BitString := encryptFrom E (offset0 E N) A P

end

/-! ### Every value the standard names is a block -/

theorem length_double {s : BitString} (h : s.length = 128) : (double s).length = 128 := by
  have hshift : (s.drop 1 ++ [false]).length = 128 := by simp [h]
  unfold double
  by_cases hs : s.bit 0 = false
  · simpa only [if_pos hs] using hshift
  · simp only [if_neg hs]
    rw [length_xorBits (by rw [hshift]; simp), hshift]

theorem length_blockAt {S : BitString} {i : Nat} (hi : 0 < i) (h : i ≤ fullBlocks S) :
    (blockAt S i).length = 128 := by
  have hS : 128 * i ≤ S.length := by
    unfold fullBlocks at h
    omega
  rw [blockAt, length_sub (by omega) hS]
  omega

theorem length_lastBlock (S : BitString) : (lastBlock S).length = S.length % 128 := by
  simp only [lastBlock, fullBlocks, List.length_drop]
  omega

theorem length_padded (S : BitString) : (padded S).length = 128 := by
  have h := Nat.mod_lt S.length (y := 128) (by decide)
  simp only [padded, List.length_append, length_zeros, length_lastBlock, List.length_singleton]
  omega

theorem length_checksum (P : BitString) : ∀ {i : Nat}, i ≤ fullBlocks P →
    (checksum P i).length = 128
  | 0, _ => length_zeros 128
  | i + 1, h => by
      have ih := length_checksum P (Nat.le_of_succ_le h)
      rw [checksum, length_xorBits (by rw [ih, length_blockAt (Nat.succ_pos i) h]), ih]

/-! ### A block cipher on strings -/

/-- What the standard asks of `ENCIPHER(K, ·)`. -/
structure Enciphers (E : BitString → BitString) : Prop where
  length : ∀ s, (E s).length = 128
  injective : ∀ {s t : BitString}, s.length = 128 → t.length = 128 → E s = E t → s = t

section
variable {E : BitString → BitString} (hE : Enciphers E)
include hE

theorem length_lDollar : (lDollar E).length = 128 := length_double (hE.length _)

theorem length_l : ∀ i, (l E i).length = 128
  | 0 => length_double (length_lDollar hE)
  | i + 1 => length_double (length_l i)

theorem length_offset {start : BitString} (h : start.length = 128) :
    ∀ i, (offset E start i).length = 128
  | 0 => h
  | i + 1 => by
      have ih := length_offset h i
      rw [offset, length_xorBits (by rw [ih, length_l hE]), ih]

theorem length_sum (A : BitString) : ∀ i, (sum E A i).length = 128
  | 0 => length_zeros 128
  | i + 1 => by
      have ih := length_sum A i
      rw [sum, length_xorBits (by rw [ih, hE.length]), ih]

theorem length_hash (A : BitString) : (hash E A).length = 128 := by
  have hsum := length_sum hE A (fullBlocks A)
  unfold hash
  by_cases h : 0 < (lastBlock A).length
  · simp only [if_pos h]
    rw [length_xorBits (by rw [hsum, hE.length]), hsum]
  · simp only [if_neg h]
    exact hsum

theorem offset_injective {s t : BitString} (hs : s.length = 128) (ht : t.length = 128) :
    ∀ {i : Nat}, offset E s i = offset E t i → s = t
  | 0, h => h
  | i + 1, h => by
      refine offset_injective hs ht (i := i) ?_
      refine xorBits_right_cancel ?_ ?_ h
      · rw [length_offset hE hs, length_l hE]
      · rw [length_offset hE ht, length_l hE]

theorem tag_injective {c s t : BitString} (A : BitString) (hc : c.length = 128)
    (hs : s.length = 128) (ht : t.length = 128)
    (h : xorBits (E (xorBits (xorBits c s) (lDollar E))) (hash E A) =
      xorBits (E (xorBits (xorBits c t) (lDollar E))) (hash E A)) : s = t := by
  have hcs : (xorBits c s).length = (lDollar E).length := by
    rw [length_xorBits (by rw [hc, hs]), hc, length_lDollar hE]
  have hct : (xorBits c t).length = (lDollar E).length := by
    rw [length_xorBits (by rw [hc, ht]), hc, length_lDollar hE]
  have hin := xorBits_right_cancel (by rw [hE.length, length_hash hE])
    (by rw [hE.length, length_hash hE]) h
  have hcheck := hE.injective (by rw [length_xorBits hcs, hcs, length_lDollar hE])
    (by rw [length_xorBits hct, hct, length_lDollar hE]) hin
  exact xorBits_left_cancel (by rw [hs, hc]) (by rw [ht, hc]) (xorBits_right_cancel hcs hct hcheck)

/-- **Two starting offsets give two tags.** -/
theorem encryptFrom_tag_injective {s t : BitString} (A P : BitString) (hs : s.length = 128)
    (ht : t.length = 128) (h : (encryptFrom E s A P).2 = (encryptFrom E t A P).2) : s = t := by
  have hcheck := length_checksum P (Nat.le_refl (fullBlocks P))
  have hos := length_offset hE hs (fullBlocks P)
  have hot := length_offset hE ht (fullBlocks P)
  have hstar : (lStar E).length = 128 := hE.length _
  unfold encryptFrom at h
  by_cases hlast : 0 < (lastBlock P).length
  · simp only [if_pos hlast] at h
    have hoff := tag_injective hE A
      (by rw [length_xorBits (by rw [hcheck, length_padded]), hcheck])
      (by rw [length_xorBits (by rw [hos, hstar]), hos])
      (by rw [length_xorBits (by rw [hot, hstar]), hot]) h
    exact offset_injective hE hs ht
      (xorBits_right_cancel (by rw [hos, hstar]) (by rw [hot, hstar]) hoff)
  · simp only [if_neg hlast] at h
    exact offset_injective hE hs ht (tag_injective hE A hcheck hos hot h)

end

end LimniFS.Rfc7253
