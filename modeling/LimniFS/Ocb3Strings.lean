/-
The values of the cipher as strings of bits.

The bits of every value the crate computes from an offset on are the value of the
standard: the table, the offsets, the checksum, the blocks, the padding, the hash of
the associated data and the tag.  So the output is the standard's for the offset the
crate starts at (`encrypt_from_start`), whatever that offset is.
-/
import LimniFS.Ocb3Pass
import LimniFS.Rfc7253

namespace LimniFS.Ocb3

open Lib Lib.BitString Ocb3Aes256

/-! ### Blocks as strings -/

/-- The permutation, on strings of bits. -/
def encipher (cipher : Equiv.Perm Block) (s : BitString) : BitString :=
  bits (cipher ⟨bytesOfBits 16 s, length_bytesOfBits 16 s⟩).val

theorem length_bits_block (b : Block) : (bits b.val).length = 128 := by
  rw [length_bits, b.property]

theorem encipher_bits (cipher : Equiv.Perm Block) (b : Block) :
    encipher cipher (bits b.val) = bits (cipher b).val := by
  have hval : bytesOfBits 16 (bits b.val) = b.val := by
    have h := bytesOfBits_bits b.val
    rwa [b.property] at h
  rw [encipher]
  exact congrArg (fun x => bits (cipher x).val) (Subtype.ext hval)

theorem encipher_enciphers (cipher : Equiv.Perm Block) : Rfc7253.Enciphers (encipher cipher) := by
  refine ⟨fun s => length_bits_block _, fun {s t} hs ht h => ?_⟩
  have hblock := cipher.injective (Subtype.ext (bits_injective h))
  have hbytes : bytesOfBits 16 s = bytesOfBits 16 t := congrArg Subtype.val hblock
  rw [← bits_bytesOfBits (n := 16) hs, ← bits_bytesOfBits (n := 16) ht, hbytes]

theorem bits_zeroBlock : bits zeroBlock.val = zeros 128 := by decide

theorem bits_xorBlock (a b : Block) :
    bits (xorBlock a b).val = xorBits (bits a.val) (bits b.val) :=
  bits_zipWith_xor (by rw [a.property, b.property])

/-! ### Doubling -/

theorem shiftRight_seven (y : UInt8) : y >>> 7 = if (Lib.byteBits y).bit 0 then 1 else 0 := by
  have h : ∀ v : BitVec 8, (⟨v⟩ : UInt8) >>> 7 = if (Lib.byteBits ⟨v⟩).bit 0 then 1 else 0 := by
    decide +kernel
  exact h y.toBitVec

theorem byteBits_shift (x : UInt8) :
    Lib.byteBits (x <<< 1) = (Lib.byteBits x).drop 1 ++ [false] := by
  have h : ∀ v : BitVec 8,
      Lib.byteBits ((⟨v⟩ : UInt8) <<< 1) = (Lib.byteBits ⟨v⟩).drop 1 ++ [false] := by
    decide +kernel
  exact h x.toBitVec

theorem byteBits_shift_in (x y : UInt8) :
    Lib.byteBits ((x <<< 1) ||| (y >>> 7))
      = (Lib.byteBits x).drop 1 ++ [(Lib.byteBits y).bit 0] := by
  have h : ∀ v : BitVec 8,
      Lib.byteBits (((⟨v⟩ : UInt8) <<< 1) ||| 1) = (Lib.byteBits ⟨v⟩).drop 1 ++ [true] := by
    decide +kernel
  rw [shiftRight_seven]
  cases hbit : (Lib.byteBits y).bit 0 with
  | false => simpa using byteBits_shift x
  | true => exact h x.toBitVec

theorem drop_one_append {s t : BitString} (hs : s.length = 8) :
    (s ++ t).drop 1 = s.drop 1 ++ t := by
  rw [List.drop_append_of_le_length (by omega)]

theorem bits_shiftBytes : ∀ {bytes : Bytes}, bytes ≠ [] →
    bits (shiftBytes bytes) = (bits bytes).drop 1 ++ [false]
  | [x], _ => by simp [shiftBytes, byteBits_shift]
  | x :: y :: rest, _ => by
      have ih := bits_shiftBytes (List.cons_ne_nil y rest)
      have hy : Lib.byteBits y = [(Lib.byteBits y).bit 0] ++ (Lib.byteBits y).drop 1 := rfl
      rw [shiftBytes, bits_cons, ih, byteBits_shift_in, bits_cons x, bits_cons y,
        drop_one_append (length_byteBits x), drop_one_append (length_byteBits y)]
      nth_rewrite 3 [hy]
      simp

theorem modify_last_xor {bytes : Bytes} (h : bytes.length = 16) (p : UInt8) :
    bytes.modify 15 (· ^^^ p) = List.zipWith (· ^^^ ·) bytes (List.replicate 15 0 ++ [p]) := by
  refine List.ext_getElem (by simp [h]) fun i hi _ => ?_
  rw [List.length_modify, h] at hi
  rw [List.getElem_modify, List.getElem_zipWith]
  by_cases hlast : i = 15
  · subst hlast
    rfl
  · have hlt : i < 15 := by omega
    rw [if_neg fun h => hlast h.symm, List.getElem_append_left (by simpa using hlt),
      List.getElem_replicate, UInt8.xor_zero]

theorem bits_dbl (b : Block) : bits (dbl b).val = Rfc7253.double (bits b.val) := by
  have hcarry : b.val.getD 0 0 >>> 7 = 1 ↔ ¬ (bits b.val).bit 0 = false := by
    rw [shiftRight_seven, bit_byteBits, bit_bits]
    cases (b.val.getD (0 / 8) 0).toBitVec.getMsbD (0 % 8) <;> decide
  have hne : b.val ≠ [] := fun h => by
    have hlen := b.property
    rw [h] at hlen
    cases hlen
  have hshift := bits_shiftBytes hne
  have hlen : (shiftBytes b.val).length = 16 := by rw [length_shiftBytes, b.property]
  have hpoly : bits (List.replicate 15 0 ++ [gf128Poly]) =
      zeros 120 ++ [true, false, false, false, false, true, true, true] := by decide
  simp only [dbl, Rfc7253.double]
  by_cases hbit : (bits b.val).bit 0 = false
  · rw [if_pos hbit, if_neg fun h => hcarry.mp h hbit, hshift]
  · rw [if_neg hbit, if_pos (hcarry.mpr hbit), show blockSize - 1 = 15 from rfl,
      modify_last_xor hlen, bits_zipWith_xor (by rw [hlen]; rfl), hshift, hpoly]

/-! ### The table and the offsets -/

theorem trailingZeros_eq : ∀ {width n : Nat}, 0 < n → n < 2 ^ width →
    trailingZeros width n = padicValNat 2 n := by
  intro width
  induction width with
  | zero =>
      intro n hn hlt
      omega
  | succ width ih =>
      intro n hn hlt
      rw [trailingZeros]
      by_cases hodd : n % 2 = 1
      · rw [if_pos hodd, padicValNat.eq_zero_of_not_dvd (by omega)]
      · rw [Nat.pow_succ] at hlt
        have hhalf : n = 2 * (n / 2) := by omega
        have hpos : 0 < n / 2 := by omega
        rw [if_neg hodd, ih hpos (by omega)]
        nth_rewrite 2 [hhalf]
        rw [padicValNat.mul (by decide) (by omega), padicValNat.self (by decide), Nat.add_comm]

theorem l_eq_iterate (E : BitString → BitString) (i : Nat) :
    Rfc7253.l E i = Rfc7253.double^[i + 1] (Rfc7253.lDollar E) := by
  induction i with
  | zero => rfl
  | succ i ih =>
      rw [Rfc7253.l, ih]
      exact (Function.iterate_succ_apply' Rfc7253.double (i + 1) _).symm

theorem bits_fillTable {entries i : Nat} (current : Block) (hi : i < entries) :
    bits ((fillTable entries current).getD i zeroBlock).val =
      Rfc7253.double^[i + 1] (bits current.val) := by
  induction entries generalizing current i with
  | zero => exact absurd hi (Nat.not_lt_zero i)
  | succ entries ih =>
      cases i with
      | zero => exact bits_dbl current
      | succ i =>
          rw [Function.iterate_succ_apply, ← bits_dbl, ← ih (dbl current) (Nat.lt_of_succ_lt_succ hi)]
          rfl

section
variable (cipher : Equiv.Perm Block)

theorem bits_llStar : bits (new cipher).llStar.val = Rfc7253.lStar (encipher cipher) := by
  rw [Rfc7253.lStar, ← bits_zeroBlock, encipher_bits]
  rfl

theorem bits_llDollar : bits (new cipher).llDollar.val = Rfc7253.lDollar (encipher cipher) := by
  rw [Rfc7253.lDollar, ← bits_llStar, ← bits_dbl]
  rfl

theorem bits_entry {i : Nat} (h0 : 0 < i) (hi : i < 2 ^ lTableSize) :
    bits ((new cipher).entry i).val = Rfc7253.l (encipher cipher) (Rfc7253.ntz i) := by
  have hntz : ntz i = Rfc7253.ntz i :=
    trailingZeros_eq h0 (Nat.lt_trans hi (Nat.pow_lt_pow_right (by decide) (by decide)))
  have hlt : ntz i < lTableSize := trailingZeros_lt h0 hi
  rw [← hntz, l_eq_iterate, ← bits_llDollar, ← bits_fillTable (new cipher).llDollar hlt]
  rfl

theorem bits_offsetAfter (start : Block) : ∀ {i : Nat}, i < 2 ^ lTableSize →
    bits ((new cipher).offsetAfter start i).val =
      Rfc7253.offset (encipher cipher) (bits start.val) i
  | 0, _ => rfl
  | i + 1, h => by
      rw [offsetAfter, bits_xorBlock, bits_offsetAfter start (by omega),
        bits_entry cipher (Nat.succ_pos i) h, Rfc7253.offset]

end

/-! ### Blocks of the message -/

theorem fullBlocks_bits (bytes : Bytes) : Rfc7253.fullBlocks (bits bytes) = bytes.length / blockSize := by
  rw [Rfc7253.fullBlocks, length_bits]
  simp only [blockSize]
  omega

theorem bits_blockOf {bytes : Bytes} {j : Nat} (h : 16 * (j + 1) ≤ bytes.length) :
    bits (blockOf 16 bytes j).val = Rfc7253.blockAt (bits bytes) (j + 1) := by
  rw [blockOf_val h, bits_take, bits_drop, Rfc7253.blockAt, BitString.sub]
  have hdrop : 8 * (16 * j) = 128 * (j + 1 - 1) + 1 - 1 := by omega
  have htake : 8 * 16 = 128 * (j + 1) + 1 - (128 * (j + 1 - 1) + 1) := by omega
  rw [hdrop, ← htake]

theorem bits_rest (bytes : Bytes) :
    bits (bytes.drop (16 * (bytes.length / blockSize))) = Rfc7253.lastBlock (bits bytes) := by
  rw [Rfc7253.lastBlock, fullBlocks_bits, bits_drop, ← Nat.mul_assoc]

theorem bits_padBlock {rest : Bytes} (h : rest.length < 16) :
    bits (padBlock rest).val = bits rest ++ [true] ++ zeros (127 - (bits rest).length) := by
  have hval : (padBlock rest).val = rest ++ 0x80 :: List.replicate (15 - rest.length) 0 := by
    have hsplit : List.replicate 15 (0 : UInt8) =
        List.replicate (15 - rest.length) 0 ++ List.replicate rest.length 0 := by
      rw [List.replicate_append_replicate]
      congr 1
      omega
    show (rest ++ 0x80 :: List.replicate 15 0).take 16 = _
    rw [hsplit, ← List.cons_append, ← List.append_assoc]
    refine List.take_left' ?_
    simp
    omega
  have hcount : 127 - (bits rest).length = 7 + 8 * (15 - rest.length) := by
    rw [length_bits]
    omega
  rw [hval, bits_append, bits_cons, bits_replicate_zero, hcount, zeros, zeros, ← List.replicate_append_replicate,
    List.append_assoc]
  rfl

theorem length_rest_lt (bytes : Bytes) :
    (bytes.drop (16 * (bytes.length / blockSize))).length < 16 := by
  rw [List.length_drop]
  simp only [blockSize]
  omega

theorem bits_padded (bytes : Bytes) :
    bits (padBlock (bytes.drop (16 * (bytes.length / blockSize)))).val =
      Rfc7253.padded (bits bytes) := by
  rw [bits_padBlock (length_rest_lt bytes), bits_rest, Rfc7253.padded]

theorem lastBlock_pos (bytes : Bytes) :
    0 < (Rfc7253.lastBlock (bits bytes)).length ↔ bytes.length % blockSize > 0 := by
  rw [Rfc7253.length_lastBlock, length_bits]
  simp only [blockSize]
  omega

theorem bits_checksumOf {bytes : Bytes} : ∀ {i : Nat}, 16 * i ≤ bytes.length →
    bits (checksumOf (blockOf 16 bytes) i).val = Rfc7253.checksum (bits bytes) i
  | 0, _ => bits_zeroBlock
  | i + 1, h => by
      rw [checksumOf, bits_xorBlock, bits_checksumOf (by omega), bits_blockOf h, Rfc7253.checksum]

section
variable (cipher : Equiv.Perm Block)

theorem bits_under_pad (rest : Bytes) (pad : Block) (h : rest.length < 16) :
    bits (List.zipWith (· ^^^ ·) rest pad.val) =
      xorBits (bits rest) ((bits pad.val).sub 1 (bits rest).length) := by
  have hcut : List.zipWith (· ^^^ ·) rest pad.val =
      List.zipWith (· ^^^ ·) rest (pad.val.take rest.length) := by
    refine List.ext_getElem (by simp [pad.property]) fun i hi hi' => ?_
    simp
  rw [hcut, bits_zipWith_xor (by simp [pad.property]; omega), bits_take, length_bits]
  rfl

theorem bits_cipherBlock (start : Block) {buffer : Bytes} {j : Nat} (hj : j + 1 < 2 ^ lTableSize)
    (h : 16 * (j + 1) ≤ buffer.length) :
    bits ((new cipher).cipherBlock start buffer j).val =
      Rfc7253.cipherBlock (encipher cipher) (bits start.val) (bits buffer) (j + 1) := by
  have hoff := bits_offsetAfter cipher start hj
  rw [cipherBlock, bits_xorBlock, hoff, encryptBlock, show (new cipher).cipher = cipher from rfl,
    ← encipher_bits, bits_xorBlock, hoff, bits_blockOf h, xorBits_comm, Rfc7253.cipherBlock]

theorem bits_cipherBlocks (start : Block) (buffer : Bytes) : ∀ {i : Nat}, i < 2 ^ lTableSize →
    16 * i ≤ buffer.length →
    bits (joined ((new cipher).cipherBlock start buffer) i) =
      Rfc7253.cipherBlocks (encipher cipher) (bits start.val) (bits buffer) i
  | 0, _, _ => rfl
  | i + 1, hi, h => by
      rw [joined_succ, bits_append, bits_cipherBlocks start buffer (by omega) (by omega),
        bits_cipherBlock cipher start hi h, Rfc7253.cipherBlocks]

theorem bits_sumOf {aad : Bytes} : ∀ {i : Nat}, i < 2 ^ lTableSize → 16 * i ≤ aad.length →
    bits ((new cipher).sumOf aad i).val = Rfc7253.sum (encipher cipher) (bits aad) i
  | 0, _, _ => bits_zeroBlock
  | i + 1, hi, h => by
      rw [sumOf, bits_xorBlock, bits_sumOf (by omega) (by omega), encryptBlock,
        show (new cipher).cipher = cipher from rfl, ← encipher_bits, bits_xorBlock, bits_blockOf h,
        bits_offsetAfter cipher zeroBlock hi, bits_zeroBlock, Rfc7253.sum]

theorem block_count_lt {len : Nat} (h : len < 2 ^ lTableSize * blockSize) :
    len / blockSize < 2 ^ lTableSize ∧ 16 * (len / blockSize) ≤ len := by
  simp only [lTableSize, blockSize] at *
  omega

/-- The last offset, where there is a partial block. -/
theorem bits_finalOffset (start : Block) {len : Nat} (h : len < 2 ^ lTableSize * blockSize)
    (hrest : len % blockSize > 0) :
    bits ((new cipher).finalOffset start len).val =
      xorBits (Rfc7253.offset (encipher cipher) (bits start.val) (len / blockSize))
        (Rfc7253.lStar (encipher cipher)) := by
  rw [finalOffset, if_pos hrest, bits_xorBlock, bits_offsetAfter cipher start (block_count_lt h).1,
    bits_llStar]

theorem bits_authOf {aad : Bytes} (h : aad.length < 2 ^ lTableSize * blockSize) :
    bits ((new cipher).authOf aad).val = Rfc7253.hash (encipher cipher) (bits aad) := by
  obtain ⟨hcount, hfit⟩ := block_count_lt h
  have hsum := bits_sumOf cipher hcount hfit
  simp only [authOf, Rfc7253.hash, lastBlock_pos, fullBlocks_bits]
  by_cases hrest : aad.length % blockSize > 0
  · rw [if_pos hrest, if_pos hrest, bits_xorBlock, hsum, encryptBlock,
      show (new cipher).cipher = cipher from rfl, ← encipher_bits, bits_xorBlock, bits_padded,
      bits_finalOffset cipher zeroBlock h hrest, bits_zeroBlock]
  · rw [if_neg hrest, if_neg hrest, hsum]

theorem bits_tag (checksum offset auth : Block) :
    bits (xorBlock ((new cipher).encryptBlock
        (xorBlock (xorBlock checksum offset) (new cipher).llDollar)) auth).val =
      xorBits (encipher cipher (xorBits (xorBits (bits checksum.val) (bits offset.val))
        (Rfc7253.lDollar (encipher cipher)))) (bits auth.val) := by
  rw [bits_xorBlock, encryptBlock, show (new cipher).cipher = cipher from rfl, ← encipher_bits,
    bits_xorBlock, bits_xorBlock, bits_llDollar]

/-- **From the offset it starts at, the crate computes the standard's ciphertext and tag.** -/
theorem encrypt_from_start (nonce : Fixed 12) {aad buffer : Bytes}
    (hbound : buffer.length < 2 ^ lTableSize * blockSize)
    (haad : aad.length < 2 ^ lTableSize * blockSize) :
    ∃ ciphertext tag, (new cipher).encryptInPlaceDetached nonce aad buffer = some (ciphertext, tag) ∧
      (bits ciphertext, bits tag.val) = Rfc7253.encryptFrom (encipher cipher)
        (bits ((new cipher).startOffset nonce).val) (bits aad) (bits buffer) := by
  obtain ⟨hcount, hfit⟩ := block_count_lt hbound
  have hblocks := bits_cipherBlocks cipher ((new cipher).startOffset nonce) buffer hcount hfit
  have hcheck := bits_checksumOf hfit
  have hauth := bits_authOf cipher haad
  rw [encrypt_eq (length_new_ll cipher) nonce aad hbound, computeTag,
    hashAd_eq (length_new_ll cipher) haad]
  refine ⟨_, _, rfl, ?_⟩
  rw [bits_tag, hauth, encBytes, mapBytes, bits_append, hblocks]
  simp only [Rfc7253.encryptFrom, lastBlock_pos, fullBlocks_bits]
  by_cases hrest : buffer.length % blockSize > 0
  · have hoff := bits_finalOffset cipher ((new cipher).startOffset nonce) hbound hrest
    have hpad : bits ((new cipher).encryptBlock
        ((new cipher).finalOffset ((new cipher).startOffset nonce) buffer.length)).val =
        encipher cipher (bits ((new cipher).finalOffset ((new cipher).startOffset nonce)
          buffer.length).val) := (encipher_bits cipher _).symm
    have hfinal : bits (finalChecksum buffer).val =
        xorBits (Rfc7253.checksum (bits buffer) (buffer.length / blockSize))
          (Rfc7253.padded (bits buffer)) := by
      rw [finalChecksum, if_pos hrest, bits_xorBlock, hcheck, bits_padded]
    rw [if_pos hrest, bits_under_pad _ _ (length_rest_lt buffer), bits_rest, hpad, hoff, hfinal]
  · have hoff : bits ((new cipher).finalOffset ((new cipher).startOffset nonce) buffer.length).val =
        Rfc7253.offset (encipher cipher) (bits ((new cipher).startOffset nonce).val)
          (buffer.length / blockSize) := by
      rw [finalOffset, if_neg hrest, bits_offsetAfter cipher _ hcount]
    have hfinal : bits (finalChecksum buffer).val =
        Rfc7253.checksum (bits buffer) (buffer.length / blockSize) := by
      rw [finalChecksum, if_neg hrest, hcheck]
    rw [if_neg hrest, drop_rest_of_whole hrest, List.zipWith_nil_left, bits_nil, List.append_nil,
      hoff, hfinal]

end

end LimniFS.Ocb3
