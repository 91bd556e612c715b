/-
The crate against RFC 7253.

The output is the standard's exactly when the offset the crate starts at is.  It need
not be.  The 192 bits of the stretch are held as two `u128`s, the second one with its
64 bits at the top, and those have to come down by `128 - bottom` places to follow the
first one's; the crate shifts by `64 - bottom`, so they land 64 places too high.
`StretchFits` says when this does no harm.

The table of the cipher has 24 entries, and a loop takes the one that the trailing zeros of the
block's number select.  Block number `2 ^ 24` is the first that selects an entry past the end, and
it is the last block of a message of `2 ^ 28` bytes: the documented maximum is one byte too many.
-/
import LimniFS.Ocb3Strings

namespace LimniFS.Ocb3

open Lib Lib.BitString Ocb3Aes256

/-! ### The nonce -/

theorem nonceBlock_eq (nonce : Fixed 12) : nonceBlock nonce = [0, 0, 0, 1] ++ nonce.val :=
  rfl

theorem bits_nonceBlock (nonce : Fixed 12) :
    bits (nonceBlock nonce) = Rfc7253.nonceOf (bits nonce.val) := by
  rw [nonceBlock_eq, bits_append, Rfc7253.nonceOf, length_bits, nonce.property]
  rfl

theorem drop_nonceBlock (nonce : Fixed 12) :
    (nonceBlock nonce).drop 15 = [(nonceBlock nonce).getD 15 0] := by
  have hlen := length_nonceBlock nonce
  have hlt : 15 < (nonceBlock nonce).length := by omega
  rw [List.drop_eq_getElem_cons hlt, List.drop_eq_nil_of_le (by omega),
    List.getD_eq_getElem?_getD, List.getElem?_eq_getElem hlt]
  rfl

theorem str2num_low (x : UInt8) : str2num ((Lib.byteBits x).drop 2) = (x &&& 0x3F).toNat := by
  have h : ∀ v : BitVec 8, str2num ((Lib.byteBits ⟨v⟩).drop 2) = ((⟨v⟩ : UInt8) &&& 0x3F).toNat := by
    decide +kernel
  exact h x.toBitVec

theorem byteBits_high (x : UInt8) : Lib.byteBits (x &&& 0xC0) = (Lib.byteBits x).take 2 ++ zeros 6 := by
  have h : ∀ v : BitVec 8,
      Lib.byteBits ((⟨v⟩ : UInt8) &&& 0xC0) = (Lib.byteBits ⟨v⟩).take 2 ++ zeros 6 := by
    decide +kernel
  exact h x.toBitVec

theorem bottom_eq (nonce : Fixed 12) : bottom nonce = Rfc7253.bottom (bits nonce.val) := by
  have hlast := congrArg bits (drop_nonceBlock nonce)
  rw [bits_drop, bits_cons, bits_nil, List.append_nil] at hlast
  rw [Rfc7253.bottom, ← bits_nonceBlock, BitString.sub, show (123 - 1 : Nat) = 8 * 15 + 2 from rfl,
    ← List.drop_drop, hlast, List.take_of_length_le (by simp), str2num_low]
  rfl

theorem bottom_lt (nonce : Fixed 12) : bottom nonce < 64 := by
  have h : ∀ v : BitVec 8, ((⟨v⟩ : UInt8) &&& 0x3F).toNat < 64 := by decide +kernel
  exact h ((nonceBlock nonce).getD 15 0).toBitVec

theorem bits_top (nonce : Fixed 12) :
    bits (top nonce).val = (Rfc7253.nonceOf (bits nonce.val)).sub 1 122 ++ zeros 6 := by
  have htop : (top nonce).val =
      (nonceBlock nonce).take 15 ++ [(nonceBlock nonce).getD 15 0 &&& 0xC0] := by
    show (nonceBlock nonce).modify 15 (· &&& 0xC0) = _
    rw [List.modify_eq_take_drop, drop_nonceBlock]
    rfl
  have hlast := congrArg bits (drop_nonceBlock nonce)
  rw [bits_drop, bits_cons, bits_nil, List.append_nil] at hlast
  rw [htop, bits_append, bits_cons, bits_nil, List.append_nil, byteBits_high, ← hlast, bits_take,
    ← bits_nonceBlock, BitString.sub, ← List.append_assoc]
  congr 1
  exact (List.take_add (i := 8 * 15) (j := 2)).symm

/-! ### The first offset -/

theorem bits_ktop (cipher : Equiv.Perm Block) (nonce : Fixed 12) :
    bits (cipher (top nonce)).val = Rfc7253.ktop (encipher cipher) (bits nonce.val) := by
  rw [Rfc7253.ktop, ← bits_top, encipher_bits]

theorem bits_stretchOf (ktop : Block) :
    bits (stretchOf ktop).val = bits ktop.val ++
      xorBits ((bits ktop.val).sub 1 64) ((bits ktop.val).sub 9 72) := by
  have hlen := ktop.property
  have htail : (List.range 8).map (fun i => ktop.val.getD i 0 ^^^ ktop.val.getD (i + 1) 0) =
      List.zipWith (· ^^^ ·) (ktop.val.take 8) ((ktop.val.drop 1).take 8) := by
    refine List.ext_getElem (by simp [hlen]) fun i hi _ => ?_
    rw [List.length_map, List.length_range] at hi
    have hi0 : i < ktop.val.length := by omega
    have hi1 : i + 1 < ktop.val.length := by omega
    simp [hi0, hi1]
  rw [stretchOf, bits_append, htail, bits_zipWith_xor (by simp [hlen]), bits_take, bits_take,
    bits_drop]
  rfl

theorem getMsbD_fromBeBytes (bytes : Fixed 16) (k : Nat) :
    (fromBeBytes bytes).getMsbD k = (bits bytes.val).bit k := by
  rw [fromBeBytes, BitVec.getMsbD_cast, BitVec.getMsbD_ofBoolListBE, bit]

theorem bit_toBeBytes (x : BitVec 128) {k : Nat} (h : k < 128) :
    (bits (toBeBytes x).val).bit k = x.getMsbD k := by
  rw [toBeBytes, bits_bytesOfBits (by simp)]
  simp [bit, List.getD_eq_getElem?_getD, h]

/-- The 64 bits that follow `Ktop` in the stretch. -/
def stretchTail (ktop : BitString) : BitString := xorBits (ktop.sub 1 64) (ktop.sub 9 72)

theorem length_stretchTail {ktop : BitString} (h : ktop.length = 128) :
    (stretchTail ktop).length = 64 := by
  have h1 : (ktop.sub 1 64).length = 64 := length_sub (by decide) (by omega)
  have h9 : (ktop.sub 9 72).length = 64 := length_sub (by decide) (by omega)
  rw [stretchTail, length_xorBits (by rw [h1, h9]), h1]

theorem bits_stretchHi (ktop : Block) :
    bits (((stretchOf ktop).val.drop 16).take 8 ++ List.replicate 8 0) =
      stretchTail (bits ktop.val) ++ zeros 64 := by
  have hlen := length_stretchTail (length_bits_block ktop)
  rw [bits_append, bits_replicate_zero, bits_take, bits_drop, bits_stretchOf,
    List.drop_left' (length_bits_block ktop), ← stretchTail, List.take_of_length_le (by omega)]

/-- The two words of the stretch, shifted as the crate shifts them. -/
theorem bit_shifted (low hi : Fixed 16) {bottom k : Nat} (hb : bottom < 64) (hk : k < 128) :
    (bits (toBeBytes ((fromBeBytes low <<< bottom) ||| (fromBeBytes hi >>> (64 - bottom)))).val).bit k =
      ((bits low.val).bit (k + bottom) ||
        (decide (64 ≤ k + bottom) && (bits hi.val).bit (k + bottom - 64))) := by
  rw [bit_toBeBytes _ hk, BitVec.getMsbD_or, BitVec.getMsbD_shiftLeft, BitVec.getMsbD_ushiftRight,
    getMsbD_fromBeBytes, getMsbD_fromBeBytes, decide_eq_true hk]
  by_cases h64 : 64 ≤ k + bottom
  · have hpos : ¬ k < 64 - bottom := by omega
    have hidx : k - (64 - bottom) = k + bottom - 64 := by omega
    rw [hidx, decide_eq_false hpos, decide_eq_true h64]
    rfl
  · have hneg : k < 64 - bottom := by omega
    rw [decide_eq_true hneg, decide_eq_false h64]
    rfl

/-- The bits of the offset the crate starts at. -/
theorem bit_initialOffset {bottom : Nat} (hb : bottom < 64) (ktop : Block) {k : Nat} (hk : k < 128) :
    (bits (initialOffset bottom (stretchOf ktop)).val).bit k =
      ((bits ktop.val).bit (k + bottom) ||
        (decide (64 ≤ k + bottom) && (stretchTail (bits ktop.val)).bit (k + bottom - 64))) := by
  have hlow : (stretchOf ktop).val.take 16 = ktop.val := List.take_left' ktop.property
  have hlen := length_stretchTail (length_bits_block ktop)
  have htail : (stretchTail (bits ktop.val) ++ zeros 64).bit (k + bottom - 64) =
      (stretchTail (bits ktop.val)).bit (k + bottom - 64) := by
    rw [bit_append, hlen, bit_zeros]
    by_cases hin : k + bottom - 64 < 64
    · rw [if_pos hin]
    · rw [if_neg hin, bit_of_le (by omega)]
  refine (bit_shifted _ _ hb hk).trans ?_
  simp only [hlow, bits_stretchHi]
  rw [← htail]

/-- The bits of the offset the standard starts at. -/
theorem bit_offset0 (cipher : Equiv.Perm Block) (nonce : Fixed 12) {k : Nat} (hk : k < 128) :
    (Rfc7253.offset0 (encipher cipher) (bits nonce.val)).bit k =
      if k + bottom nonce < 128 then (bits (cipher (top nonce)).val).bit (k + bottom nonce)
      else (stretchTail (bits (cipher (top nonce)).val)).bit (k + bottom nonce - 128) := by
  have hpos : 1 + bottom nonce - 1 + k = k + bottom nonce := by omega
  rw [Rfc7253.offset0, ← bottom_eq, bit_sub _ (by omega), hpos, Rfc7253.stretch, ← bits_ktop,
    bit_append, length_bits_block, stretchTail]

theorem length_offset0 (cipher : Equiv.Perm Block) (nonce : Fixed 12) :
    (Rfc7253.offset0 (encipher cipher) (bits nonce.val)).length = 128 := by
  have hb := bottom_lt nonce
  have htail := length_stretchTail (length_bits_block (cipher (top nonce)))
  rw [Rfc7253.offset0, ← bottom_eq, length_sub (by omega)]
  · omega
  · rw [Rfc7253.stretch, ← bits_ktop, ← stretchTail, List.length_append, length_bits_block, htail]
    omega

/-- The tail of the stretch does no harm where the crate puts it: none of its first
`bottom` bits is set, and every bit that is set is set in the second half of `Ktop` too. -/
def StretchFits (cipher : Equiv.Perm Block) (nonce : Fixed 12) : Prop :=
  let ktop := Rfc7253.ktop (encipher cipher) (bits nonce.val)
  ∀ k < 64, Bool.xor (ktop.bit k) (ktop.bit (k + 8)) = true →
    Rfc7253.bottom (bits nonce.val) ≤ k ∧ ktop.bit (64 + k) = true

instance (cipher : Equiv.Perm Block) (nonce : Fixed 12) : Decidable (StretchFits cipher nonce) :=
  inferInstanceAs (Decidable (∀ k < 64, _ → _ ∧ _))

theorem bit_stretchTail {ktop : BitString} (h : ktop.length = 128) {k : Nat} (hk : k < 64) :
    (stretchTail ktop).bit k = Bool.xor (ktop.bit k) (ktop.bit (k + 8)) := by
  have h1 : (ktop.sub 1 64).length = 64 := length_sub (by decide) (by omega)
  have h9 : (ktop.sub 9 72).length = 64 := length_sub (by decide) (by omega)
  rw [stretchTail, bit_xorBits (by rw [h1, h9]), bit_sub _ (by omega), bit_sub _ (by omega),
    Nat.add_comm k 8]
  simp

theorem startOffset_eq_iff (cipher : Equiv.Perm Block) (nonce : Fixed 12) :
    bits ((new cipher).startOffset nonce).val =
      Rfc7253.offset0 (encipher cipher) (bits nonce.val) ↔ StretchFits cipher nonce := by
  have hb := bottom_lt nonce
  have hlen := length_bits_block (cipher (top nonce))
  have hcrate : ∀ k < 128, (bits ((new cipher).startOffset nonce).val).bit k =
      ((bits (cipher (top nonce)).val).bit (k + bottom nonce) ||
        (decide (64 ≤ k + bottom nonce) &&
          (stretchTail (bits (cipher (top nonce)).val)).bit (k + bottom nonce - 64))) :=
    fun k hk => bit_initialOffset hb (cipher (top nonce)) hk
  simp only [StretchFits, ← bits_ktop, ← bottom_eq]
  constructor
  · intro heq k hk htail
    rw [← bit_stretchTail hlen hk] at htail
    refine ⟨Nat.le_of_not_lt fun hlt => ?_, ?_⟩
    · -- a bit before `bottom` is shifted out by the crate and kept by the standard
      have hbit := congrArg (fun s => bit s (128 - bottom nonce + k)) heq
      simp only [hcrate _ (show 128 - bottom nonce + k < 128 by omega),
        bit_offset0 cipher nonce (show 128 - bottom nonce + k < 128 by omega)] at hbit
      rw [if_neg (by omega), bit_of_le (by rw [hlen]; omega),
        show 128 - bottom nonce + k + bottom nonce - 128 = k by omega, htail,
        bit_of_le (s := stretchTail _) (by rw [length_stretchTail hlen]; omega)] at hbit
      simp at hbit
    · -- a later one is or-ed onto the second half of `Ktop`
      have hbit := congrArg (fun s => bit s (64 - bottom nonce + k)) heq
      simp only [hcrate _ (show 64 - bottom nonce + k < 128 by omega),
        bit_offset0 cipher nonce (show 64 - bottom nonce + k < 128 by omega)] at hbit
      rw [if_pos (by omega), show 64 - bottom nonce + k + bottom nonce = 64 + k by omega,
        show 64 + k - 64 = k by omega, htail] at hbit
      rw [← hbit]
      simp
  · intro hfits
    refine ext_bit (by rw [length_bits_block, length_offset0]) fun k hk => ?_
    rw [length_bits_block] at hk
    rw [hcrate k hk, bit_offset0 cipher nonce hk]
    by_cases h128 : k + bottom nonce < 128
    · rw [if_pos h128]
      by_cases h64 : 64 ≤ k + bottom nonce
      · have hi : k + bottom nonce - 64 < 64 := by omega
        have hfit := hfits _ hi
        rw [← bit_stretchTail hlen hi, show 64 + (k + bottom nonce - 64) = k + bottom nonce by omega] at hfit
        cases htail : (stretchTail (bits (cipher (top nonce)).val)).bit (k + bottom nonce - 64) with
        | false => simp
        | true => rw [(hfit htail).2]; rfl
      · rw [decide_eq_false h64]
        simp
    · have hi : k + bottom nonce - 128 < 64 := by omega
      have hfit := hfits _ hi
      rw [← bit_stretchTail hlen hi] at hfit
      rw [if_neg h128, bit_of_le (by rw [hlen]; omega),
        bit_of_le (s := stretchTail _) (by rw [length_stretchTail hlen]; omega)]
      cases htail : (stretchTail (bits (cipher (top nonce)).val)).bit (k + bottom nonce - 128) with
      | false => simp
      | true =>
          have hle := (hfit htail).1
          omega

/-! ### Conformance -/

/-- The ciphertext and the tag of the crate are those of the standard. -/
def Conforms (cipher : Equiv.Perm Block) (nonce : Fixed 12) (aad buffer : Bytes) : Prop :=
  ∃ ciphertext tag, (new cipher).encryptInPlaceDetached nonce aad buffer = some (ciphertext, tag) ∧
    (bits ciphertext, bits tag.val) =
      Rfc7253.encrypt (encipher cipher) (bits nonce.val) (bits aad) (bits buffer)

/-- **The crate's output is the standard's exactly when the tail of the stretch does no
harm** and the associated data does not run past the table. -/
theorem ocb3_conforms_iff : ∀ (cipher : Equiv.Perm Block) (nonce : Fixed 12) (aad buffer : Bytes),
    buffer.length < 2 ^ 24 * 16 →
    (Conforms cipher nonce aad buffer ↔
      aad.length < 2 ^ 24 * 16 ∧ StretchFits cipher nonce) := by
  intro cipher nonce aad buffer hbound
  have hE := encipher_enciphers cipher
  constructor
  · rintro ⟨ciphertext, tag, hout, hstandard⟩
    have haad : aad.length < 2 ^ 24 * 16 := by
      refine Nat.lt_of_not_le fun hlong => ?_
      rw [encrypt_eq (length_new_ll cipher) nonce aad hbound, computeTag,
        hashAd_none (length_new_ll cipher) hlong] at hout
      cases hout
    obtain ⟨c, t, hout', hfrom⟩ := encrypt_from_start cipher nonce hbound haad
    obtain ⟨rfl, rfl⟩ : ciphertext = c ∧ tag = t := by
      simpa using hout.symm.trans hout'
    rw [hstandard, Rfc7253.encrypt] at hfrom
    have hstart := Rfc7253.encryptFrom_tag_injective hE _ _ (length_offset0 cipher nonce)
      (length_bits_block _) (congrArg Prod.snd hfrom)
    exact ⟨haad, (startOffset_eq_iff cipher nonce).mp hstart.symm⟩
  · rintro ⟨haad, hfits⟩
    obtain ⟨c, t, hout, hfrom⟩ := encrypt_from_start cipher nonce hbound haad
    refine ⟨c, t, hout, ?_⟩
    rw [hfrom, Rfc7253.encrypt, (startOffset_eq_iff cipher nonce).mpr hfits]

/-- A nonce of zeros. -/
def zeroNonce : Fixed 12 := ⟨List.replicate 12 0, rfl⟩

/-- The identity as a cipher, a nonce of zeros and nothing to encrypt: the tag is not the
standard's. -/
theorem ocb3_identity_differs : ¬ Conforms (Equiv.refl Block) zeroNonce [] [] := by
  have hrun : ((new (Equiv.refl Block)).encryptInPlaceDetached zeroNonce [] []).map
      (fun out => (bits out.1, bits out.2.val)) ≠
      some (Rfc7253.encrypt (encipher (Equiv.refl Block)) (bits zeroNonce.val) [] []) := by
    decide +kernel
  rintro ⟨ciphertext, tag, hout, hstandard⟩
  rw [hout] at hrun
  exact hrun (congrArg some hstandard)

/-- A nonce whose stretch is harmless under the identity. -/
def fittingNonce : Fixed 12 := ⟨[1, 1, 1, 1, 1, 0, 1, 0, 0, 0, 0, 0], rfl⟩

theorem ocb3_conforms_iff_sample :
    [10, 11, 12, 13].length < 2 ^ 24 * 16 ∧
      (Conforms (Equiv.refl Block) fittingNonce [1, 2, 3] [10, 11, 12, 13] ↔
        [1, 2, 3].length < 2 ^ 24 * 16 ∧ StretchFits (Equiv.refl Block) fittingNonce) ∧
      StretchFits (Equiv.refl Block) fittingNonce :=
  ⟨by decide, ocb3_conforms_iff (Equiv.refl Block) fittingNonce [1, 2, 3] [10, 11, 12, 13] (by decide),
    by decide +kernel⟩

/-! ### How long a message may be -/

/-- Every index that a loop over so many bytes uses is inside the table. -/
def IndexesInside (len : Nat) : Prop := ∀ i < len / blockSize, ntz (i + 1) < lTableSize

/-- No call on these arguments panics. -/
structure NeverPanics (cipher : Equiv.Perm Block) (nonce : Fixed 12) (aad buffer : Bytes) : Prop where
  encrypts : ((new cipher).encryptInPlaceDetached nonce aad buffer).isSome
  decrypts : ∀ tag, ((new cipher).decryptInPlaceDetached nonce aad buffer tag).isSome
  hashes : ((new cipher).hashAd aad).isSome
  buffer : IndexesInside buffer.length
  aad : IndexesInside aad.length

/-! ### Indexes -/

theorem ntz_past_table : ntz (2 ^ lTableSize - 1 + 1) = lTableSize := by decide

theorem last_block_reached {len : Nat} (h : 2 ^ (lTableSize + 4) ≤ len) :
    2 ^ lTableSize - 1 < len / blockSize := by
  simp only [lTableSize, blockSize] at *
  omega

theorem indexesInside_iff {len : Nat} : IndexesInside len ↔ len < 2 ^ (lTableSize + 4) := by
  constructor
  · intro h
    by_contra hlong
    have := h _ (last_block_reached (Nat.le_of_not_lt hlong))
    rw [ntz_past_table] at this
    exact Nat.lt_irrefl _ this
  · intro h i hi
    refine trailingZeros_lt (Nat.succ_pos i) ?_
    simp only [lTableSize, blockSize] at *
    omega

/-! ### The loops over the buffer -/

section
variable {ocb : Ocb3Aes256} (hll : ocb.ll.length = lTableSize) (nonce : Fixed 12) (aad : Bytes)
include hll

theorem passSteps_none (s : Pass) : ocb.encryptStep s (2 ^ lTableSize - 1) = none ∧
    ocb.decryptStep s (2 ^ lTableSize - 1) = none := by
  have hend : ocb.ll[ntz (2 ^ lTableSize - 1 + 1)]? = none :=
    List.getElem?_eq_none (by rw [hll, ntz_past_table])
  constructor
  · rw [encryptStep, hend]
    rfl
  · rw [decryptStep, hend]
    rfl

theorem passes_none {buffer : Bytes} (h : 2 ^ (lTableSize + 4) ≤ buffer.length) (tag : Tag) :
    ocb.encryptInPlaceDetached nonce aad buffer = none ∧
      ocb.decryptInPlaceDetached nonce aad buffer tag = none := by
  have hmem := List.mem_range.mpr (last_block_reached h)
  constructor
  · simp only [encryptInPlaceDetached]
    rw [foldlM_eq_none (fun s => (passSteps_none hll s).1) hmem]
    rfl
  · simp only [decryptInPlaceDetached]
    rw [foldlM_eq_none (fun s => (passSteps_none hll s).2) hmem]
    rfl

end

/-! ### The limit -/

theorem limit_eq : 2 ^ (lTableSize + 4) = 2 ^ lTableSize * blockSize := by decide

/-- **No call panics exactly when the associated data and the buffer are shorter than the documented
maximum.** -/
theorem never_panics_iff : ∀ (cipher : Equiv.Perm Block) (nonce : Fixed 12) (aad buffer : Bytes),
    NeverPanics cipher nonce aad buffer ↔
      aad.length < 2 ^ (lTableSize + 4) ∧ buffer.length < 2 ^ (lTableSize + 4) := by
  intro cipher nonce aad buffer
  have hll := length_new_ll cipher
  constructor
  · intro h
    exact ⟨indexesInside_iff.mp h.aad, indexesInside_iff.mp h.buffer⟩
  · rintro ⟨haad, hbuffer⟩
    have haad' : aad.length < 2 ^ lTableSize * blockSize := limit_eq ▸ haad
    have hbuffer' : buffer.length < 2 ^ lTableSize * blockSize := limit_eq ▸ hbuffer
    refine ⟨?_, fun tag => ?_, ?_, indexesInside_iff.mpr hbuffer, indexesInside_iff.mpr haad⟩
    · obtain ⟨tag, htag⟩ := computeTag_isSome hll haad' (finalChecksum buffer)
        ((new cipher).finalOffset ((new cipher).startOffset nonce) buffer.length)
      rw [encrypt_eq hll nonce aad hbuffer', htag]
      rfl
    · obtain ⟨expected, hexpected⟩ := computeTag_isSome hll haad'
        (finalChecksum ((new cipher).decBytes ((new cipher).startOffset nonce) buffer))
        ((new cipher).finalOffset ((new cipher).startOffset nonce) buffer.length)
      rw [decrypt_eq hll nonce aad hbuffer' tag, hexpected]
      rfl
    · rw [hashAd_eq hll haad']
      rfl

/-- A buffer of just the documented maximum cannot be encrypted. -/
theorem longest_buffer_panics :
    (List.replicate (2 ^ (lTableSize + 4)) (0 : UInt8)).length ≤ 2 ^ (lTableSize + 4) ∧
      (new (Equiv.refl Block)).encryptInPlaceDetached zeroNonce []
        (List.replicate (2 ^ (lTableSize + 4)) 0) = none ∧
      ¬ NeverPanics (Equiv.refl Block) zeroNonce [] (List.replicate (2 ^ (lTableSize + 4)) 0) := by
  have hlen := List.length_replicate (n := 2 ^ (lTableSize + 4)) (a := (0 : UInt8))
  have hnone := (passes_none (length_new_ll (Equiv.refl Block)) zeroNonce []
    (Nat.le_of_eq hlen.symm) zeroBlock).1
  refine ⟨Nat.le_of_eq hlen, hnone, fun h => ?_⟩
  have := h.encrypts
  rw [hnone] at this
  cases this

end LimniFS.Ocb3
