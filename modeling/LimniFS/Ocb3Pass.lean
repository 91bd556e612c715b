/-
What the loops of the cipher come to.

The offsets depend on the nonce and on the block's number, never on the data, so both
loops run through the same ones.  Encrypting leaves `encBytes` in the buffer,
decrypting leaves `decBytes`; both take their checksum over the plaintext, the one
before and the other after its blocks are rewritten.  The table has an entry for every
block below the 2²⁴th; at that one the loop over the associated data panics.

The two maps of whole buffers are inverse: every block goes through the cipher and
back under one offset, and the rest of the buffer is xored with the same pad twice.
From there on the tag decides, and it is taken of the same checksum and the same
offset on both sides.
-/
import LimniFS.Lib.Blocks
import LimniFS.Ocb3

namespace LimniFS.Ocb3

open Lib

/-! ### Xor -/

theorem zipWith_xor_self : ∀ {s p : Bytes}, s.length ≤ p.length →
    List.zipWith (· ^^^ ·) (List.zipWith (· ^^^ ·) s p) p = s
  | [], _, _ => by simp
  | x :: s, y :: p, h => by
      rw [List.zipWith_cons_cons, List.zipWith_cons_cons, zipWith_xor_self (by simpa using h),
        UInt8.xor_assoc, UInt8.xor_self, UInt8.xor_zero]

@[simp] theorem xorBlock_xorBlock_self (a b : Block) : xorBlock (xorBlock a b) b = a :=
  Subtype.ext (zipWith_xor_self (by rw [a.property, b.property]))

theorem xorBlockSlice_eq (a b : Block) : xorBlockSlice a b = xorBlock a b := by
  have htake : b.val.take blockSize = b.val :=
    List.take_of_length_le (by rw [b.property]; exact Nat.le_refl 16)
  exact Subtype.ext (congrArg (List.zipWith (· ^^^ ·) a.val) htake)

theorem foldl_or_eq_zero (l : Bytes) (d : UInt8) :
    l.foldl (· ||| ·) d = 0 ↔ d = 0 ∧ ∀ x ∈ l, x = 0 := by
  induction l generalizing d with
  | nil => simp
  | cons y rest ih => rw [List.foldl_cons, ih, UInt8.or_eq_zero_iff, List.forall_mem_cons, and_assoc]

theorem zipWith_xor_all_zero : ∀ {s t : Bytes}, s.length = t.length →
    ((∀ x ∈ List.zipWith (· ^^^ ·) s t, x = 0) ↔ s = t)
  | [], [], _ => by simp
  | x :: s, y :: t, h => by
      rw [List.zipWith_cons_cons, List.forall_mem_cons, zipWith_xor_all_zero (Nat.succ.inj h),
        UInt8.xor_eq_zero_iff, List.cons.injEq]

theorem constantTimeEq_iff (a b : Tag) : constantTimeEq a b = true ↔ a = b := by
  rw [constantTimeEq, beq_iff_eq, foldl_or_eq_zero, and_iff_right rfl,
    zipWith_xor_all_zero (by rw [a.property, b.property])]
  exact ⟨Subtype.ext, congrArg Subtype.val⟩

/-! ### The table -/

theorem trailingZeros_lt {n : Nat} : ∀ {width k : Nat}, 0 < n → n < 2 ^ k →
    trailingZeros width n < k := by
  intro width k hn hk
  induction width generalizing n k with
  | zero =>
      cases k with
      | zero => omega
      | succ k => exact Nat.succ_pos k
  | succ width ih =>
      cases k with
      | zero => omega
      | succ k =>
          rw [trailingZeros]
          by_cases hodd : n % 2 = 1
          · rw [if_pos hodd]
            exact Nat.succ_pos k
          · rw [if_neg hodd]
            rw [Nat.pow_succ] at hk
            exact Nat.succ_lt_succ (ih (by omega) (by omega))

theorem length_fillTable (entries : Nat) (current : Block) :
    (fillTable entries current).length = entries := by
  induction entries generalizing current with
  | zero => rfl
  | succ entries ih => rw [fillTable, List.length_cons, ih]

theorem length_new_ll (cipher : Equiv.Perm Block) : (new cipher).ll.length = lTableSize :=
  length_fillTable ..

namespace Ocb3Aes256

/-- The entry a block's number selects, of a table that is long enough. -/
def entry (ocb : Ocb3Aes256) (i : Nat) : Block := ocb.ll.getD (ntz i) zeroBlock

theorem getElem?_ll {ocb : Ocb3Aes256} (hll : ocb.ll.length = lTableSize) {i : Nat}
    (hi : i < 2 ^ lTableSize - 1) : ocb.ll[ntz (i + 1)]? = some (ocb.entry (i + 1)) := by
  have hlt : ntz (i + 1) < ocb.ll.length := by
    rw [hll]
    exact trailingZeros_lt (Nat.succ_pos i) (by omega)
  rw [entry, List.getD_eq_getElem?_getD, List.getElem?_eq_getElem hlt]
  rfl

theorem slice16_eq {bytes : Bytes} {j : Nat} (h : 16 * (j + 1) ≤ bytes.length) :
    slice16 bytes (j * blockSize) = some (blockOf 16 bytes j) := by
  have hlen : ((bytes.drop (j * blockSize)).take blockSize).length = 16 := by
    rw [List.length_take, List.length_drop]
    simp only [blockSize]
    omega
  have hval := blockOf_val h
  rw [Nat.mul_comm 16 j] at hval
  unfold slice16
  simp only
  rw [dif_pos hlen]
  exact congrArg some (Subtype.ext hval.symm)

/-! ### The two passes -/

section
variable (ocb : Ocb3Aes256) (start : Block)

/-- The offset after `i` whole blocks. -/
def offsetAfter : Nat → Block
  | 0 => start
  | i + 1 => xorBlock (offsetAfter i) (ocb.entry (i + 1))

/-- The checksum of the first `i` blocks. -/
def checksumOf (plain : Nat → Block) : Nat → Block
  | 0 => zeroBlock
  | i + 1 => xorBlock (checksumOf plain i) (plain i)

def cipherBlock (buffer : Bytes) (j : Nat) : Block :=
  xorBlock (ocb.encryptBlock (xorBlock (blockOf 16 buffer j) (ocb.offsetAfter start (j + 1))))
    (ocb.offsetAfter start (j + 1))

def plainBlock (buffer : Bytes) (j : Nat) : Block :=
  xorBlock (ocb.decryptBlock (xorBlock (blockOf 16 buffer j) (ocb.offsetAfter start (j + 1))))
    (ocb.offsetAfter start (j + 1))

/-- The offset the tag is taken with. -/
def finalOffset (len : Nat) : Block :=
  if len % blockSize > 0 then xorBlock (ocb.offsetAfter start (len / blockSize)) ocb.llStar
  else ocb.offsetAfter start (len / blockSize)

/-- The checksum the tag is taken of. -/
def finalChecksum (plain : Bytes) : Block :=
  let whole := checksumOf (blockOf 16 plain) (plain.length / blockSize)
  if plain.length % blockSize > 0 then
    xorBlock whole (padBlock (plain.drop (16 * (plain.length / blockSize))))
  else whole

/-- The blocks a map gives, and the rest of the buffer under the pad. -/
def mapBytes (f : Bytes → Nat → Block) (buffer : Bytes) : Bytes :=
  joined (f buffer) (buffer.length / blockSize) ++
    List.zipWith (· ^^^ ·) (buffer.drop (16 * (buffer.length / blockSize)))
      (ocb.encryptBlock (ocb.finalOffset start buffer.length)).val

def encBytes (buffer : Bytes) : Bytes := ocb.mapBytes start (ocb.cipherBlock start) buffer

def decBytes (buffer : Bytes) : Bytes := ocb.mapBytes start (ocb.plainBlock start) buffer

end

theorem block_lt {len i : Nat} (hbound : len < 2 ^ lTableSize * blockSize)
    (hi : i < len / blockSize) : i < 2 ^ lTableSize - 1 ∧ 16 * (i + 1) ≤ len := by
  simp only [lTableSize, blockSize] at *
  omega

section
variable {ocb : Ocb3Aes256} (hll : ocb.ll.length = lTableSize) (start : Block)
include hll

theorem encryptStep_eq (buffer : Bytes) {i : Nat} (hi : i < 2 ^ lTableSize - 1)
    (h : 16 * (i + 1) ≤ buffer.length) :
    ocb.encryptStep ⟨ocb.offsetAfter start i, checksumOf (blockOf 16 buffer) i,
        rewritten (ocb.cipherBlock start buffer) buffer i⟩ i =
      some ⟨ocb.offsetAfter start (i + 1), checksumOf (blockOf 16 buffer) (i + 1),
        rewritten (ocb.cipherBlock start buffer) buffer (i + 1)⟩ := by
  have hle : 16 * i ≤ buffer.length := by omega
  have hlen := length_rewritten (ocb.cipherBlock start buffer) hle
  have hwrite := rewritten_succ (ocb.cipherBlock start buffer) buffer i
  simp only [encryptStep, getElem?_ll hll hi, slice16_eq (hlen.symm ▸ h), blockOf_rewritten,
    xorBlockSlice_eq, Option.bind_eq_bind, Option.bind_some]
  rw [← hwrite, writeBlock, Nat.mul_comm i]
  rfl

theorem decryptStep_eq (buffer : Bytes) {i : Nat} (hi : i < 2 ^ lTableSize - 1)
    (h : 16 * (i + 1) ≤ buffer.length) :
    ocb.decryptStep ⟨ocb.offsetAfter start i, checksumOf (ocb.plainBlock start buffer) i,
        rewritten (ocb.plainBlock start buffer) buffer i⟩ i =
      some ⟨ocb.offsetAfter start (i + 1), checksumOf (ocb.plainBlock start buffer) (i + 1),
        rewritten (ocb.plainBlock start buffer) buffer (i + 1)⟩ := by
  have hle : 16 * i ≤ buffer.length := by omega
  have hlen := length_rewritten (ocb.plainBlock start buffer) hle
  have hwrite := rewritten_succ (ocb.plainBlock start buffer) buffer i
  simp only [decryptStep, getElem?_ll hll hi, slice16_eq (hlen.symm ▸ h), blockOf_rewritten,
    xorBlockSlice_eq, Option.bind_eq_bind, Option.bind_some]
  rw [← hwrite, writeBlock, Nat.mul_comm i]
  rfl

/-- What the encryption loop leaves. -/
theorem encryptLoop_eq (buffer : Bytes) (hbound : buffer.length < 2 ^ lTableSize * blockSize) :
    (List.range (buffer.length / blockSize)).foldlM ocb.encryptStep ⟨start, zeroBlock, buffer⟩ =
      some ⟨ocb.offsetAfter start (buffer.length / blockSize),
        checksumOf (blockOf 16 buffer) (buffer.length / blockSize),
        rewritten (ocb.cipherBlock start buffer) buffer (buffer.length / blockSize)⟩ := by
  have hloop := foldlM_range_eq
    (fun i => (⟨ocb.offsetAfter start i, checksumOf (blockOf 16 buffer) i,
      rewritten (ocb.cipherBlock start buffer) buffer i⟩ : Pass))
    (fun i hi => encryptStep_eq hll start buffer (block_lt hbound hi).1 (block_lt hbound hi).2)
  rwa [rewritten_zero] at hloop

/-- What the decryption loop leaves. -/
theorem decryptLoop_eq (buffer : Bytes) (hbound : buffer.length < 2 ^ lTableSize * blockSize) :
    (List.range (buffer.length / blockSize)).foldlM ocb.decryptStep ⟨start, zeroBlock, buffer⟩ =
      some ⟨ocb.offsetAfter start (buffer.length / blockSize),
        checksumOf (ocb.plainBlock start buffer) (buffer.length / blockSize),
        rewritten (ocb.plainBlock start buffer) buffer (buffer.length / blockSize)⟩ := by
  have hloop := foldlM_range_eq
    (fun i => (⟨ocb.offsetAfter start i, checksumOf (ocb.plainBlock start buffer) i,
      rewritten (ocb.plainBlock start buffer) buffer i⟩ : Pass))
    (fun i hi => decryptStep_eq hll start buffer (block_lt hbound hi).1 (block_lt hbound hi).2)
  rwa [rewritten_zero] at hloop

end

/-! ### What the buffer and the tag are -/

theorem mul_blockSize (i : Nat) : i * blockSize = 16 * i := Nat.mul_comm ..

theorem take_drop_rest (bytes : Bytes) :
    (bytes.drop (16 * (bytes.length / blockSize))).take (bytes.length % blockSize) =
      bytes.drop (16 * (bytes.length / blockSize)) := by
  refine List.take_of_length_le ?_
  rw [List.length_drop]
  simp only [blockSize]
  omega

theorem drop_rest_of_whole {bytes : Bytes} (h : ¬ bytes.length % blockSize > 0) :
    bytes.drop (16 * (bytes.length / blockSize)) = [] := by
  refine List.drop_eq_nil_of_le ?_
  simp only [blockSize] at *
  omega

theorem xorPad_rewritten (f : Nat → Block) (bytes : Bytes) (i : Nat) (pad : Block) :
    xorPad (rewritten f bytes i) (16 * i) pad =
      joined f i ++ List.zipWith (· ^^^ ·) (bytes.drop (16 * i)) pad.val := by
  rw [xorPad, drop_rewritten, rewritten, List.take_left' (length_joined f i)]

theorem checksumOf_congr {f g : Nat → Block} {i : Nat} (h : ∀ j < i, f j = g j) :
    checksumOf f i = checksumOf g i := by
  induction i with
  | zero => rfl
  | succ i ih =>
      rw [checksumOf, checksumOf, ih fun j hj => h j (Nat.lt_succ_of_lt hj), h i (Nat.lt_succ_self i)]

section
variable (ocb : Ocb3Aes256) (start : Block) (f : Bytes → Nat → Block) (buffer : Bytes)

theorem length_mapBytes : (ocb.mapBytes start f buffer).length = buffer.length := by
  have hpad := (ocb.encryptBlock (ocb.finalOffset start buffer.length)).property
  rw [mapBytes, List.length_append, length_joined, List.length_zipWith, List.length_drop, hpad]
  simp only [blockSize]
  omega

theorem drop_mapBytes :
    (ocb.mapBytes start f buffer).drop (16 * (buffer.length / blockSize)) =
      List.zipWith (· ^^^ ·) (buffer.drop (16 * (buffer.length / blockSize)))
        (ocb.encryptBlock (ocb.finalOffset start buffer.length)).val := by
  rw [mapBytes, List.drop_left' (length_joined ..)]

theorem blockOf_mapBytes {j : Nat} (hj : j < buffer.length / blockSize) :
    blockOf 16 (ocb.mapBytes start f buffer) j = f buffer j := by
  refine Subtype.ext ?_
  rw [blockOf_val, mapBytes, joined_block _ _ hj]
  rw [length_mapBytes]
  simp only [blockSize] at hj
  omega

end

theorem decryptLast_eq (ocb : Ocb3Aes256) (start : Block) (buffer : Bytes) :
    (if buffer.length % blockSize > 0 then
      let offset := xorBlock (ocb.offsetAfter start (buffer.length / blockSize)) ocb.llStar
      let plain := xorPad
        (rewritten (ocb.plainBlock start buffer) buffer (buffer.length / blockSize))
        (16 * (buffer.length / blockSize)) (ocb.encryptBlock offset)
      let rest := (plain.drop (16 * (buffer.length / blockSize))).take (buffer.length % blockSize)
      (⟨offset, xorBlock (checksumOf (ocb.plainBlock start buffer) (buffer.length / blockSize))
        (padBlock rest), plain⟩ : Pass)
    else
      ⟨ocb.offsetAfter start (buffer.length / blockSize),
        checksumOf (ocb.plainBlock start buffer) (buffer.length / blockSize),
        rewritten (ocb.plainBlock start buffer) buffer (buffer.length / blockSize)⟩) =
    ⟨ocb.finalOffset start buffer.length, finalChecksum (ocb.decBytes start buffer),
      ocb.decBytes start buffer⟩ := by
  have hlen : (ocb.decBytes start buffer).length = buffer.length := length_mapBytes ..
  have hcheck : checksumOf (ocb.plainBlock start buffer) (buffer.length / blockSize) =
      checksumOf (blockOf 16 (ocb.decBytes start buffer)) (buffer.length / blockSize) :=
    checksumOf_congr fun j hj => (blockOf_mapBytes ocb start _ buffer hj).symm
  have hrest := take_drop_rest (ocb.decBytes start buffer)
  rw [hlen] at hrest
  by_cases h : buffer.length % blockSize > 0
  · have hplain : xorPad (rewritten (ocb.plainBlock start buffer) buffer (buffer.length / blockSize))
        (16 * (buffer.length / blockSize))
        (ocb.encryptBlock (xorBlock (ocb.offsetAfter start (buffer.length / blockSize)) ocb.llStar)) =
        ocb.decBytes start buffer := by
      rw [xorPad_rewritten, decBytes, mapBytes, finalOffset, if_pos h]
    simp only [if_pos h, hplain, hrest, finalChecksum, hlen, hcheck, finalOffset]
  · have hplain : rewritten (ocb.plainBlock start buffer) buffer (buffer.length / blockSize) =
        ocb.decBytes start buffer := by
      rw [rewritten, decBytes, mapBytes, drop_rest_of_whole h, List.zipWith_nil_left]
    simp only [if_neg h, hplain, finalChecksum, hlen, hcheck, finalOffset]

theorem verdict_eq (expected tag : Tag) (bytes : Bytes) :
    (if constantTimeEq expected tag then some (Except.ok (), bytes)
      else some (Except.error (), bytes.map fun _ => (0 : UInt8))) =
    some (if expected = tag then ((Except.ok () : Except Unit Unit), bytes)
      else (Except.error (), bytes.map fun _ => (0 : UInt8))) := by
  by_cases h : expected = tag
  · rw [if_pos ((constantTimeEq_iff _ _).mpr h), if_pos h]
  · rw [if_neg fun hc => h ((constantTimeEq_iff _ _).mp hc), if_neg h]

/-- The offset the nonce gives. -/
def startOffset (ocb : Ocb3Aes256) (nonce : Fixed 12) : Block :=
  initialOffset (bottom nonce) (stretchOf (ocb.encryptBlock (top nonce)))

section
variable {ocb : Ocb3Aes256} (hll : ocb.ll.length = lTableSize) (nonce : Fixed 12) (aad : Bytes)
include hll

theorem encrypt_eq {buffer : Bytes} (hbound : buffer.length < 2 ^ lTableSize * blockSize) :
    ocb.encryptInPlaceDetached nonce aad buffer =
      (ocb.computeTag aad (finalChecksum buffer)
        (ocb.finalOffset (ocb.startOffset nonce) buffer.length)).map
        fun tag => (ocb.encBytes (ocb.startOffset nonce) buffer, tag) := by
  have hloop := encryptLoop_eq hll (ocb.startOffset nonce) buffer hbound
  rw [startOffset] at hloop
  simp only [encryptInPlaceDetached, deriveNonceVariables]
  rw [hloop]
  simp only [Option.bind_eq_bind, Option.bind_some, mul_blockSize]
  by_cases hrest : buffer.length % blockSize > 0
  · rw [if_pos hrest, drop_rewritten, take_drop_rest, xorPad_rewritten]
    simp only [encBytes, mapBytes, finalChecksum, finalOffset, if_pos hrest, startOffset]
    rw [Option.map_eq_bind]
    rfl
  · rw [if_neg hrest, rewritten, drop_rest_of_whole hrest, List.append_nil]
    simp only [encBytes, mapBytes, finalChecksum, finalOffset, if_neg hrest, startOffset,
      drop_rest_of_whole hrest, List.zipWith_nil_left, List.append_nil]
    rw [Option.map_eq_bind]
    rfl

/-- Decrypting leaves `decBytes`, or nothing but zeros, as the tag of `decBytes` says. -/
theorem decrypt_eq {buffer : Bytes} (hbound : buffer.length < 2 ^ lTableSize * blockSize)
    (tag : Tag) :
    ocb.decryptInPlaceDetached nonce aad buffer tag =
      (ocb.computeTag aad (finalChecksum (ocb.decBytes (ocb.startOffset nonce) buffer))
        (ocb.finalOffset (ocb.startOffset nonce) buffer.length)).map
        fun expected =>
          if expected = tag then (.ok (), ocb.decBytes (ocb.startOffset nonce) buffer)
          else (.error (), (ocb.decBytes (ocb.startOffset nonce) buffer).map fun _ => 0) := by
  have hloop := decryptLoop_eq hll (ocb.startOffset nonce) buffer hbound
  have hlast := decryptLast_eq ocb (ocb.startOffset nonce) buffer
  simp only [decryptInPlaceDetached, deriveNonceVariables]
  rw [← startOffset, hloop]
  simp only [Option.bind_eq_bind, Option.bind_some, mul_blockSize, verdict_eq]
  rw [hlast, Option.map_eq_bind]
  rfl

end

/-! ### Associated data -/

section
variable (ocb : Ocb3Aes256) (aad : Bytes)

/-- The sum over the first `i` blocks of the associated data. -/
def sumOf : Nat → Block
  | 0 => zeroBlock
  | i + 1 =>
      xorBlock (sumOf i)
        (ocb.encryptBlock (xorBlock (blockOf 16 aad i) (ocb.offsetAfter zeroBlock (i + 1))))

/-- The sum over all of it. -/
def authOf : Block :=
  let whole := ocb.sumOf aad (aad.length / blockSize)
  if aad.length % blockSize > 0 then
    xorBlock whole (ocb.encryptBlock
      (xorBlock (padBlock (aad.drop (16 * (aad.length / blockSize))))
        (ocb.finalOffset zeroBlock aad.length)))
  else whole

variable {ocb aad} (hll : ocb.ll.length = lTableSize)
include hll

theorem hashStep_eq {i : Nat} (hi : i < 2 ^ lTableSize - 1) (h : 16 * (i + 1) ≤ aad.length) :
    ocb.hashStep aad ⟨ocb.offsetAfter zeroBlock i, ocb.sumOf aad i⟩ i =
      some ⟨ocb.offsetAfter zeroBlock (i + 1), ocb.sumOf aad (i + 1)⟩ := by
  simp only [hashStep, getElem?_ll hll hi, slice16_eq h, Option.bind_eq_bind, Option.bind_some]
  rfl

theorem hashAd_eq (h : aad.length < 2 ^ lTableSize * blockSize) :
    ocb.hashAd aad = some (ocb.authOf aad) := by
  have hloop := foldlM_range_eq
    (fun i => (⟨ocb.offsetAfter zeroBlock i, ocb.sumOf aad i⟩ : HashState))
    (fun i hi => hashStep_eq hll (block_lt h hi).1 (block_lt h hi).2)
  simp only [hashAd]
  rw [show (⟨zeroBlock, zeroBlock⟩ : HashState) =
    ⟨ocb.offsetAfter zeroBlock 0, ocb.sumOf aad 0⟩ from rfl, hloop]
  simp only [Option.bind_eq_bind, Option.bind_some, mul_blockSize, take_drop_rest, authOf, finalOffset]
  by_cases hrest : aad.length % blockSize > 0
  · simp only [if_pos hrest]
  · simp only [if_neg hrest]

theorem hashAd_none (h : 2 ^ lTableSize * blockSize ≤ aad.length) : ocb.hashAd aad = none := by
  have hmem : 2 ^ lTableSize - 1 ∈ List.range (aad.length / blockSize) := by
    rw [List.mem_range]
    simp only [lTableSize, blockSize] at *
    omega
  have hend : ocb.ll[ntz (2 ^ lTableSize - 1 + 1)]? = none :=
    List.getElem?_eq_none (by rw [hll]; decide)
  have hstep : ∀ s, ocb.hashStep aad s (2 ^ lTableSize - 1) = none := by
    intro s
    rw [hashStep, hend]
    rfl
  simp only [hashAd]
  rw [foldlM_eq_none hstep hmem]
  rfl

theorem computeTag_isSome (h : aad.length < 2 ^ lTableSize * blockSize) (checksum offset : Block) :
    ∃ tag, ocb.computeTag aad checksum offset = some tag := by
  rw [computeTag, hashAd_eq hll h]
  exact ⟨_, rfl⟩

end

end Ocb3Aes256

namespace Ocb3Aes256

/-! ### Inverse maps -/

theorem mapBytes_mapBytes (ocb : Ocb3Aes256) (start : Block) {f g : Bytes → Nat → Block}
    (h : ∀ s t j, blockOf 16 t j = f s j → g t j = blockOf 16 s j) (buffer : Bytes) :
    ocb.mapBytes start g (ocb.mapBytes start f buffer) = buffer := by
  have hlen := length_mapBytes ocb start f buffer
  have hblocks : joined (g (ocb.mapBytes start f buffer)) (buffer.length / blockSize) =
      buffer.take (16 * (buffer.length / blockSize)) := by
    rw [← joined_blockOf]
    · exact joined_congr fun j hj => h _ _ _ (blockOf_mapBytes ocb start f buffer hj)
    · simp only [blockSize]
      omega
  have hrest : (buffer.drop (16 * (buffer.length / blockSize))).length ≤
      (ocb.encryptBlock (ocb.finalOffset start buffer.length)).val.length := by
    rw [(ocb.encryptBlock _).property, List.length_drop]
    simp only [blockSize]
    omega
  rw [mapBytes, hlen, hblocks, drop_mapBytes, zipWith_xor_self hrest, List.take_append_drop]

theorem decBytes_encBytes (ocb : Ocb3Aes256) (start : Block) (buffer : Bytes) :
    ocb.decBytes start (ocb.encBytes start buffer) = buffer := by
  refine mapBytes_mapBytes ocb start (fun s t j hj => ?_) buffer
  simp [plainBlock, hj, cipherBlock, encryptBlock, decryptBlock]

theorem encBytes_decBytes (ocb : Ocb3Aes256) (start : Block) (buffer : Bytes) :
    ocb.encBytes start (ocb.decBytes start buffer) = buffer := by
  refine mapBytes_mapBytes ocb start (fun s t j hj => ?_) buffer
  simp [plainBlock, hj, cipherBlock, encryptBlock, decryptBlock]

end Ocb3Aes256

/-! ### Round trip -/

open Ocb3Aes256

/-- **Encrypting and decrypting undo each other**: whatever the cipher and the nonce,
what was encrypted is accepted and given back, what is accepted is what encrypting its
plaintext gives, and what is refused leaves a buffer of zeros. -/
theorem ocb3_round_trip : ∀ (cipher : Equiv.Perm Block) (nonce : Fixed 12) (aad buffer : Bytes),
    buffer.length < 2 ^ 24 * 16 →
    let ocb := new cipher
    (aad.length < 2 ^ 24 * 16 →
      (∃ out, ocb.encryptInPlaceDetached nonce aad buffer = some out) ∧
      ∀ tag, ∃ out, ocb.decryptInPlaceDetached nonce aad buffer tag = some out) ∧
    (∀ ciphertext tag, ocb.encryptInPlaceDetached nonce aad buffer = some (ciphertext, tag) →
      ocb.decryptInPlaceDetached nonce aad ciphertext tag = some (.ok (), buffer)) ∧
    (∀ tag plaintext, ocb.decryptInPlaceDetached nonce aad buffer tag = some (.ok (), plaintext) →
      ocb.encryptInPlaceDetached nonce aad plaintext = some (buffer, tag)) ∧
    (∀ tag rest, ocb.decryptInPlaceDetached nonce aad buffer tag = some (.error (), rest) →
      rest = List.replicate buffer.length 0) := by
  intro cipher nonce aad buffer hbound ocb
  have hll : ocb.ll.length = lTableSize := length_new_ll cipher
  have hdecLen : (ocb.decBytes (ocb.startOffset nonce) buffer).length = buffer.length :=
    length_mapBytes ..
  refine ⟨fun haad => ⟨?_, fun tag => ?_⟩, ?_, ?_, ?_⟩
  · obtain ⟨tag, htag⟩ := computeTag_isSome hll haad (finalChecksum buffer)
      (ocb.finalOffset (ocb.startOffset nonce) buffer.length)
    rw [encrypt_eq hll nonce aad hbound, htag]
    exact ⟨_, rfl⟩
  · obtain ⟨expected, htag⟩ := computeTag_isSome hll haad
      (finalChecksum (ocb.decBytes (ocb.startOffset nonce) buffer))
      (ocb.finalOffset (ocb.startOffset nonce) buffer.length)
    rw [decrypt_eq hll nonce aad hbound, htag]
    exact ⟨_, rfl⟩
  · intro ciphertext tag h
    rw [encrypt_eq hll nonce aad hbound, Option.map_eq_some_iff] at h
    obtain ⟨expected, htag, hout⟩ := h
    obtain ⟨rfl, rfl⟩ := Prod.mk.inj hout
    have hlen : (ocb.encBytes (ocb.startOffset nonce) buffer).length = buffer.length :=
      length_mapBytes ..
    rw [decrypt_eq hll nonce aad (hlen.symm ▸ hbound), decBytes_encBytes, hlen, htag]
    simp
  · intro tag plaintext h
    rw [decrypt_eq hll nonce aad hbound, Option.map_eq_some_iff] at h
    obtain ⟨expected, htag, hout⟩ := h
    by_cases hexp : expected = tag
    · rw [if_pos hexp] at hout
      obtain ⟨-, rfl⟩ := Prod.mk.inj hout
      rw [encrypt_eq hll nonce aad (hdecLen.symm ▸ hbound), encBytes_decBytes, hdecLen, htag, hexp]
      rfl
    · rw [if_neg hexp] at hout
      cases (Prod.mk.inj hout).1
  · intro tag rest h
    rw [decrypt_eq hll nonce aad hbound, Option.map_eq_some_iff] at h
    obtain ⟨expected, htag, hout⟩ := h
    by_cases hexp : expected = tag
    · rw [if_pos hexp] at hout
      cases (Prod.mk.inj hout).1
    · rw [if_neg hexp] at hout
      obtain ⟨-, rfl⟩ := Prod.mk.inj hout
      rw [List.map_const', hdecLen]

/-- Twenty bytes: a whole block and a part of one. -/
def sampleBuffer : Bytes := (List.range 20).map UInt8.ofNat

def sampleNonce : Fixed 12 := ⟨List.replicate 12 0xAB, rfl⟩

/-- The identity as a cipher, on a buffer with a partial block. -/
theorem ocb3_round_trip_sample :
    sampleBuffer.length < 2 ^ 24 * 16 ∧
      (∀ ciphertext tag,
        (new (Equiv.refl Block)).encryptInPlaceDetached sampleNonce [1, 2, 3] sampleBuffer =
          some (ciphertext, tag) →
        (new (Equiv.refl Block)).decryptInPlaceDetached sampleNonce [1, 2, 3] ciphertext tag =
          some (.ok (), sampleBuffer)) :=
  ⟨by decide, (ocb3_round_trip (Equiv.refl Block) sampleNonce [1, 2, 3] sampleBuffer (by decide)).2.1⟩

end LimniFS.Ocb3
