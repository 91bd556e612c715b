/-
The CAR archive: blocks with their content identifiers, one after another.

Every number in it is a varint, and the decoder does not ask for the shortest one: it takes a spelling
with zeros at the end, and one of ten bytes whose last byte does not fit the word, of which it keeps
the bits that fit (`readVarint_eq_ok`).  How long a content identifier is it takes from the widths that
the multihash's two numbers have when they are spelled as short as possible, whatever their width.
-/
import LimniFS.Core
import LimniFS.Lib.Leb128
import Mathlib.Tactic.Ring

namespace LimniFS

open Lib

inductive CarError where
  | truncatedVarint
  | varintTooLong
  | varintOverflow
  | unsupportedMultihash (code : Nat)
  | unsupportedCidVersion (version : Nat)
  | unsupportedCodec (codec : Nat)
  | truncatedMultihash
  | truncatedHeader
  | truncatedBlock
  | lengthOverflow
  deriving DecidableEq, Repr

/-- Multihash code for BLAKE3-256. -/
def multihashBlake3_256 : Nat := 0x1e

/-- CID codec for raw bytes. -/
def cidCodecRaw : Nat := 0x55

def cidVersion : Nat := 1

/-! ### Varints -/

/-- What `write_varint` appends. -/
def writeVarint (value : Nat) : Bytes :=
  if 0x80 ≤ value then UInt8.ofNat (value &&& 0x7F ||| 0x80) :: writeVarint (value >>> 7)
  else [UInt8.ofNat value]
termination_by value
decreasing_by
  rw [Nat.shiftRight_eq_div_pow]
  omega

/-- `u64::checked_shl`. -/
def checkedShl (value shift : Nat) : Option Nat :=
  if shift < 64 then some ((value <<< shift) % 2 ^ 64) else none

/-- The loop of `read_varint`, with `i` bytes behind it. -/
def readVarintLoop : Bytes → Nat → Nat → Nat → Except CarError (Nat × Nat)
  | [], _, _, _ => .error .truncatedVarint
  | b :: bytes, i, value, shift =>
    if i ≥ 10 then .error .varintTooLong
    else
      match checkedShl (b.toNat &&& 0x7F) shift with
      | none => .error .varintOverflow
      | some bits =>
        if b &&& 0x80 = 0 then .ok (value ||| bits, i + 1)
        else readVarintLoop bytes (i + 1) (value ||| bits) (shift + 7)

def readVarint (bytes : Bytes) : Except CarError (Nat × Nat) := readVarintLoop bytes 0 0 0

/-! ### Content identifiers -/

def encodeBlake3Multihash (digest : Digest) : Bytes :=
  writeVarint multihashBlake3_256 ++ writeVarint 32 ++ digest.val

def encodeRawCid (digest : Digest) : Bytes :=
  writeVarint cidVersion ++ writeVarint cidCodecRaw ++ encodeBlake3Multihash digest

/-- `copy_from_slice` of the 32 bytes at `start`. -/
def digestAt (bytes : Bytes) (start : Nat) (h : ¬ bytes.length < start + 32) : Digest :=
  ⟨(bytes.drop start).take 32, by rw [List.length_take, List.length_drop]; omega⟩

def decodeBlake3Multihash (bytes : Bytes) : Except CarError Digest := do
  let (code, consumedCode) ← readVarint bytes
  if code ≠ multihashBlake3_256 then throw (.unsupportedMultihash code)
  else
    let (len, consumedLen) ← readVarint (bytes.drop consumedCode)
    if len ≠ 32 then throw (.unsupportedMultihash len)
    else
      let start := consumedCode + consumedLen
      if h : bytes.length < start + 32 then throw .truncatedMultihash
      else return digestAt bytes start h

def decodeRawCid (bytes : Bytes) : Except CarError (Digest × Nat) := do
  let (version, consumedV) ← readVarint bytes
  if version ≠ cidVersion then throw (.unsupportedCidVersion version)
  else
    let (codec, consumedC) ← readVarint (bytes.drop consumedV)
    if codec ≠ cidCodecRaw then throw (.unsupportedCodec codec)
    else
      let mhStart := consumedV + consumedC
      let digest ← decodeBlake3Multihash (bytes.drop mhStart)
      -- one byte for each of the multihash's two varints
      return (digest, mhStart + 2 + 32)

/-! ### Archives -/

/-- A block: the digest of its CID, and its data. -/
structure CarBlock where
  digest : Digest
  data : Bytes
  deriving DecidableEq

/-- The CBOR of the header; `none` where the length of the CID does not fit a byte. -/
def encodeCarHeader (rootCid : Bytes) : Option Bytes :=
  if rootCid.length < 256 then
    some ([0xa2, 0x67] ++ ascii "version" ++ [0x01, 0x65] ++ ascii "roots" ++ [0x81]
      ++ [0x40 ||| (0x1f &&& UInt8.ofNat rootCid.length)] ++ rootCid)
  else none

/-- One round of the encoder's loop. -/
def encodeBlock (block : CarBlock) : Bytes :=
  let cid := encodeRawCid block.digest
  writeVarint (cid.length + block.data.length) ++ cid ++ block.data

/-- The CID of the first block, or nothing. -/
def carRootCid (blocks : List CarBlock) : Bytes :=
  blocks.head?.elim [] fun block => encodeRawCid block.digest

def encodeCarV1 (blocks : List CarBlock) : Option Bytes :=
  (encodeCarHeader (carRootCid blocks)).map fun header =>
    writeVarint header.length ++ header ++ blocks.flatMap encodeBlock

/-- `checked_add` of lengths, and the error that follows. -/
def checkedLength (a b : Nat) : Except CarError Nat :=
  if a + b < usizeLimit then .ok (a + b) else .error .lengthOverflow

theorem checkedLength_eq_ok {a b n : Nat} :
    checkedLength a b = .ok n ↔ a + b < usizeLimit ∧ n = a + b := by
  unfold checkedLength
  by_cases h : a + b < usizeLimit
  · rw [if_pos h]
    constructor
    · intro hn
      exact ⟨h, (Except.ok.inj hn).symm⟩
    · rintro ⟨-, rfl⟩
      rfl
  · rw [if_neg h]
    constructor
    · intro hn
      cases hn
    · intro hn
      exact absurd hn.1 h

/-- One round of the decoder's loop: the block at `pos`, and where the next one starts. -/
def decodeBlock (bytes : Bytes) (pos : Nat) : Except CarError (CarBlock × Nat) := do
  let (blockInnerLen, consumedBlockLen) ← readVarint (bytes.drop pos)
  let blockStart ← checkedLength pos consumedBlockLen
  let blockEnd ← checkedLength blockStart blockInnerLen
  if bytes.length < blockEnd then throw .truncatedBlock
  else
    let blockBytes := (bytes.take blockEnd).drop blockStart
    let (digest, consumedCid) ← decodeRawCid blockBytes
    return (⟨digest, blockBytes.drop consumedCid⟩, blockEnd)

/-! ### What the decoder reads -/

theorem and_127 (n : Nat) : n &&& 0x7F = n % 128 := Nat.and_two_pow_sub_one_eq_mod n 7

theorem writeVarint_eq (value : Nat) : writeVarint value = Leb128.encode value := by
  induction value using Nat.strongRecOn with
  | ind value ih =>
      by_cases h : 0x80 ≤ value
      · have hor : value % 128 ||| 128 = value % 128 + 128 := by
          have := Nat.two_pow_add_eq_or_of_lt (show value % 128 < 2 ^ 7 by omega) 1
          rw [Nat.mul_one] at this
          rw [Nat.or_comm, ← this, Nat.add_comm]
        have hshift : value >>> 7 = value / 128 := Nat.shiftRight_eq_div_pow value 7
        rw [writeVarint, if_pos h, Leb128.encode_of_le h, and_127, hor, hshift,
          ih (value / 128) (by omega)]
      · rw [writeVarint, if_neg h, Leb128.encode_of_lt (by omega)]

theorem continued_iff (b : UInt8) : b &&& 0x80 = 0 ↔ b.toNat < 128 := by
  have hbit : (b &&& 0x80).toNat = b.toNat / 128 * 128 := by
    have hb := b.toNat_lt
    rw [UInt8.toNat_and]
    show b.toNat &&& 2 ^ 7 = b.toNat / 2 ^ 7 * 2 ^ 7
    rw [Nat.and_two_pow]
    have : b.toNat.testBit 7 = decide (128 ≤ b.toNat) := by
      rw [Nat.testBit_eq_decide_div_mod_eq]
      congr 1
      exact propext ⟨fun h => by omega, fun h => by omega⟩
    rw [this]
    by_cases h : 128 ≤ b.toNat
    · simp [h]; omega
    · simp [h]; omega
  rw [← UInt8.toNat_inj, hbit]
  show b.toNat / 128 * 128 = 0 ↔ b.toNat < 128
  omega

/-- The digits of one byte, shifted to their place, and the digits read before. -/
theorem or_bits {i value : Nat} (hi : i < 10) (hvalue : value < 2 ^ (7 * i)) (b : Nat) :
    value ||| ((b &&& 0x7F) <<< (7 * i)) % 2 ^ 64 = value + 2 ^ (7 * i) * (b % 128) % 2 ^ 64 ∧
      value + 2 ^ (7 * i) * (b % 128) % 2 ^ 64 < 2 ^ 64 ∧
      value + 2 ^ (7 * i) * (b % 128) % 2 ^ 64 < 2 ^ (7 * (i + 1)) := by
  have hword : 2 ^ 64 = 2 ^ (7 * i) * 2 ^ (64 - 7 * i) := by
    rw [← Nat.pow_add]
    congr 1
    omega
  have hbits : 2 ^ (7 * i) * (b % 128) % 2 ^ 64 = 2 ^ (7 * i) * (b % 128 % 2 ^ (64 - 7 * i)) := by
    rw [hword, Nat.mul_mod_mul_left]
  have hdigit : b % 128 % 2 ^ (64 - 7 * i) < 2 ^ (64 - 7 * i) := Nat.mod_lt _ (Nat.two_pow_pos _)
  have hlow : b % 128 % 2 ^ (64 - 7 * i) ≤ 127 := by
    have := Nat.mod_le (b % 128) (2 ^ (64 - 7 * i))
    omega
  refine ⟨?_, ?_, ?_⟩
  · rw [and_127, Nat.shiftLeft_eq, Nat.mul_comm (b % 128), hbits, Nat.add_comm,
      Nat.two_pow_add_eq_or_of_lt hvalue, Nat.or_comm]
  · rw [hbits, hword]
    calc value + 2 ^ (7 * i) * (b % 128 % 2 ^ (64 - 7 * i))
        < 2 ^ (7 * i) + 2 ^ (7 * i) * (b % 128 % 2 ^ (64 - 7 * i)) := by omega
      _ = 2 ^ (7 * i) * (b % 128 % 2 ^ (64 - 7 * i) + 1) := by ring
      _ ≤ 2 ^ (7 * i) * 2 ^ (64 - 7 * i) := Nat.mul_le_mul_left _ hdigit
  · have hnext : 2 ^ (7 * (i + 1)) = 2 ^ (7 * i) * 128 := by rw [Nat.mul_add, Nat.pow_add]
    rw [hbits, hnext]
    calc value + 2 ^ (7 * i) * (b % 128 % 2 ^ (64 - 7 * i))
        < 2 ^ (7 * i) + 2 ^ (7 * i) * (b % 128 % 2 ^ (64 - 7 * i)) := by omega
      _ = 2 ^ (7 * i) * (b % 128 % 2 ^ (64 - 7 * i) + 1) := by ring
      _ ≤ 2 ^ (7 * i) * 128 := Nat.mul_le_mul_left _ (by omega)

theorem readVarintLoop_cons {i value : Nat} (hi : i < 10) (hvalue : value < 2 ^ (7 * i)) (b : UInt8)
    (bytes : Bytes) :
    readVarintLoop (b :: bytes) i value (7 * i) =
      if b.toNat < 128 then .ok (value + 2 ^ (7 * i) * (b.toNat % 128) % 2 ^ 64, i + 1)
      else readVarintLoop bytes (i + 1) (value + 2 ^ (7 * i) * (b.toNat % 128) % 2 ^ 64)
        (7 * (i + 1)) := by
  have hshl : checkedShl (b.toNat &&& 0x7F) (7 * i)
      = some (((b.toNat &&& 0x7F) <<< (7 * i)) % 2 ^ 64) := by
    unfold checkedShl
    rw [if_pos (by omega)]
  rw [readVarintLoop, if_neg (by omega), hshl]
  simp only [(or_bits hi hvalue b.toNat).1]
  by_cases h : b.toNat < 128
  · rw [if_pos h, if_pos ((continued_iff b).mpr h)]
  · rw [if_neg h, if_neg (mt (continued_iff b).mp h), Nat.mul_add]

theorem readVarintLoop_eq_ok : ∀ {bytes : Bytes} {i value v n : Nat}, i ≤ 10 → value < 2 ^ (7 * i) →
    (readVarintLoop bytes i value (7 * i) = .ok (v, n) ↔
      ∃ s rest, bytes = s ++ rest ∧ Leb128.Spelling s ∧ n = i + s.length ∧ n ≤ 10 ∧
        v = (value + 2 ^ (7 * i) * Leb128.value s) % 2 ^ 64) := by
  intro bytes
  induction bytes with
  | nil =>
      intro i value v n _ _
      constructor
      · intro h
        cases h
      · rintro ⟨s, rest, happ, hs, -⟩
        exact absurd (List.append_eq_nil_iff.mp happ.symm).1 hs.ne_nil
  | cons b bytes ih =>
      intro i value v n hi hvalue
      by_cases hten : i = 10
      · subst hten
        constructor
        · intro h
          unfold readVarintLoop at h
          rw [if_pos (Nat.le_refl 10)] at h
          cases h
        · rintro ⟨s, rest, -, hs, hn, hle, -⟩
          have := hs.length_pos
          omega
      · have hi : i < 10 := by omega
        obtain ⟨-, hword, hnext⟩ := or_bits hi hvalue b.toNat
        rw [readVarintLoop_cons hi hvalue]
        by_cases hb : b.toNat < 128
        · have hval : (value + 2 ^ (7 * i) * Leb128.value [b]) % 2 ^ 64
              = value + 2 ^ (7 * i) * (b.toNat % 128) % 2 ^ 64 := by
            rw [Leb128.value, Leb128.value, Nat.mul_zero, Nat.add_zero]
            conv_rhs => rw [← Nat.mod_eq_of_lt hword]
            rw [Nat.add_mod_mod]
          rw [if_pos hb]
          constructor
          · intro h
            cases h
            exact ⟨[b], bytes, rfl, .last hb, rfl, by omega, hval.symm⟩
          · rintro ⟨s, rest, happ, hs, rfl, -, rfl⟩
            obtain ⟨rfl, rfl⟩ := Leb128.spelling_append_inj (.last hb) hs
              (show [b] ++ bytes = s ++ rest from happ)
            rw [hval, List.length_singleton]
        · have hmore : ∀ s, (value + 2 ^ (7 * i) * (b.toNat % 128) % 2 ^ 64
              + 2 ^ (7 * (i + 1)) * Leb128.value s) % 2 ^ 64
              = (value + 2 ^ (7 * i) * Leb128.value (b :: s)) % 2 ^ 64 := by
            intro s
            rw [Nat.add_right_comm, Nat.add_mod_mod, Leb128.value]
            congr 1
            rw [Nat.mul_add 7 i 1, Nat.pow_add]
            ring
          rw [if_neg hb, ih hi hnext]
          constructor
          · rintro ⟨s, rest, rfl, hs, rfl, hle, rfl⟩
            refine ⟨b :: s, rest, rfl, .more (by omega) hs, ?_, hle, hmore s⟩
            rw [List.length_cons]
            omega
          · rintro ⟨s, rest, happ, hs, rfl, hle, rfl⟩
            cases hs with
            | last h =>
                rw [List.singleton_append] at happ
                obtain ⟨rfl, -⟩ := List.cons.inj happ
                exact absurd h hb
            | @more b' s h hs =>
                rw [List.cons_append] at happ
                obtain ⟨rfl, rfl⟩ := List.cons.inj happ
                refine ⟨s, rest, rfl, hs, ?_, hle, (hmore s).symm⟩
                rw [List.length_cons]
                omega

/-- A spelling of at most ten bytes, and what it spells in one word. -/
structure ReadAs (s : Bytes) (v : Nat) : Prop where
  spelling : Leb128.Spelling s
  short : s.length ≤ 10
  value : v = Leb128.value s % 2 ^ 64

/-- **What a varint is read as.**  Any spelling of at most ten bytes, modulo the word. -/
theorem readVarint_eq_ok {bytes : Bytes} {v n : Nat} :
    readVarint bytes = .ok (v, n) ↔ ∃ s rest, bytes = s ++ rest ∧ ReadAs s v ∧ n = s.length := by
  have h := @readVarintLoop_eq_ok bytes 0 0 v n (by omega) (by simp)
  simp only [Nat.mul_zero, Nat.pow_zero, Nat.one_mul, Nat.zero_add] at h
  unfold readVarint
  rw [h]
  constructor
  · rintro ⟨s, rest, happ, hs, rfl, hle, hv⟩
    exact ⟨s, rest, happ, ⟨hs, hle, hv⟩, rfl⟩
  · rintro ⟨s, rest, happ, ⟨hs, hle, hv⟩, rfl⟩
    exact ⟨s, rest, happ, hs, rfl, hle, hv⟩

theorem ReadAs.det {s t x y : Bytes} {v w : Nat} (hs : ReadAs s v) (ht : ReadAs t w)
    (h : s ++ x = t ++ y) : s = t ∧ v = w ∧ x = y := by
  obtain ⟨rfl, hrest⟩ := Leb128.spelling_append_inj hs.spelling ht.spelling h
  exact ⟨rfl, hs.value.trans ht.value.symm, hrest⟩

theorem ReadAs.length_pos {s : Bytes} {v : Nat} (h : ReadAs s v) : 0 < s.length :=
  h.spelling.length_pos

theorem readAs_writeVarint {v : Nat} (h : v < 2 ^ 64) : ReadAs (writeVarint v) v := by
  rw [writeVarint_eq]
  refine ⟨Leb128.spelling_encode v, Leb128.length_encode_le ?_, ?_⟩
  · exact Nat.lt_of_lt_of_le h (by decide)
  · rw [Leb128.value_encode, Nat.mod_eq_of_lt h]

theorem readVarint_append {s : Bytes} {v : Nat} (h : ReadAs s v) (rest : Bytes) :
    readVarint (s ++ rest) = .ok (v, s.length) :=
  readVarint_eq_ok.mpr ⟨s, rest, rfl, h, rfl⟩

theorem readVarint_bind_eq_ok {bytes : Bytes} {α : Type} {f : Nat × Nat → Except CarError α} {a : α} :
    (readVarint bytes >>= f) = .ok a ↔
      ∃ s v rest, bytes = s ++ rest ∧ ReadAs s v ∧ f (v, s.length) = .ok a := by
  rw [except_bind_eq_ok]
  constructor
  · rintro ⟨⟨v, n⟩, hread, hf⟩
    obtain ⟨s, rest, rfl, hs, rfl⟩ := readVarint_eq_ok.mp hread
    exact ⟨s, v, rest, rfl, hs, hf⟩
  · rintro ⟨s, v, rest, rfl, hs, hf⟩
    exact ⟨(v, s.length), readVarint_append hs rest, hf⟩

theorem decodeBlock_lt {bytes : Bytes} {pos next : Nat} {block : CarBlock}
    (h : decodeBlock bytes pos = .ok (block, next)) : pos < next := by
  unfold decodeBlock at h
  obtain ⟨⟨len, consumed⟩, hlen, h⟩ := except_bind_eq_ok.mp h
  obtain ⟨start, hstart, h⟩ := except_bind_eq_ok.mp h
  obtain ⟨stop, hstop, h⟩ := except_bind_eq_ok.mp h
  obtain ⟨s, rest, -, hs, hconsumed⟩ := readVarint_eq_ok.mp hlen
  have hpos := hs.length_pos
  have hstart := (checkedLength_eq_ok.mp hstart).2
  have hstop := (checkedLength_eq_ok.mp hstop).2
  have hnext : stop = next := by
    split at h
    · cases h
    · obtain ⟨⟨digest, cid⟩, -, h⟩ := except_bind_eq_ok.mp h
      cases h
      rfl
  omega

/-- The decoder's loop. -/
def decodeBlocks (bytes : Bytes) (pos : Nat) : Except CarError (List CarBlock) :=
  if pos < bytes.length then
    match _h : decodeBlock bytes pos with
    | .error e => .error e
    | .ok (block, next) => (decodeBlocks bytes next).map (block :: ·)
  else .ok []
termination_by bytes.length - pos
decreasing_by
  have := decodeBlock_lt _h
  omega

def decodeCarV1 (bytes : Bytes) : Except CarError (List CarBlock) := do
  let (headerLen, consumedHeaderLen) ← readVarint bytes
  let headerEnd ← checkedLength consumedHeaderLen headerLen
  if bytes.length < headerEnd then throw .truncatedHeader
  -- the bytes of the header are not looked at
  else decodeBlocks bytes headerEnd

end LimniFS
