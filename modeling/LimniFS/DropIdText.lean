/-
The text form of a drop id.

An id is written as `b3:` and its 32 bytes in lowercase base32 without padding: five bits a letter, the
last letter filled up with zeros.  Both directions run bits through a 64-bit accumulator that is never
masked.  A text is accepted if its bits are those of whole bytes and fewer than five zeros more, so
every id has one text and no other text stands for it (`drop_id_text_canonical`).
-/
import LimniFS.Core
import LimniFS.Lib.BitAccumulator

namespace LimniFS

open Lib

/-! ### Base32 -/

/-- The RFC 4648 base32 lowercase alphabet. -/
def base32Lower : List Char := "abcdefghijklmnopqrstuvwxyz234567".toList

def base32Letter (idx : Nat) : Char := base32Lower.getD idx 'a'

def base32Value (ch : Char) : Option Nat :=
  let n := ch.toNat
  if 97 ≤ n ∧ n ≤ 122 then some (n - 97)
  else if 50 ≤ n ∧ n ≤ 55 then some (n - 50 + 26)
  else none

/-- What is left of a number in a `u64`. -/
def wrap64 (n : Nat) : Nat := n % 2 ^ 64

section

variable (wrap : Nat → Nat)

/-- The loop of the encoder; `wrap` is what an accumulator keeps of a number. -/
def base32EncodeLoop : Bytes → Accumulator → List Char
  | [], a =>
    if 0 < a.bits then [base32Letter (wrap (a.buffer <<< (5 - a.bits)) &&& 0x1F)] else []
  | byte :: rest, a =>
    let (digits, a) := (a.push wrap 8 byte.toNat).drain 5
    digits.map base32Letter ++ base32EncodeLoop rest a

/-- The loop of the decoder. -/
def base32DecodeLoop : List Char → Accumulator → Option Bytes
  | [], a => if 5 ≤ a.bits ∨ a.buffer &&& (2 ^ a.bits - 1) ≠ 0 then none else some []
  | ch :: rest, a =>
    match base32Value ch with
    | none => none
    | some val =>
      let a := a.push wrap 5 val
      if 8 ≤ a.bits then
        (base32DecodeLoop rest (a.pop 8)).map (UInt8.ofNat (a.top 8) :: ·)
      else base32DecodeLoop rest a

end

def encodeBase32LowerNoPad (input : Bytes) : List Char := base32EncodeLoop wrap64 input ⟨0, 0⟩

def decodeBase32LowerNoPad (input : List Char) : Option Bytes :=
  base32DecodeLoop wrap64 input ⟨0, 0⟩

/-! ### Drop ids -/

def dropIdPrefix : List Char := "b3:".toList

/-- `DropId::to_text`. -/
def dropIdToText (id : Digest) : List Char := dropIdPrefix ++ encodeBase32LowerNoPad id.val

/-- `DropId::parse_text`. -/
def dropIdParseText (s : List Char) : Option Digest :=
  if dropIdPrefix.isPrefixOf s then
    match decodeBase32LowerNoPad (s.drop dropIdPrefix.length) with
    | none => none
    | some bytes => if h : bytes.length = 32 then some ⟨bytes, h⟩ else none
  else none

/-! ### The alphabet -/

theorem base32Value_letter {v : Nat} (hv : v < 32) : base32Value (base32Letter v) = some v := by
  have hall : ∀ v < 32, base32Value (base32Letter v) = some v := by decide
  exact hall v hv

theorem letter_of_base32Value {ch : Char} {v : Nat} (h : base32Value ch = some v) :
    v < 32 ∧ ch = base32Letter v := by
  have hchar : ch = Char.ofNat ch.toNat := (Char.ofNat_toNat ch).symm
  have hletters : ∀ n < 123, 97 ≤ n → Char.ofNat n = base32Letter (n - 97) := by decide
  have hdigits : ∀ n < 56, 50 ≤ n → Char.ofNat n = base32Letter (n - 50 + 26) := by decide
  unfold base32Value at h
  simp only at h
  split at h
  · next hrange =>
      cases h
      exact ⟨by omega, hchar.trans (hletters _ (by omega) hrange.1)⟩
  · split at h
    · next hrange =>
        cases h
        exact ⟨by omega, hchar.trans (hdigits _ (by omega) hrange.1)⟩
    · cases h

/-! ### Five bits and eight -/

/-- The bits of bytes. -/
def byteBits (bytes : Bytes) : List Bool := (bytes.map UInt8.toNat).flatMap (bitsOf 8)

theorem byteBits_cons (byte : UInt8) (rest : Bytes) :
    byteBits (byte :: rest) = bitsOf 8 byte.toNat ++ byteBits rest := rfl

theorem byteBits_length (bytes : Bytes) : (byteBits bytes).length = 8 * bytes.length := by
  rw [byteBits, flatMap_bitsOf_length, List.length_map]

/-- Letters whose bits are given bits and fewer than five zeros. -/
structure Spells (vals : List Nat) (bits : List Bool) : Prop where
  lt : ∀ v ∈ vals, v < 32
  filled : ∃ pad < 5, vals.flatMap (bitsOf 5) = bits ++ List.replicate pad false

/-- **Given bits are spelled in one way.** -/
theorem Spells.unique {vals vals' : List Nat} {bits : List Bool} (h : Spells vals bits)
    (h' : Spells vals' bits) : vals = vals' := by
  obtain ⟨pad, hpad, hbits⟩ := h.filled
  obtain ⟨pad', hpad', hbits'⟩ := h'.filled
  have hlen := congrArg List.length hbits
  have hlen' := congrArg List.length hbits'
  rw [flatMap_bitsOf_length, List.length_append, List.length_replicate] at hlen hlen'
  have hsame : pad = pad' := by omega
  subst hsame
  exact digits_inj (by decide) h.lt h'.lt (hbits.trans hbits'.symm)

/-- The letters spell bytes behind bits that are held. -/
def SpelledBehind (held : List Bool) (s : List Char) (out : Bytes) : Prop :=
  ∃ vals : List Nat, s = vals.map base32Letter ∧ (∀ v ∈ vals, v < 32) ∧ ∃ pad < 5,
    held ++ vals.flatMap (bitsOf 5) = byteBits out ++ List.replicate pad false

section

variable {held : List Bool} {s : List Char} {out : Bytes}

theorem spelledBehind_nil (hshort : held.length < 8) : SpelledBehind held [] out ↔
    out = [] ∧ held.length < 5 ∧ held = List.replicate held.length false := by
  constructor
  · rintro ⟨vals, hvals, -, pad, hpad, hbits⟩
    obtain rfl := List.map_eq_nil_iff.mp hvals.symm
    rw [List.flatMap_nil, List.append_nil] at hbits
    have hlen := congrArg List.length hbits
    rw [List.length_append, byteBits_length, List.length_replicate] at hlen
    obtain rfl : out = [] := List.eq_nil_of_length_eq_zero (by omega)
    obtain rfl : held = List.replicate pad false := hbits
    rw [List.length_replicate]
    exact ⟨rfl, hpad, rfl⟩
  · rintro ⟨rfl, hfew, hzeros⟩
    refine ⟨[], rfl, fun v hv => absurd hv List.not_mem_nil, held.length, hfew, ?_⟩
    rw [List.flatMap_nil, List.append_nil]
    exact hzeros

/-- A letter adds its five bits to what is held. -/
theorem spelledBehind_cons {val : Nat} (hval : val < 32) :
    SpelledBehind held (base32Letter val :: s) out ↔ SpelledBehind (held ++ bitsOf 5 val) s out := by
  constructor
  · rintro ⟨vals, hvals, hlt, pad, hpad, hbits⟩
    cases vals with
    | nil => cases hvals
    | cons v vals =>
        obtain ⟨hsame, rfl⟩ := List.cons.inj hvals
        obtain ⟨hv32, hrest⟩ := List.forall_mem_cons.mp hlt
        have hvalue := base32Value_letter hval
        rw [hsame, base32Value_letter hv32] at hvalue
        obtain rfl := Option.some.inj hvalue
        rw [List.flatMap_cons, ← List.append_assoc] at hbits
        exact ⟨vals, rfl, hrest, pad, hpad, hbits⟩
  · rintro ⟨vals, rfl, hlt, pad, hpad, hbits⟩
    refine ⟨val :: vals, rfl, List.forall_mem_cons.mpr ⟨hval, hlt⟩, pad, hpad, ?_⟩
    rw [List.flatMap_cons, ← List.append_assoc, hbits]

theorem not_spelledBehind {ch : Char} (hnone : base32Value ch = none) :
    ¬ SpelledBehind held (ch :: s) out := by
  rintro ⟨vals, hvals, hlt, -⟩
  cases vals with
  | nil => cases hvals
  | cons v vals =>
      obtain ⟨rfl, -⟩ := List.cons.inj hvals
      rw [base32Value_letter (hlt v List.mem_cons_self)] at hnone
      cases hnone

/-- Eight bits that are held are the first byte. -/
theorem spelledBehind_byte {n : Nat} (hn : n < 256) : SpelledBehind (bitsOf 8 n ++ held) s out ↔
    ∃ more, SpelledBehind held s more ∧ UInt8.ofNat n :: more = out := by
  have hbyte : (UInt8.ofNat n).toNat = n := UInt8.toNat_ofNat_of_lt hn
  constructor
  · rintro ⟨vals, rfl, hlt, pad, hpad, hbits⟩
    have hlen := congrArg List.length hbits
    simp only [List.length_append, byteBits_length, List.length_replicate, bitsOf_length] at hlen
    cases out with
    | nil =>
        rw [List.length_nil] at hlen
        omega
    | cons byte more =>
        rw [byteBits_cons, List.append_assoc, List.append_assoc] at hbits
        obtain ⟨hfirst, hmore⟩ := List.append_inj hbits (by simp)
        refine ⟨more, ⟨vals, rfl, hlt, pad, hpad, hmore⟩, ?_⟩
        rw [bitsOf_inj hfirst hn byte.toNat_lt, UInt8.ofNat_toNat]
  · rintro ⟨more, ⟨vals, rfl, hlt, pad, hpad, hbits⟩, rfl⟩
    refine ⟨vals, rfl, hlt, pad, hpad, ?_⟩
    rw [byteBits_cons, hbyte, List.append_assoc, hbits, List.append_assoc]

end

section

variable {wrap : Nat → Nat} (hwrap : KeepsLow 64 wrap)

include hwrap

/-- **The encoder spells** what is held and the bytes that come. -/
theorem base32EncodeLoop_spells : ∀ (bytes : Bytes) (a : Accumulator), a.bits < 5 →
    ∃ vals, base32EncodeLoop wrap bytes a = vals.map base32Letter ∧
      Spells vals (a.held ++ byteBits bytes) := by
  intro bytes
  induction bytes with
  | nil =>
      intro a ha
      rw [base32EncodeLoop]
      by_cases hbits : 0 < a.bits
      · rw [if_pos hbits]
        have hheld := Accumulator.held_push hwrap (a := a) (w := 5 - a.bits) (v := 0) (by omega)
          (Nat.two_pow_pos _)
        have hpop := Accumulator.held_pop (w := 5) (a := a.push wrap (5 - a.bits) 0) (by
          rw [Accumulator.push_bits]
          omega)
        have hnone : ((a.push wrap (5 - a.bits) 0).pop 5).held = [] := by
          refine List.eq_nil_of_length_eq_zero ?_
          rw [Accumulator.held_length, Accumulator.pop_bits, Accumulator.push_bits]
          omega
        have htop : (a.push wrap (5 - a.bits) 0).top 5 = wrap (a.buffer <<< (5 - a.bits)) &&& 0x1F := by
          have hzero : a.bits + (5 - a.bits) - 5 = 0 := by omega
          rw [Accumulator.top, Accumulator.push_bits, hzero, Nat.shiftRight_zero, Accumulator.push,
            Nat.or_zero]
          rfl
        rw [← htop]
        refine ⟨[_], rfl, fun v hv => ?_, 5 - a.bits, by omega, ?_⟩
        · rw [List.mem_singleton.mp hv]
          exact Accumulator.top_lt 5 _
        · rw [hnone, List.append_nil, hheld, bitsOf_zero] at hpop
          have hnil : byteBits [] = [] := rfl
          rw [List.flatMap_singleton, ← hpop, hnil, List.append_nil]
      · rw [if_neg hbits]
        refine ⟨[], rfl, fun v hv => absurd hv List.not_mem_nil, 0, by omega, ?_⟩
        have hnil : a.held = [] := List.eq_nil_of_length_eq_zero (by
          rw [Accumulator.held_length]
          omega)
        rw [hnil]
        rfl
  | cons byte rest ih =>
      intro a ha
      rw [base32EncodeLoop]
      obtain ⟨hheld, hlt, hleft⟩ :=
        Accumulator.drain_spec (w := 5) (by decide) (a.push wrap 8 byte.toNat)
      rw [Accumulator.held_push hwrap (by omega) byte.toNat_lt] at hheld
      obtain ⟨vals, hvals, hspells⟩ := ih _ hleft
      obtain ⟨pad, hpad, hbits⟩ := hspells.filled
      refine ⟨((a.push wrap 8 byte.toNat).drain 5).1 ++ vals, ?_, ?_, pad, hpad, ?_⟩
      · rw [List.map_append, ← hvals]
      · intro v hv
        rcases List.mem_append.mp hv with hv | hv
        · exact hlt v hv
        · exact hspells.lt v hv
      · rw [List.flatMap_append, hbits, byteBits_cons, ← List.append_assoc a.held, hheld]
        simp only [List.append_assoc]

/-- **The decoder takes what spells** bytes behind what is held, and nothing else. -/
theorem base32DecodeLoop_eq_some : ∀ (s : List Char) (a : Accumulator) (out : Bytes), a.bits < 8 →
    (base32DecodeLoop wrap s a = some out ↔ SpelledBehind a.held s out) := by
  intro s
  induction s with
  | nil =>
      intro a out ha
      have hzero : a.held = List.replicate a.bits false ↔ a.buffer % 2 ^ a.bits = 0 := bitsOf_eq_zeros
      rw [base32DecodeLoop, Nat.and_two_pow_sub_one_eq_mod,
        spelledBehind_nil (by rw [Accumulator.held_length]; exact ha), Accumulator.held_length, hzero]
      by_cases hend : 5 ≤ a.bits ∨ a.buffer % 2 ^ a.bits ≠ 0
      · rw [if_pos hend]
        exact iff_of_false (fun h => by cases h) fun h =>
          hend.elim (Nat.not_le.mpr h.2.1) fun hne => hne h.2.2
      · rw [if_neg hend, Option.some_inj]
        obtain ⟨hfew, hzeros⟩ := not_or.mp hend
        exact ⟨fun h => ⟨h.symm, Nat.not_le.mp hfew, Decidable.not_not.mp hzeros⟩, fun h => h.1.symm⟩
  | cons ch rest ih =>
      intro a out ha
      rw [base32DecodeLoop]
      cases hval : base32Value ch with
      | none => exact iff_of_false (fun h => by cases h) (not_spelledBehind hval)
      | some val =>
          obtain ⟨hval32, rfl⟩ := letter_of_base32Value hval
          have hheld := Accumulator.held_push hwrap (a := a) (w := 5) (v := val) (by omega) hval32
          rw [spelledBehind_cons hval32, ← hheld]
          simp only
          by_cases hbyte : 8 ≤ (a.push wrap 5 val).bits
          · have hleft : ((a.push wrap 5 val).pop 8).bits < 8 := by
              rw [Accumulator.pop_bits, Accumulator.push_bits]
              omega
            rw [if_pos hbyte, Accumulator.held_pop hbyte,
              spelledBehind_byte (Accumulator.top_lt 8 _), Option.map_eq_some_iff]
            simp only [ih _ _ hleft]
          · rw [if_neg hbyte]
            exact ih _ _ (Nat.not_le.mp hbyte)

/-- **The encoder and the decoder are inverse**, and there is no second spelling. -/
theorem base32Decode_iff {s : List Char} {out : Bytes} :
    base32DecodeLoop wrap s ⟨0, 0⟩ = some out ↔ s = base32EncodeLoop wrap out ⟨0, 0⟩ := by
  obtain ⟨vals, hencoded, hspells⟩ := base32EncodeLoop_spells hwrap out ⟨0, 0⟩ (by decide)
  rw [base32DecodeLoop_eq_some hwrap s ⟨0, 0⟩ out (by decide), hencoded]
  constructor
  · rintro ⟨vals', rfl, hlt, pad, hpad, hbits⟩
    rw [hspells.unique ⟨hlt, pad, hpad, hbits⟩]
  · rintro rfl
    obtain ⟨pad, hpad, hbits⟩ := hspells.filled
    exact ⟨vals, rfl, hspells.lt, pad, hpad, hbits⟩

end

theorem base32Encode_wrap {wrap : Nat → Nat} (hwrap : KeepsLow 64 wrap) (bytes : Bytes) :
    base32EncodeLoop wrap bytes ⟨0, 0⟩ = base32EncodeLoop id bytes ⟨0, 0⟩ := by
  obtain ⟨vals, hvals, hspells⟩ := base32EncodeLoop_spells hwrap bytes ⟨0, 0⟩ (by decide)
  obtain ⟨vals', hvals', hspells'⟩ :=
    base32EncodeLoop_spells (keepsLow_id 64) bytes ⟨0, 0⟩ (by decide)
  rw [hvals, hvals', hspells.unique hspells']

theorem base32Decode_wrap {wrap : Nat → Nat} (hwrap : KeepsLow 64 wrap) (s : List Char) :
    base32DecodeLoop wrap s ⟨0, 0⟩ = base32DecodeLoop id s ⟨0, 0⟩ := by
  refine Option.ext fun out => ?_
  rw [base32Decode_iff hwrap, base32Decode_iff (keepsLow_id 64), base32Encode_wrap hwrap]

/-- **Text and id determine each other**, base32 is undone whatever the bytes, and the accumulators
give what unbounded ones would. -/
theorem drop_id_text_canonical :
    (∀ s id, dropIdParseText s = some id ↔ s = dropIdToText id) ∧
    (∀ bytes, decodeBase32LowerNoPad (encodeBase32LowerNoPad bytes) = some bytes) ∧
    (∀ bytes, encodeBase32LowerNoPad bytes = base32EncodeLoop id bytes ⟨0, 0⟩) ∧
    (∀ s, decodeBase32LowerNoPad s = base32DecodeLoop id s ⟨0, 0⟩) := by
  have hwrap : KeepsLow 64 wrap64 := keepsLow_mod 64
  refine ⟨fun s id => ?_, fun bytes => (base32Decode_iff hwrap).mpr rfl, base32Encode_wrap hwrap,
    base32Decode_wrap hwrap⟩
  unfold dropIdParseText dropIdToText
  constructor
  · intro h
    split at h
    · next hprefix =>
        obtain ⟨rest, rfl⟩ := List.isPrefixOf_iff_prefix.mp hprefix
        rw [List.drop_left] at h
        split at h
        · cases h
        · next bytes hbytes =>
            split at h
            · cases h
              rw [encodeBase32LowerNoPad, ← (base32Decode_iff hwrap).mp hbytes]
            · cases h
    · cases h
  · rintro rfl
    rw [if_pos (List.isPrefixOf_iff_prefix.mpr (List.prefix_append _ _)), List.drop_left]
    have hback : decodeBase32LowerNoPad (encodeBase32LowerNoPad id.val) = some id.val :=
      (base32Decode_iff hwrap).mpr rfl
    simp only [hback]
    rw [dif_pos id.property]
    rfl

/-- A filled last letter is not a second spelling. -/
example : decodeBase32LowerNoPad "my".toList = some [0x66] ∧
    decodeBase32LowerNoPad "mz".toList = none := by decide

end LimniFS
