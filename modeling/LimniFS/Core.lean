/-
Errors, digests and the manifest cursor.

Every parser of the core reads through one cursor, so every parser of the model is
a `CoreParser`: a parser of the library with the core's error type.  The accessors
below are the cursor's; each comes with the fact that it is framed and with what it
reads back, and the section parsers never look at bytes any other way.

A Rust `str` is its UTF-8 bytes here, and a 32-byte array is a `Digest`.  BLAKE3 is
a parameter wherever it is used: a function from byte strings to digests.
-/
import LimniFS.Lib.Parser

namespace LimniFS

open Lib

abbrev Bytes := List UInt8

/-- One past the largest `usize`. -/
def usizeLimit : Nat := 2 ^ 64

/-- One past the largest `u32`. -/
def u32Limit : Nat := 2 ^ 32

/-- `u32::try_from(n).unwrap_or(u32::MAX)`. -/
def saturateU32 (n : Nat) : Nat := if n < u32Limit then n else u32Limit - 1

theorem saturateU32_of_lt {n : Nat} (h : n < u32Limit) : saturateU32 n = n := if_pos h

theorem saturateU32_lt (n : Nat) : saturateU32 n < u32Limit := by
  unfold saturateU32 u32Limit
  split <;> omega

/-- A path, one name for each component. -/
abbrev Path := List Bytes

abbrev Digest := Fixed 32

/-- Membership of digests is decided through it. -/
instance : LawfulBEq Digest := inferInstance

/-- And membership of byte strings. -/
instance : LawfulBEq Bytes := inferInstance

theorem zeros_length : (List.replicate 32 (0 : UInt8)).length = 32 := List.length_replicate

/-- BLAKE3, as every module calls it. -/
abbrev Hash := Bytes → Digest

inductive CoreError where
  | tooShort (available need : Nat)
  | badMagic (found : Bytes)
  | corrupt (reason : String)
  | unsupportedFeature (feature : String)
  /-- No error of the source: a decoder's panic, which unwinds through every caller. -/
  | panicked (payload : String)
  deriving DecidableEq, Repr

/-! ### Texts of errors -/

def hexDigit (upper : Bool) (n : Nat) : Char :=
  if n < 10 then Char.ofNat (48 + n)
  else if upper then Char.ofNat (55 + n)
  else Char.ofNat (87 + n)

/-- The `width` low hexadecimal digits of `n`. -/
def hexDigits (upper : Bool) : Nat → Nat → List Char
  | 0, _ => []
  | width + 1, n => hexDigits upper width (n / 16) ++ [hexDigit upper (n % 16)]

/-- `0x{:02X}`. -/
def hex2 (b : UInt8) : String := "0x" ++ String.ofList (hexDigits true 2 b.toNat)

/-- `0x{:04X}`. -/
def hex4 (n : Nat) : String := "0x" ++ String.ofList (hexDigits true 4 n)

/-- `{:02x}` over every byte. -/
def hexLower (bytes : Bytes) : List Char := bytes.flatMap fun b => hexDigits false 2 b.toNat

/-- `{:x?}` of a byte slice. -/
def debugHex (bytes : Bytes) : String :=
  "[" ++ ", ".intercalate (bytes.map fun b =>
    String.ofList (hexDigits false (if b < 16 then 1 else 2) b.toNat)) ++ "]"

/-- `{:?}` of a byte slice. -/
def debugBytes (bytes : Bytes) : String := toString (bytes.map UInt8.toNat)

/-- The bytes of an ASCII literal. -/
def ascii (s : String) : Bytes := s.toList.map fun c => UInt8.ofNat c.toNat

/-! ### UTF-8 -/

def isContinuation (b : UInt8) : Bool := 0x80 ≤ b && b ≤ 0xBF

/-- `str::from_utf8(bytes).is_ok()`: no overlong form, no surrogate, nothing above U+10FFFF. -/
def utf8Valid : Bytes → Bool
  | [] => true
  | b :: rest =>
    if b < 0x80 then utf8Valid rest
    else
      match rest with
      | [] => false
      | b1 :: rest1 =>
        if 0xC2 ≤ b && b ≤ 0xDF then isContinuation b1 && utf8Valid rest1
        else
          match rest1 with
          | [] => false
          | b2 :: rest2 =>
            if 0xE0 ≤ b && b ≤ 0xEF then
              isContinuation b1 && isContinuation b2
                && (b != 0xE0 || 0xA0 ≤ b1) && (b != 0xED || b1 ≤ 0x9F) && utf8Valid rest2
            else
              match rest2 with
              | [] => false
              | b3 :: rest3 =>
                0xF0 ≤ b && b ≤ 0xF4 && isContinuation b1 && isContinuation b2
                  && isContinuation b3 && (b != 0xF0 || 0x90 ≤ b1) && (b != 0xF4 || b1 ≤ 0x8F)
                  && utf8Valid rest3

theorem utf8Valid_ascii {l : Bytes} (h : ∀ b ∈ l, b < 0x80) : utf8Valid l = true := by
  induction l with
  | nil => rfl
  | cons b rest ih =>
      unfold utf8Valid
      rw [if_pos (h b List.mem_cons_self)]
      exact ih fun b' hb' => h b' (List.mem_cons_of_mem _ hb')

theorem utf8Valid_append {x : Bytes} (h : utf8Valid x = true) (y : Bytes) :
    utf8Valid (x ++ y) = utf8Valid y := by
  fun_induction utf8Valid x with
  | case1 => rfl
  | case2 b rest hb ih =>
      rw [List.cons_append, utf8Valid.eq_def]
      simp only [if_pos hb]
      exact ih h
  | case3 b hb => cases h
  | case4 b hb b1 rest1 hb1 ih =>
      simp only [Bool.and_eq_true] at h
      rw [List.cons_append, List.cons_append, utf8Valid.eq_def]
      simp [hb, hb1, h, ih h.2]
  | case5 b hb b1 hb1 => cases h
  | case6 b hb b1 hb1 b2 rest2 hb2 ih =>
      simp only [Bool.and_eq_true] at h
      rw [List.cons_append, List.cons_append, List.cons_append, utf8Valid.eq_def]
      simp [hb, hb1, hb2, h, ih h.2]
  | case7 b hb b1 hb1 b2 hb2 => cases h
  | case8 b hb b1 hb1 b2 hb2 b3 rest3 ih =>
      simp only [Bool.and_eq_true] at h
      rw [List.cons_append, List.cons_append, List.cons_append, List.cons_append, utf8Valid.eq_def]
      simp [hb, hb1, hb2, h, ih h.2]

/-- The text of UTF-8 bytes in a message, quoted as `{:?}` quotes it. -/
def debugStr (s : Bytes) : String :=
  "\"" ++ ((String.fromUTF8? ⟨s.toArray⟩).getD "").quote.drop 1

/-! ### The cursor -/

abbrev CoreParser := Parser CoreError

namespace Cursor

/-- `n` bytes into an array of that length. -/
def readFixed (n : Nat) : CoreParser (Fixed n) := Parser.take .tooShort n

def readN (n : Nat) : CoreParser Bytes := do
  let b ← readFixed n
  pure b.val

def readU8 : CoreParser UInt8 := do
  let b ← readFixed 1
  pure (b.val.headD 0)

def readU16Le : CoreParser Nat := do
  let b ← readFixed 2
  pure (leNat b.val)

def readU32Le : CoreParser Nat := do
  let b ← readFixed 4
  pure (leNat b.val)

def readU64Le : CoreParser Nat := do
  let b ← readFixed 8
  pure (leNat b.val)

def readHash : CoreParser Digest := readFixed 32

/-- The check before a loop that `n` bytes are left. -/
def demandLeft (n : Nat) : CoreParser Unit := Parser.demand .tooShort n

open Parser

theorem framed_readFixed (n : Nat) : Framed n (readFixed n) := framed_take _ n

theorem framed_readN (n : Nat) : Framed n (readN n) :=
  (framed_readFixed n).bind fun _ => framed_pure _

theorem framed_readU8 : Framed 1 readU8 := (framed_readFixed 1).bind fun _ => framed_pure _

theorem framed_readU16Le : Framed 2 readU16Le := (framed_readFixed 2).bind fun _ => framed_pure _

theorem framed_readU32Le : Framed 4 readU32Le := (framed_readFixed 4).bind fun _ => framed_pure _

theorem framed_readU64Le : Framed 8 readU64Le := (framed_readFixed 8).bind fun _ => framed_pure _

theorem framed_readHash : Framed 32 readHash := framed_readFixed 32

theorem exact_readFixed (n : Nat) : Exact n (readFixed n) := exact_take _ n

theorem exact_readN (n : Nat) : Exact n (readN n) :=
  (exact_readFixed n).bind fun _ => exact_pure _

theorem exact_readU8 : Exact 1 readU8 := (exact_readFixed 1).bind fun _ => exact_pure _

theorem exact_readU16Le : Exact 2 readU16Le := (exact_readFixed 2).bind fun _ => exact_pure _

theorem exact_readU32Le : Exact 4 readU32Le := (exact_readFixed 4).bind fun _ => exact_pure _

theorem exact_readU64Le : Exact 8 readU64Le := (exact_readFixed 8).bind fun _ => exact_pure _

theorem reads_readFixed {n : Nat} (l : Fixed n) : Reads (readFixed n) l.val l := reads_take l

theorem reads_readHash (d : Digest) : Reads readHash d.val d := reads_take d

theorem reads_readN {n : Nat} {l : Bytes} (h : l.length = n) : Reads (readN n) l l :=
  (reads_readFixed ⟨l, h⟩).map Subtype.val

theorem reads_readU8 (b : UInt8) : Reads readU8 [b] b :=
  (reads_readFixed ⟨[b], rfl⟩).map fun l => l.val.headD 0

/-- An integer accessor reads back what fits it. -/
private theorem reads_le {w n : Nat} (h : n < 256 ^ w) :
    Reads (do let b ← readFixed w; pure (leNat b.val) : CoreParser Nat) (leBytes w n) n := by
  have hread := (reads_readFixed ⟨leBytes w n, leBytes_length w n⟩).map fun b => leNat b.val
  rwa [leNat_leBytes h] at hread

theorem reads_readU16Le {n : Nat} (h : n < 2 ^ 16) : Reads readU16Le (leBytes 2 n) n :=
  reads_le h

theorem reads_readU32Le {n : Nat} (h : n < u32Limit) : Reads readU32Le (leBytes 4 n) n :=
  reads_le h

theorem reads_readU64Le {n : Nat} (h : n < 2 ^ 64) : Reads readU64Le (leBytes 8 n) n :=
  reads_le h

/-- An integer that was read fits its width. -/
private theorem le_lt {w n : Nat} {bs rest : Bytes}
    (h : (do let b ← readFixed w; pure (leNat b.val) : CoreParser Nat) bs = (.ok n, rest)) :
    n < 256 ^ w := by
  obtain ⟨b, mid, -, hpure⟩ := bind_eq_ok.mp h
  cases hpure
  have hlt := leNat_lt b.val
  rw [b.2] at hlt
  exact hlt

/-! ### What an accessor read -/

theorem readFixed_eq_ok {n : Nat} {l : Fixed n} {bs rest : Bytes} :
    readFixed n bs = (.ok l, rest) ↔ bs = l.val ++ rest := take_eq_ok

theorem readN_eq_ok {n : Nat} {l bs rest : Bytes} :
    readN n bs = (.ok l, rest) ↔ l.length = n ∧ bs = l ++ rest := by
  constructor
  · intro h
    obtain ⟨b, mid, htake, hpure⟩ := bind_eq_ok.mp h
    cases hpure
    exact ⟨b.2, readFixed_eq_ok.mp htake⟩
  · rintro ⟨hlen, rfl⟩
    exact reads_readN hlen rest

theorem readU8_eq_ok {b : UInt8} {bs rest : Bytes} :
    readU8 bs = (.ok b, rest) ↔ bs = [b] ++ rest := by
  constructor
  · intro h
    obtain ⟨l, mid, htake, hpure⟩ := bind_eq_ok.mp h
    cases hpure
    obtain ⟨c, hc⟩ := List.length_eq_one_iff.mp l.2
    rw [readFixed_eq_ok.mp htake, hc]
    rfl
  · rintro rfl
    exact reads_readU8 b rest

private theorem le_eq_ok {w n : Nat} {bs rest : Bytes}
    (h : (do let b ← readFixed w; pure (leNat b.val) : CoreParser Nat) bs = (.ok n, rest)) :
    bs = leBytes w n ++ rest := by
  obtain ⟨b, mid, htake, hpure⟩ := bind_eq_ok.mp h
  cases hpure
  have hback := leBytes_leNat b.val
  rw [b.2] at hback
  rw [readFixed_eq_ok.mp htake, hback]

theorem readHash_eq_ok {d : Digest} {bs rest : Bytes} :
    readHash bs = (.ok d, rest) ↔ bs = d.val ++ rest := readFixed_eq_ok

theorem readU16Le_eq_ok {n : Nat} {bs rest : Bytes} :
    readU16Le bs = (.ok n, rest) ↔ n < 2 ^ 16 ∧ bs = leBytes 2 n ++ rest := by
  constructor
  · intro h
    exact ⟨le_lt h, le_eq_ok h⟩
  · rintro ⟨hn, rfl⟩
    exact reads_readU16Le hn rest

theorem readU32Le_eq_ok {n : Nat} {bs rest : Bytes} :
    readU32Le bs = (.ok n, rest) ↔ n < u32Limit ∧ bs = leBytes 4 n ++ rest := by
  constructor
  · intro h
    exact ⟨le_lt h, le_eq_ok h⟩
  · rintro ⟨hn, rfl⟩
    exact reads_readU32Le hn rest

theorem readU64Le_eq_ok {n : Nat} {bs rest : Bytes} :
    readU64Le bs = (.ok n, rest) ↔ n < 2 ^ 64 ∧ bs = leBytes 8 n ++ rest := by
  constructor
  · intro h
    exact ⟨le_lt h, le_eq_ok h⟩
  · rintro ⟨hn, rfl⟩
    exact reads_readU64Le hn rest

theorem readU32Le_lt {bs rest : Bytes} {n : Nat} (h : readU32Le bs = (.ok n, rest)) :
    n < u32Limit := le_lt h

theorem readU64Le_lt {bs rest : Bytes} {n : Nat} (h : readU64Le bs = (.ok n, rest)) :
    n < 2 ^ 64 := le_lt h

end Cursor

end LimniFS
