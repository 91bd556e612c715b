/-
Numbers in ASCII digits of any radix up to 36, and what HTTP spells with them.

Digits are read from the left into an accumulator, so what was read before a position is the value of
the digits up to there (`valueFrom_append`).  Letters count from ten on, in either case; what is
written is the shortest numeral with lower-case letters, and its length is the number of digits that
the number needs (`length_encode_le_iff`).

A byte range, as RFC 9110 has it, names its first and its last byte, both included, or leaves one of
the two out.  It is valid unless the last byte stands before the first, so there is no valid range
without a byte.  The part of a representation that a valid range selects is cut off at the end, and
there is none if it starts there.

A chunk of the chunked coding, as RFC 9112 has it, is its size in hexadecimal digits, possibly with
extensions behind it, a line break, as many bytes as the size says, and a line break.  The last chunk
has the size zero and no data; trailer fields may follow, and then comes an empty line.  Sizes may be
spelled with leading zeros.
-/
import Mathlib.Algebra.Group.Nat.Defs
import Mathlib.Data.Nat.Basic

namespace Lib

namespace Numeral

/-- What a byte counts for. -/
def digit? (radix : Nat) (b : UInt8) : Option Nat :=
  let n := b.toNat
  (if 48 ≤ n ∧ n ≤ 57 then some (n - 48)
    else if 97 ≤ n ∧ n ≤ 122 then some (n - 87)
    else if 65 ≤ n ∧ n ≤ 90 then some (n - 55)
    else none).filter (· < radix)

/-- The digit that counts for `d`. -/
def digitByte (d : Nat) : UInt8 := UInt8.ofNat (if d < 10 then 48 + d else 87 + d)

/-- The digits behind a number. -/
def valueFrom (radix : Nat) : Nat → List UInt8 → Option Nat
  | acc, [] => some acc
  | acc, b :: bytes => (digit? radix b).bind fun d => valueFrom radix (radix * acc + d) bytes

/-- The number that the digits spell; there has to be one. -/
def decode (radix : Nat) (bytes : List UInt8) : Option Nat :=
  if bytes = [] then none else valueFrom radix 0 bytes

/-- The shortest numeral. -/
def encode (radix n : Nat) : List UInt8 :=
  if radix < 2 ∨ n < radix then [digitByte n]
  else encode radix (n / radix) ++ [digitByte (n % radix)]
termination_by n
decreasing_by exact Nat.div_lt_self (by omega) (by omega)

/-- A machine word of fewer than `limit` values from text, which may start with a plus. -/
def parseWord (radix limit : Nat) (bytes : List UInt8) : Option Nat :=
  (decode radix (if bytes.head? = some 43 then bytes.drop 1 else bytes)).filter (· < limit)

/-! ### Reading -/

theorem digit?_eq_some {radix d : Nat} {b : UInt8} (h : digit? radix b = some d) : d < radix := by
  simp only [digit?, Option.filter_eq_some_iff, decide_eq_true_eq] at h
  exact h.2

theorem digit?_isSome {radix : Nat} {b : UInt8} (h : (digit? radix b).isSome) :
    (48 ≤ b.toNat ∧ b.toNat ≤ 57) ∨ (97 ≤ b.toNat ∧ b.toNat ≤ 122) ∨
      (65 ≤ b.toNat ∧ b.toNat ≤ 90) := by
  obtain ⟨d, hd⟩ := Option.isSome_iff_exists.mp h
  simp only [digit?, Option.filter_eq_some_iff] at hd
  obtain ⟨hd, -⟩ := hd
  by_cases h1 : 48 ≤ b.toNat ∧ b.toNat ≤ 57
  · exact Or.inl h1
  · rw [if_neg h1] at hd
    by_cases h2 : 97 ≤ b.toNat ∧ b.toNat ≤ 122
    · exact Or.inr (Or.inl h2)
    · rw [if_neg h2] at hd
      by_cases h3 : 65 ≤ b.toNat ∧ b.toNat ≤ 90
      · exact Or.inr (Or.inr h3)
      · rw [if_neg h3] at hd
        cases hd

theorem valueFrom_append (radix : Nat) : ∀ (xs ys : List UInt8) (acc : Nat),
    valueFrom radix acc (xs ++ ys) = (valueFrom radix acc xs).bind fun n => valueFrom radix n ys := by
  intro xs
  induction xs with
  | nil => intro ys acc; rfl
  | cons b xs ih =>
      intro ys acc
      rw [List.cons_append, valueFrom, valueFrom, Option.bind_assoc]
      congr 1
      funext d
      exact ih ys _

theorem valueFrom_digits {radix : Nat} : ∀ {bytes : List UInt8} {acc n : Nat},
    valueFrom radix acc bytes = some n → ∀ b ∈ bytes, (digit? radix b).isSome := by
  intro bytes
  induction bytes with
  | nil => intro acc n _ b hb; cases hb
  | cons b bytes ih =>
      intro acc n h b' hb'
      rw [valueFrom] at h
      obtain ⟨d, hd, h⟩ := Option.bind_eq_some_iff.mp h
      rcases List.mem_cons.mp hb' with rfl | hmem
      · simp [hd]
      · exact ih h b' hmem

theorem le_valueFrom {radix : Nat} (hradix : 0 < radix) : ∀ {bytes : List UInt8} {acc n : Nat},
    valueFrom radix acc bytes = some n → acc ≤ n := by
  intro bytes
  induction bytes with
  | nil => intro acc n h; exact Nat.le_of_eq (Option.some.inj h)
  | cons b bytes ih =>
      intro acc n h
      rw [valueFrom] at h
      obtain ⟨d, -, h⟩ := Option.bind_eq_some_iff.mp h
      have hgrow := Nat.le_mul_of_pos_left acc hradix
      have := ih h
      omega

theorem decode_eq_some {radix n : Nat} {bytes : List UInt8} :
    decode radix bytes = some n ↔ bytes ≠ [] ∧ valueFrom radix 0 bytes = some n := by
  unfold decode
  by_cases h : bytes = []
  · rw [if_pos h]
    exact ⟨fun hn => absurd hn (by simp), fun hn => absurd h hn.1⟩
  · rw [if_neg h]
    exact ⟨fun hn => ⟨h, hn⟩, fun hn => hn.2⟩

theorem parseWord_of_decode {radix limit n : Nat} {bytes : List UInt8}
    (h : decode radix bytes = some n) (hlimit : n < limit) : parseWord radix limit bytes = some n := by
  obtain ⟨hne, hvalue⟩ := decode_eq_some.mp h
  have hhead : bytes.head? ≠ some 43 := by
    intro hplus
    have hmem : (43 : UInt8) ∈ bytes := List.mem_of_mem_head? hplus
    rcases digit?_isSome (valueFrom_digits hvalue 43 hmem) with h | h | h <;> simp at h
  unfold parseWord
  rw [if_neg hhead, h, Option.filter_some, if_pos (by simpa using hlimit)]

/-! ### Writing -/

theorem digit?_digitByte {radix d : Nat} (hradix : radix ≤ 36) (h : d < radix) :
    digit? radix (digitByte d) = some d := by
  have hall : ∀ e : Fin 36, (digit? 36 (digitByte e.val)) = some e.val := by decide
  have hd := hall ⟨d, by omega⟩
  simp only [digit?, Option.filter_eq_some_iff, decide_eq_true_eq] at hd ⊢
  exact ⟨hd.1, h⟩

section

variable {radix : Nat}

theorem encode_of_lt {n : Nat} (h : n < radix) : encode radix n = [digitByte n] := by
  rw [encode, if_pos (Or.inr h)]

theorem encode_of_le (hradix : 2 ≤ radix) {n : Nat} (h : radix ≤ n) :
    encode radix n = encode radix (n / radix) ++ [digitByte (n % radix)] := by
  rw [encode, if_neg (by omega)]

theorem encode_ne_nil (n : Nat) : encode radix n ≠ [] := by
  rw [encode]
  split <;> simp

theorem valueFrom_encode (hlow : 2 ≤ radix) (hhigh : radix ≤ 36) (n : Nat) :
    valueFrom radix 0 (encode radix n) = some n := by
  induction n using Nat.strongRecOn with
  | ind n ih =>
      by_cases h : n < radix
      · rw [encode_of_lt h, valueFrom, digit?_digitByte hhigh h]
        simp [valueFrom]
      · have hmod : n % radix < radix := Nat.mod_lt _ (by omega)
        rw [encode_of_le hlow (by omega), valueFrom_append,
          ih (n / radix) (Nat.div_lt_self (by omega) (by omega)), Option.bind_some, valueFrom,
          digit?_digitByte hhigh hmod]
        simp [valueFrom, Nat.div_add_mod]

/-- **What was written is read.** -/
theorem decode_encode (hlow : 2 ≤ radix) (hhigh : radix ≤ 36) (n : Nat) :
    decode radix (encode radix n) = some n :=
  decode_eq_some.mpr ⟨encode_ne_nil n, valueFrom_encode hlow hhigh n⟩

theorem digits_encode (hlow : 2 ≤ radix) (hhigh : radix ≤ 36) {n : Nat} {b : UInt8}
    (h : b ∈ encode radix n) : (digit? radix b).isSome :=
  valueFrom_digits (valueFrom_encode hlow hhigh n) b h

theorem length_encode_le_iff (hradix : 2 ≤ radix) : ∀ {k n : Nat},
    (encode radix n).length ≤ k + 1 ↔ n < radix ^ (k + 1) := by
  intro k
  induction k with
  | zero =>
      intro n
      rw [Nat.zero_add, Nat.pow_one]
      by_cases h : n < radix
      · simp [encode_of_lt h, h]
      · have hpos := List.length_pos_iff.mpr (@encode_ne_nil radix (n / radix))
        rw [encode_of_le hradix (by omega), List.length_append, List.length_singleton]
        omega
  | succ k ih =>
      intro n
      by_cases h : n < radix
      · rw [encode_of_lt h]
        have : n < radix ^ (k + 1 + 1) := by
          calc n < radix := h
            _ = radix ^ 1 := (Nat.pow_one radix).symm
            _ ≤ radix ^ (k + 1 + 1) := Nat.pow_le_pow_right (by omega) (by omega)
        simp [this]
      · have hdiv : n / radix < radix ^ (k + 1) ↔ n < radix ^ (k + 1 + 1) := by
          rw [Nat.div_lt_iff_lt_mul (by omega), ← Nat.pow_succ]
        rw [encode_of_le hradix (by omega), List.length_append, List.length_singleton, ← hdiv, ← ih]
        omega

theorem length_encode_mono (hradix : 2 ≤ radix) {m n : Nat} (h : m ≤ n) :
    (encode radix m).length ≤ (encode radix n).length := by
  obtain ⟨k, hk⟩ : ∃ k, (encode radix n).length = k + 1 :=
    ⟨_, (Nat.succ_pred_eq_of_pos (List.length_pos_iff.mpr (encode_ne_nil n))).symm⟩
  rw [hk, length_encode_le_iff hradix]
  exact Nat.lt_of_le_of_lt h ((length_encode_le_iff hradix).mp (Nat.le_of_eq hk))

end

end Numeral

inductive ByteRange where
  | fromTo (first last : Nat)
  | starting (first : Nat)
  | suffix (length : Nat)
  deriving DecidableEq

namespace ByteRange

/-- One range, without the unit. -/
def parseSpec (spec : List UInt8) : Option ByteRange :=
  let before := spec.takeWhile (· ≠ 45)
  match spec.drop before.length with
  | [] => none
  | _ :: after =>
    if before = [] then (Numeral.decode 10 after).map suffix
    else
      (Numeral.decode 10 before).bind fun first =>
        if after = [] then some (starting first) else (Numeral.decode 10 after).map (fromTo first)

/-- The value of a `Range` field with one range of bytes. -/
def parse : List UInt8 → Option ByteRange
  | 98 :: 121 :: 116 :: 101 :: 115 :: 61 :: spec => parseSpec spec
  | _ => none

def Valid : ByteRange → Prop
  | fromTo first last => first ≤ last
  | _ => True

/-- The selected part; none if the range is not satisfiable. -/
def part (body : List UInt8) : ByteRange → Option (List UInt8)
  | fromTo first last =>
    if first < body.length then some ((body.take (last + 1)).drop first) else none
  | starting first => if first < body.length then some (body.drop first) else none
  | suffix length => if length = 0 then none else some (body.drop (body.length - length))

/-- How a server that has `body` may answer a request with this `Range` field: with a status, and with
content.  It may ignore the field; it may reject a range that is not valid. -/
inductive Answers (body value : List UInt8) : Nat → List UInt8 → Prop
  | whole : Answers body value 200 body
  | selected {range : ByteRange} {content : List UInt8} (hparse : parse value = some range)
      (hvalid : range.Valid) (hpart : range.part body = some content) :
      Answers body value 206 content
  | unsatisfiable {range : ByteRange} {content : List UInt8} (hparse : parse value = some range)
      (hvalid : range.Valid) (hpart : range.part body = none) : Answers body value 416 content
  | invalid {content : List UInt8} (h : ∀ range, parse value = some range → ¬ range.Valid) :
      Answers body value 416 content

theorem part_fromTo (body : List UInt8) (first last : Nat) :
    part body (fromTo first last)
      = if first < body.length then some ((body.take (last + 1)).drop first) else none := rfl

/-! ### The field that is sent -/

/-- The text of a range with both ends. -/
def text (first last : Nat) : List UInt8 :=
  [98, 121, 116, 101, 115, 61] ++ (Numeral.encode 10 first ++ 45 :: Numeral.encode 10 last)

/-- **It is read as what it was written from.** -/
theorem parse_text (first last : Nat) : parse (text first last) = some (fromTo first last) := by
  have hdash : ∀ b ∈ Numeral.encode 10 first, decide (b ≠ 45) = true := by
    intro b hb
    have hdigit := Numeral.digit?_isSome (Numeral.digits_encode (by decide) (by decide) hb)
    have hne : b ≠ 45 := by
      rintro rfl
      simp at hdigit
    simpa using hne
  have hbefore : (Numeral.encode 10 first ++ 45 :: Numeral.encode 10 last).takeWhile (· ≠ 45)
      = Numeral.encode 10 first := by
    rw [List.takeWhile_append_of_pos hdash]
    simp
  show parseSpec (Numeral.encode 10 first ++ 45 :: Numeral.encode 10 last) = _
  unfold parseSpec
  simp only [hbefore, List.drop_left, Numeral.decode_encode (show 2 ≤ 10 by decide) (by decide),
    Option.bind_some, Option.map_some]
  rw [if_neg (Numeral.encode_ne_nil first), if_neg (Numeral.encode_ne_nil last)]

end ByteRange

namespace ChunkedCoding

/-- The end of a line. -/
def crlf : List UInt8 := [13, 10]

structure Chunk where
  size : List UInt8
  extensions : List UInt8
  data : List UInt8

structure Message where
  chunks : List Chunk
  lastSize : List UInt8
  lastExtensions : List UInt8
  trailers : List (List UInt8)

/-- No line ends inside. -/
def NoBreak (text : List UInt8) : Prop := ∀ b ∈ text, b ≠ 13 ∧ b ≠ 10

/-- Nothing, or blanks and a semicolon and what follows it on the line. -/
structure Extensions (text : List UInt8) : Prop where
  noBreak : NoBreak text
  form : text = [] ∨
    ∃ blanks rest, text = blanks ++ 59 :: rest ∧ ∀ b ∈ blanks, b = 32 ∨ b = 9

/-- The bytes of a field name. -/
def isTokenByte (b : UInt8) : Bool :=
  let n := b.toNat
  (48 ≤ n && n ≤ 57) || (65 ≤ n && n ≤ 90) || (97 ≤ n && n ≤ 122)
    || b ∈ [33, 35, 36, 37, 38, 39, 42, 43, 45, 46, 94, 95, 96, 124, 126]

/-- A field line, without its end. -/
structure Trailer (text : List UInt8) : Prop where
  noBreak : NoBreak text
  form : ∃ name value, text = name ++ 58 :: value ∧ name ≠ [] ∧ ∀ b ∈ name, isTokenByte b = true

structure Chunk.WellFormed (chunk : Chunk) : Prop where
  nonempty : chunk.data ≠ []
  size : Numeral.decode 16 chunk.size = some chunk.data.length
  extensions : Extensions chunk.extensions

structure Message.WellFormed (message : Message) : Prop where
  chunks : ∀ chunk ∈ message.chunks, chunk.WellFormed
  lastSize : Numeral.decode 16 message.lastSize = some 0
  lastExtensions : Extensions message.lastExtensions
  trailers : ∀ trailer ∈ message.trailers, Trailer trailer

def Chunk.bytes (chunk : Chunk) : List UInt8 :=
  chunk.size ++ (chunk.extensions ++ (crlf ++ (chunk.data ++ crlf)))

/-- What stands before the line of the last chunk. -/
def Message.chunkBytes (message : Message) : List UInt8 := message.chunks.flatMap Chunk.bytes

/-- The last chunk, the trailers and the empty line. -/
def Message.lastBytes (message : Message) : List UInt8 :=
  message.lastSize ++ (message.lastExtensions ++ (crlf
    ++ (message.trailers.flatMap (fun trailer => trailer ++ crlf) ++ crlf)))

def Message.bytes (message : Message) : List UInt8 := message.chunkBytes ++ message.lastBytes

/-- What the message carries. -/
def Message.content (message : Message) : List UInt8 := message.chunks.flatMap Chunk.data

end ChunkedCoding

end Lib
