/-
Records of a pax extended header.

A record starts with its own length in decimal digits, the digits and the line break at its end
included, and a blank.  The key goes up to the first equals sign, the value to the line break that the
length points behind; what stands in either is not looked at.
-/
import LimniFS.Lib.Numeral
import Mathlib.Data.List.TakeWhile
import Mathlib.Data.List.Infix

namespace Lib

namespace PaxRecords

/-- The parts before and behind the first equals sign. -/
def splitEquals : List UInt8 → Option (List UInt8 × List UInt8)
  | [] => none
  | b :: rest =>
    if b = 61 then some ([], rest) else (splitEquals rest).map fun entry => (b :: entry.1, entry.2)

/-- The record at the front, and what follows it. -/
def readRecord (bytes : List UInt8) : Option ((List UInt8 × List UInt8) × List UInt8) :=
  let digits := bytes.takeWhile (· ≠ 32)
  (Numeral.decode 10 digits).bind fun len =>
    let content := (bytes.take len).drop (digits.length + 1)
    if bytes.length < len ∨ content.getLast? ≠ some 10 then none
    else (splitEquals content.dropLast).map fun entry => (entry, bytes.drop len)

theorem readRecord_lt {bytes rest : List UInt8} {entry : List UInt8 × List UInt8}
    (h : readRecord bytes = some (entry, rest)) : rest.length < bytes.length := by
  unfold readRecord at h
  obtain ⟨len, -, h⟩ := Option.bind_eq_some_iff.mp h
  simp only at h
  split at h
  · cases h
  · next hshape =>
    obtain ⟨hfits, hlast⟩ := not_or.mp hshape
    obtain ⟨entry', -, hentry⟩ := Option.map_eq_some_iff.mp h
    obtain rfl := (Prod.mk.inj hentry).2
    have hlen : len ≠ 0 := by
      rintro rfl
      simp at hlast
    rw [List.length_drop]
    omega

/-- All records. -/
def parse (bytes : List UInt8) : Option (List (List UInt8 × List UInt8)) :=
  if bytes = [] then some []
  else
    match _h : readRecord bytes with
    | none => none
    | some (entry, rest) => (parse rest).map (entry :: ·)
termination_by bytes.length
decreasing_by exact readRecord_lt _h

/-- A record that says it is `len` bytes long. -/
def record (len : Nat) (content : List UInt8) : List UInt8 :=
  Numeral.encode 10 len ++ (32 :: (content ++ [10]))

/-! ### Reading what was written -/

theorem splitEquals_append {key : List UInt8} (h : 61 ∉ key) (value : List UInt8) :
    splitEquals (key ++ 61 :: value) = some (key, value) := by
  induction key with
  | nil => rw [List.nil_append, splitEquals, if_pos rfl]
  | cons b key ih =>
      simp only [List.mem_cons, not_or] at h
      rw [List.cons_append, splitEquals, if_neg (Ne.symm h.1), ih h.2]
      rfl

theorem splitEquals_first : ∀ (key value : List UInt8), ∃ front back,
    splitEquals (key ++ 61 :: value) = some (front, back) ∧ 61 ∉ front ∧ front <+: key ∧
      front ++ 61 :: back = key ++ 61 :: value := by
  intro key
  induction key with
  | nil => intro value; exact ⟨[], value, rfl, by simp, List.prefix_rfl, rfl⟩
  | cons b key ih =>
      intro value
      by_cases hb : b = 61
      · refine ⟨[], key ++ 61 :: value, ?_, by simp, List.nil_prefix, ?_⟩
        · rw [List.cons_append, splitEquals, if_pos hb]
        · rw [hb]
          rfl
      · obtain ⟨front, back, hsplit, hfront, hprefix, happ⟩ := ih value
        refine ⟨b :: front, back, ?_, ?_, ?_, ?_⟩
        · rw [List.cons_append, splitEquals, if_neg hb, hsplit]
          rfl
        · simp only [List.mem_cons, not_or]
          exact ⟨Ne.symm hb, hfront⟩
        · exact (List.cons_prefix_cons).mpr ⟨rfl, hprefix⟩
        · rw [List.cons_append, happ]
          rfl

/-- **A record that tells its own length is read**, and nothing behind it. -/
theorem readRecord_record {len : Nat} {content : List UInt8} {entry : List UInt8 × List UInt8}
    (hlen : (record len content).length = len) (hentry : splitEquals content = some entry)
    (rest : List UInt8) : readRecord (record len content ++ rest) = some (entry, rest) := by
  have hdigits : ∀ b ∈ Numeral.encode 10 len, decide (b ≠ 32) = true := by
    intro b hb
    have hdigit := Numeral.digit?_isSome (Numeral.digits_encode (by decide) (by decide) hb)
    have hne : b ≠ 32 := by
      rintro rfl
      simp at hdigit
    simpa using hne
  have hfront : (record len content ++ rest).takeWhile (· ≠ 32) = Numeral.encode 10 len := by
    unfold record
    rw [List.append_assoc, List.takeWhile_append_of_pos hdigits]
    simp
  have hcontent : ((record len content ++ rest).take len).drop ((Numeral.encode 10 len).length + 1)
      = content ++ [10] := by
    have htake : (record len content ++ rest).take len = record len content := by
      conv_lhs => rw [← hlen]
      rw [hlen]
      exact List.take_left' hlen
    rw [htake]
    unfold record
    rw [← List.drop_drop, List.drop_left]
    rfl
  have hrest : (record len content ++ rest).drop len = rest := List.drop_left' hlen
  have hshape : ¬ ((record len content ++ rest).length < len ∨
      (content ++ [10]).getLast? ≠ some 10) := by
    rw [List.length_append, hlen]
    simp
  unfold readRecord
  simp only [hfront]
  rw [Numeral.decode_encode (by decide) (by decide), Option.bind_some]
  simp only [hcontent, hrest]
  rw [if_neg hshape, List.dropLast_concat, hentry]
  rfl

theorem parse_nil : parse [] = some [] := by
  rw [parse, if_pos rfl]

theorem parse_of_some {bytes rest : List UInt8} {entry : List UInt8 × List UInt8}
    (h : readRecord bytes = some (entry, rest)) :
    parse bytes = (parse rest).map (entry :: ·) := by
  have hne : bytes ≠ [] := by
    rintro rfl
    have := readRecord_lt h
    simp at this
  rw [parse, if_neg hne]
  split
  · next hnone => rw [h] at hnone; cases hnone
  · next entry' rest' hsome =>
    rw [h] at hsome
    cases hsome
    rfl

end PaxRecords

end Lib
