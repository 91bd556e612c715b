/-
Keys as text.

A key is given as text, two hexadecimal digits a byte.  The digits are read as a number of the standard
library, which also takes a plus for the first of them, and pairs are cut out of the text without a look
at where its characters end.  `keyText_iff` says which texts name which keys, and which make the command
panic.
-/
import LimniFS.Aead
import LimniFS.HttpLocator

namespace LimniFS

open Lib

/-! ### Reading and printing -/

/-- What pairs of digits spell.  A pair that begins or ends inside a character cannot be cut out. -/
def hexPairs : Bytes → AeadOutcome
  | a :: b :: rest =>
    if isContinuation a = true ∨ rest.head?.any isContinuation = true then none
    else
      match Numeral.parseWord 16 256 [a, b] with
      | none => some (.error (.corrupt "key contains invalid hex"))
      | some n => (hexPairs rest).map (Except.map (UInt8.ofNat n :: ·))
  | _ => some (.ok [])

def parseHexKey (hex : Bytes) : AeadOutcome :=
  let hex := trimText hex
  if hex.length ≠ 64 then
    some (.error (.corrupt s!"key must be 64 hex chars (32 bytes), got {hex.length}"))
  else hexPairs hex

def formatHex (bytes : Bytes) : Bytes :=
  bytes.flatMap fun b => [Numeral.digitByte (b.toNat / 16), Numeral.digitByte (b.toNat % 16)]

/-- The text of pairs. -/
def pairsText (pairs : List (UInt8 × UInt8)) : Bytes := pairs.flatMap fun p => [p.1, p.2]

/-- Two digits, or a plus and one. -/
def SpellsByte (pair : UInt8 × UInt8) (b : UInt8) : Prop :=
  (∃ high low, Numeral.digit? 16 pair.1 = some high ∧ Numeral.digit? 16 pair.2 = some low ∧
    b.toNat = 16 * high + low) ∨
  (pair.1 = 43 ∧ Numeral.digit? 16 pair.2 = some b.toNat)

theorem pairsText_cons (p : UInt8 × UInt8) (pairs : List (UInt8 × UInt8)) :
    pairsText (p :: pairs) = p.1 :: p.2 :: pairsText pairs := rfl

theorem pairsText_length (pairs : List (UInt8 × UInt8)) :
    (pairsText pairs).length = 2 * pairs.length := by
  induction pairs with
  | nil => rfl
  | cons p rest ih =>
      rw [pairsText_cons, List.length_cons, List.length_cons, List.length_cons, ih]
      omega

theorem parseWord_pair {a b : UInt8} {n : Nat} : Numeral.parseWord 16 256 [a, b] = some n ↔
    (∃ high low, Numeral.digit? 16 a = some high ∧ Numeral.digit? 16 b = some low ∧
      n = 16 * high + low) ∨ (a = 43 ∧ Numeral.digit? 16 b = some n) := by
  have hplus : Numeral.digit? 16 43 = none := by decide
  have hsingle : Numeral.decode 16 [b] = Numeral.digit? 16 b := by
    unfold Numeral.decode
    rw [if_neg (List.cons_ne_nil _ _), Numeral.valueFrom]
    cases Numeral.digit? 16 b with
    | none => rfl
    | some d => exact congrArg some (by omega)
  unfold Numeral.parseWord
  by_cases ha : a = 43
  · subst ha
    rw [if_pos (by rfl), List.drop_one, List.tail_cons, hsingle, Option.filter_eq_some_iff]
    constructor
    · intro h
      exact Or.inr ⟨rfl, h.1⟩
    · rintro (⟨high, low, hhigh, -⟩ | ⟨-, h⟩)
      · rw [hplus] at hhigh
        cases hhigh
      · have := Numeral.digit?_eq_some h
        exact ⟨h, by simp; omega⟩
  · rw [if_neg (by simpa using ha), Option.filter_eq_some_iff, Numeral.decode_eq_some, Numeral.valueFrom]
    constructor
    · rintro ⟨⟨-, h⟩, -⟩
      obtain ⟨high, hhigh, h⟩ := Option.bind_eq_some_iff.mp h
      rw [Numeral.valueFrom] at h
      obtain ⟨low, hlow, h⟩ := Option.bind_eq_some_iff.mp h
      refine Or.inl ⟨high, low, hhigh, hlow, ?_⟩
      rw [← Option.some.inj h]
      omega
    · rintro (⟨high, low, hhigh, hlow, rfl⟩ | ⟨h, -⟩)
      · have h1 := Numeral.digit?_eq_some hhigh
        have h2 := Numeral.digit?_eq_some hlow
        refine ⟨⟨List.cons_ne_nil _ _, ?_⟩, by simp; omega⟩
        rw [hhigh, Option.bind_some, Numeral.valueFrom, hlow, Option.bind_some, Numeral.valueFrom]
        exact congrArg some (by omega)
      · exact absurd h ha

theorem spellsByte_iff {p : UInt8 × UInt8} {b : UInt8} :
    SpellsByte p b ↔ Numeral.parseWord 16 256 [p.1, p.2] = some b.toNat :=
  parseWord_pair.symm

theorem SpellsByte.ascii {p : UInt8 × UInt8} {b : UInt8} (h : SpellsByte p b) :
    isContinuation p.1 = false ∧ isContinuation p.2 = false := by
  have hdigit : ∀ (c : UInt8) (d : Nat), Numeral.digit? 16 c = some d → isContinuation c = false := by
    intro c d hd
    have hrange := Numeral.digit?_isSome (Option.isSome_iff_exists.mpr ⟨d, hd⟩)
    unfold isContinuation
    rw [Bool.and_eq_false_iff]
    refine Or.inl (decide_eq_false fun hle => ?_)
    have hle' : 128 ≤ c.toNat := UInt8.le_iff_toNat_le.mp hle
    omega
  obtain ⟨high, low, hhigh, hlow, -⟩ | ⟨hplus, hlow⟩ := h
  · exact ⟨hdigit _ _ hhigh, hdigit _ _ hlow⟩
  · rw [hplus]
    exact ⟨by decide, hdigit _ _ hlow⟩

theorem head_pairsText {pairs : List (UInt8 × UInt8)} {key : Bytes}
    (h : List.Forall₂ SpellsByte pairs key) : (pairsText pairs).head?.any isContinuation = false := by
  cases h with
  | nil => rfl
  | cons hp _ => exact hp.ascii.1

/-- **Pairs are read exactly if each spells a byte.** -/
theorem hexPairs_eq_ok : ∀ {text key : Bytes}, text.length % 2 = 0 →
    (hexPairs text = some (.ok key) ↔
      ∃ pairs, text = pairsText pairs ∧ List.Forall₂ SpellsByte pairs key) := by
  intro text
  induction text using hexPairs.induct with
  | case1 a b rest hcut =>
      intro key _
      rw [hexPairs, if_pos hcut]
      refine ⟨fun h => absurd h (by simp), ?_⟩
      rintro ⟨pairs, htext, hall⟩
      cases hall with
      | nil => cases htext
      | cons hp hrest =>
          rw [pairsText_cons] at htext
          cases htext
          rcases hcut with hcut | hcut
          · rw [hp.ascii.1] at hcut
            cases hcut
          · rw [head_pairsText hrest] at hcut
            cases hcut
  | case2 a b rest hcut hbad =>
      intro key _
      rw [hexPairs, if_neg hcut, hbad]
      refine ⟨fun h => absurd h (by simp), ?_⟩
      rintro ⟨pairs, htext, hall⟩
      cases hall with
      | nil => cases htext
      | cons hp hrest =>
          rw [pairsText_cons] at htext
          cases htext
          rw [spellsByte_iff.mp hp] at hbad
          cases hbad
  | case3 a b rest hcut n hn ih =>
      intro key heven
      have hrest : rest.length % 2 = 0 := by
        rw [List.length_cons, List.length_cons] at heven
        omega
      have hlt : n < 256 := by
        unfold Numeral.parseWord at hn
        simpa using (Option.filter_eq_some_iff.mp hn).2
      rw [hexPairs, if_neg hcut, hn]
      simp only
      constructor
      · intro h
        rcases hmore : hexPairs rest with _ | _ | more
        · rw [hmore] at h
          cases h
        · rw [hmore] at h
          cases h
        · rw [hmore] at h
          cases h
          obtain ⟨pairs, rfl, hall⟩ := (ih hrest).mp hmore
          refine ⟨(a, b) :: pairs, rfl, .cons (spellsByte_iff.mpr ?_) hall⟩
          rw [hn, UInt8.toNat_ofNat_of_lt' hlt]
      · rintro ⟨pairs, htext, hall⟩
        cases hall with
        | nil => cases htext
        | cons hp hmore =>
            rw [pairsText_cons] at htext
            cases htext
            rw [(ih hrest).mpr ⟨_, rfl, hmore⟩]
            rw [spellsByte_iff.mp hp] at hn
            rw [← Option.some.inj hn, UInt8.ofNat_toNat]
            rfl
  | case4 text htext =>
      intro key heven
      have hnil : text = [] := by
        rcases text with _ | ⟨a, _ | ⟨b, rest⟩⟩
        · rfl
        · cases heven
        · exact absurd rfl (htext a b rest)
      subst hnil
      rw [hexPairs]
      · constructor
        · intro h
          cases h
          exact ⟨[], rfl, .nil⟩
        · rintro ⟨pairs, htext, hall⟩
          cases hall with
          | nil => rfl
          | cons hp hmore => cases htext
      · exact fun a b rest h => absurd h (by simp)

/-- **A pair cannot be cut out** exactly if all before it spell bytes and it begins or ends inside a
character. -/
theorem hexPairs_eq_none : ∀ {text : Bytes},
    hexPairs text = none ↔ ∃ pairs key a b rest, text = pairsText pairs ++ a :: b :: rest ∧
      List.Forall₂ SpellsByte pairs key ∧
      (isContinuation a = true ∨ rest.head?.any isContinuation = true) := by
  intro text
  induction text using hexPairs.induct with
  | case1 a b rest hcut =>
      rw [hexPairs, if_pos hcut]
      exact ⟨fun _ => ⟨[], [], a, b, rest, rfl, .nil, hcut⟩, fun _ => rfl⟩
  | case2 a b rest hcut hbad =>
      rw [hexPairs, if_neg hcut, hbad]
      refine ⟨fun h => absurd h (by simp), ?_⟩
      rintro ⟨pairs, key, a', b', rest', htext, hall, hcut'⟩
      cases hall with
      | nil =>
          cases htext
          exact absurd hcut' hcut
      | cons hp hrest =>
          rw [pairsText_cons] at htext
          cases htext
          rw [spellsByte_iff.mp hp] at hbad
          cases hbad
  | case3 a b rest hcut n hn ih =>
      have hlt : n < 256 := by
        unfold Numeral.parseWord at hn
        simpa using (Option.filter_eq_some_iff.mp hn).2
      have hspells : SpellsByte (a, b) (UInt8.ofNat n) :=
        spellsByte_iff.mpr (by rw [hn, UInt8.toNat_ofNat_of_lt' hlt])
      rw [hexPairs, if_neg hcut, hn]
      simp only [Option.map_eq_none_iff]
      rw [ih]
      constructor
      · rintro ⟨pairs, key, a', b', rest', rfl, hall, hcut'⟩
        exact ⟨(a, b) :: pairs, _ :: key, a', b', rest', rfl, .cons hspells hall, hcut'⟩
      · rintro ⟨pairs, key, a', b', rest', htext, hall, hcut'⟩
        cases hall with
        | nil =>
            cases htext
            exact absurd hcut' hcut
        | cons hp hmore =>
            rw [pairsText_cons] at htext
            cases htext
            exact ⟨_, _, a', b', rest', rfl, hmore, hcut'⟩
  | case4 text htext =>
      rw [hexPairs]
      · refine ⟨fun h => absurd h (by simp), ?_⟩
        rintro ⟨pairs, key, a, b, rest, rfl, hall, hcut⟩
        cases hall with
        | nil => exact absurd rfl (htext a b rest)
        | cons hp hmore => exact absurd rfl (htext _ _ _)
      · exact htext

theorem formatHex_pairs : ∀ key : Bytes, ∃ pairs, formatHex key = pairsText pairs ∧
    List.Forall₂ SpellsByte pairs key := by
  intro key
  induction key with
  | nil => exact ⟨[], rfl, .nil⟩
  | cons b rest ih =>
      obtain ⟨pairs, htext, hall⟩ := ih
      have hlt := b.toNat_lt
      refine ⟨(Numeral.digitByte (b.toNat / 16), Numeral.digitByte (b.toNat % 16)) :: pairs, ?_, ?_⟩
      · rw [pairsText_cons, ← htext]
        rfl
      · refine .cons (Or.inl ⟨b.toNat / 16, b.toNat % 16, ?_, ?_, ?_⟩) hall
        · exact Numeral.digit?_digitByte (by omega) (by omega)
        · exact Numeral.digit?_digitByte (by omega) (by omega)
        · omega

theorem solid_digit {c : UInt8} {d : Nat} (h : Numeral.digit? 16 c = some d) : Trim.Solid whiteSpace c := by
  have hall : ∀ w ∈ whiteSpace, ∀ x ∈ w, Numeral.digit? 16 x = none := by decide +kernel
  intro w hw hc
  rw [hall w hw c hc] at h
  cases h

theorem trimText_formatHex {key : Bytes} (hne : key ≠ []) : trimText (formatHex key) = formatHex key := by
  have hdigit : ∀ d < 16, Numeral.digit? 16 (Numeral.digitByte d) = some d :=
    fun d hd => Numeral.digit?_digitByte (by omega) hd
  have hlt : ∀ b : UInt8, b.toNat < 256 := fun b => b.toNat_lt
  have hcore : Trim.Core whiteSpace (formatHex key) := by
    refine ⟨?_, ?_⟩
    · obtain ⟨b, rest, rfl⟩ := List.exists_cons_of_ne_nil hne
      have := hlt b
      exact ⟨_, _, rfl, solid_digit (hdigit (b.toNat / 16) (by omega))⟩
    · obtain ⟨front, b, rfl⟩ := (List.eq_nil_or_concat key).resolve_left hne
      refine ⟨formatHex front ++ [Numeral.digitByte (b.toNat / 16)], Numeral.digitByte (b.toNat % 16), ?_,
        solid_digit (hdigit (b.toNat % 16) (by omega))⟩
      unfold formatHex
      simp
  have htrim : trimText (formatHex key ++ []) = formatHex key := hcore.trim_blank (by simp)
  rw [List.append_nil] at htrim
  exact htrim

theorem parseHexKey_eq_ok {text key : Bytes} : parseHexKey text = some (.ok key) ↔ key.length = 32 ∧
    ∃ pairs, trimText text = pairsText pairs ∧ List.Forall₂ SpellsByte pairs key := by
  unfold parseHexKey
  simp only
  by_cases hlen : (trimText text).length = 64
  · rw [if_neg (not_not.mpr hlen), hexPairs_eq_ok (by omega)]
    refine ⟨?_, fun h => h.2⟩
    rintro ⟨pairs, htext, hall⟩
    have hpairs := hall.length_eq
    have hdouble := pairsText_length pairs
    rw [← htext] at hdouble
    exact ⟨by omega, pairs, htext, hall⟩
  · rw [if_pos hlen]
    refine ⟨fun h => absurd h (by simp), ?_⟩
    rintro ⟨hkey, pairs, htext, hall⟩
    have hpairs := hall.length_eq
    rw [htext, pairsText_length] at hlen
    omega

theorem parseHexKey_formatHex {key : Bytes} (hkey : key.length = 32) :
    parseHexKey (formatHex key) = some (.ok key) := by
  have hne : key ≠ [] := by
    rintro rfl
    cases hkey
  rw [parseHexKey_eq_ok, trimText_formatHex hne]
  exact ⟨hkey, formatHex_pairs key⟩

/-- Which texts name which keys. -/
structure KeyTexts (text : Bytes) : Prop where
  named : ∀ key, parseHexKey text = some (.ok key) ↔ key.length = 32 ∧
    ∃ pairs, trimText text = pairsText pairs ∧ List.Forall₂ SpellsByte pairs key
  panics : parseHexKey text = none ↔ (trimText text).length = 64 ∧
    ∃ pairs key a b rest, trimText text = pairsText pairs ++ a :: b :: rest ∧
      List.Forall₂ SpellsByte pairs key ∧
      (isContinuation a = true ∨ rest.head?.any isContinuation = true)
  printed : ∀ key, key.length = 32 → text = formatHex key → parseHexKey text = some (.ok key)

/--
**A text names a key** exactly if, between white space, it is 32 pairs of which each spells a byte, as two
digits in either case or as a plus and one digit.  Reading it panics exactly if it has 64 bytes and the
first pair that spells nothing begins or ends inside a character.  What `keygen` prints names its key.
-/
theorem keyText_iff (text : Bytes) : KeyTexts text := by
  refine ⟨fun key => parseHexKey_eq_ok, ?_, ?_⟩
  · unfold parseHexKey
    simp only
    by_cases hlen : (trimText text).length = 64
    · rw [if_neg (not_not.mpr hlen), hexPairs_eq_none]
      exact ⟨fun h => ⟨hlen, h⟩, fun h => h.2⟩
    · rw [if_pos hlen]
      exact ⟨fun h => absurd h (by simp), fun h => absurd h.1 hlen⟩
  · rintro key hkey rfl
    exact parseHexKey_formatHex hkey

end LimniFS
