/-
Sealed files.

A sealed file has the id of its cipher in front, then the nonce and what the cipher made.  What is sealed
opens again; but the id is read from the file before anything is verified, and there is an id for no
cipher.  So what opens was sealed with the key, or it says of itself that it is not (`opened_iff`).
-/
import LimniFS.AeadTotal
import LimniFS.KeyText
import LimniFS.Signing

namespace LimniFS

open Lib

/-! ### Sealing and opening -/

/-- What a command writes; `none` is a panic. -/
abbrev CliOutcome := Option (Except CliError Bytes)

/-- Only what was encrypted is decrypted. -/
def CrateCipher.Authentic {n : Nat} (c : CrateCipher n) : Prop :=
  ∀ key nonce aad msg sealed, c.decrypt key nonce aad sealed = .ok msg →
    c.encrypt key nonce aad msg = .ok sealed

section

variable (crates : AeadCrates)

/-- `limni seal`: the file, or that it cannot be read, and 24 random bytes, or why there are none. -/
def sealCmd (keyHex : Bytes) (input : Option Bytes) (csprng : Except String (Fixed 24)) : CliOutcome :=
  match parseHexKey keyHex with
  | none => none
  | some (.error e) => some (.error (.formatFailed e))
  | some (.ok key) =>
    match input with
    | none => some (.error (.readFailed "input"))
    | some plaintext =>
      match csprng with
      | .error e => some (.error (.formatFailed (.corrupt ("seal: CSPRNG failed: " ++ e))))
      | .ok nonce =>
        match cryptoSeal crates aeadXChaCha20Poly1305 key nonce.val plaintext [] with
        | none => none
        | some (.error e) => some (.error (.formatFailed e))
        | some (.ok sealed) => some (.ok (aeadXChaCha20Poly1305 :: (nonce.val ++ sealed)))

/-- `limni open`. -/
def openCmd (keyHex : Bytes) (input : Option Bytes) : CliOutcome :=
  match parseHexKey keyHex with
  | none => none
  | some (.error e) => some (.error (.formatFailed e))
  | some (.ok key) =>
    match input with
    | none => some (.error (.readFailed "input"))
    | some data =>
      if data.length < 25 then some (.error (.formatFailed (.corrupt "sealed file too short")))
      else
        match cryptoOpen crates (data.headD 0) key ((data.drop 1).take 24) (data.drop 25) [] with
        | none => none
        | some (.error e) => some (.error (.formatFailed e))
        | some (.ok plaintext) => some (.ok plaintext)

variable {crates}

theorem key_of_named {keyHex key : Bytes} (h : parseHexKey keyHex = some (.ok key)) :
    ∃ k : Fixed 32, k.val = key :=
  ⟨⟨key, (parseHexKey_eq_ok.mp h).1⟩, rfl⟩

theorem sealCmd_eq_ok {keyHex : Bytes} {key : Fixed 32} (hkey : parseHexKey keyHex = some (.ok key.val))
    {nonce : Fixed 24} {plaintext data : Bytes} :
    sealCmd crates keyHex (some plaintext) (.ok nonce) = some (.ok data) ↔
      ∃ sealed, crates.xchacha.encrypt key nonce [] plaintext = .ok sealed ∧
        data = aeadXChaCha20Poly1305 :: (nonce.val ++ sealed) := by
  unfold sealCmd cryptoSeal
  rw [hkey]
  simp only [cryptoWith_sized]
  cases crates.xchacha.encrypt key nonce [] plaintext with
  | error e => exact ⟨fun h => absurd h (by simp [orCorrupt]), fun ⟨_, h, _⟩ => absurd h (by simp)⟩
  | ok sealed =>
      constructor
      · intro h
        cases h
        exact ⟨sealed, rfl, rfl⟩
      · rintro ⟨sealed', h, rfl⟩
        cases h
        rfl

theorem exists_parts {data : Bytes} (h : 25 ≤ data.length) :
    ∃ (id : UInt8) (nonce : Fixed 24) (rest : Bytes), data = id :: (nonce.val ++ rest) := by
  cases data with
  | nil => cases h
  | cons id more =>
      rw [List.length_cons] at h
      refine ⟨id, ⟨more.take 24, by rw [List.length_take]; omega⟩, more.drop 24, ?_⟩
      exact congrArg (id :: ·) (List.take_append_drop 24 more).symm

/-- What is opened of it. -/
theorem openCmd_parts {keyHex : Bytes} {key : Fixed 32} (hkey : parseHexKey keyHex = some (.ok key.val))
    (id : UInt8) (nonce : Fixed 24) (rest : Bytes) :
    openCmd crates keyHex (some (id :: (nonce.val ++ rest)))
      = (cryptoOpen crates id key.val nonce.val rest []).map (Except.mapError .formatFailed) := by
  have hlen : ¬ (id :: (nonce.val ++ rest)).length < 25 := by
    have := nonce.property
    rw [List.length_cons, List.length_append]
    omega
  have hnonce : ((id :: (nonce.val ++ rest)).drop 1).take 24 = nonce.val := by
    rw [List.drop_one, List.tail_cons, List.take_append_of_le_length (by rw [nonce.property]),
      List.take_of_length_le (by rw [nonce.property])]
  have hrest : (id :: (nonce.val ++ rest)).drop 25 = rest := by
    show (nonce.val ++ rest).drop 24 = rest
    rw [List.drop_append_of_le_length (by rw [nonce.property]),
      List.drop_of_length_le (by rw [nonce.property]), List.nil_append]
  unfold openCmd
  rw [hkey]
  simp only
  rw [if_neg hlen, hnonce, hrest, List.headD_cons]
  rcases cryptoOpen crates id key.val nonce.val rest [] with _ | e | plaintext
  · rfl
  · rfl
  · rfl

/-- What `open` does with a file. -/
structure OpensExactly (crates : AeadCrates) (keyHex data : Bytes) : Prop where
  opened : ∀ plaintext, openCmd crates keyHex (some data) = some (.ok plaintext) ↔
    (∃ nonce, sealCmd crates keyHex (some plaintext) (.ok nonce) = some (.ok data)) ∨
    ((∃ key, parseHexKey keyHex = some (.ok key)) ∧ 25 ≤ data.length ∧ data.head? = some aeadPlaintext ∧
      plaintext = data.drop 25)
  panics : openCmd crates keyHex (some data) = none ↔ parseHexKey keyHex = none

theorem cryptoOpen_plaintext (key nonce rest : Bytes) :
    cryptoOpen crates aeadPlaintext key nonce rest [] = some (.ok rest) := rfl

theorem cryptoOpen_unknown {id : UInt8} (hplain : id ≠ aeadPlaintext)
    (hcipher : id ≠ aeadXChaCha20Poly1305) (key nonce rest : Bytes) :
    cryptoOpen crates id key nonce rest []
      = some (.error (.unsupportedFeature ("open" ++ " AEAD " ++ hex2 id))) := by
  unfold cryptoOpen cryptoWith
  rw [if_neg hplain, if_neg hcipher]

/-- What is sealed begins with the id, and its parts are those of the file. -/
theorem sealed_parts {keyHex : Bytes} {key : Fixed 32} (hkey : parseHexKey keyHex = some (.ok key.val))
    {id : UInt8} {nonce : Fixed 24} {rest plaintext : Bytes} :
    (∃ nonce', sealCmd crates keyHex (some plaintext) (.ok nonce')
        = some (.ok (id :: (nonce.val ++ rest)))) ↔
      id = aeadXChaCha20Poly1305 ∧ crates.xchacha.encrypt key nonce [] plaintext = .ok rest := by
  constructor
  · rintro ⟨nonce', h⟩
    obtain ⟨sealed, hsealed, hdata⟩ := (sealCmd_eq_ok hkey).mp h
    obtain ⟨hid, hmore⟩ := List.cons.inj hdata
    obtain ⟨hnonce, hrest⟩ := List.append_inj hmore (by rw [nonce.property, nonce'.property])
    rw [hid, Subtype.ext hnonce, hrest]
    exact ⟨rfl, hsealed⟩
  · rintro ⟨rfl, h⟩
    exact ⟨nonce, (sealCmd_eq_ok hkey).mpr ⟨rest, h, rfl⟩⟩

/-- What opens, by the id in front. -/
theorem openCmd_named (hround : crates.xchacha.RoundTrips) (hauth : crates.xchacha.Authentic)
    {keyHex : Bytes} {key : Fixed 32} (hkey : parseHexKey keyHex = some (.ok key.val)) (id : UInt8)
    (nonce : Fixed 24) (rest : Bytes) :
    openCmd crates keyHex (some (id :: (nonce.val ++ rest))) ≠ none ∧
    ∀ plaintext, openCmd crates keyHex (some (id :: (nonce.val ++ rest))) = some (.ok plaintext) ↔
      (id = aeadXChaCha20Poly1305 ∧ crates.xchacha.encrypt key nonce [] plaintext = .ok rest) ∨
      (id = aeadPlaintext ∧ plaintext = rest) := by
  rw [openCmd_parts hkey]
  by_cases hplain : id = aeadPlaintext
  · subst hplain
    rw [cryptoOpen_plaintext]
    refine ⟨by simp, fun plaintext => ?_⟩
    constructor
    · intro h
      cases h
      exact Or.inr ⟨rfl, rfl⟩
    · rintro (⟨h, -⟩ | ⟨-, rfl⟩)
      · exact absurd h (by decide)
      · rfl
  · by_cases hcipher : id = aeadXChaCha20Poly1305
    · subst hcipher
      unfold cryptoOpen
      rw [cryptoWith_sized]
      cases hdec : crates.xchacha.decrypt key nonce [] rest with
      | error e =>
          refine ⟨by simp [orCorrupt], fun plaintext => ?_⟩
          constructor
          · intro h
            cases h
          · rintro (⟨-, h⟩ | ⟨h, -⟩)
            · rw [hround key nonce [] plaintext rest h] at hdec
              cases hdec
            · exact absurd h (by decide)
      | ok msg =>
          refine ⟨by simp [orCorrupt], fun plaintext => ?_⟩
          constructor
          · intro h
            cases h
            exact Or.inl ⟨rfl, hauth key nonce [] _ rest hdec⟩
          · rintro (⟨-, h⟩ | ⟨h, -⟩)
            · rw [hround key nonce [] plaintext rest h] at hdec
              cases hdec
              rfl
            · exact absurd h (by decide)
    · rw [cryptoOpen_unknown hplain hcipher]
      refine ⟨by simp, fun plaintext => ?_⟩
      constructor
      · intro h
        cases h
      · rintro (⟨h, -⟩ | ⟨h, -⟩)
        · exact absurd h hcipher
        · exact absurd h hplain

/--
**A file opens exactly if it was sealed with the key, or says that it is not sealed.**
With a cipher that decrypts what it encrypted, and nothing else, what opens under a key is what was
sealed under it with some nonce; but a file of at least 25 bytes whose first byte is zero opens under
every key, with nothing verified.  Opening panics only where the text of the key does.
-/
theorem opened_iff (hround : crates.xchacha.RoundTrips) (hauth : crates.xchacha.Authentic)
    (keyHex data : Bytes) : OpensExactly crates keyHex data := by
  have hsealed : ∀ plaintext nonce, sealCmd crates keyHex (some plaintext) (.ok nonce) = some (.ok data) →
      ∃ key, parseHexKey keyHex = some (.ok key) := by
    intro plaintext nonce h
    unfold sealCmd at h
    rcases hparse : parseHexKey keyHex with _ | _ | key
    · rw [hparse] at h
      cases h
    · rw [hparse] at h
      cases h
    · exact ⟨key, rfl⟩
  by_cases hnamed : ∃ key, parseHexKey keyHex = some (.ok key)
  · obtain ⟨named, hparse⟩ := hnamed
    obtain ⟨key, rfl⟩ := key_of_named hparse
    have hsome : parseHexKey keyHex ≠ none := by simp [hparse]
    by_cases hlen : 25 ≤ data.length
    · obtain ⟨id, nonce, rest, rfl⟩ := exists_parts hlen
      obtain ⟨htotal, hopen⟩ := openCmd_named hround hauth hparse id nonce rest
      have hrest : (id :: (nonce.val ++ rest)).drop 25 = rest := by
        show (nonce.val ++ rest).drop 24 = rest
        rw [List.drop_append_of_le_length (by rw [nonce.property]),
          List.drop_of_length_le (by rw [nonce.property]), List.nil_append]
      refine ⟨fun plaintext => ?_, fun h => absurd h htotal, fun h => absurd h hsome⟩
      rw [hopen, sealed_parts hparse, hrest, List.head?_cons, Option.some.injEq]
      exact or_congr Iff.rfl ⟨fun h => ⟨⟨_, hparse⟩, hlen, h.1, h.2⟩, fun h => ⟨h.2.2.1, h.2.2.2⟩⟩
    · have hopen : openCmd crates keyHex (some data)
          = some (.error (.formatFailed (.corrupt "sealed file too short"))) := by
        unfold openCmd
        rw [hparse]
        simp only
        rw [if_pos (by omega)]
      refine ⟨fun plaintext => ?_, by simp [hopen, hparse]⟩
      rw [hopen]
      refine ⟨fun h => absurd h (by simp), ?_⟩
      rintro (⟨nonce, h⟩ | ⟨-, h, -⟩)
      · obtain ⟨sealed, -, rfl⟩ := (sealCmd_eq_ok hparse).mp h
        rw [List.length_cons, List.length_append, nonce.property] at hlen
        omega
      · exact absurd h hlen
  · have hopen : (∀ plaintext, openCmd crates keyHex (some data) ≠ some (.ok plaintext)) ∧
        (openCmd crates keyHex (some data) = none ↔ parseHexKey keyHex = none) := by
      unfold openCmd
      rcases hparse : parseHexKey keyHex with _ | e | key
      · exact ⟨fun plaintext => by simp, by simp⟩
      · exact ⟨fun plaintext => by simp, by simp⟩
      · exact absurd ⟨key, hparse⟩ hnamed
    refine ⟨fun plaintext => ⟨fun h => absurd h (hopen.1 plaintext), ?_⟩, hopen.2⟩
    rintro (⟨nonce, h⟩ | ⟨h, -⟩)
    · exact absurd (hsealed plaintext nonce h) hnamed
    · exact absurd h hnamed

end

namespace Stored

/-- A cipher that puts sixteen zeros behind a message, and asks for them. -/
def zeroTag (n : Nat) : CrateCipher n where
  encrypt _ _ _ msg := .ok (msg ++ List.replicate 16 0)
  decrypt _ _ _ sealed :=
    if List.replicate 16 0 <:+ sealed then .ok (sealed.take (sealed.length - 16)) else .error ()

def zeroTagCrates : AeadCrates := { aeadCrates with xchacha := zeroTag 24 }

theorem zeroTag_roundTrips (n : Nat) : (zeroTag n).RoundTrips := by
  intro key nonce aad msg sealed h
  cases h
  simp [zeroTag]

theorem zeroTag_authentic (n : Nat) : (zeroTag n).Authentic := by
  intro key nonce aad msg sealed h
  unfold zeroTag at h ⊢
  simp only at h ⊢
  split at h
  · next htag =>
      obtain ⟨front, rfl⟩ := htag
      cases h
      simp
  · cases h

end Stored

open LimniFS.Stored

/-- What is sealed under the key opens, and so does what says that it is not sealed. -/
theorem opened_iff_both :
    (∃ data, sealCmd zeroTagCrates (formatHex aeadKey) (some [1, 2, 3])
        (.ok ⟨List.replicate 24 7, rfl⟩) = some (.ok data) ∧
      openCmd zeroTagCrates (formatHex aeadKey) (some data) = some (.ok [1, 2, 3])) ∧
    openCmd zeroTagCrates (formatHex aeadKey)
      (some (aeadPlaintext :: (List.replicate 24 0 ++ [9]))) = some (.ok [9]) := by
  have hkey : parseHexKey (formatHex aeadKey) = some (.ok aeadKey) :=
    parseHexKey_formatHex rfl
  have hopens := @opened_iff zeroTagCrates (zeroTag_roundTrips 24)
    (zeroTag_authentic 24) (formatHex aeadKey)
  have hseal : sealCmd zeroTagCrates (formatHex aeadKey) (some [1, 2, 3])
      (.ok ⟨List.replicate 24 7, rfl⟩) = some (.ok (aeadXChaCha20Poly1305 ::
        (List.replicate 24 7 ++ ([1, 2, 3] ++ List.replicate 16 0)))) := by
    have hnamed : parseHexKey (formatHex aeadKey)
        = some (.ok (⟨aeadKey, rfl⟩ : Fixed 32).val) := hkey
    exact (sealCmd_eq_ok hnamed).mpr ⟨_, rfl, rfl⟩
  refine ⟨⟨_, hseal, ((hopens _).opened _).mpr (Or.inl ⟨_, hseal⟩)⟩, ?_⟩
  exact ((hopens _).opened _).mpr (Or.inr ⟨⟨_, hkey⟩, by decide, rfl, rfl⟩)

end LimniFS
