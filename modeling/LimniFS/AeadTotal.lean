/-
Which sizes each cipher of the registry survives.

The two wrappers are sound where a right key comes with a right nonce.  OCB checks both sizes on both
sides, and what it does not survive is associated data that is too long for the table of its offsets.
-/
import LimniFS.Aead

namespace LimniFS

open Lib Ocb3 Ocb3.Ocb3Aes256

section

variable (crates : AeadCrates) {key nonce : Bytes}

/-! ### OCB -/

theorem ocbEncrypt_wrong (h : key.length ≠ 32 ∨ nonce.length ≠ 12) (aad plaintext : Bytes) :
    ∃ e, ocbEncrypt crates key nonce aad plaintext = some (.error e) := by
  unfold ocbEncrypt
  by_cases hkey : key.length ≠ 32
  · rw [if_pos hkey]
    exact ⟨_, rfl⟩
  · rw [if_neg hkey, if_pos (h.resolve_left hkey)]
    exact ⟨_, rfl⟩

theorem ocbDecrypt_wrong (h : key.length ≠ 32 ∨ nonce.length ≠ 12) (aad ciphertext : Bytes) :
    ∃ e, ocbDecrypt crates key nonce aad ciphertext = some (.error e) := by
  unfold ocbDecrypt
  by_cases hshort : ciphertext.length < 16
  · rw [if_pos hshort]
    exact ⟨_, rfl⟩
  · rw [if_neg hshort, if_pos h]
    exact ⟨_, rfl⟩

theorem ocbEncrypt_sized (key : Fixed 32) (nonce : Fixed 12) (aad plaintext : Bytes) :
    ocbEncrypt crates key.val nonce.val aad plaintext
      = ((new (crates.aes256 key)).encryptInPlaceDetached nonce aad plaintext).map
          fun out => .ok (out.1 ++ out.2.val) := by
  unfold ocbEncrypt
  rw [if_neg (not_not.mpr key.property), if_neg (not_not.mpr nonce.property), newFromSlice_val]
  simp only [newFromSlice_val]

/-- A ciphertext that is long enough is a body and a tag. -/
theorem ocbDecrypt_sized (key : Fixed 32) (nonce : Fixed 12) (aad body : Bytes) (tag : Tag) :
    ocbDecrypt crates key.val nonce.val aad (body ++ tag.val)
      = ((new (crates.aes256 key)).decryptInPlaceDetached nonce aad body tag).bind fun out =>
          orCorrupt "aes-ocb: decrypt failed (tag mismatch?)" (out.1.map fun _ => out.2) := by
  have hlen : (body ++ tag.val).length = body.length + 16 := by
    rw [List.length_append, tag.property]
  have hstart : (body ++ tag.val).length - 16 = body.length := by omega
  unfold ocbDecrypt
  rw [if_neg (by omega), if_neg (by simp [key.property, nonce.property])]
  simp only [hstart, List.drop_left, List.take_left, fromSlice_val, Option.bind_eq_bind,
    Option.bind_some]

theorem body_tag (c : Bytes) (h : 16 ≤ c.length) :
    ∃ (body : Bytes) (tag : Tag), c = body ++ tag.val ∧ body.length = c.length - 16 :=
  ⟨c.take (c.length - 16), ⟨c.drop (c.length - 16), by rw [List.length_drop]; omega⟩,
    (List.take_append_drop _ _).symm, by rw [List.length_take]; omega⟩

theorem ocbDecrypt_total {key : Fixed 32} {nonce : Fixed 12} {aad c : Bytes}
    (haad : aad.length < 2 ^ lTableSize * blockSize)
    (hc : c.length - 16 < 2 ^ lTableSize * blockSize) :
    ocbDecrypt crates key.val nonce.val aad c ≠ none := by
  by_cases hlen : c.length < 16
  · unfold ocbDecrypt
    rw [if_pos hlen]
    simp
  · obtain ⟨body, tag, rfl, hbody⟩ := body_tag c (Nat.le_of_not_lt hlen)
    have hll := length_new_ll (crates.aes256 key)
    obtain ⟨expected, htag⟩ := computeTag_isSome hll haad
      (finalChecksum ((new (crates.aes256 key)).decBytes
        ((new (crates.aes256 key)).startOffset nonce) body))
      ((new (crates.aes256 key)).finalOffset ((new (crates.aes256 key)).startOffset nonce)
        body.length)
    rw [ocbDecrypt_sized, decrypt_eq hll nonce aad (by omega) tag, htag]
    by_cases heq : expected = tag
    · simp [heq, orCorrupt, Except.map]
    · simp [heq, orCorrupt, Except.map]

theorem ocbDecrypt_none {key : Fixed 32} {nonce : Fixed 12} {aad : Bytes}
    (haad : ¬ aad.length < 2 ^ lTableSize * blockSize) :
    ocbDecrypt crates key.val nonce.val aad ([] ++ zeroBlock.val) = none := by
  have hll := length_new_ll (crates.aes256 key)
  have hempty : ([] : Bytes).length < 2 ^ lTableSize * blockSize := by decide
  rw [ocbDecrypt_sized, decrypt_eq hll nonce aad hempty zeroBlock, computeTag,
    hashAd_none hll (Nat.le_of_not_lt haad)]
  rfl

theorem ocbDecrypt_ocbEncrypt {key : Fixed 32} {nonce : Fixed 12} {aad p c : Bytes}
    (hp : p.length < 2 ^ lTableSize * blockSize)
    (h : ocbEncrypt crates key.val nonce.val aad p = some (.ok c)) :
    ocbDecrypt crates key.val nonce.val aad c = some (.ok p) := by
  have hll := length_new_ll (crates.aes256 key)
  rw [ocbEncrypt_sized, encrypt_eq hll nonce aad hp, Option.map_map, Option.map_eq_some_iff] at h
  obtain ⟨tag, htag, hout⟩ := h
  have hlen : ((new (crates.aes256 key)).encBytes
      ((new (crates.aes256 key)).startOffset nonce) p).length = p.length := length_mapBytes ..
  cases hout
  refine (ocbDecrypt_sized crates key nonce aad ((new (crates.aes256 key)).encBytes
    ((new (crates.aes256 key)).startOffset nonce) p) tag).trans ?_
  rw [decrypt_eq hll nonce aad (hlen.symm ▸ hp), decBytes_encBytes, hlen, htag]
  simp [orCorrupt, Except.map]

theorem fixed_of_not_wrong (h : ¬ (key.length ≠ 32 ∨ nonce.length ≠ 12)) :
    (∃ k : Fixed 32, k.val = key) ∧ ∃ n : Fixed 12, n.val = nonce := by
  obtain ⟨hkey, hnonce⟩ := not_or.mp h
  exact ⟨⟨⟨key, Decidable.not_not.mp hkey⟩, rfl⟩, ⟨⟨nonce, Decidable.not_not.mp hnonce⟩, rfl⟩⟩

/-- **OCB is sound** exactly if sizes that are right come with associated data that is short enough. -/
theorem ocb_sound_iff {aad : Bytes} :
    (aes256OcbAead crates).Sound crates key nonce aad ↔
      (aes256OcbAead crates).SizesKept key nonce aad := by
  have hid : (aes256OcbAead crates).id = aeadAes256Ocb := rfl
  have hinfo : aeadLookup (aes256OcbAead crates).id
      = some ⟨aeadAes256Ocb, "AES-256-OCB", 32, 12, 16⟩ := rfl
  have hkept : (aes256OcbAead crates).SizesKept key nonce aad ↔
      (key.length = 32 → nonce.length = 12 → aad.length < 2 ^ lTableSize * blockSize) := by
    unfold Aead.SizesKept
    rw [if_pos hid]
    exact Iff.rfl
  rw [hkept]
  constructor
  · intro h hkey hnonce
    by_contra hlong
    -- a ciphertext of nothing but a tag
    have hnone : ocbDecrypt crates key nonce aad ([] ++ zeroBlock.val) = none :=
      @ocbDecrypt_none crates ⟨key, hkey⟩ ⟨nonce, hnonce⟩ aad hlong
    have htakes : (aes256OcbAead crates).Takes (zeroBlock.val.length - 16) := fun _ => by decide
    exact h.total _ htakes hnone
  · intro hshort
    refine ⟨fun c htakes => ?_, fun hwrong m => ?_, fun p c htakes henc => ?_, fun hx => ?_⟩
    · show ocbDecrypt crates key nonce aad c ≠ none
      by_cases hwrong : key.length ≠ 32 ∨ nonce.length ≠ 12
      · obtain ⟨e, he⟩ := ocbDecrypt_wrong crates hwrong aad c
        simp [he]
      · obtain ⟨⟨key, rfl⟩, ⟨nonce, rfl⟩⟩ := fixed_of_not_wrong hwrong
        exact ocbDecrypt_total crates (hshort key.property nonce.property) (htakes hid)
    · have hbad : key.length ≠ 32 ∨ nonce.length ≠ 12 := hwrong _ hinfo
      exact ⟨ocbEncrypt_wrong crates hbad aad m, ocbDecrypt_wrong crates hbad aad m⟩
    · have henc : ocbEncrypt crates key nonce aad p = some (.ok c) := henc
      have hright : ¬ (key.length ≠ 32 ∨ nonce.length ≠ 12) := by
        intro hbad
        obtain ⟨e, he⟩ := ocbEncrypt_wrong crates hbad aad p
        rw [he] at henc
        cases henc
      obtain ⟨⟨key, rfl⟩, ⟨nonce, rfl⟩⟩ := fixed_of_not_wrong hright
      exact ocbDecrypt_ocbEncrypt crates (htakes hid) henc
    · rw [hid] at hx
      cases hx

/-! ### The registry -/

theorem mem_defaultAeadRegistry {id : UInt8} {aead : Aead}
    (h : aeadGet (defaultAeadRegistry crates) id = some aead) :
    aead = xchacha20Poly1305Aead crates ∨ aead = aes256GcmAead crates ∨ aead = aes256OcbAead crates := by
  have hmem := List.mem_of_find?_eq_some h
  simpa [defaultAeadRegistry] using hmem

/--
**Exactly the sizes that each cipher of the registry survives.**  Whatever the crates' ciphers, the
key, the nonce and the associated data: decrypting is total on every message, refuses the sizes that
encrypting rejects, gives back what was encrypted, and agrees with `open` (and encrypting with
`seal`), if and only if a key of the right size comes with a nonce of the right size, or for OCB, where
the nonce has it, with associated data of fewer than `2 ^ 24` blocks.
-/
theorem aead_sound_iff (hround : crates.RoundTrip) {id : UInt8} {aead : Aead}
    (h : aeadGet (defaultAeadRegistry crates) id = some aead) (key nonce aad : Bytes) :
    aead.Sound crates key nonce aad ↔ aead.SizesKept key nonce aad := by
  rcases mem_defaultAeadRegistry crates h with rfl | rfl | rfl
  · exact crate_sound_iff crates crates.xchacha "xchacha20" hround.xchacha (by decide) rfl
      fun _ hsizes m => crypto_agrees crates hsizes aad m
  · exact crate_sound_iff crates crates.gcm "aes-gcm" hround.gcm (by decide) rfl
      fun hid => absurd hid (by decide)
  · exact ocb_sound_iff crates

end

namespace Stored

/-- A cipher that puts sixteen zeros behind a message and takes them off again. -/
def tagCipher (n : Nat) : CrateCipher n where
  encrypt _ _ _ msg := .ok (msg ++ List.replicate 16 0)
  decrypt _ _ _ sealed := .ok (sealed.take (sealed.length - 16))

def aeadCrates : AeadCrates where
  xchacha := tagCipher 24
  gcm := tagCipher 12
  aes256 _ := Equiv.refl Block
  invalidLength := "Invalid Length"
  aeadError := "aead::Error"

theorem tagCipher_roundTrips (n : Nat) : (tagCipher n).RoundTrips := by
  intro key nonce aad msg sealed h
  cases h
  simp [tagCipher]

theorem aeadCrates_roundTrip : aeadCrates.RoundTrip :=
  ⟨tagCipher_roundTrips 24, tagCipher_roundTrips 12⟩

def aeadKey : Bytes := List.replicate 32 0x42

end Stored

open LimniFS.Stored

/-- Sizes as every test uses them. -/
theorem aead_sound_right_sizes :
    (xchacha20Poly1305Aead aeadCrates).Sound aeadCrates aeadKey
      (List.replicate 24 1) [] :=
  (aead_sound_iff aeadCrates aeadCrates_roundTrip
    (show aeadGet (defaultAeadRegistry aeadCrates) aeadXChaCha20Poly1305 = some _ from rfl)
    aeadKey (List.replicate 24 1) []).mpr (by
      intro _
      rw [if_neg (by decide)]
      intro info hinfo
      cases hinfo
      rfl)

/-- **A nonce of twelve bytes makes the first cipher panic**, where encrypting and `open` refuse it. -/
theorem short_nonce_panics :
    aeadGet (defaultAeadRegistry aeadCrates) aeadXChaCha20Poly1305
        = some (xchacha20Poly1305Aead aeadCrates) ∧
      (xchacha20Poly1305Aead aeadCrates).decrypt aeadKey (List.replicate 12 1) []
        (List.replicate 16 0) = none ∧
      (∃ e, (xchacha20Poly1305Aead aeadCrates).encrypt aeadKey (List.replicate 12 1) []
        [] = some (.error e)) ∧
      (∃ e, cryptoOpen aeadCrates aeadXChaCha20Poly1305 aeadKey (List.replicate 12 1)
        (List.replicate 16 0) [] = some (.error e)) ∧
      ¬ (xchacha20Poly1305Aead aeadCrates).Sound aeadCrates aeadKey
        (List.replicate 12 1) [] := by
  have hnone := crateDecrypt_wrongNonce aeadCrates aeadCrates.xchacha "xchacha20"
    (show aeadKey.length = 32 from rfl) (show (List.replicate 12 (1 : UInt8)).length ≠ 24 by simp)
    [] (List.replicate 16 0)
  refine ⟨rfl, hnone, ⟨_, rfl⟩, ⟨_, rfl⟩, fun h => ?_⟩
  exact h.total (List.replicate 16 0) (fun _ => by decide) hnone

end LimniFS
