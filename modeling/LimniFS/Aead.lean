/-
Authenticated encryption behind a registry.

Three ciphers are registered.  Two are wrappers of crates, one calls the OCB3 of this repository; each
is handed keys and nonces of any length and checks them for itself.  The encrypting sides check both.
The decrypting sides of the two wrappers leave the key to the crate, which refuses a wrong one, and
the nonce to a conversion that panics instead.

`aead_sound_iff` says for which keys, nonces and associated data a cipher is sound: what decrypting
does is total, sizes that encrypting rejects are refused, and what was encrypted comes back.  The
second implementation of the first cipher, `seal` and `open`, checks both sizes on both sides.
-/
import LimniFS.Ocb3Conforms

namespace LimniFS

open Lib

/-! ### What the registry knows of a cipher -/

def aeadPlaintext : UInt8 := 0x00
def aeadXChaCha20Poly1305 : UInt8 := 0x01
def aeadAes256Gcm : UInt8 := 0x02
def aeadAes256Ocb : UInt8 := 0x03

structure AeadInfo where
  id : UInt8
  name : String
  keySize : Nat
  nonceSize : Nat
  tagSize : Nat

/-- `aead::lookup`. -/
def aeadLookup (id : UInt8) : Option AeadInfo :=
  if id = aeadPlaintext then some ⟨aeadPlaintext, "plaintext", 0, 0, 0⟩
  else if id = aeadXChaCha20Poly1305 then
    some ⟨aeadXChaCha20Poly1305, "XChaCha20-Poly1305", 32, 24, 16⟩
  else if id = aeadAes256Gcm then some ⟨aeadAes256Gcm, "AES-256-GCM", 32, 12, 16⟩
  else if id = aeadAes256Ocb then some ⟨aeadAes256Ocb, "AES-256-OCB", 32, 12, 16⟩
  else none

/-! ### The crates -/

/-- A cipher of a crate under keys of 32 bytes and nonces of `n`: associated data, then message. -/
structure CrateCipher (n : Nat) where
  encrypt : Fixed 32 → Fixed n → Bytes → Bytes → Except Unit Bytes
  decrypt : Fixed 32 → Fixed n → Bytes → Bytes → Except Unit Bytes

/-- What the crate encrypts it decrypts. -/
def CrateCipher.RoundTrips {n : Nat} (c : CrateCipher n) : Prop :=
  ∀ key nonce aad msg sealed, c.encrypt key nonce aad msg = .ok sealed →
    c.decrypt key nonce aad sealed = .ok msg

/-- The crates' ciphers; AES-256 under a key is a permutation of the blocks, and the texts are those
of the crates' errors. -/
structure AeadCrates where
  xchacha : CrateCipher 24
  gcm : CrateCipher 12
  aes256 : Fixed 32 → Equiv.Perm Ocb3.Block
  invalidLength : String
  aeadError : String

structure AeadCrates.RoundTrip (crates : AeadCrates) : Prop where
  xchacha : crates.xchacha.RoundTrips
  gcm : crates.gcm.RoundTrips

/-- What a call gives; `none` is a panic. -/
abbrev AeadOutcome := Option (Except CoreError Bytes)

/-- `GenericArray::from_slice`; `none` is its panic. -/
def fromSlice (n : Nat) (s : Bytes) : Option (Fixed n) :=
  if h : s.length = n then some ⟨s, h⟩ else none

/-- `new_from_slice` and `try_into`, which give an error instead. -/
def newFromSlice (n : Nat) (text : String) (s : Bytes) : Except String (Fixed n) :=
  if h : s.length = n then .ok ⟨s, h⟩ else .error text

/-- The wrappers put a text of their own in place of the crate's error. -/
def orCorrupt (reason : String) : Except Unit Bytes → AeadOutcome
  | .ok out => some (.ok out)
  | .error _ => some (.error (.corrupt reason))

theorem orCorrupt_eq_ok {reason : String} {r : Except Unit Bytes} {out : Bytes} :
    orCorrupt reason r = some (.ok out) ↔ r = .ok out := by
  cases r <;> simp [orCorrupt]

theorem orCorrupt_eq_error {reason : String} {r : Except Unit Bytes} :
    (∃ e, orCorrupt reason r = some (.error e)) ↔ r = .error () := by
  cases r <;> simp [orCorrupt]

theorem fromSlice_val {n : Nat} (l : Fixed n) : fromSlice n l.val = some l := by
  rw [fromSlice, dif_pos l.property]
  rfl

theorem newFromSlice_val {n : Nat} (text : String) (l : Fixed n) :
    newFromSlice n text l.val = .ok l := by
  rw [newFromSlice, dif_pos l.property]
  rfl

/-! ### The ciphers of the registry -/

def keyErr (name : String) (expected got : Nat) : CoreError :=
  .corrupt s!"{name}: key must be {expected} bytes, got {got}"

def nonceErr (name : String) (expected got : Nat) : CoreError :=
  .corrupt s!"{name}: nonce must be {expected} bytes, got {got}"

structure Aead where
  id : UInt8
  name : String
  encrypt : Bytes → Bytes → Bytes → Bytes → AeadOutcome
  decrypt : Bytes → Bytes → Bytes → Bytes → AeadOutcome

section

variable (crates : AeadCrates)

/-- The encrypting side of a wrapper: both sizes are checked. -/
def crateEncrypt {n : Nat} (c : CrateCipher n) (label : String) (key nonce aad plaintext : Bytes) :
    AeadOutcome :=
  if key.length ≠ 32 then some (.error (keyErr label 32 key.length))
  else if nonce.length ≠ n then some (.error (nonceErr label n nonce.length))
  else
    match newFromSlice 32 crates.invalidLength key with
    | .error e => some (.error (.corrupt s!"{label}: {e}"))
    | .ok cipher =>
      match fromSlice n nonce with
      | none => none
      | some nonce =>
        orCorrupt s!"{label}: encrypt failed" (c.encrypt cipher nonce aad plaintext)

/-- The decrypting side: the nonce goes to the conversion as it is. -/
def crateDecrypt {n : Nat} (c : CrateCipher n) (label : String) (key nonce aad ciphertext : Bytes) :
    AeadOutcome :=
  match newFromSlice 32 crates.invalidLength key with
  | .error e => some (.error (.corrupt s!"{label}: {e}"))
  | .ok cipher =>
    match fromSlice n nonce with
    | none => none
    | some nonce =>
      orCorrupt s!"{label}: decrypt failed" (c.decrypt cipher nonce aad ciphertext)

def xchacha20Poly1305Aead : Aead where
  id := aeadXChaCha20Poly1305
  name := "XChaCha20-Poly1305"
  encrypt := crateEncrypt crates crates.xchacha "xchacha20"
  decrypt := crateDecrypt crates crates.xchacha "xchacha20"

def aes256GcmAead : Aead where
  id := aeadAes256Gcm
  name := "AES-256-GCM"
  encrypt := crateEncrypt crates crates.gcm "aes-gcm"
  decrypt := crateDecrypt crates crates.gcm "aes-gcm"

def ocbEncrypt (key nonce aad plaintext : Bytes) : AeadOutcome :=
  if key.length ≠ 32 then some (.error (keyErr "aes-ocb" 32 key.length))
  else if nonce.length ≠ 12 then some (.error (nonceErr "aes-ocb" 12 nonce.length))
  else
    match newFromSlice 32 "aes-ocb: key length assertion failed" key with
    | .error e => some (.error (.corrupt e))
    | .ok keyArr =>
      match newFromSlice 12 "aes-ocb: nonce length assertion failed" nonce with
      | .error e => some (.error (.corrupt e))
      | .ok nonceArr =>
        let ocb := Ocb3.new (crates.aes256 keyArr)
        (ocb.encryptInPlaceDetached nonceArr aad plaintext).map fun (buf, tag) => .ok (buf ++ tag.val)

def ocbDecrypt (key nonce aad ciphertext : Bytes) : AeadOutcome :=
  if ciphertext.length < 16 then some (.error (.corrupt "aes-ocb: ciphertext too short for tag"))
  else if key.length ≠ 32 ∨ nonce.length ≠ 12 then
    some (.error (.corrupt "aes-ocb: invalid key/nonce length"))
  else do
    let keyArr ← fromSlice 32 key
    let nonceArr ← fromSlice 12 nonce
    let ocb := Ocb3.new (crates.aes256 keyArr)
    let tagStart := ciphertext.length - 16
    let tag ← fromSlice 16 (ciphertext.drop tagStart)
    let (verdict, buf) ← ocb.decryptInPlaceDetached nonceArr aad (ciphertext.take tagStart) tag
    orCorrupt "aes-ocb: decrypt failed (tag mismatch?)" (verdict.map fun _ => buf)

def aes256OcbAead : Aead where
  id := aeadAes256Ocb
  name := "AES-256-OCB"
  encrypt := ocbEncrypt crates
  decrypt := ocbDecrypt crates

/-- `AeadRegistry::default_registry`. -/
def defaultAeadRegistry : List Aead :=
  [xchacha20Poly1305Aead crates, aes256GcmAead crates, aes256OcbAead crates]

/-- `AeadRegistry::get`. -/
def aeadGet (registry : List Aead) (id : UInt8) : Option Aead := registry.find? fun a => a.id = id

/-! ### Seal and open -/

def validateKeyNonce (aeadId : UInt8) (key nonce : Bytes) (expectedKey expectedNonce : Nat) :
    Except CoreError Unit :=
  if key.length ≠ expectedKey then
    .error (.corrupt ("AEAD " ++ hex2 aeadId ++ s!": key size {key.length} != expected {expectedKey}"))
  else if nonce.length ≠ expectedNonce then
    .error (.corrupt ("AEAD " ++ hex2 aeadId
      ++ s!": nonce size {nonce.length} != expected {expectedNonce}"))
  else .ok ()

/-- Behind the lookup and the check `seal` and `open` differ in the call and in a word. -/
def cryptoWith (call : Fixed 32 → Fixed 24 → Bytes → Bytes → Except Unit Bytes) (verb : String)
    (aeadId : UInt8) (key nonce msg aad : Bytes) : AeadOutcome :=
  if aeadId = aeadPlaintext then some (.ok msg)
  else if aeadId = aeadXChaCha20Poly1305 then
    match aeadLookup aeadId with
    | none => some (.error (.unsupportedFeature (verb ++ " AEAD " ++ hex2 aeadId)))
    | some info =>
      match validateKeyNonce aeadId key nonce info.keySize info.nonceSize with
      | .error e => some (.error e)
      | .ok () => do
        let cipher ← fromSlice 32 key
        let nonce ← fromSlice 24 nonce
        orCorrupt s!"XChaCha20-Poly1305 {verb} failed: {crates.aeadError}" (call cipher nonce aad msg)
  else some (.error (.unsupportedFeature (verb ++ " AEAD " ++ hex2 aeadId)))

/-- `crypto::seal`. -/
def cryptoSeal (aeadId : UInt8) (key nonce plaintext aad : Bytes) : AeadOutcome :=
  cryptoWith crates crates.xchacha.encrypt "seal" aeadId key nonce plaintext aad

/-- `crypto::open`. -/
def cryptoOpen (aeadId : UInt8) (key nonce ciphertextWithTag aad : Bytes) : AeadOutcome :=
  cryptoWith crates crates.xchacha.decrypt "open" aeadId key nonce ciphertextWithTag aad

end

/-! ### What is expected of a cipher -/

/-- Both give the same bytes, or both an error. -/
structure SameOutcome (x y : AeadOutcome) : Prop where
  ok : ∀ out, x = some (.ok out) ↔ y = some (.ok out)
  error : (∃ e, x = some (.error e)) ↔ ∃ e, y = some (.error e)

/-- OCB takes messages of fewer than `2 ^ 24` blocks. -/
def Aead.Takes (aead : Aead) (len : Nat) : Prop := aead.id = aeadAes256Ocb → len < 2 ^ 24 * 16

/-- The key or the nonce has another size than the registry says. -/
def Aead.WrongSizes (aead : Aead) (key nonce : Bytes) : Prop :=
  ∀ info, aeadLookup aead.id = some info →
    key.length ≠ info.keySize ∨ nonce.length ≠ info.nonceSize

/-- A cipher under one key and nonce and with one associated data, whatever the messages. -/
structure Aead.Sound (crates : AeadCrates) (aead : Aead) (key nonce aad : Bytes) : Prop where
  total : ∀ c, aead.Takes (c.length - 16) → aead.decrypt key nonce aad c ≠ none
  rejects : aead.WrongSizes key nonce → ∀ m, (∃ e, aead.encrypt key nonce aad m = some (.error e)) ∧
    ∃ e, aead.decrypt key nonce aad m = some (.error e)
  roundTrip : ∀ p c, aead.Takes p.length → aead.encrypt key nonce aad p = some (.ok c) →
    aead.decrypt key nonce aad c = some (.ok p)
  agrees : aead.id = aeadXChaCha20Poly1305 → ∀ m,
    SameOutcome (cryptoSeal crates aead.id key nonce m aad) (aead.encrypt key nonce aad m) ∧
      SameOutcome (cryptoOpen crates aead.id key nonce m aad) (aead.decrypt key nonce aad m)

/-- With a key of the right size the nonce of a crate's cipher has its size as well.  OCB sees to that
itself, and gets associated data of fewer than `2 ^ 24` blocks with a nonce of its size. -/
def Aead.SizesKept (aead : Aead) (key nonce aad : Bytes) : Prop :=
  key.length = 32 →
    if aead.id = aeadAes256Ocb then nonce.length = 12 → aad.length < 2 ^ 24 * 16
    else ∀ info, aeadLookup aead.id = some info → nonce.length = info.nonceSize

/-! ### The wrappers -/

section

variable (crates : AeadCrates)

section

variable {n : Nat} (c : CrateCipher n) (label : String) {key nonce : Bytes}

theorem crateEncrypt_wrong (h : key.length ≠ 32 ∨ nonce.length ≠ n) (aad plaintext : Bytes) :
    ∃ e, crateEncrypt crates c label key nonce aad plaintext = some (.error e) := by
  unfold crateEncrypt
  by_cases hkey : key.length ≠ 32
  · rw [if_pos hkey]
    exact ⟨_, rfl⟩
  · rw [if_neg hkey, if_pos (h.resolve_left hkey)]
    exact ⟨_, rfl⟩

theorem crateEncrypt_sized (key : Fixed 32) (nonce : Fixed n) (aad plaintext : Bytes) :
    crateEncrypt crates c label key.val nonce.val aad plaintext
      = orCorrupt s!"{label}: encrypt failed" (c.encrypt key nonce aad plaintext) := by
  unfold crateEncrypt
  rw [if_neg (not_not.mpr key.property), if_neg (not_not.mpr nonce.property), newFromSlice_val]
  simp only [fromSlice_val]

theorem crateDecrypt_wrongKey (h : key.length ≠ 32) (aad ciphertext : Bytes) :
    ∃ e, crateDecrypt crates c label key nonce aad ciphertext = some (.error e) := by
  unfold crateDecrypt newFromSlice
  rw [dif_neg h]
  exact ⟨_, rfl⟩

/-- **Nothing keeps a wrong nonce from the conversion.** -/
theorem crateDecrypt_wrongNonce (hkey : key.length = 32) (h : nonce.length ≠ n)
    (aad ciphertext : Bytes) : crateDecrypt crates c label key nonce aad ciphertext = none := by
  unfold crateDecrypt newFromSlice
  rw [dif_pos hkey]
  simp only [fromSlice]
  rw [dif_neg h]

theorem crateDecrypt_sized (key : Fixed 32) (nonce : Fixed n) (aad ciphertext : Bytes) :
    crateDecrypt crates c label key.val nonce.val aad ciphertext
      = orCorrupt s!"{label}: decrypt failed" (c.decrypt key nonce aad ciphertext) := by
  unfold crateDecrypt
  rw [newFromSlice_val]
  simp only [fromSlice_val]

/-- **A wrapper is sound** exactly if a right key comes with a right nonce. -/
theorem crate_sound_iff (hc : c.RoundTrips) {id : UInt8} {name : String} (hocb : id ≠ aeadAes256Ocb)
    (hinfo : aeadLookup id = some ⟨id, name, 32, n, 16⟩) {aad : Bytes}
    (hagrees : id = aeadXChaCha20Poly1305 → (key.length = 32 → nonce.length = n) → ∀ m,
      SameOutcome (cryptoSeal crates id key nonce m aad) (crateEncrypt crates c label key nonce aad m) ∧
        SameOutcome (cryptoOpen crates id key nonce m aad)
          (crateDecrypt crates c label key nonce aad m)) :
    Aead.Sound crates ⟨id, name, crateEncrypt crates c label, crateDecrypt crates c label⟩ key nonce aad ↔
      Aead.SizesKept ⟨id, name, crateEncrypt crates c label, crateDecrypt crates c label⟩ key nonce
        aad := by
  have hkept : Aead.SizesKept ⟨id, name, crateEncrypt crates c label, crateDecrypt crates c label⟩ key
      nonce aad ↔ (key.length = 32 → nonce.length = n) := by
    unfold Aead.SizesKept
    simp only [if_neg hocb, hinfo, Option.some.injEq, forall_eq']
  rw [hkept]
  constructor
  · intro h hkey
    by_contra hnonce
    exact h.total [] (fun hid => absurd hid hocb) (crateDecrypt_wrongNonce crates c label hkey hnonce aad [])
  · intro hsizes
    refine ⟨fun m _ => ?_, fun hwrong m => ?_, fun p sealed _ henc => ?_, fun hid => hagrees hid hsizes⟩
    · by_cases hkey : key.length = 32
      · have hsized := crateDecrypt_sized crates c label ⟨key, hkey⟩
          ⟨nonce, hsizes hkey⟩ aad m
        simp only at hsized ⊢
        rw [hsized]
        cases c.decrypt ⟨key, hkey⟩ ⟨nonce, hsizes hkey⟩ aad m <;> simp [orCorrupt]
      · obtain ⟨e, he⟩ : ∃ e, crateDecrypt crates c label key nonce aad m = some (.error e) :=
          crateDecrypt_wrongKey crates c label hkey aad m
        simp [he]
    · have hbad : key.length ≠ 32 ∨ nonce.length ≠ n := hwrong _ hinfo
      have hkey : key.length ≠ 32 := fun hkey =>
        hbad.elim (fun h => h hkey) fun h => h (hsizes hkey)
      exact ⟨crateEncrypt_wrong crates c label hbad aad m, crateDecrypt_wrongKey crates c label hkey aad m⟩
    · have hright : ¬ (key.length ≠ 32 ∨ nonce.length ≠ n) := by
        intro hbad
        obtain ⟨e, he⟩ := crateEncrypt_wrong crates c label hbad aad p
        simp only [he] at henc
        cases henc
      obtain ⟨hkey, hnonce⟩ := not_or.mp hright
      have hkey := Decidable.not_not.mp hkey
      have hnonce := Decidable.not_not.mp hnonce
      have hsealed := crateEncrypt_sized crates c label ⟨key, hkey⟩
        ⟨nonce, hnonce⟩ aad p
      have hopened := crateDecrypt_sized crates c label ⟨key, hkey⟩
        ⟨nonce, hnonce⟩ aad sealed
      simp only at hsealed hopened henc ⊢
      rw [hsealed] at henc
      rw [hopened]
      exact orCorrupt_eq_ok.mpr (hc _ _ _ _ _ (orCorrupt_eq_ok.mp henc))

end

/-! ### Seal and open -/

theorem orCorrupt_same {r : Except Unit Bytes} (text text' : String) :
    SameOutcome (orCorrupt text r) (orCorrupt text' r) :=
  ⟨fun _ => by rw [orCorrupt_eq_ok, orCorrupt_eq_ok],
    by rw [orCorrupt_eq_error, orCorrupt_eq_error]⟩

theorem same_of_errors {x y : AeadOutcome} (hx : ∃ e, x = some (.error e))
    (hy : ∃ e, y = some (.error e)) : SameOutcome x y := by
  obtain ⟨e, rfl⟩ := hx
  obtain ⟨e', rfl⟩ := hy
  exact ⟨fun out => by simp, by simp⟩

section

variable (call : Fixed 32 → Fixed 24 → Bytes → Bytes → Except Unit Bytes) (verb : String)

theorem cryptoWith_wrong {key nonce : Bytes} (h : key.length ≠ 32 ∨ nonce.length ≠ 24)
    (msg aad : Bytes) :
    ∃ e, cryptoWith crates call verb aeadXChaCha20Poly1305 key nonce msg aad = some (.error e) := by
  have hinfo : aeadLookup aeadXChaCha20Poly1305
      = some ⟨aeadXChaCha20Poly1305, "XChaCha20-Poly1305", 32, 24, 16⟩ := rfl
  unfold cryptoWith
  rw [if_neg (by decide), if_pos rfl]
  simp only [hinfo]
  unfold validateKeyNonce
  by_cases hkey : key.length ≠ 32
  · rw [if_pos hkey]
    exact ⟨_, rfl⟩
  · rw [if_neg hkey, if_pos (h.resolve_left hkey)]
    exact ⟨_, rfl⟩

theorem cryptoWith_sized (key : Fixed 32) (nonce : Fixed 24) (msg aad : Bytes) :
    cryptoWith crates call verb aeadXChaCha20Poly1305 key.val nonce.val msg aad
      = orCorrupt s!"XChaCha20-Poly1305 {verb} failed: {crates.aeadError}" (call key nonce aad msg) := by
  have hinfo : aeadLookup aeadXChaCha20Poly1305
      = some ⟨aeadXChaCha20Poly1305, "XChaCha20-Poly1305", 32, 24, 16⟩ := rfl
  unfold cryptoWith
  rw [if_neg (by decide), if_pos rfl]
  simp only [hinfo]
  unfold validateKeyNonce
  rw [if_neg (not_not.mpr key.property), if_neg (not_not.mpr nonce.property)]
  simp only [fromSlice_val]
  rfl

end

/-- Where a right key comes with a right nonce, both implementations of the first cipher agree. -/
theorem crypto_agrees {key nonce : Bytes} (hsizes : key.length = 32 → nonce.length = 24)
    (aad m : Bytes) :
    SameOutcome (cryptoSeal crates aeadXChaCha20Poly1305 key nonce m aad)
        (crateEncrypt crates crates.xchacha "xchacha20" key nonce aad m) ∧
      SameOutcome (cryptoOpen crates aeadXChaCha20Poly1305 key nonce m aad)
        (crateDecrypt crates crates.xchacha "xchacha20" key nonce aad m) := by
  by_cases hkey : key.length = 32
  · have hsealed := crateEncrypt_sized crates crates.xchacha "xchacha20"
      ⟨key, hkey⟩ ⟨nonce, hsizes hkey⟩ aad m
    have hopened := crateDecrypt_sized crates crates.xchacha "xchacha20"
      ⟨key, hkey⟩ ⟨nonce, hsizes hkey⟩ aad m
    have hseal := cryptoWith_sized crates crates.xchacha.encrypt "seal"
      ⟨key, hkey⟩ ⟨nonce, hsizes hkey⟩ m aad
    have hopen := cryptoWith_sized crates crates.xchacha.decrypt "open"
      ⟨key, hkey⟩ ⟨nonce, hsizes hkey⟩ m aad
    simp only at hsealed hopened hseal hopen
    rw [cryptoSeal, cryptoOpen, hsealed, hopened, hseal, hopen]
    exact ⟨orCorrupt_same _ _, orCorrupt_same _ _⟩
  · exact ⟨same_of_errors (cryptoWith_wrong crates _ _ (Or.inl hkey) m aad)
        (crateEncrypt_wrong crates _ _ (Or.inl hkey) aad m),
      same_of_errors (cryptoWith_wrong crates _ _ (Or.inl hkey) m aad)
        (crateDecrypt_wrongKey crates _ _ hkey aad m)⟩

end

end LimniFS
