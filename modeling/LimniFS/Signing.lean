/-
Signatures over the root.

A signature sidecar carries the signed root, the signer's key and an Ed25519 signature
of the root.  Checking an image against a trusted key recomputes the root from the
manifest on disk, compares it and the key with the sidecar's, and verifies the
signature.  Ed25519 itself is a parameter.

The signature is over the root, and the root is over the sections.  So what is signed
ends with the history: `root_commits_to_manifest_iff` says that two accepted manifests
with one root are equal unless they differ only behind a complete manifest, and that
the same holds of two manifests one signature covers.
-/
import LimniFS.CodecRoundTrip
import LimniFS.MerkleRoot

namespace LimniFS

open Lib

/-- What the signing module uses of the Ed25519 crate; the texts are the crate's. -/
structure Ed25519 where
  parseKey : Fixed 32 → Except String Unit
  verify : Fixed 32 → Bytes → Fixed 64 → Except String Unit

theorem exists_eq_ok {ε α : Type} {x : Except ε α} (h : x.isOk = true) : ∃ a, x = .ok a := by
  cases x with
  | error e => cases h
  | ok a => exact ⟨a, rfl⟩

theorem exists_both_ok {ε α β : Type} {x : Except ε α} {y : Except ε β} {P : α → β → Bool}
    (h : (do
      let a ← x
      let b ← y
      pure (P a b)) = Except.ok true) :
    ∃ a b, x = .ok a ∧ y = .ok b ∧ P a b = true := by
  obtain ⟨a, ha, h⟩ := except_bind_eq_ok.mp h
  obtain ⟨b, hb, h⟩ := except_bind_eq_ok.mp h
  exact ⟨a, b, ha, hb, Except.ok.inj h⟩

/-! ### PEM -/

/-- `char::is_whitespace`. -/
def isWhitespace (c : Char) : Bool :=
  let n := c.toNat
  (9 ≤ n && n ≤ 13) || n == 0x20 || n == 0x85 || n == 0xA0 || n == 0x1680
    || (0x2000 ≤ n && n ≤ 0x200A) || n == 0x2028 || n == 0x2029 || n == 0x202F || n == 0x205F
    || n == 0x3000

/-- `str::trim`. -/
def trim (s : List Char) : List Char :=
  ((s.dropWhile isWhitespace).reverse.dropWhile isWhitespace).reverse

/-- `str::strip_prefix`. -/
def stripFront (front s : List Char) : Option (List Char) :=
  if front.isPrefixOf s then some (s.drop front.length) else none

/-- `str::strip_suffix`. -/
def stripBack (back s : List Char) : Option (List Char) :=
  if back.isSuffixOf s then some (s.take (s.length - back.length)) else none

def base64Value (c : Char) : Option Nat :=
  let n := c.toNat
  if 65 ≤ n ∧ n ≤ 90 then some (n - 65)
  else if 97 ≤ n ∧ n ≤ 122 then some (n - 71)
  else if 48 ≤ n ∧ n ≤ 57 then some (n + 4)
  else if c = '+' then some 62
  else if c = '/' then some 63
  else none

/-- The base64 loop: `buf` and `bits` are the accumulator, padding ends it. -/
def base64Loop : List Char → Nat → Nat → Option Bytes
  | [], _, _ => some []
  | c :: rest, buf, bits =>
    if c = '=' then some []
    else
      match base64Value c with
      | none => none
      | some v =>
        let buf := (buf * 64) % u32Limit + v
        let bits := bits + 6
        if 8 ≤ bits then
          (base64Loop rest buf (bits - 8)).map (UInt8.ofNat (buf / 2 ^ (bits - 8) % 256) :: ·)
        else base64Loop rest buf bits

def pemUnwrap (expectedHeader expectedFooter pem : List Char) : Except String Bytes :=
  let trimmed := trim pem
  if expectedHeader.isPrefixOf trimmed = false then .error "sign: pem: unexpected PEM label"
  else
    match (stripFront expectedHeader trimmed).bind (stripBack expectedFooter) with
    | none => .error "sign: pem: missing PEM footer"
    | some body =>
      match base64Loop (body.filter fun c => !isWhitespace c) 0 0 with
      | none => .error "sign: pem: invalid base64 character"
      | some out => .ok out

def pemPublicHeader : List Char := "-----BEGIN PUBLIC KEY-----".toList
def pemPublicFooter : List Char := "-----END PUBLIC KEY-----".toList

/-- The DER bytes in front of every Ed25519 public key. -/
def spkiEd25519Front : Bytes :=
  [0x30, 0x2a, 0x30, 0x05, 0x06, 0x03, 0x2b, 0x65, 0x70, 0x03, 0x21, 0x00]

def decodePublicSpkiPem (pem : List Char) : Except String (Fixed 32) :=
  match pemUnwrap pemPublicHeader pemPublicFooter pem with
  | .error e => .error e
  | .ok der =>
    if h : der.length = 44 ∧ der.take 12 = spkiEd25519Front then
      .ok ⟨der.drop 12, by rw [List.length_drop, h.1]⟩
    else .error "sign: not an Ed25519 SPKI public key (unexpected DER layout)"

/-! ### The signature sidecar -/

inductive SignMode where
  | keypair
  | keyless
  deriving DecidableEq, Repr

def SignMode.toByte : SignMode → UInt8
  | .keypair => 0
  | .keyless => 1

structure SignatureBundle where
  manifestRoot : Fixed 32
  signature : Fixed 64
  publicKey : Fixed 32
  mode : SignMode
  deriving DecidableEq

def limsigMagic : Bytes := ascii "LMSG"
def limsigLen : Nat := 134

namespace SignatureBundle

def toLimsig (b : SignatureBundle) : Bytes :=
  limsigMagic ++ [1, b.mode.toByte] ++ b.manifestRoot.val ++ b.publicKey.val ++ b.signature.val

def fromLimsig (bytes : Bytes) : Except String SignatureBundle :=
  if h : bytes.length = limsigLen then
    if bytes.take 4 ≠ limsigMagic then .error "sign: limsig: bad magic"
    else if bytes.getD 4 0 ≠ 1 then
      .error s!"sign: limsig: unsupported version {bytes.getD 4 0}"
    else .ok
      { manifestRoot := ⟨(bytes.drop 6).take 32, by simp [h, limsigLen]⟩
        publicKey := ⟨(bytes.drop 38).take 32, by simp [h, limsigLen]⟩
        signature := ⟨(bytes.drop 70).take 64, by simp [h, limsigLen]⟩
        mode := if bytes.getD 5 0 = 0 then .keypair else .keyless }
  else .error s!"sign: limsig: expected {limsigLen} bytes, got {bytes.length}"

def verify (ed : Ed25519) (b : SignatureBundle) : Except String Unit :=
  if b.mode ≠ .keypair then
    .error "sign: verify: mode Keyless not implemented (v1 supports Keypair only)"
  else
    match ed.parseKey b.publicKey with
    | .error e => .error ("sign: public key parse: " ++ e)
    | .ok () =>
      match ed.verify b.publicKey b.manifestRoot.val b.signature with
      | .error e => .error ("sign: verify: " ++ e)
      | .ok () => .ok ()

end SignatureBundle

/-! ### Checking an image -/

inductive CliError where
  | readFailed (path : String)
  | formatFailed (source : CoreError)
  | writeFailed (source : String)
  | signatureFailed (reason : String)
  deriving DecidableEq

/-- `none` stands for a file that is missing, or for a key file that is not text.  The texts
leave out paths and the system's own messages. -/
def checkSignature (H : Hash) (z : Omnizip) (ed : Ed25519) (image limsig : Option Bytes)
    (pem : Option (List Char)) : Except CliError Unit :=
  match limsig with
  | none => .error (.signatureFailed "no signature sidecar")
  | some sig =>
    match SignatureBundle.fromLimsig sig with
    | .error e => .error (.signatureFailed e)
    | .ok bundle =>
      match image with
      | none => .error (.readFailed "image")
      | some bytes =>
        match readManifest H z bytes with
        | .error e => .error (.formatFailed e)
        | .ok view =>
          if bundle.manifestRoot ≠ view.merkleRoot then
            .error (.signatureFailed ("signature covers a different ManifestRoot — the image"
              ++ " was modified after signing"))
          else
            match pem with
            | none => .error (.readFailed "public key")
            | some pem =>
              match decodePublicSpkiPem pem with
              | .error e => .error (.signatureFailed e)
              | .ok trusted =>
                if bundle.publicKey ≠ trusted then
                  .error (.signatureFailed
                    "image signed by a different key than the trusted public key")
                else
                  match bundle.verify ed with
                  | .error e => .error (.signatureFailed e)
                  | .ok () => .ok ()

section

variable {H : Hash} {z : Omnizip} {ed : Ed25519} {image : Bytes} {limsig : Option Bytes}
  {pem : Option (List Char)}

theorem checkSignature_ok (h : checkSignature H z ed (some image) limsig pem = .ok ()) :
    ∃ sig bundle view, limsig = some sig ∧ SignatureBundle.fromLimsig sig = .ok bundle
      ∧ readManifest H z image = .ok view ∧ bundle.manifestRoot = view.merkleRoot
      ∧ bundle.verify ed = .ok () := by
  unfold checkSignature at h
  cases limsig with
  | none => cases h
  | some sig =>
      simp only at h
      split at h
      · cases h
      · next bundle hb =>
          split at h
          · cases h
          · next view hv =>
              split at h
              · cases h
              · next hroot =>
                  refine ⟨sig, bundle, view, rfl, hb, hv, Decidable.not_not.mp hroot, ?_⟩
                  split at h
                  · cases h
                  · split at h
                    · cases h
                    · split at h
                      · cases h
                      · split at h
                        · cases h
                        · next hverify => exact hverify

theorem checkSignature_congr {image' : Bytes} {view view' : ManifestView}
    (hv : readManifest H z image = .ok view) (hv' : readManifest H z image' = .ok view')
    (hroot : view'.merkleRoot = view.merkleRoot) :
    checkSignature H z ed (some image') limsig pem
      = checkSignature H z ed (some image) limsig pem := by
  unfold checkSignature
  simp only [hv, hv', hroot]

end

/-! ### What a root commits to -/

/-- The two differ, but only behind a complete manifest: `front` is accepted by itself and
both start with it. -/
def DifferBehindManifest (H : Hash) (z : Omnizip) (m₁ m₂ : Bytes) : Prop :=
  ∃ front t₁ t₂ view, readManifest H z front = .ok view ∧ m₁ = front ++ t₁ ∧ m₂ = front ++ t₂
    ∧ t₁ ≠ t₂

section

variable {H : Hash} {z : Omnizip} {m₁ m₂ : Bytes} {v₁ v₂ : ManifestView}

theorem differBehindManifest_of_root_eq (h₁ : readManifest H z m₁ = .ok v₁)
    (h₂ : readManifest H z m₂ = .ok v₂)
    (hcol : NoCollision H (hashedStrings H z m₁ ++ hashedStrings H z m₂))
    (hroot : v₁.merkleRoot = v₂.merkleRoot) (hne : m₁ ≠ m₂) : DifferBehindManifest H z m₁ m₂ := by
  obtain ⟨s₁, r₁, hs₁, hroot₁, hhash₁, t₁, hm₁⟩ := readManifest_ok h₁
  obtain ⟨s₂, r₂, hs₂, hroot₂, hhash₂, t₂, hm₂⟩ := readManifest_ok h₂
  rw [hhash₁, hhash₂] at hcol
  rw [hroot₁, hroot₂] at hroot
  have hbytes := sections_eq_of_root_eq hcol hroot
  have hfront : ∃ view, readManifest H z s₁.bytes = .ok view := by
    have hlen : s₁.bytes.length ≤ verifyReadBudget := by
      have htake := congrArg List.length (parseSections_ok hs₁)
      simp only [List.length_take, List.length_append] at htake
      omega
    have hok := parseSections_append hs₁ []
    rw [List.append_nil] at hok
    unfold readManifest
    rw [List.take_of_length_le hlen, hok]
    exact ⟨_, rfl⟩
  obtain ⟨view, hview⟩ := hfront
  refine ⟨s₁.bytes, t₁, t₂, view, hview, hm₁, ?_, ?_⟩
  · rw [hm₂, hbytes]
  · intro ht
    exact hne (by rw [hm₁, hm₂, hbytes, ht])

theorem root_eq_of_differBehindManifest (h₁ : readManifest H z m₁ = .ok v₁)
    (h₂ : readManifest H z m₂ = .ok v₂) (h : DifferBehindManifest H z m₁ m₂) :
    v₁.merkleRoot = v₂.merkleRoot ∧ m₁ ≠ m₂ := by
  obtain ⟨front, t₁, t₂, view, hview, rfl, rfl, hne⟩ := h
  obtain ⟨w₁, hw₁, hroot₁⟩ := readManifest_append hview t₁
  obtain ⟨w₂, hw₂, hroot₂⟩ := readManifest_append hview t₂
  rw [hw₁] at h₁
  rw [hw₂] at h₂
  cases h₁
  cases h₂
  exact ⟨hroot₁.trans hroot₂.symm, fun heq => hne (List.append_cancel_left heq)⟩

/--
**The root commits to the sections of a manifest and to nothing behind them.**  Two
accepted manifests with one root are the same bytes exactly when they do not differ
behind a complete manifest only, and under one signature sidecar and one trusted key
the second passes the check of the first exactly in the same way.
-/
theorem root_commits_to_manifest_iff (h₁ : readManifest H z m₁ = .ok v₁)
    (h₂ : readManifest H z m₂ = .ok v₂)
    (hcol : NoCollision H (hashedStrings H z m₁ ++ hashedStrings H z m₂)) :
    ((v₁.merkleRoot = v₂.merkleRoot → m₁ = m₂) ↔ ¬ DifferBehindManifest H z m₁ m₂) ∧
    ∀ (ed : Ed25519) (limsig : Option Bytes) (pem : Option (List Char)),
      checkSignature H z ed (some m₁) limsig pem = .ok () →
      ((checkSignature H z ed (some m₂) limsig pem = .ok () → m₁ = m₂)
        ↔ ¬ DifferBehindManifest H z m₁ m₂) := by
  refine ⟨⟨?_, ?_⟩, ?_⟩
  · intro hcommit hdiff
    obtain ⟨hroot, hne⟩ := root_eq_of_differBehindManifest h₁ h₂ hdiff
    exact hne (hcommit hroot)
  · intro hdiff hroot
    by_contra hne
    exact hdiff (differBehindManifest_of_root_eq h₁ h₂ hcol hroot hne)
  · intro ed limsig pem hcheck
    constructor
    · intro hcommit hdiff
      obtain ⟨hroot, hne⟩ := root_eq_of_differBehindManifest h₁ h₂ hdiff
      refine hne (hcommit ?_)
      rw [checkSignature_congr h₁ h₂ hroot.symm]
      exact hcheck
    · intro hdiff hcheck'
      by_contra hne
      obtain ⟨sig, bundle, view, hsig, hbundle, hview, hroot, -⟩ := checkSignature_ok hcheck
      obtain ⟨sig', bundle', view', hsig', hbundle', hview', hroot', -⟩ :=
        checkSignature_ok hcheck'
      -- one sidecar, so one bundle and one signed root
      rw [hsig] at hsig'
      cases hsig'
      rw [hbundle] at hbundle'
      cases hbundle'
      rw [h₁] at hview
      rw [h₂] at hview'
      cases hview
      cases hview'
      exact hdiff (differBehindManifest_of_root_eq h₁ h₂ hcol (hroot.symm.trans hroot') hne)

end

namespace Stored

/-- A digest for runs on fixed inputs: a polynomial in the bytes. -/
def foldDigest (x : Bytes) : Digest :=
  ⟨leBytes 32 (x.foldl (fun acc b => acc * 257 + b.toNat + 1) 1), leBytes_length _ _⟩

/-- A manifest with no slabs and `blob` as inlined metadata, built at `timestamp`. -/
def manifest (blob : Bytes) (timestamp : Nat) : Bytes :=
  ManifestHeader.current.toBytes ++ [1, 0, 0, 0, 0]
    ++ ([1] ++ (foldDigest blob).val ++ leBytes 4 0 ++ leBytes 4 blob.length ++ blob)
    ++ [1, 0, 0, 0, 0]
    ++ ([1] ++ leBytes 4 1 ++ [HistoryOp.build.toByte] ++ leBytes 8 timestamp ++ leBytes 4 0
      ++ leBytes 4 0)

end Stored

open LimniFS.Stored

/-- One byte behind the history, and nothing notices. -/
theorem trailing_byte_keeps_root :
    ∃ v₁ v₂, readManifest foldDigest omnizip (manifest [0] 0) = .ok v₁ ∧
      readManifest foldDigest omnizip (manifest [0] 0 ++ [0]) = .ok v₂ ∧
      NoCollision foldDigest
        (hashedStrings foldDigest omnizip (manifest [0] 0) ++
          hashedStrings foldDigest omnizip (manifest [0] 0 ++ [0])) ∧
      v₁.merkleRoot = v₂.merkleRoot ∧ manifest [0] 0 ≠ manifest [0] 0 ++ [0] := by
  obtain ⟨v₁, h₁⟩ : ∃ v, readManifest foldDigest omnizip (manifest [0] 0)
      = .ok v := exists_eq_ok (by decide +kernel)
  obtain ⟨v₂, h₂, hroot⟩ := readManifest_append h₁ [0]
  refine ⟨v₁, v₂, h₁, h₂, ?_, hroot.symm, ?_⟩
  · decide +kernel
  · decide +kernel

/-- Two manifests that differ in the history only. -/
theorem root_commits_to_manifest_iff_history :
    ∃ v₁ v₂, readManifest foldDigest omnizip (manifest [0] 0) = .ok v₁ ∧
      readManifest foldDigest omnizip (manifest [0] 7) = .ok v₂ ∧
      ((v₁.merkleRoot = v₂.merkleRoot → manifest [0] 0 = manifest [0] 7)
        ↔ ¬ DifferBehindManifest foldDigest omnizip (manifest [0] 0)
          (manifest [0] 7)) := by
  obtain ⟨v₁, h₁⟩ : ∃ v, readManifest foldDigest omnizip (manifest [0] 0)
      = .ok v := exists_eq_ok (by decide +kernel)
  obtain ⟨v₂, h₂⟩ : ∃ v, readManifest foldDigest omnizip (manifest [0] 7)
      = .ok v := exists_eq_ok (by decide +kernel)
  exact ⟨v₁, v₂, h₁, h₂, (root_commits_to_manifest_iff h₁ h₂ (by decide +kernel)).1⟩

end LimniFS
