/-
What a decoded CAR archive says about its bytes.

The loop of the decoder is read as an inductive relation between what is left of the input and the
blocks it holds.  A block is its length, and a body that a CID stands in front of; how far the CID goes
is what the decoder says, which need not be where its digest ends.
-/
import LimniFS.Car

namespace LimniFS

open Lib Leb128

/-! ### One block -/

@[simp] theorem ite_throw_eq_ok {α : Type} {c : Prop} [Decidable c] {e : CarError}
    {x : Except CarError α} {a : α} : (if c then throw e else x) = .ok a ↔ ¬ c ∧ x = .ok a := by
  by_cases h : c
  · rw [if_pos h]
    exact ⟨fun hx => (by cases hx), fun hx => absurd h hx.1⟩
  · rw [if_neg h]
    exact ⟨fun hx => ⟨h, hx⟩, fun hx => hx.2⟩

theorem digestAt_of_drop {bytes rest : Bytes} {start : Nat} {digest : Digest}
    (h : ¬ bytes.length < start + 32) (hdrop : bytes.drop start = digest.val ++ rest) :
    digestAt bytes start h = digest := by
  apply Subtype.ext
  show List.take 32 (List.drop start bytes) = digest.val
  rw [hdrop, List.take_append_of_le_length (Nat.le_of_eq digest.property.symm),
    List.take_of_length_le (Nat.le_of_eq digest.property)]

theorem decodeBlake3Multihash_eq_ok {bytes : Bytes} {digest : Digest} :
    decodeBlake3Multihash bytes = .ok digest ↔
      ∃ m l rest, bytes = m ++ (l ++ (digest.val ++ rest)) ∧ ReadAs m multihashBlake3_256 ∧
        ReadAs l 32 := by
  unfold decodeBlake3Multihash
  rw [readVarint_bind_eq_ok]
  constructor
  · rintro ⟨m, code, rest, rfl, hm, h⟩
    obtain ⟨hcode, h⟩ := ite_throw_eq_ok.mp h
    obtain ⟨l, len, rest', hrest, hl, h⟩ := readVarint_bind_eq_ok.mp h
    obtain ⟨hlen, h⟩ := ite_throw_eq_ok.mp h
    rw [List.drop_left] at hrest
    subst hrest
    obtain rfl := Decidable.not_not.mp hcode
    obtain rfl := Decidable.not_not.mp hlen
    simp only at h
    by_cases hshort : (m ++ (l ++ rest')).length < m.length + l.length + 32
    · rw [dif_pos hshort] at h
      cases h
    · rw [dif_neg hshort] at h
      cases h
      refine ⟨m, l, rest'.drop 32, ?_, hm, hl⟩
      have hdigest : (digestAt (m ++ (l ++ rest')) (m.length + l.length) hshort).val
          = rest'.take 32 := by
        show List.take 32 (List.drop (m.length + l.length) (m ++ (l ++ rest'))) = rest'.take 32
        rw [← List.append_assoc, ← List.length_append, List.drop_left]
      rw [hdigest, List.take_append_drop]
  · rintro ⟨m, l, rest, rfl, hm, hl⟩
    refine ⟨m, _, _, rfl, hm, ite_throw_eq_ok.mpr ⟨not_not.mpr rfl, ?_⟩⟩
    rw [List.drop_left, readVarint_bind_eq_ok]
    refine ⟨l, _, _, rfl, hl, ite_throw_eq_ok.mpr ⟨not_not.mpr rfl, ?_⟩⟩
    have hlong : ¬ (m ++ (l ++ (digest.val ++ rest))).length < m.length + l.length + 32 := by
      simp only [List.length_append, digest.property]
      omega
    simp only
    rw [dif_neg hlong]
    have hdrop : (m ++ (l ++ (digest.val ++ rest))).drop (m.length + l.length)
        = digest.val ++ rest := by
      rw [← List.append_assoc, ← List.length_append, List.drop_left]
    rw [digestAt_of_drop hlong hdrop]
    rfl

/-- A CID that was read: its four numbers, however they are spelled, the digest, and what follows.  The
last two numbers are taken to be one byte each. -/
theorem decodeRawCid_eq_ok {bytes : Bytes} {digest : Digest} {n : Nat} :
    decodeRawCid bytes = .ok (digest, n) ↔
      ∃ v c m l rest, bytes = v ++ (c ++ (m ++ (l ++ (digest.val ++ rest)))) ∧ ReadAs v cidVersion ∧
        ReadAs c cidCodecRaw ∧ ReadAs m multihashBlake3_256 ∧ ReadAs l 32 ∧
        n = v.length + c.length + 2 + 32 := by
  unfold decodeRawCid
  rw [readVarint_bind_eq_ok]
  constructor
  · rintro ⟨v, version, rest, rfl, hv, h⟩
    obtain ⟨hversion, h⟩ := ite_throw_eq_ok.mp h
    obtain ⟨c, codec, rest', hrest, hc, h⟩ := readVarint_bind_eq_ok.mp h
    obtain ⟨hcodec, h⟩ := ite_throw_eq_ok.mp h
    rw [List.drop_left] at hrest
    subst hrest
    obtain ⟨digest', hdigest, hret⟩ := except_bind_eq_ok.mp h
    have hdigest : decodeBlake3Multihash ((v ++ (c ++ rest')).drop (v.length + c.length))
        = .ok digest' := hdigest
    rw [← List.append_assoc, ← List.length_append, List.drop_left] at hdigest
    obtain ⟨m, l, rest, rfl, hm, hl⟩ := decodeBlake3Multihash_eq_ok.mp hdigest
    cases hret
    exact ⟨v, c, m, l, rest, rfl, Decidable.not_not.mp hversion ▸ hv,
      Decidable.not_not.mp hcodec ▸ hc, hm, hl, rfl⟩
  · rintro ⟨v, c, m, l, rest, rfl, hv, hc, hm, hl, rfl⟩
    refine ⟨v, _, _, rfl, hv, ite_throw_eq_ok.mpr ⟨not_not.mpr rfl, ?_⟩⟩
    rw [List.drop_left, readVarint_bind_eq_ok]
    refine ⟨c, _, _, rfl, hc, ite_throw_eq_ok.mpr ⟨not_not.mpr rfl, ?_⟩⟩
    refine except_bind_eq_ok.mpr ⟨digest, ?_, rfl⟩
    show decodeBlake3Multihash ((v ++ (c ++ (m ++ (l ++ (digest.val ++ rest))))).drop
      (v.length + c.length)) = .ok digest
    rw [← List.append_assoc, ← List.length_append, List.drop_left]
    exact decodeBlake3Multihash_eq_ok.mpr ⟨m, l, rest, rfl, hm, hl⟩

/-- One round of the loop, as what stands at the position. -/
theorem decodeBlock_eq_ok {bytes rest : Bytes} {pos next : Nat} {block : CarBlock}
    (hpos : bytes.drop pos = rest) (hle : pos ≤ bytes.length) :
    decodeBlock bytes pos = .ok (block, next) ↔
      ∃ len body after n, rest = len ++ (body ++ after) ∧ ReadAs len body.length ∧
        decodeRawCid body = .ok (block.digest, n) ∧ block.data = body.drop n ∧
        next = pos + len.length + body.length ∧ next < usizeLimit := by
  have hlen : bytes.length = pos + rest.length := by
    rw [← hpos, List.length_drop]
    omega
  have hstart : ∀ len tail : Bytes, rest = len ++ tail → bytes.drop (pos + len.length) = tail := by
    intro len tail hrest
    rw [← List.drop_drop, hpos, hrest, List.drop_left]
  unfold decodeBlock
  rw [hpos, readVarint_bind_eq_ok]
  constructor
  · rintro ⟨len, v, tail, rfl, hread, h⟩
    obtain ⟨start, hcheck, h⟩ := except_bind_eq_ok.mp h
    obtain ⟨stop, hcheck', h⟩ := except_bind_eq_ok.mp h
    obtain ⟨-, rfl⟩ := checkedLength_eq_ok.mp hcheck
    obtain ⟨hstop, rfl⟩ := checkedLength_eq_ok.mp hcheck'
    obtain ⟨hfits, h⟩ := ite_throw_eq_ok.mp h
    simp only at hstop hfits h
    rw [List.drop_take, hstart len tail rfl, Nat.add_sub_cancel_left] at h
    obtain ⟨⟨digest, n⟩, hcid, h⟩ := except_bind_eq_ok.mp h
    have hbody : (tail.take v).length = v := by
      rw [List.length_take]
      simp only [List.length_append] at hlen
      omega
    cases h
    exact ⟨len, tail.take v, tail.drop v, n, by rw [List.take_append_drop], hbody.symm ▸ hread, hcid,
      rfl, by rw [hbody], by rw [hbody] at *; exact hstop⟩
  · rintro ⟨len, body, after, n, rfl, hread, hcid, hdata, rfl, hword⟩
    refine ⟨len, _, _, rfl, hread, ?_⟩
    refine except_bind_eq_ok.mpr ⟨_, checkedLength_eq_ok.mpr ⟨by omega, rfl⟩, ?_⟩
    refine except_bind_eq_ok.mpr ⟨_, checkedLength_eq_ok.mpr ⟨hword, rfl⟩, ?_⟩
    refine ite_throw_eq_ok.mpr ⟨?_, ?_⟩
    · simp only [List.length_append] at hlen
      omega
    · simp only
      rw [List.drop_take, hstart len _ rfl, Nat.add_sub_cancel_left, List.take_left]
      refine except_bind_eq_ok.mpr ⟨(block.digest, n), hcid, ?_⟩
      show (Except.ok ((⟨block.digest, body.drop n⟩ : CarBlock), pos + len.length + body.length)
        : Except CarError (CarBlock × Nat)) = _
      rw [← hdata]

/-! ### All of them -/

/-- The rounds of the decoder's loop, without positions. -/
inductive CarDecodes : Bytes → List CarBlock → Prop
  | nil : CarDecodes [] []
  | cons {len body after : Bytes} {digest : Digest} {n : Nat} {blocks : List CarBlock}
      (hlen : ReadAs len body.length) (hcid : decodeRawCid body = .ok (digest, n))
      (h : CarDecodes after blocks) :
      CarDecodes (len ++ (body ++ after)) (⟨digest, body.drop n⟩ :: blocks)

theorem decodeBlocks_done {bytes : Bytes} {pos : Nat} (h : bytes.length ≤ pos) :
    decodeBlocks bytes pos = .ok [] := by
  rw [decodeBlocks, if_neg (Nat.not_lt.mpr h)]

theorem decodeBlocks_of_ok {bytes : Bytes} {pos next : Nat} {block : CarBlock}
    (hpos : pos < bytes.length) (h : decodeBlock bytes pos = .ok (block, next)) :
    decodeBlocks bytes pos = (decodeBlocks bytes next).map (block :: ·) := by
  rw [decodeBlocks, if_pos hpos]
  split
  · next e he =>
    rw [h] at he
    cases he
  · next block' next' he =>
    rw [h] at he
    cases he
    rfl

theorem decodeBlocks_of_error {bytes : Bytes} {pos : Nat} {e : CarError} (hpos : pos < bytes.length)
    (h : decodeBlock bytes pos = .error e) : decodeBlocks bytes pos = .error e := by
  rw [decodeBlocks, if_pos hpos]
  split
  · next e' he =>
    rw [h] at he
    cases he
    rfl
  · next block' next' he =>
    rw [h] at he
    cases he

theorem decodes_of_decodeBlocks {bytes : Bytes} : ∀ (k : Nat) {pos : Nat} {blocks : List CarBlock},
    bytes.length - pos = k → pos ≤ bytes.length → decodeBlocks bytes pos = .ok blocks →
      CarDecodes (bytes.drop pos) blocks := by
  intro k
  induction k using Nat.strongRecOn with
  | ind k ih =>
      intro pos blocks hk hle h
      by_cases hpos : pos < bytes.length
      · rcases hblock : decodeBlock bytes pos with e | ⟨block, next⟩
        · rw [decodeBlocks_of_error hpos hblock] at h
          cases h
        · rw [decodeBlocks_of_ok hpos hblock] at h
          rcases hblocks : decodeBlocks bytes next with e | blocks'
          · rw [hblocks] at h
            cases h
          rw [hblocks] at h
          cases h
          obtain ⟨len, body, after, n, hrest, hlen, hcid, hdata, rfl, -⟩ :=
            (decodeBlock_eq_ok rfl hle).mp hblock
          have hlong : bytes.length - pos = len.length + (body.length + after.length) := by
            rw [← List.length_drop, hrest, List.length_append, List.length_append]
          have hafter : bytes.drop (pos + len.length + body.length) = after := by
            rw [Nat.add_assoc, ← List.drop_drop, hrest, ← List.append_assoc, ← List.length_append,
              List.drop_left]
          have hpos' := hlen.length_pos
          have hmore := ih _ (by omega) rfl (by omega) hblocks
          rw [hafter] at hmore
          rw [hrest]
          obtain ⟨digest, data⟩ := block
          obtain rfl : data = body.drop n := hdata
          exact .cons hlen hcid hmore
      · rw [decodeBlocks_done (Nat.le_of_not_lt hpos)] at h
        cases h
        rw [List.drop_eq_nil_of_le (Nat.le_of_not_lt hpos)]
        exact .nil

theorem decodeBlocks_of_decodes {rest : Bytes} {blocks : List CarBlock} (h : CarDecodes rest blocks) :
    ∀ {bytes : Bytes} {pos : Nat}, bytes.drop pos = rest → pos ≤ bytes.length →
      bytes.length < usizeLimit → decodeBlocks bytes pos = .ok blocks := by
  induction h with
  | nil =>
      intro bytes pos hpos _ _
      exact decodeBlocks_done (List.drop_eq_nil_iff.mp hpos)
  | @cons len body after digest n blocks hlen hcid _ ih =>
      intro bytes pos hpos hle hword
      have hlong : bytes.length - pos = len.length + (body.length + after.length) := by
        rw [← List.length_drop, hpos, List.length_append, List.length_append]
      have hafter : bytes.drop (pos + len.length + body.length) = after := by
        rw [Nat.add_assoc, ← List.drop_drop, hpos, ← List.append_assoc, ← List.length_append,
          List.drop_left]
      have hpos' := hlen.length_pos
      have hblock := (decodeBlock_eq_ok hpos hle).mpr ⟨len, body, after, n, rfl, hlen,
        (show decodeRawCid body = .ok ((⟨digest, body.drop n⟩ : CarBlock).digest, n) from hcid), rfl,
        rfl, by omega⟩
      rw [decodeBlocks_of_ok (by omega) hblock, ih hafter (by omega) hword]
      rfl

/-- **The decoder** skips a header and goes through blocks. -/
theorem decodeCarV1_eq_ok {bytes : Bytes} {blocks : List CarBlock} (hword : bytes.length < usizeLimit) :
    decodeCarV1 bytes = .ok blocks ↔
      ∃ len header rest, bytes = len ++ (header ++ rest) ∧ ReadAs len header.length ∧
        CarDecodes rest blocks := by
  unfold decodeCarV1
  rw [readVarint_bind_eq_ok]
  constructor
  · rintro ⟨len, v, tail, rfl, hread, h⟩
    obtain ⟨stop, hcheck, h⟩ := except_bind_eq_ok.mp h
    obtain ⟨-, rfl⟩ := checkedLength_eq_ok.mp hcheck
    obtain ⟨hfits, h⟩ := ite_throw_eq_ok.mp h
    simp only [List.length_append] at hfits h
    have hblocks := decodes_of_decodeBlocks _ rfl (by rw [List.length_append]; omega) h
    rw [← List.drop_drop, List.drop_left] at hblocks
    have hheader : (tail.take v).length = v := by
      rw [List.length_take]
      omega
    exact ⟨len, tail.take v, tail.drop v, by rw [List.take_append_drop], hheader.symm ▸ hread, hblocks⟩
  · rintro ⟨len, header, rest, rfl, hread, hblocks⟩
    simp only [List.length_append] at hword
    refine ⟨len, _, _, rfl, hread, ?_⟩
    refine except_bind_eq_ok.mpr ⟨_, checkedLength_eq_ok.mpr ⟨by omega, rfl⟩, ?_⟩
    refine ite_throw_eq_ok.mpr ⟨by simp only [List.length_append]; omega, ?_⟩
    refine decodeBlocks_of_decodes hblocks ?_ ?_ ?_
    · rw [← List.append_assoc, ← List.length_append, List.drop_left]
    · simp only [List.length_append]
      omega
    · simp only [List.length_append]
      omega

end LimniFS
