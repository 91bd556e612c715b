/-
CAR archives that are spelled exactly.

Blocks that were encoded are decoded again.  The other way round the input is the framing of what was
decoded if every varint in it is the shortest spelling of a number that fits the word, and only then:
a longer spelling is accepted, in the place of a length it goes unnoticed, and in the two numbers of a
multihash it moves the start of the data.

The header is written by hand: the CID's length goes into the low five bits of the byte string's head,
where only lengths up to 23 stand.  A CID has 36 bytes, of which those bits keep the number 4, so the
byte string ends after the CID's fourth byte and the digest is left over.  Only an archive without
blocks, whose root is the empty byte string, has a header that parses.
-/
import LimniFS.CarFraming

namespace LimniFS

open Lib Leb128

/-! ### Exact archives -/

/-- The shortest spelling of a number that fits the word. -/
def ExactVarint (s : Bytes) : Prop := Shortest s ∧ value s < 2 ^ 64

instance (s : Bytes) : Decidable (ExactVarint s) := inferInstanceAs (Decidable (_ ∧ _))

/-- The four varints at the front of a CID. -/
def cidVarints (bytes : Bytes) : List Bytes :=
  let version := front bytes
  let bytes := bytes.drop version.length
  let codec := front bytes
  let bytes := bytes.drop codec.length
  let code := front bytes
  [version, codec, code, front (bytes.drop code.length)]

theorem front_length_pos {bytes : Bytes} (h : bytes ≠ []) : 0 < (front bytes).length := by
  cases bytes with
  | nil => exact absurd rfl h
  | cons b bytes =>
      rw [front]
      split <;> simp

/-- The varints in front of the blocks and in their CIDs. -/
def blockVarints (bytes : Bytes) : List Bytes :=
  if _h : bytes = [] then []
  else
    let len := front bytes
    let body := bytes.drop len.length
    len :: (cidVarints (body.take (value len)) ++ blockVarints (body.drop (value len)))
termination_by bytes.length
decreasing_by
  have hlen := front_length_pos _h
  have hpos := List.length_pos_iff.mpr _h
  simp only [List.length_drop]
  omega

/-- Every varint that an archive is read by. -/
def carVarints (bytes : Bytes) : List Bytes :=
  let len := front bytes
  len :: blockVarints ((bytes.drop len.length).drop (value len))

/-- The header and the blocks partition the bytes, every block is its CID and its data, and every number
is spelled as short as possible. -/
def CarFramed (bytes : Bytes) (blocks : List CarBlock) : Prop :=
  ∃ header : Bytes, bytes = writeVarint header.length ++ (header ++ blocks.flatMap encodeBlock)

theorem exactVarint_writeVarint {v : Nat} (h : v < 2 ^ 64) : ExactVarint (writeVarint v) := by
  rw [writeVarint_eq]
  exact ⟨shortest_encode v, by rw [value_encode]; exact h⟩

theorem ReadAs.exact {s : Bytes} {v : Nat} (hs : ReadAs s v) (h : ExactVarint s) :
    s = writeVarint v ∧ Leb128.value s = v := by
  have hv : v = Leb128.value s := hs.value.trans (Nat.mod_eq_of_lt h.2)
  refine ⟨?_, hv.symm⟩
  rw [writeVarint_eq, hv, encode_value hs.spelling h.1]

theorem spelling_writeVarint (v : Nat) : Spelling (writeVarint v) :=
  writeVarint_eq v ▸ spelling_encode v

theorem encodeRawCid_eq (digest : Digest) :
    encodeRawCid digest = [0x01] ++ ([0x55] ++ ([0x1e] ++ ([0x20] ++ digest.val))) := by
  unfold encodeRawCid encodeBlake3Multihash
  simp only [writeVarint_eq]
  rw [encode_of_lt (by decide), encode_of_lt (by decide), encode_of_lt (by decide),
    encode_of_lt (by decide)]
  simp only [List.append_assoc]
  rfl

theorem encodeRawCid_length (digest : Digest) : (encodeRawCid digest).length = 36 := by
  simp [encodeRawCid_eq, digest.property]

theorem readAs_small {b : UInt8} (h : b.toNat < 128) : ReadAs [b] b.toNat :=
  ⟨.last h, by simp, by simp only [value]; omega⟩

theorem decodeRawCid_encodeRawCid (digest : Digest) (data : Bytes) :
    decodeRawCid (encodeRawCid digest ++ data) = .ok (digest, 36) := by
  rw [encodeRawCid_eq]
  refine decodeRawCid_eq_ok.mpr ⟨[0x01], [0x55], [0x1e], [0x20], data, ?_, ?_, ?_, ?_, ?_, rfl⟩
  · simp only [List.append_assoc]
  · exact @readAs_small 0x01 (by decide)
  · exact @readAs_small 0x55 (by decide)
  · exact @readAs_small 0x1e (by decide)
  · exact @readAs_small 0x20 (by decide)

theorem encodeBlock_eq (block : CarBlock) :
    encodeBlock block = writeVarint (36 + block.data.length) ++ (encodeRawCid block.digest
      ++ block.data) := by
  unfold encodeBlock
  simp only [encodeRawCid_length, List.append_assoc]

theorem decodes_flatMap : ∀ {blocks : List CarBlock},
    (blocks.flatMap encodeBlock).length < usizeLimit →
      CarDecodes (blocks.flatMap encodeBlock) blocks := by
  intro blocks
  induction blocks with
  | nil =>
      intro _
      exact .nil
  | cons block blocks ih =>
      intro hword
      rw [List.flatMap_cons, encodeBlock_eq, List.append_assoc] at hword ⊢
      simp only [List.length_append, encodeRawCid_length] at hword
      have hlen : (encodeRawCid block.digest ++ block.data).length = 36 + block.data.length := by
        rw [List.length_append, encodeRawCid_length]
      have hread : ReadAs (writeVarint (36 + block.data.length))
          (encodeRawCid block.digest ++ block.data).length := by
        rw [hlen]
        exact readAs_writeVarint (by unfold usizeLimit at hword; omega)
      have hcons := CarDecodes.cons hread (decodeRawCid_encodeRawCid block.digest block.data)
        (ih (by omega))
      rwa [← encodeRawCid_length block.digest, List.drop_left, encodeRawCid_length] at hcons

theorem cidVarints_append {v c m l : Bytes} (hv : Spelling v) (hc : Spelling c) (hm : Spelling m)
    (hl : Spelling l) (rest : Bytes) :
    cidVarints (v ++ (c ++ (m ++ (l ++ rest)))) = [v, c, m, l] := by
  unfold cidVarints
  simp only [front_append hv, List.drop_left, front_append hc, front_append hm, front_append hl]

theorem blockVarints_append {len body after : Bytes} (hlen : Spelling len)
    (hval : value len = body.length) :
    blockVarints (len ++ (body ++ after)) = len :: (cidVarints body ++ blockVarints after) := by
  have hne : len ++ (body ++ after) ≠ [] := by simp [hlen.ne_nil]
  rw [blockVarints, dif_neg hne]
  simp only [front_append hlen, List.drop_left, hval, List.take_left]

theorem mem_blockVarints_append {len : Bytes} (hlen : Spelling len) (rest : Bytes) :
    len ∈ blockVarints (len ++ rest) := by
  have hne : len ++ rest ≠ [] := by simp [hlen.ne_nil]
  rw [blockVarints, dif_neg hne]
  simp only [front_append hlen, List.mem_cons, true_or]

/-- **The blocks are framed** exactly if every varint is exact. -/
theorem decodes_framed_iff {rest : Bytes} {blocks : List CarBlock} (h : CarDecodes rest blocks) :
    rest = blocks.flatMap encodeBlock ↔ ∀ s ∈ blockVarints rest, ExactVarint s := by
  induction h with
  | nil =>
      refine ⟨fun _ s hs => ?_, fun _ => rfl⟩
      rw [blockVarints, dif_pos rfl] at hs
      cases hs
  | @cons len body after digest n blocks hlen hcid _ ih =>
      obtain ⟨v, c, m, l, tail, hbody, hv, hc, hm, hl, hn⟩ := decodeRawCid_eq_ok.mp hcid
      have hdata : (body.drop n).length = body.length - n := List.length_drop
      have hwidth : body.length = v.length + c.length + m.length + l.length + 32 + tail.length := by
        rw [hbody]
        simp only [List.length_append, digest.property]
        omega
      have hvpos := hv.length_pos
      have hcpos := hc.length_pos
      have hmpos := hm.length_pos
      have hlpos := hl.length_pos
      have hword : body.length < 2 ^ 64 := hlen.value ▸ Nat.mod_lt _ (by decide)
      have hvarints : cidVarints body = [v, c, m, l] := by
        rw [hbody]
        exact cidVarints_append hv.spelling hc.spelling hm.spelling hl.spelling _
      simp only [List.flatMap_cons, encodeBlock_eq, List.append_assoc]
      constructor
      · intro hframed
        obtain ⟨hshort, hrest⟩ := spelling_append_inj hlen.spelling (spelling_writeVarint _) hframed
        have hval : value len = 36 + (body.drop n).length := by
          rw [hshort, writeVarint_eq, value_encode]
        have hsize : body.length = 36 + (body.drop n).length :=
          hlen.value.trans (by rw [hval, Nat.mod_eq_of_lt (by omega)])
        rw [← List.append_assoc] at hrest
        obtain ⟨hsame, hafter⟩ := List.append_inj hrest (by
          rw [List.length_append, encodeRawCid_length]
          exact hsize)
        rw [blockVarints_append hlen.spelling (hval.trans hsize.symm), hvarints]
        rw [encodeRawCid_eq] at hsame
        simp only [List.append_assoc] at hsame
        rw [hbody] at hsame
        obtain ⟨rfl, -, hsame⟩ := hv.det (@readAs_small 0x01 (by decide)) hsame
        obtain ⟨rfl, -, hsame⟩ := hc.det (@readAs_small 0x55 (by decide)) hsame
        obtain ⟨rfl, -, hsame⟩ := hm.det (@readAs_small 0x1e (by decide)) hsame
        obtain ⟨rfl, -, -⟩ := hl.det (@readAs_small 0x20 (by decide)) hsame
        intro s hs
        rcases List.mem_cons.mp hs with rfl | hs
        · rw [hshort]
          exact exactVarint_writeVarint (by omega)
        · rcases List.mem_append.mp hs with hs | hs
          · simp only [List.mem_cons, List.not_mem_nil, or_false] at hs
            rcases hs with rfl | rfl | rfl | rfl <;> decide
          · exact ih.mp hafter s hs
      · intro hexact
        obtain ⟨hshort, hval⟩ := hlen.exact (hexact len (mem_blockVarints_append hlen.spelling _))
        rw [blockVarints_append hlen.spelling hval, hvarints] at hexact
        have hvexact := (hv.exact (hexact v (by simp))).1
        have hcexact := (hc.exact (hexact c (by simp))).1
        have hmexact := (hm.exact (hexact m (by simp))).1
        have hlexact := (hl.exact (hexact l (by simp))).1
        have hcidEq : body = encodeRawCid digest ++ tail := by
          rw [hbody, hvexact, hcexact, hmexact, hlexact]
          unfold encodeRawCid encodeBlake3Multihash
          simp only [List.append_assoc]
        have hn36 : n = (encodeRawCid digest).length := by
          have hlen' := congrArg List.length hcidEq
          rw [List.length_append, encodeRawCid_length] at hlen'
          have hmlen : m.length = 1 := by rw [hmexact, writeVarint_eq, encode_of_lt (by decide)]; rfl
          have hllen : l.length = 1 := by rw [hlexact, writeVarint_eq, encode_of_lt (by decide)]; rfl
          rw [encodeRawCid_length]
          omega
        have htail : body.drop n = tail := by rw [hcidEq, hn36, List.drop_left]
        have hafter := ih.mpr fun s hs => hexact s (by simp [hs])
        rw [htail, ← hafter, hshort, ← encodeRawCid_length digest, ← List.length_append, ← hcidEq,
          ← List.append_assoc (encodeRawCid digest), ← hcidEq]

theorem encodeCarV1_eq_some {blocks : List CarBlock} :
    ∃ header, encodeCarHeader (carRootCid blocks) = some header ∧
      encodeCarV1 blocks = some (writeVarint header.length ++ (header ++ blocks.flatMap encodeBlock)) := by
  have hroot : (carRootCid blocks).length < 256 := by
    cases blocks with
    | nil => decide
    | cons block blocks =>
        show (encodeRawCid block.digest).length < 256
        rw [encodeRawCid_length]
        decide
  obtain ⟨header, hheader⟩ : ∃ header, encodeCarHeader (carRootCid blocks) = some header := by
    unfold encodeCarHeader
    rw [if_pos hroot]
    exact ⟨_, rfl⟩
  refine ⟨header, hheader, ?_⟩
  unfold encodeCarV1
  rw [hheader, Option.map_some, List.append_assoc]

/--
**CAR archives come back, and are what they say exactly if they are spelled as short as possible.**
Every list of blocks can be encoded, and decoding the archive gives the blocks.  Whenever decoding
succeeds, the header and the blocks' bodies partition the input, with every number in its shortest
spelling and every block's data behind its whole CID, if and only if each varint that the input is read
by is the shortest spelling of a number below `2 ^ 64`.
-/
theorem car_exact_iff (blocks : List CarBlock) (bytes : Bytes) :
    (∃ archive, encodeCarV1 blocks = some archive ∧
      (archive.length < usizeLimit → decodeCarV1 archive = .ok blocks)) ∧
    (bytes.length < usizeLimit → ∀ decoded, decodeCarV1 bytes = .ok decoded →
      (CarFramed bytes decoded ↔ ∀ s ∈ carVarints bytes, ExactVarint s)) := by
  refine ⟨?_, fun hword decoded hdecode => ?_⟩
  · obtain ⟨header, -, harchive⟩ := @encodeCarV1_eq_some blocks
    refine ⟨_, harchive, fun hword => ?_⟩
    have hlens := hword
    simp only [List.length_append] at hlens
    refine (decodeCarV1_eq_ok hword).mpr ⟨_, header, _, rfl, readAs_writeVarint ?_,
      decodes_flatMap (by omega)⟩
    unfold usizeLimit at hlens
    omega
  · obtain ⟨len, header, rest, rfl, hlen, hblocks⟩ := (decodeCarV1_eq_ok hword).mp hdecode
    have hframed := decodes_framed_iff hblocks
    simp only [List.length_append] at hword
    unfold carVarints
    simp only [front_append hlen.spelling, List.drop_left]
    constructor
    · rintro ⟨header', hsame⟩
      obtain ⟨hshort, hrest⟩ := spelling_append_inj hlen.spelling (spelling_writeVarint _) hsame
      have hval : value len = header'.length := by rw [hshort, writeVarint_eq, value_encode]
      have hfits : header'.length < 2 ^ 64 := by
        have := congrArg List.length hrest
        simp only [List.length_append] at this
        unfold usizeLimit at hword
        omega
      have hsize : header.length = header'.length := by
        rw [hlen.value, hval, Nat.mod_eq_of_lt hfits]
      obtain ⟨rfl, hafter⟩ := List.append_inj hrest hsize
      rw [hval, List.drop_left]
      intro s hs
      rcases List.mem_cons.mp hs with rfl | hs
      · rw [hshort]
        exact exactVarint_writeVarint hfits
      · exact hframed.mp hafter s hs
    · intro hexact
      obtain ⟨hshort, hval⟩ := hlen.exact (hexact len (by simp))
      rw [hval, List.drop_left] at hexact
      refine ⟨header, ?_⟩
      rw [← hshort, ← hframed.mpr fun s hs => hexact s (by simp [hs])]

namespace Stored

def carDigest : Digest := ⟨List.replicate 32 0x11, rfl⟩

/-- A CID whose multihash code is spelled with two bytes, and three bytes of data. -/
def wideCid : Bytes := [0x01, 0x55, 0x9e, 0x00, 0x20] ++ List.replicate 32 0x11 ++ [1, 2, 3]

/-- An archive with an empty header and one block. -/
def wideArchive : Bytes := [0x00] ++ ([] ++ ([40] ++ (wideCid ++ [])))

end Stored

open LimniFS.Stored

theorem decodeRawCid_wideCid : decodeRawCid wideCid = .ok (carDigest, 36) := by
  refine decodeRawCid_eq_ok.mpr ⟨[0x01], [0x55], [0x9e, 0x00], [0x20], [1, 2, 3], rfl, ?_, ?_, ?_, ?_,
    rfl⟩
  · exact @readAs_small 0x01 (by decide)
  · exact @readAs_small 0x55 (by decide)
  · exact ⟨.more (by decide) (.last (by decide)), by decide, rfl⟩
  · exact @readAs_small 0x20 (by decide)

theorem carDecodes_wide :
    CarDecodes ([40] ++ (wideCid ++ [])) [⟨carDigest, [0x11, 1, 2, 3]⟩] :=
  .cons (show ReadAs [40] wideCid.length from @readAs_small 40 (by decide))
    decodeRawCid_wideCid .nil

theorem decodeCarV1_wide :
    decodeCarV1 wideArchive = .ok [⟨carDigest, [0x11, 1, 2, 3]⟩] :=
  (decodeCarV1_eq_ok (by decide)).mpr
    ⟨[0x00], [], _, rfl, @readAs_small 0x00 (by decide), carDecodes_wide⟩

/-- The archive of the wider number, where neither side holds. -/
theorem car_exact_wide :
    CarFramed wideArchive [⟨carDigest, [0x11, 1, 2, 3]⟩] ↔
      ∀ s ∈ carVarints wideArchive, ExactVarint s :=
  (car_exact_iff [] _).2 (by decide) _ decodeCarV1_wide

/-- **A wider number moves the data.**  The last byte of the digest is returned as the first byte of the
data. -/
theorem wide_archive_shifted :
    decodeCarV1 wideArchive = .ok [⟨carDigest, [0x11, 1, 2, 3]⟩] ∧
      ¬ CarFramed wideArchive [⟨carDigest, [0x11, 1, 2, 3]⟩] := by
  refine ⟨decodeCarV1_wide, ?_⟩
  rintro ⟨header, h⟩
  have hspelling : Spelling [0x00] := .last (by decide)
  obtain ⟨hshort, hrest⟩ := spelling_append_inj hspelling (spelling_writeVarint _) h
  have hnil : header.length = 0 := by
    have := congrArg value hshort
    rw [writeVarint_eq, value_encode] at this
    exact this.symm
  rw [List.length_eq_zero_iff.mp hnil] at hrest
  have hlen : Spelling [40] := .last (by decide)
  have hexact := (decodes_framed_iff carDecodes_wide).mp hrest [0x9e, 0x00] (by
    rw [blockVarints_append hlen rfl]
    decide)
  revert hexact
  decide

/-! ### The header, as other tools read it -/

open Cbor

/-- What the header is to say. -/
def carHeaderItem (rootCid : Bytes) : Item :=
  .map [(.text (ascii "version"), .unsigned 1),
    (.text (ascii "roots"), .array [.bytes rootCid])]

/-- The bytes up to the length of the root. -/
def carHeaderFront : Bytes :=
  [0xa2, 0x67] ++ ascii "version" ++ [0x01, 0x65] ++ ascii "roots" ++ [0x81]

theorem encodeCarHeader_eq {rootCid : Bytes} (h : rootCid.length < 256) :
    encodeCarHeader rootCid = some (carHeaderFront
      ++ ((0x40 ||| (0x1f &&& UInt8.ofNat rootCid.length)) :: rootCid)) := by
  unfold encodeCarHeader carHeaderFront
  rw [if_pos h]
  simp only [List.append_assoc, List.cons_append, List.nil_append]

/-- An item whose argument stands in the first byte. -/
theorem parses_small {item : Item} {items : List Item} {b : UInt8} {tail rest : Bytes} (n : Nat)
    (hargument : item.argument = n) (hsmall : n < 24) (hmajor : b.toNat / 32 = item.major)
    (hlow : b.toNat % 32 = n) (h : Parses (item.children ++ items) tail rest) :
    Parses (item :: items) (b :: (item.payload ++ tail)) rest := by
  refine .cons ?_ h
  unfold readHead
  simp only
  rw [if_pos (by omega), hmajor, hlow, hargument]

theorem carHeaderFront_append (rest : Bytes) :
    carHeaderFront ++ rest = 0xa2 :: 0x67 :: (ascii "version" ++ (0x01 :: 0x65 ::
      (ascii "roots" ++ (0x81 :: rest)))) := by
  simp [carHeaderFront]

theorem parses_front {root rest : Bytes} {b : UInt8} (hmajor : b.toNat / 32 = 2)
    (hlen : b.toNat % 32 = root.length) (hsmall : root.length < 24) :
    Parses [carHeaderItem root] (carHeaderFront ++ (b :: (root ++ rest))) rest := by
  rw [carHeaderFront_append]
  refine parses_small 2 rfl (by decide) rfl rfl ?_
  refine parses_small 7 (show (ascii "version").length = 7 by decide) (by decide) rfl rfl ?_
  refine parses_small 1 rfl (by decide) rfl rfl ?_
  refine parses_small 5 (show (ascii "roots").length = 5 by decide) (by decide) rfl rfl ?_
  refine parses_small 1 rfl (by decide) rfl rfl ?_
  exact parses_small root.length rfl hsmall hmajor hlen .nil

/-- **The header of a CID.**  What parses is a root of four bytes, and the digest is left over. -/
theorem parses_header_cid (digest : Digest) :
    ∃ header, encodeCarHeader (encodeRawCid digest) = some header ∧
      Parses [carHeaderItem [0x01, 0x55, 0x1e, 0x20]] header digest.val := by
  have hlen := encodeRawCid_length digest
  refine ⟨_, encodeCarHeader_eq (by omega), ?_⟩
  rw [hlen, encodeRawCid_eq]
  exact parses_front (show (0x44 : UInt8).toNat / 32 = 2 from rfl) rfl (by decide)

theorem parses_header_nil :
    ∃ header, encodeCarHeader [] = some header ∧ Parses [carHeaderItem []] header [] :=
  ⟨_, encodeCarHeader_eq (by decide),
    parses_front (show (0x40 : UInt8).toNat / 32 = 2 from rfl) rfl (by decide)⟩

/--
**The header is well-formed exactly if there are no blocks.**  For every list of blocks the archive
starts with a header behind its length, and the header is the one map with version 1 and the root, and
nothing behind it, if and only if the list is empty.
-/
theorem car_header_iff (blocks : List CarBlock) :
    ∃ header, encodeCarV1 blocks
        = some (writeVarint header.length ++ (header ++ blocks.flatMap encodeBlock)) ∧
      (Parses [carHeaderItem (carRootCid blocks)] header [] ↔ blocks = []) := by
  obtain ⟨header, hheader, hbytes⟩ := @encodeCarV1_eq_some blocks
  refine ⟨header, hbytes, ?_⟩
  cases blocks with
  | nil =>
      obtain ⟨header', hheader', hparses⟩ := parses_header_nil
      obtain rfl := Option.some.inj (hheader.symm.trans hheader')
      exact ⟨fun _ => rfl, fun _ => hparses⟩
  | cons block blocks =>
      obtain ⟨header', hheader', hparses⟩ := parses_header_cid block.digest
      obtain rfl := Option.some.inj (hheader.symm.trans hheader')
      refine ⟨fun hwhole => ?_, fun h => absurd h (by simp)⟩
      have hleft := (hwhole.det hparses rfl).2
      have hsize := block.digest.property
      rw [← hleft] at hsize
      simp at hsize

/-- **One block is enough**: no item at all spans the header of its archive. -/
theorem car_header_not_spanned :
    ∃ header, encodeCarV1 [⟨carDigest, []⟩]
        = some (writeVarint header.length ++ (header ++ [⟨carDigest, []⟩].flatMap encodeBlock)) ∧
      Parses [carHeaderItem [0x01, 0x55, 0x1e, 0x20]] header carDigest.val ∧
      ¬ ∃ item, Parses [item] header [] := by
  obtain ⟨header, hheader, hbytes⟩ := @encodeCarV1_eq_some [⟨carDigest, []⟩]
  obtain ⟨header', hheader', hparses⟩ := parses_header_cid carDigest
  obtain rfl := Option.some.inj (hheader.symm.trans hheader')
  refine ⟨header, hbytes, hparses, ?_⟩
  rintro ⟨item, hwhole⟩
  exact absurd (hwhole.det hparses rfl).2 (by decide)

end LimniFS
