/-
What the bytes of an accepted epoch are.

A section has one encoding: whatever the parser of the operations or of the drops accepts is what
the writer makes of the values it returns (`parseOpSection_decodes`, `parseDropSection_decodes`).
The file as a whole is more lenient.  Its reserved bytes are skipped, what stands behind the drops
is not looked at, and the hashes of the sections in the header are carried along unread
(`fromBytes_eq_ok`); only the hash of the whole file is compared.

`epoch_canonical_iff` says which accepted files mean their bytes and nothing else.
-/
import LimniFS.Epoch

namespace LimniFS

open Lib Lib.Parser Cursor

/-! ### Operations -/

theorem readPath_decodes (index : Nat) :
    Decodes (readPath index) (fun path => utf8Valid path = true) writePath := by
  intro bs path rest
  unfold readPath
  simp only [bind_eq_ok, pure_eq_ok, ensure_eq_ok, Parser.mapError_eq_ok, readU32Le_eq_ok,
    readN_eq_ok]
  constructor
  · rintro ⟨len, _, ⟨hlen, rfl⟩, bytes, _, ⟨rfl, rfl⟩, _, _, ⟨hutf, rfl⟩, rfl, rfl⟩
    exact ⟨hutf, _, if_pos hlen, (List.append_assoc ..).symm⟩
  · rintro ⟨hutf, enc, henc, rfl⟩
    unfold writePath at henc
    split at henc
    · next hlen =>
        cases henc
        exact ⟨_, _, ⟨hlen, List.append_assoc ..⟩, path, rest, ⟨rfl, rfl⟩, (), rest, ⟨hutf, rfl⟩, rfl,
          rfl⟩
    · cases henc

theorem readId_eq_ok {index : Nat} {label : String} {d : Digest} {bs rest : Bytes} :
    readId index label bs = (.ok d, rest) ↔ bs = d.val ++ rest := by
  rw [readId, Parser.mapError_eq_ok, readHash_eq_ok]

/-- **An operation has one encoding.** -/
theorem parseOneOp_eq_ok {kind : EpochOpKind} {index : Nat} {op : EpochOp} {bs rest : Bytes}
    (h : parseOneOp kind index bs = (.ok op, rest)) :
    op.kind = kind ∧ op.Valid ∧ Stands writeFields op bs rest := by
  cases kind with
  | add =>
      simp only [parseOneOp, bind_eq_ok, pure_eq_ok, Parser.mapError_eq_ok, readU32Le_eq_ok,
        readU64Le_eq_ok, readId_eq_ok, readPath_decodes index _ _ _] at h
      obtain ⟨path, _, ⟨hutf, enc, henc, rfl⟩, id, _, rfl, len, _, ⟨hlen, rfl⟩, mode, _, ⟨hmode, rfl⟩,
        mtime, _, ⟨hmtime, rfl⟩, rfl, rfl⟩ := h
      refine ⟨rfl, ⟨⟨hlen, hmode, hmtime⟩, List.forall_mem_singleton.mpr hutf⟩,
        _, Option.map_eq_some_iff.mpr ⟨enc, henc, rfl⟩, ?_⟩
      simp only [List.append_assoc]
  | remove =>
      simp only [parseOneOp, bind_eq_ok, pure_eq_ok, readPath_decodes index _ _ _] at h
      obtain ⟨path, _, ⟨hutf, enc, henc, rfl⟩, rfl, rfl⟩ := h
      exact ⟨rfl, ⟨trivial, List.forall_mem_singleton.mpr hutf⟩, enc, henc, rfl⟩
  | modify =>
      simp only [parseOneOp, bind_eq_ok, pure_eq_ok, Parser.mapError_eq_ok, readU64Le_eq_ok,
        readId_eq_ok, readPath_decodes index _ _ _] at h
      obtain ⟨path, _, ⟨hutf, enc, henc, rfl⟩, id, _, rfl, len, _, ⟨hlen, rfl⟩, mtime, _,
        ⟨hmtime, rfl⟩, rfl, rfl⟩ := h
      refine ⟨rfl, ⟨⟨hlen, hmtime⟩, List.forall_mem_singleton.mpr hutf⟩,
        _, Option.map_eq_some_iff.mpr ⟨enc, henc, rfl⟩, ?_⟩
      simp only [List.append_assoc]
  | chmod =>
      simp only [parseOneOp, bind_eq_ok, pure_eq_ok, Parser.mapError_eq_ok, readU32Le_eq_ok,
        readPath_decodes index _ _ _] at h
      obtain ⟨path, _, ⟨hutf, enc, henc, rfl⟩, mode, _, ⟨hmode, rfl⟩, rfl, rfl⟩ := h
      exact ⟨rfl, ⟨hmode, List.forall_mem_singleton.mpr hutf⟩,
        _, Option.map_eq_some_iff.mpr ⟨enc, henc, rfl⟩, (List.append_assoc ..).symm⟩
  | rename =>
      simp only [parseOneOp, bind_eq_ok, pure_eq_ok, readPath_decodes index _ _ _] at h
      obtain ⟨source, _, ⟨hsource, s, hs, rfl⟩, target, _, ⟨htarget, t, ht, rfl⟩, rfl, rfl⟩ := h
      refine ⟨rfl, ⟨trivial, List.forall_mem_cons.mpr ⟨hsource, List.forall_mem_singleton.mpr htarget⟩⟩,
        s ++ t, ?_, (List.append_assoc ..).symm⟩
      rw [writeFields, hs, ht]
      rfl
  | mkdir =>
      simp only [parseOneOp, bind_eq_ok, pure_eq_ok, Parser.mapError_eq_ok, readU32Le_eq_ok,
        readPath_decodes index _ _ _] at h
      obtain ⟨path, _, ⟨hutf, enc, henc, rfl⟩, mode, _, ⟨hmode, rfl⟩, rfl, rfl⟩ := h
      exact ⟨rfl, ⟨hmode, List.forall_mem_singleton.mpr hutf⟩,
        _, Option.map_eq_some_iff.mpr ⟨enc, henc, rfl⟩, (List.append_assoc ..).symm⟩
  | rmdir =>
      simp only [parseOneOp, bind_eq_ok, pure_eq_ok, readPath_decodes index _ _ _] at h
      obtain ⟨path, _, ⟨hutf, enc, henc, rfl⟩, rfl, rfl⟩ := h
      exact ⟨rfl, ⟨trivial, List.forall_mem_singleton.mpr hutf⟩, enc, henc, rfl⟩

theorem toU8_of_fromU8 {raw : UInt8} {kind : EpochOpKind} (h : EpochOpKind.fromU8 raw = .ok kind) :
    kind.toU8 = raw := by
  unfold EpochOpKind.fromU8 at h
  repeat' split at h
  all_goals
    cases h
    try exact (by assumption : raw = _).symm

theorem opStep_decodes : DecodesRound opStep EpochOp.Valid writeOneOp := by
  intro index ops bs out rest
  constructor
  · intro h
    unfold opStep at h
    rw [bind_eq_ok] at h
    obtain ⟨opcode, mid, hopcode, h⟩ := h
    rw [Parser.mapError_eq_ok, readU8_eq_ok] at hopcode
    subst hopcode
    cases hkind : EpochOpKind.fromU8 opcode with
    | error e =>
        rw [hkind] at h
        cases h
    | ok kind =>
        rw [hkind] at h
        obtain ⟨op, _, hop, hpure⟩ := bind_eq_ok.mp h
        obtain ⟨rfl, rfl⟩ := pure_eq_ok.mp hpure
        obtain ⟨hkind', hvalid, fields, hfields, rfl⟩ := parseOneOp_eq_ok hop
        refine ⟨op, rfl, hvalid, opcode :: fields, ?_, rfl⟩
        rw [writeOneOp, hfields, hkind', Option.map_some, toU8_of_fromU8 hkind]
  · rintro ⟨op, rfl, hvalid, enc, henc, rfl⟩
    exact reads_opStep index ops hvalid henc rest

/-! ### Counted sections -/

/-- **A counted section has one encoding.** -/
theorem counted_decodes {α : Type} {body : Nat → List α → CoreParser (List α)} {valid : α → Prop}
    {write : α → Option Bytes} (h : DecodesRound body valid write) (f : CoreError → CoreError) :
    Decodes (do let count ← readU32Le.mapError f; loop body count 0 [])
      (fun items => ∀ x ∈ items, valid x) (writeCounted write) := by
  intro bs items rest
  simp only [bind_eq_ok, Parser.mapError_eq_ok, readU32Le_eq_ok, loop_decodes h]
  constructor
  · rintro ⟨_, _, ⟨hcount, rfl⟩, items, rfl, rfl, hall, enc, henc, rfl⟩
    obtain ⟨parts, hparts, rfl⟩ := Option.map_eq_some_iff.mp henc
    refine ⟨hall, leBytes 4 items.length ++ parts.flatten, ?_, (List.append_assoc ..).symm⟩
    rw [writeCounted, if_pos hcount, hparts]
    rfl
  · rintro ⟨hall, enc, henc, rfl⟩
    unfold writeCounted at henc
    split at henc
    · next hcount =>
        obtain ⟨parts, hparts, rfl⟩ := Option.map_eq_some_iff.mp henc
        refine ⟨_, parts.flatten ++ rest, ⟨hcount, List.append_assoc ..⟩, items, rfl, rfl, hall,
          parts.flatten, ?_, rfl⟩
        show (items.mapM write).map List.flatten = _
        rw [hparts]
        rfl
    · cases henc

theorem parseOpSection_decodes :
    Decodes parseOpSection (fun ops => ∀ op ∈ ops, op.Valid) writeOpSection :=
  counted_decodes opStep_decodes _

theorem parseOneDrop_decodes (index : Nat) :
    Decodes (parseOneDrop index) (fun drop => drop.plaintextLen < u32Limit) writeOneDrop := by
  intro bs drop rest
  constructor
  · intro h
    simp only [parseOneDrop, bind_eq_ok, pure_eq_ok, Parser.mapError_eq_ok, readU32Le_eq_ok,
      readHash_eq_ok, readU8_eq_ok, readN_eq_ok] at h
    obtain ⟨id, _, rfl, codec, _, rfl, plain, _, ⟨hplain, rfl⟩, len, _, ⟨hlen, rfl⟩, payload, _,
      ⟨rfl, rfl⟩, rfl, rfl⟩ := h
    refine ⟨hplain, _, if_pos hlen, ?_⟩
    simp only [List.append_assoc]
  · rintro ⟨hplain, enc, henc, rfl⟩
    exact reads_parseOneDrop index hplain henc rest

theorem parseDropSection_decodes :
    Decodes parseDropSection (fun drops => ∀ drop ∈ drops, drop.plaintextLen < u32Limit)
      writeDropSection :=
  counted_decodes (decodesRound_of parseOneDrop_decodes) _

/-! ### The header -/

/-- **The header is accepted whatever its reserved bytes are.** -/
theorem parseEpochHeader_eq_ok {h : EpochHeader} {bs rest : Bytes} :
    parseEpochHeader bs = (.ok h, rest) ↔
      h.Valid ∧ ∃ reserved : Bytes, reserved.length = 16 ∧
        bs = epochHeaderFields h ++ (reserved ++ rest) := by
  simp only [parseEpochHeader, bind_eq_ok, pure_eq_ok, ensure_eq_ok, Parser.mapError_eq_ok,
    readU16Le_eq_ok, readU32Le_eq_ok, readU64Le_eq_ok, readHash_eq_ok, readN_eq_ok]
  constructor
  · rintro ⟨magic, _, ⟨-, rfl⟩, _, _, ⟨rfl, rfl⟩, version, _, ⟨-, rfl⟩, _, _, ⟨hversion, rfl⟩, flags, _,
      ⟨hflags, rfl⟩, parent, _, rfl, base, _, rfl, sequence, _, ⟨hsequence, rfl⟩, ops, _, rfl, drops, _,
      rfl, own, _, rfl, timestamp, _, ⟨htimestamp, rfl⟩, reserved, _, ⟨hreserved, rfl⟩, rfl, rfl⟩
    refine ⟨⟨hversion, hflags, hsequence, htimestamp⟩, reserved, hreserved, ?_⟩
    simp only [epochHeaderFields, List.append_assoc]
  · rintro ⟨hv, reserved, hreserved, rfl⟩
    have hversion : h.version < 2 ^ 16 := Nat.lt_of_le_of_lt hv.version (by decide)
    refine ⟨epochMagic, _, ⟨by decide, ?_⟩, (), _, ⟨rfl, rfl⟩, h.version, _, ⟨hversion, rfl⟩, (), _,
      ⟨hv.version, rfl⟩, h.flags, _, ⟨hv.flags, rfl⟩, h.parentEpochId, _, rfl, h.baseImageRoot, _, rfl,
      h.epochSequence, _, ⟨hv.epochSequence, rfl⟩, h.opsHash, _, rfl, h.dropsHash, _, rfl,
      h.ownEpochId, _, rfl, h.timestampUnix, _, ⟨hv.timestampUnix, rfl⟩, reserved, rest,
      ⟨hreserved, rfl⟩, rfl, rfl⟩
    simp only [epochHeaderFields, List.append_assoc]

/-! ### The file -/

namespace Epoch

/-- The values fit their types. -/
structure Typed (e : Epoch) : Prop where
  header : e.header.Valid
  ops : ∀ op ∈ e.ops, op.Valid
  drops : ∀ drop ∈ e.drops, drop.plaintextLen < u32Limit

/-- **What is accepted**: the sections in their encoding, and anything in the reserved bytes and
behind the drops. -/
theorem fromBytes_eq_ok {H : Hash} {b : Bytes} {e : Epoch} :
    fromBytes H b = .ok e ↔ e.Typed ∧ e.header.ownEpochId = H (zeroOwnId b) ∧
      ∃ reserved ops drops rest : Bytes, reserved.length = 16 ∧ writeOpSection e.ops = some ops ∧
        writeDropSection e.drops = some drops ∧
        b = epochHeaderFields e.header ++ (reserved ++ (ops ++ (drops ++ rest))) := by
  unfold fromBytes
  rw [except_bind_eq_ok]
  constructor
  · rintro ⟨⟨header, rest⟩, hheader, h⟩
    obtain ⟨hv, reserved, hreserved, hb⟩ := parseEpochHeader_eq_ok.mp (run_eq_ok.mp hheader)
    simp only at h hb
    split at h
    · cases h
    · next hid =>
        obtain ⟨⟨ops, mid⟩, hops, h⟩ := except_bind_eq_ok.mp h
        obtain ⟨⟨drops, back⟩, hdrops, h⟩ := except_bind_eq_ok.mp h
        cases h
        obtain ⟨hopsValid, opsBytes, hopsWrite, hrest⟩ :=
          (parseOpSection_decodes _ _ _).mp (run_eq_ok.mp hops)
        obtain ⟨hdropsValid, dropsBytes, hdropsWrite, hmid⟩ :=
          (parseDropSection_decodes _ _ _).mp (run_eq_ok.mp hdrops)
        simp only at hrest hmid
        refine ⟨⟨hv, hopsValid, hdropsValid⟩, (Decidable.not_not.mp hid).symm, reserved, opsBytes,
          dropsBytes, back, hreserved, hopsWrite, hdropsWrite, ?_⟩
        rw [← hmid, ← hrest]
        exact hb
  · rintro ⟨htyped, hid, reserved, ops, drops, rest, hreserved, hops, hdrops, hb⟩
    refine ⟨(e.header, ops ++ (drops ++ rest)),
      run_eq_ok.mpr (parseEpochHeader_eq_ok.mpr ⟨htyped.header, reserved, hreserved, hb⟩), ?_⟩
    simp only
    rw [if_neg (Decidable.not_not.mpr hid.symm), except_bind_eq_ok]
    refine ⟨(e.ops, drops ++ rest), run_eq_ok.mpr
      ((parseOpSection_decodes _ _ _).mpr ⟨htyped.ops, ops, hops, rfl⟩), ?_⟩
    rw [except_bind_eq_ok]
    exact ⟨(e.drops, rest), run_eq_ok.mpr
      ((parseDropSection_decodes _ _ _).mpr ⟨htyped.drops, drops, hdrops, rfl⟩), rfl⟩

/-- The file is the encoding of what was read from it, and the hashes in the header are those of its
sections. -/
structure Canonical (H : Hash) (b : Bytes) (e : Epoch) : Prop where
  bytes : e.toBytes = some b
  opsHash : (writeOpSection e.ops).map H = some e.header.opsHash
  dropsHash : (writeDropSection e.drops).map H = some e.header.dropsHash

/-- A header whose reserved bytes are zero, and two sections it holds the hashes of. -/
structure Sections (H : Hash) (header ops drops : Bytes) : Prop where
  length : header.length = 200
  reserved : header.drop 184 = List.replicate 16 0
  opsRead : ∃ l, parseOpSection ops = (.ok l, [])
  dropsRead : ∃ l, parseDropSection drops = (.ok l, [])
  opsHash : (header.drop 80).take 32 = (H ops).val
  dropsHash : (header.drop 112).take 32 = (H drops).val

/-- Such a header, such sections and nothing behind them. -/
def SealedBytes (H : Hash) (b : Bytes) : Prop :=
  ∃ header ops drops, b = header ++ (ops ++ drops) ∧ Sections H header ops drops

theorem hashes_of_fields (h : EpochHeader) (tail : Bytes) :
    ((epochHeaderFields h ++ tail).drop 80).take 32 = h.opsHash.val ∧
      ((epochHeaderFields h ++ tail).drop 112).take 32 = h.dropsHash.val := by
  let front := leBytes 4 epochMagic ++ leBytes 2 h.version ++ leBytes 2 h.flags
    ++ h.parentEpochId.val ++ h.baseImageRoot.val ++ leBytes 8 h.epochSequence
  let back := h.ownEpochId.val ++ (leBytes 8 h.timestampUnix ++ tail)
  have hfront : front.length = 80 := by
    simp only [front, List.length_append, leBytes_length, h.parentEpochId.2, h.baseImageRoot.2]
  have hops : epochHeaderFields h ++ tail = front ++ (h.opsHash.val ++ (h.dropsHash.val ++ back)) := by
    simp only [epochHeaderFields, front, back, List.append_assoc]
  have hdrops : epochHeaderFields h ++ tail = (front ++ h.opsHash.val) ++ (h.dropsHash.val ++ back) := by
    rw [hops, List.append_assoc front]
  refine ⟨?_, ?_⟩
  · rw [hops, List.drop_left' hfront, List.take_left' h.opsHash.2]
  · rw [hdrops, List.drop_left' (by rw [List.length_append, hfront, h.opsHash.2]),
      List.take_left' h.dropsHash.2]

/-- **An accepted file means its bytes and nothing else exactly if its reserved bytes are zero, its
sections end where it ends and its header holds their hashes.** -/
theorem epoch_canonical_iff {H : Hash} {b : Bytes} {e : Epoch} (h : fromBytes H b = .ok e) :
    Canonical H b e ↔ SealedBytes H b := by
  obtain ⟨htyped, -, reserved, ops, drops, rest, hreserved, hops, hdrops, rfl⟩ := fromBytes_eq_ok.mp h
  have hhashes := hashes_of_fields e.header reserved
  have hopsRead := parseOpSection_decodes.reads htyped.ops hops
  have hdropsRead := parseDropSection_decodes.reads htyped.drops hdrops
  constructor
  · rintro ⟨hbytes, hopsHash, hdropsHash⟩
    rw [hops] at hopsHash
    rw [hdrops] at hdropsHash
    rw [toBytes, hops, hdrops, writeEpochHeader_eq] at hbytes
    have hsame := List.append_cancel_left ((List.append_assoc ..).symm.trans (Option.some.inj hbytes))
    obtain ⟨rfl, hsections⟩ := List.append_inj hsame (by rw [hreserved, List.length_replicate])
    obtain rfl : [] = rest := by
      have hlen := congrArg List.length hsections
      simp only [List.length_append] at hlen
      exact (List.length_eq_zero_iff.mp (by omega)).symm
    refine ⟨_, ops, drops, by rw [List.append_nil, List.append_assoc], ?_, ?_, ?_, ?_, ?_, ?_⟩
    · rw [List.length_append, epochHeaderFields_length, hreserved]
    · rw [List.drop_left' (epochHeaderFields_length _)]
    · have hend := hopsRead []
      rw [List.append_nil] at hend
      exact ⟨_, hend⟩
    · have hend := hdropsRead []
      rw [List.append_nil] at hend
      exact ⟨_, hend⟩
    · rw [hhashes.1, Option.some.inj hopsHash]
    · rw [hhashes.2, Option.some.inj hdropsHash]
  · rintro ⟨header, ops', drops', hb, hsections⟩
    rw [← List.append_assoc] at hb
    obtain ⟨rfl, hsame⟩ := List.append_inj hb (by
      rw [List.length_append, epochHeaderFields_length, hreserved, hsections.length])
    -- the sections are read at the same place, so they are the same
    obtain ⟨l, hl⟩ := hsections.opsRead
    obtain ⟨hlValid, enc, henc, hopsEnc⟩ := (parseOpSection_decodes _ _ _).mp hl
    rw [List.append_nil] at hopsEnc
    subst hopsEnc
    obtain ⟨rfl, -, hback⟩ := hopsRead.det (parseOpSection_decodes.reads hlValid henc) hsame
    obtain ⟨m, hm⟩ := hsections.dropsRead
    obtain ⟨hmValid, enc', henc', hdropsEnc⟩ := (parseDropSection_decodes _ _ _).mp hm
    rw [List.append_nil] at hdropsEnc
    subst hdropsEnc
    obtain ⟨rfl, -, rfl⟩ := hdropsRead.det (parseDropSection_decodes.reads hmValid henc')
      (hback.trans (List.append_nil _).symm)
    have hzero := hsections.reserved
    rw [List.drop_left' (epochHeaderFields_length _)] at hzero
    refine ⟨?_, ?_, ?_⟩
    · rw [toBytes, hops, hdrops, writeEpochHeader_eq, hzero, List.append_nil]
      simp [List.append_assoc]
    · rw [hops, Option.map_some, ← Subtype.ext (hhashes.1.symm.trans hsections.opsHash)]
    · rw [hdrops, Option.map_some, ← Subtype.ext (hhashes.2.symm.trans hsections.dropsHash)]

/-- A file without operations and drops, with its identity. -/
def emptyFile (H : Hash) (reserved rest : Bytes) : Bytes :=
  let tail := reserved ++ (leBytes 4 0 ++ (leBytes 4 0 ++ rest))
  epochHeaderFields { defaultHeader with ownEpochId := H (epochHeaderFields defaultHeader ++ tail) }
    ++ tail

theorem fromBytes_emptyFile (H : Hash) {reserved : Bytes} (hreserved : reserved.length = 16)
    (rest : Bytes) : ∃ e, fromBytes H (emptyFile H reserved rest) = .ok e ∧ e.ops = [] ∧ e.drops = [] := by
  refine ⟨⟨_, [], []⟩, fromBytes_eq_ok.mpr ⟨⟨?_, by simp, by simp⟩, ?_, reserved, leBytes 4 0,
    leBytes 4 0, rest, hreserved, rfl, rfl, rfl⟩, rfl, rfl⟩
  · exact ⟨defaultHeader_valid.version, defaultHeader_valid.flags, defaultHeader_valid.epochSequence,
      defaultHeader_valid.timestampUnix⟩
  · show _ = H (zeroOwnId (epochHeaderFields _ ++ _))
    rw [zeroOwnId_fields]
    rfl

/-- A directory and a drop of three bytes, as they are built. -/
theorem epoch_canonical_iff_built :
    ∃ e bytes, build (fun _ => zeroDigest) defaultHeader [.mkdir (ascii "c") 0o755]
        [⟨zeroDigest, codecStore, 3, [1, 2, 3]⟩] = some e ∧ e.toBytes = some bytes ∧
      fromBytes (fun _ => zeroDigest) bytes = .ok e ∧
      (Canonical (fun _ => zeroDigest) bytes e ↔ SealedBytes (fun _ => zeroDigest) bytes) := by
  obtain ⟨e, hbuilt⟩ := Option.isSome_iff_exists.mp (by decide +kernel :
    (build (fun _ => zeroDigest) defaultHeader [.mkdir (ascii "c") 0o755]
      [⟨zeroDigest, codecStore, 3, [1, 2, 3]⟩]).isSome)
  obtain ⟨bytes, hbytes, hread⟩ := fromBytes_build defaultHeader_valid (fun op hop => by
    rw [List.mem_singleton.mp hop]
    exact ⟨show (0o755 : Nat) < u32Limit by decide, by decide⟩) (fun drop hdrop => by
    rw [List.mem_singleton.mp hdrop]
    decide) hbuilt
  exact ⟨e, bytes, hbuilt, hbytes, hread, epoch_canonical_iff hread⟩

theorem tail_of_canonical {H : Hash} {reserved rest : Bytes} {e : Epoch} (hops : e.ops = [])
    (hdrops : e.drops = []) (h : Canonical H (emptyFile H reserved rest) e) :
    List.replicate 16 0 ++ (leBytes 4 0 ++ leBytes 4 0)
      = reserved ++ (leBytes 4 0 ++ (leBytes 4 0 ++ rest)) := by
  have hbytes := h.bytes
  rw [toBytes, hops, hdrops, writeEpochHeader_eq] at hbytes
  have hsame := congrArg (List.drop 184)
    ((List.append_assoc ..).symm.trans (Option.some.inj hbytes))
  rwa [emptyFile, List.append_assoc, List.drop_left' (epochHeaderFields_length _),
    List.drop_left' (epochHeaderFields_length _)] at hsame

/-- **A byte behind the drops is accepted, and so are reserved bytes that are not zero.** -/
theorem other_bytes_accepted :
    (∃ e, fromBytes (fun _ => zeroDigest) (emptyFile (fun _ => zeroDigest) (List.replicate 16 0) [7])
        = .ok e ∧
      ¬ Canonical (fun _ => zeroDigest)
        (emptyFile (fun _ => zeroDigest) (List.replicate 16 0) [7]) e) ∧
    ∃ e, fromBytes (fun _ => zeroDigest) (emptyFile (fun _ => zeroDigest) (List.replicate 16 1) [])
        = .ok e ∧
      ¬ Canonical (fun _ => zeroDigest)
        (emptyFile (fun _ => zeroDigest) (List.replicate 16 1) []) e := by
  refine ⟨?_, ?_⟩
  · obtain ⟨e, he, hops, hdrops⟩ :=
      fromBytes_emptyFile (fun _ => zeroDigest) (List.length_replicate ..) [7]
    exact ⟨e, he, fun h => absurd (tail_of_canonical hops hdrops h) (by decide)⟩
  · obtain ⟨e, he, hops, hdrops⟩ :=
      fromBytes_emptyFile (fun _ => zeroDigest) (List.length_replicate ..) []
    exact ⟨e, he, fun h => absurd (tail_of_canonical hops hdrops h) (by decide)⟩

end Epoch

end LimniFS
