/-
Epochs: commits on top of an image.

An epoch file is a header, the operations the commit applies and the drops they refer to.  Its
identity is the hash of its bytes with the field that holds the identity zeroed, so building
fills the field last and reading zeroes it to check.

`epoch_round_trip` says that what can be built at all is read back as it was built.
-/
import LimniFS.EpochSections

namespace LimniFS

open Lib

structure Epoch where
  header : EpochHeader
  ops : List EpochOp
  drops : List EpochDrop
  deriving DecidableEq

namespace Epoch

def toBytes (e : Epoch) : Option Bytes :=
  (writeOpSection e.ops).bind fun ops => (writeDropSection e.drops).map fun drops =>
    writeEpochHeader e.header ++ (ops ++ drops)

def zeroDigest : Digest := ⟨List.replicate 32 0, zeros_length⟩

/-- The hashes are filled in; `none` is a panic. -/
def build (H : Hash) (header : EpochHeader) (ops : List EpochOp) (drops : List EpochDrop) :
    Option Epoch :=
  (writeOpSection ops).bind fun opsSection => (writeDropSection drops).map fun dropsSection =>
    let header := { header with
      opsHash := H opsSection, dropsHash := H dropsSection, ownEpochId := zeroDigest }
    let bytes := writeEpochHeader header ++ (opsSection ++ dropsSection)
    ⟨{ header with ownEpochId := H bytes }, ops, drops⟩

/-- The bytes with the identity zeroed: it stands behind 144 bytes. -/
def zeroOwnId (bytes : Bytes) : Bytes :=
  let offset := 4 + 2 + 2 + 32 + 32 + 8 + 32 + 32
  bytes.take offset ++ List.replicate 32 0 ++ bytes.drop (offset + 32)

def fromBytes (H : Hash) (bytes : Bytes) : Except CoreError Epoch := do
  let (header, rest) ← parseEpochHeader.run bytes
  let recomputed := H (zeroOwnId bytes)
  if recomputed ≠ header.ownEpochId then
    .error (.corrupt ("epoch own_epoch_id mismatch: header claims "
      ++ String.ofList (hexLower header.ownEpochId.val) ++ " but bytes hash to "
      ++ String.ofList (hexLower recomputed.val)))
  else
    let (ops, rest) ← parseOpSection.run rest
    let (drops, _) ← parseDropSection.run rest
    pure ⟨header, ops, drops⟩

/-- Counts and lengths fit the fields they are written to. -/
structure Fits (ops : List EpochOp) (drops : List EpochDrop) : Prop where
  opCount : ops.length < u32Limit
  paths : ∀ op ∈ ops, ∀ path ∈ op.paths, path.length < u32Limit
  dropCount : drops.length < u32Limit
  payloads : ∀ drop ∈ drops, drop.payload.length < u32Limit

theorem zeroOwnId_fields (h : EpochHeader) (tail : Bytes) :
    zeroOwnId (epochHeaderFields h ++ tail)
      = epochHeaderFields { h with ownEpochId := zeroDigest } ++ tail := by
  let front := leBytes 4 epochMagic ++ leBytes 2 h.version ++ leBytes 2 h.flags
    ++ h.parentEpochId.val ++ h.baseImageRoot.val ++ leBytes 8 h.epochSequence ++ h.opsHash.val
    ++ h.dropsHash.val
  have hfront : front.length = 144 := by
    simp only [front, List.length_append, leBytes_length, h.parentEpochId.2, h.baseImageRoot.2,
      h.opsHash.2, h.dropsHash.2]
  have hsplit : ∀ own : Digest, epochHeaderFields { h with ownEpochId := own } ++ tail
      = front ++ (own.val ++ (leBytes 8 h.timestampUnix ++ tail)) := by
    intro own
    simp only [epochHeaderFields, front, List.append_assoc]
  have hwhole := hsplit h.ownEpochId
  rw [hsplit zeroDigest]
  unfold zeroOwnId
  simp only
  rw [hwhole, List.take_left' hfront, ← List.drop_drop, List.drop_left' hfront,
    List.drop_left' h.ownEpochId.2, List.append_assoc]
  rfl

theorem zeroOwnId_writeEpochHeader (h : EpochHeader) (sections : Bytes) :
    zeroOwnId (writeEpochHeader h ++ sections)
      = writeEpochHeader { h with ownEpochId := zeroDigest } ++ sections := by
  rw [writeEpochHeader_eq, writeEpochHeader_eq, List.append_assoc, List.append_assoc,
    zeroOwnId_fields]

theorem writePath_isSome {path : Bytes} : (writePath path).isSome ↔ path.length < u32Limit := by
  unfold writePath
  split
  · next h => exact ⟨fun _ => h, fun _ => rfl⟩
  · next h => exact ⟨fun hsome => (by cases hsome), fun hlt => absurd hlt h⟩

theorem writeOneOp_isSome {op : EpochOp} :
    (writeOneOp op).isSome ↔ ∀ path ∈ op.paths, path.length < u32Limit := by
  unfold writeOneOp
  rw [Option.isSome_map]
  cases op with
  | rename source target =>
      show ((writePath source).bind fun s => (writePath target).map fun t => s ++ t).isSome ↔ _
      simp only [EpochOp.paths, List.forall_mem_cons, ← writePath_isSome]
      cases writePath source <;> cases writePath target <;> simp
  | _ =>
      simp only [writeFields, Option.isSome_map, EpochOp.paths, List.forall_mem_singleton,
        writePath_isSome]

/-- **An epoch is written exactly if its counts and lengths fit.** -/
theorem sections_isSome {ops : List EpochOp} {drops : List EpochDrop} :
    ((writeOpSection ops).isSome ∧ (writeDropSection drops).isSome) ↔ Fits ops drops := by
  have hpayload : ∀ drop : EpochDrop, (writeOneDrop drop).isSome ↔ drop.payload.length < u32Limit := by
    intro drop
    unfold writeOneDrop
    split
    · next h => exact ⟨fun _ => h, fun _ => rfl⟩
    · next h => exact ⟨fun hsome => (by cases hsome), fun hlt => absurd hlt h⟩
  unfold writeOpSection writeDropSection
  simp only [writeCounted_isSome, writeOneOp_isSome, hpayload]
  exact ⟨fun h => ⟨h.1.1, h.1.2, h.2.1, h.2.2⟩, fun h => ⟨⟨h.opCount, h.paths⟩, h.dropCount, h.payloads⟩⟩

/-- Sections that were written are read back. -/
theorem fromBytes_toBytes {H : Hash} {e : Epoch} (hv : e.header.Valid) (hops : ∀ op ∈ e.ops, op.Valid)
    (hdrops : ∀ drop ∈ e.drops, drop.plaintextLen < u32Limit) {opsSection dropsSection : Bytes}
    (ho : writeOpSection e.ops = some opsSection)
    (hd : writeDropSection e.drops = some dropsSection)
    (hid : e.header.ownEpochId = H (writeEpochHeader { e.header with ownEpochId := zeroDigest }
      ++ (opsSection ++ dropsSection))) :
    ∃ bytes, e.toBytes = some bytes ∧ fromBytes H bytes = .ok e := by
  refine ⟨writeEpochHeader e.header ++ (opsSection ++ dropsSection), ?_, ?_⟩
  · unfold toBytes
    rw [ho, hd]
    rfl
  · have hheader : parseEpochHeader.run (writeEpochHeader e.header ++ (opsSection ++ dropsSection))
        = .ok (e.header, opsSection ++ dropsSection) :=
      Parser.run_eq_ok.mpr (reads_parseEpochHeader hv _)
    have hopRead : Parser.Reads parseOpSection opsSection e.ops :=
      reads_counted (fun op hop enc henc i done => reads_opStep i done (hops op hop) henc) ho
    have hopRun : parseOpSection.run (opsSection ++ dropsSection) = .ok (e.ops, dropsSection) :=
      Parser.run_eq_ok.mpr (hopRead dropsSection)
    have hdropRead : Parser.Reads parseDropSection dropsSection e.drops :=
      reads_counted (fun drop hdrop enc henc i done =>
        (reads_parseOneDrop i (hdrops drop hdrop) henc).bind_last (Parser.reads_pure _)) hd
    have hdropRun : parseDropSection.run dropsSection = .ok (e.drops, []) := by
      have hnil := hdropRead []
      rw [List.append_nil] at hnil
      exact Parser.run_eq_ok.mpr hnil
    unfold fromBytes
    rw [hheader, except_bind_eq_ok]
    refine ⟨_, rfl, ?_⟩
    simp only
    rw [zeroOwnId_writeEpochHeader, ← hid, if_neg (Decidable.not_not.mpr rfl), except_bind_eq_ok]
    refine ⟨_, hopRun, ?_⟩
    rw [except_bind_eq_ok]
    exact ⟨_, hdropRun, rfl⟩

theorem build_eq_none_iff {H : Hash} {header : EpochHeader} {ops : List EpochOp}
    {drops : List EpochDrop} : build H header ops drops = none ↔ ¬ Fits ops drops := by
  rw [← sections_isSome]
  unfold build
  cases writeOpSection ops <;> cases writeDropSection drops <;> simp

theorem fromBytes_build {H : Hash} {header : EpochHeader} (hv : header.Valid) {ops : List EpochOp}
    (hops : ∀ op ∈ ops, op.Valid) {drops : List EpochDrop}
    (hdrops : ∀ drop ∈ drops, drop.plaintextLen < u32Limit) {e : Epoch}
    (h : build H header ops drops = some e) :
    ∃ bytes, e.toBytes = some bytes ∧ fromBytes H bytes = .ok e := by
  obtain ⟨opsSection, ho, hrest⟩ := Option.bind_eq_some_iff.mp h
  obtain ⟨dropsSection, hd, rfl⟩ := Option.map_eq_some_iff.mp hrest
  exact fromBytes_toBytes ⟨hv.version, hv.flags, hv.epochSequence, hv.timestampUnix⟩ hops hdrops
    ho hd rfl

/-- **Epochs are read back as they were built**: building panics exactly if a count, a path or a
payload does not fit its field, and what was built is written and read back whole. -/
theorem epoch_round_trip (H : Hash) {header : EpochHeader} (hv : header.Valid)
    {ops : List EpochOp} (hops : ∀ op ∈ ops, op.Valid) {drops : List EpochDrop}
    (hdrops : ∀ drop ∈ drops, drop.plaintextLen < u32Limit) :
    (build H header ops drops = none ↔ ¬ Fits ops drops) ∧
    ∀ e, build H header ops drops = some e → e.ops = ops ∧ e.drops = drops ∧
      (∃ opsHash dropsHash ownEpochId, e.header = { header with opsHash, dropsHash, ownEpochId }) ∧
      ∃ bytes, e.toBytes = some bytes ∧ fromBytes H bytes = .ok e := by
  refine ⟨build_eq_none_iff, ?_⟩
  intro e he
  have hread := fromBytes_build hv hops hdrops he
  obtain ⟨opsSection, -, hrest⟩ := Option.bind_eq_some_iff.mp he
  obtain ⟨dropsSection, -, rfl⟩ := Option.map_eq_some_iff.mp hrest
  exact ⟨rfl, rfl, ⟨_, _, _, rfl⟩, hread⟩

/-- The header of a first epoch, as the default has it. -/
def defaultHeader : EpochHeader :=
  ⟨epochFormatVersion, 0, zeroDigest, zeroDigest, 0, zeroDigest, zeroDigest, zeroDigest, 0⟩

theorem defaultHeader_valid : defaultHeader.Valid :=
  ⟨by decide, by decide, by decide, by decide⟩

/-- A rename and a directory. -/
theorem epoch_round_trip_rename :
    (build (fun _ => zeroDigest) defaultHeader
        [.rename (ascii "a") (ascii "b"), .mkdir (ascii "c") 0o755] [] = none ↔
      ¬ Fits [.rename (ascii "a") (ascii "b"), .mkdir (ascii "c") 0o755] []) ∧
    ∀ e, build (fun _ => zeroDigest) defaultHeader
        [.rename (ascii "a") (ascii "b"), .mkdir (ascii "c") 0o755] [] = some e →
      e.ops = [.rename (ascii "a") (ascii "b"), .mkdir (ascii "c") 0o755] ∧ e.drops = [] ∧
      (∃ opsHash dropsHash ownEpochId,
        e.header = { defaultHeader with opsHash, dropsHash, ownEpochId }) ∧
      ∃ bytes, e.toBytes = some bytes ∧ fromBytes (fun _ => zeroDigest) bytes = .ok e :=
  epoch_round_trip (fun _ => zeroDigest) defaultHeader_valid
    (by
      intro op hop
      simp only [List.mem_cons, List.not_mem_nil, or_false] at hop
      rcases hop with rfl | rfl
      · exact ⟨trivial, by decide⟩
      · exact ⟨by show (0o755 : Nat) < u32Limit; decide, by decide⟩)
    (by simp)

/-- **A payload of four gibibytes cannot be built into an epoch.** -/
theorem long_payload_panics :
    defaultHeader.Valid ∧ ∀ H : Hash,
      build H defaultHeader [] [⟨zeroDigest, codecStore, 0, List.replicate (2 ^ 32) 0⟩] = none := by
  refine ⟨defaultHeader_valid, fun H => build_eq_none_iff.mpr fun h => ?_⟩
  have hlen := h.payloads _ List.mem_cons_self
  simp only [List.length_replicate] at hlen
  exact absurd hlen (by decide)

end Epoch

end LimniFS
