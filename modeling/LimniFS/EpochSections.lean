/-
The sections of an epoch file.

The header has a fixed size.  The operations and the drops are counted lists of records without
delimiters; a reader is aligned again after every record (`reads_opStep`), so a section that was
written is read back whole.
-/
import LimniFS.Lib.ListRel
import LimniFS.Manifest

namespace LimniFS

open Lib

/-! ### UTF-8 errors -/

/-- Where bytes stop being UTF-8, and how many of them are wrong; none if they are cut off. -/
def utf8Error : Nat → Bytes → Nat × Option Nat
  | index, [] => (index, none)
  | index, b :: rest =>
    if b < 0x80 then utf8Error (index + 1) rest
    else
      match rest with
      | [] => (index, if 0xC2 ≤ b && b ≤ 0xF4 then none else some 1)
      | b1 :: rest1 =>
        if 0xC2 ≤ b && b ≤ 0xDF then
          if isContinuation b1 then utf8Error (index + 2) rest1 else (index, some 1)
        else if (0xE0 ≤ b && b ≤ 0xF4 && isContinuation b1 && (b != 0xE0 || 0xA0 ≤ b1)
            && (b != 0xED || b1 ≤ 0x9F) && (b != 0xF0 || 0x90 ≤ b1)
            && (b != 0xF4 || b1 ≤ 0x8F)) = false then (index, some 1)
        else
          match rest1 with
          | [] => (index, none)
          | b2 :: rest2 =>
            if isContinuation b2 = false then (index, some 2)
            else if b ≤ 0xEF then utf8Error (index + 3) rest2
            else
              match rest2 with
              | [] => (index, none)
              | b3 :: rest3 =>
                if isContinuation b3 then utf8Error (index + 4) rest3 else (index, some 3)

/-- The text of the error of `String::from_utf8`. -/
def utf8ErrorText (bytes : Bytes) : String :=
  match utf8Error 0 bytes with
  | (index, some wrong) => s!"invalid utf-8 sequence of {wrong} bytes from index {index}"
  | (index, none) => s!"incomplete utf-8 byte sequence from index {index}"

/-! ### The header -/

def epochMagic : Nat := 0x4C494D45

def epochFormatVersion : Nat := 1

structure EpochHeader where
  version : Nat
  flags : Nat
  parentEpochId : Digest
  baseImageRoot : Digest
  epochSequence : Nat
  opsHash : Digest
  dropsHash : Digest
  ownEpochId : Digest
  timestampUnix : Nat
  deriving DecidableEq

/-- The fields fit their types, and the version can be read. -/
structure EpochHeader.Valid (h : EpochHeader) : Prop where
  version : h.version ≤ epochFormatVersion
  flags : h.flags < 2 ^ 16
  epochSequence : h.epochSequence < 2 ^ 64
  timestampUnix : h.timestampUnix < 2 ^ 64

def writeEpochHeader (h : EpochHeader) : Bytes :=
  leBytes 4 epochMagic ++ (leBytes 2 h.version ++ (leBytes 2 h.flags ++ (h.parentEpochId.val
    ++ (h.baseImageRoot.val ++ (leBytes 8 h.epochSequence ++ (h.opsHash.val ++ (h.dropsHash.val
    ++ (h.ownEpochId.val ++ (leBytes 8 h.timestampUnix ++ List.replicate 16 0)))))))))

/-- The header up to its reserved bytes. -/
def epochHeaderFields (h : EpochHeader) : Bytes :=
  leBytes 4 epochMagic ++ leBytes 2 h.version ++ leBytes 2 h.flags ++ h.parentEpochId.val
    ++ h.baseImageRoot.val ++ leBytes 8 h.epochSequence ++ h.opsHash.val ++ h.dropsHash.val
    ++ h.ownEpochId.val ++ leBytes 8 h.timestampUnix

theorem epochHeaderFields_length (h : EpochHeader) : (epochHeaderFields h).length = 184 := by
  simp only [epochHeaderFields, List.length_append, leBytes_length, h.parentEpochId.2,
    h.baseImageRoot.2, h.opsHash.2, h.dropsHash.2, h.ownEpochId.2]

theorem writeEpochHeader_eq (h : EpochHeader) :
    writeEpochHeader h = epochHeaderFields h ++ List.replicate 16 0 := by
  simp only [writeEpochHeader, epochHeaderFields, List.append_assoc]

/-- The error every accessor is wrapped in. -/
def truncated (part what : String) (e : CoreError) : CoreError :=
  .corrupt (part ++ ": truncated " ++ what ++ ": " ++ e.display)

open Parser Cursor in
def parseEpochHeader : CoreParser EpochHeader := do
  let copyId (label : String) := readHash.mapError (truncated "epoch header" ("before " ++ label))
  let magic ← readU32Le.mapError (truncated "epoch header" "before magic")
  ensure (magic = epochMagic) (.corrupt ("epoch header: magic 0x"
    ++ String.ofList (hexDigits true 8 magic) ++ " does not match LIME (0x"
    ++ String.ofList (hexDigits true 8 epochMagic) ++ ")"))
  let version ← readU16Le.mapError (truncated "epoch header" "before version")
  ensure (version ≤ epochFormatVersion) (.corrupt
    s!"epoch header: version {version} exceeds supported {epochFormatVersion}")
  let flags ← readU16Le.mapError (truncated "epoch header" "before flags")
  let parentEpochId ← copyId "parent_epoch_id"
  let baseImageRoot ← copyId "base_image_root"
  let epochSequence ← readU64Le.mapError (truncated "epoch header" "before epoch_sequence")
  let opsHash ← copyId "ops_hash"
  let dropsHash ← copyId "drops_hash"
  let ownEpochId ← copyId "own_epoch_id"
  let timestampUnix ← readU64Le.mapError (truncated "epoch header" "before timestamp")
  let _ ← (readN 16).mapError (truncated "epoch header" "before end of reserved")
  pure ⟨version, flags, parentEpochId, baseImageRoot, epochSequence, opsHash, dropsHash, ownEpochId,
    timestampUnix⟩

open Parser Cursor in
theorem reads_parseEpochHeader {h : EpochHeader} (hv : h.Valid) :
    Reads parseEpochHeader (writeEpochHeader h) h := by
  have hversion : h.version < 2 ^ 16 := by
    have := hv.version
    unfold epochFormatVersion at this
    omega
  unfold parseEpochHeader writeEpochHeader
  refine (reads_readU32Le (by decide)).mapError.bind ?_
  refine (reads_ensure rfl).bind_nil ?_
  refine (reads_readU16Le hversion).mapError.bind ?_
  refine (reads_ensure hv.version).bind_nil ?_
  refine (reads_readU16Le hv.flags).mapError.bind ?_
  refine (reads_readHash _).mapError.bind ?_
  refine (reads_readHash _).mapError.bind ?_
  refine (reads_readU64Le hv.epochSequence).mapError.bind ?_
  refine (reads_readHash _).mapError.bind ?_
  refine (reads_readHash _).mapError.bind ?_
  refine (reads_readHash _).mapError.bind ?_
  refine (reads_readU64Le hv.timestampUnix).mapError.bind ?_
  exact (reads_readN List.length_replicate).mapError.bind_last (reads_pure _)

/-! ### Operations -/

inductive EpochOpKind where
  | add | remove | modify | chmod | rename | mkdir | rmdir
  deriving DecidableEq

namespace EpochOpKind

def toU8 : EpochOpKind → UInt8
  | add => 0
  | remove => 1
  | modify => 2
  | chmod => 3
  | rename => 4
  | mkdir => 5
  | rmdir => 6

def fromU8 (raw : UInt8) : Except CoreError EpochOpKind :=
  if raw = 0 then .ok add
  else if raw = 1 then .ok remove
  else if raw = 2 then .ok modify
  else if raw = 3 then .ok chmod
  else if raw = 4 then .ok rename
  else if raw = 5 then .ok mkdir
  else if raw = 6 then .ok rmdir
  else .error (.corrupt ("epoch op: unknown opcode " ++ hex2 raw))

theorem fromU8_toU8 (kind : EpochOpKind) : fromU8 kind.toU8 = .ok kind := by
  cases kind <;> rfl

end EpochOpKind

/-- Paths are UTF-8. -/
inductive EpochOp where
  | add (path : Bytes) (dropId : Digest) (len mode mtime : Nat)
  | remove (path : Bytes)
  | modify (path : Bytes) (dropId : Digest) (len mtime : Nat)
  | chmod (path : Bytes) (mode : Nat)
  | rename (source target : Bytes)
  | mkdir (path : Bytes) (mode : Nat)
  | rmdir (path : Bytes)
  deriving DecidableEq

namespace EpochOp

def kind : EpochOp → EpochOpKind
  | add .. => .add
  | remove .. => .remove
  | modify .. => .modify
  | chmod .. => .chmod
  | rename .. => .rename
  | mkdir .. => .mkdir
  | rmdir .. => .rmdir

def paths : EpochOp → List Bytes
  | add path .. | remove path | modify path .. | chmod path _ | mkdir path _ | rmdir path => [path]
  | rename source target => [source, target]

/-- The numbers fit their types. -/
def Typed : EpochOp → Prop
  | add _ _ len mode mtime => len < 2 ^ 64 ∧ mode < u32Limit ∧ mtime < 2 ^ 64
  | modify _ _ len mtime => len < 2 ^ 64 ∧ mtime < 2 ^ 64
  | chmod _ mode | mkdir _ mode => mode < u32Limit
  | remove _ | rename _ _ | rmdir _ => True

/-- The paths are strings, and the numbers fit. -/
structure Valid (op : EpochOp) : Prop where
  typed : op.Typed
  utf8 : ∀ path ∈ op.paths, utf8Valid path = true

end EpochOp

/-- `none` is the panic of a length that does not fit. -/
def writePath (path : Bytes) : Option Bytes :=
  if path.length < u32Limit then some (leBytes 4 path.length ++ path) else none

/-- What follows the opcode. -/
def writeFields : EpochOp → Option Bytes
  | .add path dropId len mode mtime => (writePath path).map fun p =>
      p ++ (dropId.val ++ (leBytes 8 len ++ (leBytes 4 mode ++ leBytes 8 mtime)))
  | .remove path => writePath path
  | .modify path dropId len mtime => (writePath path).map fun p =>
      p ++ (dropId.val ++ (leBytes 8 len ++ leBytes 8 mtime))
  | .chmod path mode => (writePath path).map fun p => p ++ leBytes 4 mode
  | .rename source target => (writePath source).bind fun s => (writePath target).map fun t => s ++ t
  | .mkdir path mode => (writePath path).map fun p => p ++ leBytes 4 mode
  | .rmdir path => writePath path

def writeOneOp (op : EpochOp) : Option Bytes :=
  (writeFields op).map fun fields => op.kind.toU8 :: fields

/-- A count in front of what is counted. -/
def writeCounted {α : Type} (write : α → Option Bytes) (items : List α) : Option Bytes :=
  if items.length < u32Limit then
    (items.mapM write).map fun parts => leBytes 4 items.length ++ parts.flatten
  else none

def writeOpSection (ops : List EpochOp) : Option Bytes := writeCounted writeOneOp ops

section

open Parser Cursor

def readPath (index : Nat) : CoreParser Bytes := do
  let len ← readU32Le.mapError (truncated s!"epoch ops: op {index}" "before path length")
  let bytes ← (readN len).mapError (truncated s!"epoch ops: op {index}" "within path")
  ensure (utf8Valid bytes = true) (.corrupt
    (s!"epoch ops: op {index}: path is not UTF-8: " ++ utf8ErrorText bytes))
  pure bytes

def readId (index : Nat) (label : String) : CoreParser Digest :=
  readHash.mapError (truncated s!"epoch ops: op {index}" ("before " ++ label))

def parseOneOp (kind : EpochOpKind) (index : Nat) : CoreParser EpochOp :=
  let before (label : String) := truncated s!"epoch ops: op {index}" ("before " ++ label)
  match kind with
  | .add => do
    let path ← readPath index
    let dropId ← readId index "drop_id"
    let len ← readU64Le.mapError (before "len")
    let mode ← readU32Le.mapError (before "mode")
    let mtime ← readU64Le.mapError (before "mtime")
    pure (.add path dropId len mode mtime)
  | .remove => do
    let path ← readPath index
    pure (.remove path)
  | .modify => do
    let path ← readPath index
    let dropId ← readId index "drop_id"
    let len ← readU64Le.mapError (before "len")
    let mtime ← readU64Le.mapError (before "mtime")
    pure (.modify path dropId len mtime)
  | .chmod => do
    let path ← readPath index
    let mode ← readU32Le.mapError (before "mode")
    pure (.chmod path mode)
  | .rename => do
    let source ← readPath index
    let target ← readPath index
    pure (.rename source target)
  | .mkdir => do
    let path ← readPath index
    let mode ← readU32Le.mapError (before "mode")
    pure (.mkdir path mode)
  | .rmdir => do
    let path ← readPath index
    pure (.rmdir path)

/-- One round of the loop over the operations. -/
def opStep (index : Nat) (ops : List EpochOp) : CoreParser (List EpochOp) := do
  let opcode ← readU8.mapError (truncated s!"epoch ops: op {index}" "before opcode")
  match EpochOpKind.fromU8 opcode with
  | .error e => fail e
  | .ok kind =>
    let op ← parseOneOp kind index
    pure (ops ++ [op])

def parseOpSection : CoreParser (List EpochOp) := do
  let count ← readU32Le.mapError (truncated "epoch ops" "before count")
  loop opStep count 0 []

/-! ### Reading operations back -/

theorem reads_readPath (index : Nat) {path p : Bytes} (hutf : utf8Valid path = true)
    (h : writePath path = some p) : Reads (readPath index) p path := by
  unfold writePath at h
  split at h
  · next hlen =>
      cases h
      unfold readPath
      refine (reads_readU32Le hlen).mapError.bind ?_
      refine (reads_readN rfl).mapError.bind_last ?_
      exact (reads_ensure hutf).bind_nil (reads_pure _)
  · cases h

theorem reads_parseOneOp (index : Nat) {op : EpochOp} (hv : op.Valid) {fields : Bytes}
    (h : writeFields op = some fields) : Reads (parseOneOp op.kind index) fields op := by
  obtain ⟨htyped, hutf⟩ := hv
  cases op with
  | add path dropId len mode mtime =>
      obtain ⟨p, hp, rfl⟩ := Option.map_eq_some_iff.mp h
      refine (reads_readPath index (hutf path List.mem_cons_self) hp).bind ?_
      refine (reads_readHash dropId).mapError.bind ?_
      refine (reads_readU64Le htyped.1).mapError.bind ?_
      refine (reads_readU32Le htyped.2.1).mapError.bind ?_
      exact (reads_readU64Le htyped.2.2).mapError.bind_last (reads_pure _)
  | remove path =>
      exact (reads_readPath index (hutf path List.mem_cons_self) h).bind_last (reads_pure _)
  | modify path dropId len mtime =>
      obtain ⟨p, hp, rfl⟩ := Option.map_eq_some_iff.mp h
      refine (reads_readPath index (hutf path List.mem_cons_self) hp).bind ?_
      refine (reads_readHash dropId).mapError.bind ?_
      refine (reads_readU64Le htyped.1).mapError.bind ?_
      exact (reads_readU64Le htyped.2).mapError.bind_last (reads_pure _)
  | chmod path mode =>
      obtain ⟨p, hp, rfl⟩ := Option.map_eq_some_iff.mp h
      refine (reads_readPath index (hutf path List.mem_cons_self) hp).bind ?_
      exact (reads_readU32Le htyped).mapError.bind_last (reads_pure _)
  | rename source target =>
      obtain ⟨s, hs, hrest⟩ := Option.bind_eq_some_iff.mp h
      obtain ⟨t, ht, rfl⟩ := Option.map_eq_some_iff.mp hrest
      refine (reads_readPath index (hutf source List.mem_cons_self) hs).bind ?_
      exact (reads_readPath index (hutf target (List.mem_cons_of_mem _ List.mem_cons_self))
        ht).bind_last (reads_pure _)
  | mkdir path mode =>
      obtain ⟨p, hp, rfl⟩ := Option.map_eq_some_iff.mp h
      refine (reads_readPath index (hutf path List.mem_cons_self) hp).bind ?_
      exact (reads_readU32Le htyped).mapError.bind_last (reads_pure _)
  | rmdir path =>
      exact (reads_readPath index (hutf path List.mem_cons_self) h).bind_last (reads_pure _)

/-- **The reader is aligned again after every operation.** -/
theorem reads_opStep (index : Nat) (ops : List EpochOp) {op : EpochOp} (hv : op.Valid)
    {enc : Bytes} (h : writeOneOp op = some enc) : Reads (opStep index ops) enc (ops ++ [op]) := by
  obtain ⟨fields, hfields, rfl⟩ := Option.map_eq_some_iff.mp h
  unfold opStep
  refine Reads.bind (reads_readU8 op.kind.toU8).mapError ?_
  rw [EpochOpKind.fromU8_toU8]
  exact (reads_parseOneOp index hv hfields).bind_last (reads_pure _)

/-- A section that was written is read back item by item. -/
theorem reads_counted {α : Type} {write : α → Option Bytes} {items : List α} {bytes : Bytes}
    {body : Nat → List α → CoreParser (List α)} {f : CoreError → CoreError}
    (hbody : ∀ item ∈ items, ∀ enc, write item = some enc → ∀ i done,
      Reads (body i done) enc (done ++ [item]))
    (h : writeCounted write items = some bytes) :
    Reads (do let count ← readU32Le.mapError f; loop body count 0 []) bytes items := by
  unfold writeCounted at h
  split at h
  · next hcount =>
      obtain ⟨parts, hparts, rfl⟩ := Option.map_eq_some_iff.mp h
      refine (reads_readU32Le hcount).mapError.bind ?_
      refine reads_loop_each ?_ 0 []
      refine ((forall₂_and_mem_left (mapM_some_iff.mp hparts)).flip).imp ?_
      intro enc item hitem
      exact hbody item hitem.2 enc hitem.1
  · cases h

theorem writeCounted_isSome {α : Type} {write : α → Option Bytes} {items : List α} :
    (writeCounted write items).isSome ↔
      items.length < u32Limit ∧ ∀ item ∈ items, (write item).isSome := by
  unfold writeCounted
  by_cases hcount : items.length < u32Limit
  · rw [if_pos hcount, Option.isSome_map, mapM_isSome_iff]
    exact ⟨fun h => ⟨hcount, h⟩, fun h => h.2⟩
  · rw [if_neg hcount]
    exact ⟨fun h => (by cases h), fun h => absurd h.1 hcount⟩

/-! ### Drops -/

structure EpochDrop where
  dropId : Digest
  codec : UInt8
  plaintextLen : Nat
  payload : Bytes
  deriving DecidableEq

def writeOneDrop (drop : EpochDrop) : Option Bytes :=
  if drop.payload.length < u32Limit then
    some (drop.dropId.val ++ ([drop.codec] ++ (leBytes 4 drop.plaintextLen
      ++ (leBytes 4 drop.payload.length ++ drop.payload))))
  else none

def writeDropSection (drops : List EpochDrop) : Option Bytes := writeCounted writeOneDrop drops

def parseOneDrop (index : Nat) : CoreParser EpochDrop := do
  let part := s!"epoch drops: drop {index}"
  let dropId ← readHash.mapError (truncated part "before drop_id")
  let codec ← readU8.mapError (truncated part "before codec")
  let plaintextLen ← readU32Le.mapError (truncated part "before plaintext_len")
  let payloadLen ← readU32Le.mapError (truncated part "before payload_len")
  let payload ← (readN payloadLen).mapError (truncated part "within payload")
  pure ⟨dropId, codec, plaintextLen, payload⟩

def parseDropSection : CoreParser (List EpochDrop) := do
  let count ← readU32Le.mapError (truncated "epoch drops" "before count")
  loop (fun index drops => do
    let drop ← parseOneDrop index
    pure (drops ++ [drop])) count 0 []

theorem reads_parseOneDrop (index : Nat) {drop : EpochDrop} (hlen : drop.plaintextLen < u32Limit)
    {enc : Bytes} (h : writeOneDrop drop = some enc) : Reads (parseOneDrop index) enc drop := by
  unfold writeOneDrop at h
  split at h
  · next hpayload =>
      cases h
      unfold parseOneDrop
      refine (reads_readHash drop.dropId).mapError.bind ?_
      refine (reads_readU8 drop.codec).mapError.bind ?_
      refine (reads_readU32Le hlen).mapError.bind ?_
      refine (reads_readU32Le hpayload).mapError.bind ?_
      exact (reads_readN rfl).mapError.bind_last (reads_pure _)
  · cases h

end

end LimniFS
