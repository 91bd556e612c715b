/-
The delta linkage section.

An operation is its kind, its path under the path's length, and, for an `Add` and a
`Replace`, the number of an inode.  The encoder goes by whether the operation has a number,
the parser by its kind, and nothing marks where an operation ends; where the two disagree
all that follows is read askew.  The operations the builder makes agree
(`delta_linkage_round_trip`): their paths are joined from names of directory entries, and
what the directory parser demands of a name is what this parser demands of a path.
-/
import LimniFS.DeltaCorrect
import LimniFS.EpochSections
import LimniFS.ManifestWriter

namespace LimniFS.DeltaBuilder

open Lib Lib.Parser Cursor

/-! ### The section -/

def deltaLinkageSectionVersion : UInt8 := 1
/-- The kind, the length of the path, and one byte of it. -/
def minTreeOpLen : Nat := 6

namespace TreeOpKind

def toByte : TreeOpKind → UInt8
  | .add => 0x01
  | .remove => 0x02
  | .replace => 0x03

def fromByte (byte : UInt8) : Option TreeOpKind :=
  if byte = 0x01 then some .add
  else if byte = 0x02 then some .remove
  else if byte = 0x03 then some .replace
  else none

/-- Whether an operation carries an inode number. -/
def hasInodeNumber (kind : TreeOpKind) : Bool := kind != .remove

theorem fromByte_toByte (kind : TreeOpKind) : fromByte kind.toByte = some kind := by
  cases kind <;> rfl

theorem toByte_ne (kind : TreeOpKind) : kind.toByte ≠ 0xFF := by
  cases kind <;> decide

end TreeOpKind

structure DeltaLinkage where
  baseRoot : Digest
  treeOps : List TreeOp
  deriving DecidableEq

/-- The number, where the kind has one. -/
def parseInodeNumber (kind : TreeOpKind) : CoreParser (Option Nat) :=
  if kind.hasInodeNumber then do
    let number ← readU64Le
    pure (some number)
  else pure none

def parseTreeOpKind (index : Nat) (opByte : UInt8) : CoreParser TreeOpKind :=
  match TreeOpKind.fromByte opByte with
  | some kind => pure kind
  | none => Parser.fail (.unsupportedFeature (s!"delta_linkage tree_op {index}: op_type "
      ++ hex2 opByte ++ " is reserved (not in 0x01..0x03)"))

def parseTreeOp (index : Nat) (treeOps : List TreeOp) : CoreParser (List TreeOp) := do
  let opByte ← readU8
  ensure (opByte ≠ 0xFF)
    (.unsupportedFeature s!"delta_linkage tree_op {index}: op_type 0xFF (extended, post-v1)")
  let kind ← parseTreeOpKind index opByte
  let pathLen ← readU32Le
  ensure (pathLen ≠ 0) (.corrupt s!"delta_linkage tree_op {index}: empty path")
  let path ← readN pathLen
  ensure (utf8Valid path = true)
    (.corrupt s!"delta_linkage tree_op {index}: path is not valid UTF-8")
  ensure (0 ∉ path) (.corrupt s!"delta_linkage tree_op {index}: path contains NUL bytes")
  ensure (¬ [slash, slash] <:+: path)
    (.corrupt s!"delta_linkage tree_op {index}: path has empty component (double-slash)")
  let inodeNumber ← parseInodeNumber kind
  pure (treeOps ++ [⟨kind, path, inodeNumber⟩])

def parseDeltaLinkage : CoreParser DeltaLinkage := do
  let sectionVersion ← readU8
  ensure (sectionVersion = deltaLinkageSectionVersion)
    (.unsupportedFeature
      s!"delta_linkage section version {sectionVersion} (supported: {deltaLinkageSectionVersion})")
  let baseRoot ← readHash
  let opCount ← readU32Le
  demandLeft (opCount * minTreeOpLen)
  let treeOps ← loop parseTreeOp opCount 0 []
  pure ⟨baseRoot, treeOps⟩

/-- The number follows whenever there is one. -/
def TreeOp.toBytes (op : TreeOp) : Option Bytes :=
  (writePath op.path).map fun path =>
    op.kind.toByte :: (path ++ (op.inodeNumber.map (leBytes 8)).getD [])

/-- `none` is the panic of a count or of the length of a path that does not fit. -/
def DeltaArtifact.toSectionBytes (artifact : DeltaArtifact) : Option Bytes :=
  (writeCounted TreeOp.toBytes artifact.treeOps).map fun ops =>
    deltaLinkageSectionVersion :: (artifact.baseRoot.val ++ ops)

/-! ### Reading a section back -/

/-- The path is a string, and the number fits its type. -/
structure TreeOp.Typed (op : TreeOp) : Prop where
  utf8 : utf8Valid op.path = true
  number : ∀ n, op.inodeNumber = some n → n < 2 ^ 64

/-- A path that the parser takes, and a number exactly where the kind has one. -/
structure TreeOp.WellFormed (op : TreeOp) : Prop where
  nonempty : op.path ≠ []
  nul : 0 ∉ op.path
  noDouble : ¬ [slash, slash] <:+: op.path
  number : op.inodeNumber.isSome = op.kind.hasInodeNumber

/-- The count and the lengths fit their fields. -/
def DeltaArtifact.Fits (artifact : DeltaArtifact) : Prop :=
  artifact.treeOps.length < u32Limit ∧ ∀ op ∈ artifact.treeOps, op.path.length < u32Limit

theorem toSectionBytes_isSome {artifact : DeltaArtifact} :
    artifact.toSectionBytes.isSome ↔ artifact.Fits := by
  unfold DeltaArtifact.toSectionBytes DeltaArtifact.Fits
  rw [Option.isSome_map, writeCounted_isSome]
  refine and_congr_right fun _ => forall₂_congr fun op _ => ?_
  unfold TreeOp.toBytes writePath
  rw [Option.isSome_map]
  by_cases h : op.path.length < u32Limit <;> simp [h]

theorem reads_parseInodeNumber {op : TreeOp} (htyped : op.Typed) (hwf : op.WellFormed) :
    Reads (parseInodeNumber op.kind) ((op.inodeNumber.map (leBytes 8)).getD []) op.inodeNumber := by
  have hnumber := hwf.number
  unfold parseInodeNumber
  cases hn : op.inodeNumber with
  | none =>
      rw [hn, Option.isSome_none] at hnumber
      rw [if_neg (by simp [← hnumber])]
      exact reads_pure none
  | some n =>
      rw [hn, Option.isSome_some] at hnumber
      rw [if_pos hnumber.symm]
      exact (reads_readU64Le (htyped.number n hn)).bind_last (reads_pure (some n))

theorem reads_parseTreeOp (index : Nat) (done : List TreeOp) {op : TreeOp} (htyped : op.Typed)
    (hwf : op.WellFormed) {enc : Bytes} (henc : op.toBytes = some enc) :
    Reads (parseTreeOp index done) enc (done ++ [op]) := by
  obtain ⟨path, hpath, rfl⟩ := Option.map_eq_some_iff.mp henc
  unfold writePath at hpath
  split at hpath
  · next hlen =>
      obtain rfl := Option.some.inj hpath
      have hpos : op.path.length ≠ 0 := fun h => hwf.nonempty (List.length_eq_zero_iff.mp h)
      have hkind : Reads (parseTreeOpKind index op.kind.toByte) [] op.kind := by
        unfold parseTreeOpKind
        rw [TreeOpKind.fromByte_toByte]
        exact reads_pure op.kind
      rw [List.append_assoc, ← List.singleton_append]
      unfold parseTreeOp
      refine (reads_readU8 op.kind.toByte).bind ?_
      refine (reads_ensure op.kind.toByte_ne).bind_nil (hkind.bind_nil ?_)
      refine (reads_readU32Le hlen).bind ((reads_ensure hpos).bind_nil ?_)
      refine (reads_readN rfl).bind ?_
      refine (reads_ensure htyped.utf8).bind_nil ((reads_ensure hwf.nul).bind_nil ?_)
      refine (reads_ensure hwf.noDouble).bind_nil ?_
      exact (reads_parseInodeNumber htyped hwf).bind_last (reads_pure _)
  · cases hpath

theorem toBytes_length {op : TreeOp} (hwf : op.WellFormed) {enc : Bytes}
    (henc : op.toBytes = some enc) : minTreeOpLen ≤ enc.length := by
  obtain ⟨path, hpath, rfl⟩ := Option.map_eq_some_iff.mp henc
  unfold writePath at hpath
  split at hpath
  · obtain rfl := Option.some.inj hpath
    have hpos := List.length_pos_iff.mpr hwf.nonempty
    simp only [List.length_cons, List.length_append, leBytes_length, minTreeOpLen]
    omega
  · cases hpath

/-- **A section of well-formed operations is read back, and not a byte more.** -/
theorem reads_parseDeltaLinkage {artifact : DeltaArtifact}
    (htyped : ∀ op ∈ artifact.treeOps, op.Typed) (hwf : ∀ op ∈ artifact.treeOps, op.WellFormed)
    {bytes : Bytes} (h : artifact.toSectionBytes = some bytes) :
    Reads parseDeltaLinkage bytes ⟨artifact.baseRoot, artifact.treeOps⟩ := by
  obtain ⟨ops, hops, rfl⟩ := Option.map_eq_some_iff.mp h
  unfold writeCounted at hops
  split at hops
  · next hcount =>
      obtain ⟨parts, hparts, rfl⟩ := Option.map_eq_some_iff.mp hops
      have hboth := forall₂_and_mem_left (mapM_some_iff.mp hparts)
      have hlong : artifact.treeOps.length * minTreeOpLen ≤ parts.flatten.length := by
        rw [(mapM_some_iff.mp hparts).length_eq]
        rw [← List.flatMap_id]
        refine flatMap_length_ge parts fun part hpart => ?_
        obtain ⟨op, hop, henc⟩ := exists_mem_of_forall₂ (mapM_some_iff.mp hparts) part hpart
        exact toBytes_length (hwf op hop) henc
      rw [← List.singleton_append]
      unfold parseDeltaLinkage
      refine (reads_readU8 deltaLinkageSectionVersion).bind ?_
      refine (reads_ensure rfl).bind_nil ((reads_readHash artifact.baseRoot).bind ?_)
      refine (reads_readU32Le hcount).bind (Reads.demand ?_ hlong)
      refine Reads.bind_last (x := artifact.treeOps) ?_ (reads_pure _)
      refine reads_loop_each ?_ 0 ([] : List TreeOp)
      refine hboth.flip.imp fun enc op hop index done => ?_
      exact reads_parseTreeOp index done (htyped op hop.2) (hwf op hop.2) hop.1
  · cases hops

/-! ### The operations of the builder -/

/-- What the parser of a directory demands of a name. -/
structure ParsedName (name : Bytes) : Prop where
  component : PathText.IsName slash name
  nul : 0 ∉ name
  text : utf8Valid name = true

structure ParsedEntry (e : DirEntry) : Prop where
  name : ParsedName e.name
  number : e.inodeNumber < 2 ^ 64

theorem parseDirEntry_parsed {index : Nat} {entries entries' : List DirEntry} {bs rest : Bytes}
    (h : parseDirEntry index entries bs = (.ok entries', rest)) (hok : ∀ e ∈ entries, ParsedEntry e) :
    ∀ e ∈ entries', ParsedEntry e := by
  simp only [parseDirEntry, bind_eq_ok, pure_eq_ok, ensure_eq_ok] at h
  obtain ⟨_, _, _, name, _, _, _, _, ⟨hne, rfl⟩, _, _, ⟨hslash, rfl⟩, _, _, ⟨hnul, rfl⟩, _, _,
    ⟨htext, rfl⟩, _, _, ⟨-, rfl⟩, number, _, hnumber, type, _, _, _, _, ⟨-, rfl⟩, rfl, -⟩ := h
  exact forall_mem_snoc hok ⟨⟨⟨hne, hslash⟩, hnul, htext⟩, Cursor.readU64Le_lt hnumber⟩

theorem parseDirectoryNode_parsed {node : DirectoryNode} {bs rest : Bytes}
    (h : parseDirectoryNode bs = (.ok node, rest)) : ∀ e ∈ node.entries, ParsedEntry e := by
  simp only [parseDirectoryNode, bind_eq_ok, pure_eq_ok, ensure_eq_ok] at h
  obtain ⟨_, _, _, _, _, ⟨-, rfl⟩, count, _, _, entries, _, hloop, rfl, -⟩ := h
  exact loop_invariant (I := fun entries => ∀ e ∈ entries, ParsedEntry e)
    (fun _ _ _ _ _ hok hstep => parseDirEntry_parsed hstep hok)
    (fun _ he => absurd he List.not_mem_nil) hloop

theorem parseMetadataBlob_parsed {blob : MetadataBlob} {bs rest : Bytes}
    (h : parseMetadataBlob bs = (.ok blob, rest)) :
    ∀ node ∈ blob.dirNodes, ∀ e ∈ node.entries, ParsedEntry e := by
  simp only [parseMetadataBlob, parseMetadataBlobWithCeiling, bind_eq_ok, pure_eq_ok] at h
  obtain ⟨_, _, _, _, _, _, _, _, _, _, _, _, _, _, _, nodes, _, hnodes, _, _, _, rfl, -⟩ := h
  refine loop_invariant (I := fun nodes => ∀ node ∈ nodes, ∀ e ∈ node.entries, ParsedEntry e)
    (fun _ nodes _ nodes' _ hok hstep => ?_) (fun _ hn => absurd hn List.not_mem_nil) hnodes
  simp only [parseDirNodes, bind_eq_ok, pure_eq_ok] at hstep
  obtain ⟨node, _, hnode, rfl, -⟩ := hstep
  exact forall_mem_snoc hok (parseDirectoryNode_parsed hnode)

/-- A text that was put together from names, one below the other. -/
def NamedPath (text : Bytes) (names : Path) : Prop :=
  (∀ name ∈ names, ParsedName name) ∧ text = names.foldl childPathOf []

theorem NamedPath.below {text name : Bytes} {names : Path} (h : NamedPath text names)
    (hname : ParsedName name) : NamedPath (childPathOf text name) (names ++ [name]) :=
  ⟨forall_mem_snoc h.1 hname, by rw [List.foldl_append, ← h.2]; rfl⟩

theorem utf8Valid_join : ∀ {names : Path}, (∀ name ∈ names, utf8Valid name = true) →
    utf8Valid (PathText.join slash names) = true
  | [], _ => rfl
  | [name], h => h name List.mem_cons_self
  | name :: second :: rest, h => by
      obtain ⟨hname, hrest⟩ := List.forall_mem_cons.mp h
      have hslash : ∀ tail, utf8Valid (slash :: tail) = utf8Valid tail :=
        fun tail => utf8Valid_append (x := [slash]) (by decide) tail
      rw [PathText.join, utf8Valid_append hname, hslash]
      exact utf8Valid_join hrest

theorem NamedPath.op {names : Path} {op : TreeOp} (h : NamedPath op.path names) (hne : names ≠ [])
    (hkind : op.inodeNumber.isSome = op.kind.hasInodeNumber)
    (hnumber : ∀ n, op.inodeNumber = some n → n < 2 ^ 64) : op.Typed ∧ op.WellFormed := by
  obtain ⟨hnames, htext⟩ := h
  have hisName : ∀ name ∈ names, PathText.IsName slash name := fun name hn => (hnames name hn).component
  rw [foldl_childPathOf hisName] at htext
  refine ⟨⟨?_, hnumber⟩, ⟨?_, ?_, ?_, hkind⟩⟩
  · rw [htext]
    exact utf8Valid_join fun name hn => (hnames name hn).text
  · rw [htext]
    exact PathText.join_ne_nil hne fun name hn => (hisName name hn).1
  · rw [htext]
    intro hmem
    rcases PathText.mem_join hmem with hsep | ⟨name, hn, hnul⟩
    · exact absurd hsep (by decide)
    · exact (hnames name hn).nul hnul
  · rw [htext]
    exact PathText.join_no_double hisName

section
variable {H : Hash} {parent child : MetadataBlob}

/-- One entry of the child's directory. -/
theorem diffEntry_ops {descend : Inode → Inode → Bytes → Option (List TreeOp)}
    (hdescend : ∀ p c text names ops, NamedPath text names → descend p c text = some ops →
      ∀ op ∈ ops, op.Typed ∧ op.WellFormed)
    {parentEntries : List (Bytes × Nat)} {text : Bytes} {names : Path} (htext : NamedPath text names)
    {e : DirEntry} (he : ParsedEntry e) {ops : List TreeOp}
    (h : diffEntry parent child descend parentEntries text (e.name, e.inodeNumber) = some ops) :
    ∀ op ∈ ops, op.Typed ∧ op.WellFormed := by
  have hbelow := htext.below he.name
  have hnumber : ∀ n, some e.inodeNumber = some n → n < 2 ^ 64 := by
    rintro n ⟨⟩
    exact he.number
  have hne : names ++ [e.name] ≠ [] := by simp
  unfold diffEntry at h
  split at h
  · obtain rfl := Option.some.inj h
    exact List.forall_mem_singleton.mpr (NamedPath.op hbelow hne rfl hnumber)
  · split at h
    · split at h
      · exact hdescend _ _ _ _ _ hbelow h
      · split at h
        · obtain rfl := Option.some.inj h
          exact List.forall_mem_singleton.mpr (NamedPath.op hbelow hne rfl hnumber)
        · obtain rfl := Option.some.inj h
          exact fun _ hop => absurd hop List.not_mem_nil
    · obtain rfl := Option.some.inj h
      exact fun _ hop => absurd hop List.not_mem_nil

variable (hp : parent.WellFormed) (hc : child.WellFormed)
  (pparsed : ∀ node ∈ parent.dirNodes, ∀ e ∈ node.entries, ParsedEntry e)
  (cparsed : ∀ node ∈ child.dirNodes, ∀ e ∈ node.entries, ParsedEntry e)
include hp hc pparsed cparsed

/-- **Every operation of the walk is well-formed.** -/
theorem diffDirectory_ops : ∀ (fuel : Nat) (p c : Inode) (text : Bytes) (names : Path)
    (ops : List TreeOp), NamedPath text names →
    diffDirectory H parent child fuel p c text = some ops → ∀ op ∈ ops, op.Typed ∧ op.WellFormed := by
  intro fuel
  induction fuel with
  | zero =>
      intro p c text names ops _ h
      cases h
  | succ fuel ih =>
      intro p c text names ops htext h
      unfold diffDirectory at h
      split at h
      · split at h
        · next pNode cNode hpNode hcNode =>
            have hpMem := dirNodeByHash_mem hpNode
            have hcMem := dirNodeByHash_mem hcNode
            simp only [Option.bind_eq_bind, Option.bind_eq_some_iff,
              entryMap_eq (hp.names pNode hpMem), entryMap_eq (hc.names cNode hcMem)] at h
            obtain ⟨parts, hparts, hops⟩ := h
            obtain rfl := Option.some.inj hops
            intro op hop
            rcases List.mem_append.mp hop with hdiff | hremoved
            · obtain ⟨part, hpart, hop⟩ := List.mem_flatten.mp hdiff
              obtain ⟨entry, hentry, hsome⟩ :=
                exists_mem_of_forall₂ (mapM_some_iff.mp hparts) part hpart
              obtain ⟨e, he, rfl⟩ := List.mem_map.mp hentry
              exact diffEntry_ops ih htext (cparsed cNode hcMem e he) hsome op hop
            · obtain ⟨entry, hentry, rfl⟩ := List.mem_map.mp hremoved
              obtain ⟨e, he, rfl⟩ := List.mem_map.mp (List.mem_filter.mp hentry).1
              have hname := (pparsed pNode hpMem e he).name
              exact NamedPath.op (htext.below hname) (by simp) rfl (fun n hn => by cases hn)
        · obtain rfl := Option.some.inj h
          exact fun _ hop => absurd hop List.not_mem_nil
      · obtain rfl := Option.some.inj h
        exact fun _ hop => absurd hop List.not_mem_nil

end

theorem loadImage_parsed {H : Hash} {z : Omnizip} {bytes : Bytes} {image : Loaded}
    (h : loadImage H z bytes = .ok image) :
    ∀ node ∈ image.blob.dirNodes, ∀ e ∈ node.entries, ParsedEntry e := by
  obtain ⟨⟨_, _, hblob⟩, -⟩ := loadImage_blob h
  exact parseMetadataBlob_parsed hblob

/-- **Operations with well-formed paths, and a number where the kind has one, are read back from
their section, and those of a computed delta are such operations.** -/
theorem delta_linkage_round_trip :
    (∀ artifact : DeltaArtifact, (∀ op ∈ artifact.treeOps, op.Typed ∧ op.WellFormed) →
      artifact.Fits → ∃ bytes, artifact.toSectionBytes = some bytes ∧
        ∀ rest, parseDeltaLinkage (bytes ++ rest) =
          (.ok ⟨artifact.baseRoot, artifact.treeOps⟩, rest)) ∧
    ∀ (H : Hash) (z : Omnizip) (parentBytes childBytes : Bytes) (artifact : DeltaArtifact),
      computeDeltaFromBytes H z parentBytes childBytes = .ok (some artifact) →
      ∀ op ∈ artifact.treeOps, op.Typed ∧ op.WellFormed := by
  refine ⟨fun artifact hops hfits => ?_, fun H z parentBytes childBytes artifact h => ?_⟩
  · obtain ⟨bytes, hbytes⟩ := Option.isSome_iff_exists.mp (toSectionBytes_isSome.mpr hfits)
    exact ⟨bytes, hbytes, reads_parseDeltaLinkage (fun op hop => (hops op hop).1)
      (fun op hop => (hops op hop).2) hbytes⟩
  · simp only [computeDeltaFromBytes, except_bind_eq_ok] at h
    obtain ⟨parent, hparent, child, hchild, h⟩ := h
    have hdelta : deltaOf H parent child = some artifact := Except.ok.inj h
    simp only [deltaOf, Option.bind_eq_bind, Option.bind_eq_some_iff] at hdelta
    obtain ⟨p, -, c, -, ops, hops, hartifact⟩ := hdelta
    obtain rfl := Option.some.inj hartifact
    intro op hop
    have hmem : op ∈ ops := List.mem_mergeSort.mp hop
    exact diffDirectory_ops (loadImage_wellFormed hparent).1 (loadImage_wellFormed hchild).1
      (loadImage_parsed hparent) (loadImage_parsed hchild) _ p c [] [] ops
      ⟨fun _ hn => absurd hn List.not_mem_nil, rfl⟩ hops op hmem

/-- A path of four gibibytes does not fit the field of its length. -/
theorem long_path_panics :
    ∃ artifact : DeltaArtifact,
      artifact.treeOps = [⟨.add, List.replicate u32Limit 0x61, some 0⟩] ∧
      (∀ op ∈ artifact.treeOps, op.Typed ∧ op.WellFormed) ∧ artifact.toSectionBytes = none := by
  have hmem : ∀ b ∈ List.replicate u32Limit (0x61 : UInt8), b = 0x61 :=
    fun b hb => List.eq_of_mem_replicate hb
  refine ⟨⟨[⟨.add, List.replicate u32Limit 0x61, some 0⟩], LimniFS.Stored.foldDigest []⟩, rfl, ?_, ?_⟩
  · refine List.forall_mem_singleton.mpr ⟨⟨?_, ?_⟩, ⟨?_, ?_, ?_, rfl⟩⟩
    · exact utf8Valid_ascii fun b hb => by rw [hmem b hb]; decide
    · rintro n ⟨⟩
      decide
    · exact fun h => absurd (congrArg List.length h) (by rw [List.length_replicate]; decide)
    · exact fun h => absurd (hmem 0 h) (by decide)
    · exact fun h => absurd (hmem slash (h.subset List.mem_cons_self)) (by decide)
  · rw [← Option.not_isSome_iff_eq_none, toSectionBytes_isSome]
    intro hfits
    have hlen := hfits.2 _ List.mem_cons_self
    rw [List.length_replicate] at hlen
    exact Nat.lt_irrefl _ hlen

open LimniFS.Stored LimniFS.DeltaBuilder.Stored

/-- A file where the other image has a directory is replaced. -/
theorem delta_linkage_round_trip_replaced :
    ∃ artifact : DeltaArtifact,
      computeDeltaFromBytes foldDigest omnizip loopManifest
        (windowImage 0) = .ok (some artifact) ∧
      artifact.treeOps = [⟨.replace, ascii "a", some 1⟩] ∧
      (∀ op ∈ artifact.treeOps, op.Typed ∧ op.WellFormed) ∧
      ∃ bytes, artifact.toSectionBytes = some bytes ∧
        ∀ rest, parseDeltaLinkage (bytes ++ rest) =
          (.ok ⟨artifact.baseRoot, artifact.treeOps⟩, rest) := by
  have hcompute : computeDeltaFromBytes foldDigest omnizip
      loopManifest (windowImage 0) =
        .ok (some ⟨[⟨.replace, ascii "a", some 1⟩], loopLoaded.merkleRoot⟩) := by
    decide +kernel
  have hops := delta_linkage_round_trip.2 _ _ _ _ _ hcompute
  exact ⟨_, hcompute, rfl, hops, delta_linkage_round_trip.1 _ hops
    ⟨by simp [u32Limit], List.forall_mem_singleton.mpr (by decide)⟩⟩

end LimniFS.DeltaBuilder
