/-
The bytes of directory nodes.

A directory is found by the hash of its entries encoded again, not by the hash of the bytes they
were read from.  There is only one way to write a list of entries down, so the two are the same:
whatever the parser accepts is the encoding of what it returns (`parseDirectoryNode_eq_ok`).
-/
import LimniFS.MetadataRoundTrip
import LimniFS.ParsedMetadata

namespace LimniFS

open Lib Lib.Parser Cursor

/-- The bytes of one entry. -/
def dirEntryBytes (e : DirEntry) : Bytes :=
  leBytes 4 e.name.length ++ e.name ++ leBytes 8 e.inodeNumber ++ [e.entryType]

theorem dirNodeBytes_eq (entries : List DirEntry) :
    dirNodeBytes entries = [1] ++ leBytes 4 entries.length ++ entries.flatMap dirEntryBytes := rfl

/-- The counts in front of the entries and the names fit their fields. -/
structure EntriesFit (entries : List DirEntry) : Prop where
  count : entries.length < u32Limit
  names : ∀ e ∈ entries, e.name.length < u32Limit

/-! ### One entry -/

/-- **An entry is read off its bytes, and off nothing else.** -/
theorem parseDirEntry_ok {index : Nat} {done entries : List DirEntry} {bs rest : Bytes}
    (h : parseDirEntry index done bs = (.ok entries, rest)) :
    ∃ e : DirEntry, entries = done ++ [e] ∧ e.Valid ∧ e.name.length < u32Limit ∧
      sortedAfter done e.name ∧ bs = dirEntryBytes e ++ rest := by
  simp only [parseDirEntry, bind_eq_ok, pure_eq_ok, ensure_eq_ok, readU32Le_eq_ok, readN_eq_ok,
    readU64Le_eq_ok, readU8_eq_ok] at h
  obtain ⟨len, _, ⟨hlen, rfl⟩, name, _, ⟨rfl, rfl⟩, _, _, ⟨hne, rfl⟩, _, _, ⟨hslash, rfl⟩, _, _,
    ⟨hnul, rfl⟩, _, _, ⟨hutf, rfl⟩, _, _, ⟨hsorted, rfl⟩, number, _, ⟨hnumber, rfl⟩, type, _, rfl, _,
    _, ⟨htype, rfl⟩, rfl, rfl⟩ := h
  refine ⟨⟨name, number, type⟩, rfl, ⟨hne, hslash, hnul, hutf, hnumber, htype⟩, hlen, hsorted, ?_⟩
  simp only [dirEntryBytes, List.append_assoc]

/-! ### The loop over the entries -/

theorem dirEntries_ok : ∀ (n : Nat) {index : Nat} {done entries : List DirEntry} {bs rest : Bytes},
    (∀ e ∈ done, e.Valid) → NamesOK done →
    loop parseDirEntry n index done bs = (.ok entries, rest) →
    ∃ more, entries = done ++ more ∧ more.length = n ∧ EntriesValid entries ∧
      (∀ e ∈ more, e.name.length < u32Limit) ∧ bs = more.flatMap dirEntryBytes ++ rest := by
  intro n
  induction n with
  | zero =>
      intro index done entries bs rest heach hnames h
      obtain ⟨rfl, rfl⟩ := pure_eq_ok.mp h
      exact ⟨[], (List.append_nil _).symm, rfl, ⟨heach, hnames.sorted⟩, by simp, rfl⟩
  | succ n ih =>
      intro index done entries bs rest heach hnames h
      obtain ⟨next, mid, hentry, hrest⟩ := bind_eq_ok.mp h
      obtain ⟨e, rfl, hvalid, hlen, hafter, rfl⟩ := parseDirEntry_ok hentry
      obtain ⟨more, rfl, hmore, hall, hlens, rfl⟩ := ih (forall_mem_snoc heach hvalid)
        (hnames.append ⟨hvalid.nonempty, hvalid.noSlash⟩ hvalid.utf8 hafter) hrest
      refine ⟨e :: more, by rw [List.append_assoc]; rfl, by rw [List.length_cons, hmore], hall,
        List.forall_mem_cons.mpr ⟨hlen, hlens⟩, ?_⟩
      rw [List.flatMap_cons, List.append_assoc]

theorem encodeDirNode_of_fit {H : Hash} {entries : List DirEntry} (h : EntriesFit entries) :
    encodeDirNode H entries = some ⟨entries, dirNodeBytes entries, dirNodeHash H entries⟩ := by
  have hnames : (entries.mapM fun e => u32Bytes e.name.length).isSome := by
    rw [mapM_isSome_iff]
    intro e he
    unfold u32Bytes
    rw [if_pos (h.names e he)]
    rfl
  obtain ⟨names, hnames⟩ := Option.isSome_iff_exists.mp hnames
  unfold encodeDirNode u32Bytes
  unfold u32Bytes at hnames
  rw [if_pos h.count, hnames]
  rfl

/-- **A directory node is accepted exactly where its encoding stands.** -/
theorem parseDirectoryNode_eq_ok {node : DirectoryNode} {bs rest : Bytes} :
    parseDirectoryNode bs = (.ok node, rest) ↔ node.version = directoryNodeVersion ∧
      EntriesValid node.entries ∧ EntriesFit node.entries ∧
      bs = dirNodeBytes node.entries ++ rest := by
  constructor
  · intro h
    simp only [parseDirectoryNode, bind_eq_ok, pure_eq_ok, ensure_eq_ok, readU32Le_eq_ok,
      readU8_eq_ok] at h
    obtain ⟨version, _, rfl, _, _, ⟨rfl, rfl⟩, count, _, ⟨hcount, rfl⟩, entries, _, hloop, rfl, rfl⟩ := h
    obtain ⟨more, rfl, rfl, hvalid, hlens, rfl⟩ :=
      dirEntries_ok count (by simp) ⟨.nil, by simp, by simp⟩ hloop
    refine ⟨rfl, hvalid, ⟨hcount, hlens⟩, ?_⟩
    rw [dirNodeBytes_eq, List.append_assoc, List.append_assoc]
    rfl
  · rintro ⟨hversion, hvalid, hfit, rfl⟩
    let H : Hash := fun _ => ⟨List.replicate 32 0, List.length_replicate⟩
    let encoded : DirNode := ⟨node.entries, dirNodeBytes node.entries, dirNodeHash H node.entries⟩
    have hencoded : encodeDirNode H encoded.entries = some encoded := encodeDirNode_of_fit hfit
    have hread := reads_parseDirectoryNode hencoded hvalid rest
    rwa [← hversion] at hread

/-! ### Nodes out of order -/

/-- A directory node, read without a check. -/
def readDirEntries : CoreParser (List DirEntry) := do
  let _ ← readU8
  let count ← readU32Le
  loop (fun _ done => do
    let len ← readU32Le
    let name ← readN len
    let number ← readU64Le
    let type ← readU8
    pure (done ++ [(⟨name, number, type⟩ : DirEntry)])) count 0 []

theorem reads_readDirEntries {entries : List DirEntry} (hfit : EntriesFit entries)
    (hnumbers : ∀ e ∈ entries, e.inodeNumber < 2 ^ 64) :
    Reads readDirEntries (dirNodeBytes entries) entries := by
  rw [dirNodeBytes_eq, List.append_assoc]
  unfold readDirEntries
  refine (reads_readU8 1).bind ?_
  refine (reads_readU32Le hfit.count).bind ?_
  refine reads_loop entries [] 0 fun before e after heq => ?_
  have hmem : e ∈ entries := by
    rw [heq]
    exact List.mem_append_right _ List.mem_cons_self
  simp only [dirEntryBytes, List.append_assoc]
  refine (reads_readU32Le (hfit.names e hmem)).bind ?_
  refine (reads_readN rfl).bind ?_
  refine (reads_readU64Le (hnumbers e hmem)).bind ?_
  exact (reads_readU8 e.entryType).map fun type =>
    ([] ++ before) ++ [(⟨e.name, e.inodeNumber, type⟩ : DirEntry)]

/-- **Bytes stand for one list of entries**, in order or not. -/
theorem dirNodeBytes_inj {entries entries' : List DirEntry} {rest rest' : Bytes}
    (hfit : EntriesFit entries) (hnumbers : ∀ e ∈ entries, e.inodeNumber < 2 ^ 64)
    (hfit' : EntriesFit entries') (hnumbers' : ∀ e ∈ entries', e.inodeNumber < 2 ^ 64)
    (h : dirNodeBytes entries ++ rest = dirNodeBytes entries' ++ rest') :
    entries = entries' ∧ rest = rest' :=
  ((reads_readDirEntries hfit hnumbers).det (reads_readDirEntries hfit' hnumbers') h).2

/-- Where nodes are accepted, those that were written are in order. -/
theorem entriesValid_of_dirNodes {H : Hash} : ∀ (nodes : List DirNode) {index : Nat}
    {done out : List DirectoryNode} {tail rest : Bytes},
    (∀ node ∈ nodes, encodeDirNode H node.entries = some node ∧
      ∀ e ∈ node.entries, e.inodeNumber < 2 ^ 64) →
    loop parseDirNodes nodes.length index done (nodes.flatMap (·.bytes) ++ tail) = (.ok out, rest) →
    ∀ node ∈ nodes, EntriesValid node.entries := by
  intro nodes
  induction nodes with
  | nil =>
      intro index done out tail rest _ _ node hnode
      cases hnode
  | cons first more ih =>
      intro index done out tail rest hnodes h
      obtain ⟨⟨hencode, hnumbers⟩, hmore⟩ := List.forall_mem_cons.mp hnodes
      obtain ⟨heq, hcount, hnames⟩ := encodeDirNode_some hencode
      obtain ⟨next, mid, hnode, hrest⟩ := bind_eq_ok.mp h
      obtain ⟨node, _, hparse, hpure⟩ := bind_eq_ok.mp hnode
      obtain ⟨rfl, rfl⟩ := pure_eq_ok.mp hpure
      obtain ⟨-, hvalid, hfit, hbytes⟩ := parseDirectoryNode_eq_ok.mp hparse
      rw [List.flatMap_cons, List.append_assoc, show first.bytes = dirNodeBytes first.entries by
        rw [heq]] at hbytes
      obtain ⟨hsame, rfl⟩ := dirNodeBytes_inj ⟨hcount, hnames⟩ hnumbers hfit
        (fun e he => (hvalid.each e he).number) hbytes
      exact List.forall_mem_cons.mpr ⟨hsame ▸ hvalid, ih hmore hrest⟩

/-! ### Inodes stand in front of what follows them -/

theorem framed_parseXattr (index : Nat) (xattrs : List XAttr) : Framed 0 (parseXattr index xattrs) :=
  framed_readU8.bind_zero fun _ => framed_ensure.bind_zero fun _ => framed_readU32Le.bind_zero fun n =>
    (framed_readN n).bind_zero fun _ => framed_ensure.bind_zero fun _ => framed_ensure.bind_zero fun _ =>
    framed_readU32Le.bind_zero fun n => (framed_readN n).bind_zero fun _ => framed_pure _

theorem framed_parseSliceRef (number index : Nat) (slices : List SliceRef) :
    Framed 0 (parseSliceRef number index slices) := by
  refine framed_readU64Le.bind_zero fun start => framed_readU64Le.bind_zero fun stop => ?_
  split
  · exact framed_readHash.bind_zero fun _ => framed_readU32Le.bind_zero fun _ =>
      framed_readU32Le.bind_zero fun _ => framed_pure _
  · exact framed_fail

theorem framed_loop {σ : Type} {body : Nat → σ → CoreParser σ} (h : ∀ i s, Framed 0 (body i s))
    (n i : Nat) (s : σ) : Framed 0 (loop body n i s) :=
  (Framed.loop h n i s).weaken (Nat.zero_le _)

theorem framed_parseContentHandle (mode : Nat) (flags : UInt8) (number maxInlineBytes : Nat) :
    Framed 0 (parseContentHandle mode flags number maxInlineBytes) := by
  refine Framed.ite (Framed.ite ?_ (Framed.ite ?_ ?_)) (Framed.ite ?_ (Framed.ite ?_
    (Framed.ite ?_ (Framed.ite ?_ framed_fail))))
  · exact framed_readU32Le.bind_zero fun _ => framed_pure _
  · exact framed_readU32Le.bind_zero fun n => framed_ensure.bind_zero fun _ =>
      (framed_readN n).bind_zero fun _ => framed_pure _
  · exact framed_readU32Le.bind_zero fun n =>
      (framed_loop (framed_parseSliceRef number) n 0 []).bind_zero fun _ =>
      (framed_liftExcept _).bind_zero fun _ => framed_pure _
  · exact framed_readHash.bind_zero fun _ => framed_pure _
  · exact framed_readU32Le.bind_zero fun n => (framed_readN n).bind_zero fun _ =>
      framed_ensure.bind_zero fun _ => framed_pure _
  · exact framed_readU64Le.bind_zero fun _ => framed_pure _
  · exact framed_readU64Le.bind_zero fun _ => framed_pure _

theorem framed_parseInode (maxInlineBytes : Nat) : Framed 0 (parseInodeWithCeiling maxInlineBytes) := by
  refine framed_readU64Le.bind_zero fun number => framed_readU32Le.bind_zero fun mode =>
    framed_readU32Le.bind_zero fun _ => framed_readU32Le.bind_zero fun _ =>
    framed_readU64Le.bind_zero fun _ => framed_readU64Le.bind_zero fun _ =>
    framed_readU32Le.bind_zero fun _ => framed_readU8.bind_zero fun flags =>
    framed_ensure.bind_zero fun _ => ?_
  have hatime : Framed 0 (some <$> readU64Le : CoreParser (Option Nat)) :=
    framed_readU64Le.bind_zero fun _ => framed_pure _
  have hxattrs : Framed 0 parseXattrBlock :=
    framed_readU32Le.bind_zero fun n => framed_loop framed_parseXattr n 0 []
  -- the optional fields sit outside the sequence, one branch each
  refine Framed.ite (hatime.bind_zero fun _ => ?_) ((framed_pure _).bind_zero fun _ => ?_)
  all_goals
    refine Framed.ite (hxattrs.bind_zero fun _ => ?_) ((framed_pure _).bind_zero fun _ => ?_)
  all_goals
    exact (framed_parseContentHandle _ _ _ _).bind_zero fun _ => framed_pure _

theorem framed_parseInodes (maxInlineBytes index : Nat) (inodes : List Inode) :
    Framed 0 (parseInodes maxInlineBytes index inodes) :=
  (framed_parseInode maxInlineBytes).bind_zero fun _ => framed_pure _

/-! ### Nodes of a blob -/

theorem dirNodes_ok : ∀ (n : Nat) {index : Nat} {done nodes : List DirectoryNode} {bs rest : Bytes},
    loop parseDirNodes n index done bs = (.ok nodes, rest) →
    ∃ wires more, nodes = done ++ more ∧ bs = wires.flatten ++ rest ∧
      List.Forall₂ (fun wire node => parseDirectoryNode wire = (.ok node, [])) wires more := by
  intro n
  induction n with
  | zero =>
      intro index done nodes bs rest h
      obtain ⟨rfl, rfl⟩ := pure_eq_ok.mp h
      exact ⟨[], [], (List.append_nil _).symm, rfl, .nil⟩
  | succ n ih =>
      intro index done nodes bs rest h
      obtain ⟨next, mid, hnode, hrest⟩ := bind_eq_ok.mp h
      obtain ⟨node, _, hparse, hpure⟩ := bind_eq_ok.mp hnode
      obtain ⟨rfl, rfl⟩ := pure_eq_ok.mp hpure
      obtain ⟨wires, more, rfl, rfl, hall⟩ := ih hrest
      obtain ⟨hversion, hvalid, hfit, rfl⟩ := parseDirectoryNode_eq_ok.mp hparse
      refine ⟨dirNodeBytes node.entries :: wires, node :: more, by rw [List.append_assoc]; rfl, ?_,
        .cons ?_ hall⟩
      · rw [List.flatten_cons, List.append_assoc]
      · exact parseDirectoryNode_eq_ok.mpr ⟨hversion, hvalid, hfit, (List.append_nil _).symm⟩

/-- The directory nodes of a blob stand one behind the other in its bytes. -/
theorem parseMetadataBlob_dirNodes {maxInlineBytes : Nat} {blob : MetadataBlob} {bs rest : Bytes}
    (h : parseMetadataBlobWithCeiling maxInlineBytes bs = (.ok blob, rest)) :
    ∃ wires : List Bytes, wires.flatten <:+: bs ∧
      List.Forall₂ (fun wire node => parseDirectoryNode wire = (.ok node, [])) wires blob.dirNodes := by
  simp only [parseMetadataBlobWithCeiling, bind_eq_ok, pure_eq_ok, readU32Le_eq_ok] at h
  obtain ⟨inodeCount, _, ⟨-, rfl⟩, _, _, hdemand, inodes, _, hinodes, nodeCount, _, ⟨-, rfl⟩, _, _,
    hdemand', nodes, back, hnodes, _, _, -, rfl, -⟩ := h
  obtain ⟨front, hfront, -, -⟩ := framed_loop (framed_parseInodes maxInlineBytes) _ 0 [] _ _ _ hinodes
  obtain ⟨wires, more, rfl, hback, hall⟩ := dirNodes_ok _ hnodes
  have hsame : ∀ {n : Nat} {u : Unit} {b c : Bytes}, demandLeft n b = (.ok u, c) → b = c := by
    intro n u b c h
    exact (Prod.mk.inj h).2
  obtain rfl := hsame hdemand
  obtain rfl := hsame hdemand'
  refine ⟨wires, ⟨leBytes 4 inodeCount ++ front ++ leBytes 4 nodeCount, back, ?_⟩, hall⟩
  rw [hfront, hback]
  simp only [List.append_assoc]

theorem dirNodeByHash_of_wire {H : Hash} {blob : MetadataBlob} {node : DirectoryNode} {wire : Bytes}
    (hnode : node ∈ blob.dirNodes) (hwire : parseDirectoryNode wire = (.ok node, [])) :
    ∃ found ∈ blob.dirNodes, blob.dirNodeByHash H (H wire) = some found ∧
      dirNodeHash H found.entries = H wire := by
  obtain ⟨-, -, -, hbytes⟩ := parseDirectoryNode_eq_ok.mp hwire
  rw [List.append_nil] at hbytes
  have hsome : (blob.dirNodeByHash H (H wire)).isSome := by
    unfold MetadataBlob.dirNodeByHash
    rw [List.find?_isSome]
    exact ⟨node, hnode, by rw [hbytes]; exact beq_self_eq_true _⟩
  obtain ⟨found, hfound⟩ := Option.isSome_iff_exists.mp hsome
  have hfind : blob.dirNodes.find? (fun n => dirNodeHash H n.entries == H wire) = some found := hfound
  exact ⟨found, List.mem_of_find?_eq_some hfind, hfound, by simpa using List.find?_some hfind⟩

/-- **Directory nodes are canonical**: what is accepted is the one encoding of sorted entries with
proper names, the encoding of such entries is accepted, and every node of a blob is found under
the hash of the bytes it was read from. -/
theorem dirNode_canonical (H : Hash) :
    (∀ bs node rest, parseDirectoryNode bs = (.ok node, rest) →
      EntriesValid node.entries ∧ EntriesFit node.entries ∧
      ∃ used, bs = used ++ rest ∧ used = dirNodeBytes node.entries ∧
        dirNodeHash H node.entries = H used) ∧
    (∀ entries, EntriesValid entries → EntriesFit entries → ∀ rest,
      parseDirectoryNode (dirNodeBytes entries ++ rest)
        = (.ok ⟨directoryNodeVersion, entries⟩, rest)) ∧
    (∀ maxInlineBytes bs blob rest,
      parseMetadataBlobWithCeiling maxInlineBytes bs = (.ok blob, rest) →
      ∃ wires : List Bytes, wires.flatten <:+: bs ∧
        List.Forall₂ (fun wire node => parseDirectoryNode wire = (.ok node, [])) wires blob.dirNodes ∧
        ∀ wire ∈ wires, ∃ found ∈ blob.dirNodes, blob.dirNodeByHash H (H wire) = some found ∧
          dirNodeHash H found.entries = H wire) := by
  refine ⟨?_, ?_, ?_⟩
  · intro bs node rest h
    obtain ⟨-, hvalid, hfit, hbytes⟩ := parseDirectoryNode_eq_ok.mp h
    exact ⟨hvalid, hfit, _, hbytes, rfl, rfl⟩
  · intro entries hvalid hfit rest
    exact parseDirectoryNode_eq_ok.mpr ⟨rfl, hvalid, hfit, rfl⟩
  · intro maxInlineBytes bs blob rest h
    obtain ⟨wires, hinfix, hall⟩ := parseMetadataBlob_dirNodes h
    refine ⟨wires, hinfix, hall, ?_⟩
    intro wire hwire
    obtain ⟨node, hnode, hparse⟩ := exists_mem_of_forall₂ hall.flip wire hwire
    exact dirNodeByHash_of_wire hnode hparse

end LimniFS
