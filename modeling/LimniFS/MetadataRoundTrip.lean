/-
What the metadata blob gives back.

The encoder lays inodes, directory nodes and the table of shared contents one after
another without anything between them, and the table is there only if something is
shared; the reader finds its way by the counts and the bytes that are left.

From a coherent context the reader gets every inode back with its content, and every
directory under its hash (`metadata_round_trip`).
-/
import LimniFS.MetadataEncoding

namespace LimniFS

open Lib Lib.Parser Cursor

section

variable {H : Hash} {ctx : WriteContext}

/-! ### Directory nodes -/

theorem reads_parseDirEntry {e : DirEntry} (he : e.Valid) (hlen : e.name.length < u32Limit)
    {done : List DirEntry} (hsorted : sortedAfter done e.name) (index : Nat) :
    Reads (parseDirEntry index done)
      (leBytes 4 e.name.length ++ e.name ++ leBytes 8 e.inodeNumber ++ [e.entryType])
      (done ++ [e]) := by
  simp only [List.append_assoc]
  unfold parseDirEntry
  refine (reads_readU32Le hlen).bind ?_
  refine (reads_readN rfl).bind ?_
  refine (reads_ensure he.nonempty).bind_nil ?_
  refine (reads_ensure he.noSlash).bind_nil ?_
  refine (reads_ensure he.noNul).bind_nil ?_
  refine (reads_ensure he.utf8).bind_nil ?_
  refine (reads_ensure hsorted).bind_nil ?_
  refine (reads_readU64Le he.number).bind ?_
  refine Reads.bind_last (reads_readU8 _) ?_
  exact (reads_ensure he.type).bind_nil (reads_pure _)

/-- **A directory node is read back.** -/
theorem reads_parseDirectoryNode {node : DirNode} (h : encodeDirNode H node.entries = some node)
    (hvalid : EntriesValid node.entries) :
    Reads parseDirectoryNode node.bytes ⟨directoryNodeVersion, node.entries⟩ := by
  obtain ⟨hnode, hcount, hnames⟩ := encodeDirNode_some h
  have hbytes : node.bytes = dirNodeBytes node.entries := by
    rw [hnode]
  rw [hbytes]
  unfold dirNodeBytes
  rw [List.append_assoc]
  refine (reads_readU8 1).bind ?_
  refine (reads_ensure rfl).bind_nil ?_
  refine (reads_readU32Le hcount).bind ?_
  have hloop : Reads (loop parseDirEntry node.entries.length 0 [])
      (node.entries.flatMap fun e => leBytes 4 e.name.length ++ e.name
        ++ leBytes 8 e.inodeNumber ++ [e.entryType]) ([] ++ node.entries) := by
    refine reads_loop node.entries [] 0 ?_
    intro before e after heq
    have hmem : e ∈ node.entries := by
      rw [heq]
      exact List.mem_append_right _ List.mem_cons_self
    refine reads_parseDirEntry (hvalid.each e hmem) (hnames e hmem) ?_ _
    intro prev hprev
    have hsorted := hvalid.sorted
    rw [heq, List.pairwise_append] at hsorted
    exact hsorted.2.2 prev (List.mem_of_getLast? hprev) e List.mem_cons_self
  exact hloop.map fun entries => (⟨directoryNodeVersion, entries⟩ : DirectoryNode)

/-! ### The shared table -/

theorem ContentReturned.not_shared {content : PendingContent} {handle : ContentHandle}
    (h : ContentReturned H content handle) (index : Nat) : handle ≠ .sharedInline index := by
  rintro rfl
  cases content <;> exact h

/-- A reference leads to its content, and everything else stays. -/
theorem resolve_returned {table : List Bytes} {inode : PendingInode} {got : Inode}
    (h : InodeReturned (ContentOnWire H table) ctx inode got) :
    ∃ resolved, resolveSharedInline table got = .ok resolved ∧
      InodeReturned (ContentReturned H) ctx inode resolved := by
  unfold resolveSharedInline
  rcases h.content with hplain | ⟨data, index, hdata, hhandle, hget⟩
  · refine ⟨got, ?_, { h with content := hplain }⟩
    split
    · next index hshared => exact absurd hshared (hplain.not_shared index)
    · rfl
  · refine ⟨{ got with contentHandle := .inlineData data }, ?_, { h with content := ?_ }⟩
    · simp only [hhandle, hget]
    · rw [hdata]
      rfl

theorem returned_of_nil {inode : PendingInode} {got : Inode}
    (h : InodeReturned (ContentOnWire H []) ctx inode got) :
    InodeReturned (ContentReturned H) ctx inode got := by
  rcases h.content with hplain | ⟨data, index, -, -, hget⟩
  · exact { h with content := hplain }
  · cases hget

/-- **The table is read, and every reference resolved.** -/
theorem parseSharedTable_apply {maxInlineBytes : Nat} {shared : Bytes} {gots : List Inode}
    (henc : ctx.encodeSharedTable H = some shared)
    (hshort : ∀ d ∈ ctx.sharedInlineTable H, d.length ≤ maxInlineBytes)
    (hgots : List.Forall₂ (InodeReturned (ContentOnWire H (ctx.sharedInlineTable H)) ctx)
      ctx.inodes gots) :
    ∃ resolved, List.Forall₂ (InodeReturned (ContentReturned H) ctx) ctx.inodes resolved ∧
      parseSharedTable maxInlineBytes gots shared = (.ok resolved, []) := by
  unfold WriteContext.encodeSharedTable at henc
  by_cases hnone : ctx.sharedInlineTable H = []
  · rw [if_pos hnone] at henc
    cases henc
    rw [hnone] at hgots
    exact ⟨gots, hgots.imp fun _ _ => returned_of_nil, rfl⟩
  · rw [if_neg hnone] at henc
    simp only [Option.bind_eq_bind, Option.bind_eq_some_iff, Option.pure_def, Option.some.injEq,
      u32Bytes_eq_some] at henc
    obtain ⟨_, ⟨hcount, rfl⟩, encs, hencs, rfl⟩ := henc
    obtain ⟨resolved, hresolved, hall⟩ :=
      exists_forall₂_of_forall₂ hgots fun _ _ h => resolve_returned h
    have heach : List.Forall₂ (fun enc d => ∀ i done,
        Reads (parseSharedInline maxInlineBytes i done) enc (done ++ [d])) encs
        (ctx.sharedInlineTable H) := by
      refine ((forall₂_and_mem_left (mapM_some_iff.mp hencs)).flip).imp ?_
      rintro enc d ⟨hd, hmem⟩ i done
      obtain ⟨hlen, rfl⟩ := sizedBytes_eq_some.mp hd
      unfold parseSharedInline
      refine (reads_readU32Le hlen).bind ?_
      refine (reads_ensure (hshort d hmem)).bind_nil ?_
      exact (reads_readN rfl).map fun data => done ++ [data]
    refine ⟨resolved, hall, ?_⟩
    unfold parseSharedTable
    rw [if_pos (by simp), ← List.append_nil (leBytes 4 _ ++ encs.flatten), List.append_assoc]
    refine ((reads_readU32Le hcount).bind_append _).trans ?_
    refine ((reads_loop_each heach 0 []).bind_append []).trans ?_
    exact reads_liftExcept (mapM_ok_iff.mpr hresolved) []

/-! ### The blob -/

theorem encodeInode_length {inode : PendingInode} {enc : Bytes}
    (henc : ctx.encodeInode H inode = some enc) : inodeFixedPrefixLen + 1 ≤ enc.length := by
  simp only [WriteContext.encodeInode, Option.bind_eq_bind, Option.bind_eq_some_iff,
    Option.pure_def, Option.some.injEq] at henc
  obtain ⟨content, hcontent, rfl⟩ := henc
  obtain ⟨base, flags, body, -, hbody, hflags, rfl⟩ := encodeContent_parts hcontent
  have hflag : 1 ≤ flags.length := by
    unfold flagsAndXattrs at hflags
    split at hflags
    · cases hflags
      simp
    · simp only [Option.bind_eq_bind, Option.bind_eq_some_iff, Option.pure_def,
        Option.some.injEq] at hflags
      obtain ⟨_, -, _, -, rfl⟩ := hflags
      simp
  have hbody4 : 4 ≤ body.length := by
    generalize inode.content = content at hbody
    cases hbody with
    | shared => simp
    | inline => simp
    | dropBacked => simp
    | symlink => simp
    | @directory entries node h =>
        rw [node.hash.2]
        decide
  simp only [List.length_append, leBytes_length, inodeFixedPrefixLen]
  omega

theorem sharedInlineTable_length {shared : Bytes} (henc : ctx.encodeSharedTable H = some shared) :
    (ctx.sharedInlineTable H).length < u32Limit := by
  unfold WriteContext.encodeSharedTable at henc
  by_cases hnone : ctx.sharedInlineTable H = []
  · rw [hnone]
    decide
  · rw [if_neg hnone] at henc
    simp only [Option.bind_eq_bind, Option.bind_eq_some_iff, u32Bytes_eq_some] at henc
    obtain ⟨_, ⟨hcount, -⟩, -⟩ := henc
    exact hcount

theorem inode_of_inlineContents {inodes : List PendingInode} {d : Bytes}
    (hd : d ∈ inlineContents inodes) : ∃ inode ∈ inodes, inode.content = .inline d := by
  obtain ⟨inode, hinode, hsome⟩ := List.mem_filterMap.mp hd
  refine ⟨inode, hinode, ?_⟩
  cases hc : inode.content with
  | inline data =>
      rw [hc] at hsome
      cases hsome
      rfl
  | symlink target => rw [hc] at hsome; cases hsome
  | dropBacked fileLen slices => rw [hc] at hsome; cases hsome
  | directory entries => rw [hc] at hsome; cases hsome

theorem inlineContents_short {maxInlineBytes : Nat} (hctx : ctx.Coherent H maxInlineBytes) :
    ∀ d ∈ inlineContents ctx.inodes, d.length ≤ maxInlineBytes := by
  intro d hd
  obtain ⟨inode, hinode, hcontent⟩ := inode_of_inlineContents hd
  have hvalid := (hctx.inodes inode hinode).content
  rw [hcontent] at hvalid
  exact hvalid

/-- The directory nodes as the reader has them. -/
def WriteContext.nodesReturned (ctx : WriteContext) : List DirectoryNode :=
  ctx.dirNodes.map fun node => ⟨directoryNodeVersion, node.entries⟩

/-- **The inodes in front of a blob are read back**, whatever follows them. -/
theorem reads_parseInodes {maxInlineBytes : Nat} {encs : List Bytes}
    (hread : ∀ inode ∈ ctx.inodes, InodeReadable H maxInlineBytes ctx inode)
    (hencs : ctx.inodes.mapM (ctx.encodeInode H) = some encs) :
    ∃ gots, List.Forall₂ (InodeReturned (ContentOnWire H (ctx.sharedInlineTable H)) ctx)
        ctx.inodes gots ∧
      Reads (loop (parseInodes maxInlineBytes) ctx.inodes.length 0 []) encs.flatten gots := by
  obtain ⟨gots, hreads, hgots⟩ := exists_forall₂_of_forall₂
    (forall₂_and_mem_left (mapM_some_iff.mp hencs))
    (S := fun enc got => Reads (parseInodeWithCeiling maxInlineBytes) enc got)
    (T := InodeReturned (ContentOnWire H (ctx.sharedInlineTable H)) ctx) (by
      rintro inode enc ⟨henc, hmem⟩
      obtain ⟨got, hgot, hread⟩ := reads_parseInode (hread inode hmem) henc
      exact ⟨got, hread, hgot⟩)
  have hinodes : List.Forall₂ (fun enc got => ∀ i done,
      Reads (parseInodes maxInlineBytes i done) enc (done ++ [got])) encs gots :=
    hreads.imp fun _ _ h i done => h.map fun inode => done ++ [inode]
  refine ⟨gots, hgots, ?_⟩
  rw [hgots.length_eq]
  exact reads_loop_each hinodes 0 []

/-- **The blob of a coherent context is read to its end**, with every inode and every node. -/
theorem parseMetadataBlob_apply {maxInlineBytes : Nat} {blob : Bytes}
    (hctx : ctx.Coherent H maxInlineBytes) (hcol : NoCollision H (inlineContents ctx.inodes))
    (hblob : ctx.metadataBlob H = some blob) :
    ∃ resolved, List.Forall₂ (InodeReturned (ContentReturned H) ctx) ctx.inodes resolved ∧
      parseMetadataBlobWithCeiling maxInlineBytes blob
        = (.ok ⟨resolved, ctx.nodesReturned⟩, []) := by
  simp only [WriteContext.metadataBlob, Option.bind_eq_bind, Option.bind_eq_some_iff,
    Option.pure_def, Option.some.injEq, u32Bytes_eq_some] at hblob
  obtain ⟨_, ⟨hcount, rfl⟩, encs, hencs, _, ⟨hnodeCount, rfl⟩, shared, hshared, rfl⟩ := hblob
  obtain ⟨gots, hgots, hinodes⟩ := reads_parseInodes (fun inode hmem =>
    ⟨hctx.inodes inode hmem, hctx.xattrs inode hmem, hctx.nlink inode hmem, hcol, hmem,
      sharedInlineTable_length hshared, fun node hnode => (hctx.nodes node hnode).1⟩) hencs
  have hencs := mapM_some_iff.mp hencs
  -- node by node
  have hnodes : List.Forall₂ (fun enc node => ∀ i done,
      Reads (parseDirNodes i done) enc (done ++ [node])) (ctx.dirNodes.map (·.bytes))
      ctx.nodesReturned := by
    unfold WriteContext.nodesReturned
    rw [List.forall₂_map_left_iff, List.forall₂_map_right_iff, List.forall₂_same]
    intro node hnode i done
    obtain ⟨henc, hvalid⟩ := hctx.nodes node hnode
    exact (reads_parseDirectoryNode henc hvalid).map fun node => done ++ [node]
  obtain ⟨resolved, hresolved, hparse⟩ := parseSharedTable_apply hshared
    (fun d hd => inlineContents_short hctx d (sharedInlineTable_mem d hd)) hgots
  refine ⟨resolved, hresolved, ?_⟩
  have hnodeCounts : ctx.nodesReturned.length = ctx.dirNodes.length := List.length_map _
  have hlong : ctx.inodes.length * (inodeFixedPrefixLen + 1) ≤ encs.flatten.length := by
    rw [← List.flatMap_id, hencs.length_eq]
    refine flatMap_length_ge encs fun enc henc => ?_
    obtain ⟨inode, -, hinode⟩ := exists_mem_of_forall₂ hencs enc henc
    exact encodeInode_length hinode
  have hlongNodes : ctx.dirNodes.length * 5 ≤ (ctx.dirNodes.flatMap (·.bytes)).length := by
    refine flatMap_length_ge ctx.dirNodes fun node hnode => ?_
    rw [(encodeDirNode_some (hctx.nodes node hnode).1).1]
    simp [dirNodeBytes]
  simp only [List.append_assoc]
  refine ((reads_readU32Le hcount).bind_append _).trans ?_
  refine (demand_bind (by rw [List.length_append]; omega)).trans ?_
  refine (hinodes.bind_append _).trans ?_
  refine ((reads_readU32Le hnodeCount).bind_append _).trans ?_
  refine (demand_bind (by rw [List.length_append]; omega)).trans ?_
  rw [← hnodeCounts, List.flatMap_def]
  refine ((reads_loop_each hnodes 0 []).bind_append _).trans ?_
  rw [bind_apply]
  simp only [List.nil_append, hparse]
  rfl

theorem entries_of_bytes {node node' : DirNode} (h : encodeDirNode H node.entries = some node)
    (h' : encodeDirNode H node'.entries = some node') (hvalid : EntriesValid node.entries)
    (hvalid' : EntriesValid node'.entries) (hbytes : node.bytes = node'.bytes) :
    node.entries = node'.entries := by
  have hreads := reads_parseDirectoryNode h hvalid
  have hreads' := reads_parseDirectoryNode h' hvalid'
  obtain ⟨-, heq, -⟩ := hreads.det hreads' (congrArg (· ++ []) hbytes)
  exact congrArg DirectoryNode.entries heq

/-- The node of a directory is found under the directory's hash. -/
theorem dirNodeByHash_returned {maxInlineBytes : Nat} (hctx : ctx.Coherent H maxInlineBytes)
    (hcol : NoCollision H (ctx.dirNodes.map (·.bytes))) {node : DirNode}
    (hnode : node ∈ ctx.dirNodes) (inodes : List Inode) :
    ∃ got, MetadataBlob.dirNodeByHash H ⟨inodes, ctx.nodesReturned⟩ (dirNodeHash H node.entries)
        = some got ∧ got.entries = node.entries := by
  obtain ⟨henc, hvalid⟩ := hctx.nodes node hnode
  have hmem : (⟨directoryNodeVersion, node.entries⟩ : DirectoryNode) ∈ ctx.nodesReturned :=
    List.mem_map_of_mem hnode
  unfold MetadataBlob.dirNodeByHash
  cases hfind : ctx.nodesReturned.find? fun n => dirNodeHash H n.entries
      == dirNodeHash H node.entries with
  | none =>
      have hno := List.find?_eq_none.mp hfind _ hmem
      exact absurd (beq_iff_eq.mpr rfl) hno
  | some got =>
      refine ⟨got, rfl, ?_⟩
      obtain ⟨node', hnode', rfl⟩ := List.mem_map.mp (List.mem_of_find?_eq_some hfind)
      obtain ⟨henc', hvalid'⟩ := hctx.nodes node' hnode'
      have hhash : dirNodeHash H node'.entries = dirNodeHash H node.entries := by
        simpa using List.find?_some hfind
      have hbytes : node'.bytes = node.bytes := by
        refine hcol _ (List.mem_map_of_mem hnode') _ (List.mem_map_of_mem hnode) ?_
        rw [(encodeDirNode_some henc').1, (encodeDirNode_some henc).1]
        exact hhash
      exact entries_of_bytes henc' henc hvalid' hvalid hbytes

theorem node_of_directory {blob : Bytes} (hblob : ctx.metadataBlob H = some blob)
    {inode : PendingInode} (hinode : inode ∈ ctx.inodes) {entries : List DirEntry}
    (hdir : inode.content = .directory entries) : ∃ node ∈ ctx.dirNodes, node.entries = entries := by
  simp only [WriteContext.metadataBlob, Option.bind_eq_bind, Option.bind_eq_some_iff] at hblob
  obtain ⟨_, -, encs, hencs, -⟩ := hblob
  obtain ⟨enc, -, henc⟩ := exists_mem_of_forall₂ (mapM_some_iff.mp hencs).flip inode hinode
  simp only [WriteContext.encodeInode, hdir, WriteContext.encodeContent, Option.bind_eq_bind,
    Option.bind_eq_some_iff] at henc
  obtain ⟨_, ⟨_, -, node, hnode, -⟩, -⟩ := henc
  exact ⟨node, List.mem_of_find?_eq_some hnode, by simpa using List.find?_some hnode⟩

/-- With distinct numbers an inode is found under its number. -/
theorem inodeByNumber_returned (hnumbers : (ctx.inodes.map (·.number)).Nodup)
    {resolved : List Inode} {nodes : List DirectoryNode}
    (h : List.Forall₂ (InodeReturned (ContentReturned H) ctx) ctx.inodes resolved)
    {inode : PendingInode} (hinode : inode ∈ ctx.inodes) :
    ∃ got, MetadataBlob.inodeByNumber ⟨resolved, nodes⟩ inode.number = some got ∧
      InodeReturned (ContentReturned H) ctx inode got := by
  obtain ⟨got, hgot, hreturned⟩ := exists_mem_of_forall₂ h.flip inode hinode
  have hmap : resolved.map (·.number) = ctx.inodes.map (·.number) :=
    (map_eq_map_of_forall₂ h fun _ _ hr => hr.number.symm).symm
  rw [← hmap] at hnumbers
  have hfind := find?_of_nodup_map hnumbers hgot
  rw [hreturned.number] at hfind
  exact ⟨got, hfind, hreturned⟩

/--
**What the writer puts into the metadata blob, the reader gets out of it.**  For every
coherent context, whatever inodes, attributes, links and shared contents it has: the
blob is read to its end, inode by inode with the same fields and content, and every
directory has its node, with the same entries, under its hash.
-/
theorem metadata_round_trip {blob : Bytes} (hctx : ctx.Coherent H defaultInlineDataMaxBytes)
    (hcol : NoCollision H (inlineContents ctx.inodes ++ ctx.dirNodes.map (·.bytes)))
    (hblob : ctx.metadataBlob H = some blob) :
    ∃ parsed : MetadataBlob, parseMetadataBlob blob = (.ok parsed, []) ∧
      List.Forall₂ (InodeReturned (ContentReturned H) ctx) ctx.inodes parsed.inodes ∧
      ∀ inode ∈ ctx.inodes, ∃ got, parsed.inodeByNumber inode.number = some got ∧
        InodeReturned (ContentReturned H) ctx inode got ∧
        ∀ entries, inode.content = .directory entries →
          ∃ node, parsed.dirNodeByHash H (dirNodeHash H entries) = some node ∧
            node.entries = entries := by
  have hinline : NoCollision H (inlineContents ctx.inodes) := fun a ha b hb =>
    hcol a (List.mem_append_left _ ha) b (List.mem_append_left _ hb)
  have hnodes : NoCollision H (ctx.dirNodes.map (·.bytes)) := fun a ha b hb =>
    hcol a (List.mem_append_right _ ha) b (List.mem_append_right _ hb)
  obtain ⟨resolved, hresolved, hparse⟩ := parseMetadataBlob_apply hctx hinline hblob
  refine ⟨_, hparse, hresolved, ?_⟩
  intro inode hinode
  obtain ⟨got, hfound, hreturned⟩ := inodeByNumber_returned hctx.numbers hresolved hinode
  refine ⟨got, hfound, hreturned, ?_⟩
  intro entries hdir
  obtain ⟨node, hnode, rfl⟩ := node_of_directory hblob hinode hdir
  exact dirNodeByHash_returned hctx hnodes hnode resolved

end

namespace Stored

def twinEntries : List DirEntry :=
  [⟨[0x61], 2, EntryType.file⟩, ⟨[0x62], 3, EntryType.file⟩, ⟨[0x63], 4, EntryType.symlink⟩]

/-- A directory of two files with one content, the first with an attribute and a second name, and a
link. -/
def twinContext : WriteContext :=
  { WriterState.new.toWriteContext with
    inodes := [⟨2, sIfreg, 7, 7, 5, [], .inline [1, 2]⟩, ⟨3, sIfreg, 0, 0, 6, [], .inline [1, 2]⟩,
      ⟨4, sIflnk, 0, 0, 6, [], .symlink [0x61]⟩, ⟨1, sIfdir, 0, 0, 9, [], .directory twinEntries⟩]
    dirNodes := [⟨twinEntries, dirNodeBytes twinEntries, dirNodeHash digest twinEntries⟩]
    nlinkCounts := fun n => if n = 2 then some 2 else none
    inodeXattrs := fun n => if n = 2 then some [⟨0, [0x6B], [0x76]⟩] else none }

theorem twinContext_coherent : twinContext.Coherent digest defaultInlineDataMaxBytes where
  numbers := by decide
  inodes := by
    intro inode hinode
    simp only [twinContext, List.mem_cons, List.not_mem_nil, or_false] at hinode
    rcases hinode with rfl | rfl | rfl | rfl
    · exact ⟨by decide, by decide, by decide, by decide, by decide, by decide,
        show [1, 2].length ≤ defaultInlineDataMaxBytes by decide⟩
    · exact ⟨by decide, by decide, by decide, by decide, by decide, by decide,
        show [1, 2].length ≤ defaultInlineDataMaxBytes by decide⟩
    · exact ⟨by decide, by decide, by decide, by decide, by decide, by decide, rfl⟩
    · exact ⟨by decide, by decide, by decide, by decide, by decide, by decide, trivial⟩
  xattrs := by
    intro inode hinode x hx
    simp only [twinContext, List.mem_cons, List.not_mem_nil, or_false] at hinode
    rcases hinode with rfl | rfl | rfl | rfl
    · rw [List.mem_singleton.mp hx]
      exact ⟨by decide, rfl, by decide⟩
    · cases hx
    · cases hx
    · cases hx
  nlink := by decide
  nodes := by
    intro node hnode
    rw [List.mem_singleton.mp hnode]
    refine ⟨rfl, ?_, by decide⟩
    intro e he
    simp only [twinEntries, List.mem_cons, List.not_mem_nil, or_false] at he
    rcases he with rfl | rfl | rfl
    · exact ⟨by decide, by decide, by decide, rfl, by decide, by decide⟩
    · exact ⟨by decide, by decide, by decide, rfl, by decide, by decide⟩
    · exact ⟨by decide, by decide, by decide, rfl, by decide, by decide⟩

end Stored

open LimniFS.Stored

/-- The shared content comes back in both files, and the directory under its hash. -/
theorem metadata_round_trip_twins :
    ∃ blob parsed, twinContext.metadataBlob digest = some blob ∧
      parseMetadataBlob blob = (.ok parsed, []) ∧
      List.Forall₂ (InodeReturned (ContentReturned digest) twinContext)
        twinContext.inodes parsed.inodes := by
  have hsome : (twinContext.metadataBlob digest).isSome = true := by decide +kernel
  obtain ⟨blob, hblob⟩ := Option.isSome_iff_exists.mp hsome
  obtain ⟨parsed, hparse, hall, -⟩ :=
    metadata_round_trip twinContext_coherent (by decide +kernel) hblob
  exact ⟨blob, parsed, hblob, hparse, hall⟩

end LimniFS
