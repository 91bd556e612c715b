/-
The metadata blob of a flattened image.

A blob of inodes that the encoder knows is read back with what is kept of each inode and with all
its directory nodes (`parse_flattenMetadataBlob`).  With a device or a pipe among them it is not: if
the blob is read at all, a directory node is missing (`lost_of_special`).
-/
import Mathlib.Data.List.Flatten
import LimniFS.FlattenEncoding

namespace LimniFS

open Lib Lib.Parser Cursor

/-! ### Directory nodes -/

theorem flattenDirNode_eq_some {node : DirectoryNode} {enc : Bytes} :
    flattenDirNode node = some enc ↔
      EntriesFit node.entries ∧ enc = dirNodeBytes node.entries := by
  have hentry : ∀ (e : DirEntry) (b : Bytes), (do
      let name ← sizedBytes e.name
      some (name ++ leBytes 8 e.inodeNumber ++ [e.entryType]) : Option Bytes) = some b ↔
      e.name.length < u32Limit ∧ dirEntryBytes e = b := by
    intro e b
    simp only [Option.bind_eq_bind, Option.bind_eq_some_iff, sizedBytes_eq_some, Option.some.injEq]
    constructor
    · rintro ⟨_, ⟨hlen, rfl⟩, rfl⟩
      exact ⟨hlen, rfl⟩
    · rintro ⟨hlen, rfl⟩
      exact ⟨_, ⟨hlen, rfl⟩, rfl⟩
  unfold flattenDirNode
  rw [dirNodeBytes_eq]
  simp only [Option.bind_eq_bind, Option.bind_eq_some_iff, u32Bytes_eq_some, Option.some.injEq]
  constructor
  · rintro ⟨_, ⟨hcount, rfl⟩, encs, hencs, rfl⟩
    have hall := (mapM_some_iff.mp hencs).imp fun e b h => (hentry e b).mp h
    refine ⟨⟨hcount, fun e he => ?_⟩, ?_⟩
    · obtain ⟨b, -, hb⟩ := exists_mem_of_forall₂ hall.flip e he
      exact hb.1
    · have hmap := map_eq_map_of_forall₂ (f := dirEntryBytes) (g := id) hall fun e b h => h.2
      rw [List.flatMap_def, hmap, List.map_id]
  · rintro ⟨hfit, rfl⟩
    refine ⟨_, ⟨hfit.count, rfl⟩, node.entries.map dirEntryBytes, ?_, ?_⟩
    · rw [mapM_some_iff, List.forall₂_map_right_iff, List.forall₂_same]
      exact fun e he => (hentry e _).mpr ⟨hfit.names e he, rfl⟩
    · rw [List.flatMap_def]

/-! ### Lengths -/

/-- The bytes that the flattener writes for the content, with the flags. -/
def ContentHandle.flattenedLen : ContentHandle → Nat
  | .inlineData data => 5 + data.length
  | .sliceMap map => 5 + map.slices.length * 56
  | .directory _ => 33
  | .sharedInline _ | .symlink _ | .device _ | .pipe _ => 5

def Inode.flattenedLen (inode : Inode) : Nat := 40 + inode.contentHandle.flattenedLen

theorem mapM_flatten_length {α : Type} {f : α → Option Bytes} {w : α → Nat} {l : List α}
    {encs : List Bytes} (h : l.mapM f = some encs) (hw : ∀ a enc, f a = some enc → enc.length = w a) :
    encs.flatten.length = (l.map w).sum := by
  rw [List.length_flatten]
  exact congrArg List.sum
    (map_eq_map_of_forall₂ (mapM_some_iff.mp h) fun a enc ha => (hw a enc ha).symm).symm

theorem flattenContent_len {handle : ContentHandle} {enc : Bytes}
    (h : flattenContent handle = some enc) : enc.length = handle.flattenedLen := by
  cases handle with
  | inlineData data =>
      obtain ⟨_, hsized, rfl⟩ := Option.map_eq_some_iff.mp h
      obtain ⟨-, rfl⟩ := sizedBytes_eq_some.mp hsized
      simp [ContentHandle.flattenedLen]
      omega
  | sliceMap map =>
      simp only [flattenContent, Option.bind_eq_bind, Option.bind_eq_some_iff, u32Bytes_eq_some,
        Option.some.injEq] at h
      obtain ⟨_, ⟨-, rfl⟩, encs, hencs, rfl⟩ := h
      have hlen : encs.flatten.length = map.slices.length * 56 := by
        rw [mapM_flatten_length (w := fun _ => 56) hencs fun slice enc h => ?_]
        · simp
        · obtain ⟨-, rfl⟩ := flattenSlice_eq_some.mp h
          have hdrop := slice.dropId.2
          simp [hdrop]
      simp [ContentHandle.flattenedLen, hlen]
      omega
  | directory hash =>
      cases h
      have hlen := hash.2
      simp [ContentHandle.flattenedLen, hlen]
  | sharedInline | symlink | device | pipe =>
      cases h
      simp [ContentHandle.flattenedLen]

theorem flattenInode_len {inode : Inode} {enc : Bytes} (h : flattenInode inode = some enc) :
    enc.length = inode.flattenedLen := by
  obtain ⟨content, hcontent, rfl⟩ := Option.map_eq_some_iff.mp h
  rw [List.length_append, flattenContent_len hcontent]
  simp [flattenPrefix, Inode.flattenedLen]

theorem Inode.flattenedLen_ge (inode : Inode) : 45 ≤ inode.flattenedLen := by
  unfold Inode.flattenedLen
  cases inode.contentHandle <;> simp only [ContentHandle.flattenedLen] <;> omega

/-! ### The blob -/

section

variable {inodes : List Inode} {nodes : List DirectoryNode} {blob : Bytes}

/-- What the parser said of a directory node that it accepted. -/
structure DirectoryNode.Parsed (node : DirectoryNode) : Prop where
  version : node.version = directoryNodeVersion
  valid : EntriesValid node.entries
  fit : EntriesFit node.entries

theorem reads_flattenDirNodes (hnodes : ∀ node ∈ nodes, node.Parsed) {encs : List Bytes}
    (henc : nodes.mapM flattenDirNode = some encs) :
    List.Forall₂ (fun enc node => ∀ i done, Reads (parseDirNodes i done) enc (done ++ [node])) encs
      nodes := by
  refine ((forall₂_and_mem_left (mapM_some_iff.mp henc)).imp ?_).flip
  rintro node enc ⟨hnode, hmem⟩ i done
  obtain ⟨hfit, rfl⟩ := flattenDirNode_eq_some.mp hnode
  obtain ⟨hversion, hvalid, -⟩ := hnodes node hmem
  have hreads : Reads parseDirectoryNode (dirNodeBytes node.entries) node := fun rest =>
    parseDirectoryNode_eq_ok.mpr ⟨hversion, hvalid, hfit, rfl⟩
  exact hreads.map fun node => done ++ [node]

theorem reads_flattenInodes {maxInlineBytes : Nat} (hinodes : ∀ i ∈ inodes, i.Bounded maxInlineBytes)
    (hplain : ∀ i ∈ inodes, i.contentHandle.isSpecial = false) {encs : List Bytes}
    (henc : inodes.mapM flattenInode = some encs) :
    List.Forall₂ (fun enc inode => ∀ i done,
      Reads (parseInodes maxInlineBytes i done) enc (done ++ [inode])) encs
      (inodes.map Inode.flattened) := by
  rw [List.forall₂_map_right_iff]
  refine ((forall₂_and_mem_left (mapM_some_iff.mp henc)).imp ?_).flip
  rintro inode enc ⟨hinode, hmem⟩ i done
  exact (reads_flattenInode (hinodes inode hmem) (hplain inode hmem) hinode).map fun inode =>
    done ++ [inode]

theorem flattenMetadataBlob_eq_some :
    flattenMetadataBlob inodes nodes = some blob ↔ inodes.length < u32Limit ∧
      nodes.length < u32Limit ∧ ∃ encs wires, inodes.mapM flattenInode = some encs ∧
        nodes.mapM flattenDirNode = some wires ∧
        blob = leBytes 4 inodes.length ++ encs.flatten ++ leBytes 4 nodes.length ++ wires.flatten := by
  unfold flattenMetadataBlob
  simp only [Option.bind_eq_bind, Option.bind_eq_some_iff, u32Bytes_eq_some, Option.some.injEq]
  constructor
  · rintro ⟨_, ⟨hcount, rfl⟩, encs, hencs, _, ⟨hnodes, rfl⟩, wires, hwires, rfl⟩
    exact ⟨hcount, hnodes, encs, wires, hencs, hwires, rfl⟩
  · rintro ⟨hcount, hnodes, encs, wires, hencs, hwires, rfl⟩
    exact ⟨_, ⟨hcount, rfl⟩, encs, hencs, _, ⟨hnodes, rfl⟩, wires, hwires, rfl⟩

theorem flattenMetadataBlob_len (h : flattenMetadataBlob inodes nodes = some blob) :
    blob.length = 8 + (inodes.map Inode.flattenedLen).sum
      + (nodes.map fun node => (dirNodeBytes node.entries).length).sum := by
  obtain ⟨-, -, encs, wires, hencs, hwires, rfl⟩ := flattenMetadataBlob_eq_some.mp h
  rw [← mapM_flatten_length hencs fun inode enc h => flattenInode_len h,
    ← mapM_flatten_length hwires fun node wire h => by rw [(flattenDirNode_eq_some.mp h).2]]
  simp only [List.length_append, leBytes_length]
  omega

theorem flattenInodes_length {encs : List Bytes} (h : inodes.mapM flattenInode = some encs) :
    inodes.length * (inodeFixedPrefixLen + 1) ≤ encs.flatten.length := by
  have hall := mapM_some_iff.mp h
  rw [← List.flatMap_id, hall.length_eq]
  refine flatMap_length_ge encs fun enc henc => ?_
  obtain ⟨inode, -, hinode⟩ := exists_mem_of_forall₂ hall enc henc
  show inodeFixedPrefixLen + 1 ≤ enc.length
  rw [flattenInode_len hinode]
  exact Nat.le_trans (by decide) inode.flattenedLen_ge

theorem flattenDirNodes_length {wires : List Bytes} (h : nodes.mapM flattenDirNode = some wires) :
    nodes.length * 5 ≤ wires.flatten.length := by
  have hall := mapM_some_iff.mp h
  rw [← List.flatMap_id, hall.length_eq]
  refine flatMap_length_ge wires fun wire hwire => ?_
  obtain ⟨node, -, hnode⟩ := exists_mem_of_forall₂ hall wire hwire
  obtain ⟨-, rfl⟩ := flattenDirNode_eq_some.mp hnode
  simp [dirNodeBytes]

/-- **A blob of kinds that the encoder knows is read back**: what is kept of the inodes, and all the
directory nodes. -/
theorem parse_flattenMetadataBlob {maxInlineBytes : Nat}
    (hinodes : ∀ i ∈ inodes, i.Bounded maxInlineBytes)
    (hplain : ∀ i ∈ inodes, i.contentHandle.isSpecial = false)
    (hnodes : ∀ node ∈ nodes, node.Parsed) (h : flattenMetadataBlob inodes nodes = some blob) :
    parseMetadataBlobWithCeiling maxInlineBytes blob
      = (.ok ⟨inodes.map Inode.flattened, nodes⟩, []) := by
  obtain ⟨hcount, hnodeCount, encs, wires, hencs, hwires, rfl⟩ := flattenMetadataBlob_eq_some.mp h
  have hlong := flattenInodes_length hencs
  have hlongNodes := flattenDirNodes_length hwires
  have hreads := reads_loop_each (reads_flattenInodes hinodes hplain hencs) 0 []
  have hreadNodes := reads_loop_each (reads_flattenDirNodes hnodes hwires) 0 []
  rw [List.length_map, List.nil_append] at hreads
  rw [List.nil_append] at hreadNodes
  simp only [List.append_assoc]
  refine ((reads_readU32Le hcount).bind_append _).trans ?_
  refine (demand_bind (by rw [List.length_append]; omega)).trans ?_
  refine (hreads.bind_append _).trans ?_
  refine ((reads_readU32Le hnodeCount).bind_append _).trans ?_
  refine (demand_bind hlongNodes).trans ?_
  rw [← List.append_nil wires.flatten]
  refine (hreadNodes.bind_append _).trans ?_
  rfl

/-! ### Devices and pipes -/

/-- The encoder has four bytes for them, the parser takes eight: four of what follows. -/
theorem reads_special {maxInlineBytes : Nat} {inode : Inode} {enc : Bytes}
    (h : inode.Bounded maxInlineBytes) (hspecial : inode.contentHandle.isSpecial = true)
    (henc : flattenInode inode = some enc) {four : Bytes} (hfour : four.length = 4) :
    ∃ x, Reads (parseInodeWithCeiling maxInlineBytes) (enc ++ four) x := by
  obtain ⟨content, hcontent, rfl⟩ := Option.map_eq_some_iff.mp henc
  obtain rfl : content = [0x00] ++ leBytes 4 0 := by
    unfold ContentHandle.isSpecial at hspecial
    split at hspecial
    · next hhandle => rw [hhandle] at hcontent; exact (Option.some.inj hcontent).symm
    · next hhandle => rw [hhandle] at hcontent; exact (Option.some.inj hcontent).symm
    · cases hspecial
  have hword : leBytes 4 0 ++ four = leBytes 8 (leNat (leBytes 4 0 ++ four)) := by
    have hback := leBytes_leNat (leBytes 4 0 ++ four)
    rwa [List.length_append, leBytes_length, hfour, eq_comm] at hback
  have hlt : leNat (leBytes 4 0 ++ four) < 2 ^ 64 := by
    have hlt := leNat_lt (leBytes 4 0 ++ four)
    rwa [List.length_append, leBytes_length, hfour] at hlt
  have hhandle : ∃ handle, Reads (parseContentHandle inode.mode 0x00 inode.number maxInlineBytes)
      (leBytes 4 0 ++ four) handle := by
    have hkind := h.kind
    unfold Inode.KindFits Inode.fileType at hkind
    unfold parseContentHandle
    simp only
    rw [hword]
    cases hc : inode.contentHandle with
    | device dev =>
        rw [hc] at hkind
        refine ⟨.device (leNat (leBytes 4 0 ++ four)), ?_⟩
        have hdevice : inode.mode &&& sIfmt = sIfblk ∨ inode.mode &&& sIfmt = sIfchr := hkind
        rw [if_neg, if_neg, if_neg, if_pos hdevice]
        · exact (reads_readU64Le hlt).map ContentHandle.device
        all_goals
          rcases hdevice with hd | hd
          all_goals
            rw [hd]
            decide
    | pipe pipeId =>
        rw [hc] at hkind
        refine ⟨.pipe (leNat (leBytes 4 0 ++ four)), ?_⟩
        have hpipe : inode.mode &&& sIfmt = sIfifo ∨ inode.mode &&& sIfmt = sIfsock := hkind
        rw [if_neg, if_neg, if_neg, if_neg, if_pos hpipe]
        · exact (reads_readU64Le hlt).map ContentHandle.pipe
        all_goals
          rcases hpipe with hp | hp
          all_goals
            rw [hp]
            decide
    | inlineData data | sharedInline index | sliceMap map | directory hash | symlink target =>
        rw [hc] at hspecial
        cases hspecial
  obtain ⟨handle, hreads⟩ := hhandle
  refine ⟨⟨inode.number, inode.mode, 0, 0, inode.mtimeNs, inode.mtimeNs, 1, none, [], handle⟩,
    fun rest => ?_⟩
  have hsame : flattenPrefix inode ++ ([0x00] ++ leBytes 4 0) ++ four ++ rest
      = flattenPrefix inode ++ ([0x00] ++ (leBytes 4 0 ++ four ++ rest)) := by
    simp only [List.append_assoc]
  rw [hsame, parseInode_prefix h (.inl rfl)]
  exact (hreads.map _) rest

theorem parseInode_ne_ok {maxInlineBytes : Nat} {front back rest : Bytes} {x : Inode}
    (hfront : front.length = 8) :
    parseInodeWithCeiling maxInlineBytes (front ++ (leBytes 4 0 ++ back)) ≠ (.ok x, rest) := by
  intro h
  obtain ⟨-, hmode, -, after, hbytes⟩ := parseInode_widths h
  obtain ⟨-, hrest⟩ := List.append_inj hbytes (by rw [hfront, leBytes_length])
  obtain ⟨hword, -⟩ := List.append_inj hrest (by rw [leBytes_length, leBytes_length])
  have hzero : x.mode = 0 := by
    have hback := congrArg leNat hword
    rwa [leNat_leBytes (by decide), leNat_leBytes hmode, eq_comm] at hback
  have hkind := parseInode_fits h
  unfold Inode.KindFits Inode.fileType at hkind
  rw [hzero] at hkind
  cases hc : x.contentHandle with
  | inlineData | sharedInline | sliceMap | directory | symlink =>
      rw [hc] at hkind
      cases hkind
  | device | pipe =>
      rw [hc] at hkind
      rcases hkind with hk | hk <;> cases hk

theorem length_of_nodes {bs rest : Bytes} {n index : Nat} {found : List DirectoryNode}
    (h : loop parseDirNodes n index [] bs = (.ok found, rest)) (hnodup : nodes.Nodup)
    (hall : ∀ node ∈ nodes, node ∈ found) :
    (nodes.flatMap fun node => dirNodeBytes node.entries).length ≤ bs.length := by
  obtain ⟨wires, more, hfound, rfl, hwires⟩ := dirNodes_ok n h
  rw [List.nil_append] at hfound
  subst hfound
  have hsame : wires = found.map fun node => dirNodeBytes node.entries := by
    have hmap := map_eq_map_of_forall₂ (f := id) (g := fun node => dirNodeBytes node.entries) hwires
      fun wire node hwire => by
        obtain ⟨-, -, -, hbytes⟩ := parseDirectoryNode_eq_ok.mp hwire
        rw [List.append_nil] at hbytes
        exact hbytes
    rwa [List.map_id] at hmap
  obtain ⟨l, hperm, hsub⟩ := List.subperm_of_subset hnodup hall
  have hlen := (hperm.flatMap_right fun node => dirNodeBytes node.entries).length_eq
  have hle := (hsub.flatMap fun node => dirNodeBytes node.entries).length_le
  rw [List.length_append, hsame, ← List.flatMap_def]
  omega

/-- **With a device or a pipe in it, what is read of a blob is not all of it.** -/
theorem lost_of_special {maxInlineBytes : Nat} (hinodes : ∀ i ∈ inodes, i.Bounded maxInlineBytes)
    (hnodup : nodes.Nodup) (hblob : flattenMetadataBlob inodes nodes = some blob)
    (hsome : ∃ i ∈ inodes, i.contentHandle.isSpecial = true) {found : MetadataBlob} {left : Bytes}
    (h : parseMetadataBlobWithCeiling maxInlineBytes blob = (.ok found, left)) :
    ¬ ∀ node ∈ nodes, node ∈ found.dirNodes := by
  intro hall
  obtain ⟨hcount, hnodeCount, encs, wires, hencs, hwires, rfl⟩ := flattenMetadataBlob_eq_some.mp hblob
  -- the first of them
  obtain ⟨special, hfirst⟩ := Option.isSome_iff_exists.mp (List.find?_isSome.mpr hsome)
  obtain ⟨hspecial, before, after, rfl, hbefore⟩ := List.find?_eq_some_iff_append.mp hfirst
  obtain ⟨front, back, hfront, hback, rfl⟩ : ∃ front back, before.mapM flattenInode = some front ∧
      (special :: after).mapM flattenInode = some back ∧ encs = front ++ back := by
    simp only [List.mapM_append, Option.bind_eq_bind, Option.bind_eq_some_iff, Option.pure_def,
      Option.some.injEq] at hencs
    obtain ⟨front, hfront, back, hback, rfl⟩ := hencs
    exact ⟨front, back, hfront, hback, rfl⟩
  simp only [List.mapM_cons, Option.bind_eq_bind, Option.bind_eq_some_iff, Option.pure_def,
    Option.some.injEq] at hback
  obtain ⟨enc, henc, behind, hbehind, rfl⟩ := hback
  have hreadsFront := reads_loop_each (reads_flattenInodes
    (fun i hi => hinodes i (List.mem_append_left _ hi)) (fun i hi => by simpa using hbefore i hi) hfront) 0 []
  rw [List.length_map, List.nil_append] at hreadsFront
  -- up to it all is read
  simp only [parseMetadataBlobWithCeiling, bind_eq_ok, pure_eq_ok, List.append_assoc,
    List.flatten_append, List.flatten_cons] at h
  obtain ⟨n, _, hn, _, _, hdemand, inodes', mid, hloop, m, mid', hm, _, _, hdemand', nodes', _,
    hloopNodes, _, _, -, rfl, -⟩ := h
  rw [reads_readU32Le hcount] at hn
  cases hn
  obtain rfl := (Prod.mk.inj hdemand).2
  obtain rfl := (Prod.mk.inj hdemand').2
  rw [List.length_append, List.length_cons, loop_add, hreadsFront.bind_append, loop] at hloop
  obtain ⟨some', mid₁, hspecialRead, hrest⟩ := bind_eq_ok.mp hloop
  obtain ⟨x, mid₂, hx, hpure⟩ := bind_eq_ok.mp hspecialRead
  obtain ⟨rfl, rfl⟩ := pure_eq_ok.mp hpure
  have hboundSpecial := hinodes special (List.mem_append_right _ List.mem_cons_self)
  rcases after with _ | ⟨next, after⟩
  · -- nothing behind it: the number of the nodes is eaten
    simp only [List.mapM_nil, Option.pure_def, Option.some.injEq] at hbehind
    subst hbehind
    obtain ⟨y, hreads⟩ := reads_special hboundSpecial hspecial henc (leBytes_length 4 nodes.length)
    rw [List.flatten_nil, List.nil_append, ← List.append_assoc, hreads] at hx
    cases hx
    obtain ⟨rfl, rfl⟩ := pure_eq_ok.mp hrest
    obtain ⟨-, hbytes⟩ := readU32Le_eq_ok.mp hm
    have hle := length_of_nodes hloopNodes hnodup hall
    have hwire : wires.flatten = nodes.flatMap fun node => dirNodeBytes node.entries := by
      have hmap := map_eq_map_of_forall₂ (f := fun node => dirNodeBytes node.entries) (g := id)
        (mapM_some_iff.mp hwires) fun node wire h => (flattenDirNode_eq_some.mp h).2.symm
      rw [List.flatMap_def, hmap, List.map_id]
    rw [← hwire, hbytes, List.length_append, leBytes_length] at hle
    omega
  · -- the next inode is read four bytes late
    simp only [List.mapM_cons, Option.bind_eq_bind, Option.bind_eq_some_iff, Option.pure_def,
      Option.some.injEq] at hbehind
    obtain ⟨_, hnext, more, -, rfl⟩ := hbehind
    obtain ⟨content, -, rfl⟩ := Option.map_eq_some_iff.mp hnext
    have hfour : ((leBytes 8 next.number).take 4).length = 4 := by simp
    obtain ⟨y, hreads⟩ := reads_special hboundSpecial hspecial henc hfour
    have hshift : ∀ tail : Bytes, enc ++ (flattenPrefix next ++ tail)
        = (enc ++ (leBytes 8 next.number).take 4) ++ (((leBytes 8 next.number).drop 4
          ++ leBytes 4 next.mode) ++ (leBytes 4 0 ++ (leBytes 4 0 ++ leBytes 8 next.mtimeNs
          ++ leBytes 8 next.mtimeNs ++ leBytes 4 1 ++ tail))) := by
      intro tail
      unfold flattenPrefix
      nth_rewrite 1 [← List.take_append_drop 4 (leBytes 8 next.number)]
      simp only [List.append_assoc]
    simp only [List.flatten_cons, List.append_assoc] at hx
    rw [hshift, hreads] at hx
    cases hx
    rw [List.length_cons, loop] at hrest
    obtain ⟨_, _, hlate, -⟩ := bind_eq_ok.mp hrest
    obtain ⟨late, _, hlate, -⟩ := bind_eq_ok.mp hlate
    exact parseInode_ne_ok (by simp) hlate

end

end LimniFS
