/-
Flattening a chain.

The newest layer's directories and files are all in the flattened image, yet it need not show the
newest layer.  Inodes of older layers stay where the newest has none of their number: a directory
among them that nothing refers to is a second root, an older directory may refer to the newest
root, and a name that leads nowhere in the newest layer may lead to an older file.  Slices that do
not begin at the front of their drop are moved there (`flatten_chain_iff`).

A chain shows its newest layer exactly if `NewestStays` says so; two layers that number their roots
differently leave two of them, and the flattened image none (`two_roots`).
-/
import LimniFS.DeltaBuilder
import LimniFS.FlattenSingle

namespace LimniFS

open Lib Lib.Parser Cursor DeltaBuilder

/-! ### What an image shows -/

section

variable (H : Hash)

/-- What stands at the end of a path from the root. -/
def presentedAt (blob : MetadataBlob) (path : Path) : Option ContentHandle := do
  let root ← blob.rootInodeNumber
  let inode ← blob.inodeByNumber root
  (resolve H blob inode path).map Inode.contentHandle

/-- Every slab once, with the locators it has anywhere. -/
structure SlabsUnited (slabs entries : List SlabIndexEntry) : Prop where
  nodup : (entries.map SlabIndexEntry.slabId).Nodup
  ids : ∀ id, id ∈ entries.map SlabIndexEntry.slabId ↔ id ∈ slabs.map SlabIndexEntry.slabId
  locators : ∀ entry ∈ entries, ∀ l, l ∈ entry.locators ↔
    ∃ slab ∈ slabs, slab.slabId = entry.slabId ∧ l ∈ slab.locators

/-- The chain can be flattened, and the outcome shows its newest layer. -/
def FlattenPresents (z : Omnizip) (layers : List Bytes) (newest : MetadataBlob)
    (slabs : List SlabIndexEntry) : Prop :=
  ∃ artifact found foundSlabs root, flatten H z layers = some (.ok artifact) ∧
    readLayer z 0 artifact.bytes = .ok (found, foundSlabs) ∧
    newest.rootInodeNumber = some root ∧ found.rootInodeNumber = some root ∧
    (∀ path, presentedAt H found path = presentedAt H newest path) ∧ SlabsUnited slabs foundSlabs

/-! ### When it shows the newest layer -/

/-- Of the directories that are left, only this one is referred to by none. -/
structure RootStays (stack : MetadataBlob) (root : Nat) : Prop where
  directory : ∃ last ∈ latest Inode.number stack.inodes, last.number = root ∧ last.isDirectory = true
  unreferenced : ¬ stack.Refers root
  others : ∀ i ∈ latest Inode.number stack.inodes, i.isDirectory = true → i.number ≠ root →
    stack.Refers i.number

/-- The content of the inode is left as it was, and what it names without having it, no layer has. -/
structure InodeStays (stack newest : MetadataBlob) (inode : Inode) : Prop where
  content : ∀ last ∈ latest Inode.number newest.inodes, last.number = inode.number →
    last.contentHandle.flattened = inode.contentHandle
  dangling : ∀ hash, inode.contentHandle = .directory hash →
    ∀ node, newest.dirNodeByHash H hash = some node →
      ∀ e ∈ node.entries, newest.inodeByNumber e.inodeNumber = none →
        stack.inodeByNumber e.inodeNumber = none
  missing : ∀ hash, inode.contentHandle = .directory hash → newest.dirNodeByHash H hash = none →
    ∀ node, stack.dirNodeByHash H hash = some node →
      ∀ e ∈ node.entries, stack.inodeByNumber e.inodeNumber = none

/-- The chain fits, its newest root stays the only one, and all below it stays. -/
structure NewestStays (stack newest : MetadataBlob) (slabs : List SlabIndexEntry) : Prop where
  short : stack.flattenedLen ≤ defaultInlineMetadataMaxBytes
  narrow : ∀ i ∈ latest Inode.number stack.inodes, ∀ map, i.contentHandle = .sliceMap map →
    ∀ s ∈ map.slices, s.fileByteEnd - s.fileByteStart < u32Limit
  slabCount : (slabs.foldl mergeSlab []).length < u32Limit
  locators : ∀ entry ∈ slabs.foldl mergeSlab [], entry.2.length < u32Limit
  root : ∀ root, newest.rootInodeNumber = some root → RootStays stack root
  inodes : ∀ root inode path target, newest.rootInodeNumber = some root →
    newest.inodeByNumber root = some inode → resolve H newest inode path = some target →
      InodeStays H stack newest target

end

/-! ### What is found in the outcome -/

section

variable {H : Hash} {z : Omnizip} {layers : List Bytes}
  {older : List (MetadataBlob × List SlabIndexEntry)} {newest : MetadataBlob}
  {newestSlabs : List SlabIndexEntry}

theorem found_isNone {parsed : List (MetadataBlob × List SlabIndexEntry)} {number : Nat} :
    (foundOf H parsed).inodeByNumber number = none ↔ (stackOf parsed).inodeByNumber number = none := by
  rw [found_inodeByNumber, Option.map_eq_none_iff]
  unfold MetadataBlob.inodeByNumber
  rw [List.find?_eq_none, List.find?_eq_none]
  refine ⟨fun h i hi => ?_, fun h i hi => ?_⟩
  · simpa using h i (List.mem_reverse.mpr hi)
  · simpa using h i (List.mem_reverse.mp hi)

variable (H older newestSlabs) in
theorem found_of_newest {number : Nat} {inode : Inode} (h : newest.inodeByNumber number = some inode) :
    ∃ last ∈ latest Inode.number newest.inodes, last.number = number ∧
      (foundOf H (older ++ [(newest, newestSlabs)])).inodeByNumber number = some last.flattened := by
  have hsome : (newest.inodes.reverse.find? fun i => i.number = number).isSome := by
    rw [List.find?_isSome]
    have hnumber := List.find?_some h
    exact ⟨inode, List.mem_reverse.mpr (List.mem_of_find?_eq_some h), by simpa using hnumber⟩
  obtain ⟨last, hlast⟩ := Option.isSome_iff_exists.mp hsome
  obtain rfl : last.number = number := by simpa using List.find?_some hlast
  refine ⟨last, mem_latest.mpr hlast, rfl, ?_⟩
  have hstack : (stackOf (older ++ [(newest, newestSlabs)])).inodes
      = (stackOf older).inodes ++ newest.inodes := by
    simp [stackOf]
  rw [found_inodeByNumber, hstack, List.reverse_append, List.find?_append, hlast]
  rfl

/-- The root that is found. -/
theorem found_root {parsed : List (MetadataBlob × List SlabIndexEntry)} (hparsed : LayersRead z layers parsed)
    (hfree : NoCollision H ((stackOf parsed).dirNodes.map fun node => dirNodeBytes node.entries))
    {root : Nat} :
    (foundOf H parsed).rootInodeNumber = some root ↔ RootStays (stackOf parsed) root := by
  have hperm := sortedInodes_perm (mergedOf_inodes (H := H) parsed)
  have hnumbers : ((foundOf H parsed).inodes.map Inode.number).Nodup := by
    rw [foundOf, List.map_map]
    exact sortedInodes_nodup (mergedOf_inodes parsed)
  have hrefers : ∀ number, (foundOf H parsed).Refers number ↔ (stackOf parsed).Refers number := by
    intro number
    exact exists_congr fun node => and_congr_left fun _ => merged_nodes_mem hparsed hfree node
  have hmem : ∀ i, i ∈ (foundOf H parsed).inodes ↔
      ∃ last ∈ latest Inode.number (stackOf parsed).inodes, last.flattened = i := by
    intro i
    rw [foundOf, List.mem_map]
    exact exists_congr fun last => and_congr_left fun _ => hperm.mem_iff
  rw [rootInodeNumber_iff hnumbers, hrefers]
  constructor
  · rintro ⟨⟨i, hi, hnumber, hdir⟩, hfree, hothers⟩
    obtain ⟨last, hlast, rfl⟩ := (hmem i).mp hi
    refine ⟨⟨last, hlast, hnumber, hdir⟩, hfree, fun j hj hjdir hne => ?_⟩
    exact (hrefers _).mp (hothers j.flattened ((hmem _).mpr ⟨j, hj, rfl⟩) hjdir hne)
  · rintro ⟨⟨last, hlast, hnumber, hdir⟩, hfree, hothers⟩
    refine ⟨⟨last.flattened, (hmem _).mpr ⟨last, hlast, rfl⟩, hnumber, hdir⟩, hfree, ?_⟩
    intro i hi hidir hne
    obtain ⟨j, hj, rfl⟩ := (hmem i).mp hi
    exact (hrefers _).mpr (hothers j hj hidir hne)

/-! ### What is below the root -/

variable (H) in
/-- What a name leads to. -/
def childAt (blob : MetadataBlob) (inode : Inode) (name : Bytes) : Option Inode :=
  (entryOf H blob inode name).bind fun e => blob.inodeByNumber e.inodeNumber

theorem entryOf_directory {blob : MetadataBlob} {inode : Inode} {hash : Digest}
    (h : inode.contentHandle = .directory hash) (name : Bytes) : entryOf H blob inode name
      = (blob.dirNodeByHash H hash).bind fun node => node.entries.find? fun e => e.name == name := by
  unfold entryOf
  rw [h]

theorem entryOf_of_parsed {blob : MetadataBlob} {inode : Inode} {hash : Digest} {node : DirectoryNode}
    (h : inode.contentHandle = .directory hash) (hnode : blob.dirNodeByHash H hash = some node)
    (hparsed : node.Parsed) {e : DirEntry} (he : e ∈ node.entries) :
    entryOf H blob inode e.name = some e := by
  have hentries : entriesOf H blob inode = node.entries := by
    unfold entriesOf
    rw [h]
    show (blob.dirNodeByHash H hash).elim [] DirectoryNode.entries = node.entries
    rw [hnode]
    rfl
  exact entryOf_of_sorted (hentries ▸ hparsed.valid.sorted) (hentries ▸ he)

section

variable (hparsed : LayersRead z layers (older ++ [(newest, newestSlabs)]))
  (hfree : NoCollision H ((stackOf (older ++ [(newest, newestSlabs)])).dirNodes.map fun node =>
    dirNodeBytes node.entries))

include hparsed hfree

theorem found_node_of_newest {hash : Digest} {node : DirectoryNode}
    (h : newest.dirNodeByHash H hash = some node) :
    (foundOf H (older ++ [(newest, newestSlabs)])).dirNodeByHash H hash = some node ∧ node.Parsed := by
  have hin : node ∈ (stackOf (older ++ [(newest, newestSlabs)])).dirNodes := by
    have hnode := List.mem_of_find?_eq_some h
    simp only [stackOf, List.flatMap_append, List.flatMap_cons, List.flatMap_nil, List.append_nil]
    exact List.mem_append_right _ hnode
  refine ⟨?_, stack_parsed hparsed node hin⟩
  rw [found_dirNodeByHash hparsed hfree]
  exact (dirNodeByHash_eq_some (stack_parsed hparsed) hfree).mpr ⟨hin, by simpa using List.find?_some h⟩

/-- Below an inode that stays, the same names lead to the same numbers. -/
theorem child_of_stays {inode inode' : Inode} (hhandle : inode'.contentHandle = inode.contentHandle)
    (h : InodeStays H (stackOf (older ++ [(newest, newestSlabs)])) newest inode) (name : Bytes) :
    (childAt H newest inode name = none ∧
        childAt H (foundOf H (older ++ [(newest, newestSlabs)])) inode' name = none) ∨
      ∃ number, (newest.inodeByNumber number).isSome ∧
        childAt H newest inode name = newest.inodeByNumber number ∧
        childAt H (foundOf H (older ++ [(newest, newestSlabs)])) inode' name
          = (foundOf H (older ++ [(newest, newestSlabs)])).inodeByNumber number := by
  unfold childAt
  cases hc : inode.contentHandle with
  | directory hash =>
      rw [entryOf_directory hc, entryOf_directory (hhandle.trans hc)]
      cases hnode : newest.dirNodeByHash H hash with
      | some node =>
          rw [(found_node_of_newest hparsed hfree hnode).1]
          simp only [Option.bind_some]
          cases hfind : node.entries.find? fun e => e.name == name with
          | none => exact .inl ⟨rfl, rfl⟩
          | some e =>
              simp only [Option.bind_some]
              cases hnext : newest.inodeByNumber e.inodeNumber with
              | none =>
                  refine .inl ⟨rfl, found_isNone.mpr ?_⟩
                  exact h.dangling hash hc node hnode e (List.mem_of_find?_eq_some hfind) hnext
              | some next => exact .inr ⟨e.inodeNumber, by rw [hnext]; rfl, hnext.symm, rfl⟩
      | none =>
          rw [found_dirNodeByHash hparsed hfree]
          refine .inl ⟨rfl, ?_⟩
          cases hstack : (stackOf (older ++ [(newest, newestSlabs)])).dirNodeByHash H hash with
          | none => rfl
          | some node =>
              simp only [Option.bind_some]
              cases hfind : node.entries.find? fun e => e.name == name with
              | none => rfl
              | some e =>
                  exact found_isNone.mpr
                    (h.missing hash hc hnode node hstack e (List.mem_of_find?_eq_some hfind))
  | inlineData | sharedInline | sliceMap | symlink | device | pipe =>
      left
      unfold entryOf
      rw [hhandle, hc]
      exact ⟨rfl, rfl⟩

/-- And the other way round: where no name leads further than it did, the inode stays. -/
theorem stays_of_child {number : Nat} {inode inode' : Inode}
    (hinode : newest.inodeByNumber number = some inode)
    (hfound : (foundOf H (older ++ [(newest, newestSlabs)])).inodeByNumber number = some inode')
    (hhandle : inode'.contentHandle = inode.contentHandle)
    (h : ∀ name, childAt H newest inode name = none →
      childAt H (foundOf H (older ++ [(newest, newestSlabs)])) inode' name = none) :
    InodeStays H (stackOf (older ++ [(newest, newestSlabs)])) newest inode := by
  have hnumber : inode.number = number := by simpa using List.find?_some hinode
  refine ⟨fun last hlast hsame => ?_, fun hash hc node hnode e he hnone => ?_,
    fun hash hc hnone node hnode e he => ?_⟩
  · obtain ⟨last', hlast', hnumber', hfound'⟩ := found_of_newest H older newestSlabs hinode
    rw [hfound] at hfound'
    obtain rfl : last = last' := by
      have hfind := mem_latest.mp hlast
      rw [hsame, hnumber, ← hnumber', mem_latest.mp hlast'] at hfind
      exact (Option.some.inj hfind).symm
    rw [← hhandle, Option.some.inj hfound']
    rfl
  · obtain ⟨hfoundNode, hnodeParsed⟩ := found_node_of_newest hparsed hfree hnode
    have hchild := h e.name (by
      unfold childAt
      rw [entryOf_of_parsed hc hnode hnodeParsed he, Option.bind_some, hnone])
    unfold childAt at hchild
    rw [entryOf_of_parsed (hhandle.trans hc) hfoundNode hnodeParsed he, Option.bind_some] at hchild
    exact found_isNone.mp hchild
  · have hfoundNode := (found_dirNodeByHash hparsed hfree hash).trans hnode
    have hnodeParsed := stack_parsed hparsed node (List.mem_of_find?_eq_some hnode)
    have hchild := h e.name (by
      unfold childAt
      rw [entryOf_directory hc, hnone]
      rfl)
    unfold childAt at hchild
    rw [entryOf_of_parsed (hhandle.trans hc) hfoundNode hnodeParsed he, Option.bind_some] at hchild
    exact found_isNone.mp hchild

/-- Below an inode all is shown if all stays. -/
theorem shown_of_stays (path : Path) : ∀ {number : Nat} {inode inode' : Inode},
    newest.inodeByNumber number = some inode →
    (foundOf H (older ++ [(newest, newestSlabs)])).inodeByNumber number = some inode' →
    (∀ path target, resolve H newest inode path = some target →
      InodeStays H (stackOf (older ++ [(newest, newestSlabs)])) newest target) →
    (resolve H (foundOf H (older ++ [(newest, newestSlabs)])) inode' path).map Inode.contentHandle
      = (resolve H newest inode path).map Inode.contentHandle := by
  induction path with
  | nil =>
      intro number inode inode' hinode hfound hstays
      obtain ⟨last, hlast, hsame, hfound'⟩ := found_of_newest H older newestSlabs hinode
      rw [hfound] at hfound'
      have hnumber : inode.number = number := by simpa using List.find?_some hinode
      have hcontent := (hstays [] inode rfl).content last hlast (hsame.trans hnumber.symm)
      rw [Option.some.inj hfound']
      exact congrArg some hcontent
  | cons name rest ih =>
      intro number inode inode' hinode hfound hstays
      obtain ⟨last, hlast, hsame, hfound'⟩ := found_of_newest H older newestSlabs hinode
      rw [hfound] at hfound'
      have hnumber : inode.number = number := by simpa using List.find?_some hinode
      have hstay := hstays [] inode rfl
      have hhandle : inode'.contentHandle = inode.contentHandle := by
        rw [Option.some.inj hfound']
        exact hstay.content last hlast (hsame.trans hnumber.symm)
      show ((childAt H _ inode' name).bind fun next => resolve H _ next rest).map Inode.contentHandle
        = ((childAt H newest inode name).bind fun next => resolve H newest next rest).map
            Inode.contentHandle
      rcases child_of_stays hparsed hfree hhandle hstay name with
        ⟨hnone, hnone'⟩ | ⟨child, hsome, hchild, hchild'⟩
      · rw [hnone, hnone']
        rfl
      · obtain ⟨next, hnext⟩ := Option.isSome_iff_exists.mp hsome
        obtain ⟨_, -, -, hnext'⟩ := found_of_newest H older newestSlabs hnext
        rw [hchild, hchild', hnext, hnext']
        refine ih hnext hnext' fun path target htarget => hstays (name :: path) target ?_
        show ((childAt H newest inode name).bind fun next => resolve H newest next path) = _
        rw [hchild, hnext]
        exact htarget

/-- Where all below it is shown, an inode stays. -/
theorem stays_of_shown {number : Nat} {inode inode' : Inode}
    (hinode : newest.inodeByNumber number = some inode)
    (hfound : (foundOf H (older ++ [(newest, newestSlabs)])).inodeByNumber number = some inode')
    (hshown : ∀ path, (resolve H (foundOf H (older ++ [(newest, newestSlabs)])) inode' path).map
      Inode.contentHandle = (resolve H newest inode path).map Inode.contentHandle) :
    InodeStays H (stackOf (older ++ [(newest, newestSlabs)])) newest inode := by
  refine stays_of_child hparsed hfree hinode hfound (Option.some.inj (hshown [])) fun name hnone => ?_
  have hname := hshown [name]
  change ((childAt H _ inode' name).bind some).map Inode.contentHandle
    = ((childAt H newest inode name).bind some).map Inode.contentHandle at hname
  rw [Option.bind_fun_some, Option.bind_fun_some, hnone, Option.map_none,
    Option.map_eq_none_iff] at hname
  exact hname

/-- And so does everything below. -/
theorem stays_below (path : Path) : ∀ {number : Nat} {inode inode' target : Inode},
    newest.inodeByNumber number = some inode →
    (foundOf H (older ++ [(newest, newestSlabs)])).inodeByNumber number = some inode' →
    (∀ path, (resolve H (foundOf H (older ++ [(newest, newestSlabs)])) inode' path).map
        Inode.contentHandle = (resolve H newest inode path).map Inode.contentHandle) →
    resolve H newest inode path = some target →
    InodeStays H (stackOf (older ++ [(newest, newestSlabs)])) newest target := by
  induction path with
  | nil =>
      intro number inode inode' target hinode hfound hshown htarget
      cases htarget
      exact stays_of_shown hparsed hfree hinode hfound hshown
  | cons name rest ih =>
      intro number inode inode' target hinode hfound hshown htarget
      change ((childAt H newest inode name).bind fun next => resolve H newest next rest) = _ at htarget
      rcases child_of_stays hparsed hfree (Option.some.inj (hshown []))
        (stays_of_shown hparsed hfree hinode hfound hshown) name with
        ⟨hnone, -⟩ | ⟨child, hsome, hchild, hchild'⟩
      · rw [hnone] at htarget
        cases htarget
      · obtain ⟨next, hnext⟩ := Option.isSome_iff_exists.mp hsome
        obtain ⟨_, -, -, hnext'⟩ := found_of_newest H older newestSlabs hnext
        rw [hchild, hnext] at htarget
        refine ih hnext hnext' (fun path => ?_) htarget
        have hpath := hshown (name :: path)
        change ((childAt H _ inode' name).bind fun next => resolve H _ next path).map
            Inode.contentHandle
          = ((childAt H newest inode name).bind fun next => resolve H newest next path).map
            Inode.contentHandle at hpath
        rwa [hchild, hchild', hnext, hnext'] at hpath

end

end

section

variable {H : Hash} {z : Omnizip} {layers : List Bytes}
  {older : List (MetadataBlob × List SlabIndexEntry)} {newest : MetadataBlob}
  {newestSlabs : List SlabIndexEntry}

theorem slabsUnited_of_merged {slabs : List SlabIndexEntry} {entries : List MergedSlab}
    (h : SlabsMerged slabs entries) : SlabsUnited slabs (entries.map MergedSlab.entry) := by
  have hids : (entries.map MergedSlab.entry).map SlabIndexEntry.slabId = entries.map Prod.fst := by
    rw [List.map_map]
    rfl
  refine ⟨by rw [hids]; exact h.nodup, fun id => by rw [hids, h.ids], fun entry hentry l => ?_⟩
  obtain ⟨merged, hmerged, rfl⟩ := List.mem_map.mp hentry
  refine Iff.trans ?_ (h.uris merged hmerged l.uri)
  show l ∈ merged.2.map LocatorEntry.mk ↔ l.uri ∈ merged.2
  rw [List.mem_map]
  exact ⟨fun ⟨uri, huri, heq⟩ => heq ▸ huri, fun huri => ⟨l.uri, huri, rfl⟩⟩

variable (hparsed : LayersRead z layers (older ++ [(newest, newestSlabs)]))
  (hfree : NoCollision H ((stackOf (older ++ [(newest, newestSlabs)])).dirNodes.map fun node =>
    dirNodeBytes node.entries))

include hparsed hfree

/-- The state fits, in terms of the layers. -/
theorem fits_iff : (mergedOf H (older ++ [(newest, newestSlabs)])).Fits H ↔
    (stackOf (older ++ [(newest, newestSlabs)])).flattenedLen ≤ defaultInlineMetadataMaxBytes ∧
    (∀ i ∈ latest Inode.number (stackOf (older ++ [(newest, newestSlabs)])).inodes,
      ∀ map, i.contentHandle = .sliceMap map →
        ∀ s ∈ map.slices, s.fileByteEnd - s.fileByteStart < u32Limit) ∧
    (((older ++ [(newest, newestSlabs)]).flatMap Prod.snd).foldl mergeSlab []).length < u32Limit ∧
    ∀ entry ∈ ((older ++ [(newest, newestSlabs)]).flatMap Prod.snd).foldl mergeSlab [],
      entry.2.length < u32Limit := by
  have hperm := sortedInodes_perm (mergedOf_inodes (H := H) (older ++ [(newest, newestSlabs)]))
  have hslabs : (mergedOf H (older ++ [(newest, newestSlabs)])).sortedSlabs.Perm
      (((older ++ [(newest, newestSlabs)]).flatMap Prod.snd).foldl mergeSlab []) := by
    refine (List.mergeSort_perm _ _).trans ?_
    rw [mergedOf, addAll_slabEntries]
    rfl
  have hinode : ∀ i ∈ latest Inode.number (stackOf (older ++ [(newest, newestSlabs)])).inodes,
      ((flattenInode i).isSome ↔ ∀ map, i.contentHandle = .sliceMap map →
        ∀ s ∈ map.slices, s.fileByteEnd - s.fileByteStart < u32Limit) := fun i hi =>
    flattenInode_isSome_iff (by decide) (stack_bounded hparsed i (latest_subset _ hi))
  constructor
  · intro h
    refine ⟨?_, fun i hi => (hinode i hi).mp (h.inodes i (hperm.mem_iff.mpr hi)), ?_, fun entry hentry => ?_⟩
    · rw [← merged_length hparsed hfree]
      exact h.short
    · rw [← hslabs.length_eq]
      exact h.slabCount
    · exact h.locators entry (hslabs.mem_iff.mpr hentry)
  · rintro ⟨hshort, hnarrow, hcount, hlocators⟩
    refine ⟨fun i hi => ?_, fun node hnode => ?_, ?_, fun entry hentry => ?_, ?_⟩
    · have hin := hperm.mem_iff.mp hi
      exact (hinode i hin).mpr (hnarrow i hin)
    · exact (stack_parsed hparsed node ((merged_nodes_mem hparsed hfree node).mp hnode)).fit
    · rw [hslabs.length_eq]
      exact hcount
    · exact hlocators entry (hslabs.mem_iff.mp hentry)
    · rw [merged_length hparsed hfree]
      exact hshort

section

variable {root : Nat} (hroot : newest.rootInodeNumber = some root)
  (hplain : ∀ p ∈ older ++ [(newest, newestSlabs)], ∀ i ∈ p.1.inodes,
    (∃ hash, i.contentHandle = .directory hash) ∨ (∃ data, i.contentHandle = .inlineData data) ∨
      ∃ map, i.contentHandle = .sliceMap map)

include hroot hplain

omit hparsed hfree hroot in
theorem merged_not_special : ∀ i ∈ (mergedOf H (older ++ [(newest, newestSlabs)])).sortedInodes,
    i.contentHandle.isSpecial = false := by
  intro i hi
  have hin := latest_subset _ ((sortedInodes_perm (mergedOf_inodes _)).mem_iff.mp hi)
  obtain ⟨p, hp, hin⟩ := List.mem_flatMap.mp hin
  rcases hplain p hp i hin with ⟨_, hc⟩ | ⟨_, hc⟩ | ⟨_, hc⟩
  all_goals
    rw [hc]
    rfl

theorem FlattenPresents.stays
    (h : FlattenPresents H z layers newest ((older ++ [(newest, newestSlabs)]).flatMap Prod.snd)) :
    NewestStays H (stackOf (older ++ [(newest, newestSlabs)])) newest
      ((older ++ [(newest, newestSlabs)]).flatMap Prod.snd) := by
  obtain ⟨artifact, found, foundSlabs, root', hflat, hread, hroot', hfoundRoot, hshown, -⟩ := h
  rw [hroot] at hroot'
  cases hroot'
  obtain ⟨rfl, -⟩ := Prod.mk.inj (Except.ok.inj
    ((readLayer_flatten hparsed hfree (merged_not_special hplain) hflat).symm.trans hread))
  obtain ⟨hshort, hnarrow, hcount, hlocators⟩ :=
    (fits_iff hparsed hfree).mp (flatten_read hparsed hflat).1
  refine ⟨hshort, hnarrow, hcount, hlocators, fun root' hroot' => ?_,
    fun root' inode path target hroot' hinode htarget => ?_⟩
  · rw [hroot] at hroot'
    cases hroot'
    exact (found_root hparsed hfree).mp hfoundRoot
  · rw [hroot] at hroot'
    cases hroot'
    obtain ⟨last, -, -, hfound⟩ := found_of_newest H older newestSlabs hinode
    refine stays_below hparsed hfree path hinode hfound (fun path => ?_) htarget
    have hpath := hshown path
    simp only [presentedAt, hroot, hfoundRoot, hinode, hfound, Option.bind_eq_bind,
      Option.bind_some] at hpath
    exact hpath

theorem NewestStays.presents
    (h : NewestStays H (stackOf (older ++ [(newest, newestSlabs)])) newest
      ((older ++ [(newest, newestSlabs)]).flatMap Prod.snd)) :
    FlattenPresents H z layers newest ((older ++ [(newest, newestSlabs)]).flatMap Prod.snd) := by
  have hne : layers ≠ [] := by
    rintro rfl
    exact absurd (List.forall₂_nil_left_iff.mp hparsed) (by simp)
  obtain ⟨artifact, hflat⟩ := flatten_of_fits hparsed hne
    ((fits_iff hparsed hfree).mpr ⟨h.short, h.narrow, h.slabCount, h.locators⟩)
  have hfoundRoot := (found_root hparsed hfree).mpr (h.root root hroot)
  refine ⟨artifact, _, _, root, hflat,
    readLayer_flatten hparsed hfree (merged_not_special hplain) hflat, hroot, hfoundRoot, fun path => ?_,
    slabsUnited_of_merged (mergedOf_slabs _)⟩
  obtain ⟨inode, hinode⟩ := inode_of_root hroot
  obtain ⟨last, -, -, hfound⟩ := found_of_newest H older newestSlabs hinode
  have hpath := shown_of_stays hparsed hfree path hinode hfound fun path target htarget =>
    h.inodes root inode path target hroot hinode htarget
  simp only [presentedAt, hroot, hfoundRoot, hinode, hfound, Option.bind_eq_bind, Option.bind_some]
  exact hpath

end

end

/-- **A chain is flattened to its newest layer exactly if it fits, no older directory gets in the
way of the newest root, and below that root nothing is changed, added to or filled in.** -/
theorem flatten_chain_iff {H : Hash} {z : Omnizip} {layers : List Bytes}
    {older : List (MetadataBlob × List SlabIndexEntry)} {newest : MetadataBlob}
    {newestSlabs : List SlabIndexEntry}
    (hparsed : LayersRead z layers (older ++ [(newest, newestSlabs)]))
    (hroots : ∀ p ∈ older ++ [(newest, newestSlabs)], p.1.rootInodeNumber.isSome)
    (hplain : ∀ p ∈ older ++ [(newest, newestSlabs)], ∀ i ∈ p.1.inodes,
      (∃ hash, i.contentHandle = .directory hash) ∨ (∃ data, i.contentHandle = .inlineData data) ∨
        ∃ map, i.contentHandle = .sliceMap map)
    (hfree : NoCollision H ((stackOf (older ++ [(newest, newestSlabs)])).dirNodes.map fun node =>
      dirNodeBytes node.entries)) :
    FlattenPresents H z layers newest ((older ++ [(newest, newestSlabs)]).flatMap Prod.snd) ↔
      NewestStays H (stackOf (older ++ [(newest, newestSlabs)])) newest
        ((older ++ [(newest, newestSlabs)]).flatMap Prod.snd) := by
  obtain ⟨root, hroot⟩ := Option.isSome_iff_exists.mp (hroots (newest, newestSlabs) (by simp))
  exact ⟨fun h => h.stays hparsed hfree hroot hplain, fun h => h.presents hparsed hfree hroot hplain⟩

namespace Stored

def bareRootInode (root : Nat) : Inode :=
  ⟨root, 0x41ED, 0, 0, 0, 0, 1, none, [], .directory (digest (dirNodeBytes []))⟩

/-- An image of an empty root directory with this number. -/
def bareRoot (root : Nat) : MetadataBlob := ⟨[bareRootInode root], [⟨1, []⟩]⟩

def bareRootBytes (root : Nat) : Bytes :=
  leBytes 4 1 ++ leBytes 8 root ++ leBytes 4 0x41ED ++ leBytes 4 0 ++ leBytes 4 0 ++ leBytes 8 0
    ++ leBytes 8 0 ++ leBytes 4 1 ++ [0x00] ++ (digest (dirNodeBytes [])).val ++ leBytes 4 1
    ++ dirNodeBytes []

theorem bareRoot_read {root : Nat} (h : root = 1 ∨ root = 2) :
    readLayer omnizip 0 (inlinedManifest (bareRootBytes root)) = .ok (bareRoot root, []) := by
  refine readLayer_eq_ok.mpr ⟨inlinedLayer (bareRootBytes root), bareRootBytes root, ?_, rfl, ?_, rfl⟩
  · rcases h with rfl | rfl <;> decide +kernel
  · rcases h with rfl | rfl <;> decide +kernel

theorem bareRoots_read {a b : Nat} (ha : a = 1 ∨ a = 2) (hb : b = 1 ∨ b = 2) :
    LayersRead omnizip [inlinedManifest (bareRootBytes a), inlinedManifest (bareRootBytes b)]
      ([(bareRoot a, [])] ++ [(bareRoot b, [])]) :=
  .cons (bareRoot_read ha) (.cons (bareRoot_read hb) .nil)

theorem bareRoots_plain (a b : Nat) :
    ∀ p ∈ ([(bareRoot a, [])] ++ [(bareRoot b, [])] : List (MetadataBlob × List SlabIndexEntry)),
      ∀ i ∈ p.1.inodes, (∃ hash, i.contentHandle = .directory hash) ∨
        (∃ data, i.contentHandle = .inlineData data) ∨ ∃ map, i.contentHandle = .sliceMap map := by
  intro p hp i hi
  obtain ⟨root, rfl⟩ : ∃ root, p = (bareRoot root, []) := by
    simp only [List.cons_append, List.nil_append, List.mem_cons, List.not_mem_nil, or_false] at hp
    exact hp.elim (fun h => ⟨a, h⟩) fun h => ⟨b, h⟩
  obtain rfl := List.mem_singleton.mp hi
  exact .inl ⟨_, rfl⟩

end Stored

open LimniFS.Stored

theorem flatten_chain_iff_of_one_root :
    FlattenPresents digest omnizip
        [inlinedManifest (bareRootBytes 1),
          inlinedManifest (bareRootBytes 1)] (bareRoot 1) [] ↔
      NewestStays digest
        (stackOf ([(bareRoot 1, [])] ++ [(bareRoot 1, [])])) (bareRoot 1) [] :=
  flatten_chain_iff (bareRoots_read (.inl rfl) (.inl rfl)) (by decide)
    (bareRoots_plain 1 1) (by decide)

/-- Two layers whose roots have different numbers: the flattened image has two, that is none. -/
theorem two_roots :
    LayersRead omnizip [inlinedManifest (bareRootBytes 1),
        inlinedManifest (bareRootBytes 2)]
      [(bareRoot 1, []), (bareRoot 2, [])] ∧
    (bareRoot 1).rootInodeNumber = some 1 ∧ (bareRoot 2).rootInodeNumber = some 2 ∧
    ¬ FlattenPresents digest omnizip
        [inlinedManifest (bareRootBytes 1),
          inlinedManifest (bareRootBytes 2)] (bareRoot 2) [] := by
  have hread := bareRoots_read (a := 1) (b := 2) (.inl rfl) (.inr rfl)
  refine ⟨hread, by decide, by decide, fun h => ?_⟩
  have hroot : (bareRoot 2).rootInodeNumber = some 2 := by decide
  have hstays := FlattenPresents.stays hread (by decide) hroot (bareRoots_plain 1 2) h
  obtain ⟨node, hnode, e, he, -⟩ :=
    (hstays.root 2 hroot).others (bareRootInode 1) (by decide) (by decide) (by decide)
  simp only [stackOf, bareRoot, List.flatMap_cons, List.cons_append, List.nil_append,
    List.flatMap_nil, List.mem_cons, List.not_mem_nil, or_false, or_self] at hnode
  rw [hnode] at he
  cases he

end LimniFS
