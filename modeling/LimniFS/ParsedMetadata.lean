/-
What the parser has checked of a metadata blob.

Whatever its bytes were, a blob that was accepted has directory nodes whose names are
not empty, hold no `/` and come in strictly increasing order, and inodes whose content
handle is of the kind their mode says.
-/
import LimniFS.Metadata
import LimniFS.Lib.TreePatch
import LimniFS.Lib.ParallelMap

namespace LimniFS

open Lib Lib.Parser

/-! ### Directory nodes -/

/-- The names of a directory node: in strictly increasing order, each a component of a path. -/
structure NamesOK (entries : List DirEntry) : Prop where
  sorted : entries.Pairwise fun a b => a.name < b.name
  names : ∀ e ∈ entries, PathText.IsName slash e.name
  text : ∀ e ∈ entries, utf8Valid e.name = true

theorem nodup_of_sorted {entries : List DirEntry} (h : entries.Pairwise fun a b => a.name < b.name) :
    (entries.map DirEntry.name).Nodup := by
  refine List.pairwise_map.mpr (h.imp fun hlt heq => ?_)
  exact List.lt_irrefl _ (heq ▸ hlt)

theorem NamesOK.eq_of_name {entries : List DirEntry} (h : NamesOK entries) {a b : DirEntry}
    (ha : a ∈ entries) (hb : b ∈ entries) (hname : a.name = b.name) : a = b :=
  List.inj_on_of_nodup_map (nodup_of_sorted h.sorted) ha hb hname

theorem NamesOK.append {entries : List DirEntry} {e : DirEntry} (h : NamesOK entries)
    (hname : PathText.IsName slash e.name) (htext : utf8Valid e.name = true)
    (hafter : sortedAfter entries e.name) : NamesOK (entries ++ [e]) := by
  refine ⟨List.pairwise_append.mpr ⟨h.sorted, List.pairwise_singleton .., ?_⟩,
    forall_mem_snoc h.names hname, forall_mem_snoc h.text htext⟩
  · intro a ha b hb
    obtain rfl := List.mem_singleton.mp hb
    -- the last name is the largest, so it is enough to be after that one
    obtain ⟨init, last, rfl⟩ : ∃ init last, entries = init ++ [last] :=
      ⟨entries.dropLast, entries.getLast (List.ne_nil_of_mem ha),
        (List.dropLast_append_getLast _).symm⟩
    have hlast : last.name < b.name := hafter last (by simp)
    rcases List.mem_append.mp ha with hinit | hin
    · have hlt := (List.pairwise_append.mp h.sorted).2.2 a hinit last List.mem_cons_self
      exact List.lt_trans hlt hlast
    · obtain rfl := List.mem_singleton.mp hin
      exact hlast

theorem parseDirEntry_names {index : Nat} {entries entries' : List DirEntry} {bs rest : Bytes}
    (h : parseDirEntry index entries bs = (.ok entries', rest)) (hok : NamesOK entries) :
    NamesOK entries' := by
  simp only [parseDirEntry, bind_eq_ok, pure_eq_ok, ensure_eq_ok] at h
  obtain ⟨_, _, _, name, _, _, _, _, ⟨hne, rfl⟩, _, _, ⟨hslash, rfl⟩, _, _, ⟨-, rfl⟩, _, _, ⟨htext, rfl⟩,
    _, _, ⟨hafter, rfl⟩, number, _, _, type, _, _, _, _, ⟨-, rfl⟩, rfl, -⟩ := h
  exact hok.append ⟨hne, hslash⟩ htext hafter

theorem parseDirectoryNode_names {node : DirectoryNode} {bs rest : Bytes}
    (h : parseDirectoryNode bs = (.ok node, rest)) : NamesOK node.entries := by
  simp only [parseDirectoryNode, bind_eq_ok, pure_eq_ok, ensure_eq_ok] at h
  obtain ⟨_, _, _, _, _, ⟨-, rfl⟩, count, _, _, entries, _, hloop, rfl, -⟩ := h
  refine loop_invariant (fun _ _ _ _ _ hok hstep => parseDirEntry_names hstep hok) ?_ hloop
  exact ⟨List.Pairwise.nil, nofun, nofun⟩

/-! ### Inodes -/

/-- The kind a content handle is parsed as. -/
def HandleFits (fileType : Nat) : ContentHandle → Prop
  | .inlineData _ | .sharedInline _ | .sliceMap _ => fileType = sIfreg
  | .directory _ => fileType = sIfdir
  | .symlink _ => fileType = sIflnk
  | .device _ => fileType = sIfblk ∨ fileType = sIfchr
  | .pipe _ => fileType = sIfifo ∨ fileType = sIfsock

/-- The content handle is of the kind the mode says. -/
def Inode.KindFits (inode : Inode) : Prop := HandleFits inode.fileType inode.contentHandle

theorem Inode.KindFits.isDirectory_iff {inode : Inode} (h : inode.KindFits) :
    inode.isDirectory = true ↔ ∃ hash, inode.contentHandle = .directory hash := by
  unfold Inode.KindFits at h
  unfold Inode.isDirectory
  rw [beq_iff_eq]
  cases hc : inode.contentHandle with
  | directory hash =>
      rw [hc] at h
      exact ⟨fun _ => ⟨hash, rfl⟩, fun _ => h⟩
  | inlineData data | sharedInline index | sliceMap map =>
      rw [hc] at h
      rw [show inode.fileType = sIfreg from h]
      simp [sIfreg, sIfdir]
  | symlink target =>
      rw [hc] at h
      rw [show inode.fileType = sIflnk from h]
      simp [sIflnk, sIfdir]
  | device dev =>
      rw [hc] at h
      rcases h with h | h
      · rw [h]
        simp [sIfblk, sIfdir]
      · rw [h]
        simp [sIfchr, sIfdir]
  | pipe pipeId =>
      rw [hc] at h
      rcases h with h | h
      · rw [h]
        simp [sIfifo, sIfdir]
      · rw [h]
        simp [sIfsock, sIfdir]

theorem parseContentHandle_fits {mode number maxInlineBytes : Nat} {flags : UInt8}
    {handle : ContentHandle} {bs rest : Bytes}
    (h : parseContentHandle mode flags number maxInlineBytes bs = (.ok handle, rest)) :
    HandleFits (mode &&& sIfmt) handle := by
  unfold parseContentHandle at h
  split at h
  · next hreg =>
      split at h
      · simp only [bind_eq_ok, pure_eq_ok] at h
        obtain ⟨_, _, _, rfl, -⟩ := h
        exact hreg
      · split at h
        · simp only [bind_eq_ok, pure_eq_ok] at h
          obtain ⟨_, _, _, _, _, _, _, _, _, rfl, -⟩ := h
          exact hreg
        · simp only [bind_eq_ok, pure_eq_ok] at h
          obtain ⟨_, _, _, _, _, _, _, _, _, rfl, -⟩ := h
          exact hreg
  · split at h
    · next hdir =>
        simp only [bind_eq_ok, pure_eq_ok] at h
        obtain ⟨_, _, _, rfl, -⟩ := h
        exact hdir
    · split at h
      · next hlnk =>
          simp only [bind_eq_ok, pure_eq_ok] at h
          obtain ⟨_, _, _, _, _, _, _, _, _, rfl, -⟩ := h
          exact hlnk
      · split at h
        · next hdev =>
            simp only [bind_eq_ok, pure_eq_ok] at h
            obtain ⟨_, _, _, rfl, -⟩ := h
            exact hdev
        · split at h
          · next hpipe =>
              simp only [bind_eq_ok, pure_eq_ok] at h
              obtain ⟨_, _, _, rfl, -⟩ := h
              exact hpipe
          · cases h

/-- A parsed inode has a parsed handle. -/
theorem parseInode_handle {maxInlineBytes : Nat} {inode : Inode} {bs rest : Bytes}
    (h : parseInodeWithCeiling maxInlineBytes bs = (.ok inode, rest)) :
    ∃ flags mid, parseContentHandle inode.mode flags inode.number maxInlineBytes mid =
      (.ok inode.contentHandle, rest) := by
  unfold parseInodeWithCeiling at h
  simp only [bind_eq_ok] at h
  obtain ⟨_, _, _, mode, _, _, _, _, _, _, _, _, _, _, _, _, _, _, _, _, _, flags, _, _, _, _, _, h⟩ := h
  -- the optional fields sit outside the sequence, one branch each
  split at h
  all_goals
    simp only [bind_eq_ok] at h
    obtain ⟨_, _, _, h⟩ := h
    split at h
  all_goals
    simp only [bind_eq_ok, pure_eq_ok] at h
    obtain ⟨_, _, _, handle, _, hhandle, rfl, rfl⟩ := h
    exact ⟨flags, _, hhandle⟩

theorem parseInode_fits {maxInlineBytes : Nat} {inode : Inode} {bs rest : Bytes}
    (h : parseInodeWithCeiling maxInlineBytes bs = (.ok inode, rest)) : inode.KindFits := by
  obtain ⟨flags, mid, hhandle⟩ := parseInode_handle h
  exact parseContentHandle_fits hhandle

theorem parseSliceRef_lt {number index : Nat} {slices slices' : List SliceRef} {bs rest : Bytes}
    (hslices : ∀ s ∈ slices, s.fileByteEnd < 2 ^ 64 ∧ s.dropByteLen < u32Limit)
    (h : parseSliceRef number index slices bs = (.ok slices', rest)) :
    ∀ s ∈ slices', s.fileByteEnd < 2 ^ 64 ∧ s.dropByteLen < u32Limit := by
  unfold parseSliceRef at h
  simp only [bind_eq_ok] at h
  obtain ⟨_, _, _, _, _, hend, h⟩ := h
  split at h
  · simp only [bind_eq_ok, pure_eq_ok, Cursor.readU32Le_eq_ok] at h
    obtain ⟨_, _, _, _, _, _, _, _, ⟨hlen, -⟩, rfl, -⟩ := h
    exact forall_mem_snoc hslices ⟨Cursor.readU64Le_lt hend, hlen⟩
  · cases h

theorem validateSliceMap_slices {number : Nat} {slices : List SliceRef} {map : SliceMap}
    (h : validateSliceMap number slices = .ok map) : map.slices = slices := by
  unfold validateSliceMap at h
  split at h
  · cases h
    rfl
  · cases h

theorem liftExcept_ok {α : Type} {r : Except CoreError α} {a : α} {bs rest : Bytes}
    (h : liftExcept r bs = (.ok a, rest)) : r = .ok a := by
  cases r with
  | error e => cases h
  | ok b =>
      cases h
      rfl

/-- A parsed slice map comes from as many slices as its count says. -/
theorem parseContentHandle_slices {mode number maxInlineBytes : Nat} {flags : UInt8}
    {map : SliceMap} {bs rest : Bytes}
    (h : parseContentHandle mode flags number maxInlineBytes bs = (.ok (.sliceMap map), rest)) :
    ∃ count mid mid', count < u32Limit ∧
      loop (parseSliceRef number) count 0 [] mid = (.ok map.slices, mid') := by
  unfold parseContentHandle at h
  split at h
  · split at h
    · simp only [bind_eq_ok, pure_eq_ok] at h
      obtain ⟨_, _, _, heq, -⟩ := h
      cases heq
    · split at h
      · simp only [bind_eq_ok, pure_eq_ok] at h
        obtain ⟨_, _, _, _, _, _, _, _, _, heq, -⟩ := h
        cases heq
      · simp only [bind_eq_ok, pure_eq_ok, Cursor.readU32Le_eq_ok] at h
        obtain ⟨count, _, ⟨hcount, -⟩, slices, _, hloop, map', _, hmap, heq, -⟩ := h
        cases heq
        rw [validateSliceMap_slices (liftExcept_ok hmap)]
        exact ⟨count, _, _, hcount, hloop⟩
  · split at h
    · simp only [bind_eq_ok, pure_eq_ok] at h
      obtain ⟨_, _, _, heq, -⟩ := h
      cases heq
    · split at h
      · simp only [bind_eq_ok, pure_eq_ok] at h
        obtain ⟨_, _, _, _, _, _, _, _, _, heq, -⟩ := h
        cases heq
      · split at h
        · simp only [bind_eq_ok, pure_eq_ok] at h
          obtain ⟨_, _, _, heq, -⟩ := h
          cases heq
        · split at h
          · simp only [bind_eq_ok, pure_eq_ok] at h
            obtain ⟨_, _, _, heq, -⟩ := h
            cases heq
          · cases h

theorem parseInode_slices_lt {maxInlineBytes : Nat} {inode : Inode} {bs rest : Bytes}
    (h : parseInodeWithCeiling maxInlineBytes bs = (.ok inode, rest)) {map : SliceMap}
    (hmap : inode.contentHandle = .sliceMap map) :
    ∀ s ∈ map.slices, s.fileByteEnd < 2 ^ 64 ∧ s.dropByteLen < u32Limit := by
  obtain ⟨flags, mid, hhandle⟩ := parseInode_handle h
  rw [hmap] at hhandle
  obtain ⟨_, _, _, -, hloop⟩ := parseContentHandle_slices hhandle
  exact loop_invariant
    (I := fun slices => ∀ s ∈ slices, s.fileByteEnd < 2 ^ 64 ∧ s.dropByteLen < u32Limit)
    (fun _ _ _ _ _ hs hstep => parseSliceRef_lt hs hstep) (fun _ hs => absurd hs List.not_mem_nil) hloop

theorem resolveSharedInline_fits {table : List Bytes} {inode inode' : Inode}
    (h : resolveSharedInline table inode = .ok inode') (hfits : inode.KindFits) :
    inode'.KindFits := by
  unfold resolveSharedInline at h
  split at h
  · next index hshared =>
      split at h
      · cases h
        unfold Inode.KindFits at hfits ⊢
        rw [hshared] at hfits
        exact hfits
      · cases h
  · cases h
    exact hfits

/-! ### The blob -/

/-- What is known of every blob that was accepted. -/
structure MetadataBlob.WellFormed (blob : MetadataBlob) : Prop where
  names : ∀ node ∈ blob.dirNodes, NamesOK node.entries
  kinds : ∀ inode ∈ blob.inodes, inode.KindFits

theorem parseSharedTable_fits {maxInlineBytes : Nat} {inodes inodes' : List Inode} {bs rest : Bytes}
    (h : parseSharedTable maxInlineBytes inodes bs = (.ok inodes', rest))
    (hfits : ∀ inode ∈ inodes, inode.KindFits) : ∀ inode ∈ inodes', inode.KindFits := by
  unfold parseSharedTable at h
  split at h
  · simp only [bind_eq_ok] at h
    obtain ⟨_, _, _, table, mid, _, hmap⟩ := h
    have hok : inodes.mapM (resolveSharedInline table) = .ok inodes' := by
      cases hres : inodes.mapM (resolveSharedInline table) with
      | error e =>
          rw [hres] at hmap
          cases hmap
      | ok resolved =>
          rw [hres] at hmap
          exact congrArg Except.ok (pure_eq_ok.mp hmap).1
    intro inode' hinode'
    obtain ⟨inode, hinode, hres⟩ := exists_mem_of_forall₂ (mapM_ok_iff.mp hok) inode' hinode'
    exact resolveSharedInline_fits hres (hfits inode hinode)
  · cases h
    exact hfits

theorem parseMetadataBlob_wellFormed {maxInlineBytes : Nat} {blob : MetadataBlob} {bs rest : Bytes}
    (h : parseMetadataBlobWithCeiling maxInlineBytes bs = (.ok blob, rest)) : blob.WellFormed := by
  simp only [parseMetadataBlobWithCeiling, bind_eq_ok, pure_eq_ok] at h
  obtain ⟨_, _, _, _, _, _, inodes, _, hinodes, _, _, _, _, _, _, nodes, _, hnodes, inodes', _, htable,
    rfl, -⟩ := h
  refine ⟨?_, ?_⟩
  · refine loop_invariant (I := fun nodes => ∀ node ∈ nodes, NamesOK node.entries)
      (fun _ nodes _ nodes' _ hok hstep => ?_) nofun hnodes
    simp only [parseDirNodes, bind_eq_ok, pure_eq_ok] at hstep
    obtain ⟨node, _, hnode, rfl, -⟩ := hstep
    exact forall_mem_snoc hok (parseDirectoryNode_names hnode)
  · refine parseSharedTable_fits htable ?_
    refine loop_invariant (I := fun inodes => ∀ inode ∈ inodes, inode.KindFits)
      (fun _ inodes _ inodes' _ hok hstep => ?_) nofun hinodes
    simp only [parseInodes, bind_eq_ok, pure_eq_ok] at hstep
    obtain ⟨inode, _, hinode, rfl, -⟩ := hstep
    exact forall_mem_snoc hok (parseInode_fits hinode)

/-! ### The root -/

/-- A directory refers to the number. -/
def MetadataBlob.Refers (blob : MetadataBlob) (number : Nat) : Prop :=
  ∃ node ∈ blob.dirNodes, ∃ e ∈ node.entries, e.inodeNumber = number

/-- The directories that nothing refers to. -/
def MetadataBlob.roots (blob : MetadataBlob) : List Inode :=
  blob.inodes.filter fun i => i.isDirectory &&
    !(blob.dirNodes.flatMap fun node => node.entries.map DirEntry.inodeNumber).contains i.number

theorem mem_roots {blob : MetadataBlob} {i : Inode} :
    i ∈ blob.roots ↔ i ∈ blob.inodes ∧ i.isDirectory = true ∧ ¬ blob.Refers i.number := by
  simp [MetadataBlob.roots, MetadataBlob.Refers]

theorem rootInodeNumber_eq_some {blob : MetadataBlob} {root : Nat} :
    blob.rootInodeNumber = some root ↔ ∃ i, blob.roots = [i] ∧ i.number = root := by
  have hroots : (blob.inodes.filter fun i => i.isDirectory && !(blob.dirNodes.flatMap fun node =>
      node.entries.map DirEntry.inodeNumber).contains i.number) = blob.roots := rfl
  unfold MetadataBlob.rootInodeNumber
  simp only
  rw [hroots]
  rcases blob.roots with _ | ⟨i, _ | ⟨j, rest⟩⟩
  · simp
  · simp
  · simp

theorem eq_singleton_of_key {α β : Type} {key : α → β} {l : List α} (h : (l.map key).Nodup) {a : α}
    (ha : a ∈ l) (hall : ∀ b ∈ l, key b = key a) : l = [a] := by
  match l with
  | [] => cases ha
  | [b] => rw [List.mem_singleton.mp ha]
  | b :: c :: rest =>
      rw [List.map_cons, List.map_cons, List.nodup_cons] at h
      refine absurd ?_ h.1
      rw [hall b (by simp), ← hall c (by simp)]
      exact List.mem_cons_self

theorem rootInodeNumber_iff {blob : MetadataBlob} (h : (blob.inodes.map Inode.number).Nodup)
    {root : Nat} : blob.rootInodeNumber = some root ↔
      (∃ i ∈ blob.inodes, i.number = root ∧ i.isDirectory = true) ∧ ¬ blob.Refers root ∧
        ∀ i ∈ blob.inodes, i.isDirectory = true → i.number ≠ root → blob.Refers i.number := by
  rw [rootInodeNumber_eq_some]
  constructor
  · rintro ⟨i, heq, rfl⟩
    obtain ⟨hin, hdir, hfree⟩ := mem_roots.mp (heq ▸ List.mem_singleton_self i)
    refine ⟨⟨i, hin, rfl, hdir⟩, hfree, fun j hj hjdir hne => ?_⟩
    by_contra hjfree
    have hjroot := mem_roots.mpr ⟨hj, hjdir, hjfree⟩
    rw [heq, List.mem_singleton] at hjroot
    exact hne (by rw [hjroot])
  · rintro ⟨⟨i, hin, rfl, hdir⟩, hfree, hothers⟩
    refine ⟨i, eq_singleton_of_key ((List.filter_sublist.map _).nodup h)
      (mem_roots.mpr ⟨hin, hdir, hfree⟩) fun j hj => ?_, rfl⟩
    obtain ⟨hjin, hjdir, hjfree⟩ := mem_roots.mp hj
    by_contra hne
    exact hjfree (hothers j hjin hjdir hne)

theorem inode_of_root {blob : MetadataBlob} {number : Nat} (h : blob.rootInodeNumber = some number) :
    ∃ inode, blob.inodeByNumber number = some inode := by
  obtain ⟨root, hroots, rfl⟩ := rootInodeNumber_eq_some.mp h
  obtain ⟨hmem, -⟩ := mem_roots.mp (hroots ▸ List.mem_singleton_self root)
  exact Option.isSome_iff_exists.mp (List.find?_isSome.mpr ⟨root, hmem, beq_self_eq_true root.number⟩)

end LimniFS
