/-
What the flattener's encoder keeps of the metadata.

Of an inode of the four kinds it knows, the encoder keeps what `Inode.flattened` says, and the
parser reads that back (`reads_flattenInode`).  A device or a pipe gets four bytes where the parser
takes eight, so everything behind it is read four bytes late: the next inode then has no kind, and
if there is none the directory nodes do not all fit any more (`lost_of_special`).
-/
import LimniFS.DirNodeBytes
import LimniFS.Flatten

namespace LimniFS

open Lib Lib.Parser Cursor

/-! ### What is kept -/

/-- A slice whose drop is taken from its first byte on. -/
def SliceRef.flattened (s : SliceRef) : SliceRef :=
  { s with dropByteStart := 0, dropByteLen := s.fileByteEnd - s.fileByteStart }

theorem sliceMapGap_flattened : ∀ (slices : List SliceRef) (index start : Nat),
    sliceMapGap index start (slices.map SliceRef.flattened) = sliceMapGap index start slices := by
  intro slices
  induction slices with
  | nil => intro index start; rfl
  | cons slice rest ih =>
      intro index start
      rw [List.map_cons, sliceMapGap, sliceMapGap, ih]
      rfl

def SliceMap.flattened (map : SliceMap) : SliceMap :=
  ⟨map.slices.map SliceRef.flattened, by rw [sliceMapGap_flattened]; exact map.contiguous⟩

def ContentHandle.flattened : ContentHandle → ContentHandle
  | .inlineData data => .inlineData data
  | .sharedInline _ => .inlineData []
  | .sliceMap map => .sliceMap map.flattened
  | .directory hash => .directory hash
  | .symlink _ => .symlink []
  | handle => handle

/-- The kinds that the encoder writes too short. -/
def ContentHandle.isSpecial : ContentHandle → Bool
  | .device _ | .pipe _ => true
  | _ => false

def Inode.flattened (inode : Inode) : Inode where
  number := inode.number
  mode := inode.mode
  uid := 0
  gid := 0
  mtimeNs := inode.mtimeNs
  ctimeNs := inode.mtimeNs
  nlink := 1
  atimeNs := none
  xattrs := []
  contentHandle := inode.contentHandle.flattened

/-! ### What is known of a parsed inode -/

/-- The fields fit their widths. -/
structure Inode.Bounded (maxInlineBytes : Nat) (inode : Inode) : Prop where
  number : inode.number < 2 ^ 64
  mode : inode.mode < u32Limit
  mtimeNs : inode.mtimeNs < 2 ^ 64
  kind : inode.KindFits
  inline : ∀ data, inode.contentHandle = .inlineData data → data.length ≤ maxInlineBytes
  count : ∀ map, inode.contentHandle = .sliceMap map → map.slices.length < u32Limit
  slices : ∀ map, inode.contentHandle = .sliceMap map →
    ∀ s ∈ map.slices, s.fileByteEnd < 2 ^ 64 ∧ s.dropByteLen < u32Limit

theorem parseContentHandle_inline {mode number maxInlineBytes : Nat} {flags : UInt8}
    {data : Bytes} {bs rest : Bytes}
    (h : parseContentHandle mode flags number maxInlineBytes bs = (.ok (.inlineData data), rest)) :
    data.length ≤ maxInlineBytes := by
  unfold parseContentHandle at h
  split at h
  · split at h
    · simp only [bind_eq_ok, pure_eq_ok] at h
      obtain ⟨_, _, _, heq, -⟩ := h
      cases heq
    · split at h
      · simp only [bind_eq_ok, pure_eq_ok, ensure_eq_ok, readN_eq_ok] at h
        obtain ⟨_, _, _, _, _, ⟨hle, -⟩, _, _, ⟨hlen, -⟩, heq, -⟩ := h
        cases heq
        rwa [hlen]
      · simp only [bind_eq_ok, pure_eq_ok] at h
        obtain ⟨_, _, _, _, _, _, _, _, _, heq, -⟩ := h
        cases heq
  · split at h
    · simp only [bind_eq_ok, pure_eq_ok] at h
      obtain ⟨_, _, _, heq, -⟩ := h
      cases heq
    · split at h
      · simp only [bind_eq_ok, pure_eq_ok] at h
        obtain ⟨_, _, _, _, _, _, _, _, _, heq, -⟩ := h
        cases heq
      · split at h
        · simp only [bind_eq_ok, pure_eq_ok] at h
          obtain ⟨_, _, _, heq, -⟩ := h
          cases heq
        · split at h
          · simp only [bind_eq_ok, pure_eq_ok] at h
            obtain ⟨_, _, _, heq, -⟩ := h
            cases heq
          · cases h

theorem parseContentHandle_count {mode number maxInlineBytes : Nat} {flags : UInt8}
    {map : SliceMap} {bs rest : Bytes}
    (h : parseContentHandle mode flags number maxInlineBytes bs = (.ok (.sliceMap map), rest)) :
    map.slices.length < u32Limit := by
  obtain ⟨count, _, _, hcount, hloop⟩ := parseContentHandle_slices h
  have hlen := loop_length (fun i l bs l' rest hstep => by
    unfold parseSliceRef at hstep
    simp only [bind_eq_ok] at hstep
    obtain ⟨_, _, _, _, _, _, hstep⟩ := hstep
    split at hstep
    · simp only [bind_eq_ok, pure_eq_ok] at hstep
      obtain ⟨_, _, _, _, _, _, _, _, _, rfl, -⟩ := hstep
      simp
    · cases hstep) hloop
  rw [hlen]
  simpa using hcount

theorem parseInode_widths {maxInlineBytes : Nat} {inode : Inode} {bs rest : Bytes}
    (h : parseInodeWithCeiling maxInlineBytes bs = (.ok inode, rest)) :
    inode.number < 2 ^ 64 ∧ inode.mode < u32Limit ∧ inode.mtimeNs < 2 ^ 64 ∧
      ∃ after, bs = leBytes 8 inode.number ++ (leBytes 4 inode.mode ++ after) := by
  unfold parseInodeWithCeiling at h
  simp only [bind_eq_ok, readU64Le_eq_ok, readU32Le_eq_ok] at h
  obtain ⟨number, _, ⟨hnumber, rfl⟩, mode, after, ⟨hmode, rfl⟩, _, _, -, _, _, -, mtime, _,
    ⟨hmtime, -⟩, _, _, -, _, _, -, flags, _, _, _, _, _, h⟩ := h
  have hfields : inode.number = number ∧ inode.mode = mode ∧ inode.mtimeNs = mtime := by
    -- the optional fields sit outside the sequence, one branch each
    split at h
    all_goals
      simp only [bind_eq_ok] at h
      obtain ⟨_, _, _, h⟩ := h
      split at h
    all_goals
      simp only [bind_eq_ok, pure_eq_ok] at h
      obtain ⟨_, _, _, handle, _, hhandle, rfl, rfl⟩ := h
      exact ⟨rfl, rfl, rfl⟩
  obtain ⟨rfl, rfl, rfl⟩ := hfields
  exact ⟨hnumber, hmode, hmtime, after, rfl⟩

theorem parseInode_bounded {maxInlineBytes : Nat} {inode : Inode} {bs rest : Bytes}
    (h : parseInodeWithCeiling maxInlineBytes bs = (.ok inode, rest)) :
    inode.Bounded maxInlineBytes := by
  obtain ⟨hnumber, hmode, hmtime, -⟩ := parseInode_widths h
  obtain ⟨flags, mid, hhandle⟩ := parseInode_handle h
  exact ⟨hnumber, hmode, hmtime, parseInode_fits h,
    fun data hdata => parseContentHandle_inline (hdata ▸ hhandle),
    fun map hmap => parseContentHandle_count (hmap ▸ hhandle),
    fun map hmap => parseInode_slices_lt h hmap⟩

theorem resolveSharedInline_bounded {maxInlineBytes : Nat} {table : List Bytes} {inode inode' : Inode}
    (h : resolveSharedInline table inode = .ok inode') (htable : ∀ d ∈ table, d.length ≤ maxInlineBytes)
    (hbounded : inode.Bounded maxInlineBytes) : inode'.Bounded maxInlineBytes := by
  have hfits := resolveSharedInline_fits h hbounded.kind
  unfold resolveSharedInline at h
  split at h
  · split at h
    · next data hdata =>
        cases h
        refine ⟨hbounded.number, hbounded.mode, hbounded.mtimeNs, hfits, ?_,
          fun _ hc => (by cases hc), fun _ hc => (by cases hc)⟩
        intro data' hdata'
        cases hdata'
        exact htable _ (List.mem_of_getElem? hdata)
    · cases h
  · cases h
    exact hbounded

/-- Every inode of a blob that was accepted. -/
theorem parseMetadataBlob_bounded {maxInlineBytes : Nat} {blob : MetadataBlob} {bs rest : Bytes}
    (h : parseMetadataBlobWithCeiling maxInlineBytes bs = (.ok blob, rest)) :
    blob.inodes.length < u32Limit ∧ blob.dirNodes.length < u32Limit ∧
      (∀ inode ∈ blob.inodes, inode.Bounded maxInlineBytes) ∧
      ∀ node ∈ blob.dirNodes, node.version = directoryNodeVersion ∧ EntriesValid node.entries ∧
        EntriesFit node.entries := by
  obtain ⟨wires, -, hwires⟩ := parseMetadataBlob_dirNodes h
  simp only [parseMetadataBlobWithCeiling, bind_eq_ok, pure_eq_ok, readU32Le_eq_ok] at h
  obtain ⟨n, _, ⟨hn, -⟩, _, _, _, inodes, _, hinodes, m, _, ⟨hm, -⟩, _, _, _, nodes, _, hnodes,
    inodes', _, htable, rfl, -⟩ := h
  have hcount : inodes.length < u32Limit := by
    have hlen := loop_length (fun i l bs l' rest hstep => by
      simp only [parseInodes, bind_eq_ok, pure_eq_ok] at hstep
      obtain ⟨_, _, _, rfl, -⟩ := hstep
      simp) hinodes
    rw [hlen]
    simpa using hn
  have hnodeCount : nodes.length < u32Limit := by
    have hlen := loop_length (fun i l bs l' rest hstep => by
      simp only [parseDirNodes, bind_eq_ok, pure_eq_ok] at hstep
      obtain ⟨_, _, _, rfl, -⟩ := hstep
      simp) hnodes
    rw [hlen]
    simpa using hm
  have hbounded : ∀ inode ∈ inodes, inode.Bounded maxInlineBytes := by
    refine loop_invariant (I := fun inodes => ∀ inode ∈ inodes, Inode.Bounded maxInlineBytes inode)
      (fun _ inodes _ inodes' _ hok hstep => ?_) (fun _ hin => absurd hin List.not_mem_nil) hinodes
    simp only [parseInodes, bind_eq_ok, pure_eq_ok] at hstep
    obtain ⟨inode, _, hinode, rfl, -⟩ := hstep
    exact forall_mem_snoc hok (parseInode_bounded hinode)
  have hresolved : inodes'.length = inodes.length ∧
      ∀ inode ∈ inodes', inode.Bounded maxInlineBytes := by
    unfold parseSharedTable at htable
    split at htable
    · simp only [bind_eq_ok] at htable
      obtain ⟨_, _, _, table, mid, hloop, hmap⟩ := htable
      have hall := mapM_ok_iff.mp (liftExcept_ok hmap)
      have hshort : ∀ d ∈ table, d.length ≤ maxInlineBytes := by
        refine loop_invariant (I := fun table => ∀ d ∈ table, d.length ≤ maxInlineBytes)
          (fun _ table _ table' _ hok hstep => ?_) (fun _ hin => absurd hin List.not_mem_nil) hloop
        simp only [parseSharedInline, bind_eq_ok, pure_eq_ok, ensure_eq_ok, readN_eq_ok] at hstep
        obtain ⟨_, _, _, _, _, ⟨hle, -⟩, data, _, ⟨hlen, -⟩, rfl, -⟩ := hstep
        exact forall_mem_snoc hok (by rwa [hlen])
      refine ⟨hall.length_eq.symm, fun inode' hinode' => ?_⟩
      obtain ⟨inode, hinode, hres⟩ := exists_mem_of_forall₂ hall inode' hinode'
      exact resolveSharedInline_bounded hres hshort (hbounded inode hinode)
    · cases htable
      exact ⟨rfl, hbounded⟩
  refine ⟨by rw [hresolved.1]; exact hcount, hnodeCount, hresolved.2, fun node hnode => ?_⟩
  obtain ⟨wire, -, hwire⟩ := exists_mem_of_forall₂ hwires node hnode
  obtain ⟨hversion, hvalid, hfit, -⟩ := parseDirectoryNode_eq_ok.mp hwire
  exact ⟨hversion, hvalid, hfit⟩

/-! ### What is read back -/

theorem flattenSlice_eq_some {slice : SliceRef} {enc : Bytes} :
    flattenSlice slice = some enc ↔ slice.fileByteEnd - slice.fileByteStart < u32Limit ∧
      enc = leBytes 8 slice.fileByteStart ++ leBytes 8 slice.fileByteEnd ++ slice.dropId.val
        ++ leBytes 4 0 ++ leBytes 4 (slice.fileByteEnd - slice.fileByteStart) := by
  unfold flattenSlice
  simp only [Option.bind_eq_bind, Option.bind_eq_some_iff, u32Bytes_eq_some, Option.some.injEq]
  constructor
  · rintro ⟨_, ⟨hlt, rfl⟩, rfl⟩
    exact ⟨hlt, rfl⟩
  · rintro ⟨hlt, rfl⟩
    exact ⟨_, ⟨hlt, rfl⟩, rfl⟩

theorem flattenInode_isSome_iff {maxInlineBytes : Nat} {inode : Inode} (hmax : maxInlineBytes < u32Limit)
    (h : inode.Bounded maxInlineBytes) : (flattenInode inode).isSome ↔
      ∀ map, inode.contentHandle = .sliceMap map →
        ∀ s ∈ map.slices, s.fileByteEnd - s.fileByteStart < u32Limit := by
  unfold flattenInode
  rw [Option.isSome_map]
  cases hc : inode.contentHandle with
  | inlineData data =>
      have hlen : data.length < u32Limit := Nat.lt_of_le_of_lt (h.inline data hc) hmax
      rw [flattenContent, sizedBytes_eq_some.mpr ⟨hlen, rfl⟩]
      exact iff_of_true rfl nofun
  | sliceMap map =>
      have hslices : (map.slices.mapM flattenSlice).isSome ↔
          ∀ s ∈ map.slices, s.fileByteEnd - s.fileByteStart < u32Limit := by
        rw [mapM_isSome_iff]
        refine forall₂_congr fun s _ => ⟨fun hs => ?_, fun hlt => ?_⟩
        · obtain ⟨enc, henc⟩ := Option.isSome_iff_exists.mp hs
          exact (flattenSlice_eq_some.mp henc).1
        · rw [flattenSlice_eq_some.mpr ⟨hlt, rfl⟩]
          rfl
      simp only [flattenContent, u32Bytes_eq_some.mpr ⟨h.count map hc, rfl⟩, Option.bind_eq_bind,
        Option.bind_some, Option.isSome_bind, Option.isSome_some, Option.any_true, hslices,
        ContentHandle.sliceMap.injEq, forall_eq']
  | sharedInline | directory | symlink | device | pipe => exact iff_of_true rfl nofun

theorem reads_flattenSlice {slice : SliceRef} {enc : Bytes} (h : flattenSlice slice = some enc)
    (hend : slice.fileByteEnd < 2 ^ 64) (number index : Nat) (done : List SliceRef) :
    Reads (parseSliceRef number index done) enc (done ++ [slice.flattened]) := by
  obtain ⟨hlt, rfl⟩ := flattenSlice_eq_some.mp h
  have hstart := slice.start_lt_end
  simp only [List.append_assoc]
  refine (reads_readU64Le (by omega)).bind ?_
  refine (reads_readU64Le hend).bind ?_
  rw [dif_pos hstart]
  refine (reads_readHash slice.dropId).bind ?_
  refine (reads_readU32Le (by decide)).bind ?_
  exact (reads_readU32Le hlt).map fun len => done ++ [(⟨slice.fileByteStart, slice.fileByteEnd,
    slice.dropId, 0, len, hstart⟩ : SliceRef)]

/-- A slice map is read back, its slices taken from the front of their drops. -/
theorem reads_flattenSlices {map : SliceMap} {encs : List Bytes}
    (henc : map.slices.mapM flattenSlice = some encs) (hcount : map.slices.length < u32Limit)
    (hends : ∀ s ∈ map.slices, s.fileByteEnd < 2 ^ 64) (number : Nat) :
    Reads (do
      let sliceCount ← readU32Le
      let slices ← loop (parseSliceRef number) sliceCount 0 []
      let map ← liftExcept (validateSliceMap number slices)
      pure (.sliceMap map) : CoreParser ContentHandle)
      (leBytes 4 map.slices.length ++ encs.flatten) (.sliceMap map.flattened) := by
  have heach : List.Forall₂ (fun enc ref => ∀ i done,
      Reads (parseSliceRef number i done) enc (done ++ [ref])) encs
      (map.slices.map SliceRef.flattened) := by
    rw [List.forall₂_map_right_iff]
    refine ((forall₂_and_mem_left (mapM_some_iff.mp henc)).imp ?_).flip
    rintro slice enc ⟨hslice, hmem⟩ i done
    exact reads_flattenSlice hslice (hends slice hmem) number i done
  refine (reads_readU32Le hcount).bind ?_
  have hcountMap : map.slices.length = (map.slices.map SliceRef.flattened).length := by
    rw [List.length_map]
  rw [hcountMap, ← List.append_nil encs.flatten]
  refine (reads_loop_each heach 0 []).bind ?_
  exact (reads_liftExcept (validateSliceMap_ok map.flattened.contiguous)).map ContentHandle.sliceMap

/-- The content of a kind that the encoder knows, under flags that say nothing else. -/
theorem reads_flattenContent {handle : ContentHandle} {enc : Bytes} {mode maxInlineBytes : Nat}
    (number : Nat) (henc : flattenContent handle = some enc) (hplain : handle.isSpecial = false)
    (hkind : HandleFits (mode &&& sIfmt) handle)
    (hinline : ∀ data, handle = .inlineData data → data.length ≤ maxInlineBytes)
    (hcount : ∀ map, handle = .sliceMap map → map.slices.length < u32Limit)
    (hends : ∀ map, handle = .sliceMap map → ∀ s ∈ map.slices, s.fileByteEnd < 2 ^ 64) :
    ∃ flags body, enc = [flags] ++ body ∧ (flags = 0x00 ∨ flags = 0x04) ∧
      Reads (parseContentHandle mode flags number maxInlineBytes) body handle.flattened := by
  unfold parseContentHandle
  cases handle with
  | inlineData data =>
      have htype : mode &&& sIfmt = sIfreg := hkind
      obtain ⟨_, hsized, rfl⟩ := Option.map_eq_some_iff.mp henc
      obtain ⟨hlen, rfl⟩ := sizedBytes_eq_some.mp hsized
      refine ⟨0x04, _, rfl, .inr rfl, ?_⟩
      simp only [htype]
      rw [if_pos trivial, if_neg (by decide), if_pos (by decide)]
      refine (reads_readU32Le hlen).bind ?_
      refine (reads_ensure (hinline data rfl)).bind_nil ?_
      exact (reads_readN rfl).map ContentHandle.inlineData
  | sharedInline index =>
      have htype : mode &&& sIfmt = sIfreg := hkind
      cases henc
      refine ⟨0x04, _, rfl, .inr rfl, ?_⟩
      simp only [htype]
      rw [if_pos trivial, if_neg (by decide), if_pos (by decide)]
      rw [← List.append_nil (leBytes 4 0)]
      refine (reads_readU32Le (by decide)).bind ?_
      refine (reads_ensure (Nat.zero_le _)).bind_nil ?_
      exact (reads_readN (l := []) rfl).map ContentHandle.inlineData
  | sliceMap map =>
      have htype : mode &&& sIfmt = sIfreg := hkind
      simp only [flattenContent, Option.bind_eq_bind, Option.bind_eq_some_iff, u32Bytes_eq_some,
        Option.some.injEq] at henc
      obtain ⟨_, ⟨-, rfl⟩, encs, hencs, rfl⟩ := henc
      refine ⟨0x00, leBytes 4 map.slices.length ++ encs.flatten, List.append_assoc .., .inl rfl, ?_⟩
      simp only [htype]
      rw [if_pos trivial, if_neg (by decide), if_neg (by decide)]
      exact reads_flattenSlices hencs (hcount map rfl) (hends map rfl) number
  | directory hash =>
      have htype : mode &&& sIfmt = sIfdir := hkind
      cases henc
      refine ⟨0x00, _, rfl, .inl rfl, ?_⟩
      simp only [htype]
      rw [if_neg (by decide), if_pos trivial]
      exact (reads_readHash hash).map ContentHandle.directory
  | symlink target =>
      have htype : mode &&& sIfmt = sIflnk := hkind
      cases henc
      refine ⟨0x00, _, rfl, .inl rfl, ?_⟩
      simp only [htype]
      rw [if_neg (by decide), if_neg (by decide), if_pos trivial, ← List.append_nil (leBytes 4 0)]
      refine (reads_readU32Le (by decide)).bind ?_
      refine (reads_readN (l := []) rfl).bind_nil ?_
      exact (reads_ensure (by decide)).bind_nil (reads_pure _)
  | device dev => cases hplain
  | pipe pipeId => cases hplain

/-- What is read in front of the flags. -/
theorem parseInode_prefix {maxInlineBytes : Nat} {inode : Inode} (h : inode.Bounded maxInlineBytes)
    {flags : UInt8} (hflags : flags = 0x00 ∨ flags = 0x04) (rest : Bytes) :
    parseInodeWithCeiling maxInlineBytes (flattenPrefix inode ++ ([flags] ++ rest))
      = (do
          let handle ← parseContentHandle inode.mode flags inode.number maxInlineBytes
          pure ⟨inode.number, inode.mode, 0, 0, inode.mtimeNs, inode.mtimeNs, 1, none, [], handle⟩ :
          CoreParser Inode) rest := by
  unfold flattenPrefix parseInodeWithCeiling
  simp only [List.append_assoc]
  rw [(reads_readU64Le h.number).bind_append, (reads_readU32Le h.mode).bind_append,
    (reads_readU32Le (by decide)).bind_append, (reads_readU32Le (by decide)).bind_append,
    (reads_readU64Le h.mtimeNs).bind_append, (reads_readU64Le h.mtimeNs).bind_append,
    (reads_readU32Le (by decide)).bind_append, (reads_readU8 flags).bind_append]
  rcases hflags with rfl | rfl
  · rw [(reads_ensure (by decide)).bind_nil_apply, if_neg (by decide),
      (reads_pure none).bind_nil_apply, if_neg (by decide), (reads_pure []).bind_nil_apply]
  · rw [(reads_ensure (by decide)).bind_nil_apply, if_neg (by decide),
      (reads_pure none).bind_nil_apply, if_neg (by decide), (reads_pure []).bind_nil_apply]

/-- **An inode of a kind that the encoder knows is read back as what is kept of it.** -/
theorem reads_flattenInode {maxInlineBytes : Nat} {inode : Inode} {enc : Bytes}
    (h : inode.Bounded maxInlineBytes) (hplain : inode.contentHandle.isSpecial = false)
    (henc : flattenInode inode = some enc) :
    Reads (parseInodeWithCeiling maxInlineBytes) enc inode.flattened := by
  obtain ⟨content, hcontent, rfl⟩ := Option.map_eq_some_iff.mp henc
  obtain ⟨flags, body, rfl, hflags, hreads⟩ := reads_flattenContent inode.number hcontent hplain h.kind
    h.inline h.count
    fun map hmap s hs => (h.slices map hmap s hs).1
  intro rest
  rw [List.append_assoc, List.append_assoc, parseInode_prefix h hflags]
  exact (hreads.map _) rest

end LimniFS
