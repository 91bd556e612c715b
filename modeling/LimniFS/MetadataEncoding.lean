/-
What a reader makes of an encoded inode.

`WriteContext.Coherent` is what every writer keeps of its context: the type in the mode
fits the content, slices follow each other from the first byte, and names and
attributes are what the file system has.

Attributes stand between the flags and the content, and the flags and the mode say how
the content is laid down.  `ContentBody` says once what `encode_inode` can write for a
content; behind the fixed fields and the attributes (`parseFlags_apply`) the reader
comes to it and reads it back (`reads_parseInode`), a shared content as its index.
-/
import LimniFS.DropClosure

namespace LimniFS

open Lib Lib.Parser Cursor

/-! ### What a writer keeps of its context -/

/-- The type bits that go with a content. -/
def PendingContent.fileType : PendingContent → Nat
  | .inline _ | .dropBacked _ _ => sIfreg
  | .symlink _ => sIflnk
  | .directory _ => sIfdir

structure XAttr.Valid (x : XAttr) : Prop where
  scope : x.namespace_ ≤ 0x03
  utf8 : utf8Valid x.key = true
  noNul : 0 ∉ x.key

structure DirEntry.Valid (e : DirEntry) : Prop where
  nonempty : e.name ≠ []
  noSlash : slash ∉ e.name
  noNul : 0 ∉ e.name
  utf8 : utf8Valid e.name = true
  number : e.inodeNumber < 2 ^ 64
  type : e.entryType ∈ [EntryType.file, EntryType.directory, EntryType.symlink, EntryType.special]

/-- The entries of a directory: valid, each name once and in order. -/
structure EntriesValid (entries : List DirEntry) : Prop where
  each : ∀ e ∈ entries, e.Valid
  sorted : entries.Pairwise fun a b => a.name < b.name

/-- The slices of a file lead from its first byte to its last, a target is text. -/
def PendingContent.Valid (maxInlineBytes : Nat) : PendingContent → Prop
  | .inline data => data.length ≤ maxInlineBytes
  | .dropBacked _ slices => ∃ stop, stop < 2 ^ 64 ∧ Contiguous 0 slices stop
  | .symlink target => utf8Valid target = true
  | .directory _ => True

structure PendingInode.Valid (maxInlineBytes : Nat) (inode : PendingInode) : Prop where
  number : inode.number < 2 ^ 64
  mode : inode.mode < u32Limit
  uid : inode.uid < u32Limit
  gid : inode.gid < u32Limit
  mtimeNs : inode.mtimeNs < 2 ^ 64
  fileType : inode.mode &&& sIfmt = inode.content.fileType
  content : inode.content.Valid maxInlineBytes

namespace WriteContext

/-- The attributes noted by the walk, or those of the inode itself. -/
def xattrsOf (ctx : WriteContext) (inode : PendingInode) : List XAttr :=
  (ctx.inodeXattrs inode.number).getD inode.xattrs

def nlinkOf (ctx : WriteContext) (inode : PendingInode) : Nat :=
  (ctx.nlinkCounts inode.number).getD 1

structure Coherent (H : Hash) (maxInlineBytes : Nat) (ctx : WriteContext) : Prop where
  numbers : (ctx.inodes.map (·.number)).Nodup
  inodes : ∀ inode ∈ ctx.inodes, inode.Valid maxInlineBytes
  xattrs : ∀ inode ∈ ctx.inodes, ∀ x ∈ ctx.xattrsOf inode, x.Valid
  nlink : ∀ inode ∈ ctx.inodes, ctx.nlinkOf inode < u32Limit
  nodes : ∀ node ∈ ctx.dirNodes, encodeDirNode H node.entries = some node ∧
    EntriesValid node.entries

end WriteContext

/-! ### What a reader is to get -/

/-- A slice as the reader has it: its drop from the first byte on. -/
def SliceReturned (slice : PendingSlice) (got : SliceRef) : Prop :=
  got.fileByteStart = slice.fileByteStart ∧ got.fileByteEnd = slice.fileByteEnd ∧
    got.dropId = slice.dropId ∧ got.dropByteStart = 0 ∧
    got.dropByteLen = slice.fileByteEnd - slice.fileByteStart

/-- A content in the reader's hands. -/
def ContentReturned (H : Hash) : PendingContent → ContentHandle → Prop
  | .inline data, .inlineData got => got = data
  | .dropBacked _ slices, .sliceMap map => List.Forall₂ SliceReturned slices map.slices
  | .symlink target, .symlink got => got = target
  | .directory entries, .directory hash => hash = dirNodeHash H entries
  | _, _ => False

/-- The same before the references into the table are resolved. -/
def ContentOnWire (H : Hash) (table : List Bytes) (content : PendingContent)
    (handle : ContentHandle) : Prop :=
  ContentReturned H content handle ∨
    ∃ data index, content = .inline data ∧ handle = .sharedInline index ∧
      table[index]? = some data

/-- An inode in the reader's hands, up to what `content` says of its content. -/
structure InodeReturned (content : PendingContent → ContentHandle → Prop) (ctx : WriteContext)
    (inode : PendingInode) (got : Inode) : Prop where
  number : got.number = inode.number
  mode : got.mode = inode.mode
  uid : got.uid = inode.uid
  gid : got.gid = inode.gid
  mtimeNs : got.mtimeNs = inode.mtimeNs
  ctimeNs : got.ctimeNs = inode.mtimeNs
  nlink : got.nlink = ctx.nlinkOf inode
  atimeNs : got.atimeNs = none
  xattrs : got.xattrs = ctx.xattrsOf inode
  content : content inode.content got.contentHandle

/-! ### Lengths and attributes -/

theorem u32Bytes_eq_some {n : Nat} {b : Bytes} :
    u32Bytes n = some b ↔ n < u32Limit ∧ b = leBytes 4 n := by
  unfold u32Bytes
  by_cases hn : n < u32Limit
  · rw [if_pos hn]
    simp [hn, eq_comm]
  · rw [if_neg hn]
    simp [hn]

theorem sizedBytes_eq_some {b enc : Bytes} :
    sizedBytes b = some enc ↔ b.length < u32Limit ∧ enc = leBytes 4 b.length ++ b := by
  unfold sizedBytes
  rw [Option.map_eq_some_iff]
  constructor
  · rintro ⟨len, hlen, rfl⟩
    obtain ⟨hfits, rfl⟩ := u32Bytes_eq_some.mp hlen
    exact ⟨hfits, rfl⟩
  · rintro ⟨hfits, rfl⟩
    exact ⟨_, u32Bytes_eq_some.mpr ⟨hfits, rfl⟩, rfl⟩

theorem reads_parseXattr {x : XAttr} {enc : Bytes} (hx : x.Valid) (henc : encodeXattr x = some enc)
    (index : Nat) (done : List XAttr) : Reads (parseXattr index done) enc (done ++ [x]) := by
  simp only [encodeXattr, Option.bind_eq_bind, Option.bind_eq_some_iff, Option.pure_def,
    Option.some.injEq, sizedBytes_eq_some] at henc
  obtain ⟨_, ⟨hkey, rfl⟩, _, ⟨hvalue, rfl⟩, rfl⟩ := henc
  simp only [List.append_assoc]
  unfold parseXattr
  refine (reads_readU8 _).bind ?_
  refine (reads_ensure hx.scope).bind_nil ?_
  refine (reads_readU32Le hkey).bind ?_
  refine (reads_readN rfl).bind ?_
  refine (reads_ensure hx.utf8).bind_nil ?_
  refine (reads_ensure hx.noNul).bind_nil ?_
  refine (reads_readU32Le hvalue).bind ?_
  exact (reads_readN rfl).map fun value => done ++ [(⟨x.namespace_, x.key, value⟩ : XAttr)]

/-- The flags as they stand on the wire. -/
def wireFlags (xattrs : List XAttr) (base : UInt8) : UInt8 :=
  if xattrs = [] then base else base ||| inodeFlagHasXattrs

/-- The flags a writer sets. -/
def writerFlags : List UInt8 :=
  [0x00, inodeFlagInlineData, inodeFlagInlineData ||| inodeFlagSharedInline]

theorem forall_writerFlags {P : UInt8 → Prop} (h : ∀ b ∈ writerFlags, P b ∧
    P (b ||| inodeFlagHasXattrs)) {xattrs : List XAttr} {base : UInt8} (hbase : base ∈ writerFlags) :
    P (wireFlags xattrs base) := by
  unfold wireFlags
  split
  · exact (h base hbase).1
  · exact (h base hbase).2

/-- The attributes stand behind the flags, if there are any. -/
theorem flagsAndXattrs_cases {xattrs : List XAttr} {base : UInt8} {enc : Bytes}
    (hbase : base ∈ writerFlags) (hvalid : ∀ x ∈ xattrs, x.Valid)
    (henc : flagsAndXattrs xattrs base = some enc) :
    ∃ block, enc = [wireFlags xattrs base] ++ block ∧
      ((¬ wireFlags xattrs base &&& inodeFlagHasXattrs ≠ 0 ∧ xattrs = [] ∧ block = []) ∨
        (wireFlags xattrs base &&& inodeFlagHasXattrs ≠ 0 ∧
          Reads parseXattrBlock block xattrs)) := by
  unfold flagsAndXattrs at henc
  unfold wireFlags
  by_cases hnone : xattrs = []
  · have hplain : ∀ b ∈ writerFlags, ¬ b &&& inodeFlagHasXattrs ≠ 0 := by decide +kernel
    rw [if_pos hnone] at henc
    rw [if_pos hnone]
    exact ⟨[], (Option.some.inj henc).symm, .inl ⟨hplain base hbase, hnone, rfl⟩⟩
  · have hmarked : ∀ b ∈ writerFlags, (b ||| inodeFlagHasXattrs) &&& inodeFlagHasXattrs ≠ 0 := by
      decide +kernel
    rw [if_neg hnone] at henc
    rw [if_neg hnone]
    simp only [Option.bind_eq_bind, Option.bind_eq_some_iff, Option.pure_def, Option.some.injEq,
      u32Bytes_eq_some] at henc
    obtain ⟨_, ⟨hcount, rfl⟩, body, hbody, rfl⟩ := henc
    refine ⟨leBytes 4 xattrs.length ++ body.flatten, List.append_assoc _ _ _,
      .inr ⟨hmarked base hbase, ?_⟩⟩
    refine (reads_readU32Le hcount).bind ?_
    have heach : List.Forall₂ (fun enc x => ∀ i done, Reads (parseXattr i done) enc (done ++ [x]))
        body xattrs := by
      refine ((forall₂_and_mem_left (mapM_some_iff.mp hbody)).flip).imp ?_
      rintro enc x ⟨henc, hx⟩ i done
      exact reads_parseXattr (hvalid x hx) henc i done
    exact reads_loop_each heach 0 []

/-- **The flags and the attributes are read back**, whatever the reader goes on to do. -/
theorem parseFlags_apply {β : Type} {xattrs : List XAttr} {base : UInt8} {enc : Bytes}
    (hbase : base ∈ writerFlags) (hvalid : ∀ x ∈ xattrs, x.Valid)
    (henc : flagsAndXattrs xattrs base = some enc) {e : UInt8 → CoreError}
    {k : UInt8 → Option Nat → List XAttr → CoreParser β} (rest : Bytes) :
    (do
      let flags ← readU8
      ensure (flags &&& inodeFlagReservedMask = 0) (e flags)
      let atimeNs ← if flags &&& inodeFlagAtime ≠ 0 then some <$> readU64Le else pure none
      let xattrs ← if flags &&& inodeFlagHasXattrs ≠ 0 then parseXattrBlock else pure []
      k flags atimeNs xattrs : CoreParser β) (enc ++ rest)
      = k (wireFlags xattrs base) none xattrs rest := by
  have hreserved : wireFlags xattrs base &&& inodeFlagReservedMask = 0 :=
    forall_writerFlags (P := fun f => f &&& inodeFlagReservedMask = 0) (by decide +kernel) hbase
  have hatime : ¬ wireFlags xattrs base &&& inodeFlagAtime ≠ 0 :=
    forall_writerFlags (P := fun f => ¬ f &&& inodeFlagAtime ≠ 0) (by decide +kernel) hbase
  obtain ⟨block, rfl, hblock⟩ := flagsAndXattrs_cases hbase hvalid henc
  rw [List.append_assoc]
  refine ((reads_readU8 _).bind_append _).trans ?_
  refine ((reads_ensure hreserved).bind_nil_apply _).trans ?_
  simp only [if_neg hatime]
  refine ((reads_pure none).bind_nil_apply _).trans ?_
  rcases hblock with ⟨hplain, hnone, rfl⟩ | ⟨hmarked, hreads⟩
  · simp only [if_neg hplain]
    refine ((reads_pure []).bind_nil_apply _).trans ?_
    rw [hnone]
    rfl
  · simp only [if_pos hmarked]
    exact hreads.bind_append rest

/-! ### One content -/

section

variable {H : Hash} {ctx : WriteContext}

/-- How a content is laid down: the flags it asks for and the bytes behind the attributes. -/
inductive ContentBody (H : Hash) (ctx : WriteContext) : PendingContent → UInt8 → Bytes → Prop where
  | shared {data : Bytes} {index : Nat} (h : ctx.sharedInlineIndex H data = some index) :
      ContentBody H ctx (.inline data) (inodeFlagInlineData ||| inodeFlagSharedInline)
        (leBytes 4 index)
  | inline {data : Bytes} (h : ctx.sharedInlineIndex H data = none)
      (hlen : data.length < u32Limit) :
      ContentBody H ctx (.inline data) inodeFlagInlineData (leBytes 4 data.length ++ data)
  | dropBacked {fileLen : Nat} {slices : List PendingSlice} {encs : List Bytes}
      (hcount : slices.length < u32Limit) (henc : slices.mapM encodeSlice = some encs) :
      ContentBody H ctx (.dropBacked fileLen slices) 0x00
        (leBytes 4 slices.length ++ encs.flatten)
  | symlink {target : Bytes} (hlen : target.length < u32Limit) :
      ContentBody H ctx (.symlink target) 0x00 (leBytes 4 target.length ++ target)
  | directory {entries : List DirEntry} {node : DirNode}
      (h : ctx.dirNodes.find? (fun n => n.entries = entries) = some node) :
      ContentBody H ctx (.directory entries) 0x00 node.hash.val

theorem encodeContent_parts {xattrs : List XAttr} {content : PendingContent} {enc : Bytes}
    (h : ctx.encodeContent H xattrs content = some enc) :
    ∃ base flags body, base ∈ writerFlags ∧ ContentBody H ctx content base body ∧
      flagsAndXattrs xattrs base = some flags ∧ enc = flags ++ body := by
  cases content with
  | inline data =>
      simp only [WriteContext.encodeContent] at h
      cases hindex : ctx.sharedInlineIndex H data with
      | some index =>
          rw [hindex] at h
          simp only [Option.bind_eq_bind, Option.bind_eq_some_iff, Option.pure_def,
            Option.some.injEq] at h
          obtain ⟨flags, hflags, rfl⟩ := h
          exact ⟨_, flags, _, by decide, .shared hindex, hflags, rfl⟩
      | none =>
          rw [hindex] at h
          simp only [Option.bind_eq_bind, Option.bind_eq_some_iff, Option.pure_def,
            Option.some.injEq, sizedBytes_eq_some] at h
          obtain ⟨flags, hflags, _, ⟨hlen, rfl⟩, rfl⟩ := h
          exact ⟨_, flags, _, by decide, .inline hindex hlen, hflags, rfl⟩
  | dropBacked fileLen slices =>
      simp only [WriteContext.encodeContent, Option.bind_eq_bind, Option.bind_eq_some_iff,
        Option.pure_def, Option.some.injEq, u32Bytes_eq_some] at h
      obtain ⟨flags, hflags, _, ⟨hcount, rfl⟩, encs, hencs, rfl⟩ := h
      exact ⟨_, flags, _, by decide, .dropBacked hcount hencs, hflags, List.append_assoc _ _ _⟩
  | symlink target =>
      simp only [WriteContext.encodeContent, Option.bind_eq_bind, Option.bind_eq_some_iff,
        Option.pure_def, Option.some.injEq, sizedBytes_eq_some] at h
      obtain ⟨flags, hflags, _, ⟨hlen, rfl⟩, rfl⟩ := h
      exact ⟨_, flags, _, by decide, .symlink hlen, hflags, rfl⟩
  | directory entries =>
      simp only [WriteContext.encodeContent, Option.bind_eq_bind, Option.bind_eq_some_iff,
        Option.pure_def, Option.some.injEq] at h
      obtain ⟨flags, hflags, node, hnode, rfl⟩ := h
      exact ⟨_, flags, _, by decide, .directory hnode, hflags, rfl⟩

theorem SliceReturned.eq {slice : PendingSlice} {got : SliceRef} (h : SliceReturned slice got)
    (hlt : slice.fileByteStart < slice.fileByteEnd) :
    got = ⟨slice.fileByteStart, slice.fileByteEnd, slice.dropId, 0,
      slice.fileByteEnd - slice.fileByteStart, hlt⟩ := by
  obtain ⟨_, _, _, _, _, _⟩ := got
  obtain ⟨h₁, h₂, h₃, h₄, h₅⟩ := h
  simp only [SliceRef.mk.injEq]
  exact ⟨h₁, h₂, h₃, h₄, h₅⟩

theorem exists_sliceRefs : ∀ {slices : List PendingSlice},
    (∀ s ∈ slices, s.fileByteStart < s.fileByteEnd) →
    ∃ refs, List.Forall₂ SliceReturned slices refs := by
  intro slices
  induction slices with
  | nil => intro _; exact ⟨[], .nil⟩
  | cons slice rest ih =>
      intro hlt
      obtain ⟨refs, hrefs⟩ := ih fun s hs => hlt s (List.mem_cons_of_mem _ hs)
      exact ⟨⟨_, _, _, _, _, hlt slice List.mem_cons_self⟩ :: refs,
        .cons ⟨rfl, rfl, rfl, rfl, rfl⟩ hrefs⟩

theorem sliceMapGap_of_contiguous : ∀ {slices : List PendingSlice} {refs : List SliceRef},
    List.Forall₂ SliceReturned slices refs → ∀ {start stop : Nat} (index : Nat),
      Contiguous start slices stop → sliceMapGap index start refs = none := by
  intro slices refs h
  induction h with
  | nil => intro start stop index _; rfl
  | cons hfirst _ ih =>
      intro start stop index hcontiguous
      obtain ⟨hstart, -, hrest⟩ := hcontiguous
      unfold sliceMapGap
      rw [if_neg (by rw [hfirst.1, hstart]; exact fun h => h rfl), hfirst.2.1]
      exact ih (index + 1) hrest

theorem validateSliceMap_ok {number : Nat} {refs : List SliceRef}
    (h : sliceMapGap 0 0 refs = none) : validateSliceMap number refs = .ok ⟨refs, h⟩ := by
  unfold validateSliceMap
  split
  · rfl
  · next hgap =>
      rw [h] at hgap
      cases hgap

/-- A slice map is read back. -/
theorem reads_sliceMap {slices : List PendingSlice} {encs : List Bytes} {stop : Nat} (number : Nat)
    (hcount : slices.length < u32Limit) (henc : slices.mapM encodeSlice = some encs)
    (hcontiguous : Contiguous 0 slices stop) (hstop : stop < 2 ^ 64) :
    ∃ map : SliceMap, List.Forall₂ SliceReturned slices map.slices ∧
      Reads (do
        let sliceCount ← readU32Le
        let slices ← loop (parseSliceRef number) sliceCount 0 []
        let map ← liftExcept (validateSliceMap number slices)
        pure (.sliceMap map) : CoreParser ContentHandle)
        (leBytes 4 slices.length ++ encs.flatten) (.sliceMap map) := by
  have hbounds := hcontiguous.bounds
  obtain ⟨refs, hrefs⟩ := exists_sliceRefs fun s hs => (hbounds s hs).1
  have hgap : sliceMapGap 0 0 refs = none := sliceMapGap_of_contiguous hrefs 0 hcontiguous
  have heach : List.Forall₂ (fun enc ref => ∀ i done,
      Reads (parseSliceRef number i done) enc (done ++ [ref])) encs refs := by
    have hboth := forall₂_and_mem_left (mapM_some_iff.mp henc)
    refine forall₂_join ?_ hboth.flip hrefs.flip
    rintro enc ref slice ⟨hslice, hmem⟩ href i done
    obtain ⟨hlt, hle⟩ := hbounds slice hmem
    obtain ⟨hlt', hreads⟩ := takesWholeDrop_of_bounds hlt (by omega) enc hslice number i done
    rw [SliceReturned.eq href hlt]
    exact hreads
  refine ⟨⟨refs, hgap⟩, hrefs, ?_⟩
  refine (reads_readU32Le hcount).bind ?_
  rw [hrefs.length_eq, ← List.append_nil encs.flatten]
  refine (reads_loop_each heach 0 []).bind ?_
  exact (reads_liftExcept (validateSliceMap_ok hgap)).map ContentHandle.sliceMap

/-! ### Shared contents -/

theorem buildSharedInlineTable_mem {inodes : List PendingInode} :
    ∀ d ∈ buildSharedInlineTable H inodes, d ∈ inlineContents inodes := by
  unfold buildSharedInlineTable
  simp only
  generalize hall : inlineContents inodes = contents
  -- along the fold the table holds only what is in the list
  have hfold : ∀ (todo table : List Bytes), (∀ d ∈ todo, d ∈ contents) →
      (∀ d ∈ table, d ∈ contents) →
      ∀ d ∈ todo.foldl (fun table data =>
        if 1 < contents.countP (fun d => H d = H data) ∧ table.all (fun d => H d ≠ H data) then
          table ++ [data]
        else table) table, d ∈ contents := by
    intro todo
    induction todo with
    | nil => intro table _ htable; exact htable
    | cons data rest ih =>
        intro table htodo htable
        rw [List.foldl_cons]
        refine ih _ (fun d hd => htodo d (List.mem_cons_of_mem _ hd)) ?_
        intro d hd
        split at hd
        · rcases List.mem_append.mp hd with hold | hnew
          · exact htable d hold
          · rw [List.mem_singleton.mp hnew]
            exact htodo data List.mem_cons_self
        · exact htable d hd
  exact hfold contents [] (fun d hd => hd) nofun

theorem sharedInlineTable_mem : ∀ d ∈ ctx.sharedInlineTable H, d ∈ inlineContents ctx.inodes := by
  unfold WriteContext.sharedInlineTable
  split
  · exact buildSharedInlineTable_mem
  · nofun

theorem mem_inlineContents {inodes : List PendingInode} {inode : PendingInode} {data : Bytes}
    (hmem : inode ∈ inodes) (hinline : inode.content = .inline data) :
    data ∈ inlineContents inodes := by
  refine List.mem_filterMap.mpr ⟨inode, hmem, ?_⟩
  rw [hinline]

theorem sharedInlineIndex_some {data : Bytes} {index : Nat}
    (hcol : NoCollision H (inlineContents ctx.inodes)) (hdata : data ∈ inlineContents ctx.inodes)
    (h : ctx.sharedInlineIndex H data = some index) :
    (ctx.sharedInlineTable H)[index]? = some data := by
  obtain ⟨hlt, hhash, -⟩ := List.findIdx?_eq_some_iff_getElem.mp h
  have hmem := sharedInlineTable_mem _ (List.getElem_mem hlt)
  rw [List.getElem?_eq_getElem hlt,
    hcol _ hmem data hdata (of_decide_eq_true hhash)]

/-! ### One inode -/

theorem encodeDirNode_some {entries : List DirEntry} {node : DirNode}
    (h : encodeDirNode H entries = some node) :
    node = ⟨entries, dirNodeBytes entries, dirNodeHash H entries⟩ ∧
      entries.length < u32Limit ∧ ∀ e ∈ entries, e.name.length < u32Limit := by
  simp only [encodeDirNode, Option.bind_eq_bind, Option.bind_eq_some_iff, Option.pure_def,
    Option.some.injEq, u32Bytes_eq_some] at h
  obtain ⟨_, ⟨hcount, -⟩, names, hnames, rfl⟩ := h
  refine ⟨rfl, hcount, ?_⟩
  intro e he
  obtain ⟨_, -, hlen⟩ := exists_mem_of_forall₂ (mapM_some_iff.mp hnames).flip e he
  exact (u32Bytes_eq_some.mp hlen).1

theorem hash_of_encodeDirNode {node : DirNode} (h : encodeDirNode H node.entries = some node) :
    node.hash = dirNodeHash H node.entries := by
  rw [(encodeDirNode_some h).1]

/-- **A content is read back**, a shared one as its index. -/
theorem reads_parseContentHandle {content : PendingContent} {base : UInt8} {body : Bytes}
    {xattrs : List XAttr} {mode maxInlineBytes : Nat} (number : Nat)
    (hbody : ContentBody H ctx content base body)
    (hmode : mode &&& sIfmt = content.fileType) (hvalid : content.Valid maxInlineBytes)
    (hcol : NoCollision H (inlineContents ctx.inodes))
    (hinline : ∀ data, content = .inline data → data ∈ inlineContents ctx.inodes)
    (htable : (ctx.sharedInlineTable H).length < u32Limit)
    (hnodes : ∀ node ∈ ctx.dirNodes, encodeDirNode H node.entries = some node) :
    ∃ handle, ContentOnWire H (ctx.sharedInlineTable H) content handle ∧
      Reads (parseContentHandle mode (wireFlags xattrs base) number maxInlineBytes) body handle := by
  unfold parseContentHandle
  simp only [hmode]
  cases hbody with
  | @shared data index h =>
      have htype : (PendingContent.inline data).fileType = sIfreg := rfl
      have hget := sharedInlineIndex_some hcol (hinline _ rfl) h
      have hflag : wireFlags xattrs (inodeFlagInlineData ||| inodeFlagSharedInline)
          &&& inodeFlagSharedInline ≠ 0 := by
        unfold wireFlags
        split <;> decide
      refine ⟨.sharedInline _, .inr ⟨data, index, rfl, rfl, hget⟩, ?_⟩
      rw [if_pos htype, if_pos hflag]
      have hlt := (List.getElem?_eq_some_iff.mp hget).1
      exact (reads_readU32Le (by omega)).map ContentHandle.sharedInline
  | @inline data h hlen =>
      have htype : (PendingContent.inline data).fileType = sIfreg := rfl
      have hplain : ¬ wireFlags xattrs inodeFlagInlineData &&& inodeFlagSharedInline ≠ 0 := by
        unfold wireFlags
        split <;> decide
      have hflag : wireFlags xattrs inodeFlagInlineData &&& inodeFlagInlineData ≠ 0 := by
        unfold wireFlags
        split <;> decide
      refine ⟨.inlineData _, .inl rfl, ?_⟩
      rw [if_pos htype, if_neg hplain, if_pos hflag]
      have hshort : data.length ≤ maxInlineBytes := hvalid
      refine (reads_readU32Le hlen).bind ?_
      refine (reads_ensure hshort).bind_nil ?_
      exact (reads_readN rfl).map ContentHandle.inlineData
  | @dropBacked fileLen slices encs hcount henc =>
      have htype : (PendingContent.dropBacked fileLen slices).fileType = sIfreg := rfl
      have hplain : ¬ wireFlags xattrs 0x00 &&& inodeFlagSharedInline ≠ 0 := by
        unfold wireFlags
        split <;> decide
      have hflag : ¬ wireFlags xattrs 0x00 &&& inodeFlagInlineData ≠ 0 := by
        unfold wireFlags
        split <;> decide
      obtain ⟨stop, hstop, hcontiguous⟩ := hvalid
      obtain ⟨map, hmap, hreads⟩ := reads_sliceMap number hcount henc hcontiguous hstop
      refine ⟨.sliceMap map, .inl hmap, ?_⟩
      rw [if_pos htype, if_neg hplain, if_neg hflag]
      exact hreads
  | @symlink target hlen =>
      have htype : (PendingContent.symlink target).fileType = sIflnk := rfl
      have hreg : ¬ sIflnk = sIfreg := by decide
      have hdir : ¬ sIflnk = sIfdir := by decide
      refine ⟨.symlink _, .inl rfl, ?_⟩
      rw [htype, if_neg hreg, if_neg hdir, if_pos rfl]
      have hutf8 : utf8Valid target = true := hvalid
      refine (reads_readU32Le hlen).bind ?_
      refine Reads.bind_last (reads_readN rfl) ?_
      exact (reads_ensure hutf8).bind_nil (reads_pure _)
  | @directory entries node h =>
      have htype : (PendingContent.directory entries).fileType = sIfdir := rfl
      have hreg : ¬ sIfdir = sIfreg := by decide
      have hentries : node.entries = entries := by simpa using List.find?_some h
      have hnode := hnodes _ (List.mem_of_find?_eq_some h)
      refine ⟨.directory node.hash, .inl ?_, ?_⟩
      · rw [← hentries]
        exact hash_of_encodeDirNode hnode
      · rw [htype, if_neg hreg, if_pos rfl]
        exact (reads_readHash _).map ContentHandle.directory

/-- What has to hold of a context for one of its inodes to be read back. -/
structure InodeReadable (H : Hash) (maxInlineBytes : Nat) (ctx : WriteContext)
    (inode : PendingInode) : Prop where
  valid : inode.Valid maxInlineBytes
  xattrs : ∀ x ∈ ctx.xattrsOf inode, x.Valid
  nlink : ctx.nlinkOf inode < u32Limit
  noCollision : NoCollision H (inlineContents ctx.inodes)
  mem : inode ∈ ctx.inodes
  table : (ctx.sharedInlineTable H).length < u32Limit
  nodes : ∀ node ∈ ctx.dirNodes, encodeDirNode H node.entries = some node

/-- **An inode is read back**, a shared content as its index. -/
theorem reads_parseInode {inode : PendingInode} {enc : Bytes} {maxInlineBytes : Nat}
    (h : InodeReadable H maxInlineBytes ctx inode)
    (henc : ctx.encodeInode H inode = some enc) :
    ∃ got, InodeReturned (ContentOnWire H (ctx.sharedInlineTable H)) ctx inode got ∧
      Reads (parseInodeWithCeiling maxInlineBytes) enc got := by
  simp only [WriteContext.encodeInode, Option.bind_eq_bind, Option.bind_eq_some_iff,
    Option.pure_def, Option.some.injEq] at henc
  obtain ⟨content, hcontent, rfl⟩ := henc
  obtain ⟨base, flags, body, hbase, hbody, hflags, rfl⟩ := encodeContent_parts hcontent
  obtain ⟨handle, hwire, hreads⟩ := reads_parseContentHandle inode.number hbody h.valid.fileType
    h.valid.content h.noCollision (fun data hdata => mem_inlineContents h.mem hdata) h.table h.nodes
  refine ⟨⟨inode.number, inode.mode, inode.uid, inode.gid, inode.mtimeNs, inode.mtimeNs,
    ctx.nlinkOf inode, none, ctx.xattrsOf inode, handle⟩,
    ⟨rfl, rfl, rfl, rfl, rfl, rfl, rfl, rfl, rfl, hwire⟩, ?_⟩
  simp only [List.append_assoc]
  refine (reads_readU64Le h.valid.number).bind ?_
  refine (reads_readU32Le h.valid.mode).bind ?_
  refine (reads_readU32Le h.valid.uid).bind ?_
  refine (reads_readU32Le h.valid.gid).bind ?_
  refine (reads_readU64Le h.valid.mtimeNs).bind ?_
  refine (reads_readU64Le h.valid.mtimeNs).bind ?_
  refine (reads_readU32Le h.nlink).bind ?_
  intro rest
  rw [List.append_assoc, parseFlags_apply hbase h.xattrs hflags]
  exact (hreads.map _) rest

end

end LimniFS
