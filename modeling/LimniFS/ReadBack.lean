/-
What is found of a tree in an image.

Metadata that is taken returns every inode under its number and every directory under its hash.  So a
path leads to a number exactly if it leads to a node, and the number stands for the node
(`numberAt_of_stands`).  Slices that are answered with chunks are printed as the chunks
(`printed_of_chunks`), and a chunk is read from the image if its drop decodes
(`StreamedRun.answers`).
-/
import LimniFS.AcceptedImages
import LimniFS.CatAgree
import LimniFS.ImagedTree
import LimniFS.RestoredDrops

namespace LimniFS

open Lib Lib.Parser Cursor

/-! ### What a reader has of the metadata -/

/-- Every inode is found under its number, and every directory under its hash. -/
structure MetadataReturned (H : Hash) (ctx : WriteContext) (read : MetadataBlob) : Prop where
  inodes : ∀ inode ∈ ctx.inodes, ∃ got, read.inodeByNumber inode.number = some got ∧
    InodeReturned (ContentReturned H) ctx.wrapped inode got
  nodes : ∀ inode ∈ ctx.inodes, ∀ entries, inode.content = .directory entries →
    ∃ node, read.dirNodeByHash H (dirNodeHash H entries) = some node ∧ node.entries = entries

section

variable {H : Hash} {ctx : WriteContext} {read : MetadataBlob} {threshold : Nat}

theorem WriteContext.Laid.read_eq (h : ctx.Laid H threshold)
    (hcol : NoCollision H (inlineContents ctx.inodes)) {bytes rest : Bytes}
    (hbytes : ctx.metadataBlob H = some bytes) (hparse : parseMetadataBlob bytes = (.ok read, rest)) :
    ∃ resolved, List.Forall₂ (InodeReturned (ContentReturned H) ctx.wrapped) ctx.inodes resolved ∧
      read = ⟨resolved, ctx.nodesReturned⟩ := by
  obtain ⟨resolved, hreturned, hall⟩ :=
    h.parsed hcol hbytes ((h.parsed_iff hcol hbytes).mp ⟨read, rest, hparse⟩)
  rw [hall] at hparse
  cases hparse
  exact ⟨resolved, hreturned, rfl⟩

/-- **A blob that is taken returns all that was laid out.** -/
theorem WriteContext.Laid.returned (h : ctx.Laid H threshold)
    (hcol : NoCollision H (inlineContents ctx.inodes))
    (hnodes : NoCollision H (ctx.dirNodes.map (·.bytes))) {bytes rest : Bytes}
    (hbytes : ctx.metadataBlob H = some bytes) (hparse : parseMetadataBlob bytes = (.ok read, rest)) :
    MetadataReturned H ctx read := by
  have hparts := (h.parsed_iff hcol hbytes).mp ⟨read, rest, hparse⟩
  obtain ⟨resolved, hreturned, rfl⟩ := h.read_eq hcol hbytes hparse
  refine ⟨fun inode hinode => @inodeByNumber_returned H ctx.wrapped h.numbers resolved _ hreturned inode
    hinode, fun inode hinode entries hdir => ?_⟩
  obtain ⟨node, hnode, rfl⟩ := node_of_directory hbytes hinode hdir
  exact @dirNodeByHash_returned H ctx.wrapped _ (h.coherent hparts) hnodes node hnode resolved

theorem MetadataReturned.dirEntries (h : MetadataReturned H ctx read) {inode : PendingInode}
    (hinode : inode ∈ ctx.inodes) : Rw.dirEntries H read inode.number =
      match inode.content with
      | .directory entries => entries
      | _ => [] := by
  obtain ⟨got, hfound, hback⟩ := h.inodes inode hinode
  have hcontent := hback.content
  unfold Rw.dirEntries
  rw [hfound]
  cases hkind : inode.content with
  | directory entries =>
      obtain ⟨node, hnode, hentries⟩ := h.nodes inode hinode entries hkind
      rw [hkind] at hcontent
      cases hhandle : got.contentHandle with
      | directory hash =>
          rw [hhandle] at hcontent
          obtain rfl : hash = dirNodeHash H entries := hcontent
          simp [hhandle, hnode, hentries]
      | _ =>
          rw [hhandle] at hcontent
          exact hcontent.elim
  | _ =>
      rw [hkind] at hcontent
      cases hhandle : got.contentHandle with
      | directory hash =>
          rw [hhandle] at hcontent
          exact hcontent.elim
      | _ => simp [hhandle]

end

/-! ### From the root to a node -/

section

variable {env : WriterEnv} {s : WriterState} {ctx : WriteContext} {read : MetadataBlob}

/-- What the walk left is in the context, and the files that were put off with it. -/
structure Kept (s : WriterState) (ctx : WriteContext) : Prop where
  inodes : s.inodes ⊆ ctx.inodes
  pending : ∀ pf ∈ s.pendingFiles, ∃ slices, fileInode pf slices ∈ ctx.inodes
  xattrs : ctx.inodeXattrs = s.inodeXattrs

theorem SurveyChildren.Proper.child : ∀ {children : SurveyChildren} {name : Bytes} {node : SurveyNode},
    children.Proper → children.child name = some node → node.Proper
  | .cons first child rest, name, node, h, hchild => by
      obtain ⟨-, hproper, hrest⟩ := h
      unfold SurveyChildren.child at hchild
      split at hchild
      · cases hchild
        exact hproper
      · exact SurveyChildren.Proper.child hrest hchild

theorem SurveyNode.Proper.nodeAt : ∀ {names : Path} {top found : SurveyNode}, top.Proper →
    top.nodeAt names = some found → found.Proper
  | [], top, found, h, hat => by
      cases top
      cases hat
      exact h
  | name :: rest, .node info children target, found, h, hat => by
      obtain ⟨child, hchild, hrest⟩ := Option.bind_eq_some_iff.mp hat
      exact SurveyNode.Proper.nodeAt (h.2.1.child hchild) hrest

theorem Stands.file_of_kind {node : SurveyNode} {path : Path} {number : Nat}
    (h : Stands env s path node number) (hproper : node.Proper) (hkind : node.info.kind = .file) :
    FileStands env s path node.info number := by
  cases h with
  | symlink inode xattrs =>
      have hboth : FileKind.file = FileKind.symlink := hkind.symm.trans (hproper.2.2.2 _ rfl).1
      cases hboth
  | directory kind inode xattrs below =>
      have hboth : FileKind.file = FileKind.directory := hkind.symm.trans kind
      cases hboth
  | file kind file => exact file

/-- The entries of a directory, by name. -/
theorem AllStand.find : ∀ {children : SurveyChildren} {path : Path} {entries : List DirEntry}
    (name : Bytes), AllStand env s path children entries →
    (children.child name = none → ∀ e ∈ entries, e.name ≠ name) ∧
      ∀ node, children.child name = some node →
        ∃ e ∈ entries, e.name = name ∧ Stands env s (path ++ [name]) node e.inodeNumber
  | .nil, path, entries, name, h => by
      cases h
      exact ⟨fun _ e he => absurd he List.not_mem_nil, fun node hnode => by cases hnode⟩
  | .cons first child rest, path, entries, name, h => by
      cases h with
      | cons hfirst hlater =>
          obtain ⟨hmissing, hthere⟩ := AllStand.find name hlater
          unfold SurveyChildren.child
          by_cases hname : first = name
          · rw [if_pos hname]
            refine ⟨fun hnone => absurd hnone (by simp), fun node hnode => ?_⟩
            cases hnode
            exact ⟨_, List.mem_cons_self, hname, hname ▸ hfirst⟩
          · rw [if_neg hname]
            refine ⟨fun hnone => List.forall_mem_cons.mpr ⟨hname, hmissing hnone⟩, fun node hnode => ?_⟩
            obtain ⟨e, he, hstands⟩ := hthere node hnode
            exact ⟨e, List.mem_cons_of_mem _ he, hstands⟩

theorem AllStand.listing {children : SurveyChildren} : ∀ {path : Path} {entries : List DirEntry},
    AllStand env s path children entries →
    entries.map (fun e => (e.name, e.entryType)) = children.listing := by
  intro path entries h
  cases children with
  | nil =>
      cases h
      rfl
  | cons first child rest =>
      cases h with
      | cons hfirst hlater =>
          rw [List.map_cons, AllStand.listing hlater]
          rfl
termination_by structural children

/-- **A path leads to a number exactly if it leads to a node**, and the number stands for the node. -/
theorem numberAt_of_stands (hret : MetadataReturned env.H ctx read) (hwf : read.WellFormed)
    (hkept : Kept s ctx) : ∀ (names : Path) {node : SurveyNode} {path : Path} {number : Nat},
    node.Proper → Stands env s path node number →
    (node.nodeAt names = none ∧ Rw.numberAt env.H read number names = none) ∨
      ∃ found n, node.nodeAt names = some found ∧ Rw.numberAt env.H read number names = some n ∧
        Stands env s (path ++ names) found n := by
  intro names
  induction names with
  | nil =>
      intro node path number _ h
      refine Or.inr ⟨node, number, by cases node; rfl, rfl, ?_⟩
      rwa [List.append_nil]
  | cons name rest ih =>
      intro node path number hproper h
      obtain ⟨info, children, target⟩ := node
      obtain ⟨-, hchildren, hleaf, htarget⟩ := hproper
      -- what is no directory has no children and no entries
      have hnothing : info.kind ≠ .directory → Rw.dirEntries env.H read number = [] →
          (SurveyNode.node info children target).nodeAt (name :: rest) = none ∧
            Rw.numberAt env.H read number (name :: rest) = none := by
        intro hkind hnone
        obtain rfl := hleaf.resolve_left hkind
        exact ⟨rfl, by rw [Rw.numberAt, hnone]; rfl⟩
      cases h with
      | @symlink _ _ _ t _ inode _ =>
          refine Or.inl (hnothing ?_ (hret.dirEntries (hkept.inodes inode)))
          rw [(htarget t rfl).1]
          decide
      | file kind file =>
          refine Or.inl (hnothing (by rw [kind]; decide) ?_)
          rcases file.content with ⟨data, -, inode⟩ | ⟨first, -, pending⟩
          · exact hret.dirEntries (hkept.inodes inode)
          · obtain ⟨slices, inode⟩ := hkept.pending _ pending
            exact hret.dirEntries inode
      | @directory _ _ _ _ entries kind inode _ below =>
          have hentries : Rw.dirEntries env.H read number = sortEntries entries :=
            hret.dirEntries (hkept.inodes inode)
          have hmem : ∀ e, e ∈ sortEntries entries ↔ e ∈ entries := fun e =>
            (List.perm_insertionSort _ _).mem_iff
          obtain ⟨hmissing, hthere⟩ := below.find name
          rw [Rw.numberAt]
          cases hchild : children.child name with
          | none =>
              have hnone : ((Rw.dirEntries env.H read number).find? fun e => e.name = name) = none := by
                rw [hentries]
                refine List.find?_eq_none.mpr fun e he => ?_
                simpa using hmissing hchild e ((hmem e).mp he)
              refine Or.inl ⟨?_, by rw [hnone]; rfl⟩
              show (children.child name).bind _ = none
              rw [hchild]
              rfl
          | some child =>
              obtain ⟨e, he, hname, hstands⟩ := hthere child hchild
              have hfound := (@Rw.find_name_iff env.H read hwf number name e).mpr
                ⟨hentries ▸ (hmem e).mpr he, hname⟩
              have hdown : (SurveyNode.node info children none).nodeAt (name :: rest)
                  = child.nodeAt rest := by
                show (children.child name).bind _ = _
                rw [hchild]
                rfl
              rw [hfound, hdown]
              have hnext := ih (hchildren.child hchild) hstands
              rwa [List.append_assoc] at hnext

end

/-! ### What is printed -/

section

variable {target : Inode} {map : SliceMap} {source : SlabSource} {chunks : List Bytes}

/-- The slice is answered with the chunk, as a whole. -/
structure AnswersWith (source : SlabSource) (slice : SliceRef) (chunk : Bytes) : Prop where
  answer : source slice.dropId = some (.ok chunk)
  span : slice.span = chunk.length
  start : slice.dropByteStart = 0
  length : slice.dropByteLen = chunk.length

/-- **Slices that are answered with chunks are printed as the chunks**, one behind the other. -/
theorem printed_of_chunks (hmap : target.contentHandle = .sliceMap map)
    (hbounded : target.Bounded defaultInlineDataMaxBytes)
    (h : List.Forall₂ (AnswersWith source) map.slices chunks) :
    Cat.printed target (some source) [] = some (.ok chunks.flatten) := by
  have hplain : ∀ s ∈ map.slices, source s.dropId = some (.ok (plainOf source s)) ∧
      (plainOf source s).length = s.span ∧ s.window (plainOf source s) = plainOf source s := by
    intro s hs
    obtain ⟨chunk, -, hchunk⟩ := exists_mem_of_forall₂ h.flip s hs
    have hsame := plainOf_eq hchunk.answer
    rw [hsame]
    refine ⟨hchunk.answer, hchunk.span.symm, ?_⟩
    rw [SliceRef.window, SliceRef.dropByteEnd, hchunk.start, hchunk.length, List.drop_zero,
      Nat.zero_add, Nat.min_self, Nat.sub_zero, List.take_length]
  have hread : Readable source map.slices := fun s hs => (hplain s hs).1
  have halike : Cat.SlicesAlike (some source) map.slices := by
    refine ⟨fun hnone => absurd hnone (by simp), fun store hstore _ => ?_,
      fun store hstore hnot => ?_⟩
    · cases hstore
      refine ⟨⟨fun s hs => Nat.le_of_eq (hplain s hs).2.1, ?_⟩, fun s hs => (hplain s hs).2.2⟩
      exact List.pairwise_of_forall_mem_list fun s hs t _ => Or.inl (Nat.le_of_eq (hplain s hs).2.1.symm)
    · cases hstore
      exact absurd hread hnot
  obtain ⟨r, hr, hsame, -⟩ := @Cat.printed_alike target [] (some source) hbounded
    (Cat.debugOther_eq_none.mpr (Or.inr ⟨map, hmap⟩)) fun map' hmap' => by
      rw [hmap] at hmap'
      cases hmap'
      exact halike
  have hflat : (map.slices.map (plainOf source)).flatten = chunks.flatten := by
    congr 1
    exact (map_eq_map_of_forall₂ h fun s chunk hs => plainOf_eq hs.answer).trans (List.map_id chunks)
  rw [hr, (hsame chunks.flatten).mpr ((Cat.sectionBody_slices hmap).mpr ⟨hread, hflat.symm⟩)]

end

/-! ### Drops of an image on disk -/

/-- Every drop of the file decodes. -/
def WriteContext.FileFaithful (ctx : WriteContext) (number : Nat) : Prop :=
  ∀ inode ∈ ctx.inodes, inode.number = number → ∀ fileLen slices,
    inode.content = .dropBacked fileLen slices → ∀ slice ∈ slices, ∀ d ∈ localDrops ctx.drops,
      d.id = slice.dropId → d.Faithful ctx.trainedDicts

/-- A drop of a loaded image is within the reader's ceiling. -/
theorem plaintextLen_le_of_loaded {H : Hash} {ctx : WriteContext} {slabs : List SlabArtifact}
    {views : List SlabView} (hctx : ctx.WellFormed) (hslabs : packSlabs H ctx.drops = some slabs)
    (hcount : slabs.length < u32Limit)
    (hviews : List.Forall₂ (fun s view => parseSlab s.bytes = .ok view) slabs views)
    {d : PendingDrop} (hd : d ∈ localDrops ctx.drops) :
    d.plaintextLen ≤ defaultDropMaxPlaintextBytes := by
  obtain ⟨view, hview, r, hr, hrecord, -⟩ := keeps_of_packed hctx hslabs hcount hviews hd
  obtain ⟨slab, -, hparse⟩ := exists_mem_of_forall₂ hviews view hview
  have hle := ((parseSlab_ok hparse).2.1 r hr).plaintextLen
  rw [hrecord] at hle
  exact hle

section

variable {env : WriterEnv} {config : WriteConfig} {workers : Workers env}
  {tree : SourceTree env.readFile} {s walked : WriterState} {chunker : ParallelFastCDC}
  {number : Nat} {results : List ChunkedFileResult} {texts : List Bytes}
  {slabs : List SlabArtifact} {views : List SlabView}

/-- **A chunk is read from the image** under its id, if its drop decodes. -/
theorem StreamedRun.answers
    (h : StreamedRun env config workers tree (directoryStart config) s chunker number walked results)
    (hz : env.z.Lawful) (htexts : TextsApart env config workers (tree.survey.files tree.root) texts)
    (hctx : s.toWriteContext.WellFormed) (hslabs : packSlabs env.H s.drops = some slabs)
    (hcount : slabs.length < u32Limit)
    (hviews : List.Forall₂ (fun s view => parseSlab s.bytes = .ok view) slabs views)
    {chunk : Bytes} (hchunk : chunk ∈ texts)
    (hraw : ∃ r ∈ results.flatMap (·.drops), r.id = env.H chunk)
    (hfaithful : ∀ d ∈ localDrops s.drops, d.id = env.H chunk → d.Faithful s.trainedDicts)
    (trailer : Bytes) : views ≠ [] ∧
    (⟨views, imageDictTable s.trainedDicts trailer⟩ : SlabStore).plaintextFor env.z (env.H chunk)
      = some (.ok chunk) := by
  have hnew : (directoryStart config).Fresh := ⟨rfl, rfl, rfl, rfl⟩
  obtain ⟨r, hr, hname⟩ := hraw
  obtain ⟨d, hd, hid⟩ := h.packed hnew rfl r hr
  obtain ⟨p, hp, hhash, hdecode⟩ := h.decodes hnew hz htexts d hd (hfaithful d hd (hid.trans hname))
    (plaintextLen_le_of_loaded hctx hslabs hcount hviews hd)
  obtain rfl : p = chunk := htexts.apart p hp chunk hchunk (hhash.trans (hid.trans hname))
  obtain ⟨offset, hwindow⟩ := locateWindow_stored hctx hslabs hcount hviews
    (imageDictTable s.trainedDicts trailer) hd
  refine ⟨fun hnil => ?_, ?_⟩
  · rw [hnil] at hwindow
    cases hwindow
  · rw [hhash]
    unfold SlabStore.plaintextFor
    rw [hwindow]
    exact congrArg some (hdecode offset trailer)

end

end LimniFS
