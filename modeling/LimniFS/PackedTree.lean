/-
What was packed is read back.

An image that opens shows the tree it was made of.  A path leads to an inode exactly if its names lead
to a node; the inode has the node's fields and attributes, the target of a link and the names below a
directory; and `cat` prints a file as it was read, unless one of its drops was encoded as FLAC or needs
a dictionary that a reader does not put in (`packed_tree_reads_back`).  The other front ends open such
an image where `cat` does, and read of a file without dictionaries what `cat` reads
(`written_read_alike`).
-/
import LimniFS.ReadBack

namespace LimniFS

open Lib Lib.Parser Cursor

/-! ### Files -/

section

variable {env : WriterEnv} {config : WriteConfig} {workers : Workers env} {sched : Schedule}
  {tree : SourceTree env.readFile} {s walked : WriterState} {chunker : ParallelFastCDC}
  {root : Nat} {results : List ChunkedFileResult} {texts : List Bytes} {a : WriteArtifact}
  {dir : Directory}

/-- What a reader finds of a node: its fields, its attributes, its target, or its entries. -/
structure NodeShown (H : Hash) (read : MetadataBlob) (node : SurveyNode) (got : Inode) : Prop where
  mode : got.mode = node.info.mode
  uid : got.uid = node.info.uid
  gid : got.gid = node.info.gid
  mtimeNs : got.mtimeNs = node.info.mtimeNs
  xattrs : got.xattrs = if node.info.kind = .symlink then [] else node.info.kept
  target : ∀ t, node.symlinkTarget = some t → got.contentHandle = .symlink t
  listing : node.info.kind = .directory → ∃ hash found, got.contentHandle = .directory hash ∧
    read.dirNodeByHash H hash = some found ∧
    (found.entries.map fun e => (e.name, e.entryType)).Perm node.children.listing

/-- A run whose image is on disk and opens, with all that is known of it. -/
structure OpenedRun (env : WriterEnv) (config : WriteConfig) (workers : Workers env)
    (tree : SourceTree env.readFile) (texts : List Bytes) (s walked : WriterState)
    (chunker : ParallelFastCDC) (results : List ChunkedFileResult) (root : Nat) (read : MetadataBlob)
    (source : Option SlabSource) : Prop where
  lawful : env.z.Lawful
  told : TextsApart env config workers (tree.survey.files tree.root) texts
  run : StreamedRun env config workers tree (directoryStart config) s chunker root walked results
  inodes : s.inodes = walked.inodes
    ++ (walked.pendingFiles.zip results).map fun f => fileInode f.1 f.2.slices
  returned : MetadataReturned env.H s.toWriteContext read
  wellFormed : read.WellFormed
  parsed : ∀ node ∈ read.dirNodes, ∀ e ∈ node.entries, DeltaBuilder.ParsedEntry e
  bounded : ∀ inode ∈ read.inodes, inode.Bounded defaultInlineDataMaxBytes
  answers : ∀ chunk ∈ texts, (∃ r ∈ results.flatMap (·.drops), r.id = env.H chunk) →
    (∀ d ∈ localDrops s.drops, d.id = env.H chunk → d.Faithful s.trainedDicts) →
    ∃ store, source = some store ∧ store (env.H chunk) = some (.ok chunk)

theorem slice_of_chunk {H : Hash} (chunks : List Bytes) (offset : Nat) :
    ∀ c ∈ chunks, ∃ slice ∈ slicesFrom H offset chunks, slice.dropId = H c :=
  exists_mem_of_forall₂ (forall₂_slicesFrom chunks offset)

/-- Slices for chunks are answered with the chunks. -/
theorem answersWith_slicesFrom {H : Hash} {store : SlabSource} : ∀ (chunks : List Bytes) (offset : Nat)
    (refs : List SliceRef), List.Forall₂ SliceReturned (slicesFrom H offset chunks) refs →
    (∀ c ∈ chunks, store (H c) = some (.ok c)) → List.Forall₂ (AnswersWith store) refs chunks := by
  intro chunks
  induction chunks with
  | nil =>
      intro offset refs h _
      cases h
      exact .nil
  | cons chunk rest ih =>
      intro offset refs h hanswers
      obtain ⟨hfirst, hrest⟩ := List.forall_mem_cons.mp hanswers
      cases h with
      | @cons _ ref _ refs hback hbacks =>
          obtain ⟨hstart, hend, hid, hzero, hlen⟩ := hback
          refine .cons ⟨hid ▸ hfirst, ?_, hzero, ?_⟩ (ih _ refs hbacks hrest)
          · rw [SliceRef.span, hstart, hend]
            exact Nat.add_sub_cancel_left _ _
          · rw [hlen]
            exact Nat.add_sub_cancel_left _ _

theorem exists_mem_zip {α β : Type} {R : α → β → Prop} {as : List α} {bs : List β}
    (h : List.Forall₂ R as bs) : ∀ a ∈ as, ∃ b, (a, b) ∈ as.zip bs ∧ R a b := by
  induction h with
  | nil =>
      intro a ha
      exact absurd ha List.not_mem_nil
  | @cons first other as bs hfirst _ ih =>
      intro a ha
      rcases List.mem_cons.mp ha with rfl | hrest
      · exact ⟨other, List.mem_cons_self, hfirst⟩
      · obtain ⟨b, hmem, hb⟩ := ih a hrest
        exact ⟨b, List.mem_cons_of_mem _ hmem, hb⟩

namespace OpenedRun

variable {read : MetadataBlob} {source : Option SlabSource}

theorem kept (h : OpenedRun env config workers tree texts s walked chunker results root read source) :
    Kept walked s.toWriteContext where
  inodes := by
    rw [h.inodes]
    exact List.subset_append_left _ _
  pending pf hpf := by
    obtain ⟨r, hmem, -⟩ := exists_mem_zip (covers_of_merged h.run.merged) pf hpf
    refine ⟨r.slices, ?_⟩
    rw [h.inodes]
    exact List.mem_append_right _ (List.mem_map.mpr ⟨(pf, r), hmem, rfl⟩)
  xattrs := h.run.layout.inodeXattrs

/-- **What stands for a node is shown as the node.** -/
theorem shown (h : OpenedRun env config workers tree texts s walked chunker results root read source)
    {node : SurveyNode} {path : Path} {number : Nat} (hproper : node.Proper)
    (hstands : Stands env walked path node number) :
    ∃ got, read.inodeByNumber number = some got ∧ NodeShown env.H read node got := by
  have hxattrs : ∀ inode ∈ s.inodes, inode.xattrs = [] →
      s.wrapped.xattrsOf inode = walked.noted inode.number := by
    intro inode _ hnone
    show (s.inodeXattrs inode.number).getD inode.xattrs = _
    rw [h.kept.xattrs, hnone]
    rfl
  cases hstands with
  | @symlink _ info children t _ inode xattrs =>
      obtain ⟨-, -, -, htarget⟩ := hproper
      have hlink := (htarget t rfl).1
      obtain ⟨got, hfound, hback⟩ := h.returned.inodes _ (h.kept.inodes inode)
      have hcontent := hback.content
      refine ⟨got, hfound, hback.mode, hback.uid, hback.gid, hback.mtimeNs, ?_, ?_, ?_⟩
      · rw [hback.xattrs, hxattrs _ (h.kept.inodes inode) rfl, SurveyNode.info, if_pos hlink]
        exact xattrs
      · intro t' ht'
        cases ht'
        cases hhandle : got.contentHandle with
        | symlink target =>
            rw [hhandle] at hcontent
            exact congrArg ContentHandle.symlink hcontent
        | _ =>
            rw [hhandle] at hcontent
            exact hcontent.elim
      · intro hdir
        have hboth : FileKind.directory = FileKind.symlink := hdir.symm.trans hlink
        cases hboth
  | @directory _ info children _ entries kind inode xattrs below =>
      obtain ⟨got, hfound, hback⟩ := h.returned.inodes _ (h.kept.inodes inode)
      have hcontent := hback.content
      refine ⟨got, hfound, hback.mode, hback.uid, hback.gid, hback.mtimeNs, ?_, ?_, ?_⟩
      · rw [hback.xattrs, hxattrs _ (h.kept.inodes inode) rfl, SurveyNode.info, kind, if_neg (by decide)]
        exact xattrs
      · intro t ht
        cases ht
      · intro _
        obtain ⟨found, hnode, hentries⟩ := h.returned.nodes _ (h.kept.inodes inode) _ rfl
        cases hhandle : got.contentHandle with
        | directory hash =>
            rw [hhandle] at hcontent
            obtain rfl : hash = dirNodeHash env.H (sortEntries entries) := hcontent
            refine ⟨_, found, rfl, hnode, ?_⟩
            rw [hentries, SurveyNode.children, ← below.listing]
            exact (List.perm_insertionSort _ _).map _
        | _ =>
            rw [hhandle] at hcontent
            exact hcontent.elim
  | @file _ info children _ kind file =>
      have hfile : ∃ inode ∈ s.inodes, inode.number = number ∧ inode.xattrs = [] ∧
          inode.mode = info.mode ∧ inode.uid = info.uid ∧ inode.gid = info.gid ∧
          inode.mtimeNs = info.mtimeNs := by
        rcases file.content with ⟨data, -, inode⟩ | ⟨first, -, pending⟩
        · exact ⟨_, h.kept.inodes inode, rfl, rfl, rfl, rfl, rfl, rfl⟩
        · obtain ⟨slices, inode⟩ := h.kept.pending _ pending
          exact ⟨_, inode, rfl, rfl, rfl, rfl, rfl, rfl⟩
      obtain ⟨inode, hinode, rfl, hnone, hmode, huid, hgid, hmtime⟩ := hfile
      obtain ⟨got, hfound, hback⟩ := h.returned.inodes _ hinode
      refine ⟨got, hfound, hback.mode.trans hmode, hback.uid.trans huid, hback.gid.trans hgid,
        hback.mtimeNs.trans hmtime, ?_, ?_, ?_⟩
      · rw [hback.xattrs, hxattrs _ hinode hnone, SurveyNode.info, kind, if_neg (by decide)]
        exact file.xattrs
      · intro t ht
        cases ht
      · intro hdir
        have hboth : FileKind.directory = FileKind.file := hdir.symm.trans kind
        cases hboth

/-- **A file is printed as it was read**, if its drops decode. -/
theorem printed (h : OpenedRun env config workers tree texts s walked chunker results root read source)
    {path : Path} {info : SurveyMeta} {number : Nat} (hstands : FileStands env walked path info number)
    (hfaithful : s.FileFaithful number) {got : Inode} (hfound : read.inodeByNumber number = some got) :
    Cat.debugOther got.contentHandle = none ∧ ∃ data, env.readFile path = .ok data ∧
      Cat.printed got source [] = some (.ok data) := by
  have hbounded := h.bounded got (inodeByNumber_mem hfound).1
  rcases hstands.content with ⟨data, hread, hinode⟩ | ⟨first, hsame, hpending⟩
  · obtain ⟨got', hfound', hback⟩ := h.returned.inodes _ (h.kept.inodes hinode)
    obtain rfl : got' = got := Option.some.inj (hfound'.symm.trans hfound)
    have hcontent := hback.content
    cases hhandle : got'.contentHandle with
    | inlineData x =>
        rw [hhandle] at hcontent
        obtain rfl : x = data := hcontent
        have hshort := hbounded.inline x hhandle
        exact ⟨rfl, x, hread, Cat.printed_inline hhandle
          (Nat.lt_of_le_of_lt hshort (by decide))⟩
    | _ =>
        rw [hhandle] at hcontent
        exact hcontent.elim
  · have hnew : (directoryStart config).Fresh := ⟨rfl, rfl, rfl, rfl⟩
    obtain ⟨r, hmem, data, hread, hrestores⟩ :=
      exists_mem_zip (h.run.restores hnew h.lawful h.told) _ hpending
    obtain ⟨chunks, hflat, htexts, hraw, hslices⟩ := hrestores.slices
    have hinode : fileInode ⟨number, first, info.mtimeNs, info.len, info.mode, info.uid, info.gid⟩
        r.slices ∈ s.inodes := by
      rw [h.inodes]
      exact List.mem_append_right _ (List.mem_map.mpr ⟨_, hmem, rfl⟩)
    obtain ⟨got', hfound', hback⟩ := h.returned.inodes _ hinode
    obtain rfl : got' = got := Option.some.inj (hfound'.symm.trans hfound)
    have hcontent := hback.content
    cases hhandle : got'.contentHandle with
    | sliceMap map =>
        rw [hhandle] at hcontent
        have hreturned : List.Forall₂ SliceReturned r.slices map.slices := hcontent
        have hanswer : ∀ c ∈ chunks, ∃ store, source = some store ∧
            store (env.H c) = some (.ok c) := by
          intro c hc
          obtain ⟨d, hd, hid⟩ := hraw c hc
          refine h.answers c (htexts c hc)
            ⟨d, List.mem_flatMap.mpr ⟨r, (List.of_mem_zip hmem).2, hd⟩, hid⟩ fun d hd hname => ?_
          obtain ⟨slice, hslice, hsliceId⟩ := slice_of_chunk chunks 0 c hc
          exact hfaithful _ hinode rfl _ _ rfl slice (hslices ▸ hslice) d hd
            (hname.trans hsliceId.symm)
        refine ⟨rfl, data, hsame ▸ hread, ?_⟩
        obtain ⟨store, rfl⟩ : ∃ store, source = some store := by
          cases hchunks : chunks with
          | nil =>
              have hwalked := foldSurvey_walked _ _ _ _ _ _ h.run.walk
              have hwalkedNew : (streamingStart config (directoryStart config)).Fresh := hnew
              refine absurd ?_ (data_of_pending hwalkedNew hwalked hpending hread).2.1
              rw [← hflat, hchunks]
              rfl
          | cons c rest =>
              obtain ⟨store, hstore, -⟩ := hanswer c (hchunks ▸ List.mem_cons_self)
              exact ⟨store, hstore⟩
        rw [← hflat]
        refine printed_of_chunks hhandle hbounded
          (answersWith_slicesFrom chunks 0 _ (hslices ▸ hreturned) fun c hc => ?_)
        obtain ⟨store', hstore, hfound⟩ := hanswer c hc
        obtain rfl := Option.some.inj hstore
        exact hfound
    | _ =>
        rw [hhandle] at hcontent
        exact hcontent.elim

end OpenedRun

/-! ### The tree -/

/-- The names of a path, the slashes at its ends taken off. -/
def Cat.namesOf (path : Bytes) : Path := PathText.components slash (trimEnd (trimStart path))

theorem Cat.resolvePath_eq {H : Hash} {blob : MetadataBlob} {root : Nat} {rootInode : Inode}
    (hparsed : ∀ node ∈ blob.dirNodes, ∀ e ∈ node.entries, DeltaBuilder.ParsedEntry e)
    (hroot : blob.inodeByNumber root = some rootInode) (path : Bytes) :
    resolvePath H blob rootInode path
      = (Rw.numberAt H blob root (namesOf path)).bind blob.inodeByNumber := by
  have hnumber := (inodeByNumber_mem hroot).2
  unfold resolvePath namesOf PathText.components
  by_cases hnil : trimEnd (trimStart path) = []
  · rw [if_pos hnil, if_pos hnil]
    exact hroot.symm
  · rw [if_neg hnil, if_neg hnil, resolveFrom_eq hparsed _ (MetadataBlob.Records.of_number hroot), hnumber]

/-- The image shows the tree: a path leads where its names do, and `cat` prints the files whose drops
decode.  Two files are one exactly if they are one in the tree. -/
structure TreeReadsBack (env : WriterEnv) (tree : SourceTree env.readFile) (s : WriterState)
    (image : ImageFile) (loaded : LoadedImage) (rootInode : Inode) : Prop where
  missing : ∀ path, tree.survey.nodeAt (Cat.namesOf path) = none →
    Cat.cat env.H env.z image path none none [] = some (.error (Cat.pathNotFound path))
  shown : ∀ path node, tree.survey.nodeAt (Cat.namesOf path) = some node →
    ∃ inode, Cat.resolvePath env.H loaded.blob rootInode path = some inode ∧
      NodeShown env.H loaded.blob node inode
  printed : ∀ path node inode, tree.survey.nodeAt (Cat.namesOf path) = some node →
    Cat.resolvePath env.H loaded.blob rootInode path = some inode → node.info.kind = .file →
    s.FileFaithful inode.number →
    ∃ data, env.readFile (tree.root ++ Cat.namesOf path) = .ok data ∧
      Cat.cat env.H env.z image path none none [] = some (.ok data)
  linked : ∀ path path' node node' inode inode', tree.survey.nodeAt (Cat.namesOf path) = some node →
    tree.survey.nodeAt (Cat.namesOf path') = some node' →
    Cat.resolvePath env.H loaded.blob rootInode path = some inode →
    Cat.resolvePath env.H loaded.blob rootInode path' = some inode' →
    node.info.kind = .file → node'.info.kind = .file →
    (inode.number = inode'.number ↔
      (node.info.dev, node.info.ino) = (node'.info.dev, node'.info.ino))

theorem met_start (files : List (Path × SurveyMeta)) :
    Met env files (streamingStart config (directoryStart config)) where
  stands key number hkey := by cases hkey
  apart key key' number hkey := by cases hkey
  xattrs number hsome := absurd rfl hsome

/-- What is known of a run whose image opens. -/
theorem openedRun (hproper : tree.survey.Proper) (hdir : tree.survey.info.kind = .directory)
    (hone : OneFile env (tree.survey.files tree.root)) (hz : env.z.Lawful) (haudio : env.z.KnowsAudio)
    (htold : TextsApart env config workers (tree.survey.files tree.root) texts)
    (hrun : writeDirectoryStreaming env config workers sched tree (directoryStart config) = .ok s)
    (ha : assemble env.H env.z s.toWriteContext = some a) (hdisk : a.OnDisk dir)
    (hinline : NoCollision env.H (inlineContents s.inodes))
    (hnodes : NoCollision env.H (s.dirNodes.map (·.bytes)))
    (hfits : isFilterComposite s.metadataCodec = true →
      ∀ bytes, s.metadataBlob env.H = some bytes → FilteredFits env.z bytes)
    (hopens : CliOpens env.z ⟨a.bytes, dir⟩) :
    ∃ chunker walked results loaded stores, loadImage env.z ⟨a.bytes, dir⟩ = .ok loaded ∧
      loadSlabChain env.z ⟨a.bytes, dir⟩ loaded [] = .ok stores ∧
      Stands env walked tree.root tree.survey loaded.rootInodeNumber ∧
      Met env (tree.survey.files tree.root) walked ∧
      OpenedRun env config workers tree texts s walked chunker results loaded.rootInodeNumber
        loaded.blob (chainSource env.z stores) := by
  have hnew : (directoryStart config).Fresh := ⟨rfl, rfl, rfl, rfl⟩
  obtain ⟨chunker, root, walked, results, hstreamed⟩ := exists_streamedRun hrun
  have hinodes := hstreamed.inodes_eq hnew
  have hwalk := hstreamed.walk
  rw [← hproper.symlinkTarget_none hdir] at hwalk
  obtain ⟨hstep, hstands⟩ := foldSurvey_stands hone tree.survey tree.root hproper tree.agrees
    (fun _ hf => hf) walking_start (met_start _) hwalk
  -- the image
  obtain ⟨front, blob, number, views, dicts, himage⟩ := cliOpens_iff.mp hopens
  obtain ⟨loaded, stores, hload, hstores, rfl, hsource⟩ := himage.cli
  obtain ⟨bytes, rest, hbytes, hparse⟩ := himage.metadata hz haudio hfits ha hdisk.sidecar
  obtain ⟨-, -, hslabs, -, hcount⟩ := assemble_some hbytes ha
  have hviews := loadSlabs_onDisk a.slabs 0 views hdisk.slab (himage.sections ha).2.2
  obtain ⟨hlaid, hrooted⟩ := hstreamed.laid hproper hdir (metadataBlob_count hbytes).2.1
  have hroot : loaded.rootInodeNumber = root := by
    obtain ⟨_, _, _, _, _, -, -, -, -, hnumber, -, -⟩ := loadImage_eq_ok.mp hload
    obtain ⟨resolved, hreturned, hread⟩ := hlaid.read_eq hinline hbytes hparse
    have hfound := hrooted.found hlaid hreturned
    rw [← hread] at hfound
    exact Option.some.inj (hnumber.symm.trans hfound)
  have hctx := written_wellFormed hnew (Or.inr hrun)
  subst hroot
  refine ⟨chunker, walked, results, loaded, stores, hload, hstores, hstands, hstep.met, ?_⟩
  exact
    { lawful := hz
      told := htold
      run := hstreamed
      inodes := hinodes
      returned := hlaid.returned hinline hnodes hbytes hparse
      wellFormed := parseMetadataBlob_wellFormed hparse
      parsed := DeltaBuilder.parseMetadataBlob_parsed hparse
      bounded := (parseMetadataBlob_bounded hparse).2.2.1
      answers := fun chunk hchunk hraw hfaithful => by
        obtain ⟨hne, hanswer⟩ := hstreamed.answers hz htold hctx hslabs hcount hviews hchunk hraw
          hfaithful (s.baseRoot.elim [] deltaLinkageBytes)
        refine ⟨_, hsource.trans (if_neg hne), ?_⟩
        unfold cliStore
        rw [himage.dictionaries ha]
        exact hanswer }

/--
**What was packed is read back.**
For every tree of a file system, configuration, schedule of the workers and state of their caches: once
a standalone image was written and its files are on disk, and it opens, a path leads to an inode exactly
if it leads to a node of the tree, with the node's fields, attributes and names; a file is printed as it
was read, if its drops are not FLAC and name no dictionary that a reader leaves out; and two files have
one number exactly if they are one file.
-/
theorem packed_tree_reads_back (hproper : tree.survey.Proper)
    (hdir : tree.survey.info.kind = .directory) (hone : OneFile env (tree.survey.files tree.root))
    (hz : env.z.Lawful) (haudio : env.z.KnowsAudio)
    (htold : TextsApart env config workers (tree.survey.files tree.root) texts)
    (hrun : writeDirectoryStreaming env config workers sched tree (directoryStart config) = .ok s)
    (ha : assemble env.H env.z s.toWriteContext = some a) (hdisk : a.OnDisk dir)
    (hinline : NoCollision env.H (inlineContents s.inodes))
    (hnodes : NoCollision env.H (s.dirNodes.map (·.bytes)))
    (hfits : isFilterComposite s.metadataCodec = true →
      ∀ bytes, s.metadataBlob env.H = some bytes → FilteredFits env.z bytes)
    (hopens : CliOpens env.z ⟨a.bytes, dir⟩) :
    ∃ loaded rootInode, loadImage env.z ⟨a.bytes, dir⟩ = .ok loaded ∧
      loaded.blob.inodeByNumber loaded.rootInodeNumber = some rootInode ∧
      TreeReadsBack env tree s ⟨a.bytes, dir⟩ loaded rootInode := by
  obtain ⟨chunker, walked, results, loaded, stores, hload, hstores, hstands, hmet, h⟩ :=
    openedRun hproper hdir hone hz haudio htold hrun ha hdisk hinline hnodes hfits hopens
  obtain ⟨rootInode, hroot, -⟩ := h.shown hproper hstands
  have hresolve := @Cat.resolvePath_eq env.H loaded.blob _ rootInode h.parsed hroot
  -- a path and the node it leads to
  have hleads : ∀ path node, tree.survey.nodeAt (Cat.namesOf path) = some node →
      ∃ number, Stands env walked (tree.root ++ Cat.namesOf path) node number ∧
        Cat.resolvePath env.H loaded.blob rootInode path = loaded.blob.inodeByNumber number := by
    intro path node hnode
    rcases numberAt_of_stands h.returned h.wellFormed h.kept (Cat.namesOf path) hproper hstands with
      ⟨hnone, -⟩ | ⟨found, number, hfound, hnumber, hat⟩
    · rw [hnode] at hnone
      cases hnone
    · obtain rfl : found = node := Option.some.inj (hfound.symm.trans hnode)
      refine ⟨number, hat, ?_⟩
      rw [hresolve, hnumber]
      rfl
  refine ⟨loaded, rootInode, hload, hroot, ⟨fun path hnone => ?_, fun path node hnode => ?_,
    fun path node inode hnode hpath hkind hfaithful => ?_, ?_⟩⟩
  · rcases numberAt_of_stands h.returned h.wellFormed h.kept (Cat.namesOf path) hproper hstands with
      ⟨-, hnumber⟩ | ⟨found, number, hfound, -, -⟩
    · unfold Cat.cat
      rw [hload]
      simp only [hroot, hresolve, hnumber, Option.bind_none]
    · rw [hnone] at hfound
      cases hfound
  · obtain ⟨number, hat, hpath⟩ := hleads path node hnode
    obtain ⟨got, hgot, hshown⟩ := h.shown (hproper.nodeAt hnode) hat
    exact ⟨got, hpath.trans hgot, hshown⟩
  · obtain ⟨number, hat, hsame⟩ := hleads path node hnode
    rw [hsame] at hpath
    obtain rfl := (inodeByNumber_mem hpath).2
    obtain ⟨hother, data, hread, hprinted⟩ := h.printed (hat.file_of_kind (hproper.nodeAt hnode) hkind)
      hfaithful hpath
    exact ⟨data, hread, (Cat.cat_eq_printed hload hroot (hsame.trans hpath) hother hstores).trans hprinted⟩
  · intro path path' node node' inode inode' hnode hnode' hpath hpath' hkind hkind'
    obtain ⟨number, hat, hsame⟩ := hleads path node hnode
    obtain ⟨number', hat', hsame'⟩ := hleads path' node' hnode'
    rw [hsame] at hpath
    rw [hsame'] at hpath'
    obtain rfl := (inodeByNumber_mem hpath).2
    obtain rfl := (inodeByNumber_mem hpath').2
    have hfile := hat.file_of_kind (hproper.nodeAt hnode) hkind
    have hfile' := hat'.file_of_kind (hproper.nodeAt hnode') hkind'
    constructor
    · intro heq
      exact hmet.apart _ _ _ hfile.target (heq ▸ hfile'.target)
    · intro heq
      have htarget := hfile.target
      rw [heq, hfile'.target] at htarget
      exact (Option.some.inj htarget).symm

/-! ### The front ends -/

/-- The files and their chunks. -/
def textsOf (env : WriterEnv) (config : WriteConfig) (files : List (Path × SurveyMeta)) : List Bytes :=
  (chunkerFromConfig config).toOption.toList.flatMap fun chunker =>
    (files.filterMap fun f => (env.readFile f.1).toOption).flatMap (piecesOf env chunker)

theorem mem_textsOf {files : List (Path × SurveyMeta)} (hchunker : chunkerFromConfig config = .ok chunker) :
    ∀ f ∈ files, ∀ data, env.readFile f.1 = .ok data → ∀ x ∈ piecesOf env chunker data,
      x ∈ textsOf env config files := by
  intro f hf data hread x hx
  unfold textsOf
  rw [hchunker]
  refine List.mem_flatMap.mpr ⟨chunker, List.mem_cons_self, List.mem_flatMap.mpr ⟨data, ?_, hx⟩⟩
  exact List.mem_filterMap.mpr ⟨f, hf, by rw [hread]; rfl⟩

theorem assemble_wrapped {H : Hash} {z : Omnizip} {ctx : WriteContext} :
    assemble H z ctx.wrapped = assemble H z ctx := by
  unfold assemble
  rw [wrapped_metadataBlob]
  rfl

/-- What was laid out and is taken was written as the front ends expect it. -/
theorem WriteContext.Laid.written {H : Hash} {z : Omnizip} {ctx : WriteContext} {threshold : Nat}
    (h : ctx.Laid H threshold) (hctx : ctx.WellFormed) (hpacked : PackedFrom H z texts ctx)
    (htexts : NoCollision H texts) (hinline : NoCollision H (inlineContents ctx.inodes))
    (hparts : ReadableParts defaultInlineDataMaxBytes ctx.inodes ctx.dirNodes) :
    ctx.wrapped.Written H z defaultInlineDataMaxBytes texts where
  wellFormed := ⟨hctx.ids, hctx.plaintextLen⟩
  coherent := h.coherent hparts
  packed := ⟨hpacked.drops, hpacked.slices⟩
  texts := htexts
  inlined := hinline

/--
**The front ends read a written image alike.**
For every tree of a file system, configuration, schedule of the workers and state of their caches: of a
standalone image that was written and whose files are on disk, the library opens what the CLI opens, and
the virtual filesystem what of it has its metadata inlined; and every window of a file without
dictionaries is read alike by all that open the image, whatever was read before.
-/
theorem written_read_alike (hproper : tree.survey.Proper)
    (hdir : tree.survey.info.kind = .directory) (hz : env.z.Lawful) (haudio : env.z.KnowsAudio)
    (htexts : NoCollision env.H (textsOf env config (tree.survey.files tree.root)))
    (hrun : writeDirectoryStreaming env config workers sched tree (directoryStart config) = .ok s)
    (ha : assemble env.H env.z s.toWriteContext = some a) (hdisk : a.OnDisk dir)
    (hinline : NoCollision env.H (inlineContents s.inodes))
    (hfits : isFilterComposite s.metadataCodec = true →
      ∀ bytes, s.metadataBlob env.H = some bytes → FilteredFits env.z bytes)
    (hnames : ∀ views, loadSlabs dir 0 (slabIndexOf a.slabs).entries = .ok views →
      NoCollision env.H (⟨views, fun _ => none⟩ : SlabStore).frameNames) (readConfig : ReadConfig) :
    ((∃ reader, ImageReader.fromParts env.z a.bytes dir readConfig = some (.ok reader)) ↔
      CliOpens env.z ⟨a.bytes, dir⟩) ∧
    ((∃ vfs, Vfs.fromBytes env.z a.bytes dir = .ok vfs) ↔
      CliOpens env.z ⟨a.bytes, dir⟩ ∧ a.metadataSidecar = none) ∧
    ∀ number, s.FileWithoutDict number → ∀ offset n out,
      (LibraryReads env.H env.z ⟨a.bytes, dir⟩ readConfig number offset n out ↔
        CliReads env.z ⟨a.bytes, dir⟩ number offset n out) ∧
      (VfsReads env.H env.z ⟨a.bytes, dir⟩ number offset n out ↔
        CliReads env.z ⟨a.bytes, dir⟩ number offset n out ∧ a.metadataSidecar = none) := by
  have hnew : (directoryStart config).Fresh := ⟨rfl, rfl, rfl, rfl⟩
  obtain ⟨chunker, root, walked, results, hstreamed⟩ := exists_streamedRun hrun
  have hpacked := hstreamed.packedFrom hnew (mem_textsOf hstreamed.chunked)
  have hctx := written_wellFormed hnew (Or.inr hrun)
  refine ⟨libraryOpens_iff ha hdisk, vfsOpens_iff ha, fun number hbare offset n out => ?_⟩
  refine @reads_alike env.H env.z s.toWriteContext.wrapped a dir defaultInlineDataMaxBytes
    (textsOf env config (tree.survey.files tree.root)) number hz haudio (fun hopens => ?_)
    (fun hc bytes hbytes => hfits hc bytes (wrapped_metadataBlob.symm.trans hbytes))
    (assemble_wrapped.trans ha) hdisk hnames readConfig hbare offset n out
  -- what opens has metadata that is taken
  obtain ⟨front, blob, number, views, dicts, himage⟩ := cliOpens_iff.mp hopens
  obtain ⟨bytes, rest, hbytes, hparse⟩ := himage.metadata hz haudio hfits ha hdisk.sidecar
  obtain ⟨hlaid, -⟩ := hstreamed.laid hproper hdir (metadataBlob_count hbytes).2.1
  exact hlaid.written hctx hpacked htexts hinline
    ((hlaid.parsed_iff hinline hbytes).mp ⟨blob, rest, hparse⟩)

end

namespace Stored

/-- A file with two names, and one that is kept inline. -/
def packedFiles (path : Path) : Except String Bytes :=
  if path = [[0x61]] ∨ path = [[0x64], [0x68]] then .ok [1, 2, 3, 4, 5, 6, 7, 8]
  else if path = [[0x64], [0x62]] then .ok [9, 9]
  else .error "No such file or directory (os error 2)"

def packedEnv : WriterEnv := { writerEnv with H := foldDigest, readFile := packedFiles }

def packedTree : SourceTree packedEnv.readFile where
  root := []
  survey := .node dirInfo (.cons [0x61] (.node (fileInfo 2 8) .nil none)
    (.cons [0x64] (.node { dirInfo with ino := 4 } (.cons [0x62] (.node (fileInfo 3 2) .nil none)
      (.cons [0x68] (.node (fileInfo 2 8) .nil none) .nil)) none) .nil)) none
  agrees := by
    intro f hf data hread
    simp only [SurveyNode.files, SurveyChildren.files, dirInfo, fileInfo, if_true, List.nil_append,
      List.append_nil, List.singleton_append, List.mem_cons, List.not_mem_nil, or_false, reduceCtorEq,
      if_false] at hf
    rcases hf with rfl | rfl | rfl
    · cases hread
      rfl
    · cases hread
      rfl
    · cases hread
      rfl
  len_lt := by decide

def packedConfig : WriteConfig :=
  { writeConfig with defaults := { writeConfig.defaults with inlineThreshold := 4 } }

def packedTexts : List Bytes :=
  textsOf packedEnv packedConfig (packedTree.survey.files packedTree.root)

theorem packedTexts_apart :
    TextsApart packedEnv packedConfig (fun _ _ => .empty) (packedTree.survey.files packedTree.root)
      packedTexts where
  pieces f hf data hread chunker hchunker := mem_textsOf hchunker f hf data hread
  cached _ _ e he := absurd he List.not_mem_nil
  apart := by decide +kernel

theorem packedTree_proper : packedTree.survey.Proper := by
  have hname : ∀ b : UInt8, b = 0x61 ∨ b = 0x62 ∨ b = 0x64 ∨ b = 0x68 → ProperName [b] := by
    rintro b (rfl | rfl | rfl | rfl)
    all_goals exact ⟨by decide, by decide, by decide, by decide⟩
  have hzero : 0 < u32Limit := by decide
  have hfile : ∀ ino len, (fileInfo ino len).Proper := fun ino len =>
    ⟨(by decide : 0x81A4 < u32Limit), hzero, hzero, (by decide : 0 < 2 ^ 64),
      (by decide : 0x81A4 &&& sIfmt = sIfreg), fun x hx => absurd hx List.not_mem_nil⟩
  have hdir : ∀ ino, { dirInfo with ino := ino }.Proper := fun ino =>
    ⟨(by decide : 0x41ED < u32Limit), hzero, hzero, (by decide : 0 < 2 ^ 64),
      (by decide : 0x41ED &&& sIfmt = sIfdir), fun x hx => absurd hx List.not_mem_nil⟩
  have hnone : ∀ kind : FileKind, ∀ t ∈ (none : Option Bytes), kind = .symlink ∧ utf8Valid t = true := by
    intro kind t ht
    cases ht
  have hleaf : ∀ ino len, (SurveyNode.node (fileInfo ino len) .nil none).Proper := fun ino len =>
    ⟨hfile ino len, trivial, Or.inr rfl, hnone _⟩
  exact ⟨hdir 1, ⟨hname _ (by decide), hleaf 2 8, hname _ (by decide), ⟨hdir 4, ⟨hname _ (by decide),
    hleaf 3 2, hname _ (by decide), hleaf 2 8, trivial⟩, Or.inl rfl, hnone _⟩, trivial⟩, Or.inl rfl,
    hnone _⟩

theorem packedTree_oneFile : OneFile packedEnv (packedTree.survey.files packedTree.root) := by
  intro f hf g hg hkey
  simp only [packedTree, SurveyNode.files, SurveyChildren.files, dirInfo, fileInfo, if_true,
    List.nil_append, List.append_nil, List.singleton_append, List.mem_cons, List.not_mem_nil,
    or_false, reduceCtorEq, if_false] at hf hg
  rcases hf with rfl | rfl | rfl
  all_goals
    rcases hg with rfl | rfl | rfl
    all_goals first
      | exact ⟨rfl, rfl⟩
      | exact absurd (Prod.mk.inj hkey).2 (by decide)

end Stored

open LimniFS.Stored

theorem exists_imaged {env : WriterEnv} {x : Except WriteStop WriterState}
    {P : WriterState → WriteArtifact → Bool}
    (h : (x.toOption.bind fun s =>
      (assemble env.H env.z s.toWriteContext).filter fun a => P s a).isSome = true) :
    ∃ s a, x = .ok s ∧ assemble env.H env.z s.toWriteContext = some a ∧ P s a = true := by
  cases x with
  | error e => cases h
  | ok s =>
      obtain ⟨a, ha⟩ := Option.isSome_iff_exists.mp h
      obtain ⟨hassembled, hP⟩ := Option.filter_eq_some_iff.mp ha
      exact ⟨s, a, rfl, hassembled, hP⟩

/-- What the tree is written to, on disk. -/
theorem Stored.exists_packedImage :
    ∃ s a, writeDirectoryStreaming packedEnv packedConfig (fun _ _ => .empty) .sequential packedTree
        (directoryStart packedConfig) = .ok s ∧
      assemble packedEnv.H packedEnv.z s.toWriteContext = some a ∧ a.OnDisk (filesOf a) ∧
      NoCollision packedEnv.H (inlineContents s.inodes) ∧
      NoCollision packedEnv.H (s.dirNodes.map (·.bytes)) ∧ s.metadataCodec = codecBrotli ∧
      (∀ d ∈ s.drops, d.codec ≠ codecFlac ∧ d.dictId = noDict) ∧
      CliOpens packedEnv.z ⟨a.bytes, filesOf a⟩ ∧
      (loadSlabs (filesOf a) 0 (slabIndexOf a.slabs).entries).map
        (fun views => SlabStore.frameNames ⟨views, fun _ => none⟩) = .ok [] := by
  obtain ⟨s, a, hrun, ha, hP⟩ := @exists_imaged packedEnv
    (writeDirectoryStreaming packedEnv packedConfig (fun _ _ => .empty) .sequential packedTree
      (directoryStart packedConfig))
    (fun s a => decide (NoCollision foldDigest (inlineContents s.inodes)) &&
      decide (NoCollision foldDigest (s.dirNodes.map (·.bytes))) &&
      decide (s.metadataCodec = codecBrotli) &&
      s.drops.all (fun d => d.codec != codecFlac && d.dictId == noDict) &&
      a.slabs.all (fun s => decide (localSidecarName s.locator = .ok (s.locator.drop 5) ∧
        filesOf a (s.locator.drop 5) = some s.bytes)) &&
      a.metadataSidecar.all (fun m => decide (localSidecarName m.locator = .ok (m.locator.drop 5) ∧
        filesOf a (m.locator.drop 5) = some m.bytes)) &&
      (do
        let loaded ← loadImage omnizip ⟨a.bytes, filesOf a⟩
        loadSlabChain omnizip ⟨a.bytes, filesOf a⟩ loaded []).isOk &&
      decide ((loadSlabs (filesOf a) 0 (slabIndexOf a.slabs).entries).map
        (fun views => SlabStore.frameNames ⟨views, fun _ => none⟩) = .ok []))
    (by decide +kernel)
  simp only [Bool.and_eq_true, decide_eq_true_eq] at hP
  obtain ⟨⟨⟨⟨⟨⟨⟨hinline, hnodes⟩, hcodec⟩, hdrops⟩, hslabs⟩, hsidecar⟩, hopens⟩, hnames⟩ := hP
  obtain ⟨stores, hstores⟩ := exists_eq_ok hopens
  obtain ⟨loaded, hload, hchain⟩ := except_bind_eq_ok.mp hstores
  refine ⟨s, a, hrun, ha, onDisk_filesOf hslabs hsidecar, hinline, hnodes, hcodec, fun d hd => ?_,
    ⟨loaded, stores, hload, hchain⟩, hnames⟩
  simpa using List.all_eq_true.mp hdrops d hd

/-- The second name of a file, in a directory. -/
theorem packed_tree_reads_back_linked :
    ∃ s a loaded rootInode, writeDirectoryStreaming packedEnv packedConfig
        (fun _ _ => .empty) .sequential packedTree (directoryStart packedConfig) = .ok s ∧
      assemble packedEnv.H packedEnv.z s.toWriteContext = some a ∧
      TreeReadsBack packedEnv packedTree s ⟨a.bytes, filesOf a⟩ loaded rootInode ∧
      Cat.cat packedEnv.H packedEnv.z ⟨a.bytes, filesOf a⟩ (ascii "d/h") none none []
        = some (.ok [1, 2, 3, 4, 5, 6, 7, 8]) := by
  obtain ⟨s, a, hrun, ha, hdisk, hinline, hnodes, hcodec, hdrops, hopens, -⟩ :=
    exists_packedImage
  obtain ⟨loaded, rootInode, -, -, htree⟩ := packed_tree_reads_back packedTree_proper rfl
    packedTree_oneFile omnizip_lawful omnizip_knowsAudio packedTexts_apart
    hrun ha hdisk hinline hnodes (by
      rw [hcodec]
      intro hcomposite
      cases hcomposite) hopens
  refine ⟨s, a, loaded, rootInode, hrun, ha, htree, ?_⟩
  have hnames : Cat.namesOf (ascii "d/h") = [[0x64], [0x68]] := by decide +kernel
  have hnode : packedTree.survey.nodeAt (Cat.namesOf (ascii "d/h"))
      = some (.node (fileInfo 2 8) .nil none) := by
    rw [hnames]
    rfl
  obtain ⟨inode, hpath, -⟩ := htree.shown _ _ hnode
  obtain ⟨data, hread, hcat⟩ := htree.printed _ _ inode hnode hpath rfl
    fun _ _ _ _ _ _ _ _ d hd _ => by
      obtain ⟨hflac, hbare⟩ := hdrops d (List.mem_filter.mp hd).1
      exact ⟨hflac, fun hne => absurd hbare hne⟩
  rw [hnames] at hread
  cases hread
  exact hcat

/-- All files of that image, through each front end. -/
theorem written_read_alike_packed :
    ∃ s a, writeDirectoryStreaming packedEnv packedConfig (fun _ _ => .empty) .sequential
        packedTree (directoryStart packedConfig) = .ok s ∧
      assemble packedEnv.H packedEnv.z s.toWriteContext = some a ∧
      CliOpens packedEnv.z ⟨a.bytes, filesOf a⟩ ∧ ∀ config number offset n out,
        (LibraryReads packedEnv.H packedEnv.z ⟨a.bytes, filesOf a⟩ config number
            offset n out ↔
          CliReads packedEnv.z ⟨a.bytes, filesOf a⟩ number offset n out) ∧
        (VfsReads packedEnv.H packedEnv.z ⟨a.bytes, filesOf a⟩ number offset n
            out ↔
          CliReads packedEnv.z ⟨a.bytes, filesOf a⟩ number offset n out ∧
            a.metadataSidecar = none) := by
  obtain ⟨s, a, hrun, ha, hdisk, hinline, -, hcodec, hdrops, hopens, hnames⟩ :=
    exists_packedImage
  refine ⟨s, a, hrun, ha, hopens, fun config number offset n out => ?_⟩
  obtain ⟨-, -, hreads⟩ := written_read_alike packedTree_proper rfl omnizip_lawful
    omnizip_knowsAudio packedTexts_apart.apart hrun ha hdisk hinline (by
      rw [hcodec]
      intro hcomposite
      cases hcomposite) (fun views hviews => by
      rw [hviews] at hnames
      have hnil := Except.ok.inj hnames
      simp only at hnil
      rw [hnil]
      intro x hx
      cases hx) config
  exact hreads number (fun _ _ _ _ _ _ _ _ d hd _ => (hdrops d (List.mem_filter.mp hd).1).2) offset n out

end LimniFS
