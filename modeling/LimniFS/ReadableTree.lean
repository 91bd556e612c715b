/-
Which trees a reader takes.

Two things that the writer does not look at are refused in the metadata: inline data above the
reader's ceiling, and a name that a directory has twice.  Whether there are such is known from the
tree: the files up to the inline threshold are those that are kept inline, a file with several names
once, and the names of a directory are those of its children (`foldSurvey_readable`).
-/
import LimniFS.FlattenEncoding
import LimniFS.MetadataKept
import LimniFS.WalkedTree

namespace LimniFS

open Lib Lib.Parser Cursor

/-! ### Ceilings -/

/-- What a reader with this ceiling takes. -/
structure ReadableParts (ceiling : Nat) (inodes : List PendingInode) (nodes : List DirNode) : Prop where
  inline : ∀ d ∈ inlineContents inodes, d.length ≤ ceiling
  names : ∀ node ∈ nodes, (node.entries.map (·.name)).Nodup

def SurveyChildren.names : SurveyChildren → List Bytes
  | .nil => []
  | .cons name _ rest => name :: rest.names

mutual

/-- No directory has two children of one name. -/
def SurveyNode.NamesApart : SurveyNode → Prop
  | .node _ children _ => children.names.Nodup ∧ children.NamesApart

def SurveyChildren.NamesApart : SurveyChildren → Prop
  | .nil => True
  | .cons _ child rest => child.NamesApart ∧ rest.NamesApart

end

/-- The files that are kept inline are short enough for a reader. -/
def InlineFits (threshold ceiling : Nat) (files : List (Path × SurveyMeta)) : Prop :=
  ∀ f ∈ files, f.2.len ≤ threshold → f.2.len ≤ ceiling

section

variable {ceiling : Nat} {inodes : List PendingInode} {nodes : List DirNode}

theorem readable_inode {inode : PendingInode} (h : ∀ data, inode.content ≠ .inline data) :
    ReadableParts ceiling (inodes ++ [inode]) nodes ↔ ReadableParts ceiling inodes nodes := by
  have hsame : inlineContents (inodes ++ [inode]) = inlineContents inodes := by
    cases hcontent : inode.content with
    | inline data => exact absurd hcontent (h data)
    | symlink target => simp [inlineContents, hcontent]
    | dropBacked fileLen slices => simp [inlineContents, hcontent]
    | directory entries => simp [inlineContents, hcontent]
  constructor
  · intro h
    exact ⟨hsame ▸ h.inline, h.names⟩
  · intro h
    exact ⟨hsame.symm ▸ h.inline, h.names⟩

theorem readable_inline {inode : PendingInode} {data : Bytes} (h : inode.content = .inline data) :
    ReadableParts ceiling (inodes ++ [inode]) nodes ↔
      ReadableParts ceiling inodes nodes ∧ data.length ≤ ceiling := by
  have hmore : inlineContents (inodes ++ [inode]) = inlineContents inodes ++ [data] := by
    simp [inlineContents, h]
  constructor
  · intro hread
    have hall := hread.inline
    rw [hmore] at hall
    exact ⟨⟨fun d hd => hall d (List.mem_append_left _ hd), hread.names⟩,
      hall data (List.mem_append_right _ List.mem_cons_self)⟩
  · rintro ⟨hread, hshort⟩
    refine ⟨?_, hread.names⟩
    rw [hmore]
    exact forall_mem_snoc hread.inline hshort

theorem readable_node {node : DirNode} : ReadableParts ceiling inodes (nodes ++ [node]) ↔
    ReadableParts ceiling inodes nodes ∧ (node.entries.map (·.name)).Nodup := by
  constructor
  · intro h
    exact ⟨⟨h.inline, fun n hn => h.names n (List.mem_append_left _ hn)⟩,
      h.names node (List.mem_append_right _ List.mem_cons_self)⟩
  · rintro ⟨h, hnames⟩
    exact ⟨h.inline, forall_mem_snoc h.names hnames⟩

end

/-! ### The blob -/

/-- What is kept of a context whatever its inline data and the names in its directories are. -/
structure WriteContext.Laid (H : Hash) (threshold : Nat) (ctx : WriteContext) : Prop where
  numbers : (ctx.inodes.map (·.number)).Nodup
  inodes : ∀ inode ∈ ctx.inodes, inode.Valid threshold
  xattrs : ∀ inode ∈ ctx.inodes, ∀ x ∈ ctx.xattrsOf inode, x.Valid
  nodes : ∀ node ∈ ctx.dirNodes, encodeDirNode H node.entries = some node ∧
    (∀ e ∈ node.entries, e.Valid) ∧ node.entries.Pairwise fun a b => a.name ≤ b.name

/-- The context with its link counts as four bytes have them. -/
def WriteContext.wrapped (ctx : WriteContext) : WriteContext :=
  { ctx with nlinkCounts := fun number => some ((ctx.nlinkCounts number).getD 1 % u32Limit) }

theorem leBytes_mod : ∀ (w n : Nat), leBytes w (n % 256 ^ w) = leBytes w n := by
  intro w
  induction w with
  | zero => exact fun n => rfl
  | succ w ih =>
      intro n
      have hbyte : n % 256 ^ (w + 1) % 256 = n % 256 :=
        Nat.mod_mod_of_dvd n (Dvd.intro_left (256 ^ w) (Nat.pow_succ 256 w).symm)
      have hrest : n % 256 ^ (w + 1) / 256 = n / 256 % 256 ^ w := by
        rw [Nat.pow_succ', Nat.mod_mul_right_div_self]
      rw [leBytes, leBytes, hbyte, hrest, ih]

section

variable {H : Hash} {ctx : WriteContext} {threshold ceiling : Nat}

theorem wrapped_metadataBlob : ctx.wrapped.metadataBlob H = ctx.metadataBlob H := by
  have hinode : ctx.wrapped.encodeInode H = ctx.encodeInode H := by
    funext inode
    unfold WriteContext.encodeInode
    rw [← leBytes_mod 4 ((ctx.nlinkCounts inode.number).getD 1)]
    rfl
  unfold WriteContext.metadataBlob
  rw [hinode]
  rfl

theorem PendingContent.Valid.of_inline {content : PendingContent} (h : content.Valid threshold)
    (hshort : ∀ data, content = .inline data → data.length ≤ ceiling) : content.Valid ceiling := by
  cases content with
  | inline data => exact hshort data rfl
  | symlink target => exact h
  | dropBacked fileLen slices => exact h
  | directory entries => exact h

theorem WriteContext.Laid.entriesValid (h : ctx.Laid H threshold) {node : DirNode}
    (hnode : node ∈ ctx.dirNodes) (hnames : (node.entries.map (·.name)).Nodup) :
    EntriesValid node.entries := by
  obtain ⟨-, hvalid, hsorted⟩ := h.nodes node hnode
  have hapart := List.pairwise_map.mp hnames
  exact ⟨hvalid, (hsorted.and hapart).imp fun hboth => Std.lt_of_le_of_ne hboth.1 hboth.2⟩

theorem WriteContext.Laid.coherent (h : ctx.Laid H threshold)
    (hread : ReadableParts ceiling ctx.inodes ctx.dirNodes) : ctx.wrapped.Coherent H ceiling where
  numbers := h.numbers
  inodes inode hinode :=
    { h.inodes inode hinode with
      content := (h.inodes inode hinode).content.of_inline fun data hdata =>
        hread.inline data (mem_inlineContents hinode hdata) }
  xattrs := h.xattrs
  nlink _ _ := Nat.mod_lt _ (by decide)
  nodes node hnode := ⟨(h.nodes node hnode).1, h.entriesValid hnode (hread.names node hnode)⟩

/-- What the parser has to make of the blob, where it takes it. -/
theorem WriteContext.Laid.parsed (h : ctx.Laid H threshold)
    (hcol : NoCollision H (inlineContents ctx.inodes)) {bytes : Bytes}
    (hbytes : ctx.metadataBlob H = some bytes)
    (hread : ReadableParts defaultInlineDataMaxBytes ctx.inodes ctx.dirNodes) :
    ∃ resolved, List.Forall₂ (InodeReturned (ContentReturned H) ctx.wrapped) ctx.inodes resolved ∧
      parseMetadataBlob bytes = (.ok ⟨resolved, ctx.nodesReturned⟩, []) :=
  parseMetadataBlob_apply (h.coherent hread) hcol (wrapped_metadataBlob.trans hbytes)

theorem WriteContext.Laid.entriesValid_of_parsed (h : ctx.Laid H threshold)
    (hcol : NoCollision H (inlineContents ctx.inodes)) {bytes rest : Bytes} {blob : MetadataBlob}
    (hbytes : ctx.metadataBlob H = some bytes)
    (hparse : parseMetadataBlobWithCeiling ceiling bytes = (.ok blob, rest)) :
    ∀ node ∈ ctx.dirNodes, EntriesValid node.entries := by
  have hwrapped := wrapped_metadataBlob.trans hbytes
  simp only [WriteContext.metadataBlob, Option.bind_eq_bind, Option.bind_eq_some_iff,
    Option.pure_def, Option.some.injEq, u32Bytes_eq_some] at hwrapped
  obtain ⟨_, ⟨hcount, rfl⟩, encs, hencs, _, ⟨hnodeCount, rfl⟩, shared, hshared, rfl⟩ := hwrapped
  -- under a higher ceiling the inodes are read, whatever stands behind them
  obtain ⟨gots, -, hreads⟩ := @reads_parseInodes H ctx.wrapped (max ceiling threshold) _
    (fun inode hmem => ⟨{ h.inodes inode hmem with
        content := (h.inodes inode hmem).content.mono (Nat.le_max_right _ _) },
      h.xattrs inode hmem, Nat.mod_lt _ (by decide), hcol, hmem, sharedInlineTable_length hshared,
      fun node hnode => (h.nodes node hnode).1⟩) hencs
  simp only [parseMetadataBlobWithCeiling, bind_eq_ok, readU32Le_eq_ok] at hparse
  obtain ⟨n, _, ⟨hn, hfront⟩, _, _, hdemand, inodes, mid, hinodes, m, _, ⟨hm, hmid⟩, _, _, hdemand',
    nodes, back, hnodes, -⟩ := hparse
  have hsame : ∀ {n : Nat} {u : Unit} {b c : Bytes}, demandLeft n b = (.ok u, c) → b = c := by
    intro n u b c h
    exact (Prod.mk.inj h).2
  obtain rfl := hsame hdemand
  obtain rfl := hsame hdemand'
  simp only [List.append_assoc] at hfront
  obtain ⟨-, rfl, rfl⟩ := (reads_readU32Le hcount).det (reads_readU32Le hn) hfront
  have hhigh := Lenient.loop (parseInodes_lenient (Nat.le_max_left ceiling threshold)) _ _ _ _ _ _
    hinodes
  rw [hreads] at hhigh
  cases hhigh
  obtain ⟨-, rfl, rfl⟩ := (reads_readU32Le hnodeCount).det (reads_readU32Le hm) hmid
  exact entriesValid_of_dirNodes ctx.dirNodes (fun node hnode => ⟨(h.nodes node hnode).1,
    fun e he => ((h.nodes node hnode).2.1 e he).number⟩) hnodes

/-- **The default reader takes the blob** exactly if the inline data is short enough for it and no
directory has a name twice. -/
theorem WriteContext.Laid.parsed_iff (h : ctx.Laid H threshold)
    (hcol : NoCollision H (inlineContents ctx.inodes)) {bytes : Bytes}
    (hbytes : ctx.metadataBlob H = some bytes) :
    (∃ blob rest, parseMetadataBlob bytes = (.ok blob, rest)) ↔
      ReadableParts defaultInlineDataMaxBytes ctx.inodes ctx.dirNodes := by
  constructor
  · rintro ⟨blob, rest, hparse⟩
    have hnames : ∀ node ∈ ctx.dirNodes, (node.entries.map (·.name)).Nodup := by
      intro node hnode
      have hsorted := (h.entriesValid_of_parsed hcol hbytes hparse node hnode).sorted
      exact List.pairwise_map.mpr (hsorted.imp fun hlt => Std.ne_of_lt hlt)
    have hthreshold : ReadableParts threshold ctx.inodes ctx.dirNodes := by
      refine ⟨fun d hd => ?_, hnames⟩
      obtain ⟨inode, hinode, hcontent⟩ := inode_of_inlineContents hd
      have hvalid := (h.inodes inode hinode).content
      rw [hcontent] at hvalid
      exact hvalid
    have hreturned := returned_of_parsed (h.coherent hthreshold) hcol
      (wrapped_metadataBlob.trans hbytes) hparse
    obtain ⟨-, -, hbounded, -⟩ := parseMetadataBlob_bounded hparse
    refine ⟨fun d hd => ?_, hnames⟩
    obtain ⟨inode, hinode, hcontent⟩ := inode_of_inlineContents hd
    obtain ⟨got, hgot, hback⟩ := exists_mem_of_forall₂ hreturned.flip inode hinode
    have hhandle := hback.content
    rw [hcontent] at hhandle
    cases hkept : got.contentHandle with
    | inlineData data =>
        rw [hkept] at hhandle
        obtain rfl : data = d := hhandle
        exact (hbounded got hgot).inline data hkept
    | _ =>
        rw [hkept] at hhandle
        exact hhandle.elim
  · intro hread
    obtain ⟨resolved, -, hparse⟩ := h.parsed hcol hbytes hread
    exact ⟨_, _, hparse⟩

end

/-! ### Along the walk -/

/-- A file that was met before is short enough if all that is inline is. -/
def LinksFit (lenOf : Nat × Nat → Nat) (ceiling : Nat) (s : WriterState) : Prop :=
  ∀ key number, s.hardlinkTargets key = some number → lenOf key ≤ s.inlineThreshold →
    ReadableParts ceiling s.inodes s.dirNodes → lenOf key ≤ ceiling

/-- What the walk hands on as it was given. -/
structure Carried (s s' : WriterState) : Prop where
  inlineThreshold : s'.inlineThreshold = s.inlineThreshold
  externalizeThreshold : s'.metadataExternalizeThreshold = s.metadataExternalizeThreshold
  baseRoot : s'.baseRoot = s.baseRoot

/-- From `s` to `s'` what a reader takes depends on `adds`. -/
structure ReadableStep (lenOf : Nat × Nat → Nat) (ceiling : Nat) (s s' : WriterState) (adds : Prop) :
    Prop where
  readable : ReadableParts ceiling s'.inodes s'.dirNodes ↔
    ReadableParts ceiling s.inodes s.dirNodes ∧ adds
  carried : Carried s s'
  links : LinksFit lenOf ceiling s'

section

variable {env : WriterEnv} {lenOf : Nat × Nat → Nat} {ceiling : Nat} {s s' s'' : WriterState}

theorem Carried.trans (h : Carried s s') (h' : Carried s' s'') : Carried s s'' where
  inlineThreshold := h'.inlineThreshold.trans h.inlineThreshold
  externalizeThreshold := h'.externalizeThreshold.trans h.externalizeThreshold
  baseRoot := h'.baseRoot.trans h.baseRoot

theorem ReadableStep.trans {adds more : Prop} (h : ReadableStep lenOf ceiling s s' adds)
    (h' : ReadableStep lenOf ceiling s' s'' more) :
    ReadableStep lenOf ceiling s s'' (adds ∧ more) where
  readable := by rw [h'.readable, h.readable, and_assoc]
  carried := h.carried.trans h'.carried
  links := h'.links

theorem ReadableStep.congr {adds adds' : Prop} (h : ReadableStep lenOf ceiling s s' adds)
    (hsame : adds ↔ adds') : ReadableStep lenOf ceiling s s' adds' := { h with
  readable := by rw [h.readable, hsame] }

/-- A step that meets no file. -/
theorem ReadableStep.of_links {adds : Prop} (h : LinksFit lenOf ceiling s)
    (hreadable : ReadableParts ceiling s'.inodes s'.dirNodes ↔
      ReadableParts ceiling s.inodes s.dirNodes ∧ adds)
    (hcarried : Carried s s') (htargets : s'.hardlinkTargets = s.hardlinkTargets) :
    ReadableStep lenOf ceiling s s' adds where
  readable := hreadable
  carried := hcarried
  links key number hkey hshort hread := by
    rw [htargets] at hkey
    rw [hcarried.inlineThreshold] at hshort
    exact h key number hkey hshort (hreadable.mp hread).1

theorem noteXattrs_fields (s : WriterState) (number : Nat) (info : SurveyMeta) :
    ∃ m, noteXattrs s number info = { s with inodeXattrs := m } := by
  unfold noteXattrs
  by_cases hnone : info.xattrs = []
  · exact ⟨s.inodeXattrs, if_pos hnone⟩
  · exact ⟨_, if_neg hnone⟩

/-- A file is kept inline, put off, or there already. -/
theorem foldFile_readable {path : Path} {info : SurveyMeta} {number : Nat}
    (hlen : ∀ data, env.readFile path = .ok data → data.length = info.len)
    (hlinked : info.len = lenOf (info.dev, info.ino)) (h : LinksFit lenOf ceiling s)
    (hfold : foldFile env path info s = .ok (number, s')) :
    ReadableStep lenOf ceiling s s' (info.len ≤ s.inlineThreshold → info.len ≤ ceiling) := by
  unfold foldFile at hfold
  cases htarget : s.hardlinkTargets (info.dev, info.ino) with
  | some existing =>
      rw [htarget] at hfold
      cases hfold
      refine .of_links h ⟨fun hread => ⟨hread, fun hshort => ?_⟩, And.left⟩ ⟨rfl, rfl, rfl⟩ rfl
      rw [hlinked] at hshort ⊢
      exact h _ _ htarget hshort hread
  | none =>
      rw [htarget] at hfold
      simp only at hfold
      -- the file is a target from now on
      have hlinks : ∀ last : WriterState,
          last.hardlinkTargets = setEntry s.hardlinkTargets (info.dev, info.ino) s.nextInode →
          Carried s last →
          (ReadableParts ceiling last.inodes last.dirNodes ↔
            ReadableParts ceiling s.inodes s.dirNodes ∧
              (info.len ≤ s.inlineThreshold → info.len ≤ ceiling)) →
          ReadableStep lenOf ceiling s last (info.len ≤ s.inlineThreshold → info.len ≤ ceiling) := by
        intro last htargets hcarried hreadable
        refine ⟨hreadable, hcarried, fun key n hkey hshort hread => ?_⟩
        rw [htargets] at hkey
        rw [hcarried.inlineThreshold] at hshort
        unfold setEntry at hkey
        split at hkey
        · next hsame =>
            rw [hsame, ← hlinked] at hshort ⊢
            exact (hreadable.mp hread).2 hshort
        · exact h key n hkey hshort (hreadable.mp hread).1
      obtain ⟨m, hm⟩ := noteXattrs_fields { s with
        fileCount := s.fileCount + 1
        nextInode := s.nextInode + 1
        hardlinkTargets := setEntry s.hardlinkTargets (info.dev, info.ino) s.nextInode }
        s.nextInode info
      rw [hm] at hfold
      by_cases hshort : info.len ≤ s.inlineThreshold
      · rw [if_pos hshort] at hfold
        cases hread : env.readFile path with
        | error e =>
            rw [hread] at hfold
            cases hfold
        | ok data =>
            rw [hread] at hfold
            cases hfold
            refine hlinks _ rfl ⟨rfl, rfl, rfl⟩ ((readable_inline (by rfl)).trans ?_)
            rw [hlen data hread]
            exact and_congr_right fun _ => ⟨fun hfits _ => hfits, fun hfits => hfits hshort⟩
      · rw [if_neg hshort] at hfold
        cases hfold
        refine hlinks _ rfl ⟨rfl, rfl, rfl⟩ ?_
        exact (and_iff_left fun hshort' => absurd hshort' hshort).symm

/-- A directory is closed over the names of its children. -/
theorem closeDirectory_readable {number n : Nat} {info : SurveyMeta} {entries : List DirEntry}
    (h : LinksFit lenOf ceiling s) (hclose : closeDirectory env number info entries s = .ok (n, s')) :
    ReadableStep lenOf ceiling s s' (entries.map (·.name)).Nodup := by
  have hperm : (sortEntries entries).Perm entries := List.perm_insertionSort _ _
  unfold closeDirectory at hclose
  simp only at hclose
  cases hnode : encodeDirNode env.H (sortEntries entries) with
  | none =>
      rw [hnode] at hclose
      cases hclose
  | some node =>
      rw [hnode] at hclose
      simp only at hclose
      obtain ⟨m, hm⟩ := noteXattrs_fields { s with dirNodes := s.dirNodes ++ [node] } number info
      rw [hm] at hclose
      cases hclose
      refine .of_links h ?_ ⟨rfl, rfl, rfl⟩ rfl
      refine (readable_inode fun data hdata => by cases hdata).trans (readable_node.trans ?_)
      rw [(encodeDirNode_some hnode).1, (hperm.map _).nodup_iff]

mutual

/-- **What a reader takes after the walk** depends on the lengths and the names of the tree. -/
theorem foldSurvey_readable : ∀ (node : SurveyNode) (path : Path) {s s' : WriterState}
    {number : Nat}, node.Proper → LengthsAgree env (node.files path) →
    (∀ f ∈ node.files path, f.2.len = lenOf (f.2.dev, f.2.ino)) → LinksFit lenOf ceiling s →
    foldSurvey env path node.symlinkTarget node s = .ok (number, s') →
    ReadableStep lenOf ceiling s s'
      (InlineFits s.inlineThreshold ceiling (node.files path) ∧ node.NamesApart)
  | .node info children target, path, s, s', number, hproper, hlens, hlinked, h, hfold => by
      obtain ⟨-, hchildren, hleaf, htarget⟩ := hproper
      have hnone : info.kind ≠ .directory → children = .nil := fun hdir => hleaf.resolve_left hdir
      unfold SurveyNode.files at hlens hlinked ⊢
      unfold SurveyNode.NamesApart
      unfold foldSurvey at hfold
      cases target with
      | some target =>
          obtain ⟨hkind, -⟩ := htarget target rfl
          obtain rfl := hnone (by rw [hkind]; decide)
          cases hfold
          rw [if_neg (by rw [hkind]; decide)]
          refine .of_links h ?_ ⟨by rfl, by rfl, by rfl⟩ (by rfl)
          refine (readable_inode fun data hdata => by cases hdata).trans (and_iff_left ?_).symm
          exact ⟨fun f hf => absurd hf List.not_mem_nil, List.nodup_nil, trivial⟩
      | none =>
          simp only [SurveyNode.symlinkTarget] at hfold
          cases hkind : info.kind with
          | directory =>
              rw [hkind] at hfold
              simp only at hfold
              split at hfold
              · cases hfold
              · next entries mid hwalk =>
                  obtain ⟨hmid, hnames⟩ := foldChildren_readable children path hchildren
                    (hlens.mono (List.subset_append_right _ _))
                    (fun f hf => hlinked f (List.mem_append_right _ hf)) (s := { s with
                      dirCount := s.dirCount + 1
                      nextInode := s.nextInode + 1 }) h hwalk
                  have hclosed := closeDirectory_readable hmid.links hfold
                  rw [if_neg (by decide), List.nil_append, ← hnames]
                  -- the walk of the children began with the number of the directory taken
                  have hall := (hmid.trans hclosed).congr (and_right_comm.trans and_assoc)
                  exact ⟨hall.readable, ⟨hall.carried.inlineThreshold,
                    hall.carried.externalizeThreshold, hall.carried.baseRoot⟩, hall.links⟩
          | file =>
              obtain rfl := hnone (by rw [hkind]; decide)
              rw [hkind] at hfold
              rw [if_pos rfl]
              rw [if_pos hkind] at hlens hlinked
              have hmem : (path, info) ∈ [(path, info)] ++ SurveyChildren.nil.files path :=
                List.mem_append_left _ List.mem_cons_self
              refine (foldFile_readable (fun data hdata => hlens _ hmem data hdata)
                (hlinked _ hmem) h hfold).congr ⟨fun hfits => ?_, fun hfits => hfits.1 _ hmem⟩
              refine ⟨fun f hf => ?_, List.nodup_nil, trivial⟩
              obtain rfl := List.mem_singleton.mp hf
              exact hfits
          | _ =>
              rw [hkind] at hfold
              cases hfold

theorem foldChildren_readable : ∀ (children : SurveyChildren) (path : Path) {s s' : WriterState}
    {entries : List DirEntry}, children.Proper → LengthsAgree env (children.files path) →
    (∀ f ∈ children.files path, f.2.len = lenOf (f.2.dev, f.2.ino)) → LinksFit lenOf ceiling s →
    foldChildren env path children s = .ok (entries, s') →
    ReadableStep lenOf ceiling s s'
        (InlineFits s.inlineThreshold ceiling (children.files path) ∧ children.NamesApart) ∧
      entries.map (·.name) = children.names
  | .nil, path, s, s', entries, _, _, _, h, hfold => by
      unfold foldChildren at hfold
      cases hfold
      refine ⟨.of_links h (and_iff_left ⟨fun f hf => absurd hf List.not_mem_nil, trivial⟩).symm
        ⟨rfl, rfl, rfl⟩ rfl, rfl⟩
  | .cons name child rest, path, s, s', entries, hproper, hlens, hlinked, h, hfold => by
      obtain ⟨-, hchild, hrest⟩ := hproper
      unfold SurveyChildren.files at hlens hlinked ⊢
      unfold SurveyChildren.NamesApart
      unfold foldChildren at hfold
      split at hfold
      · cases hfold
      · next number mid hfirst =>
          split at hfold
          · cases hfold
          · next tail last hlater =>
              cases hfold
              have hstep := foldSurvey_readable child _ hchild
                (hlens.mono (List.subset_append_left _ _))
                (fun f hf => hlinked f (List.mem_append_left _ hf)) h hfirst
              obtain ⟨hmore, hnames⟩ := foldChildren_readable rest path hrest
                (hlens.mono (List.subset_append_right _ _))
                (fun f hf => hlinked f (List.mem_append_right _ hf)) hstep.links hlater
              rw [hstep.carried.inlineThreshold] at hmore
              refine ⟨(hstep.trans hmore).congr ?_, congrArg (name :: ·) hnames⟩
              unfold InlineFits
              rw [List.forall_mem_append]
              tauto

end

end

end LimniFS
