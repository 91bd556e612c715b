/-
What stands for a node of the tree.

`Stands` says of a number what the writer must have under it for a node: the inode with the node's
fields and attributes, with the target of a link, with the bytes of a file or the promise to store them,
or with an entry for every child, whose number stands for the child.

A step of the walk only adds (`Later`), so what stood for a node still does, and the walk leaves something
for each node it comes to (`foldSurvey_stands`).  A file that was met before is given the number of its
first name; that this number stands for it too is where the names of one file have to agree
(`OneFile`).
-/
import LimniFS.WalkedTree

namespace LimniFS

open Lib

/-! ### Paths of a tree -/

/-- The first child of the name. -/
def SurveyChildren.child : SurveyChildren → Bytes → Option SurveyNode
  | .nil, _ => none
  | .cons first node rest, name => if first = name then some node else rest.child name

def SurveyNode.children : SurveyNode → SurveyChildren
  | .node _ children _ => children

/-- The node that the names lead to. -/
def SurveyNode.nodeAt : SurveyNode → Path → Option SurveyNode
  | top, [] => some top
  | .node _ children _, name :: rest => (children.child name).bind fun child => child.nodeAt rest

/-- The names of the children and the types that entries for them have. -/
def SurveyChildren.listing : SurveyChildren → List (Bytes × UInt8)
  | .nil => []
  | .cons name child rest => (name, entryTypeOf child.info.kind) :: rest.listing

/-- Names of one file agree on what `stat` says of it and on what is read. -/
def OneFile (env : WriterEnv) (files : List (Path × SurveyMeta)) : Prop :=
  ∀ f ∈ files, ∀ g ∈ files, (f.2.dev, f.2.ino) = (g.2.dev, g.2.ino) →
    f.2 = g.2 ∧ env.readFile f.1 = env.readFile g.1

/-! ### What stands for a node -/

/-- The attributes of a node as they are kept. -/
def SurveyMeta.kept (info : SurveyMeta) : List XAttr := info.xattrs.map fun x => ⟨0, x.1, x.2⟩

/-- The attributes that were noted under a number. -/
def WriterState.noted (s : WriterState) (number : Nat) : List XAttr := (s.inodeXattrs number).getD []

/-- The file is kept inline under the number, or is put off under one of its names. -/
structure FileStands (env : WriterEnv) (s : WriterState) (path : Path) (info : SurveyMeta)
    (number : Nat) : Prop where
  target : s.hardlinkTargets (info.dev, info.ino) = some number
  xattrs : s.noted number = info.kept
  content : (∃ data, env.readFile path = .ok data ∧ inodeOf number info (.inline data) ∈ s.inodes) ∨
    ∃ first, env.readFile first = env.readFile path ∧
      ⟨number, first, info.mtimeNs, info.len, info.mode, info.uid, info.gid⟩ ∈ s.pendingFiles

mutual

/-- The number stands for the node, with all that is below it. -/
inductive Stands (env : WriterEnv) (s : WriterState) : Path → SurveyNode → Nat → Prop
  | symlink {path : Path} {info : SurveyMeta} {children : SurveyChildren} {target : Bytes}
      {number : Nat} (inode : inodeOf number info (.symlink target) ∈ s.inodes)
      (xattrs : s.noted number = []) : Stands env s path (.node info children (some target)) number
  | directory {path : Path} {info : SurveyMeta} {children : SurveyChildren} {number : Nat}
      {entries : List DirEntry} (kind : info.kind = .directory)
      (inode : inodeOf number info (.directory (sortEntries entries)) ∈ s.inodes)
      (xattrs : s.noted number = info.kept) (below : AllStand env s path children entries) :
      Stands env s path (.node info children none) number
  | file {path : Path} {info : SurveyMeta} {children : SurveyChildren} {number : Nat}
      (kind : info.kind = .file) (file : FileStands env s path info number) :
      Stands env s path (.node info children none) number

/-- There is an entry for each child, in order. -/
inductive AllStand (env : WriterEnv) (s : WriterState) :
    Path → SurveyChildren → List DirEntry → Prop
  | nil {path : Path} : AllStand env s path .nil []
  | cons {path : Path} {name : Bytes} {child : SurveyNode} {rest : SurveyChildren} {number : Nat}
      {entries : List DirEntry} (first : Stands env s (path ++ [name]) child number)
      (later : AllStand env s path rest entries) :
      AllStand env s path (.cons name child rest)
        (⟨name, number, entryTypeOf child.info.kind⟩ :: entries)

end

/-! ### Steps only add -/

/-- What `s` has is in `s'` too. -/
structure Later (s s' : WriterState) : Prop where
  inodes : s.inodes ⊆ s'.inodes
  pending : s.pendingFiles ⊆ s'.pendingFiles
  xattrs : ∀ number ∈ s.numbers, s'.inodeXattrs number = s.inodeXattrs number
  targets : ∀ key number, s.hardlinkTargets key = some number → s'.hardlinkTargets key = some number

section

variable {env : WriterEnv} {s s' s'' : WriterState} {number : Nat}

theorem mem_numbers_of_inode {inode : PendingInode} (h : inode ∈ s.inodes) :
    inode.number ∈ s.numbers :=
  List.mem_append_left _ (List.mem_map_of_mem h)

theorem mem_numbers_of_pending {pf : PendingFile} (h : pf ∈ s.pendingFiles) :
    pf.inodeNumber ∈ s.numbers :=
  List.mem_append_right _ (List.mem_map_of_mem h)

theorem Later.numbers (h : Later s s') : s.numbers ⊆ s'.numbers := by
  intro n hn
  rcases List.mem_append.mp hn with hinode | hpending
  · obtain ⟨inode, hmem, rfl⟩ := List.mem_map.mp hinode
    exact mem_numbers_of_inode (h.inodes hmem)
  · obtain ⟨pf, hmem, rfl⟩ := List.mem_map.mp hpending
    exact mem_numbers_of_pending (h.pending hmem)

theorem Later.refl (s : WriterState) : Later s s :=
  ⟨fun _ h => h, fun _ h => h, fun _ _ => rfl, fun _ _ h => h⟩

theorem Later.trans (h : Later s s') (h' : Later s' s'') : Later s s'' where
  inodes := fun _ hmem => h'.inodes (h.inodes hmem)
  pending := fun _ hmem => h'.pending (h.pending hmem)
  xattrs := fun n hn => (h'.xattrs n (h.numbers hn)).trans (h.xattrs n hn)
  targets := fun key n hkey => h'.targets key n (h.targets key n hkey)

theorem Later.noted (h : Later s s') (hmem : number ∈ s.numbers) :
    s'.noted number = s.noted number :=
  congrArg (·.getD []) (h.xattrs number hmem)

theorem FileStands.number_mem {path : Path} {info : SurveyMeta}
    (h : FileStands env s path info number) : number ∈ s.numbers := by
  rcases h.content with ⟨data, -, hinode⟩ | ⟨first, -, hpending⟩
  · exact mem_numbers_of_inode hinode
  · exact mem_numbers_of_pending hpending

theorem FileStands.later {path : Path} {info : SurveyMeta} (h : FileStands env s path info number)
    (hlater : Later s s') : FileStands env s' path info number where
  target := hlater.targets _ _ h.target
  xattrs := (hlater.noted h.number_mem).trans h.xattrs
  content := by
    rcases h.content with ⟨data, hread, hinode⟩ | ⟨first, hread, hpending⟩
    · exact Or.inl ⟨data, hread, hlater.inodes hinode⟩
    · exact Or.inr ⟨first, hread, hlater.pending hpending⟩

theorem FileStands.renamed {path path' : Path} {info : SurveyMeta}
    (h : FileStands env s path info number) (hsame : env.readFile path = env.readFile path') :
    FileStands env s path' info number where
  target := h.target
  xattrs := h.xattrs
  content := by
    rw [← hsame]
    exact h.content

mutual

/-- **What stands for a node still does after a step.** -/
theorem Stands.later (hlater : Later s s') : ∀ (node : SurveyNode) {path : Path} {number : Nat},
    Stands env s path node number → Stands env s' path node number
  | .node info children target, path, number, h => by
      cases h with
      | symlink inode xattrs =>
          exact .symlink (hlater.inodes inode)
            ((hlater.noted (mem_numbers_of_inode inode)).trans xattrs)
      | directory kind inode xattrs below =>
          exact .directory kind (hlater.inodes inode)
            ((hlater.noted (mem_numbers_of_inode inode)).trans xattrs)
            (AllStand.later hlater children below)
      | file kind file => exact .file kind (file.later hlater)

theorem AllStand.later (hlater : Later s s') : ∀ (children : SurveyChildren) {path : Path}
    {entries : List DirEntry}, AllStand env s path children entries →
    AllStand env s' path children entries
  | .nil, path, entries, h => by
      cases h
      exact .nil
  | .cons name child rest, path, entries, h => by
      cases h with
      | cons first later =>
          exact .cons (Stands.later hlater child first) (AllStand.later hlater rest later)

end

end

/-! ### One file, one directory -/

/-- Every file that was met stands for itself, under a number of its own; and only numbers that stand for
something have attributes. -/
structure Met (env : WriterEnv) (files : List (Path × SurveyMeta)) (s : WriterState) : Prop where
  stands : ∀ key number, s.hardlinkTargets key = some number →
    ∃ f ∈ files, key = (f.2.dev, f.2.ino) ∧ FileStands env s f.1 f.2 number
  apart : ∀ key key' number, s.hardlinkTargets key = some number →
    s.hardlinkTargets key' = some number → key = key'
  xattrs : ∀ number, s.inodeXattrs number ≠ none → number ∈ s.numbers

section

variable {env : WriterEnv} {files : List (Path × SurveyMeta)} {s s' : WriterState} {number : Nat}
  {opened loose : List Nat}

theorem noteXattrs_kept (info : SurveyMeta) (hnone : s.inodeXattrs number = none) :
    ∃ m, noteXattrs s number info = { s with inodeXattrs := m } ∧ (m number).getD [] = info.kept ∧
      ∀ other, other ≠ number → m other = s.inodeXattrs other := by
  unfold noteXattrs
  by_cases hnil : info.xattrs = []
  · refine ⟨s.inodeXattrs, if_pos hnil, ?_, fun _ _ => rfl⟩
    rw [hnone, SurveyMeta.kept, hnil]
    rfl
  · refine ⟨_, if_neg hnil, ?_, fun other hne => if_neg hne⟩
    rw [setEntry, if_pos rfl]
    rfl

theorem Met.xattrs_mem (h : Met env files s) (hlater : Later s s') (hmem : number ∈ s'.numbers)
    (hothers : ∀ other, other ≠ number → s'.inodeXattrs other = s.inodeXattrs other) :
    ∀ other, s'.inodeXattrs other ≠ none → other ∈ s'.numbers := by
  intro other hsome
  by_cases hsame : other = number
  · rw [hsame]
    exact hmem
  · rw [hothers other hsame] at hsome
    exact hlater.numbers (h.xattrs other hsome)

/-- What is no file is not met. -/
theorem Met.same (h : Met env files s) (hlater : Later s s') (hmem : number ∈ s'.numbers)
    (hothers : ∀ other, other ≠ number → s'.inodeXattrs other = s.inodeXattrs other)
    (htargets : s'.hardlinkTargets = s.hardlinkTargets) : Met env files s' where
  stands := by
    rw [htargets]
    intro key n hkey
    obtain ⟨f, hf, heq, hstands⟩ := h.stands key n hkey
    exact ⟨f, hf, heq, hstands.later hlater⟩
  apart := by
    rw [htargets]
    exact h.apart
  xattrs := h.xattrs_mem hlater hmem hothers

/-- A file that is met for the first time. -/
theorem Met.named {path : Path} {info : SurveyMeta} (h : Met env files s) (hlater : Later s s')
    (hothers : ∀ other, other ≠ number → s'.inodeXattrs other = s.inodeXattrs other)
    (htargets : s'.hardlinkTargets = setEntry s.hardlinkTargets (info.dev, info.ino) number)
    (hfile : (path, info) ∈ files) (hstands : FileStands env s' path info number)
    (hfresh : number ∉ s.numbers) : Met env files s' := by
  have hold : ∀ key, s.hardlinkTargets key ≠ some number := by
    intro key hkey
    obtain ⟨f, -, -, hf⟩ := h.stands key number hkey
    exact hfresh hf.number_mem
  have hcases : ∀ key n, s'.hardlinkTargets key = some n →
      key = (info.dev, info.ino) ∧ n = number ∨ s.hardlinkTargets key = some n := by
    intro key n hkey
    rw [htargets, setEntry] at hkey
    split at hkey
    · next heq => exact Or.inl ⟨heq, (Option.some.inj hkey).symm⟩
    · exact Or.inr hkey
  refine ⟨fun key n hkey => ?_, fun key key' n hkey hkey' => ?_,
    h.xattrs_mem hlater hstands.number_mem hothers⟩
  · rcases hcases key n hkey with ⟨rfl, rfl⟩ | hkept
    · exact ⟨(path, info), hfile, rfl, hstands⟩
    · obtain ⟨f, hf, heq, hf'⟩ := h.stands key n hkept
      exact ⟨f, hf, heq, hf'.later hlater⟩
  · rcases hcases key n hkey with ⟨rfl, rfl⟩ | hkept
    · rcases hcases key' n hkey' with ⟨rfl, -⟩ | hkept'
      · rfl
      · exact absurd hkept' (hold key')
    · rcases hcases key' n hkey' with ⟨-, rfl⟩ | hkept'
      · exact absurd hkept (hold key)
      · exact h.apart key key' n hkept hkept'

theorem Walking.fresh {H : Hash} (h : Walking H opened loose s) : s.nextInode ∉ s.numbers := fun hmem =>
  Nat.lt_irrefl _ (h.bounded (List.mem_append_left opened hmem)).2

/-- What a step of the walk leaves. -/
structure NodeStands (env : WriterEnv) (files : List (Path × SurveyMeta)) (s s' : WriterState) : Prop where
  later : Later s s'
  met : Met env files s'

/-- **A file stands for itself**, also where it was met under another name. -/
theorem foldFile_stands {path : Path} {info : SurveyMeta} (hone : OneFile env files)
    (hfile : (path, info) ∈ files) (hwalking : Walking env.H opened loose s) (h : Met env files s)
    (hfold : foldFile env path info s = .ok (number, s')) :
    NodeStands env files s s' ∧ FileStands env s' path info number := by
  unfold foldFile at hfold
  cases htarget : s.hardlinkTargets (info.dev, info.ino) with
  | some existing =>
      rw [htarget] at hfold
      cases hfold
      have hlater : Later s { s with
          nlinkCounts := setEntry s.nlinkCounts number ((s.nlinkCounts number).getD 1 + 1) } :=
        ⟨fun _ h => h, fun _ h => h, fun _ _ => rfl, fun _ _ h => h⟩
      obtain ⟨f, hf, hkey, hstands⟩ := h.stands _ number htarget
      obtain ⟨hinfo, hread⟩ := hone (path, info) hfile f hf hkey
      obtain rfl : info = f.2 := hinfo
      have hstands := (hstands.renamed hread.symm).later hlater
      exact ⟨⟨hlater, h.same hlater hstands.number_mem (fun _ _ => rfl) rfl⟩, hstands⟩
  | none =>
      rw [htarget] at hfold
      simp only at hfold
      have hfresh := hwalking.fresh
      have hnone : s.inodeXattrs s.nextInode = none := by
        by_contra hsome
        exact hfresh (h.xattrs _ hsome)
      have hnew : ∀ key n, s.hardlinkTargets key = some n →
          setEntry s.hardlinkTargets (info.dev, info.ino) s.nextInode key = some n := by
        intro key n hkey
        rw [setEntry, if_neg, hkey]
        rintro rfl
        rw [htarget] at hkey
        cases hkey
      obtain ⟨m, hm, hkept, hothers⟩ := @noteXattrs_kept { s with
        fileCount := s.fileCount + 1
        nextInode := s.nextInode + 1
        hardlinkTargets := setEntry s.hardlinkTargets (info.dev, info.ino) s.nextInode }
        s.nextInode info hnone
      rw [hm] at hfold
      have hold : ∀ n ∈ s.numbers, m n = s.inodeXattrs n := fun n hn =>
        hothers n fun heq => hfresh (heq ▸ hn)
      have hstep : ∀ s' : WriterState, s.inodes ⊆ s'.inodes → s.pendingFiles ⊆ s'.pendingFiles →
          s'.inodeXattrs = m →
          s'.hardlinkTargets = setEntry s.hardlinkTargets (info.dev, info.ino) s.nextInode →
          ((∃ data, env.readFile path = .ok data ∧
              inodeOf s.nextInode info (.inline data) ∈ s'.inodes) ∨
            ∃ first, env.readFile first = env.readFile path ∧
              ⟨s.nextInode, first, info.mtimeNs, info.len, info.mode, info.uid, info.gid⟩
                ∈ s'.pendingFiles) →
          NodeStands env files s s' ∧ FileStands env s' path info s.nextInode := by
        intro s' hinodes hpending hxattrs htargets hcontent
        have hlater : Later s s' := by
          refine ⟨hinodes, hpending, ?_, ?_⟩
          · rw [hxattrs]
            exact hold
          · rw [htargets]
            exact hnew
        have hstands : FileStands env s' path info s.nextInode := by
          refine ⟨?_, ?_, hcontent⟩
          · rw [htargets, setEntry, if_pos rfl]
          · rw [WriterState.noted, hxattrs]
            exact hkept
        refine ⟨⟨hlater, h.named hlater ?_ htargets hfile hstands hfresh⟩, hstands⟩
        rw [hxattrs]
        exact hothers
      by_cases hshort : info.len ≤ s.inlineThreshold
      · rw [if_pos hshort] at hfold
        cases hread : env.readFile path with
        | error e =>
            rw [hread] at hfold
            cases hfold
        | ok data =>
            rw [hread] at hfold
            cases hfold
            exact hstep _ (List.subset_append_left _ _) (fun _ h => h) rfl rfl
              (Or.inl ⟨data, hread, List.mem_append_right _ List.mem_cons_self⟩)
      · rw [if_neg hshort] at hfold
        cases hfold
        exact hstep _ (fun _ h => h) (List.subset_append_left _ _) rfl rfl
          (Or.inr ⟨path, rfl, List.mem_append_right _ List.mem_cons_self⟩)

/-- **A directory stands for itself** once something stands for each of its children. -/
theorem closeDirectory_stands {path : Path} {info : SurveyMeta} {children : SurveyChildren} {n : Nat}
    {entries : List DirEntry} (hkind : info.kind = .directory)
    (hwalking : Walking env.H (number :: opened) loose s) (h : Met env files s)
    (hbelow : AllStand env s path children entries)
    (hclose : closeDirectory env number info entries s = .ok (n, s')) :
    NodeStands env files s s' ∧ Stands env s' path (.node info children none) n := by
  have hfresh : number ∉ s.numbers := fun hmem =>
    (List.nodup_append.mp hwalking.nodup).2.2 number hmem number List.mem_cons_self rfl
  unfold closeDirectory at hclose
  simp only at hclose
  cases hnode : encodeDirNode env.H (sortEntries entries) with
  | none =>
      rw [hnode] at hclose
      cases hclose
  | some node =>
      rw [hnode] at hclose
      simp only at hclose
      obtain ⟨m, hm, hkept, hothers⟩ := @noteXattrs_kept
        { s with dirNodes := s.dirNodes ++ [node] } number info (by
          by_contra hsome
          exact hfresh (h.xattrs _ hsome))
      rw [hm] at hclose
      cases hclose
      have hmem : inodeOf number info (.directory (sortEntries entries)) ∈ s.inodes
          ++ [inodeOf number info (.directory (sortEntries entries))] :=
        List.mem_append_right _ List.mem_cons_self
      have hlater : Later s (addInode { s with
          dirNodes := s.dirNodes ++ [node]
          inodeXattrs := m } (inodeOf number info (.directory (sortEntries entries)))) :=
        ⟨List.subset_append_left _ _, fun _ h => h, fun n hn => hothers n fun heq => hfresh (heq ▸ hn),
          fun _ _ h => h⟩
      exact ⟨⟨hlater, h.same hlater (mem_numbers_of_inode hmem) hothers rfl⟩,
        .directory hkind hmem hkept (AllStand.later hlater children hbelow)⟩

end

/-! ### The walk -/

section

variable {env : WriterEnv} {files : List (Path × SurveyMeta)} {s : WriterState}

theorem Met.counted (h : Met env files s) (dirCount nextInode : Nat) :
    Met env files { s with dirCount := dirCount, nextInode := nextInode } where
  stands key n hkey := by
    obtain ⟨f, hf, heq, hstands⟩ := h.stands key n hkey
    exact ⟨f, hf, heq, { hstands with }⟩
  apart := h.apart
  xattrs := h.xattrs

mutual

/-- **The walk leaves something for each node**, and takes nothing away. -/
theorem foldSurvey_stands (hone : OneFile env files) : ∀ (node : SurveyNode) (path : Path)
    {opened loose : List Nat} {s s' : WriterState} {number : Nat}, node.Proper →
    LengthsAgree env (node.files path) → node.files path ⊆ files → Walking env.H opened loose s →
    Met env files s → foldSurvey env path node.symlinkTarget node s = .ok (number, s') →
    NodeStands env files s s' ∧ Stands env s' path node number
  | .node info children target, path, opened, loose, s, s', number, hproper, hlens, hsub, hwalking, h,
      hfold => by
      obtain ⟨hinfo, hchildren, -, htarget⟩ := hproper
      unfold SurveyNode.files at hlens hsub
      unfold foldSurvey at hfold
      cases target with
      | some target =>
          cases hfold
          have hfresh := hwalking.fresh
          have hmem : inodeOf s.nextInode info (.symlink target) ∈ s.inodes
              ++ [inodeOf s.nextInode info (.symlink target)] :=
            List.mem_append_right _ List.mem_cons_self
          have hlater : Later s (addInode { s with nextInode := s.nextInode + 1 }
              (inodeOf s.nextInode info (.symlink target))) :=
            ⟨List.subset_append_left _ _, fun _ h => h, fun _ _ => rfl, fun _ _ h => h⟩
          have hnone : s.inodeXattrs s.nextInode = none := by
            by_contra hsome
            exact hfresh (h.xattrs _ hsome)
          refine ⟨⟨hlater, h.same hlater (mem_numbers_of_inode hmem) (fun _ _ => rfl) rfl⟩,
            .symlink hmem ?_⟩
          show (s.inodeXattrs s.nextInode).getD [] = []
          rw [hnone]
          rfl
      | none =>
          simp only [SurveyNode.symlinkTarget] at hfold
          cases hkind : info.kind with
          | directory =>
              rw [hkind] at hfold
              simp only at hfold
              split at hfold
              · cases hfold
              · next entries mid hwalk =>
                  have hlens := hlens.mono (List.subset_append_right _ _)
                  have hopen := hwalking.open (s.dirCount + 1)
                  have hmet := h.counted (s.dirCount + 1) (s.nextInode + 1)
                  obtain ⟨hmid, -, -⟩ := foldChildren_walking children path hchildren hlens hopen hwalk
                  obtain ⟨hstep, hbelow⟩ := foldChildren_stands hone children path hchildren hlens
                    (fun _ hf => hsub (List.mem_append_right _ hf)) hopen hmet hwalk
                  obtain ⟨hlast, hstands⟩ := closeDirectory_stands hkind hmid hstep.met hbelow hfold
                  refine ⟨⟨Later.trans ?_ hlast.later, hlast.met⟩, hstands⟩
                  exact ⟨hstep.later.inodes, hstep.later.pending, hstep.later.xattrs,
                    hstep.later.targets⟩
          | file =>
              rw [hkind] at hfold
              obtain ⟨hstep, hstands⟩ := foldFile_stands hone (hsub (by
                rw [if_pos hkind]
                exact List.mem_append_left _ List.mem_cons_self)) hwalking h hfold
              exact ⟨hstep, .file hkind hstands⟩
          | _ =>
              rw [hkind] at hfold
              cases hfold

theorem foldChildren_stands (hone : OneFile env files) : ∀ (children : SurveyChildren) (path : Path)
    {opened loose : List Nat} {s s' : WriterState} {entries : List DirEntry}, children.Proper →
    LengthsAgree env (children.files path) → children.files path ⊆ files →
    Walking env.H opened loose s → Met env files s →
    foldChildren env path children s = .ok (entries, s') →
    NodeStands env files s s' ∧ AllStand env s' path children entries
  | .nil, path, opened, loose, s, s', entries, _, _, _, _, h, hfold => by
      unfold foldChildren at hfold
      cases hfold
      exact ⟨⟨Later.refl s, h⟩, .nil⟩
  | .cons name child rest, path, opened, loose, s, s', entries, hproper, hlens, hsub, hwalking, h,
      hfold => by
      obtain ⟨-, hchild, hrest⟩ := hproper
      unfold SurveyChildren.files at hlens hsub
      unfold foldChildren at hfold
      split at hfold
      · cases hfold
      · next number mid hfirst =>
          split at hfold
          · cases hfold
          · next tail last hlater =>
              cases hfold
              have hlensFirst := hlens.mono (List.subset_append_left _ _)
              obtain ⟨hnode, -⟩ := foldSurvey_walking child _ hchild hlensFirst hwalking hfirst
              obtain ⟨hstep, hstands⟩ := foldSurvey_stands hone child _ hchild hlensFirst
                (fun _ hf => hsub (List.mem_append_left _ hf)) hwalking h hfirst
              obtain ⟨hmore, hall⟩ := foldChildren_stands hone rest path hrest
                (hlens.mono (List.subset_append_right _ _))
                (fun _ hf => hsub (List.mem_append_right _ hf)) hnode.walking hstep.met hlater
              exact ⟨⟨hstep.later.trans hmore.later, hmore.met⟩,
                .cons (hstands.later hmore.later) hall⟩

end

end

end LimniFS
