/-
What the walk makes of a tree.

A number is handed out once: the numbers of the inodes, of the files that were put off and of the
directories that are still open are together those from 1 on (`Walking.numbers`).  An entry names a
number that already stands for something, so a directory is not named by what is below it; and every
directory but the last is named by the one it was found in.

All of that is kept by each step of the walk, and so by the walk over any tree that a file system can
hold (`foldSurvey_walking`).
-/
import LimniFS.MetadataEncoding

namespace LimniFS

open Lib

/-! ### Trees of a file system -/

/-- The type bits of a kind. -/
def FileKind.typeBits : FileKind → Nat
  | .directory => sIfdir
  | .file => sIfreg
  | .symlink => sIflnk
  | .fifo => sIfifo
  | .socket => sIfsock
  | .blockDevice => sIfblk
  | .charDevice => sIfchr
  | .unknown => 0

/-- What `stat` can say: fields of their widths, the type in the mode, and attributes named by text. -/
structure SurveyMeta.Proper (info : SurveyMeta) : Prop where
  mode : info.mode < u32Limit
  uid : info.uid < u32Limit
  gid : info.gid < u32Limit
  mtimeNs : info.mtimeNs < 2 ^ 64
  fileType : info.mode &&& sIfmt = info.kind.typeBits
  xattrs : ∀ x ∈ info.xattrs, utf8Valid x.1 = true ∧ 0 ∉ x.1

/-- What a directory can call an entry, made text. -/
structure ProperName (name : Bytes) : Prop where
  nonempty : name ≠ []
  noSlash : slash ∉ name
  noNul : 0 ∉ name
  utf8 : utf8Valid name = true

mutual

/-- Links have targets that are text, and only directories have children. -/
def SurveyNode.Proper : SurveyNode → Prop
  | .node info children target =>
    info.Proper ∧ children.Proper ∧ (info.kind = .directory ∨ children = .nil) ∧
      ∀ t ∈ target, info.kind = .symlink ∧ utf8Valid t = true

def SurveyChildren.Proper : SurveyChildren → Prop
  | .nil => True
  | .cons name child rest => ProperName name ∧ child.Proper ∧ rest.Proper

end

/-! ### The walk, halfway -/

/-- The numbers that stand for an inode, or for a file that was put off. -/
def WriterState.numbers (s : WriterState) : List Nat :=
  s.inodes.map (·.number) ++ s.pendingFiles.map (·.inodeNumber)

/-- A directory refers to the number. -/
def WriteContext.Refers (ctx : WriteContext) (number : Nat) : Prop :=
  ∃ node ∈ ctx.dirNodes, ∃ e ∈ node.entries, e.inodeNumber = number

/-- A name and a type for a number that stands for something. -/
structure EntryWalked (s : WriterState) (e : DirEntry) : Prop where
  name : ProperName e.name
  type : e.entryType ∈ [EntryType.file, EntryType.directory, EntryType.symlink, EntryType.special]
  number : e.inodeNumber ∈ s.numbers

/-- With the directories `opened` open, and those of `loose` not yet named by another. -/
structure Walking (H : Hash) (opened loose : List Nat) (s : WriterState) : Prop where
  numbers : (s.numbers ++ opened).Perm (List.range' 1 (s.nextInode - 1))
  started : 0 < s.nextInode
  inodes : ∀ inode ∈ s.inodes, inode.xattrs = [] ∧
    (inode.number < 2 ^ 64 → inode.Valid s.inlineThreshold)
  pending : ∀ pf ∈ s.pendingFiles, pf.inodeNumber < 2 ^ 64 → ∀ slices,
    (PendingContent.dropBacked pf.fileLen slices).Valid s.inlineThreshold →
      (fileInode pf slices).Valid s.inlineThreshold
  xattrs : ∀ number xs, s.inodeXattrs number = some xs → ∀ x ∈ xs, x.Valid
  nodes : ∀ node ∈ s.dirNodes, encodeDirNode H node.entries = some node ∧
    (node.entries.Pairwise fun a b => a.name ≤ b.name) ∧ ∀ e ∈ node.entries, EntryWalked s e
  targets : ∀ key number, s.hardlinkTargets key = some number → number ∈ s.numbers
  directories : ∀ inode ∈ s.inodes, ∀ entries, inode.content = .directory entries →
    inode.number ∈ loose ∨ s.Refers inode.number

section

variable {H : Hash} {opened loose : List Nat} {s s' : WriterState}

theorem Walking.nodup (h : Walking H opened loose s) : (s.numbers ++ opened).Nodup :=
  h.numbers.nodup_iff.mpr List.nodup_range'

theorem Walking.bounded (h : Walking H opened loose s) {number : Nat}
    (hmem : number ∈ s.numbers ++ opened) : 0 < number ∧ number < s.nextInode := by
  have hrange := List.mem_range'_1.mp (h.numbers.mem_iff.mp hmem)
  have hstarted := h.started
  omega

theorem Walking.taken (h : Walking H opened loose s) :
    (s.nextInode :: (s.numbers ++ opened)).Perm (List.range' 1 (s.nextInode + 1 - 1)) := by
  have hstarted := h.started
  have hrange : List.range' 1 (s.nextInode + 1 - 1)
      = List.range' 1 (s.nextInode - 1) ++ [s.nextInode] := by
    obtain ⟨m, hm⟩ : ∃ m, s.nextInode = m + 1 := ⟨s.nextInode - 1, by omega⟩
    rw [hm, Nat.add_sub_cancel, Nat.add_sub_cancel, List.range'_1_concat, Nat.add_comm]
  rw [hrange]
  exact (h.numbers.cons _).trans (List.perm_append_singleton _ _).symm

theorem EntryWalked.mono {e : DirEntry} (h : EntryWalked s e) (hsub : s.numbers ⊆ s'.numbers) :
    EntryWalked s' e := { h with number := hsub h.number }

/-- An inode of a proper node, with a content of its type. -/
theorem SurveyMeta.Proper.inode {info : SurveyMeta} (h : info.Proper) {content : PendingContent}
    {threshold number : Nat} (htype : info.kind.typeBits = content.fileType)
    (hcontent : content.Valid threshold) (hnumber : number < 2 ^ 64) :
    (inodeOf number info content).Valid threshold where
  number := hnumber
  mode := h.mode
  uid := h.uid
  gid := h.gid
  mtimeNs := h.mtimeNs
  fileType := h.fileType.trans htype
  content := hcontent

theorem noteXattrs_eq {info : SurveyMeta} (hinfo : info.Proper) (number : Nat)
    (hs : ∀ number xs, s.inodeXattrs number = some xs → ∀ x ∈ xs, x.Valid) :
    ∃ m, noteXattrs s number info = { s with inodeXattrs := m } ∧
      ∀ number xs, m number = some xs → ∀ x ∈ xs, x.Valid := by
  unfold noteXattrs
  by_cases hnone : info.xattrs = []
  · exact ⟨s.inodeXattrs, if_pos hnone, hs⟩
  · refine ⟨_, if_neg hnone, fun other xs hxs x hx => ?_⟩
    unfold setEntry at hxs
    split at hxs
    · obtain rfl := Option.some.inj hxs
      obtain ⟨kept, hkept, rfl⟩ := List.mem_map.mp hx
      obtain ⟨hutf8, hnul⟩ := hinfo.xattrs kept hkept
      exact ⟨show (0 : UInt8) ≤ 0x03 by decide, hutf8, hnul⟩
    · exact hs other xs hxs x hx

/-! ### Steps -/

/-- What a step adds that hands out one number for an inode or for a file. -/
structure Stored (s s' : WriterState) : Prop where
  numbers : s'.numbers.Perm (s.nextInode :: s.numbers)
  nextInode : s'.nextInode = s.nextInode + 1
  threshold : s'.inlineThreshold = s.inlineThreshold
  nodes : s'.dirNodes = s.dirNodes
  inodes : ∀ inode ∈ s'.inodes, inode ∈ s.inodes ∨ inode.number = s.nextInode ∧
    inode.xattrs = [] ∧ (inode.number < 2 ^ 64 → inode.Valid s.inlineThreshold)
  pending : ∀ pf ∈ s'.pendingFiles, pf ∈ s.pendingFiles ∨ (pf.inodeNumber < 2 ^ 64 → ∀ slices,
    (PendingContent.dropBacked pf.fileLen slices).Valid s.inlineThreshold →
      (fileInode pf slices).Valid s.inlineThreshold)
  xattrs : ∀ number xs, s'.inodeXattrs number = some xs → ∀ x ∈ xs, x.Valid
  targets : ∀ key number, s'.hardlinkTargets key = some number →
    s.hardlinkTargets key = some number ∨ number = s.nextInode

/-- What a node has become: its number stands for something, and no number was given up. -/
structure NodeWalked (H : Hash) (opened loose : List Nat) (s : WriterState) (number : Nat)
    (s' : WriterState) : Prop where
  walking : Walking H opened (number :: loose) s'
  number : number ∈ s'.numbers
  sub : s.numbers ⊆ s'.numbers

theorem Walking.stored (h : Walking H opened loose s) (hs : Stored s s') :
    NodeWalked H opened loose s s.nextInode s' := by
  have hsub : s.numbers ⊆ s'.numbers := fun _ hmem =>
    hs.numbers.mem_iff.mpr (List.mem_cons_of_mem _ hmem)
  have hmem : s.nextInode ∈ s'.numbers := hs.numbers.mem_iff.mpr List.mem_cons_self
  refine ⟨⟨?_, ?_, ?_, ?_, hs.xattrs, ?_, ?_, ?_⟩, hmem, hsub⟩
  · rw [hs.nextInode]
    exact (hs.numbers.append_right opened).trans h.taken
  · rw [hs.nextInode]
    exact Nat.succ_pos _
  · intro inode hinode
    rw [hs.threshold]
    rcases hs.inodes inode hinode with hold | ⟨-, hnew⟩
    · exact h.inodes inode hold
    · exact hnew
  · intro pf hpf hnumber slices hslices
    rw [hs.threshold] at hslices ⊢
    rcases hs.pending pf hpf with hold | hnew
    · exact h.pending pf hold hnumber slices hslices
    · exact hnew hnumber slices hslices
  · intro node hnode
    rw [hs.nodes] at hnode
    obtain ⟨hencode, hsorted, hentries⟩ := h.nodes node hnode
    exact ⟨hencode, hsorted, fun e he => (hentries e he).mono hsub⟩
  · intro key number hkey
    rcases hs.targets key number hkey with hold | rfl
    · exact hsub (h.targets key number hold)
    · exact hmem
  · intro inode hinode entries hcontent
    unfold WriteContext.Refers
    rw [hs.nodes]
    rcases hs.inodes inode hinode with hold | ⟨hnumber, -⟩
    · exact (h.directories inode hold entries hcontent).imp_left (List.mem_cons_of_mem _)
    · exact Or.inl (hnumber ▸ List.mem_cons_self)

theorem Walking.reorder {loose' : List Nat} (h : Walking H opened loose s)
    (hperm : loose.Perm loose') : Walking H opened loose' s :=
  { h with directories := fun inode hinode entries hcontent =>
      (h.directories inode hinode entries hcontent).imp_left hperm.mem_iff.mp }

theorem Walking.open (h : Walking H opened loose s) (dirCount : Nat) :
    Walking H (s.nextInode :: opened) loose
      { s with dirCount := dirCount, nextInode := s.nextInode + 1 } where
  numbers := List.perm_middle.trans h.taken
  started := Nat.succ_pos _
  inodes := h.inodes
  pending := h.pending
  xattrs := h.xattrs
  nodes node hnode := by
    obtain ⟨hencode, hsorted, hentries⟩ := h.nodes node hnode
    exact ⟨hencode, hsorted, fun e he => { hentries e he with }⟩
  targets := h.targets
  directories := h.directories

/-- **A directory is closed**: its entries are named now, and its own number is not one of theirs. -/
theorem Walking.close {number : Nat} (h : Walking H (number :: opened) loose s)
    {entries : List DirEntry} {node : DirNode} (hnode : encodeDirNode H entries = some node)
    (hsorted : entries.Pairwise fun a b => a.name ≤ b.name)
    (hentries : ∀ e ∈ entries, EntryWalked s e) {inode : PendingInode} (hinode : inode.number = number)
    (hvalid : inode.xattrs = [] ∧ (inode.number < 2 ^ 64 → inode.Valid s.inlineThreshold))
    {m : Nat → Option (List XAttr)} (hm : ∀ number xs, m number = some xs → ∀ x ∈ xs, x.Valid)
    {rest : List Nat} (hrest : ∀ n ∈ loose, (∃ e ∈ entries, e.inodeNumber = n) ∨ n ∈ rest) :
    NodeWalked H opened rest s number
        (addInode { s with dirNodes := s.dirNodes ++ [node], inodeXattrs := m } inode) ∧
      ∀ node' ∈ s.dirNodes ++ [node], ∀ e ∈ node'.entries, e.inodeNumber ≠ number := by
  have hsame : node.entries = entries := by rw [(encodeDirNode_some hnode).1]
  have hnumbers : (addInode { s with dirNodes := s.dirNodes ++ [node], inodeXattrs := m }
      inode).numbers.Perm (number :: s.numbers) := by
    unfold WriterState.numbers addInode
    rw [List.map_append, List.map_singleton, hinode, List.append_assoc]
    exact List.perm_middle
  have hsub : s.numbers ⊆ (addInode { s with dirNodes := s.dirNodes ++ [node], inodeXattrs := m }
      inode).numbers := fun n hn => hnumbers.mem_iff.mpr (List.mem_cons_of_mem _ hn)
  have hall : ∀ node' ∈ s.dirNodes ++ [node], encodeDirNode H node'.entries = some node' ∧
      (node'.entries.Pairwise fun a b => a.name ≤ b.name) ∧ ∀ e ∈ node'.entries, EntryWalked s e := by
    refine forall_mem_snoc h.nodes ?_
    rw [hsame]
    exact ⟨hnode, hsorted, hentries⟩
  refine ⟨⟨⟨?_, h.started, ?_, h.pending, hm, ?_, ?_, ?_⟩,
    hnumbers.mem_iff.mpr List.mem_cons_self, hsub⟩, ?_⟩
  · exact (hnumbers.append_right opened).trans (List.perm_middle.symm.trans h.numbers)
  · exact forall_mem_snoc h.inodes hvalid
  · intro node' hnode'
    obtain ⟨hencode, hnames, hwalked⟩ := hall node' hnode'
    exact ⟨hencode, hnames, fun e he => (hwalked e he).mono hsub⟩
  · intro key n hkey
    exact hsub (h.targets key n hkey)
  · -- a directory that was named by none is named by this one, or is still to be named
    refine forall_mem_snoc ?_ fun _ _ => Or.inl (hinode ▸ List.mem_cons_self)
    intro other hother kept hcontent
    rcases h.directories other hother kept hcontent with hloose | ⟨node', hnode', hrefers⟩
    · rcases hrest _ hloose with hnamed | hleft
      · exact Or.inr ⟨node, List.mem_append_right _ List.mem_cons_self, hsame ▸ hnamed⟩
      · exact Or.inl (List.mem_cons_of_mem _ hleft)
    · exact Or.inr ⟨node', List.mem_append_left _ hnode', hrefers⟩
  · intro node' hnode' e he hequal
    have hmem := ((hall node' hnode').2.2 e he).number
    rw [hequal] at hmem
    exact (List.nodup_append.mp h.nodup).2.2 number hmem number List.mem_cons_self rfl

end

/-! ### The walk -/

section

variable {env : WriterEnv} {opened loose : List Nat} {s s' : WriterState}

/-- A link, a file that was met before, a short file or one that is put off. -/
theorem foldFile_walking {path : Path} {info : SurveyMeta} {number : Nat} (hinfo : info.Proper)
    (hkind : info.kind = .file)
    (hlen : ∀ data, env.readFile path = .ok data → data.length = info.len)
    (h : Walking env.H opened loose s) (hfold : foldFile env path info s = .ok (number, s')) :
    NodeWalked env.H opened loose s number s' := by
  have htype : info.kind.typeBits = sIfreg := by rw [hkind]; rfl
  unfold foldFile at hfold
  cases htarget : s.hardlinkTargets (info.dev, info.ino) with
  | some existing =>
      rw [htarget] at hfold
      cases hfold
      exact ⟨⟨h.numbers, h.started, h.inodes, h.pending, h.xattrs, fun node hnode =>
        ⟨(h.nodes node hnode).1, (h.nodes node hnode).2.1,
          fun e he => { (h.nodes node hnode).2.2 e he with }⟩, h.targets,
        fun inode hinode entries hcontent =>
          (h.directories inode hinode entries hcontent).imp_left (List.mem_cons_of_mem _)⟩,
        h.targets _ _ htarget, fun _ hn => hn⟩
  | none =>
      rw [htarget] at hfold
      simp only at hfold
      obtain ⟨m, hm, hvalid⟩ := @noteXattrs_eq { s with
        fileCount := s.fileCount + 1
        nextInode := s.nextInode + 1
        hardlinkTargets := setEntry s.hardlinkTargets (info.dev, info.ino) s.nextInode }
        info hinfo s.nextInode h.xattrs
      have htargets : ∀ key n,
          setEntry s.hardlinkTargets (info.dev, info.ino) s.nextInode key = some n →
          s.hardlinkTargets key = some n ∨ n = s.nextInode := by
        intro key n hkey
        unfold setEntry at hkey
        split at hkey
        · exact Or.inr (Option.some.inj hkey).symm
        · exact Or.inl hkey
      rw [hm] at hfold
      by_cases hshort : info.len ≤ s.inlineThreshold
      · rw [if_pos hshort] at hfold
        cases hread : env.readFile path with
        | error e =>
            rw [hread] at hfold
            cases hfold
        | ok data =>
            rw [hread] at hfold
            cases hfold
            refine h.stored ⟨?_, rfl, rfl, rfl, ?_, fun pf hpf => Or.inl hpf, hvalid, htargets⟩
            · unfold WriterState.numbers addInode
              rw [List.map_append, List.map_singleton, List.append_assoc]
              exact List.perm_middle
            · intro inode hinode
              rcases List.mem_append.mp hinode with hold | hnew
              · exact Or.inl hold
              · obtain rfl := List.mem_singleton.mp hnew
                refine Or.inr ⟨rfl, rfl, hinfo.inode htype ?_⟩
                exact Nat.le_trans (Nat.le_of_eq (hlen data hread)) hshort
      · rw [if_neg hshort] at hfold
        cases hfold
        refine h.stored ⟨?_, rfl, rfl, rfl, fun inode hinode => Or.inl hinode, ?_, hvalid, htargets⟩
        · unfold WriterState.numbers
          rw [List.map_append, List.map_singleton, ← List.append_assoc]
          exact List.perm_append_singleton _ _
        · intro pf hpf
          rcases List.mem_append.mp hpf with hold | hnew
          · exact Or.inl hold
          · obtain rfl := List.mem_singleton.mp hnew
            exact Or.inr fun hnumber slices hslices =>
              ⟨hnumber, hinfo.mode, hinfo.uid, hinfo.gid, hinfo.mtimeNs,
                hinfo.fileType.trans htype, hslices⟩

theorem pairwise_sortEntries (entries : List DirEntry) :
    (sortEntries entries).Pairwise fun a b => a.name ≤ b.name := by
  have htotal : Std.Total (fun a b : DirEntry => a.name ≤ b.name) := ⟨fun _ _ => Std.le_total⟩
  have htrans : IsTrans DirEntry (fun a b => a.name ≤ b.name) := ⟨fun _ _ _ => Std.le_trans⟩
  exact List.pairwise_insertionSort _ entries

/-- A directory that is closed has its inode, and no entry names it yet. -/
structure DirectoryClosed (number : Nat) (s : WriterState) : Prop where
  inode : ∃ inode ∈ s.inodes, inode.number = number ∧ ∃ entries, inode.content = .directory entries
  free : ¬ s.Refers number

/-- A directory whose children were walked is closed. -/
theorem closeDirectory_walking {info : SurveyMeta} {number n : Nat} {entries : List DirEntry}
    (hinfo : info.Proper) (hkind : info.kind = .directory)
    (h : Walking env.H (number :: opened) (entries.map (·.inodeNumber) ++ loose) s)
    (hentries : ∀ e ∈ entries, EntryWalked s e)
    (hclose : closeDirectory env number info entries s = .ok (n, s')) :
    n = number ∧ NodeWalked env.H opened loose s number s' ∧ DirectoryClosed number s' := by
  have hperm : (sortEntries entries).Perm entries := List.perm_insertionSort _ _
  unfold closeDirectory at hclose
  simp only at hclose
  cases hnode : encodeDirNode env.H (sortEntries entries) with
  | none =>
      rw [hnode] at hclose
      cases hclose
  | some node =>
      rw [hnode] at hclose
      simp only at hclose
      obtain ⟨m, hm, hvalid⟩ := @noteXattrs_eq { s with dirNodes := s.dirNodes ++ [node] } info hinfo
        number h.xattrs
      rw [hm] at hclose
      cases hclose
      have htype : info.kind.typeBits = sIfdir := by rw [hkind]; rfl
      have hinode : number < 2 ^ 64 → (inodeOf number info
          (.directory (sortEntries entries))).Valid s.inlineThreshold := hinfo.inode htype trivial
      have hnumber : (inodeOf number info (.directory (sortEntries entries))).number = number := rfl
      obtain ⟨hwalked, hfree⟩ := h.close hnode (pairwise_sortEntries entries)
        (fun e he => hentries e (hperm.mem_iff.mp he)) hnumber ⟨rfl, hinode⟩ hvalid fun n hn => by
          rcases List.mem_append.mp hn with hnamed | hleft
          · obtain ⟨e, he, rfl⟩ := List.mem_map.mp hnamed
            exact Or.inl ⟨e, hperm.mem_iff.mpr he, rfl⟩
          · exact Or.inr hleft
      refine ⟨rfl, hwalked, ⟨_, List.mem_append_right _ List.mem_cons_self, rfl, _, rfl⟩, ?_⟩
      rintro ⟨node', hnode', e, he, hequal⟩
      exact hfree node' hnode' e he hequal

/-- Every file that can be read has the length it was surveyed with. -/
def LengthsAgree (env : WriterEnv) (files : List (Path × SurveyMeta)) : Prop :=
  ∀ f ∈ files, ∀ data, env.readFile f.1 = .ok data → data.length = f.2.len

theorem LengthsAgree.mono {files more : List (Path × SurveyMeta)} (h : LengthsAgree env more)
    (hsub : files ⊆ more) : LengthsAgree env files := fun f hf => h f (hsub hf)

theorem entryTypeOf_mem (kind : FileKind) : entryTypeOf kind ∈
    [EntryType.file, EntryType.directory, EntryType.symlink, EntryType.special] := by
  cases kind <;> decide

mutual

/-- **What the walk keeps to over a tree**, and that a directory is not named by what is below it. -/
theorem foldSurvey_walking : ∀ (node : SurveyNode) (path : Path) {opened loose : List Nat}
    {s s' : WriterState} {number : Nat}, node.Proper → LengthsAgree env (node.files path) →
    Walking env.H opened loose s →
    foldSurvey env path node.symlinkTarget node s = .ok (number, s') →
    NodeWalked env.H opened loose s number s' ∧
      (node.info.kind = .directory → DirectoryClosed number s')
  | .node info children target, path, opened, loose, s, s', number, hproper, hlens, h, hfold => by
      obtain ⟨hinfo, hchildren, -, htarget⟩ := hproper
      unfold SurveyNode.files at hlens
      unfold foldSurvey at hfold
      cases target with
      | some target =>
          obtain ⟨hkind, hutf8⟩ := htarget target rfl
          cases hfold
          have htype : info.kind.typeBits = sIflnk := by rw [hkind]; rfl
          refine ⟨h.stored ⟨?_, rfl, rfl, rfl, ?_, fun pf hpf => Or.inl hpf, h.xattrs,
            fun key n hkey => Or.inl hkey⟩, fun hdir => ?_⟩
          · unfold WriterState.numbers addInode
            rw [List.map_append, List.map_singleton, List.append_assoc]
            exact List.perm_middle
          · intro inode hinode
            rcases List.mem_append.mp hinode with hold | hnew
            · exact Or.inl hold
            · obtain rfl := List.mem_singleton.mp hnew
              exact Or.inr ⟨rfl, rfl, hinfo.inode htype hutf8⟩
          · exact absurd (hkind.symm.trans hdir) (by decide)
      | none =>
          simp only [SurveyNode.symlinkTarget] at hfold
          cases hkind : info.kind with
          | directory =>
              rw [hkind] at hfold
              simp only at hfold
              split at hfold
              · cases hfold
              · next entries mid hwalk =>
                  obtain ⟨hmid, hentries, hsub⟩ := foldChildren_walking children path hchildren
                    (hlens.mono (List.subset_append_right _ _)) (h.open _) hwalk
                  obtain ⟨rfl, hnode, hclosed⟩ := closeDirectory_walking hinfo hkind hmid hentries hfold
                  exact ⟨⟨hnode.walking, hnode.number, fun n hn => hnode.sub (hsub hn)⟩,
                    fun _ => hclosed⟩
          | file =>
              rw [hkind] at hfold
              refine ⟨foldFile_walking hinfo hkind (fun data hdata => hlens (path, info) ?_ data hdata)
                h hfold, fun hdir => ?_⟩
              · rw [if_pos hkind]
                exact List.mem_append_left _ List.mem_cons_self
              · exact absurd (hkind.symm.trans hdir) (by decide)
          | _ =>
              rw [hkind] at hfold
              cases hfold

theorem foldChildren_walking : ∀ (children : SurveyChildren) (path : Path)
    {opened loose : List Nat} {s s' : WriterState} {entries : List DirEntry}, children.Proper →
    LengthsAgree env (children.files path) → Walking env.H opened loose s →
    foldChildren env path children s = .ok (entries, s') →
    Walking env.H opened (entries.map (·.inodeNumber) ++ loose) s' ∧
      (∀ e ∈ entries, EntryWalked s' e) ∧ s.numbers ⊆ s'.numbers
  | .nil, path, opened, loose, s, s', entries, _, _, h, hfold => by
      unfold foldChildren at hfold
      cases hfold
      exact ⟨h, fun e he => absurd he List.not_mem_nil, fun _ hn => hn⟩
  | .cons name child rest, path, opened, loose, s, s', entries, hproper, hlens, h, hfold => by
      obtain ⟨hname, hchild, hrest⟩ := hproper
      unfold SurveyChildren.files at hlens
      unfold foldChildren at hfold
      split at hfold
      · cases hfold
      · next number mid hfirst =>
          split at hfold
          · cases hfold
          · next tail last hlater =>
              cases hfold
              obtain ⟨hnode, -⟩ := foldSurvey_walking child _ hchild
                (hlens.mono (List.subset_append_left _ _)) h hfirst
              obtain ⟨hwalking, hentries, hsub⟩ := foldChildren_walking rest path hrest
                (hlens.mono (List.subset_append_right _ _)) hnode.walking hlater
              refine ⟨?_, List.forall_mem_cons.mpr ⟨⟨hname, entryTypeOf_mem _, hsub hnode.number⟩,
                hentries⟩, fun n hn => hsub (hnode.sub hn)⟩
              -- the number of the child waits with those of its siblings
              exact hwalking.reorder List.perm_middle

end

end

end LimniFS
