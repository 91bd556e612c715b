/-
The tree that a commit packs.

A commit stages the live tree that was read when the image was opened, removes from it the files
that were deleted, and writes the pending ones over it.  The handle has its own account of the
paths there are: the map of inodes, which every call keeps up to date.

The deletions are replayed from the history.  `remove_file` takes no directory away, and whether it
succeeded is not looked at.
-/
import LimniFS.ImageView

namespace LimniFS.Rw

open Lib

/-! ### Keys and the paths they stand for -/

/-- The path of a key under the staging directory. -/
def keyPath (key : Bytes) : Path := stagingTarget [] key

/-- The key is the absolute path of its names. -/
def Proper (key : Bytes) : Prop := key = absolutePath (keyPath key)

/-- The key leads down by names only. -/
def Plain (key : Bytes) : Prop :=
  Proper key ∧ ∀ name ∈ keyPath key, name ≠ ascii "." ∧ name ≠ ascii ".."

instance (key : Bytes) : Decidable (Proper key) := inferInstanceAs (Decidable (_ = _))

instance (key : Bytes) : Decidable (Plain key) := inferInstanceAs (Decidable (_ ∧ _))

theorem keyPath_absolutePath {names : Path} (h : ∀ name ∈ names, PathText.IsName slash name) :
    keyPath (absolutePath names) = names := by
  have hrelative : stagingRelative (absolutePath names) = PathText.join slash names := by
    unfold stagingRelative absolutePath
    rw [List.dropWhile_cons_of_pos (by simp)]
    cases hjoin : PathText.join slash names with
    | nil => rfl
    | cons c rest =>
        have hc : c ≠ slash := by
          rintro rfl
          cases names with
          | nil => cases hjoin
          | cons name more =>
              obtain ⟨hne, hsep⟩ := h name List.mem_cons_self
              obtain ⟨first, others, rfl⟩ := List.exists_cons_of_ne_nil hne
              have hfirst : first = slash := by
                cases more with
                | nil => exact (List.cons.inj hjoin).1
                | cons second more => exact (List.cons.inj hjoin).1
              exact hsep (hfirst ▸ List.mem_cons_self)
        rw [List.dropWhile_cons_of_neg (by simpa using hc)]
  show [] ++ pathComponents (stagingRelative (absolutePath names)) = names
  rw [List.nil_append, hrelative, pathComponents]
  by_cases hnil : names = []
  · subst hnil
    rfl
  · rw [PathText.split_join hnil fun name hname => (h name hname).2, List.filter_eq_self]
    intro name hname
    simpa using (h name hname).1

theorem proper_absolutePath {names : Path} (h : ∀ name ∈ names, PathText.IsName slash name) :
    Proper (absolutePath names) := by
  rw [Proper, keyPath_absolutePath h]

theorem Proper.inj {key key' : Bytes} (h : Proper key) (h' : Proper key')
    (heq : keyPath key = keyPath key') : key = key' := by
  rw [h, heq, ← h']

/-! ### Staging a commit -/

/-- The deletions that no pending file covers. -/
def deletedKeys (image : RwImage) : List Bytes :=
  (image.pendingHistory.filter fun e => e.opByte = 3 ∧ e.path ∉ image.pendingFiles).map
    HistoryEntry.path

section
variable (os : StagingOs)

/-- `remove_file` under the staging directory; that it failed is not noticed. -/
def stageDelete (tree : StagingDir) (key : Bytes) : StagingDir :=
  if Plain key ∧ tree.crosses (keyPath key).dropLast = false then
    if os.mayRemove (keyPath key) then tree.remove (keyPath key) else tree
  else os.removeThrough tree key

/-- `create_dir_all` and `fs::write`. -/
def stageWrite (tree : StagingDir) (file : Σ _ : Bytes, Bytes) : Except CoreError StagingDir :=
  let staged :=
    if Plain file.1 ∧ tree.crosses (keyPath file.1) = false then
      tree.write (keyPath file.1) (.pending (keyPath file.1)) file.2
    else os.writeThrough tree file.1 file.2
  match staged with
  | none => .error stagingError
  | some tree => .ok tree

variable (H : Hash) (z : Omnizip)

/-- `write_staging_tree`, with the pending files in the order the map gives them. -/
def writeStagingTree (image : RwImage) (files : List (Σ _ : Bytes, Bytes)) :
    Except CoreError StagingDir := do
  let live ← match image.state with
    | some state => writeLiveTree H z os state
    | none => pure (.bare [])
  files.foldlM (stageWrite os) ((deletedKeys image).foldl (stageDelete os) live)

end

/-! ### What the handle shows -/

/-- The pending content of a path. -/
def pendingAt (image : RwImage) (q : Path) : Option Bytes :=
  (image.pendingFiles.entries.find? fun file => keyPath file.1 = q).map Sigma.snd

/-- The handle has an inode for the path. -/
def Mapped (image : RwImage) (q : Path) : Prop := ∃ key ∈ image.inodeMap.keys, keyPath key = q

/-- A file is pending at the path or below it. -/
def AbovePending (image : RwImage) (q : Path) : Prop :=
  ∃ key ∈ image.pendingFiles.keys, q <+: keyPath key

instance (image : RwImage) (q : Path) : Decidable (Mapped image q) :=
  inferInstanceAs (Decidable (∃ _ ∈ _, _))

instance (image : RwImage) (q : Path) : Decidable (AbovePending image q) :=
  inferInstanceAs (Decidable (∃ _ ∈ _, _))

/-- The view of a handle: its pending files, the directories above them, and of the image it was
opened on what it still has an inode for. -/
def handleView (H : Hash) (z : Omnizip) (state : OpenState) (image : RwImage) (q : Path) :
    Option (FileEntry Bytes) :=
  match pendingAt image q with
  | some data => some (.file data)
  | none =>
    if AbovePending image q then some .dir
    else if Mapped image q then imageEntry H z state q else none

/-- The committed tree is what the handle shows, and every path the handle has an inode for is
pending or leads to something in the image. -/
structure CommitRefines (H : Hash) (z : Omnizip) (state : OpenState) (image : RwImage)
    (committed : StagingDir) : Prop where
  shows : ∀ q, committed.shows q = handleView H z state image q
  pending : ∀ key ∈ image.pendingFiles, key ∈ image.inodeMap ∧ Proper key
  mapped : ∀ key ∈ image.inodeMap, key ∈ image.pendingFiles ∨
    (Proper key ∧ (numberAt H state.blob state.rootInode (keyPath key)).isSome)

theorem mem_deletedKeys {image : RwImage} {key : Bytes} :
    key ∈ deletedKeys image ↔ Deleted image.pendingHistory key ∧ key ∉ image.pendingFiles := by
  unfold deletedKeys Deleted
  simp only [List.mem_map, List.mem_filter, decide_eq_true_eq]
  constructor
  · rintro ⟨e, ⟨he, hop, hnot⟩, rfl⟩
    exact ⟨⟨e, he, hop, rfl⟩, hnot⟩
  · rintro ⟨⟨e, he, hop, rfl⟩, hnot⟩
    exact ⟨e, ⟨he, hop, hnot⟩, rfl⟩

/-! ### The handle's account -/

/-- A pending path has an inode; any other has one if it is in the index of the image and was never
deleted. -/
structure Accounts (index : PathMap Nat) (image : RwImage) : Prop where
  pending : ∀ key ∈ image.pendingFiles, key ∈ image.inodeMap
  others : ∀ key, key ∉ image.pendingFiles →
    (key ∈ image.inodeMap ↔ key ∈ index ∧ ¬ Deleted image.pendingHistory key)

section
variable {index : PathMap Nat} {image image' : RwImage}

theorem accounts_freshHandle (H : Hash) (file : ImageFile) (state : OpenState) :
    Accounts index (freshHandle H file state index) where
  pending key hin := absurd hin (AList.notMem_empty key)
  others key _ := by
    have hnone : ¬ Deleted (freshHandle H file state index).pendingHistory key := by
      rintro ⟨e, he, -⟩
      exact absurd he List.not_mem_nil
    exact (and_iff_left hnone).symm

theorem Accounts.apply (h : Accounts index image) {op : Op} (hop : op.apply image = .ok image') :
    Accounts index image' := by
  rcases Op.apply_cases hop with ⟨data, e, inode, next, -, hadd, rfl⟩ | ⟨inode, rfl⟩
  · have hdeleted : ∀ key, Deleted (image.pendingHistory ++ [e]) key ↔
        Deleted image.pendingHistory key := by
      intro key
      rw [deleted_snoc, or_iff_left fun hdel => hadd hdel.1]
    refine ⟨fun key hin => ?_, fun key hnot => ?_⟩
    · simp only [AList.mem_insert] at hin ⊢
      exact hin.imp_right (h.pending key)
    · simp only [AList.mem_insert, not_or] at hnot ⊢
      rw [or_iff_right hnot.1, hdeleted]
      exact h.others key hnot.2
  · refine ⟨fun key hin => ?_, fun key hnot => ?_⟩
    · simp only [AList.mem_erase] at hin ⊢
      exact ⟨hin.1, h.pending key hin.2⟩
    · simp only [AList.mem_erase, not_and] at hnot ⊢
      rw [deleted_snoc]
      by_cases hkey : key = op.key
      · have hthis : Deleted image.pendingHistory key ∨
            (HistoryEntry.delete op.key inode).opByte = 3 ∧
              (HistoryEntry.delete op.key inode).path = key :=
          Or.inr ⟨rfl, hkey.symm⟩
        simp [hkey ▸ hthis, hkey]
      · have hother : ¬ ((HistoryEntry.delete op.key inode).opByte = 3 ∧
            (HistoryEntry.delete op.key inode).path = key) := fun hdel => hkey hdel.2.symm
        rw [or_iff_left hother, and_iff_right hkey]
        exact h.others key (hnot hkey)

/-- **No sequence of calls puts the account wrong.** -/
theorem Accounts.run : ∀ {ops : List Op} {image image' : RwImage},
    Accounts index image → runOps image ops = .ok image' → Accounts index image' := by
  intro ops
  induction ops with
  | nil =>
      intro image image' h hrun
      cases hrun
      exact h
  | cons op ops ih =>
      intro image image' h hrun
      rw [runOps, List.foldlM_cons] at hrun
      obtain ⟨mid, hmid, hrest⟩ := except_bind_eq_ok.mp hrun
      exact ih (h.apply hmid) hrest

theorem state_runOps : ∀ {ops : List Op} {image image' : RwImage},
    runOps image ops = .ok image' → image'.state = image.state := by
  intro ops
  induction ops with
  | nil =>
      intro image image' hrun
      cases hrun
      rfl
  | cons op ops ih =>
      intro image image' hrun
      rw [runOps, List.foldlM_cons] at hrun
      obtain ⟨mid, hmid, hrest⟩ := except_bind_eq_ok.mp hrun
      rw [ih hrest]
      rcases Op.apply_cases hmid with ⟨data, e, inode, next, -, -, rfl⟩ | ⟨inode, rfl⟩
      · rfl
      · rfl

end

/-! ### The deletions -/

/-- Some of the deletions take a file or a link away from the path. -/
def Gone (os : StagingOs) (keys : List Bytes) (q : Path) : Prop :=
  q ∈ keys.map keyPath ∧ os.mayRemove q = true

/-- The tree after some deletions. -/
structure DeletedFrom (os : StagingOs) (base : StagingDir) (keys : List Bytes) (tree : StagingDir) :
    Prop where
  rooted : tree.Rooted
  stays : ∀ q, ¬ Gone os keys q → tree.node q = base.node q
  goes : ∀ q, Gone os keys q → tree.node q = (base.node q).filter FileNode.isDir
  content : tree.content = base.content

section
variable {os : StagingOs} {base tree : StagingDir}

theorem gone_snoc {keys : List Bytes} {key : Bytes} {q : Path} : Gone os (keys ++ [key]) q ↔
    Gone os keys q ∨ (q = keyPath key ∧ os.mayRemove q = true) := by
  unfold Gone
  rw [List.map_append, List.mem_append, List.map_singleton, List.mem_singleton, or_and_right]

theorem deletedFrom_nil (hrooted : base.Rooted) : DeletedFrom os base [] base where
  rooted := hrooted
  stays _ _ := rfl
  goes _ hgone := absurd hgone.1 List.not_mem_nil
  content := rfl

theorem DeletedFrom.not_crosses {keys : List Bytes} (h : DeletedFrom os base keys tree) {path : Path}
    (hlinks : ∀ q target, q <+: path → base.node q = some (.symlink target) → Gone os keys q) :
    tree.crosses path = false := by
  rw [Bool.eq_false_iff]
  intro hcross
  obtain ⟨q, target, hq, hlink⟩ := FileTree.crosses_iff.mp hcross
  by_cases hgone : Gone os keys q
  · rw [h.goes q hgone] at hlink
    cases (Option.filter_eq_some_iff.mp hlink).2
  · rw [h.stays q hgone] at hlink
    exact hgone (hlinks q target hq hlink)

theorem DeletedFrom.snoc {keys : List Bytes} (h : DeletedFrom os base keys tree) {key : Bytes}
    (hplain : Plain key) (hcross : tree.crosses (keyPath key).dropLast = false) :
    DeletedFrom os base (keys ++ [key]) (stageDelete os tree key) := by
  rw [stageDelete, if_pos ⟨hplain, hcross⟩]
  by_cases hmay : os.mayRemove (keyPath key) = true
  · rw [if_pos hmay]
    refine ⟨h.rooted.remove _, fun q hstays => ?_, fun q hgone => ?_, ?_⟩
    · rw [gone_snoc, not_or] at hstays
      have hne : q ≠ keyPath key := fun heq => hstays.2 ⟨heq, heq ▸ hmay⟩
      rw [FileTree.node_remove, if_neg hne, h.stays q hstays.1]
    · rw [FileTree.node_remove]
      by_cases hbefore : Gone os keys q
      · rw [h.goes q hbefore, Option.filter_filter]
        simp only [Bool.and_self, ite_self]
      · have heq := ((gone_snoc.mp hgone).resolve_left hbefore).1
        rw [if_pos heq, h.stays q hbefore]
    · rw [FileTree.content_remove, h.content]
  · rw [if_neg hmay]
    have hsame : ∀ q, Gone os (keys ++ [key]) q ↔ Gone os keys q := by
      intro q
      rw [gone_snoc]
      exact or_iff_left fun hnew => hmay (hnew.1 ▸ hnew.2)
    exact ⟨h.rooted, fun q hstays => h.stays q (mt (hsame q).mpr hstays),
      fun q hgone => h.goes q ((hsame q).mp hgone), h.content⟩

/-- Every deletion leads straight down, past links that are gone by then. -/
theorem DeletedFrom.run : ∀ (keys : List Bytes) {done : List Bytes} {tree : StagingDir},
    DeletedFrom os base done tree →
    (∀ before key after, keys = before ++ key :: after → Plain key ∧
      ∀ q target, q <+: (keyPath key).dropLast → base.node q = some (.symlink target) →
        Gone os (done ++ before) q) →
    DeletedFrom os base (done ++ keys) (keys.foldl (stageDelete os) tree) := by
  intro keys
  induction keys with
  | nil =>
      intro done tree h _
      rwa [List.append_nil]
  | cons key rest ih =>
      intro done tree h hall
      obtain ⟨hplain, hlinks⟩ := hall [] key rest rfl
      rw [List.append_nil] at hlinks
      rw [List.append_cons, List.foldl_cons]
      refine ih (h.snoc hplain (h.not_crosses hlinks)) fun before key' after heq => ?_
      have := hall (key :: before) key' after (by rw [heq]; rfl)
      rwa [List.append_cons] at this

/-! ### The writes -/

/-- The pending files by their paths. -/
def stagedWrites (files : List (Σ _ : Bytes, Bytes)) : List (Path × Bytes) :=
  files.map fun file => (keyPath file.1, file.2)

/-- Writes that cross no link are writes to the tree. -/
theorem foldlM_stageWrite : ∀ {files : List (Σ _ : Bytes, Bytes)} {tree committed : StagingDir},
    (∀ file ∈ files, Plain file.1 ∧ tree.crosses (keyPath file.1) = false) →
    files.foldlM (stageWrite os) tree = .ok committed →
    tree.writeAll StagedFile.pending (stagedWrites files) = some committed := by
  intro files
  induction files with
  | nil =>
      intro tree committed _ hrun
      cases hrun
      rfl
  | cons file files ih =>
      intro tree committed hall hrun
      obtain ⟨hfirst, hrest⟩ := List.forall_mem_cons.mp hall
      rw [List.foldlM_cons] at hrun
      obtain ⟨mid, hmid, hmore⟩ := except_bind_eq_ok.mp hrun
      simp only [stageWrite, if_pos hfirst] at hmid
      split at hmid
      · cases hmid
      · next tree' hwrite =>
          cases hmid
          have hlinks : ∀ path, mid.crosses path = tree.crosses path := by
            intro path
            rw [Bool.eq_iff_iff, FileTree.crosses_iff, FileTree.crosses_iff]
            simp only [FileTree.write_symlink hwrite]
          have hnext := ih (fun f hf => ⟨(hrest f hf).1, by rw [hlinks]; exact (hrest f hf).2⟩) hmore
          rw [FileTree.writeAll, stagedWrites, List.map_cons, List.foldlM_cons, hwrite]
          exact hnext

end

end LimniFS.Rw
