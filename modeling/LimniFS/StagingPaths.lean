/-
Where the staged files of a commit are written.

A commit writes every pending file under a staging directory and removes from it what was
deleted.  The path of each is the handle's key without its leading slashes, joined to the
directory; the keys come from the caller and from the log, and no component of them is
looked at.  A component `..` therefore climbs, out of the staging directory if nothing
before it was entered.
-/
import LimniFS.Lib.FileTree
import LimniFS.WalWhole

namespace LimniFS.Rw

open Lib

/-! ### Staged paths -/

/-- `staging_relative`. -/
def stagingRelative (path : Bytes) : Bytes := path.dropWhile (· == slash)

/-- The components of the text of a path. -/
def pathComponents (text : Bytes) : Path := (PathText.split slash text).filter fun name => name ≠ []

/-- `staging.join(staging_relative(path))`; what is joined never starts with a slash. -/
def stagingTarget (staging : Path) (path : Bytes) : Path :=
  staging ++ pathComponents (stagingRelative path)

/-- What a commit does to the file at a path. -/
inductive FileEffect where
  | write (target : Path) (data : Bytes)
  | remove (target : Path)

def FileEffect.target : FileEffect → Path
  | write target _ => target
  | remove target => target

/-- The loop over the pending files that `write_staging_tree` and `write_pending_only` share. -/
def pendingWrites (image : RwImage) (staging : Path) : List FileEffect :=
  image.pendingFiles.entries.map fun file => .write (stagingTarget staging file.1) file.2

/-- The deletions that no pending file covers. -/
def appliedDeletes (image : RwImage) (staging : Path) : List FileEffect :=
  (image.pendingHistory.filter fun e => e.opByte = 3 ∧ e.path ∉ image.pendingFiles).map fun e =>
    .remove (stagingTarget staging e.path)

/-- What `write_staging_tree` does behind the live tree. -/
def stagingEffects (image : RwImage) (staging : Path) : List FileEffect :=
  appliedDeletes image staging ++ pendingWrites image staging

/-! ### Inside the staging directory -/

/-- An absolute path without `.` and `..`. -/
def resolveLexically (path : Path) : Path := LexicalPath.walk (ascii ".") (ascii "..") [] path

/-- The path resolves to the staging directory or to what is below it. -/
def Inside (staging target : Path) : Prop := resolveLexically staging <+: resolveLexically target

/-- Every file a commit writes or removes is inside the staging directory. -/
def Contained (staging : Path) (image : RwImage) : Prop :=
  ∀ effect ∈ stagingEffects image staging, Inside staging effect.target

/-- The components of the path never leave the staging directory, or lead back into it along the
names they climbed over. -/
def StaysInside (staging : Path) (path : Bytes) : Prop :=
  let top := resolveLexically staging
  let reduced := LexicalPath.reduce (ascii ".") (ascii "..") (pathComponents (stagingRelative path))
  top.drop (top.length - reduced.1) <+: reduced.2

instance (staging : Path) (path : Bytes) : Decidable (StaysInside staging path) :=
  inferInstanceAs (Decidable (_ <+: _))

theorem inside_stagingTarget {staging : Path} {path : Bytes} :
    Inside staging (stagingTarget staging path) ↔ StaysInside staging path := by
  unfold Inside StaysInside stagingTarget resolveLexically
  rw [LexicalPath.walk_append]
  exact LexicalPath.prefix_walk_iff

/-- The path was deleted. -/
def Deleted (history : List HistoryEntry) (path : Bytes) : Prop :=
  ∃ e ∈ history, e.opByte = 3 ∧ e.path = path

/-- The handle has a content for the path or has deleted it. -/
def Touched (image : RwImage) (path : Bytes) : Prop :=
  path ∈ image.pendingFiles ∨ Deleted image.pendingHistory path

theorem mem_appliedDeletes {image : RwImage} {staging : Path} {effect : FileEffect} :
    effect ∈ appliedDeletes image staging ↔
      ∃ e ∈ image.pendingHistory, (e.opByte = 3 ∧ e.path ∉ image.pendingFiles) ∧
        effect = .remove (stagingTarget staging e.path) := by
  unfold appliedDeletes
  simp only [List.mem_map, List.mem_filter, decide_eq_true_eq, and_assoc]
  simp only [eq_comm]

theorem mem_pendingWrites {image : RwImage} {staging : Path} {effect : FileEffect} :
    effect ∈ pendingWrites image staging ↔
      ∃ path data, image.pendingFiles.lookup path = some data ∧
        effect = .write (stagingTarget staging path) data := by
  unfold pendingWrites
  rw [List.mem_map]
  constructor
  · rintro ⟨file, hin, rfl⟩
    exact ⟨file.1, file.2, AList.mem_lookup_iff.mpr hin, rfl⟩
  · rintro ⟨path, data, hlookup, rfl⟩
    exact ⟨⟨path, data⟩, AList.mem_lookup_iff.mp hlookup, rfl⟩

/-- **A commit stays in its staging directory exactly when every touched path does.** -/
theorem contained_iff_touched {staging : Path} {image : RwImage} :
    Contained staging image ↔ ∀ path, Touched image path → StaysInside staging path := by
  have hwritten : ∀ path ∈ image.pendingFiles, ∃ data,
      FileEffect.write (stagingTarget staging path) data ∈ stagingEffects image staging := by
    intro path hin
    obtain ⟨data, hdata⟩ := Option.isSome_iff_exists.mp (AList.lookup_isSome.mpr hin)
    exact ⟨data, List.mem_append_right _ (mem_pendingWrites.mpr ⟨path, data, hdata, rfl⟩)⟩
  constructor
  · intro h path htouched
    by_cases hin : path ∈ image.pendingFiles
    · obtain ⟨data, hmem⟩ := hwritten path hin
      exact inside_stagingTarget.mp (h _ hmem)
    · obtain ⟨e, he, hop, rfl⟩ := htouched.resolve_left hin
      exact inside_stagingTarget.mp (h _ (List.mem_append_left _
        (mem_appliedDeletes.mpr ⟨e, he, ⟨hop, hin⟩, rfl⟩)))
  · intro h effect hmem
    rcases List.mem_append.mp hmem with hdel | hwrite
    · obtain ⟨e, he, ⟨hop, -⟩, rfl⟩ := mem_appliedDeletes.mp hdel
      exact inside_stagingTarget.mpr (h _ (Or.inr ⟨e, he, hop, rfl⟩))
    · obtain ⟨path, data, hlookup, rfl⟩ := mem_pendingWrites.mp hwrite
      refine inside_stagingTarget.mpr (h _ (Or.inl (AList.lookup_isSome.mp ?_)))
      rw [hlookup]
      rfl

/-! ### Runs -/

theorem deleted_snoc {history : List HistoryEntry} {e : HistoryEntry} {path : Bytes} :
    Deleted (history ++ [e]) path ↔ Deleted history path ∨ (e.opByte = 3 ∧ e.path = path) := by
  unfold Deleted
  simp only [List.mem_append, List.mem_singleton, or_and_right, exists_or, exists_eq_left]

theorem touched_apply {op : Op} {image image' : RwImage} (h : op.apply image = .ok image')
    {path : Bytes} : Touched image' path ↔ Touched image path ∨ path = op.key := by
  unfold Touched
  rcases Op.apply_cases h with ⟨data, e, inode, next, -, hop, rfl⟩ | ⟨inode, rfl⟩
  · have hnone : ¬ (e.opByte = 3 ∧ e.path = path) := fun hdel => hop hdel.1
    rw [AList.mem_insert, deleted_snoc, or_iff_left hnone, or_assoc]
    exact or_comm
  · have hdelete : (HistoryEntry.delete op.key inode).opByte = 3 ∧
        (HistoryEntry.delete op.key inode).path = path ↔ path = op.key :=
      ⟨fun h => h.2.symm, fun h => ⟨rfl, h.symm⟩⟩
    rw [AList.mem_erase, deleted_snoc, hdelete]
    by_cases hkey : path = op.key
    · simp [hkey]
    · simp [hkey]

theorem touched_runOps : ∀ {ops : List Op} {image image' : RwImage},
    runOps image ops = .ok image' → ∀ {path : Bytes},
      Touched image' path ↔ Touched image path ∨ ∃ op ∈ ops, path = op.key := by
  intro ops
  induction ops with
  | nil =>
      intro image image' h path
      cases h
      simp
  | cons op ops ih =>
      intro image image' h path
      rw [runOps, List.foldlM_cons] at h
      obtain ⟨mid, hmid, hrest⟩ := except_bind_eq_ok.mp h
      rw [ih hrest, touched_apply hmid, List.exists_mem_cons_iff, or_assoc]

/-! ### Paths from a log -/

theorem touched_replayOp {image : RwImage} {op : UInt8} {key : Bytes}
    (hop : op = 1 ∨ op = 2 ∨ op = 3) {path : Bytes} :
    Touched (replayOp image op key) path ↔ Touched image path ∨ (op = 3 ∧ key = path) := by
  unfold Touched replayOp
  by_cases h1 : op = 1
  · subst h1
    rw [if_pos rfl, deleted_snoc, or_assoc]
    rfl
  · rw [if_neg h1]
    by_cases h2 : op = 2
    · subst h2
      rw [if_pos rfl, deleted_snoc, or_assoc]
      rfl
    · have h3 : op = 3 := (hop.resolve_left h1).resolve_left h2
      subst h3
      have hdelete : (HistoryEntry.delete key ((image.inodeMap.lookup key).getD 0)).opByte = 3 :=
        rfl
      rw [if_neg h2, AList.mem_erase, deleted_snoc, and_iff_right hdelete, eq_self, true_and]
      by_cases hkey : path = key
      · simp [hkey, HistoryEntry.path]
      · simp [hkey, HistoryEntry.path, or_assoc]

theorem touched_applied {b : WalBody} (hfits : b.Fits) {image : RwImage} {path : Bytes} :
    Touched (b.applied image) path ↔ Touched image path ∨ (∃ file ∈ b.files, file.1 = path) ∨
      ∃ op ∈ b.ops, op.1 = 3 ∧ op.2 = path := by
  have hops : ∀ (ops : List (UInt8 × Bytes)), (∀ op ∈ ops, op.1 = 1 ∨ op.1 = 2 ∨ op.1 = 3) →
      ∀ image : RwImage, Touched (ops.foldl (fun image op => replayOp image op.1 op.2) image) path ↔
        Touched image path ∨ ∃ op ∈ ops, op.1 = 3 ∧ op.2 = path := by
    intro ops
    induction ops with
    | nil =>
        intro _ image
        simp
    | cons op ops ih =>
        intro hknown image
        obtain ⟨hop, hrest⟩ := List.forall_mem_cons.mp hknown
        rw [List.foldl_cons, ih hrest, touched_replayOp hop, List.exists_mem_cons_iff, or_assoc]
  have hfiles : ∀ (files : List (Σ _ : Bytes, Bytes)) (m : PathMap Bytes),
      path ∈ files.foldl (fun m file => m.insert file.1 file.2) m ↔
        path ∈ m ∨ ∃ file ∈ files, file.1 = path := by
    intro files
    induction files with
    | nil =>
        intro m
        simp
    | cons file files ih =>
        intro m
        rw [List.foldl_cons, ih, AList.mem_insert, List.exists_mem_cons_iff, eq_comm (a := path),
          or_comm (a := file.1 = path), or_assoc]
  let filled := b.files.foldl (fun m file => m.insert file.1 file.2) image.pendingFiles
  have hfilled : Touched { image with pendingFiles := filled } path ↔
      Touched image path ∨ ∃ file ∈ b.files, file.1 = path := by
    show (path ∈ filled ∨ Deleted image.pendingHistory path) ↔ _
    rw [hfiles, Touched, or_assoc, or_assoc]
    exact or_congr_right or_comm
  rw [WalBody.applied, hops _ fun op hop => (hfits.paths op hop).2.2, hfilled, or_assoc]

/-! ### Staging containment -/

/-- **A commit stays in its staging directory exactly when every path that was passed to the
handle, or replayed into it, does.** -/
theorem staging_contained_iff : ∀ (staging : Path) (start image : RwImage) (ops : List Op),
    runOps start ops = .ok image →
    (Contained staging image ↔
      (∀ path, Touched start path → StaysInside staging path) ∧
        ∀ op ∈ ops, StaysInside staging op.key) ∧
    ∀ (fresh : RwImage) (b : WalBody), b.Fits → start = b.applied fresh →
      fresh.pendingFiles = ∅ → fresh.pendingHistory = [] →
      ((∀ path, Touched start path → StaysInside staging path) ↔
        (∀ file ∈ b.files, StaysInside staging file.1) ∧
          ∀ op ∈ b.ops, op.1 = 3 → StaysInside staging op.2) := by
  intro staging start image ops hrun
  refine ⟨?_, fun fresh b hfits hstart hfiles hhistory => ?_⟩
  · rw [contained_iff_touched]
    constructor
    · intro h
      refine ⟨fun path ht => h path ((touched_runOps hrun).mpr (Or.inl ht)), fun op hop => ?_⟩
      exact h op.key ((touched_runOps hrun).mpr (Or.inr ⟨op, hop, rfl⟩))
    · rintro ⟨hbefore, hops⟩ path ht
      rcases (touched_runOps hrun).mp ht with hstart | ⟨op, hop, rfl⟩
      · exact hbefore path hstart
      · exact hops op hop
  · have hnone : ∀ path, ¬ Touched fresh path := by
      intro path ht
      rcases ht with hin | ⟨e, he, -⟩
      · rw [hfiles] at hin
        exact AList.notMem_empty path hin
      · rw [hhistory] at he
        exact absurd he List.not_mem_nil
    subst hstart
    constructor
    · intro h
      refine ⟨fun file hfile => ?_, fun op hop hdel => ?_⟩
      · exact h _ ((touched_applied hfits).mpr (Or.inr (Or.inl ⟨file, hfile, rfl⟩)))
      · exact h _ ((touched_applied hfits).mpr (Or.inr (Or.inr ⟨op, hop, hdel, rfl⟩)))
    · rintro ⟨hf, hd⟩ path ht
      rcases (touched_applied hfits).mp ht with hin | ⟨file, hfile, rfl⟩ | ⟨op, hop, hdel, rfl⟩
      · exact absurd hin (hnone path)
      · exact hf file hfile
      · exact hd op hop hdel

namespace Stored

/-- A staging directory two levels below the image's. -/
def stagingDir : Path := [ascii "images", ascii ".scratch", ascii "limnifs-rw-1-2"]

def climbing : Op := .addFile ⟨ascii "../../x", by decide +kernel⟩ (ascii "new")

/-- The same path in a log. -/
def climbingBody : WalBody := ⟨[⟨ascii "../../x", ascii "new"⟩], []⟩

theorem climbingBody_fits : climbingBody.Fits := by
  refine ⟨by decide, fun file hfile => ?_, by decide, fun op hop => absurd hop List.not_mem_nil⟩
  rw [List.mem_singleton.mp hfile]
  exact ⟨by decide, by decide +kernel, by decide⟩

end Stored

open LimniFS.Rw.Stored

/-- A path that climbs is written next to the image's own files, and so is one from a log. -/
theorem climbing_path_escapes :
    (∃ image, runOps .createNew [climbing] = .ok image ∧
      (∃ effect ∈ stagingEffects image stagingDir,
        resolveLexically effect.target = [ascii "images", ascii "x"]) ∧
      ¬ Contained stagingDir image) ∧
    ¬ Contained stagingDir (climbingBody.applied rwOpened) := by
  refine ⟨⟨_, rfl, ⟨.write _ _, List.mem_singleton_self _, by decide +kernel⟩, fun h => ?_⟩,
    fun h => ?_⟩
  · exact absurd (inside_stagingTarget.mp (h _ (List.mem_singleton_self _))) (by decide +kernel)
  · have hpath := contained_iff_touched.mp h (ascii "../../x") (Or.inl (by decide +kernel))
    exact absurd hpath (by decide +kernel)

theorem staging_contained_iff_climbing :
    runOps RwImage.createNew [climbing] = .ok (RwImage.createNew.addFile
        (ascii "../../x") (ascii "new")) ∧
      climbingBody.Fits ∧ rwOpened.pendingFiles = ∅ ∧
      (Contained stagingDir (RwImage.createNew.addFile (ascii "../../x") (ascii "new")) ↔
        (∀ path, Touched .createNew path → StaysInside stagingDir path) ∧
          ∀ op ∈ [climbing], StaysInside stagingDir op.key) ∧
      ((∀ path, Touched (climbingBody.applied rwOpened) path →
          StaysInside stagingDir path) ↔
        (∀ file ∈ climbingBody.files, StaysInside stagingDir file.1) ∧
          ∀ op ∈ climbingBody.ops, op.1 = 3 → StaysInside stagingDir op.2) :=
  ⟨rfl, climbingBody_fits, rwOpened_pendingFiles,
    (staging_contained_iff _ _ _ _ rfl).1,
    (staging_contained_iff stagingDir (climbingBody.applied rwOpened) _ [] rfl).2
      rwOpened climbingBody climbingBody_fits rfl rwOpened_pendingFiles
      (List.isEmpty_iff.mp (by decide +kernel))⟩

end LimniFS.Rw
