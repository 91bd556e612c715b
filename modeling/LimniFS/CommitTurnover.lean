/-
Trees that commits and turnovers of one handle store.

Both rebuild the image from what the handle keeps in memory: the blob that was read when it was
opened, the pending files and the history.  A commit changes none of these; a turnover of an opened
handle stages the blob alone, and one of a created handle the pending files.

So a turnover behind a commit stores the tree that was there before it
(`turnover_reverts_commit`).  `turnover_keeps_commits_iff` says for every run when it does not.
-/
import LimniFS.CommitView

namespace LimniFS.Rw

open Lib

/-! ### Sessions -/

/-- What a tree shows at every path. -/
abbrev ShownTree := Path → Option (FileEntry Bytes)

/-- How a rebuild goes: the file system it stages in, the order in which it goes through a map, and
whether the staged tree was packed and has replaced the image. -/
structure Rebuild where
  os : StagingOs
  iterate : PathMap Bytes → List (Σ _ : Bytes, Bytes)
  iterates : ∀ m, (iterate m).Perm m.entries
  replaced : Bool

/-- A handle, the tree of the image on disk, and the tree of the last commit, or of the image when
there was none. -/
structure TreeSession where
  image : RwImage
  onDisk : ShownTree
  committed : ShownTree

inductive TreeStep where
  | call (op : Op)
  | commit (rebuild : Rebuild)
  | turnover (rebuild : Rebuild)

section
variable (H : Hash) (z : Omnizip)

/-- What `turnover` stages: `write_live_tree_only`, or `write_pending_only` in a directory made
empty. -/
def turnoverTree (rebuild : Rebuild) (image : RwImage) : Except CoreError StagingDir :=
  match image.state with
  | some state => writeLiveTree H z rebuild.os state
  | none => (rebuild.iterate image.pendingFiles).foldlM (stageWrite rebuild.os) (.bare [])

/-- The tree that a rebuild stores, if it succeeds. -/
def Rebuild.stores (rebuild : Rebuild) (staged : Except CoreError StagingDir) : Option ShownTree :=
  if rebuild.replaced then staged.toOption.map FileTree.shows else none

/-- A call that fails changes nothing, nor does a rebuild. -/
def TreeStep.apply (s : TreeSession) : TreeStep → TreeSession
  | .call op => { s with image := (op.apply s.image).toOption.getD s.image }
  | .commit rebuild =>
    match rebuild.stores (writeStagingTree rebuild.os H z s.image
        (rebuild.iterate s.image.pendingFiles)) with
    | none => s
    | some tree => { s with onDisk := tree, committed := tree }
  | .turnover rebuild =>
    match rebuild.stores (turnoverTree H z rebuild s.image) with
    | none => s
    | some tree => { s with onDisk := tree }

def runTrees (s : TreeSession) (steps : List TreeStep) : TreeSession :=
  steps.foldl (TreeStep.apply H z) s

end

/-- A directory with nothing in it. -/
def noFiles : ShownTree := fun q => if q = [] then some .dir else none

/-- A new image, or one that was opened. -/
inductive TreeStarts (H : Hash) (z : Omnizip) : TreeSession → Prop
  | created : TreeStarts H z ⟨.createNew, noFiles, noFiles⟩
  | opened {fuel : Nat} {file : ImageFile} {wal : Option Bytes} {image : RwImage} {state : OpenState}
      (hopen : openImage H z fuel file wal = .ok (some image)) (hstate : image.state = some state) :
      TreeStarts H z ⟨image, imageEntry H z state, imageEntry H z state⟩

/-- The image on disk has the tree of the last commit. -/
def KeepsCommit (s : TreeSession) : Prop := s.onDisk = s.committed

/-! ### What a turnover stores -/

/-- The tree that a walk of the image reports. -/
def reportedTree (H : Hash) (z : Omnizip) (state : OpenState) : ShownTree := fun q =>
  if q = [] then some .dir
  else
    match walkLiveTree H state.blob recorder state.rootInode [] with
    | .error _ => none
    | .ok events => (events.find? fun event => event.1 = q).bind fun event =>
        inodeEntry (slabSource z state) event.2

/-- The tree of the pending files alone. -/
def pendingTree (image : RwImage) : ShownTree := fun q =>
  match pendingAt image q with
  | some data => some (.file data)
  | none => if q = [] ∨ AbovePending image q then some .dir else none

/-- What the handle can rebuild without its history: the tree it has read, or its pending files. -/
def heldTree (H : Hash) (z : Omnizip) (image : RwImage) : ShownTree :=
  match image.state with
  | some state => reportedTree H z state
  | none => pendingTree image

section
variable {H : Hash} {z : Omnizip}

theorem staged_reported {os : StagingOs} {state : OpenState} {base : StagingDir}
    (hwf : state.blob.WellFormed) (h : writeLiveTree H z os state = .ok base) :
    base.shows = reportedTree H z state := by
  obtain ⟨events, s, hevents, hstaged, rfl⟩ := stagedLive hwf.namesDistinct h
  funext q
  unfold reportedTree
  by_cases hnil : q = []
  · rw [if_pos hnil, hnil]
    exact FileTree.shows_eq_dir.mpr hstaged.rooted.root
  · rw [if_neg hnil, hevents]
    simp only
    cases hfound : events.find? fun event => event.1 = q with
    | none =>
        rw [Option.bind_none, FileTree.shows_eq_none]
        refine hstaged.absent q hnil fun hin => ?_
        obtain ⟨event, hevent, heq⟩ := List.mem_map.mp hin
        have := List.find?_eq_none.mp hfound event hevent
        exact this (by simpa using heq)
    | some event =>
        have heq : event.1 = q := by simpa using List.find?_some hfound
        rw [Option.bind_some, ← hstaged.shown event (List.mem_of_find?_eq_some hfound), heq]

theorem shows_bare (q : Path) :
    (FileTree.bare [] : StagingDir).shows q = if q = [] then some .dir else none := by
  cases q with
  | nil => rfl
  | cons => rfl

/-- Plain pending files, written into an empty directory. -/
theorem pending_only_shows {rebuild : Rebuild} {image : RwImage}
    (hplain : ∀ key ∈ image.pendingFiles, Plain key) {tree : StagingDir}
    (h : (rebuild.iterate image.pendingFiles).foldlM (stageWrite rebuild.os) (.bare []) = .ok tree) :
    tree.shows = pendingTree image := by
  have hfiles := rebuild.iterates image.pendingFiles
  have hnoFile : ∀ q object, (FileTree.bare [] : StagingDir).node q ≠ some (.file object) := by
    intro q object hnode
    cases q with
    | nil => cases hnode
    | cons => cases hnode
  have hmid : FileTree.Removed (FileTree.bare [] : StagingDir) (fun _ => False) .pending
      (.bare []) :=
    ⟨fun q _ => rfl, fun q hgone => hgone.elim, rfl, fun p q heq => StagedFile.pending.inj heq,
      fun q p => hnoFile q _⟩
  have hnocross : ∀ path, (FileTree.bare [] : StagingDir).crosses path = false := by
    intro path
    rw [Bool.eq_false_iff]
    intro hcross
    obtain ⟨q, target, -, hnode⟩ := FileTree.crosses_iff.mp hcross
    cases q with
    | nil => cases hnode
    | cons => cases hnode
  have hover : FileTree.Overlaid .pending (.bare []) (stagedWrites (rebuild.iterate image.pendingFiles))
      tree := by
    refine FileTree.Overlaid.writeAll (FileTree.overlaid_nil (FileTree.rooted_bare []))
      (nodup_stagedWrites hfiles hplain) (foldlM_stageWrite (fun file hfile => ?_) h)
    have hkey : file.1 ∈ image.pendingFiles :=
      AList.mem_keys.mpr (List.mem_map_of_mem (hfiles.mem_iff.mp hfile))
    exact ⟨hplain _ hkey, hnocross _⟩
  have hfits : (FileTree.bare [] : StagingDir).OverlayFits (fun _ => False) (fun _ => True)
      (stagedWrites (rebuild.iterate image.pendingFiles)) := by
    refine ⟨fun q _ => Or.inl trivial, fun q _ _ _ => ⟨fun _ hno => hno, fun _ => trivial⟩,
      fun w _ q object hnode => absurd hnode (hnoFile _ _)⟩
  funext q
  rw [FileTree.OverlayFits.shows hmid hover (nodup_stagedWrites hfiles hplain) hfits q]
  unfold FileTree.wanted pendingTree
  rw [FileTree.lookup_of_graph (nodup_stagedWrites hfiles hplain)
    (fun _ _ => mem_stagedWrites hfiles hplain) q]
  cases pendingAt image q with
  | some data => rfl
  | none =>
      simp only [exists_stagedWrites hfiles, shows_bare, if_true]
      by_cases habove : AbovePending image q
      · rw [if_pos habove, if_pos (Or.inr habove)]
      · rw [if_neg habove]
        simp only [habove, or_false]

/-- What a turnover that succeeds stores. -/
theorem turnoverTree_shows {rebuild : Rebuild} {image : RwImage}
    (hwf : ∀ state, image.state = some state → state.blob.WellFormed)
    (hplain : image.state = none → ∀ key ∈ image.pendingFiles, Plain key) {tree : ShownTree}
    (h : rebuild.stores (turnoverTree H z rebuild image) = some tree) :
    tree = heldTree H z image := by
  unfold Rebuild.stores at h
  split at h
  · obtain ⟨staged, hstaged, rfl⟩ := Option.map_eq_some_iff.mp h
    unfold turnoverTree at hstaged
    unfold heldTree
    cases hstate : image.state with
    | some state =>
        rw [hstate] at hstaged
        simp only at hstaged ⊢
        cases hlive : writeLiveTree H z rebuild.os state with
        | error e =>
            rw [hlive] at hstaged
            cases hstaged
        | ok base =>
            rw [hlive] at hstaged
            cases hstaged
            exact staged_reported (hwf state hstate) hlive
    | none =>
        rw [hstate] at hstaged
        simp only at hstaged ⊢
        cases hpending : (rebuild.iterate image.pendingFiles).foldlM (stageWrite rebuild.os)
            (.bare []) with
        | error e =>
            rw [hpending] at hstaged
            cases hstaged
        | ok base =>
            rw [hpending] at hstaged
            cases hstaged
            exact pending_only_shows (hplain hstate) hpending
  · cases h

end

/-! ### Commits that change nothing -/

/-- Every pending file is in the image with its content, and nothing the image shows was deleted. -/
structure Unchanged (H : Hash) (z : Omnizip) (state : OpenState) (image : RwImage) : Prop where
  files : ∀ key data, image.pendingFiles.lookup key = some data →
    imageEntry H z state (keyPath key) = some (.file data)
  deletions : ∀ key ∈ deletedKeys image, ∀ e, imageEntry H z state (keyPath key) = some e →
    AbovePending image (keyPath key)

section
variable {H : Hash} {z : Omnizip} {os : StagingOs} {state : OpenState} {index : PathMap Nat}
  {image : RwImage}

theorem pendingAt_keyPath (hplain : ∀ key ∈ image.pendingFiles, Plain key) {key : Bytes}
    (hproper : Proper key) : pendingAt image (keyPath key) = image.pendingFiles.lookup key := by
  have hfiles := List.Perm.refl image.pendingFiles.entries
  refine Option.ext fun data => ?_
  rw [← mem_stagedWrites hfiles hplain]
  constructor
  · intro h
    obtain ⟨file, hfile, heq⟩ := List.mem_map.mp h
    obtain ⟨hpath, rfl⟩ := Prod.mk.inj heq
    have hkey : file.1 ∈ image.pendingFiles := AList.mem_keys.mpr (List.mem_map_of_mem hfile)
    rw [← (hplain _ hkey).1.inj hproper hpath]
    exact AList.mem_lookup_iff.mpr hfile
  · intro h
    exact List.mem_map.mpr ⟨⟨key, data⟩, AList.mem_lookup_iff.mp h, rfl⟩

/-- **A commit that does what was asked for leaves the tree that was read at open exactly if
nothing was asked for that is not so already.** -/
theorem commit_unchanged_iff (horderly : Orderly H z os state image)
    (hwf : state.blob.WellFormed) (hindex : ExactIndex H state.blob state.rootInode index)
    (haccounts : Accounts index image) (hstate : image.state = some state)
    {files : List (Σ _ : Bytes, Bytes)} (hfiles : files.Perm image.pendingFiles.entries)
    {base committed : StagingDir} (hlive : writeLiveTree H z os state = .ok base)
    (hoverlays : Overlays H z os state base image)
    (h : writeStagingTree os H z image files = .ok committed) :
    committed.shows = heldTree H z image ↔ Unchanged H z state image := by
  have hplain : ∀ key ∈ image.pendingFiles, Plain key := fun key hin => horderly.plain key (Or.inl hin)
  have hview := ((commitRefines_iff horderly hwf hindex haccounts hstate hfiles hlive h).mpr
    hoverlays).shows
  have hbase := staged_shows hwf horderly.dirs hlive
  have hheld : heldTree H z image = imageEntry H z state := by
    unfold heldTree
    rw [hstate]
    exact (staged_reported hwf hlive).symm.trans (funext hbase)
  rw [hheld, funext_iff]
  simp only [hview]
  constructor
  · intro hsame
    refine ⟨fun key data hlookup => ?_, fun key hkey e hshown => ?_⟩
    · have hin : key ∈ image.pendingFiles := AList.lookup_isSome.mp (by rw [hlookup]; rfl)
      rw [← hsame, handleView, pendingAt_keyPath hplain (hplain key hin).1, hlookup]
    · by_contra habove
      obtain ⟨hdeleted, hnot⟩ := mem_deletedKeys.mp hkey
      have hproper := (horderly.plain key (Or.inr hdeleted)).1
      obtain ⟨key', hproper', heq, hkept⟩ :=
        haccounts.kept_iff hwf hindex horderly.plain hshown habove
      obtain rfl := hproper'.inj hproper heq
      have hmapped : ¬ Mapped image (keyPath key') := fun hmapped => hkept.mp hmapped hkey
      have hnone : handleView H z state image (keyPath key') = none := by
        rw [handleView, pendingAt_keyPath hplain hproper, AList.lookup_eq_none.mpr hnot]
        simp only [if_neg habove, if_neg hmapped]
      rw [← hsame, hnone] at hshown
      cases hshown
  · intro hunchanged q
    have hpresent : ∀ key ∈ image.pendingFiles, ∃ data,
        image.pendingFiles.lookup key = some data ∧
          imageEntry H z state (keyPath key) = some (.file data) := by
      intro key hin
      obtain ⟨data, hdata⟩ := Option.isSome_iff_exists.mp (AList.lookup_isSome.mpr hin)
      exact ⟨data, hdata, hunchanged.files key data hdata⟩
    unfold handleView
    cases hpending : pendingAt image q with
    | some data =>
        obtain ⟨file, hfound, rfl⟩ := Option.map_eq_some_iff.mp hpending
        have hpath : keyPath file.1 = q := by simpa using List.find?_some hfound
        have hlookup := AList.mem_lookup_iff.mpr (List.mem_of_find?_eq_some hfound)
        rw [← hpath, hunchanged.files file.1 file.2 hlookup]
    | none =>
        simp only
        by_cases habove : AbovePending image q
        · -- a directory is above every file the image shows
          rw [if_pos habove]
          obtain ⟨key, hkey, hpre⟩ := habove
          have hin : key ∈ image.pendingFiles := AList.mem_keys.mpr hkey
          obtain ⟨data, hdata, hshown⟩ := hpresent key hin
          have hne : q ≠ keyPath key := by
            rintro rfl
            rw [pendingAt_keyPath hplain (hplain key hin).1, hdata] at hpending
            cases hpending
          have hsome : (base.node (keyPath key)).isSome := by
            have hshows := (hbase (keyPath key)).trans hshown
            rw [FileTree.shows, Option.map_eq_some_iff] at hshows
            obtain ⟨n, hnode, -⟩ := hshows
            rw [hnode]
            rfl
          have hdir := (staged_objects hwf hlive).1.above hsome hpre hne
          rw [← hbase, FileTree.shows_eq_dir.mpr hdir]
        · rw [if_neg habove]
          by_cases hmapped : Mapped image q
          · rw [if_pos hmapped]
          · rw [if_neg hmapped]
            cases hshown : imageEntry H z state q with
            | none => rfl
            | some e =>
                obtain ⟨key, -, rfl, hkept⟩ :=
                  haccounts.kept_iff hwf hindex horderly.plain hshown habove
                have hkey : key ∈ deletedKeys image := by
                  by_contra hnot
                  exact hmapped (hkept.mpr hnot)
                exact absurd (hunchanged.deletions key hkey e hshown) habove

end

/-! ### Runs -/

section
variable (H : Hash) (z : Omnizip)

/-- A turnover that succeeds finds the tree of the last commit in what the handle holds. -/
def TurnoverFits (s : TreeSession) : TreeStep → Prop
  | .turnover rebuild => (rebuild.stores (turnoverTree H z rebuild s.image)).isSome →
      s.committed = heldTree H z s.image
  | _ => True

end

/-- The pending paths of a created handle are plain when it is turned over. -/
def PlainTurnover (s : TreeSession) : TreeStep → Prop
  | .turnover _ => s.image.state = none → ∀ key ∈ s.image.pendingFiles, Plain key
  | _ => True

section
variable {H : Hash} {z : Omnizip} {s : TreeSession} {step : TreeStep}

theorem state_apply : (step.apply H z s).image.state = s.image.state := by
  cases step with
  | call op =>
      show ((op.apply s.image).toOption.getD s.image).state = s.image.state
      cases happly : op.apply s.image with
      | error e => rfl
      | ok image =>
          have hrun : runOps s.image [op] = .ok image := by
            rw [runOps, List.foldlM_cons, happly]
            rfl
          exact state_runOps hrun
  | commit rebuild =>
      unfold TreeStep.apply
      simp only
      split
      · rfl
      · rfl
  | turnover rebuild =>
      unfold TreeStep.apply
      simp only
      split
      · rfl
      · rfl

theorem runTrees_snoc (s : TreeSession) (steps : List TreeStep) (step : TreeStep) :
    runTrees H z s (steps ++ [step]) = step.apply H z (runTrees H z s steps) := by
  rw [runTrees, List.foldl_append]
  rfl

theorem state_runTrees (s : TreeSession) (steps : List TreeStep) :
    (runTrees H z s steps).image.state = s.image.state := by
  induction steps using List.reverseRecOn with
  | nil => rfl
  | append_singleton steps step ih => rw [runTrees_snoc, state_apply, ih]

theorem TreeStarts.wellFormed (h : TreeStarts H z s) {state : OpenState}
    (hstate : s.image.state = some state) : state.blob.WellFormed := by
  cases h with
  | created => cases hstate
  | opened hopen _ =>
      obtain ⟨state', index, hopened, -, hstate', -⟩ := openImage_eq_ok hopen
      obtain rfl : state = state' := Option.some.inj (hstate.symm.trans hstate')
      exact (openState_ok hopened).1

theorem TreeStarts.keeps (h : TreeStarts H z s) : KeepsCommit s := by
  cases h with
  | created => rfl
  | opened hopen hstate => rfl

theorem keepsCommit_apply (hkeeps : KeepsCommit s)
    (hwf : ∀ state, s.image.state = some state → state.blob.WellFormed)
    (hplain : PlainTurnover s step) :
    KeepsCommit (step.apply H z s) ↔ TurnoverFits H z s step := by
  cases step with
  | call op => exact ⟨fun _ => trivial, fun _ => hkeeps⟩
  | commit rebuild =>
      refine ⟨fun _ => trivial, fun _ => ?_⟩
      unfold TreeStep.apply
      simp only
      split
      · exact hkeeps
      · rfl
  | turnover rebuild =>
      unfold TreeStep.apply TurnoverFits
      simp only
      cases hstores : rebuild.stores (turnoverTree H z rebuild s.image) with
      | none => exact ⟨fun _ hsome => absurd hsome (by simp), fun _ => hkeeps⟩
      | some tree =>
          have htree := turnoverTree_shows hwf hplain hstores
          subst htree
          exact ⟨fun h _ => h.symm, fun h => (h rfl).symm⟩

end

/-- **In every run the image on disk has the tree of the last commit, exactly if that is the tree
the handle holds whenever it is turned over.** -/
theorem turnover_keeps_commits_iff : ∀ (H : Hash) (z : Omnizip) (s : TreeSession),
    TreeStarts H z s → ∀ steps : List TreeStep,
    (∀ before step after, steps = before ++ step :: after →
      PlainTurnover (runTrees H z s before) step) →
    ((∀ before after, steps = before ++ after → KeepsCommit (runTrees H z s before)) ↔
      ∀ before step after, steps = before ++ step :: after →
        TurnoverFits H z (runTrees H z s before) step) := by
  intro H z s hstarts steps hplain
  have hwf : ∀ before state, (runTrees H z s before).image.state = some state →
      state.blob.WellFormed := by
    intro before state hstate
    exact hstarts.wellFormed ((state_runTrees s before).symm.trans hstate)
  constructor
  · intro h before step after heq
    have hnext := h (before ++ [step]) after (by rw [heq, List.append_cons])
    rw [runTrees_snoc] at hnext
    exact (keepsCommit_apply (h before _ heq) (hwf before) (hplain before step after heq)).mp hnext
  · intro h before
    induction before using List.reverseRecOn with
    | nil =>
        intro after _
        exact hstarts.keeps
    | append_singleton before step ih =>
        intro after heq
        rw [List.append_assoc] at heq
        rw [runTrees_snoc]
        exact (keepsCommit_apply (ih _ heq) (hwf before) (hplain before step after heq)).mpr
          (h before step after heq)

namespace Stored

open LimniFS.Stored

def plainRebuild : Rebuild := ⟨plainOs, AList.entries, fun m => List.Perm.refl m.entries, true⟩

def nestedSession : TreeSession :=
  ⟨nestedOpened, imageEntry foldDigest omnizip nestedState, imageEntry foldDigest omnizip nestedState⟩

theorem nestedSession_starts : TreeStarts foldDigest omnizip nestedSession :=
  .opened openImage_nested nestedState_eq

/-- A file is added and committed, and then the image is turned over. -/
def addAndTurnOver : List TreeStep :=
  [.call (.addFile ⟨ascii "y", by decide +kernel⟩ (ascii "new")), .commit plainRebuild,
    .turnover plainRebuild]

end Stored

open LimniFS.Stored LimniFS.Rw.Stored

/-- The turnover takes a committed file away. -/
theorem turnover_reverts_commit :
    TreeStarts foldDigest omnizip nestedSession ∧
      (runTrees foldDigest omnizip nestedSession
        addAndTurnOver).committed [ascii "y"] = some (.file (ascii "new")) ∧
      (runTrees foldDigest omnizip nestedSession
        addAndTurnOver).onDisk [ascii "y"] = none ∧
      ¬ KeepsCommit (runTrees foldDigest omnizip
        nestedSession addAndTurnOver) := by
  have hcommitted : (runTrees foldDigest omnizip nestedSession
      addAndTurnOver).committed [ascii "y"] = some (.file (ascii "new")) := by
    decide +kernel
  have honDisk : (runTrees foldDigest omnizip nestedSession
      addAndTurnOver).onDisk [ascii "y"] = none := by
    decide +kernel
  refine ⟨nestedSession_starts, hcommitted, honDisk, fun h => ?_⟩
  rw [h, hcommitted] at honDisk
  cases honDisk

theorem turnover_keeps_commits_iff_nested :
    TreeStarts foldDigest omnizip nestedSession ∧
      ((∀ before after, addAndTurnOver = before ++ after →
          KeepsCommit (runTrees foldDigest omnizip
            nestedSession before)) ↔
        ∀ before step after, addAndTurnOver = before ++ step :: after →
          TurnoverFits foldDigest omnizip
            (runTrees foldDigest omnizip nestedSession before)
            step) := by
  refine ⟨nestedSession_starts, turnover_keeps_commits_iff _ _ _ nestedSession_starts
    addAndTurnOver fun before step after _ => ?_⟩
  cases step with
  | call op => trivial
  | commit rebuild => trivial
  | turnover rebuild =>
      intro hnone
      rw [state_runTrees] at hnone
      have hsome : nestedSession.image.state = some nestedState :=
        nestedState_eq
      rw [hsome] at hnone
      cases hnone

end LimniFS.Rw
