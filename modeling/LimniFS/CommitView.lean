/-
What a commit makes of the handle's view.

The tree that is packed shows what the handle shows, under conditions that the code does not look
at: no directory may be among the deleted paths unless a file is added below it, the file system
must let every file go that is to go, and a file that gets a new content must not have a second
name.  Within runs that lead straight down (`Orderly`) these are the exact ones
(`commit_refines_iff`).

A directory that was deleted stays in the tree, since `remove_file` does not take it away
(`deleted_directory_stays`).
-/
import LimniFS.CommitStaging

namespace LimniFS.Rw

open Lib Lib.Parser

/-! ### When a commit keeps to the view -/

/-- In the image each directory has one place, and what a commit works on is reached by names and
through no link of the image that is not gone by then. -/
structure Orderly (H : Hash) (z : Omnizip) (os : StagingOs) (state : OpenState) (image : RwImage) :
    Prop where
  dirs : DirsOnce H state.blob state.rootInode
  plain : ∀ key, Touched image key → Plain key
  deletes : ∀ before key after, deletedKeys image = before ++ key :: after → ∀ q target,
    q <+: (keyPath key).dropLast → imageEntry H z state q = some (.symlink target) →
      Gone os before q
  writes : ∀ key ∈ image.pendingFiles, ∀ q target, q <+: keyPath key →
    imageEntry H z state q = some (.symlink target) → Gone os (deletedKeys image) q

/-- What the commit does is what was asked for; `base` is the staged tree of the image. -/
structure Overlays (H : Hash) (z : Omnizip) (os : StagingOs) (state : OpenState)
    (base : StagingDir) (image : RwImage) : Prop where
  /-- No directory is deleted, unless a file is pending below it. -/
  dirs : ∀ q, imageEntry H z state q = some .dir → Mapped image q ∨ AbovePending image q
  /-- Every file or link that is deleted can be removed. -/
  removable : ∀ key ∈ deletedKeys image, ∀ e, imageEntry H z state (keyPath key) = some e →
    e ≠ .dir → ¬ AbovePending image (keyPath key) → os.mayRemove (keyPath key) = true
  /-- Other names of a file that gets a new content get the same, or had it, or are removed. -/
  names : ∀ p q object data, base.node p = some (.file object) →
    base.node q = some (.file object) → pendingAt image p = some data →
    ¬ Gone os (deletedKeys image) q → (pendingAt image q).getD (base.content object) = data

/-! ### What is opened -/

section
variable {H : Hash} {z : Omnizip}

theorem openState_ok {file : ImageFile} {state : OpenState} (h : openState z file = .ok state) :
    state.blob.WellFormed ∧ state.blob.rootInodeNumber = some state.rootInode := by
  unfold openState at h
  obtain ⟨front, -, h⟩ := except_bind_eq_ok.mp h
  obtain ⟨blobBytes, -, h⟩ := except_bind_eq_ok.mp h
  obtain ⟨⟨blob, rest⟩, hblob, h⟩ := except_bind_eq_ok.mp h
  obtain ⟨⟨slabIndex, rest'⟩, -, h⟩ := except_bind_eq_ok.mp h
  simp only at h
  split at h
  all_goals
    obtain ⟨store, -, h⟩ := except_bind_eq_ok.mp h
    split at h
    · cases h
    · next root hroot =>
        cases h
        exact ⟨parseMetadataBlob_wellFormed (run_eq_ok.mp hblob), hroot⟩

theorem state_replayBody (image : RwImage) (bytes : Bytes) :
    (replayBody image bytes).state = image.state := by
  obtain ⟨k, -, m, -, hstate⟩ := replayBody_induct (I := fun _ _ i => i.state = image.state)
    (fun _ _ _ _ _ h _ _ _ => h)
    (fun _ _ i op path h _ _ => by
      unfold replayOp
      split
      · exact h
      · split
        · exact h
        · exact h) rfl bytes
  exact hstate

theorem openImage_eq_ok {fuel : Nat} {file : ImageFile} {wal : Option Bytes} {start : RwImage}
    (h : openImage H z fuel file wal = .ok (some start)) :
    ∃ state index, openState z file = .ok state ∧ buildPathIndex H state.blob fuel = some index ∧
      start.state = some state ∧ (wal = none → start = freshHandle H file state index) := by
  unfold openImage at h
  obtain ⟨state, hstate, h⟩ := except_bind_eq_ok.mp h
  obtain ⟨index, hindex, rfl⟩ := Option.map_eq_some_iff.mp (Except.ok.inj h)
  refine ⟨state, index, hstate, hindex, ?_, fun hnone => by rw [hnone]; rfl⟩
  unfold replayWal
  split
  · rfl
  · split
    · rfl
    · split
      · rfl
      · exact state_replayBody _ _

end

/-! ### The account in paths -/

section
variable {H : Hash} {z : Omnizip} {os : StagingOs} {state : OpenState} {index : PathMap Nat}
  {image : RwImage}

theorem indexed_of_shown (hwf : state.blob.WellFormed)
    (hindex : ExactIndex H state.blob state.rootInode index) {q : Path} {e : FileEntry Bytes}
    (h : imageEntry H z state q = some e) :
    ∃ key, Proper key ∧ key ∈ index ∧ keyPath key = q := by
  obtain ⟨inode, hinode, -⟩ := Option.bind_eq_some_iff.mp h
  obtain ⟨number, hnumber, -⟩ := Option.bind_eq_some_iff.mp hinode
  have hat := (numberAt_root_iff hwf).mp hnumber
  have hnames := hat.names hwf
  refine ⟨absolutePath q, proper_absolutePath hnames, AList.lookup_isSome.mp ?_,
    keyPath_absolutePath hnames⟩
  rw [(hindex _ _).mpr ⟨q, rfl, hat⟩]
  rfl

theorem proper_of_index (hwf : state.blob.WellFormed)
    (hindex : ExactIndex H state.blob state.rootInode index) {key : Bytes} (h : key ∈ index) :
    Proper key ∧ (numberAt H state.blob state.rootInode (keyPath key)).isSome := by
  obtain ⟨number, hlookup⟩ := Option.isSome_iff_exists.mp (AList.lookup_isSome.mpr h)
  obtain ⟨names, rfl, hat⟩ := (hindex _ _).mp hlookup
  have hnames := hat.names hwf
  refine ⟨proper_absolutePath hnames, ?_⟩
  rw [keyPath_absolutePath hnames, (numberAt_root_iff hwf).mpr hat]
  rfl

variable (hwf : state.blob.WellFormed) (hindex : ExactIndex H state.blob state.rootInode index)
  (haccounts : Accounts index image) (hplain : ∀ key, Touched image key → Plain key)

include hwf hindex haccounts hplain

theorem Accounts.proper {key : Bytes} (h : key ∈ image.inodeMap) : Proper key := by
  by_cases hpending : key ∈ image.pendingFiles
  · exact (hplain key (Or.inl hpending)).1
  · exact (proper_of_index hwf hindex ((haccounts.others key hpending).mp h).1).1

theorem Accounts.mapped_iff {key : Bytes} (hproper : Proper key) :
    Mapped image (keyPath key) ↔ key ∈ image.inodeMap := by
  constructor
  · rintro ⟨key', hkey', heq⟩
    have hmem : key' ∈ image.inodeMap := AList.mem_keys.mpr hkey'
    have hproper' := haccounts.proper hwf hindex hplain hmem
    rwa [← hproper'.inj hproper heq]
  · intro hmem
    exact ⟨key, AList.mem_keys.mp hmem, rfl⟩

omit hwf hindex haccounts in
theorem gone_keyPath {key : Bytes} (hproper : Proper key) :
    Gone os (deletedKeys image) (keyPath key) ↔
      key ∈ deletedKeys image ∧ os.mayRemove (keyPath key) = true := by
  refine and_congr_left fun _ => ⟨fun h => ?_, fun h => List.mem_map_of_mem h⟩
  obtain ⟨key', hkey', heq⟩ := List.mem_map.mp h
  have hproper' := (hplain key' (Or.inr (mem_deletedKeys.mp hkey').1)).1
  rwa [← hproper'.inj hproper heq]

/-- Of what the image shows away from the pending files, the handle still has an inode exactly
where nothing was deleted. -/
theorem Accounts.kept_iff {q : Path} {e : FileEntry Bytes} (hshown : imageEntry H z state q = some e)
    (habove : ¬ AbovePending image q) :
    ∃ key, Proper key ∧ keyPath key = q ∧ (Mapped image q ↔ key ∉ deletedKeys image) := by
  obtain ⟨key, hproper, hkey, rfl⟩ := indexed_of_shown hwf hindex hshown
  have hpending : key ∉ image.pendingFiles := fun hin =>
    habove ⟨key, AList.mem_keys.mp hin, List.prefix_refl _⟩
  refine ⟨key, hproper, rfl, ?_⟩
  rw [haccounts.mapped_iff hwf hindex hplain hproper, haccounts.others key hpending,
    mem_deletedKeys, and_iff_right hkey, and_iff_left hpending]

end

/-! ### The pending files in paths -/

section
variable {image : RwImage} {files : List (Σ _ : Bytes, Bytes)}
  (hfiles : files.Perm image.pendingFiles.entries)

include hfiles in
theorem exists_stagedWrites {q : Path} :
    (∃ w ∈ stagedWrites files, q <+: w.1) ↔ AbovePending image q := by
  unfold stagedWrites AbovePending AList.keys List.keys
  simp only [List.mem_map, exists_exists_and_eq_and, hfiles.mem_iff]

include hfiles in
theorem nodup_stagedWrites (hplain : ∀ key ∈ image.pendingFiles, Plain key) :
    ((stagedWrites files).map Prod.fst).Nodup := by
  have hkeys : (files.map Sigma.fst).Nodup :=
    (hfiles.map Sigma.fst).nodup_iff.mpr image.pendingFiles.nodupKeys
  have hmem : ∀ file ∈ files, file.1 ∈ image.pendingFiles := by
    intro file hfile
    exact AList.mem_keys.mpr (List.mem_map_of_mem (hfiles.mem_iff.mp hfile))
  have heq : (stagedWrites files).map Prod.fst = (files.map Sigma.fst).map keyPath := by
    rw [stagedWrites, List.map_map, List.map_map]
    rfl
  rw [heq]
  refine (List.nodup_map_iff_inj_on hkeys).mpr fun key hkey key' hkey' hpath => ?_
  obtain ⟨file, hfile, rfl⟩ := List.mem_map.mp hkey
  obtain ⟨file', hfile', rfl⟩ := List.mem_map.mp hkey'
  exact (hplain _ (hmem file hfile)).1.inj (hplain _ (hmem file' hfile')).1 hpath

include hfiles in
theorem mem_stagedWrites (hplain : ∀ key ∈ image.pendingFiles, Plain key) {q : Path} {data : Bytes} :
    (q, data) ∈ stagedWrites files ↔ pendingAt image q = some data := by
  have hkey : ∀ {file}, file ∈ image.pendingFiles.entries → Proper file.1 := fun hin =>
    (hplain _ (AList.mem_keys.mpr (List.mem_map_of_mem hin))).1
  constructor
  · intro h
    obtain ⟨file, hfile, heq⟩ := List.mem_map.mp h
    obtain ⟨rfl, rfl⟩ := Prod.mk.inj heq
    have hin := hfiles.mem_iff.mp hfile
    obtain ⟨found, hfound⟩ := Option.isSome_iff_exists.mp (List.find?_isSome
      (p := fun f : Σ _ : Bytes, Bytes => decide (keyPath f.1 = keyPath file.1)) |>.mpr
        ⟨file, hin, by simp⟩)
    have hfoundIn := List.mem_of_find?_eq_some hfound
    have hpath : keyPath found.1 = keyPath file.1 := by simpa using List.find?_some hfound
    have hsame := (hkey hfoundIn).inj (hkey hin) hpath
    have hlookup := AList.mem_lookup_iff.mpr hfoundIn
    have hlookup' := AList.mem_lookup_iff.mpr hin
    rw [← hsame] at hlookup'
    have hdata : found.2 = file.2 := Option.some.inj (hlookup.symm.trans hlookup')
    rw [pendingAt, hfound, Option.map_some, hdata]
  · intro h
    obtain ⟨file, hfound, rfl⟩ := Option.map_eq_some_iff.mp h
    have hpath : keyPath file.1 = q := by simpa using List.find?_some hfound
    exact List.mem_map.mpr ⟨file, hfiles.mem_iff.mpr (List.mem_of_find?_eq_some hfound), by rw [hpath]⟩

include hfiles in
/-- What the writes should lead to is the handle's view. -/
theorem wanted_stagedWrites {H : Hash} {z : Omnizip} {state : OpenState} {base : StagingDir}
    (hplain : ∀ key ∈ image.pendingFiles, Plain key)
    (hbase : ∀ q, base.shows q = imageEntry H z state q) (q : Path) :
    base.wanted (Mapped image) (stagedWrites files) q = handleView H z state image q := by
  unfold FileTree.wanted handleView
  rw [FileTree.lookup_of_graph (nodup_stagedWrites hfiles hplain)
    (fun _ _ => mem_stagedWrites hfiles hplain) q]
  cases pendingAt image q with
  | some data => rfl
  | none => simp only [exists_stagedWrites hfiles, hbase]

end

/-! ### Commits -/

section
variable {H : Hash} {z : Omnizip} {os : StagingOs} {state : OpenState} {index : PathMap Nat}
  {image : RwImage} {base : StagingDir} {files : List (Σ _ : Bytes, Bytes)}

/-- Removing and writing leads to the view exactly where the commit does what was asked for. -/
theorem overlayFits_iff (hwf : state.blob.WellFormed)
    (hindex : ExactIndex H state.blob state.rootInode index) (haccounts : Accounts index image)
    (hplain : ∀ key, Touched image key → Plain key)
    (hfiles : files.Perm image.pendingFiles.entries)
    (hbase : ∀ q, base.shows q = imageEntry H z state q) :
    base.OverlayFits (Gone os (deletedKeys image)) (Mapped image) (stagedWrites files) ↔
      Overlays H z os state base image := by
  have hpending : ∀ key ∈ image.pendingFiles, Plain key := fun key hin => hplain key (Or.inl hin)
  have hgraph : ∀ q data, (q, data) ∈ stagedWrites files ↔ pendingAt image q = some data :=
    fun _ _ => mem_stagedWrites hfiles hpending
  have hlookup := FileTree.lookup_of_graph (nodup_stagedWrites hfiles hpending) hgraph
  -- a pending path is not removed
  have hstays : ∀ p data, pendingAt image p = some data → ¬ Gone os (deletedKeys image) p := by
    intro p data hdata hgone
    obtain ⟨file, hfound, -⟩ := Option.map_eq_some_iff.mp hdata
    have hkey : file.1 ∈ image.pendingFiles :=
      AList.mem_keys.mpr (List.mem_map_of_mem (List.mem_of_find?_eq_some hfound))
    have hpath : keyPath file.1 = p := by simpa using List.find?_some hfound
    rw [← hpath, gone_keyPath hplain (hpending _ hkey).1] at hgone
    exact (mem_deletedKeys.mp hgone.1).2 hkey
  have hgoes : ∀ q e, imageEntry H z state q = some e → ¬ AbovePending image q →
      ((Mapped image q ↔ ¬ Gone os (deletedKeys image) q) ↔
        ∀ key ∈ deletedKeys image, keyPath key = q → os.mayRemove q = true) := by
    intro q e hshown habove
    obtain ⟨key, hproper, rfl, hkept⟩ := haccounts.kept_iff hwf hindex hplain hshown habove
    have hsame : (∀ key' ∈ deletedKeys image, keyPath key' = keyPath key →
        os.mayRemove (keyPath key) = true) ↔
          (key ∈ deletedKeys image → os.mayRemove (keyPath key) = true) := by
      refine ⟨fun h hin => h key hin rfl, fun h key' hin heq => ?_⟩
      have hproper' := (hplain key' (Or.inr (mem_deletedKeys.mp hin).1)).1
      exact h (hproper'.inj hproper heq ▸ hin)
    rw [hkept, gone_keyPath hplain hproper, hsame]
    tauto
  constructor
  · intro h
    refine ⟨fun q hdir => ?_, fun key hkey e hshown hne habove => ?_,
      fun p q object data hp hq hdata hqstays => ?_⟩
    · rw [← exists_stagedWrites hfiles]
      exact h.dirs q (FileTree.shows_eq_dir.mp ((hbase q).trans hdir))
    · have hsome : base.node (keyPath key) ≠ none := fun hnone => by
        rw [← hbase, FileTree.shows_eq_none.mpr hnone] at hshown
        cases hshown
      have hnotDir : base.node (keyPath key) ≠ some .dir := fun hdir => by
        rw [← hbase, FileTree.shows_eq_dir.mpr hdir] at hshown
        exact hne (Option.some.inj hshown).symm
      have hothers := h.others (keyPath key) hsome hnotDir fun w hw hpre =>
        habove ((exists_stagedWrites hfiles).mp ⟨w, hw, hpre⟩)
      exact (hgoes _ _ hshown habove).mp hothers key hkey rfl
    · have hlinks := h.links (p, data) ((hgraph p data).mpr hdata) q object hp
        (hstays p data hdata) hq hqstays
      rwa [hlookup] at hlinks
  · intro h
    refine ⟨fun q hdir => ?_, fun q hsome hnotDir hnot => ?_,
      fun w hw q object hw' hwstays hq' hqstays => ?_⟩
    · rw [exists_stagedWrites hfiles]
      exact h.dirs q ((hbase q).symm.trans (FileTree.shows_eq_dir.mpr hdir))
    · have habove : ¬ AbovePending image q := fun habove => by
        obtain ⟨w, hw, hpre⟩ := (exists_stagedWrites hfiles).mpr habove
        exact hnot w hw hpre
      obtain ⟨e, hshown⟩ : ∃ e, imageEntry H z state q = some e := by
        rw [← Option.isSome_iff_exists, ← hbase, FileTree.shows, Option.isSome_map]
        exact Option.isSome_iff_ne_none.mpr hsome
      refine (hgoes q e hshown habove).mpr fun key hkey heq => ?_
      subst heq
      refine h.removable key hkey e hshown (fun hdir => hnotDir ?_) habove
      exact FileTree.shows_eq_dir.mp ((hbase _).trans (hdir ▸ hshown))
    · rw [hlookup]
      exact h.names w.1 q object w.2 hw' hq' ((hgraph w.1 w.2).mp hw) hqstays

/-- The deletions and the writes of an orderly commit happen on the staged tree of the image. -/
theorem committed_overlaid (horderly : Orderly H z os state image)
    (hwf : state.blob.WellFormed) (hstate : image.state = some state)
    (hfiles : files.Perm image.pendingFiles.entries)
    (hlive : writeLiveTree H z os state = .ok base) {committed : StagingDir}
    (h : writeStagingTree os H z image files = .ok committed) :
    ∃ mid, FileTree.Removed base (Gone os (deletedKeys image)) .pending mid ∧
      FileTree.Overlaid .pending mid (stagedWrites files) committed := by
  have hpending : ∀ key ∈ image.pendingFiles, Plain key := fun key hin =>
    horderly.plain key (Or.inl hin)
  have hbase := staged_shows hwf horderly.dirs hlive
  obtain ⟨hrooted, hobjects⟩ := staged_objects hwf hlive
  have hlink : ∀ {q target}, base.node q = some (.symlink target) →
      imageEntry H z state q = some (.symlink target) := fun hnode =>
    (hbase _).symm.trans (FileTree.shows_symlink hnode)
  have hdeleted : DeletedFrom os base ([] ++ deletedKeys image)
      ((deletedKeys image).foldl (stageDelete os) base) := by
    refine DeletedFrom.run _ (deletedFrom_nil hrooted) fun before key after heq => ?_
    have hkey : key ∈ deletedKeys image := heq ▸ List.mem_append_right _ List.mem_cons_self
    exact ⟨horderly.plain key (Or.inr (mem_deletedKeys.mp hkey).1), fun q target hq hnode =>
      horderly.deletes before key after heq q target hq (hlink hnode)⟩
  rw [List.nil_append] at hdeleted
  refine ⟨_, ⟨hdeleted.stays, hdeleted.goes, hdeleted.content,
    fun p q heq => StagedFile.pending.inj heq, fun q p hnode => ?_⟩, ?_⟩
  · obtain ⟨place, heq⟩ := hobjects q _ hnode
    cases heq
  · unfold writeStagingTree at h
    rw [hstate] at h
    obtain ⟨live, hlive', hwrites⟩ := except_bind_eq_ok.mp h
    obtain rfl : base = live := Except.ok.inj (hlive.symm.trans hlive')
    refine FileTree.Overlaid.writeAll (FileTree.overlaid_nil hdeleted.rooted)
      (nodup_stagedWrites hfiles hpending) (foldlM_stageWrite (fun file hfile => ?_) hwrites)
    have hkey : file.1 ∈ image.pendingFiles :=
      AList.mem_keys.mpr (List.mem_map_of_mem (hfiles.mem_iff.mp hfile))
    exact ⟨hpending _ hkey, hdeleted.not_crosses fun q target hq hnode =>
      horderly.writes file.1 hkey q target hq (hlink hnode)⟩

/-- The tree an orderly commit packs is what the handle shows exactly where it does what was asked
for. -/
theorem commitRefines_iff (horderly : Orderly H z os state image)
    (hwf : state.blob.WellFormed) (hindex : ExactIndex H state.blob state.rootInode index)
    (haccounts : Accounts index image) (hstate : image.state = some state)
    (hfiles : files.Perm image.pendingFiles.entries)
    (hlive : writeLiveTree H z os state = .ok base) {committed : StagingDir}
    (h : writeStagingTree os H z image files = .ok committed) :
    CommitRefines H z state image committed ↔ Overlays H z os state base image := by
  have hpending : ∀ key ∈ image.pendingFiles, Plain key := fun key hin =>
    horderly.plain key (Or.inl hin)
  have hbase := staged_shows hwf horderly.dirs hlive
  obtain ⟨mid, hmid, hover⟩ := committed_overlaid horderly hwf hstate hfiles hlive h
  have hjudged : (∀ q, committed.shows q = base.wanted (Mapped image) (stagedWrites files) q) ↔
      base.OverlayFits (Gone os (deletedKeys image)) (Mapped image) (stagedWrites files) :=
    FileTree.overlaid_shows_iff hmid hover (nodup_stagedWrites hfiles hpending)
  simp only [wanted_stagedWrites hfiles hpending hbase] at hjudged
  rw [← overlayFits_iff hwf hindex haccounts horderly.plain hfiles hbase, ← hjudged]
  refine ⟨CommitRefines.shows, fun hshows => ⟨hshows, fun key hin => ?_, fun key hin => ?_⟩⟩
  · exact ⟨haccounts.pending key hin, (hpending key hin).1⟩
  · by_cases hkey : key ∈ image.pendingFiles
    · exact Or.inl hkey
    · exact Or.inr (proper_of_index hwf hindex ((haccounts.others key hkey).mp hin).1)

end

/-- **In every orderly run from a handle whose account is right the committed tree is what the
handle shows, exactly if no directory was deleted, every deleted file could be removed, and the
names of one file agree.**  The account is right when no log was replayed. -/
theorem commit_refines_iff : ∀ (H : Hash) (z : Omnizip) (os : StagingOs) (fuel : Nat)
    (file : ImageFile) (wal : Option Bytes) (start image : RwImage) (ops : List Op)
    (files : List (Σ _ : Bytes, Bytes)) (state : OpenState) (index : PathMap Nat)
    (base committed : StagingDir),
    openImage H z fuel file wal = .ok (some start) → start.state = some state →
    buildPathIndex H state.blob fuel = some index → runOps start ops = .ok image →
    files.Perm image.pendingFiles.entries → writeLiveTree H z os state = .ok base →
    writeStagingTree os H z image files = .ok committed →
    (Accounts index start → Orderly H z os state image →
      (CommitRefines H z state image committed ↔ Overlays H z os state base image)) ∧
    (wal = none → Accounts index start) := by
  intro H z os fuel file wal start image ops files state index base committed hopen hstate hindex hrun
    hfiles hlive hcommit
  obtain ⟨state', index', hopened, hindex', hstate', hfresh⟩ := openImage_eq_ok hopen
  obtain rfl : state = state' := Option.some.inj (hstate.symm.trans hstate')
  obtain rfl : index = index' := Option.some.inj (hindex.symm.trans hindex')
  obtain ⟨hwf, hroot⟩ := openState_ok hopened
  refine ⟨fun haccounts horderly => ?_, fun hnone => ?_⟩
  · exact commitRefines_iff horderly hwf (exactIndex_of_built hwf hroot hindex)
      (haccounts.run hrun) ((state_runOps hrun).trans hstate) hfiles hlive hcommit
  · rw [hfresh hnone]
    exact accounts_freshHandle H file state

namespace Stored

open LimniFS.Stored FuseVfs.Stored

def innerEntries : List DirEntry := [⟨ascii "x", 1, EntryType.file⟩]

def outerEntries : List DirEntry := [⟨ascii "d", 2, EntryType.directory⟩]

/-- An empty file `x` in a directory `d`. -/
def nestedBlobBytes : Bytes :=
  leBytes 4 3
    ++ (inodeHeadBytes (pagedInode 1 0x81A4) ++ leBytes 4 0)
    ++ (inodeHeadBytes (pagedInode 2 0x41ED) ++ (dirNodeHash foldDigest innerEntries).val)
    ++ (inodeHeadBytes (pagedInode 3 0x41ED) ++ (dirNodeHash foldDigest outerEntries).val)
    ++ leBytes 4 2 ++ dirNodeBytes innerEntries ++ dirNodeBytes outerEntries

def nestedFile : ImageFile := ⟨manifest nestedBlobBytes 0, fun _ => none⟩

def nestedOpened : RwImage :=
  ((openImage foldDigest omnizip 8 nestedFile none).toOption.get (by decide +kernel)).get
    (by decide +kernel)

theorem openImage_nested : openImage foldDigest omnizip 8 nestedFile none = .ok (some nestedOpened) :=
  (eq_ok_get _).trans (congrArg Except.ok (Option.some_get _).symm)

/-- A file system that makes every link and removes every file. -/
def plainOs : StagingOs := ⟨fun _ => true, fun _ => true, fun tree _ => tree, fun _ _ _ => none⟩

def deleteDir : List Op := [.deleteFile ⟨ascii "d", by decide +kernel⟩]

def dirDeleted : RwImage := (runOps nestedOpened deleteDir).toOption.get (by decide +kernel)

def dirCommitted : StagingDir :=
  (writeStagingTree plainOs foldDigest omnizip dirDeleted []).toOption.get (by decide +kernel)

end Stored

open LimniFS.Stored LimniFS.Rw.Stored

/-- A directory that was deleted is in the committed tree. -/
theorem deleted_directory_stays :
    openImage foldDigest omnizip 8 nestedFile none =
        .ok (some nestedOpened) ∧
      runOps nestedOpened deleteDir = .ok dirDeleted ∧
      dirDeleted.pendingFiles.entries = [] ∧
      writeStagingTree plainOs foldDigest omnizip
        dirDeleted [] = .ok dirCommitted ∧
      ascii "/d" ∉ dirDeleted.inodeMap ∧
      dirCommitted.shows [ascii "d"] = some .dir ∧
      ∀ state, ¬ CommitRefines foldDigest omnizip state
        dirDeleted dirCommitted := by
  have hshows : dirCommitted.shows [ascii "d"] = some .dir := by decide +kernel
  refine ⟨openImage_nested, eq_ok_get _, List.isEmpty_iff.mp (by decide +kernel),
    eq_ok_get _, by decide +kernel, hshows, fun state h => ?_⟩
  have hview := h.shows [ascii "d"]
  have hpending : pendingAt dirDeleted [ascii "d"] = none := by decide +kernel
  have habove : ¬ AbovePending dirDeleted [ascii "d"] := by decide +kernel
  have hmapped : ¬ Mapped dirDeleted [ascii "d"] := by decide +kernel
  rw [hshows, handleView, hpending] at hview
  simp only [if_neg habove, if_neg hmapped] at hview
  cases hview

namespace Stored

open LimniFS.Stored

def nestedState : OpenState := nestedOpened.state.get (by decide +kernel)

def nestedIndex : PathMap Nat := (buildPathIndex foldDigest nestedState.blob 8).get (by decide +kernel)

def nestedBase : StagingDir :=
  (writeLiveTree foldDigest omnizip plainOs nestedState).toOption.get (by decide +kernel)

/-- One file is deleted, and one is added in a new directory. -/
def moveFile : List Op :=
  [.deleteFile ⟨ascii "d/x", by decide +kernel⟩, .addFile ⟨ascii "new/y", by decide +kernel⟩ (ascii "y")]

def fileMoved : RwImage := (runOps nestedOpened moveFile).toOption.get (by decide +kernel)

def moveCommitted : StagingDir :=
  (writeStagingTree plainOs foldDigest omnizip fileMoved fileMoved.pendingFiles.entries).toOption.get
    (by decide +kernel)

theorem buildPathIndex_nested : buildPathIndex foldDigest nestedState.blob 8 = some nestedIndex :=
  (Option.some_get _).symm

theorem writeLiveTree_nested : writeLiveTree foldDigest omnizip plainOs nestedState = .ok nestedBase :=
  eq_ok_get _

theorem runOps_moved : runOps nestedOpened moveFile = .ok fileMoved := eq_ok_get _

theorem writeStagingTree_moved : writeStagingTree plainOs foldDigest omnizip fileMoved
    fileMoved.pendingFiles.entries = .ok moveCommitted := eq_ok_get _

theorem nested_places {path : Path} {number : Nat}
    (h : EntryAt foldDigest nestedState.blob nestedState.rootInode path number) :
    (path, number) ∈ [([], 3), ([ascii "d"], 2), ([ascii "d", ascii "x"], 1)] := by
  induction h with
  | root => decide +kernel
  | @entry path number e dir listed ih =>
      have hbelow : ∀ place ∈ [([], 3), ([ascii "d"], 2), ([ascii "d", ascii "x"], 1)],
          ∀ e ∈ dirEntries foldDigest nestedState.blob place.2, (place.1 ++ [e.name], e.inodeNumber) ∈
            [([], 3), ([ascii "d"], 2), ([ascii "d", ascii "x"], 1)] := by
        decide +kernel
      exact hbelow _ ih e listed

theorem nested_dirsOnce : DirsOnce foldDigest nestedState.blob nestedState.rootInode where
  top := by
    have hroot : ((nestedState.blob.inodeByNumber nestedState.rootInode).map fun inode =>
        inode.dirHash.isSome) = some true := by decide +kernel
    exact Option.map_eq_some_iff.mp hroot
  once p q number inode hp hq _ _ := by
    have hdistinct : ([([], 3), ([ascii "d"], 2), ([ascii "d", ascii "x"], 1)].map
        (Prod.snd : Path × Nat → Nat)).Nodup := by decide
    have hsame := List.inj_on_of_nodup_map hdistinct (nested_places hp) (nested_places hq) rfl
    exact (Prod.mk.inj hsame).1

theorem nestedState_eq : nestedOpened.state = some nestedState := (Option.some_get _).symm

theorem nested_wellFormed : nestedState.blob.WellFormed := by
  obtain ⟨state, index, hopened, -, hstate, -⟩ := openImage_eq_ok openImage_nested
  obtain rfl : nestedState = state := Option.some.inj (nestedState_eq.symm.trans hstate)
  exact (openState_ok hopened).1

theorem nested_noLinks (q : Path) (target : Bytes) :
    imageEntry foldDigest omnizip nestedState q ≠ some (.symlink target) := by
  intro h
  obtain ⟨inode, hinode, hentry⟩ := Option.bind_eq_some_iff.mp h
  obtain ⟨number, -, hfound⟩ := Option.bind_eq_some_iff.mp hinode
  have hin := (inodeByNumber_mem hfound).1
  have hkind := nested_wellFormed.kinds inode hin
  have htypes : ∀ inode ∈ nestedState.blob.inodes, inode.fileType ≠ sIflnk := by decide +kernel
  unfold inodeEntry at hentry
  split at hentry
  · cases hentry
  · obtain ⟨data, -, heq⟩ := Option.map_eq_some_iff.mp hentry
    cases heq
  · obtain ⟨data, -, heq⟩ := Option.map_eq_some_iff.mp hentry
    cases heq
  · next target' hhandle =>
      rw [Inode.KindFits, hhandle] at hkind
      exact htypes inode hin hkind
  · cases hentry

theorem fileMoved_orderly : Orderly foldDigest omnizip plainOs nestedState fileMoved where
  dirs := nested_dirsOnce
  plain key htouched := by
    rcases (touched_runOps runOps_moved).mp htouched with hstart | ⟨op, hop, rfl⟩
    · obtain ⟨state, index, -, -, -, hfresh⟩ := openImage_eq_ok openImage_nested
      rw [hfresh rfl] at hstart
      rcases hstart with hin | ⟨e, he, -⟩
      · exact absurd hin (AList.notMem_empty key)
      · exact absurd he List.not_mem_nil
    · have hplain : ∀ op ∈ moveFile, Plain op.key := by decide +kernel
      exact hplain op hop
  deletes _ _ _ _ q target _ hlink := absurd hlink (nested_noLinks q target)
  writes _ _ q target _ hlink := absurd hlink (nested_noLinks q target)

end Stored

theorem commit_refines_iff_moved :
    openImage foldDigest omnizip 8 nestedFile none =
        .ok (some nestedOpened) ∧
      runOps nestedOpened moveFile = .ok fileMoved ∧
      writeStagingTree plainOs foldDigest omnizip
        fileMoved fileMoved.pendingFiles.entries = .ok moveCommitted ∧
      (CommitRefines foldDigest omnizip nestedState
          fileMoved moveCommitted ↔
        Overlays foldDigest omnizip plainOs nestedState
          nestedBase fileMoved) := by
  have hcommit := commit_refines_iff _ _ plainOs _ _ _ _ _ moveFile
    fileMoved.pendingFiles.entries nestedState nestedIndex nestedBase
    moveCommitted openImage_nested nestedState_eq buildPathIndex_nested
    runOps_moved (List.Perm.refl _) writeLiveTree_nested writeStagingTree_moved
  exact ⟨openImage_nested, runOps_moved, writeStagingTree_moved,
    hcommit.1 (hcommit.2 rfl) fileMoved_orderly⟩

end LimniFS.Rw
