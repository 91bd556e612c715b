/-
What one step of a commit, or of an open, can do.

A commit writes the log first, moves the manifest once everything else is in place, and removes the
log only after that.  An open changes nothing on disk but the log.  Since files are only added next
to the image, it opens as before at any time; and what its log restores is what the handle had
pending.
-/
import LimniFS.RwCommit

namespace LimniFS.Rw

open Lib Lib.Parser

/-! ### The steps of a commit -/

section
variable {a : WriteArtifact}

theorem stageFiles_staged (files : List (Bytes × Bytes)) :
    ∀ step ∈ (stageFiles files).1, step.isStaged = true := by
  induction files with
  | nil => exact fun _ hin => absurd hin List.not_mem_nil
  | cons f rest ih =>
      intro step hstep
      unfold stageFiles at hstep
      split at hstep
      · cases hstep
      · rcases List.mem_cons.mp hstep with rfl | hstep
        · rfl
        · exact ih step hstep

theorem moveFiles_staged (files : List (Bytes × Bytes)) :
    ∀ step ∈ moveFiles files, step.isStaged = true := by
  intro step hstep
  obtain ⟨f, -, rfl⟩ := List.mem_map.mp hstep
  rfl

theorem writeArtifact_staged : ∀ step ∈ writeArtifact a, step.isStaged = true := by
  unfold writeArtifact
  refine List.forall_mem_cons.mpr ⟨rfl, List.forall_mem_append.mpr ⟨stageFiles_staged _, ?_⟩⟩
  split
  · refine List.forall_mem_append.mpr ⟨stageFiles_staged _, ?_⟩
    split
    · refine List.forall_mem_append.mpr ⟨List.forall_mem_append.mpr ⟨moveFiles_staged _,
        moveFiles_staged _⟩, List.forall_mem_singleton.mpr rfl⟩
    · exact fun _ hin => absurd hin List.not_mem_nil
  · exact fun _ hin => absurd hin List.not_mem_nil

theorem move_mem_writeArtifact (h : a.namesTaken = true) :
    FsStep.move .manifest ∈ writeArtifact a := by
  obtain ⟨hslabs, hsidecar⟩ := Bool.and_eq_true_iff.mp h
  unfold writeArtifact
  rw [if_pos hslabs, if_pos hsidecar]
  simp

theorem move_of_setsManifest {step : FsStep} (hstaged : step.isStaged = true)
    (h : step.setsManifest = true) : step = .move .manifest := by
  cases step with
  | move place =>
      cases place with
      | manifest => rfl
      | file name => cases h
  | write | stage | writeLog | removeLog =>
      first | cases h | cases hstaged

theorem log_of_staged {step : FsStep} {s s' : SwapDisk} (hstaged : step.isStaged = true)
    (happly : step.apply s = some s') : s'.log = s.log := by
  cases step with
  | stage place bytes =>
      cases happly
      rfl
  | move place =>
      obtain ⟨bytes, -, rfl⟩ := Option.map_eq_some_iff.mp happly
      rfl
  | write | writeLog | removeLog => cases hstaged

end

/-! ### Opening where files have been added -/

section
variable {H : Hash} {z : Omnizip} {fuel : Nat} {dir dir' : Directory}

theorem loadSlab_of_kept (hkept : ∀ name c, dir name = some c → dir' name = some c) {ordinal : Nat}
    {entry : SlabIndexEntry} {slab : SlabView} (h : loadSlab dir ordinal entry = .ok slab) :
    loadSlab dir' ordinal entry = .ok slab := by
  rw [← h]
  refine (loadSlab_congr ordinal entry fun name hname => ?_).symm
  unfold loadSlab at h
  cases hl : entry.locators with
  | nil =>
      rw [hl] at hname
      cases hname
  | cons locator rest =>
      rw [hl, firstName, List.head?_cons, Option.bind_some] at hname
      rw [hl] at h
      simp only [ok_of_mem_toOption hname] at h
      cases hdir : dir name with
      | none =>
          rw [hdir] at h
          cases h
      | some c => exact (hkept name c hdir).symm

theorem loadSlabs_of_kept (hkept : ∀ name c, dir name = some c → dir' name = some c) :
    ∀ {entries : List SlabIndexEntry} {ordinal : Nat} {slabs : List SlabView},
      loadSlabs dir ordinal entries = .ok slabs → loadSlabs dir' ordinal entries = .ok slabs := by
  intro entries
  induction entries with
  | nil =>
      intro ordinal slabs h
      exact h
  | cons entry rest ih =>
      intro ordinal slabs h
      unfold loadSlabs at h ⊢
      cases hentry : loadSlab dir ordinal entry with
      | error e =>
          rw [hentry] at h
          cases h
      | ok slab =>
          rw [loadSlab_of_kept hkept hentry]
          rw [hentry] at h
          simp only at h ⊢
          cases hrest : loadSlabs dir (ordinal + 1) rest with
          | error e =>
              rw [hrest] at h
              cases h
          | ok more =>
              rw [ih hrest]
              rw [hrest] at h
              exact h

theorem metadataBytes_of_kept (hkept : ∀ name c, dir name = some c → dir' name = some c)
    {ref : MetadataReference} {bytes : Bytes} (h : metadataBytes z dir ref = .ok bytes) :
    metadataBytes z dir' ref = .ok bytes := by
  rw [← h]
  refine (metadataBytes_congr fun hinline name hname => ?_).symm
  rw [Option.isSome_eq_false_iff, Option.isNone_iff_eq_none] at hinline
  unfold metadataBytes readExternalMetadata at h
  rw [hinline] at h
  cases hl : ref.locators with
  | nil =>
      rw [hl] at hname
      cases hname
  | cons locator rest =>
      rw [hl, firstName, List.head?_cons, Option.bind_some] at hname
      rw [hl] at h
      simp only [ok_of_mem_toOption hname] at h
      cases hdir : dir name with
      | none =>
          rw [hdir] at h
          cases h
      | some c => exact (hkept name c hdir).symm

theorem openState_of_kept (hkept : ∀ name c, dir name = some c → dir' name = some c)
    {manifest : Bytes} {state : OpenState} (h : openState z ⟨manifest, dir⟩ = .ok state) :
    openState z ⟨manifest, dir'⟩ = .ok state := by
  unfold openState at h ⊢
  obtain ⟨⟨front, rest⟩, hfront, h⟩ := except_bind_eq_ok.mp h
  obtain ⟨bytes, hbytes, h⟩ := except_bind_eq_ok.mp h
  obtain ⟨⟨blob, _⟩, hblob, h⟩ := except_bind_eq_ok.mp h
  obtain ⟨⟨index, _⟩, hindex, h⟩ := except_bind_eq_ok.mp h
  refine except_bind_eq_ok.mpr ⟨_, hfront, except_bind_eq_ok.mpr
    ⟨_, metadataBytes_of_kept hkept hbytes, except_bind_eq_ok.mpr ⟨_, hblob,
      except_bind_eq_ok.mpr ⟨_, hindex, ?_⟩⟩⟩⟩
  simp only at h ⊢
  by_cases hempty : index.entries = []
  · rw [if_pos hempty] at h ⊢
    exact h
  · rw [if_neg hempty] at h ⊢
    obtain ⟨store, hstore, h⟩ := except_bind_eq_ok.mp h
    refine except_bind_eq_ok.mpr ⟨store, ?_, h⟩
    unfold SlabStore.load at hstore ⊢
    cases hslabs : loadSlabs dir 0 index.entries with
    | error e =>
        rw [hslabs] at hstore
        cases hstore
    | ok slabs =>
        rw [loadSlabs_of_kept hkept hslabs]
        rw [hslabs] at hstore
        exact hstore

/-- A handle that has nothing pending. -/
structure Fresh (image : RwImage) : Prop where
  files : image.pendingFiles = ∅
  history : image.pendingHistory = []

theorem openImage_of_kept (hkept : ∀ name c, dir name = some c → dir' name = some c)
    {manifest : Bytes} {image : RwImage}
    (h : openImage H z fuel ⟨manifest, dir⟩ none = .ok (some image)) (log : Option Bytes) :
    ∃ fresh, Fresh fresh ∧ openImage H z fuel ⟨manifest, dir'⟩ log =
      .ok (some (replayWal H (some manifest) fresh log)) := by
  unfold openImage at h ⊢
  obtain ⟨state, hstate, h⟩ := except_bind_eq_ok.mp h
  obtain ⟨index, hindex, -⟩ := Option.map_eq_some_iff.mp (Except.ok.inj h)
  rw [openState_of_kept hkept hstate]
  exact ⟨_, ⟨rfl, rfl⟩, congrArg Except.ok (Option.map_eq_some_iff.mpr ⟨index, hindex, rfl⟩)⟩

end

/-! ### The log of a session's handle -/

section
variable {H : Hash} {image image' : RwImage}

theorem TextPaths.snoc (h : TextPaths image) {e : HistoryEntry} (htext : utf8Valid e.path = true) :
    ∀ e' ∈ image.pendingHistory ++ [e], utf8Valid e'.path = true :=
  List.forall_mem_append.mpr ⟨h.history, List.forall_mem_singleton.mpr htext⟩

theorem TextPaths.apply {op : Op} (h : TextPaths image) (happly : op.apply image = .ok image') :
    TextPaths image' := by
  rcases Op.apply_cases happly with ⟨data, e, inode, next, hpath, -, rfl⟩ | ⟨inode, rfl⟩
  · refine ⟨fileText_insert data h.files op.key_text, h.snoc ?_⟩
    rw [hpath]
    exact op.key_text
  · exact ⟨fun path hp => h.files path (AList.mem_erase.mp hp).2, h.snoc op.key_text⟩

theorem TextPaths.step {s : Session} (h : TextPaths s.image) (step : Step) :
    TextPaths (step.apply H s).image := by
  cases step with
  | call op =>
      show TextPaths ((op.apply s.image).toOption.getD s.image)
      cases happly : op.apply s.image with
      | error e => exact h
      | ok image' => exact h.apply happly
  | commit files log rebuilt removed =>
      cases log with
      | false => exact h
      | true =>
          cases rebuilt with
          | none => exact h
          | some manifest => exact ⟨h.files, h.history⟩
  | turnover rebuilt =>
      cases rebuilt with
      | none => exact h
      | some manifest => exact h

theorem Starts.texts {s : Session} (h : Starts H s) : TextPaths s.image := by
  cases h with
  | created disk =>
      exact ⟨fun path hp => absurd hp (AList.notMem_empty path), fun _ he => absurd he List.not_mem_nil⟩
  | @opened z fuel file wal wal' image hopen =>
      unfold openImage at hopen
      obtain ⟨state, -, hopen⟩ := except_bind_eq_ok.mp hopen
      obtain ⟨paths, -, rfl⟩ := Option.map_eq_some_iff.mp (Except.ok.inj hopen)
      exact ((handle_freshHandle H file state paths).replayWal wal).texts

theorem Starts.texts_run {s : Session} (h : Starts H s) (steps : List Step) :
    TextPaths (run H s steps).image := by
  induction steps using List.reverseRecOn with
  | nil => exact h.texts
  | append_singleton steps step ih =>
      rw [run_snoc]
      exact ih.step step

/-- What is replayed while the manifest is the one the handle remembers. -/
theorem pending_replayed {manifest : Bytes} (htag : walTag image = (hashSection H manifest).val)
    (hfits : LogFits image) (hnothing : NothingReadded image) (htexts : TextPaths image)
    {files : List (Σ _ : Bytes, Bytes)} (hfiles : files.Perm image.pendingFiles.entries)
    {fresh : RwImage} (hfresh : Fresh fresh) :
    PendingRestored (replayWal H (some manifest) fresh (some (writeWal image files))) image := by
  rw [replayWal_written htag]
  obtain ⟨hhistory, hsame⟩ := replayBody_pending hfits htexts hfiles hfresh.files hfresh.history
  exact ⟨hsame.mpr hnothing, hhistory⟩

end

/-! ### One step of the writer, one step of an open -/

section
variable {H : Hash} {z : Omnizip} {fuel : Nat} {image : RwImage}
  {files : List (Σ _ : Bytes, Bytes)} {new : WriteArtifact} {manifest log : Bytes}

/-- A step of a commit and what was done before it. -/
theorem commit_step_cases {done rest : List FsStep} {step : FsStep}
    (h : (Replacer.commit image files).steps new = done ++ step :: rest) :
    (done = [] ∧ step = .writeLog (writeWal image files)) ∨
      FsStep.writeLog (writeWal image files) ∈ done ∧
        (step ∈ writeArtifact new ∨ step = .removeLog ∧ FsStep.move .manifest ∈ done) := by
  have hunlog : ∀ {before : List FsStep}, writeArtifact new ⊆ before →
      step ∈ (if new.namesTaken then [FsStep.removeLog] else []) →
      step = .removeLog ∧ FsStep.move .manifest ∈ before := by
    intro before hsub hstep
    by_cases htaken : new.namesTaken = true
    · rw [if_pos htaken] at hstep
      exact ⟨List.mem_singleton.mp hstep, hsub (move_mem_writeArtifact htaken)⟩
    · rw [if_neg htaken] at hstep
      cases hstep
  cases done with
  | nil =>
      obtain ⟨hstep, -⟩ := List.cons.inj h
      exact Or.inl ⟨rfl, hstep.symm⟩
  | cons first done =>
      obtain ⟨rfl, hrest⟩ := List.cons.inj h
      refine Or.inr ⟨List.mem_cons_self, ?_⟩
      rcases List.append_eq_append_iff.mp hrest with ⟨more, rfl, htail⟩ | ⟨more, heq, htail⟩
      · refine Or.inr (hunlog (fun s hs => List.mem_cons_of_mem _ (List.mem_append_left _ hs)) ?_)
        rw [htail]
        exact List.mem_append_right _ List.mem_cons_self
      · cases more with
        | nil =>
            rw [List.append_nil] at heq
            refine Or.inr (hunlog (fun s hs => List.mem_cons_of_mem _ (heq ▸ hs)) ?_)
            rw [List.nil_append] at htail
            rw [← htail]
            exact List.mem_cons_self
        | cons st more =>
            obtain ⟨rfl, -⟩ := List.cons.inj htail
            refine Or.inl ?_
            rw [heq]
            exact List.mem_append_right _ List.mem_cons_self

theorem writeArtifact_of : ∀ step ∈ writeArtifact new, step.Of new.built := by
  intro step hstep
  obtain ⟨front, hsteps, hfront⟩ := writeArtifact_eq new
  rcases hsteps with heq | ⟨heq, -⟩
  · rw [heq] at hstep
    exact (hfront step hstep).1
  · rw [heq] at hstep
    rcases List.mem_append.mp hstep with hstep | hstep
    · exact (hfront step hstep).1
    · rw [List.mem_singleton.mp hstep]
      trivial

/-- An open that began after the writer stopped short of the manifest. -/
def Opening.Late (manifest log : Bytes) (image : RwImage) : Opening → Prop
  | .read m => m = manifest
  | .loaded fresh => Fresh fresh
  | .found fresh l => Fresh fresh ∧ l = log
  | .checked _ _ again => PendingRestored again image
  | .opened _ _ _ => True
  | .failed => True

variable (H z fuel) in
theorem Opening.step_read (disk : SwapDisk) (m : Bytes) :
    ∃ next, (Opening.read m).step H z fuel disk = (next, disk) ∧
      (next = .failed ∨ next = .read m ∨ ∃ fresh, Fresh fresh ∧ next = .loaded fresh) := by
  rw [Opening.step]
  cases openState z ⟨m, disk.image.files⟩ with
  | error e => exact ⟨_, rfl, Or.inl rfl⟩
  | ok state =>
      simp only
      cases buildPathIndex H state.blob fuel with
      | none => exact ⟨_, rfl, Or.inr (Or.inl rfl)⟩
      | some index => exact ⟨_, rfl, Or.inr (Or.inr ⟨_, ⟨rfl, rfl⟩, rfl⟩)⟩

variable (H z fuel) in
theorem Opening.step_loaded (disk : SwapDisk) (reader : RwImage) :
    (disk.log = none ∧
        (Opening.loaded reader).step H z fuel disk = (.opened reader none reader, disk)) ∨
      ∃ l, disk.log = some l ∧ (Opening.loaded reader).step H z fuel disk = (.found reader l, disk) := by
  rw [Opening.step]
  cases disk.log with
  | none => exact Or.inl ⟨rfl, rfl⟩
  | some l => exact Or.inr ⟨l, rfl, rfl⟩

variable (H z fuel) in
theorem Opening.step_disk (opening : Opening) (disk : SwapDisk) :
    (opening.step H z fuel disk).2 = disk ∨ ∃ reader l again, opening = .checked reader l again ∧
      opening.step H z fuel disk = (.opened reader (some l) again, { disk with log := none }) := by
  cases opening with
  | read m =>
      obtain ⟨next, hstep, -⟩ := Opening.step_read H z fuel disk m
      exact Or.inl (congrArg Prod.snd hstep)
  | loaded reader =>
      rcases Opening.step_loaded H z fuel disk reader with
        ⟨-, hstep⟩ | ⟨l, -, hstep⟩
      · exact Or.inl (congrArg Prod.snd hstep)
      · exact Or.inl (congrArg Prod.snd hstep)
  | checked reader l again => exact Or.inr ⟨reader, l, again, rfl, rfl⟩
  | found | opened | failed => exact Or.inl rfl

variable (H z fuel) in
theorem Opening.step_image (opening : Opening) (disk : SwapDisk) :
    (opening.step H z fuel disk).2.image = disk.image ∧
      (opening.step H z fuel disk).2.staging = disk.staging := by
  rcases opening.step_disk H z fuel disk with hsame | ⟨_, _, _, -, hstep⟩
  · rw [hsame]
    exact ⟨rfl, rfl⟩
  · rw [hstep]
    exact ⟨rfl, rfl⟩

theorem Race.resume_image (s : Race) (i : Nat) :
    (s.resume H z fuel i).disk.image = s.disk.image := by
  unfold Race.resume
  split
  · rfl
  · exact (Opening.step_image H z fuel _ _).1

theorem Opening.step_late {opening : Opening} {disk : SwapDisk}
    (h : opening.Late manifest log image) (hmanifest : disk.image.manifest = some manifest)
    (hreplayed : ∀ fresh, Fresh fresh →
      PendingRestored (replayWal H (some manifest) fresh (some log)) image)
    (hlog : disk.log = some log ∨ disk.log = none) :
    (opening.step H z fuel disk).1.Late manifest log image := by
  cases opening with
  | read m =>
      obtain ⟨next, hstep, hnext⟩ := Opening.step_read H z fuel disk m
      rw [hstep]
      rcases hnext with rfl | rfl | ⟨fresh, hfresh, rfl⟩
      · trivial
      · exact h
      · exact hfresh
  | loaded reader =>
      rcases Opening.step_loaded H z fuel disk reader with
        ⟨-, hstep⟩ | ⟨l, hl, hstep⟩
      · rw [hstep]
        trivial
      · rw [hstep]
        refine ⟨h, ?_⟩
        rcases hlog with hlog | hlog
        · exact Option.some.inj (hl.symm.trans hlog)
        · rw [hlog] at hl
          cases hl
  | found reader l =>
      obtain ⟨hfresh, rfl⟩ := h
      show PendingRestored (replayWal H disk.image.manifest reader (some l)) image
      rw [hmanifest]
      exact hreplayed reader hfresh
  | checked | opened | failed => trivial

/-- What an open takes from the log, it takes while the manifest is another. -/
theorem Opening.step_took {opening : Opening} {disk : SwapDisk}
    (hstale : ∀ fresh, replayWal H (some manifest) fresh (some log) = fresh)
    (htook : (opening.step H z fuel disk).1.Took log) :
    opening.Took log ∨ (∃ reader, opening = .found reader log) ∧
      disk.image.manifest ≠ some manifest := by
  cases opening with
  | read m =>
      obtain ⟨next, hstep, hnext⟩ := Opening.step_read H z fuel disk m
      rw [hstep] at htook
      rcases hnext with rfl | rfl | ⟨fresh, -, rfl⟩ <;> cases htook
  | loaded reader =>
      rcases Opening.step_loaded H z fuel disk reader with
        ⟨-, hstep⟩ | ⟨l, -, hstep⟩
      · rw [hstep] at htook
        cases htook.1
      · rw [hstep] at htook
        cases htook
  | found reader l =>
      obtain ⟨rfl, hnew⟩ := htook
      refine Or.inr ⟨⟨reader, rfl⟩, fun hmanifest => hnew ?_⟩
      rw [hmanifest]
      exact hstale reader
  | checked reader l again => exact Or.inl ⟨Option.some.inj htook.1, htook.2⟩
  | opened | failed => exact Or.inl htook

theorem told_of_same {disk : ImageDisk} {s s' : SwapDisk} (h : Told new.built disk s)
    (himage : s'.image = s.image) (hstaging : s'.staging = s.staging ∨ s'.staging = .empty) :
    Told new.built disk s' := by
  rcases hstaging with hstaging | hstaging
  · exact ⟨himage ▸ h.image, hstaging ▸ h.staging, hstaging ▸ h.stagedManifest, himage ▸ h.kept⟩
  · exact ⟨himage ▸ h.image, hstaging ▸ nofun, hstaging ▸ nofun, himage ▸ h.kept⟩

end

end LimniFS.Rw
