/-
Every point at which a replacement can stop.

`Told` holds of the disk after any number of steps: what stands under a name of the new
image has the content of that name, in the image's directory and in the staging
directory, and nothing that was there has changed.  With it the manifest decides which
image is opened.  Until a step sets it the old image is there.  After that the new one is
there if its files were put in place before.
-/
import LimniFS.Replacement

namespace LimniFS

open Lib Lib.Parser

/-! ### One step -/

section
variable {new : BuiltImage} {disk : ImageDisk} {s s' : SwapDisk}

theorem put_file_files (d : ImageDisk) (c : Option Bytes) (name n : Bytes) :
    (d.put c (.file name)).files n = if n = name then c else d.files n := rfl

/-- What is under the names of the new image, and what was there before. -/
structure Told (new : BuiltImage) (disk : ImageDisk) (s : SwapDisk) : Prop where
  image : ∀ f ∈ new.files, ∀ c, s.image.files f.1 = some c → c = f.2
  staging : ∀ f ∈ new.files, ∀ c, s.staging.files f.1 = some c → c = f.2
  stagedManifest : ∀ c, s.staging.manifest = some c → c = new.manifest
  kept : ∀ name c, disk.files name = some c → s.image.files name = some c

/-- A step that puts a part of the new image somewhere. -/
def FsStep.Of (new : BuiltImage) : FsStep → Prop
  | .write .manifest bytes => bytes = new.manifest
  | .write (.file name) bytes => (name, bytes) ∈ new.files
  | .stage .manifest bytes => bytes = new.manifest
  | .stage (.file name) bytes => (name, bytes) ∈ new.files
  | .move .manifest => True
  | .move (.file name) => ∃ f ∈ new.files, f.1 = name
  | .writeLog _ => True
  | .removeLog => True

def FsStep.setsManifest : FsStep → Bool
  | .write .manifest _ => true
  | .move .manifest => true
  | _ => false

/-- The step needs the staging directory. -/
def FsStep.isStaged : FsStep → Bool
  | .stage _ _ | .move _ => true
  | _ => false

/-- What a step does to the image: nothing, or it sets the manifest, or it puts in place a file
of the new image. -/
theorem FsStep.Of.image {step : FsStep} (hof : step.Of new) (h : Told new disk s)
    (happly : step.apply s = some s') :
    (step.setsManifest = false ∧ s'.image = s.image) ∨
      (step.setsManifest = true ∧ s'.image = { s.image with manifest := some new.manifest }) ∨
      step.setsManifest = false ∧
        ∃ f ∈ new.files, s'.image = s.image.put (some f.2) (.file f.1) := by
  cases step with
  | write place bytes =>
      cases happly
      cases place with
      | manifest => exact Or.inr (Or.inl ⟨rfl, by rw [show bytes = new.manifest from hof]; rfl⟩)
      | file name => exact Or.inr (Or.inr ⟨rfl, _, hof, rfl⟩)
  | stage place bytes =>
      cases happly
      exact Or.inl ⟨rfl, rfl⟩
  | move place =>
      obtain ⟨bytes, hbytes, rfl⟩ := Option.map_eq_some_iff.mp happly
      cases place with
      | manifest => exact Or.inr (Or.inl ⟨rfl, by rw [h.stagedManifest bytes hbytes]; rfl⟩)
      | file name =>
          obtain ⟨f, hf, rfl⟩ := hof
          exact Or.inr (Or.inr ⟨rfl, f, hf, by rw [h.staging f hf bytes hbytes]⟩)
  | writeLog bytes =>
      cases happly
      exact Or.inl ⟨rfl, rfl⟩
  | removeLog =>
      cases happly
      exact Or.inl ⟨rfl, rfl⟩

/-- A content put under a name of the new image is the one the name stands for. -/
theorem told_put (hone : OneContent new.files) {d : ImageDisk}
    (h : ∀ f ∈ new.files, ∀ c, d.files f.1 = some c → c = f.2) {g : Bytes × Bytes}
    (hg : g ∈ new.files) {content : Option Bytes} (hcontent : ∀ c, content = some c → c = g.2) :
    ∀ f ∈ new.files, ∀ c, (d.put content (.file g.1)).files f.1 = some c → c = f.2 := by
  intro f hf c hc
  rw [put_file_files] at hc
  by_cases hname : f.1 = g.1
  · rw [if_pos hname] at hc
    rw [hcontent c hc]
    exact hone g hg f hf hname.symm
  · rw [if_neg hname] at hc
    exact h f hf c hc

theorem Told.files_kept {step : FsStep} (h : Told new disk s) (hof : step.Of new)
    (happly : step.apply s = some s') :
    ∀ name c, s.image.files name = some c → s'.image.files name = some c := by
  intro name c hc
  rcases hof.image h happly with ⟨-, himage⟩ | ⟨-, himage⟩ | ⟨-, f, hf, himage⟩
  · rw [himage, hc]
  · rw [himage]
    exact hc
  · rw [himage, put_file_files]
    by_cases hname : name = f.1
    · rw [if_pos hname]
      rw [hname] at hc
      exact congrArg some (h.image f hf c hc).symm
    · rw [if_neg hname, hc]

theorem Told.apply {step : FsStep} (hone : OneContent new.files) (h : Told new disk s)
    (hof : step.Of new) (happly : step.apply s = some s') : Told new disk s' := by
  have hkept : ∀ name c, disk.files name = some c → s'.image.files name = some c :=
    fun name c hc => h.files_kept hof happly name c (h.kept name c hc)
  have himage : ∀ f ∈ new.files, ∀ c, s'.image.files f.1 = some c → c = f.2 := by
    rcases hof.image h happly with ⟨-, himage⟩ | ⟨-, himage⟩ | ⟨-, g, hg, himage⟩
    · rw [himage]
      exact h.image
    · rw [himage]
      exact h.image
    · rw [himage]
      exact told_put hone h.image hg fun c hc => (Option.some.inj hc).symm
  cases step with
  | write place bytes =>
      cases happly
      exact ⟨himage, h.staging, h.stagedManifest, hkept⟩
  | stage place bytes =>
      cases happly
      cases place with
      | manifest =>
          refine ⟨himage, h.staging, fun c hc => ?_, hkept⟩
          exact (Option.some.inj hc).symm.trans hof
      | file name =>
          refine ⟨himage, ?_, h.stagedManifest, hkept⟩
          exact told_put hone h.staging hof fun c hc => (Option.some.inj hc).symm
  | move place =>
      obtain ⟨bytes, hbytes, rfl⟩ := Option.map_eq_some_iff.mp happly
      cases place with
      | manifest => exact ⟨himage, h.staging, nofun, hkept⟩
      | file name =>
          obtain ⟨f, hf, rfl⟩ := hof
          exact ⟨himage, told_put hone h.staging hf nofun, h.stagedManifest, hkept⟩
  | writeLog bytes =>
      cases happly
      exact ⟨himage, h.staging, h.stagedManifest, hkept⟩
  | removeLog =>
      cases happly
      exact ⟨himage, h.staging, h.stagedManifest, hkept⟩

theorem move_places {name : Bytes} (happly : (FsStep.move (.file name)).apply s = some s') :
    (s'.image.files name).isSome = true := by
  obtain ⟨bytes, -, rfl⟩ := Option.map_eq_some_iff.mp happly
  rw [put_file_files, if_pos rfl]
  rfl

/-! ### Runs of steps -/

theorem runSteps_cons {step : FsStep} {steps : List FsStep} :
    runSteps s (step :: steps) = some s' ↔
      ∃ t, step.apply s = some t ∧ runSteps t steps = some s' := by
  rw [runSteps, List.foldlM_cons, Option.bind_eq_bind, Option.bind_eq_some_iff]
  rfl

/-- **Every run**: the names tell, and what the run found or moved into place is there. -/
theorem Told.run (hone : OneContent new.files) : ∀ {steps : List FsStep} {s : SwapDisk},
    Told new disk s → (∀ step ∈ steps, step.Of new) → runSteps s steps = some s' →
    Told new disk s' ∧
      (∀ name c, s.image.files name = some c → s'.image.files name = some c) ∧
      ∀ name, FsStep.move (.file name) ∈ steps → (s'.image.files name).isSome = true := by
  intro steps
  induction steps with
  | nil =>
      intro s h _ hrun
      cases hrun
      exact ⟨h, fun _ _ hc => hc, nofun⟩
  | cons step steps ih =>
      intro s h hof hrun
      obtain ⟨hstep, hsteps⟩ := List.forall_mem_cons.mp hof
      obtain ⟨t, happly, hrest⟩ := runSteps_cons.mp hrun
      obtain ⟨htold, hkept, hmoved⟩ := ih (h.apply hone hstep happly) hsteps hrest
      refine ⟨htold, fun name c hc => hkept name c (h.files_kept hstep happly name c hc), ?_⟩
      intro name hname
      rcases List.mem_cons.mp hname with rfl | hname
      · obtain ⟨c, hc⟩ := Option.isSome_iff_exists.mp (move_places happly)
        rw [hkept name c hc]
        rfl
      · exact hmoved name hname

/-- The manifest is what it was, or that of the new image once a step has set it. -/
theorem Told.run_manifest (hone : OneContent new.files) : ∀ {steps : List FsStep} {s : SwapDisk},
    Told new disk s → (∀ step ∈ steps, step.Of new) → runSteps s steps = some s' →
    s'.image.manifest = s.image.manifest ∨ s'.image.manifest = some new.manifest ∧
      ∃ done step rest, steps = done ++ step :: rest ∧ step.setsManifest = true := by
  intro steps
  induction steps with
  | nil =>
      intro s _ _ hrun
      cases hrun
      exact Or.inl rfl
  | cons step steps ih =>
      intro s h hof hrun
      obtain ⟨hstep, hsteps⟩ := List.forall_mem_cons.mp hof
      obtain ⟨t, happly, hrest⟩ := runSteps_cons.mp hrun
      rcases ih (h.apply hone hstep happly) hsteps hrest with hsame | ⟨hset, done, st, rest, rfl, hst⟩
      · rcases hstep.image h happly with ⟨-, himage⟩ | ⟨hsets, himage⟩ | ⟨-, f, -, himage⟩
        · rw [himage] at hsame
          exact Or.inl hsame
        · rw [himage] at hsame
          exact Or.inr ⟨hsame, [], step, steps, rfl, hsets⟩
        · rw [himage] at hsame
          exact Or.inl hsame
      · exact Or.inr ⟨hset, step :: done, st, rest, rfl, hst⟩

end

/-! ### Which image is there -/

section
variable {z : Omnizip} {new : BuiltImage} {disk : ImageDisk} {old : Option BuiltImage}
  {log : Option Bytes} {steps : List FsStep}

theorem told_start (htell : NamesTell disk new) : Told new disk ⟨disk, .empty, log⟩ :=
  ⟨htell.present, nofun, nofun, fun _ _ hc => hc⟩

theorem old_shown (hbefore : Before z disk old) {d : ImageDisk} (hmanifest : d.manifest = disk.manifest)
    (hkept : ∀ name c, disk.files name = some c → d.files name = some c) :
    OldOrNew z old new d := by
  rw [hbefore.manifest] at hmanifest
  cases old with
  | none => exact Or.inl ⟨rfl, hmanifest⟩
  | some i =>
      refine Or.inr (Or.inl ⟨i, rfl, BuiltImage.shown (hbefore.complete i rfl)
        (hbefore.oneContent i rfl) hmanifest fun f hf => ?_⟩)
      exact hkept _ _ (hbefore.files i rfl f hf)

/-- **A replacement is safe** if it keeps the manifest's bytes, or if every file of the new image
was there or was moved into place before the manifest is set. -/
theorem crashSafe_of_placed (hbefore : Before z disk old) (htell : NamesTell disk new)
    (hcomplete : new.Complete z) (hof : ∀ step ∈ steps, step.Of new)
    (hplaced : disk.manifest = some new.manifest ∨ ∀ done step rest, steps = done ++ step :: rest →
      step.setsManifest = true → ∀ f ∈ new.files,
        (disk.files f.1).isSome = true ∨ FsStep.move (.file f.1) ∈ done) :
    CrashSafe z disk log old new steps := by
  rintro done rest s rfl hrun
  have hdone : ∀ step ∈ done, step.Of new := fun step hstep =>
    hof step (List.mem_append_left _ hstep)
  have hstart : Told new disk ⟨disk, .empty, log⟩ := told_start htell
  obtain ⟨htold, -, hmoved⟩ := hstart.run htell.oneContent hdone hrun
  constructor
  · rcases hstart.run_manifest htell.oneContent hdone hrun with
      hsame | ⟨hset, before, step, after, rfl, hsets⟩
    · exact old_shown hbefore hsame htold.kept
    · rcases hplaced with hsame | hplaced
      · exact old_shown hbefore (hset.trans hsame.symm) htold.kept
      · refine Or.inr (Or.inr (BuiltImage.shown hcomplete htell.oneContent hset fun f hf => ?_))
        have hsome : (s.image.files f.1).isSome = true := by
          rcases hplaced before step (after ++ rest) (by simp) hsets f hf with hthere | hmove
          · obtain ⟨c, hc⟩ := Option.isSome_iff_exists.mp hthere
            rw [htold.kept _ _ hc]
            rfl
          · exact hmoved _ (List.mem_append_left _ hmove)
        obtain ⟨c, hc⟩ := Option.isSome_iff_exists.mp hsome
        rw [hc, htold.image f hf c hc]
  · intro step hstep s' happly
    exact htold.files_kept (hof step (List.mem_append_right _ (List.mem_of_mem_head? hstep))) happly

end

/-! ### The library and the commands -/

section
variable {a : WriteArtifact}

theorem stageFiles_of : ∀ (files : List (Bytes × Bytes)), files ⊆ a.slabFiles ++ a.sidecarFiles →
    ∀ step ∈ (stageFiles files).1, step.Of a.built ∧ step.setsManifest = false := by
  intro files
  induction files with
  | nil =>
      intro _ step hstep
      cases hstep
  | cons f rest ih =>
      intro hsub step hstep
      obtain ⟨hf, hrest⟩ := List.cons_subset.mp hsub
      unfold stageFiles at hstep
      split at hstep
      · cases hstep
      · next name hname =>
          rcases List.mem_cons.mp hstep with rfl | hstep
          · exact ⟨mem_built hf hname, rfl⟩
          · exact ih hrest step hstep

theorem moveFiles_of {files : List (Bytes × Bytes)} (hsub : files ⊆ a.slabFiles ++ a.sidecarFiles) :
    ∀ step ∈ moveFiles files, step.Of a.built ∧ step.setsManifest = false := by
  intro step hstep
  obtain ⟨f, hf, rfl⟩ := List.mem_map.mp hstep
  obtain ⟨g, hg, hname⟩ := List.mem_filterMap.mp hf
  exact ⟨⟨f, List.mem_filterMap.mpr ⟨g, hsub hg, hname⟩, rfl⟩, rfl⟩

theorem writeArtifact_eq (a : WriteArtifact) :
    ∃ front, (writeArtifact a = front ∨ writeArtifact a = front ++ [.move .manifest] ∧
        ∀ f ∈ a.built.files, FsStep.move (.file f.1) ∈ front) ∧
      ∀ step ∈ front, step.Of a.built ∧ step.setsManifest = false := by
  have hslabs : a.slabFiles ⊆ a.slabFiles ++ a.sidecarFiles := List.subset_append_left _ _
  have hsidecar : a.sidecarFiles ⊆ a.slabFiles ++ a.sidecarFiles := List.subset_append_right _ _
  have hstage : ∀ step ∈ FsStep.stage .manifest a.bytes :: (stageFiles a.slabFiles).1,
      step.Of a.built ∧ step.setsManifest = false := by
    refine List.forall_mem_cons.mpr ⟨⟨rfl, rfl⟩, stageFiles_of _ hslabs⟩
  have hside := stageFiles_of a.sidecarFiles hsidecar
  unfold writeArtifact
  split
  · split
    · refine ⟨.stage .manifest a.bytes :: ((stageFiles a.slabFiles).1 ++
        ((stageFiles a.sidecarFiles).1 ++ (moveFiles a.sidecarFiles ++ moveFiles a.slabFiles))),
        Or.inr ⟨by simp, ?_⟩, ?_⟩
      · intro f hf
        obtain ⟨g, hg, hname⟩ := List.mem_filterMap.mp hf
        have hmoved : FsStep.move (.file f.1) ∈ moveFiles a.sidecarFiles ++ moveFiles a.slabFiles := by
          rcases List.mem_append.mp hg with hg | hg
          · exact List.mem_append_right _
              (List.mem_map_of_mem (List.mem_filterMap.mpr ⟨g, hg, hname⟩))
          · exact List.mem_append_left _
              (List.mem_map_of_mem (List.mem_filterMap.mpr ⟨g, hg, hname⟩))
        exact List.mem_cons_of_mem _
          (List.mem_append_right _ (List.mem_append_right _ hmoved))
      · rw [← List.cons_append]
        refine List.forall_mem_append.mpr ⟨hstage, List.forall_mem_append.mpr ⟨hside, ?_⟩⟩
        exact List.forall_mem_append.mpr ⟨moveFiles_of hsidecar, moveFiles_of hslabs⟩
    · refine ⟨_, Or.inl rfl, ?_⟩
      rw [← List.cons_append, List.append_nil]
      exact List.forall_mem_append.mpr ⟨hstage, hside⟩
  · refine ⟨_, Or.inl rfl, ?_⟩
    rw [List.append_nil]
    exact hstage

theorem writeFiles_of : ∀ (files : List (Bytes × Bytes)), files ⊆ a.slabFiles ++ a.sidecarFiles →
    ∀ step ∈ writeFiles files, step.Of a.built := by
  intro files
  induction files with
  | nil =>
      intro _ step hstep
      cases hstep
  | cons f rest ih =>
      intro hsub step hstep
      obtain ⟨hf, hrest⟩ := List.cons_subset.mp hsub
      unfold writeFiles at hstep
      split at hstep
      · cases hstep
      · next name hname =>
          rcases List.mem_cons.mp hstep with rfl | hstep
          · exact mem_built hf hname
          · exact ih hrest step hstep

theorem installArtifact_of : ∀ step ∈ installArtifact a, step.Of a.built :=
  List.forall_mem_cons.mpr ⟨rfl, writeFiles_of _ (List.Subset.refl _)⟩

end

section
variable {H : Hash} {z : Omnizip} {ctx : WriteContext} {new : WriteArtifact} {disk : ImageDisk}
  {old : Option BuiltImage} {log : Option Bytes}

/-- Where only the end of a list sets the manifest, what is moved in front of it comes first. -/
theorem placed_of_front {front tail : List FsStep} {files : List (Bytes × Bytes)}
    (hfront : ∀ step ∈ front, step.setsManifest = false)
    (hmoved : (∃ step ∈ tail, step.setsManifest = true) →
      ∀ f ∈ files, FsStep.move (.file f.1) ∈ front) :
    ∀ done step rest, front ++ tail = done ++ step :: rest → step.setsManifest = true →
      ∀ f ∈ files, (disk.files f.1).isSome = true ∨ FsStep.move (.file f.1) ∈ done := by
  intro done step rest heq hsets f hf
  rcases List.append_eq_append_iff.mp heq with ⟨more, rfl, htail⟩ | ⟨more, rfl, hstep⟩
  · have hmem : step ∈ tail := by
      rw [htail]
      exact List.mem_append_right _ List.mem_cons_self
    exact Or.inr (List.mem_append_left _ (hmoved ⟨step, hmem, hsets⟩ f hf))
  · cases more with
    | nil =>
        have hmem : step ∈ tail := by
          rw [← List.nil_append tail, ← hstep]
          exact List.mem_cons_self
        have hmove := hmoved ⟨step, hmem, hsets⟩ f hf
        rw [List.append_nil] at hmove
        exact Or.inr hmove
    | cons st more =>
        obtain ⟨rfl, -⟩ := List.cons.inj hstep
        rw [hfront step (List.mem_append_right _ List.mem_cons_self)] at hsets
        cases hsets

/-- **The library is safe**, with steps on the log around it. -/
theorem writeArtifact_safe (ha : assemble H z ctx = some new) (hbefore : Before z disk old)
    (htell : NamesTell disk new.built) {first last : List FsStep}
    (hfirst : ∀ step ∈ first, step.Of new.built ∧ step.setsManifest = false)
    (hlast : ∀ step ∈ last, step.Of new.built ∧ step.setsManifest = false) :
    CrashSafe z disk log old new.built (first ++ (writeArtifact new ++ last)) := by
  obtain ⟨front, hsteps, hfront⟩ := writeArtifact_eq new
  have hall : ∀ step ∈ first ++ front, step.Of new.built ∧ step.setsManifest = false :=
    List.forall_mem_append.mpr ⟨hfirst, hfront⟩
  rw [← List.append_assoc]
  rcases hsteps with heq | ⟨heq, hmoved⟩
  · rw [heq]
    refine crashSafe_of_placed hbefore htell (complete_built ha) ?_ (Or.inr ?_)
    · exact List.forall_mem_append.mpr
        ⟨fun step hstep => (hall step hstep).1, fun step hstep => (hlast step hstep).1⟩
    · refine placed_of_front (fun step hstep => (hall step hstep).2) ?_
      rintro ⟨step, hstep, hsets⟩
      rw [(hlast step hstep).2] at hsets
      cases hsets
  · rw [heq, ← List.append_assoc, List.append_assoc]
    refine crashSafe_of_placed hbefore htell (complete_built ha) ?_ (Or.inr ?_)
    · refine List.forall_mem_append.mpr ⟨fun step hstep => (hall step hstep).1, ?_⟩
      exact List.forall_mem_cons.mpr ⟨trivial, fun step hstep => (hlast step hstep).1⟩
    · refine placed_of_front (fun step hstep => (hall step hstep).2) fun _ f hf => ?_
      exact List.mem_append_right _ (hmoved f hf)

theorem there_of_install_safe (hbefore : Before z disk old)
    (h : CrashSafe z disk log old new.built (installArtifact new)) :
    (∀ f ∈ new.built.files, (disk.files f.1).isSome = true) ∨ disk.manifest = some new.bytes := by
  obtain ⟨hshown, -⟩ := h [.write .manifest new.bytes] _ _ rfl rfl
  rcases hshown with ⟨-, hnone⟩ | ⟨i, hi, hshown⟩ | hshown
  · cases hnone
  · refine Or.inr ?_
    rw [hbefore.manifest, hi]
    exact hshown.manifest.symm
  · refine Or.inl fun f hf => ?_
    rw [show disk.files f.1 = some f.2 from hshown.files f hf]
    rfl

theorem install_safe_iff (ha : assemble H z ctx = some new) (hbefore : Before z disk old)
    (htell : NamesTell disk new.built) :
    CrashSafe z disk log old new.built (installArtifact new) ↔
      (∀ f ∈ new.built.files, (disk.files f.1).isSome = true) ∨ disk.manifest = some new.bytes := by
  refine ⟨there_of_install_safe hbefore, fun hthere => ?_⟩
  refine crashSafe_of_placed hbefore htell (complete_built ha) installArtifact_of ?_
  rcases hthere with hthere | hsame
  · exact Or.inr fun _ _ _ _ _ f hf => Or.inl (hthere f hf)
  · exact Or.inl hsame

/-- **Every replacement, at every point.**  Through the library the old image or the new one is
always there.  Through a command it is exactly when the new image's files are all there before
it starts, or its manifest is. -/
theorem crash_safe_iff : ∀ (H : Hash) (z : Omnizip) (ctx : WriteContext) (new : WriteArtifact),
    assemble H z ctx = some new → ∀ (disk : ImageDisk) (log : Option Bytes)
      (old : Option BuiltImage), Before z disk old → NamesTell disk new.built → ∀ r : Replacer,
    CrashSafe z disk log old new.built (r.steps new) ↔ r.inLibrary = true ∨
      (∀ f ∈ new.built.files, (disk.files f.1).isSome = true) ∨ disk.manifest = some new.bytes := by
  intro H z ctx new ha disk log old hbefore htell r
  have hnone : ∀ step ∈ ([] : List FsStep), step.Of new.built ∧ step.setsManifest = false := nofun
  cases r with
  | commit image files =>
      have hlog : ∀ step ∈ [FsStep.writeLog (Rw.writeWal image files)],
          step.Of new.built ∧ step.setsManifest = false :=
        List.forall_mem_singleton.mpr ⟨trivial, rfl⟩
      have hunlog : ∀ step ∈ (if new.namesTaken then [FsStep.removeLog] else []),
          step.Of new.built ∧ step.setsManifest = false := by
        split
        · exact List.forall_mem_singleton.mpr ⟨trivial, rfl⟩
        · exact hnone
      exact iff_of_true (writeArtifact_safe ha hbefore htell hlog hunlog) (Or.inl rfl)
  | turnover =>
      have hsafe : CrashSafe z disk log old new.built ([] ++ (writeArtifact new ++ [])) :=
        writeArtifact_safe ha hbefore htell hnone hnone
      rw [List.nil_append, List.append_nil] at hsafe
      exact iff_of_true hsafe (Or.inl rfl)
  | turnoverCmd => exact (install_safe_iff ha hbefore htell).trans (or_iff_right Bool.false_ne_true).symm
  | rwAdd => exact (install_safe_iff ha hbefore htell).trans (or_iff_right Bool.false_ne_true).symm
  | rwDelete => exact (install_safe_iff ha hbefore htell).trans (or_iff_right Bool.false_ne_true).symm

end

namespace Stored

/-- An image of an empty directory, and nothing next to it. -/
def emptyDisk : ImageDisk := ⟨some (emptyImage none).bytes, fun _ => none⟩

theorem before_emptyDisk : Before omnizip emptyDisk (some (emptyImage none).built) where
  manifest := rfl
  files i hi f hf := by
    cases hi
    rw [show (emptyImage none).built.files = [] by decide +kernel] at hf
    cases hf
  oneContent i hi f hf := by
    cases hi
    rw [show (emptyImage none).built.files = [] by decide +kernel] at hf
    cases hf
  complete i hi := by
    have ha : assemble foldDigest omnizip (emptyTree none) = some (emptyImage none) := rfl
    cases hi
    exact complete_built ha

theorem oneContent_of_all {files : List (Bytes × Bytes)}
    (h : files.all (fun f => files.all fun g => decide (f.1 = g.1 → f.2 = g.2)) = true) :
    OneContent files := fun f hf g hg =>
  of_decide_eq_true (List.all_eq_true.mp (List.all_eq_true.mp h f hf) g hg)

theorem namesTell_emptyDisk : NamesTell emptyDisk (thresholdImage 0).built where
  oneContent := oneContent_of_all (by decide +kernel)
  present f _ c hc := by
    rw [show emptyDisk.files f.1 = none from rfl] at hc
    cases hc

end Stored

open LimniFS.Stored

/-- `rw add` stopped after its first step: the manifest names a slab that is not there. -/
theorem manifest_first_is_torn :
    assemble foldDigest omnizip (thresholdTree 0) =
        some (thresholdImage 0) ∧
      Before omnizip emptyDisk (some (emptyImage none).built) ∧
      NamesTell emptyDisk (thresholdImage 0).built ∧
      ¬ CrashSafe omnizip emptyDisk none (some (emptyImage none).built)
        (thresholdImage 0).built (Replacer.rwAdd.steps (thresholdImage 0)) := by
  refine ⟨assemble_thresholdTree (by decide +kernel), before_emptyDisk,
    namesTell_emptyDisk, fun hsafe => ?_⟩
  rcases there_of_install_safe before_emptyDisk hsafe with hthere | hsame
  · have hsome : (thresholdImage 0).built.files.isEmpty = false := by decide +kernel
    obtain ⟨f, hf⟩ := List.exists_mem_of_ne_nil _ (List.isEmpty_eq_false_iff.mp hsome)
    cases hthere f hf
  · exact absurd hsame (by decide +kernel)

theorem crash_safe_iff_emptyDisk :
    Before omnizip emptyDisk (some (emptyImage none).built) ∧
      NamesTell emptyDisk (thresholdImage 0).built ∧
      (CrashSafe omnizip emptyDisk none (some (emptyImage none).built)
          (thresholdImage 0).built (Replacer.turnover.steps (thresholdImage 0)) ↔
        Replacer.turnover.inLibrary = true ∨
          (∀ f ∈ (thresholdImage 0).built.files,
            (emptyDisk.files f.1).isSome = true) ∨
          emptyDisk.manifest = some (thresholdImage 0).bytes) :=
  ⟨before_emptyDisk, namesTell_emptyDisk,
    crash_safe_iff _ _ _ _ (assemble_thresholdTree (by decide +kernel)) _ _ _
      before_emptyDisk namesTell_emptyDisk _⟩

end LimniFS
