/-
Commands that rebuild an image from an extracted tree.

`turnover`, `rw add` and `rw delete` extract the image into a staging directory, change
the staged tree or not, write it as a new image and put that over the old one.  They
trust the one value extraction returns.

That value is the outcome of the first task.  If another one fails the commands go on
with what was staged, and the old image is overwritten by one that lacks the file;
`extract_reports_failures_iff` says exactly when this cannot happen.
-/
import LimniFS.SignedExtract

namespace LimniFS

open Lib

/-! ### The commands -/

/-- An image on disk; no manifest if there is no image yet. -/
structure ImageDisk where
  manifest : Option Bytes
  files : Directory

/-- What a rebuild is given from outside: the writer, and the answers of the file system.  Of a
failed write something may be left in the file. -/
structure RebuildEnv where
  writeDirectoryWithConfig : StagedTree → Except String WriteArtifact
  writeManifest : Option (Option Bytes)
  writeSidecar : Bytes → Option (Option Bytes)
  removeFile : Path → Option String
  /-- The file that `rw add` copies, if it can be read. -/
  source : Option Bytes

/-- `std::fs::write` into the image's directory. -/
def RebuildEnv.write (env : RebuildEnv) (disk : ImageDisk) (name bytes : Bytes) :
    Except CliError Unit × ImageDisk :=
  let put (content : Option Bytes) : ImageDisk :=
    { disk with files := fun n => if n = name then content else disk.files n }
  match env.writeSidecar name with
  | some left => (.error (.readFailed "sidecar"), put left)
  | none => (.ok (), put (some bytes))

/-- Locators and bytes, one file after another until one fails. -/
def RebuildEnv.writeAll (env : RebuildEnv) :
    List (Bytes × Bytes) → ImageDisk → Except CliError Unit × ImageDisk
  | [], disk => (.ok (), disk)
  | (locator, bytes) :: rest, disk =>
    match localSidecarName locator with
    | .error e => (.error (.formatFailed e), disk)
    | .ok name =>
      match env.write disk name bytes with
      | (.error e, disk) => (.error e, disk)
      | (.ok (), disk) => env.writeAll rest disk

/-- The manifest first, then the slabs, then the sidecar. -/
def RebuildEnv.install (env : RebuildEnv) (a : WriteArtifact) (disk : ImageDisk) :
    Except CliError Unit × ImageDisk :=
  match env.writeManifest with
  | some left => (.error (.readFailed "image"), { disk with manifest := left })
  | none => env.writeAll ((a.slabs.map fun s => (s.locator, s.bytes))
      ++ a.metadataSidecar.toList.map fun m => (m.locator, m.bytes))
      { disk with manifest := some a.bytes }

/-- A staged tree is changed, written and put over the image; every failure before that leaves
the image alone. -/
def RebuildEnv.rebuild (env : RebuildEnv) (edit : StagedTree → Except CliError StagedTree)
    (staged : Except CliError StagedTree) (disk : ImageDisk) : Except CliError Unit × ImageDisk :=
  match staged with
  | .error e => (.error e, disk)
  | .ok tree =>
    match edit tree with
    | .error e => (.error e, disk)
    | .ok tree =>
      match env.writeDirectoryWithConfig tree with
      | .error e => (.error (.writeFailed e), disk)
      | .ok a => env.install a disk

/-- The parent is made and the source is copied over whatever is there. -/
def addFile (io : Destination) (source : Option Bytes) (path : Path) (tree : StagedTree) :
    Except CliError StagedTree :=
  if (io.createDirAll path.dropLast).isSome then .error (.readFailed "parent")
  else
    match source with
    | none => .error (.readFailed "src")
    | some bytes => .ok { tree with
        files := tree.files.filter (fun f => f.1 ≠ path) ++ [(path, .ok [bytes])] }

def removeStaged (env : RebuildEnv) (path : Path) (tree : StagedTree) : Except CliError StagedTree :=
  match env.removeFile path with
  | some _ => .error (.readFailed "target")
  | none => .ok { tree with
      files := tree.files.filter fun f => f.1 ≠ path
      links := tree.links.filter fun l => l.1 ≠ path
      symlinks := tree.symlinks.filter fun l => l.1 ≠ path }

section

variable (H : Hash) (z : Omnizip) (ed : Ed25519) (io : Destination) (sched : Schedule)
  (env : RebuildEnv)

/-- The image extracted into a staging directory, without bases and without a key. -/
def stageImage (disk : ImageDisk) : Except CliError StagedTree :=
  match disk.manifest with
  | none => .error (.readFailed "image")
  | some manifest => extract H z ed io sched ⟨manifest, disk.files⟩ [] none

def turnoverCmd (disk : ImageDisk) : Except CliError Unit × ImageDisk :=
  env.rebuild .ok (stageImage H z ed io sched disk) disk

/-- An image that does not exist yet starts from an empty directory. -/
def rwAdd (destPath : Path) (disk : ImageDisk) : Except CliError Unit × ImageDisk :=
  let staged :=
    if disk.manifest.isSome then stageImage H z ed io sched disk
    else if (io.createDirAll []).isSome then .error (.readFailed "staging")
    else .ok ⟨[], [], [], []⟩
  env.rebuild (addFile io env.source destPath) staged disk

def rwDelete (path : Path) (disk : ImageDisk) : Except CliError Unit × ImageDisk :=
  env.rebuild (removeStaged env path) (stageImage H z ed io sched disk) disk

/-- No command changes the image on disk. -/
def CommandsKeep (disk : ImageDisk) : Prop :=
  (turnoverCmd H z ed io sched env disk).2 = disk ∧
    (∀ path, (rwAdd H z ed io sched env path disk).2 = disk) ∧
    ∀ path, (rwDelete H z ed io sched env path disk).2 = disk

end

/-! ### What is reported -/

/-- The task at the head of the list fails. -/
def FirstTaskFails (io : Destination) (plan : ExtractPlan) : Prop :=
  ∃ task ∈ plan.sink.tasks.head?, (extractFile io plan.store task.1 task.2).isOk = false

section

variable {H : Hash} {z : Omnizip} {ed : Ed25519} {io : Destination} {sched : Schedule}

/-- **Only the first task is looked at**, in every worker order. -/
theorem reported_isSome_iff (sched : Schedule) (plan : ExtractPlan) :
    (plan.staged io sched).reported.isSome = true ↔ FirstTaskFails io plan := by
  unfold StagedTree.reported StagedTree.writeErrors FirstTaskFails
  rw [staged_files, List.map_map]
  rcases plan.sink.tasks with _ | ⟨task, rest⟩
  · exact ⟨nofun, nofun⟩
  · simp only [List.map_cons, List.head?_cons, Option.mem_some_iff, exists_eq_left',
      Function.comp]
    rcases extractFile io plan.store task.1 task.2 with e | written
    · exact ⟨fun _ => rfl, fun _ => rfl⟩
    · exact ⟨nofun, nofun⟩

theorem extract_error_iff {image : ImageFile} {bases : List ImageFile}
    {verifyKey : Option VerifyKey} {plan : ExtractPlan}
    (hverify : checkVerifyKey H z ed image verifyKey = .ok ())
    (hplan : planExtract H z io image bases = .ok plan) :
    (∃ e, extract H z ed io sched image bases verifyKey = .error e) ↔ FirstTaskFails io plan := by
  rw [← reported_isSome_iff sched]
  have hok := @extract_eq_ok H z ed io sched image bases verifyKey
  constructor
  · rintro ⟨e, he⟩
    by_contra hnone
    have := hok.mpr ⟨hverify, plan, hplan, rfl, Option.not_isSome_iff_eq_none.mp hnone⟩
    rw [he] at this
    cases this
  · intro hsome
    rcases hex : extract H z ed io sched image bases verifyKey with e | tree
    · exact ⟨e, rfl⟩
    · obtain ⟨-, plan', hplan', rfl, hnone⟩ := hok.mp hex
      rw [hplan] at hplan'
      cases hplan'
      rw [hnone] at hsome
      cases hsome

theorem commandsKeep_of_error {image : ImageFile} {e : CliError}
    (he : extract H z ed io sched image [] none = .error e) (env : RebuildEnv) :
    CommandsKeep H z ed io sched env ⟨some image.manifest, image.dir⟩ := by
  have hstage : stageImage H z ed io sched ⟨some image.manifest, image.dir⟩ = .error e := he
  unfold CommandsKeep turnoverCmd rwAdd rwDelete
  rw [hstage]
  exact ⟨rfl, fun _ => rfl, fun _ => rfl⟩

/-- A writer that returns `bytes`, on a file system where everything works. -/
def writesOver (bytes : Bytes) : RebuildEnv where
  writeDirectoryWithConfig _ := .ok ⟨bytes, zeroDigest, [], none, 0, 0, 0, 0, 0⟩
  writeManifest := none
  writeSidecar _ := none
  removeFile _ := none
  source := none

theorem turnoverCmd_writesOver {image : ImageFile} {tree : StagedTree}
    (htree : extract H z ed io sched image [] none = .ok tree) (bytes : Bytes) :
    (turnoverCmd H z ed io sched (writesOver bytes) ⟨some image.manifest, image.dir⟩).2.manifest
      = some bytes := by
  have hstage : stageImage H z ed io sched ⟨some image.manifest, image.dir⟩ = .ok tree := htree
  unfold turnoverCmd
  rw [hstage]
  rfl

/--
**When extraction reports failures.**  Once the tree was walked, whatever the workers' order,
an incomplete tree is reported exactly when nothing is missing or the first task is among what
failed; and exactly then the commands never put an image built from an incomplete tree over the
old one.
-/
theorem extract_reports_failures_iff {image : ImageFile} {bases : List ImageFile}
    {verifyKey : Option VerifyKey} {plan : ExtractPlan}
    (hverify : checkVerifyKey H z ed image verifyKey = .ok ())
    (hplan : planExtract H z io image bases = .ok plan) :
    ((¬ (plan.staged io sched).Complete →
        ∃ e, extract H z ed io sched image bases verifyKey = .error e)
      ↔ ((plan.staged io sched).Complete ∨ FirstTaskFails io plan)) ∧
    (bases = [] →
      ((∀ env, ¬ (plan.staged io sched).Complete →
          CommandsKeep H z ed io sched env ⟨some image.manifest, image.dir⟩)
        ↔ ((plan.staged io sched).Complete ∨ FirstTaskFails io plan))) := by
  constructor
  · rw [extract_error_iff hverify hplan]
    exact or_iff_not_imp_left.symm
  · rintro rfl
    have herror := @extract_error_iff H z ed io sched image [] none plan rfl hplan
    constructor
    · intro hkeep
      by_contra hcond
      obtain ⟨hincomplete, hfirst⟩ := not_or.mp hcond
      rcases hex : extract H z ed io sched image [] none with e | tree
      · exact hfirst (herror.mp ⟨e, hex⟩)
      · -- a writer that returns other bytes than the old manifest
        obtain ⟨hturn, -⟩ := hkeep (writesOver (0 :: image.manifest)) hincomplete
        have hover := turnoverCmd_writesOver hex (0 :: image.manifest)
        rw [hturn] at hover
        exact absurd (congrArg List.length (Option.some.inj hover)) (by simp)
    · rintro (hcomplete | hfirst) env hincomplete
      · exact absurd hcomplete hincomplete
      · obtain ⟨e, he⟩ := herror.mpr hfirst
        exact commandsKeep_of_error he env

end

namespace Stored

def layerEntries : List DirEntry := [⟨ascii "a", 2, EntryType.file⟩, ⟨ascii "f", 3, EntryType.file⟩]

/-- A layer with a file of its own and a file whose drop is in the base. -/
def layerTree : WriteContext :=
  { emptyTree (some zeroDigest) with
    inodes := [⟨1, 0x41ED, 0, 0, 0, [], .directory layerEntries⟩,
      ⟨2, 0x81A4, 0, 0, 0, [], .inline [7]⟩,
      ⟨3, 0x81A4, 0, 0, 0, [], .dropBacked 4 [⟨foldDigest [1, 2, 3, 4], 0, 4⟩]⟩]
    dirNodes := [⟨layerEntries, dirNodeBytes layerEntries, dirNodeHash foldDigest layerEntries⟩]
    drops := [⟨foldDigest [1, 2, 3, 4], 4, [], codecReferenced, noDict, none, 0⟩]
    fileCount := 2 }

def layerImage : ImageFile :=
  ⟨((assemble foldDigest omnizip layerTree).map (·.bytes)).getD [], fun _ => none⟩

def layerPlan : Except CliError ExtractPlan := planExtract foldDigest omnizip .sound layerImage []

def extractLayer : Except CliError StagedTree :=
  extract foldDigest omnizip ed25519 .sound .sequential layerImage [] none

end Stored

open LimniFS.Stored

/-- A layer extracted without its base: the second file fails, and nobody is told. -/
theorem failed_task_not_reported :
    ∃ plan tree env, layerPlan = .ok plan ∧ extractLayer = .ok tree ∧
      ¬ (plan.staged .sound .sequential).Complete ∧
      ¬ CommandsKeep foldDigest omnizip ed25519 .sound .sequential env
        ⟨some layerImage.manifest, layerImage.dir⟩ := by
  obtain ⟨plan, hplan⟩ := exists_eq_ok (x := layerPlan) (by decide +kernel)
  obtain ⟨tree, htree⟩ := exists_eq_ok (x := extractLayer) (by decide +kernel)
  have hmissing : layerPlan.map (fun plan => (plan.staged .sound .sequential).files.all
      fun f => f.2.isOk) = .ok false := by decide +kernel
  rw [hplan] at hmissing
  have hincomplete : ¬ (plan.staged .sound .sequential).Complete := by
    intro hcomplete
    have hall := (List.all_eq_true.mpr hcomplete.files).symm.trans (Except.ok.inj hmissing)
    cases hall
  refine ⟨plan, tree, writesOver (0 :: layerImage.manifest), hplan, htree, hincomplete, ?_⟩
  rintro ⟨hturn, -⟩
  have hover := turnoverCmd_writesOver htree (0 :: layerImage.manifest)
  rw [hturn] at hover
  exact absurd (congrArg List.length (Option.some.inj hover)) (by simp)

/-- The same layer. -/
theorem extract_reports_failures_iff_layer :
    ∃ plan, layerPlan = .ok plan ∧
      ((¬ (plan.staged .sound .sequential).Complete → ∃ e, extractLayer = .error e)
        ↔ ((plan.staged .sound .sequential).Complete ∨ FirstTaskFails .sound plan)) := by
  obtain ⟨plan, hplan⟩ := exists_eq_ok (x := layerPlan) (by decide +kernel)
  exact ⟨plan, hplan, (extract_reports_failures_iff rfl hplan).1⟩

end LimniFS
