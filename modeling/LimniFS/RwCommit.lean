/-
Commits and turnovers of one handle.

A commit writes its log before it replaces the manifest, under the hash the handle
remembers, and remembers the new manifest's hash when it is done.  A turnover replaces
the manifest as well, but it has the handle only to read, so the hash stays what it
was.  The next commit then writes a log that the next open takes for stale.

How a rebuild ends is part of a step: the bytes of the manifest it puts in place, or
nothing.  `wal_names_manifest` says for every run when a log carries the hash of the
manifest it will be compared with.

Opening an image is itself a sequence of steps: the manifest is read, then the files it names, then
the log, then the manifest once more for its hash, and at last the log is removed, whoever wrote
it.  Between these steps the writer goes on with its commit, or stops for good.

A `Race` is the disk, what the writer has done and has left to do, and where every open is.  An open
also throws away a staging directory that it takes for abandoned, which a slow writer then misses.
-/
import LimniFS.WalRecovery
import LimniFS.CrashSafety

namespace LimniFS.Rw

open Lib Lib.Parser

/-! ### Sessions -/

/-- The two files a handle and the next open share. -/
structure Disk where
  manifest : Option Bytes
  wal : Option Bytes

structure Session where
  image : RwImage
  disk : Disk

/-- One call on the handle. -/
inductive Step where
  | call (op : Op)
  /-- `files` is the order in which the pending files are logged.  `logged` says whether the log
  was written; then `rebuilt` is the new manifest, if the rebuild came to that, and `removed`
  says whether the log could be unlinked. -/
  | commit (files : List (Σ _ : Bytes, Bytes)) (logged : Bool) (rebuilt : Option Bytes)
      (removed : Bool)
  | turnover (rebuilt : Option Bytes)

section
variable (H : Hash)

/-- The first step of a commit. -/
def logged (files : List (Σ _ : Bytes, Bytes)) (s : Session) : Session :=
  { s with disk := { s.disk with wal := some (writeWal s.image files) } }

def Session.commit (s : Session) (files : List (Σ _ : Bytes, Bytes)) (log : Bool)
    (rebuilt : Option Bytes) (removed : Bool) : Session :=
  if log then
    match rebuilt with
    | none => logged files s
    | some manifest =>
      { image := { s.image with baseManifestHash := some (hashSection H manifest) }
        disk := ⟨some manifest, if removed then none else (logged files s).disk.wal⟩ }
  else s

def Session.turnover (s : Session) (rebuilt : Option Bytes) : Session :=
  match rebuilt with
  | none => s
  | some manifest => { s with disk := { s.disk with manifest := some manifest } }

/-- An operation that fails leaves the handle as it was. -/
def Step.apply (s : Session) : Step → Session
  | .call op => { s with image := ((op.apply s.image).toOption.getD s.image) }
  | .commit files log rebuilt removed => s.commit H files log rebuilt removed
  | .turnover rebuilt => s.turnover rebuilt

def run (s : Session) (steps : List Step) : Session := steps.foldl (Step.apply H) s

/-- A handle on the manifest that is on disk, or a new one. -/
inductive Starts : Session → Prop where
  | opened {z : Omnizip} {fuel : Nat} {file : ImageFile} {wal wal' : Option Bytes} {image : RwImage} :
      openImage H z fuel file wal = .ok (some image) → Starts ⟨image, ⟨some file.manifest, wal'⟩⟩
  | created (disk : Disk) : Starts ⟨RwImage.createNew, disk⟩

/-- The tag a log written now would carry is the hash of the manifest on disk. -/
def TagRight (s : Session) : Prop :=
  ∃ manifest, s.disk.manifest = some manifest ∧ walTag s.image = (hashSection H manifest).val

/-- A log written now is not taken for stale by the next open. -/
def LogReplayed (s : Session) : Prop :=
  ∀ files fresh, replayWal H s.disk.manifest fresh (logged files s).disk.wal =
    replayBody fresh ((writeWal s.image files).drop 40)

/-! ### Which manifest a handle remembers -/

/-- The manifest a step makes the handle remember. -/
def Step.tags : Step → Option Bytes
  | .commit _ true (some manifest) _ => some manifest
  | _ => none

/-- The manifest a turnover puts in place. -/
def Step.turnsOver : Step → Option Bytes
  | .turnover rebuilt => rebuilt
  | _ => none

/-- The manifest the handle remembers: that of its last commit, or else the one it was opened
on. -/
def remembered (s : Session) (steps : List Step) : Option Bytes :=
  (steps.reverse.findSome? Step.tags).or
    (if s.image.baseManifestHash.isSome then s.disk.manifest else none)

/-- What the last turnover since the last commit has put in place. -/
def turnedOver (steps : List Step) : Option Bytes :=
  (steps.reverse.takeWhile fun step => step.tags.isNone).findSome? Step.turnsOver

/-- The handle remembers a manifest, and no turnover since has left one with another hash. -/
def Current (s : Session) (steps : List Step) : Prop :=
  ∃ manifest, remembered s steps = some manifest ∧
    ∀ manifest', turnedOver steps = some manifest' → hashSection H manifest' = hashSection H manifest

end

/-! ### Runs -/

section
variable {H : Hash} {s : Session}

theorem apply_base {image image' : RwImage} {op : Op} (h : op.apply image = .ok image') :
    image'.baseManifestHash = image.baseManifestHash := by
  rcases Op.apply_cases h with ⟨data, e, inode, next, -, -, rfl⟩ | ⟨inode, rfl⟩
  · rfl
  · rfl

theorem apply_cases (s : Session) (step : Step) :
    (step.apply H s).image.baseManifestHash =
        (step.tags.map (hashSection H)).or s.image.baseManifestHash ∧
      (step.apply H s).disk.manifest = (step.tags.or step.turnsOver).or s.disk.manifest := by
  cases step with
  | call op =>
      refine ⟨?_, rfl⟩
      show ((op.apply s.image).toOption.getD s.image).baseManifestHash = s.image.baseManifestHash
      cases happly : op.apply s.image with
      | error e => rfl
      | ok image' => exact apply_base happly
  | commit files log rebuilt removed =>
      cases log with
      | false => exact ⟨rfl, rfl⟩
      | true =>
          cases rebuilt with
          | none => exact ⟨rfl, rfl⟩
          | some manifest => exact ⟨rfl, rfl⟩
  | turnover rebuilt =>
      cases rebuilt with
      | none => exact ⟨rfl, rfl⟩
      | some manifest => exact ⟨rfl, rfl⟩

theorem run_snoc (s : Session) (steps : List Step) (step : Step) :
    run H s (steps ++ [step]) = step.apply H (run H s steps) := by
  rw [run, List.foldl_append]
  rfl

theorem tags_snoc (steps : List Step) (step : Step) :
    (steps ++ [step]).reverse.findSome? Step.tags =
      step.tags.or (steps.reverse.findSome? Step.tags) := by
  rw [List.reverse_append, List.reverse_singleton, List.singleton_append, List.findSome?_cons]
  cases step.tags with
  | none => rfl
  | some manifest => rfl

theorem turnedOver_snoc (steps : List Step) (step : Step) :
    turnedOver (steps ++ [step]) =
      if step.tags.isSome then none else step.turnsOver.or (turnedOver steps) := by
  unfold turnedOver
  rw [List.reverse_append, List.reverse_singleton, List.singleton_append, List.takeWhile_cons]
  cases step.tags with
  | none =>
      simp only [Option.isNone_none, if_true, List.findSome?_cons, Option.isSome_none]
      cases step.turnsOver with
      | none => rfl
      | some manifest => rfl
  | some manifest => rfl

/-- **Every run**: the handle remembers the hash of its last commit's manifest, and on disk is
what was put there last. -/
theorem run_invariant (s : Session) (steps : List Step) :
    (run H s steps).image.baseManifestHash =
        ((steps.reverse.findSome? Step.tags).map (hashSection H)).or s.image.baseManifestHash ∧
      (run H s steps).disk.manifest =
        (turnedOver steps).or ((steps.reverse.findSome? Step.tags).or s.disk.manifest) := by
  induction steps using List.reverseRecOn with
  | nil => exact ⟨rfl, rfl⟩
  | append_singleton steps step ih =>
      obtain ⟨hbase, hdisk⟩ := apply_cases (H := H) (run H s steps) step
      rw [run_snoc, tags_snoc, turnedOver_snoc, hbase, hdisk, ih.1, ih.2]
      cases htags : step.tags with
      | none =>
          refine ⟨rfl, ?_⟩
          cases step.turnsOver with
          | none => rfl
          | some manifest => rfl
      | some manifest => exact ⟨rfl, rfl⟩

theorem Starts.base (h : Starts H s) {hash : Digest} (hbase : s.image.baseManifestHash = some hash) :
    ∃ manifest, s.disk.manifest = some manifest ∧ hash = hashSection H manifest := by
  cases h with
  | created disk => cases hbase
  | @opened z fuel file wal wal' image hopen =>
      refine ⟨file.manifest, rfl, ?_⟩
      unfold openImage at hopen
      obtain ⟨state, -, hopen⟩ := except_bind_eq_ok.mp hopen
      obtain ⟨paths, -, rfl⟩ := Option.map_eq_some_iff.mp (Except.ok.inj hopen)
      have htag : (replayWal H (some file.manifest) (freshHandle H file state paths)
          wal).baseManifestHash = some (hashSection H file.manifest) :=
        ((handle_freshHandle H file state paths).replayWal wal).tag
      exact (Option.some.inj (htag.symm.trans hbase)).symm

theorem base_of_remembered (h : Starts H s) {steps : List Step} {manifest : Bytes}
    (hrem : remembered s steps = some manifest) :
    (run H s steps).image.baseManifestHash = some (hashSection H manifest) ∧
      (run H s steps).disk.manifest = some ((turnedOver steps).getD manifest) := by
  obtain ⟨hbase, hdisk⟩ := run_invariant (H := H) s steps
  rw [hbase, hdisk]
  unfold remembered at hrem
  cases htags : steps.reverse.findSome? Step.tags with
  | some manifest' =>
      rw [htags] at hrem
      cases hrem
      refine ⟨rfl, ?_⟩
      cases turnedOver steps with
      | none => rfl
      | some _ => rfl
  | none =>
      rw [htags, Option.none_or] at hrem
      split at hrem
      · next hsome =>
          obtain ⟨hash, hhash⟩ := Option.isSome_iff_exists.mp hsome
          obtain ⟨manifest', hmanifest', rfl⟩ := h.base hhash
          rw [hmanifest'] at hrem
          cases hrem
          rw [hmanifest']
          refine ⟨hhash, ?_⟩
          cases turnedOver steps with
          | none => rfl
          | some _ => rfl
      · cases hrem

theorem tagRight_iff (h : Starts H s) {steps : List Step} {manifest : Bytes}
    (hrem : remembered s steps = some manifest) :
    TagRight H (run H s steps) ↔ ∀ manifest', turnedOver steps = some manifest' →
      hashSection H manifest' = hashSection H manifest := by
  obtain ⟨hbase, hdisk⟩ := base_of_remembered h hrem
  have htag : walTag (run H s steps).image = (hashSection H manifest).val := by
    rw [walTag, hbase]
  unfold TagRight
  rw [hdisk, htag]
  constructor
  · rintro ⟨m, hm, hval⟩ manifest' hturned
    rw [hturned] at hm
    cases hm
    exact (Subtype.ext hval).symm
  · intro hsame
    refine ⟨_, rfl, ?_⟩
    cases hturned : turnedOver steps with
    | none => rfl
    | some manifest' => exact congrArg Subtype.val (hsame manifest' hturned).symm

theorem logReplayed_of_tagRight (h : TagRight H s) : LogReplayed H s := by
  intro files fresh
  obtain ⟨manifest, hmanifest, htag⟩ := h
  rw [hmanifest]
  exact replayWal_written htag files fresh

/-- A turnover that leaves another manifest makes the next log stale. -/
theorem stale_after_turnover {manifest : Bytes}
    (hdiffer : walTag s.image ≠ (hashSection H manifest).val) :
    ¬ TagRight H (run H s [.turnover (some manifest)]) ∧
      ∀ fresh, replayWal H (run H s [.turnover (some manifest)]).disk.manifest fresh
        (logged [] (run H s [.turnover (some manifest)])).disk.wal = fresh := by
  constructor
  · rintro ⟨m, hm, htag⟩
    cases hm
    exact hdiffer htag
  · intro fresh
    exact replayWal_stale hdiffer [] fresh

/-- **In every run, a log carries the hash of the manifest on disk, and is replayed, where the
handle remembers a manifest and no turnover since has left another; and only there, once the
handle remembers one.** -/
theorem wal_names_manifest : ∀ (H : Hash) (s : Session), Starts H s → ∀ steps : List Step,
    (Current H s steps → TagRight H (run H s steps) ∧ LogReplayed H (run H s steps)) ∧
      ((remembered s steps).isSome = true → TagRight H (run H s steps) → Current H s steps) := by
  intro H s hstart steps
  constructor
  · rintro ⟨manifest, hrem, hsame⟩
    have hright := (tagRight_iff hstart hrem).mpr hsame
    exact ⟨hright, logReplayed_of_tagRight hright⟩
  · intro hsome hright
    obtain ⟨manifest, hrem⟩ := Option.isSome_iff_exists.mp hsome
    exact ⟨manifest, hrem, (tagRight_iff hstart hrem).mp hright⟩

end

namespace Stored

open LimniFS.Stored

/-- The image of an empty directory. -/
def emptyFile : ImageFile := ⟨(emptyImage none).bytes, fun _ => none⟩

def emptyOpened : RwImage := (rwOpen emptyFile none).get (by decide +kernel)

theorem openImage_emptyOpened :
    openImage foldDigest omnizip 8 emptyFile none = .ok (some emptyOpened) :=
  openImage_of_rwOpen (Option.some_get _).symm

/-- The same directory under a configuration that keeps its metadata in a sidecar. -/
def apartTree : WriteContext := { emptyTree none with metadataExternalizeThreshold := 1 }

/-- The opened image, on its own manifest. -/
def emptySession : Session := ⟨emptyOpened, ⟨some emptyFile.manifest, none⟩⟩

end Stored

open LimniFS.Stored LimniFS.Rw.Stored

/-- After a turnover under another configuration the log of the next commit is thrown away. -/
theorem log_after_turnover_is_stale :
    ∃ a : WriteArtifact,
      assemble foldDigest omnizip apartTree = some a ∧
      Starts foldDigest emptySession ∧
      ¬ TagRight foldDigest
        (run foldDigest emptySession [.turnover (some a.bytes)]) ∧
      ∀ fresh, replayWal foldDigest
        (run foldDigest emptySession [.turnover (some a.bytes)]).disk.manifest fresh
        (logged [] (run foldDigest emptySession
          [.turnover (some a.bytes)])).disk.wal = fresh := by
  have hdiffer : (assemble foldDigest omnizip apartTree).map
      (fun a => decide (walTag emptySession.image
        ≠ (hashSection foldDigest a.bytes).val)) = some true := by decide +kernel
  obtain ⟨a, ha, hne⟩ := Option.map_eq_some_iff.mp hdiffer
  exact ⟨a, ha, Starts.opened openImage_emptyOpened, stale_after_turnover (of_decide_eq_true hne)⟩

theorem wal_names_manifest_opened :
    Starts foldDigest emptySession ∧
      ((Current foldDigest emptySession [] →
        TagRight foldDigest (run foldDigest emptySession []) ∧
          LogReplayed foldDigest
            (run foldDigest emptySession [])) ∧
      ((remembered emptySession []).isSome = true →
        TagRight foldDigest (run foldDigest emptySession []) →
          Current foldDigest emptySession [])) :=
  ⟨Starts.opened openImage_emptyOpened,
    wal_names_manifest _ _ (Starts.opened openImage_emptyOpened) _⟩

/-! ### Opening, step by step -/

/-- How far an open has come. -/
inductive Opening where
  /-- The manifest is read. -/
  | read (manifest : Bytes)
  /-- The image is loaded. -/
  | loaded (image : RwImage)
  /-- A log was found and read. -/
  | found (image : RwImage) (log : Bytes)
  /-- `again` is what the log has made of the image.  The log is removed next. -/
  | checked (image : RwImage) (log : Bytes) (again : RwImage)
  | opened (image : RwImage) (log : Option Bytes) (again : RwImage)
  | failed

section
variable (H : Hash) (z : Omnizip) (fuel : Nat)

/-- The next step of an open.  Its files are loaded at once: a commit only adds some, so it makes no
difference when each is read.  While the path index is not finished within `fuel`, there is no next
step. -/
def Opening.step (disk : SwapDisk) : Opening → Opening × SwapDisk
  | .read manifest =>
    match openState z ⟨manifest, disk.image.files⟩ with
    | .error _ => (.failed, disk)
    | .ok state =>
      match buildPathIndex H state.blob fuel with
      | none => (.read manifest, disk)
      | some index => (.loaded (freshHandle H ⟨manifest, disk.image.files⟩ state index), disk)
  | .loaded image =>
    match disk.log with
    | none => (.opened image none image, disk)
    | some log => (.found image log, disk)
  | .found image log =>
    (.checked image log (replayWal H disk.image.manifest image (some log)), disk)
  | .checked image log again => (.opened image (some log) again, { disk with log := none })
  | .opened image log again => (.opened image log again, disk)
  | .failed => (.failed, disk)

/-- The open has taken something from this log. -/
def Opening.Took (log : Bytes) : Opening → Prop
  | .checked image l again => l = log ∧ again ≠ image
  | .opened image l again => l = some log ∧ again ≠ image
  | _ => False

/-! ### The race -/

structure Race where
  disk : SwapDisk
  /-- The staging directory was thrown away. -/
  swept : Bool
  done : List FsStep
  left : List FsStep
  opens : List Opening
  /-- How many of the opens began before the writer stopped. -/
  early : Nat

inductive Event where
  /-- The writer's next step; if it fails, the commit stops. -/
  | write
  | crash
  /-- An open begins; `stale` if it finds the staging directory too old. -/
  | start (stale : Bool)
  | resume (i : Nat)

/-- A commit begins. -/
def Race.init (disk : ImageDisk) (log : Option Bytes) (steps : List FsStep) : Race :=
  ⟨⟨disk, .empty, log⟩, false, [], steps, [], 0⟩

def Race.write (s : Race) : Race :=
  match s.left with
  | [] => s
  | step :: rest =>
    if s.swept && step.isStaged then { s with left := [] }
    else
      match step.apply s.disk with
      | none => { s with left := [] }
      | some disk => { s with disk := disk, done := s.done ++ [step], left := rest }

def Race.start (s : Race) (stale : Bool) : Race where
  disk := if stale then { s.disk with staging := .empty } else s.disk
  swept := s.swept || (stale && s.done.any FsStep.isStaged)
  done := s.done
  left := s.left
  opens := s.opens ++ [s.disk.image.manifest.elim .failed .read]
  early := if s.left = [] then s.early else s.opens.length + 1

def Race.resume (s : Race) (i : Nat) : Race :=
  match s.opens[i]? with
  | none => s
  | some opening =>
    { s with
      disk := (opening.step H z fuel s.disk).2
      opens := s.opens.set i (opening.step H z fuel s.disk).1 }

def Race.apply (s : Race) : Event → Race
  | .write => s.write
  | .crash => { s with left := [] }
  | .start stale => s.start stale
  | .resume i => s.resume H z fuel i

def Race.run (s : Race) (events : List Event) : Race := events.foldl (Race.apply H z fuel) s

end

/-! ### What should hold at every moment -/

def Race.Logged (s : Race) : Prop := ∃ log, FsStep.writeLog log ∈ s.done

def Race.Replaced (s : Race) : Prop := FsStep.move .manifest ∈ s.done

/-- The event catches a commit on its way: the writer stops before it has written its log, or an
open that began while it was at work looks at this log, or removes one once it is written, while
the manifest is not replaced. -/
def Event.Catches (log : Bytes) (s : Race) : Event → Prop
  | .write | .start _ => False
  | .crash => ¬ s.Logged
  | .resume i => i < s.early ∧ ¬ s.Replaced ∧
      ((∃ image, s.opens[i]? = some (.found image log)) ∨
        s.Logged ∧ ∃ image l again, s.opens[i]? = some (.checked image l again))

/-- The pending contents and operations are those of the handle. -/
structure PendingRestored (again image : RwImage) : Prop where
  files : ∀ path, again.pendingFiles.lookup path = image.pendingFiles.lookup path
  history : (again.pendingHistory.map fun e => (e.opByte, e.path)) =
    image.pendingHistory.map fun e => (e.opByte, e.path)

/-- An open that began after the writer had stopped has restored what was pending. -/
def Race.Recovered (image : RwImage) (s : Race) : Prop :=
  ∃ i fresh log again, s.early ≤ i ∧ s.opens[i]? = some (.opened fresh log again) ∧
    PendingRestored again image

section
variable (H : Hash) (z : Omnizip) (fuel : Nat)

/-- No event of the run catches the commit on its way. -/
def Undisturbed (log : Bytes) (s : Race) : List Event → Prop
  | [] => True
  | event :: rest =>
    ¬ event.Catches log s ∧ Undisturbed log (s.apply H z fuel event) rest

/-- Where the writer has written its log, or has stopped, and the manifest is not replaced, the next
open restores what is pending, or one after the writer has done so.  Where the manifest is
replaced, no open has taken anything from the log. -/
structure RaceSafe (image : RwImage) (log : Bytes) (s : Race) : Prop where
  kept : s.Logged ∨ s.left = [] → ¬ s.Replaced → s.Recovered image ∨
    ∃ manifest again, s.disk.image.manifest = some manifest ∧
      openImage H z fuel ⟨manifest, s.disk.image.files⟩ s.disk.log = .ok (some again) ∧
        PendingRestored again image
  once : s.Replaced → ∀ opening ∈ s.opens, ¬ opening.Took log

end

end LimniFS.Rw
