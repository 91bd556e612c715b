/-
Extracting an image.

The tree is walked in order: directories and symbolic links are made on the way, files
become tasks, and a second name of a file becomes a link to its first.  Then workers
write the files, each task for itself, and the outcomes are collected in the order of
the tasks.  Links come last.

What the file system answers is a parameter, `Destination`: every operation may fail
at every path.  Of the outcomes only the first is looked at, and of the links none.
-/
import LimniFS.ImageReader
import LimniFS.Lib.ParallelMap
import LimniFS.Signing

namespace LimniFS

open Lib Lib.Parser

/-! ### The destination -/

/-- What each operation answers, by path below the destination; `none` is success. -/
structure Destination where
  createDirAll : Path → Option String
  symlink : Path → Bytes → Option String
  create : Path → Option String
  /-- The write of the chunk with this number. -/
  write : Path → Nat → Option String
  flush : Path → Option String
  hardLink : Path → Path → Option String
  copy : Path → Path → Option String

/-- A destination where everything works. -/
def Destination.sound : Destination where
  createDirAll _ := none
  symlink _ _ := none
  create _ := none
  write _ _ := none
  flush _ := none
  hardLink _ _ := none
  copy _ _ := none

/-! ### The walk -/

structure DirIdentity where
  path : Path
  mode : Nat
  mtimeNs : Nat
  xattrs : List XAttr
  deriving DecidableEq

/-- The state of the sink; `symlinks` is what was made, not kept by the source. -/
structure ParallelExtractSink where
  tasks : List (Path × Inode)
  dirs : List DirIdentity
  symlinks : List (Path × Bytes)
  links : List (Path × Path)
  seenInodes : List (Nat × Path)
  dirCount : Nat
  deriving DecidableEq

def ParallelExtractSink.new : ParallelExtractSink := ⟨[], [], [], [], [], 0⟩

def ioToCore (text : String) : CoreError := .corrupt ("live_tree: I/O: " ++ text)

def parallelExtractSink (io : Destination) : LiveTreeSink ParallelExtractSink where
  onDirectoryInode path inode s :=
    match io.createDirAll path with
    | some e => .error (ioToCore e)
    | none => .ok { s with
        dirCount := s.dirCount + 1
        dirs := s.dirs ++ [⟨path, inode.mode, inode.mtimeNs, inode.xattrs⟩] }
  onRegularFile path inode s :=
    match s.seenInodes.lookup inode.number with
    | some first => .ok { s with links := s.links ++ [(path, first)] }
    | none => .ok { s with
        seenInodes := s.seenInodes ++ [(inode.number, path)]
        tasks := s.tasks ++ [(path, inode)] }
  onSymlinkInode path _ target s :=
    match io.symlink path target with
    | some e => .error (ioToCore e)
    | none => .ok { s with symlinks := s.symlinks ++ [(path, target)] }
  onOther _ _ s := .ok s

/-! ### One file -/

/-- The chunks in order until one cannot be decoded or written; the chunks written are kept. -/
def writeChunks (io : Destination) (path : Path) :
    Nat → List (Except CoreError Bytes) → Except CliError (List Bytes)
  | _, [] => .ok []
  | _, .error e :: _ => .error (.formatFailed e)
  | n, .ok chunk :: rest =>
    match io.write path n with
    | some _ => .error (.readFailed "write")
    | none => (writeChunks io path (n + 1) rest).map fun chunks => chunk :: chunks

/-- The chunks written, or nothing if the file is not even created.  Attributes are applied as
far as possible and never fail. -/
def extractFile (io : Destination) (store : Option SlabSource) (path : Path) (inode : Inode) :
    Except CliError (List Bytes) :=
  if inode.isRegular = true ∨ 0 < inode.fileLen then
    match io.create path with
    | some _ => .error (.readFailed "create")
    | none =>
      match writeChunks io path 0 (fileChunks inode store) with
      | .error e => .error e
      | .ok chunks =>
        match io.flush path with
        | some _ => .error (.readFailed "flush")
        | none => .ok chunks
  else .ok []

/-! ### The whole image -/

/-- What the walk and the slabs give the workers. -/
structure ExtractPlan where
  blob : MetadataBlob
  sink : ParallelExtractSink
  store : Option SlabSource

/-- What was put into the destination: for every task its chunks or its failure, and for every
link whether it or a copy was made. -/
structure StagedTree where
  dirs : List DirIdentity
  symlinks : List (Path × Bytes)
  files : List (Path × Except CliError (List Bytes))
  links : List (Path × Bool)

/-- Nothing is missing. -/
structure StagedTree.Complete (tree : StagedTree) : Prop where
  files : ∀ f ∈ tree.files, f.2.isOk = true
  links : ∀ l ∈ tree.links, l.2 = true

/-- Where the signature and the trusted key are read from; `none` is a file that is missing. -/
structure VerifyKey where
  limsig : Option Bytes
  pem : Option (List Char)

section

variable (H : Hash) (z : Omnizip) (ed : Ed25519) (io : Destination) (sched : Schedule)

/-- Everything up to the parallel phase. -/
def planExtract (image : ImageFile) (bases : List ImageFile) : Except CliError ExtractPlan := do
  let loaded ← (loadImage z image).mapError .formatFailed
  if (io.createDirAll []).isSome then
    throw (.readFailed "dest")
  let sink ← (walkLiveTree H loaded.blob (parallelExtractSink io) loaded.rootInodeNumber
    .new).mapError .formatFailed
  let stores ← (loadSlabChain z image loaded bases).mapError .formatFailed
  pure ⟨loaded.blob, sink, chainSource z stores⟩

/-- The parallel phase and the links. -/
def ExtractPlan.staged (plan : ExtractPlan) : StagedTree where
  dirs := plan.sink.dirs
  symlinks := plan.sink.symlinks
  files := parallelMap sched (fun task => (task.1, extractFile io plan.store task.1 task.2))
    plan.sink.tasks
  links := plan.sink.links.map fun link =>
    (link.1, (io.hardLink link.2 link.1).isNone || (io.copy link.2 link.1).isNone)

/-- `extract_file(..).err()` of each task. -/
def StagedTree.writeErrors (tree : StagedTree) : List (Option CliError) :=
  tree.files.map fun f =>
    match f.2 with
    | .error e => some e
    | .ok _ => none

/-- `if let Some(Some(err)) = write_errors.into_iter().next()`. -/
def StagedTree.reported (tree : StagedTree) : Option CliError :=
  match tree.writeErrors.head? with
  | some (some e) => some e
  | _ => none

/-- The signature is checked if a key was given. -/
def checkVerifyKey (image : ImageFile) : Option VerifyKey → Except CliError Unit
  | none => .ok ()
  | some key => checkSignature H z ed (some image.manifest) key.limsig key.pem

def extract (image : ImageFile) (bases : List ImageFile) (verifyKey : Option VerifyKey) :
    Except CliError StagedTree := do
  checkVerifyKey H z ed image verifyKey
  let plan ← planExtract H z io image bases
  let tree := plan.staged io sched
  match tree.reported with
  | some e => throw e
  | none => pure tree

end

/-! ### What was extracted -/

section

variable {H : Hash} {z : Omnizip} {ed : Ed25519} {io : Destination} {sched : Schedule}

theorem except_mapError_eq_ok {ε ε' α : Type} {f : ε → ε'} {x : Except ε α} {a : α} :
    x.mapError f = .ok a ↔ x = .ok a := by
  rcases x with e | b
  · exact ⟨nofun, nofun⟩
  · exact ⟨fun h => by cases h; rfl, fun h => by cases h; rfl⟩

theorem planExtract_eq_ok {image : ImageFile} {bases : List ImageFile} {plan : ExtractPlan}
    (h : planExtract H z io image bases = .ok plan) :
    ∃ loaded stores, loadImage z image = .ok loaded ∧ io.createDirAll [] = none ∧
      walkLiveTree H loaded.blob (parallelExtractSink io) loaded.rootInodeNumber .new
        = .ok plan.sink ∧
      loadSlabChain z image loaded bases = .ok stores ∧ plan.blob = loaded.blob ∧
      plan.store = chainSource z stores := by
  unfold planExtract at h
  obtain ⟨loaded, hload, h⟩ := except_bind_eq_ok.mp h
  split at h
  · cases h
  · next hdest =>
      obtain ⟨sink, hsink, h⟩ := except_bind_eq_ok.mp h
      obtain ⟨stores, hstores, h⟩ := except_bind_eq_ok.mp h
      cases h
      exact ⟨loaded, stores, except_mapError_eq_ok.mp hload, Option.not_isSome_iff_eq_none.mp hdest,
        except_mapError_eq_ok.mp hsink, except_mapError_eq_ok.mp hstores, rfl, rfl⟩

theorem staged_files (plan : ExtractPlan) :
    (plan.staged io sched).files = plan.sink.tasks.map fun task =>
      (task.1, extractFile io plan.store task.1 task.2) :=
  parallelMap_eq_map _ _ _

theorem extract_eq_ok {image : ImageFile} {bases : List ImageFile} {verifyKey : Option VerifyKey}
    {tree : StagedTree} :
    extract H z ed io sched image bases verifyKey = .ok tree ↔
      checkVerifyKey H z ed image verifyKey = .ok () ∧
      ∃ plan, planExtract H z io image bases = .ok plan ∧ tree = plan.staged io sched ∧
        tree.reported = none := by
  unfold extract
  rw [except_bind_eq_ok]
  constructor
  · rintro ⟨⟨⟩, hverify, h⟩
    obtain ⟨plan, hplan, h⟩ := except_bind_eq_ok.mp h
    refine ⟨hverify, plan, hplan, ?_⟩
    simp only at h
    split at h
    · cases h
    · next hnone =>
        cases h
        exact ⟨rfl, hnone⟩
  · rintro ⟨hverify, plan, hplan, rfl, hnone⟩
    refine ⟨(), hverify, except_bind_eq_ok.mpr ⟨plan, hplan, ?_⟩⟩
    simp only [hnone]
    rfl

theorem writeChunks_ok {path : Path} :
    ∀ (chunks : List (Except CoreError Bytes)) (n : Nat) (written : List Bytes),
      writeChunks io path n chunks = .ok written → chunks = written.map .ok := by
  intro chunks
  induction chunks with
  | nil => intro n written h; cases h; rfl
  | cons chunk rest ih =>
      intro n written h
      rcases chunk with e | chunk
      · cases h
      · unfold writeChunks at h
        split at h
        · cases h
        · obtain ⟨tail, htail, rfl⟩ := map_eq_ok h
          rw [ih _ _ htail]
          rfl

theorem extractFile_ok {store : Option SlabSource} {path : Path} {inode : Inode}
    {written : List Bytes} (h : extractFile io store path inode = .ok written)
    (hfile : inode.isRegular = true ∨ 0 < inode.fileLen) :
    fileChunks inode store = written.map .ok := by
  unfold extractFile at h
  rw [if_pos hfile] at h
  split at h
  · cases h
  · split at h
    · cases h
    · next chunks hchunks =>
        split at h
        · cases h
        · cases h
          exact writeChunks_ok _ _ _ hchunks

end

end LimniFS
