/-
Writing an image entry by entry.

A stream writer takes named entries in any order.  A call walks from the root to the
parent of its name, making every directory that is missing on the way, and then puts the
entry there.  A file or a link gets its inode number at once.  A file is chunked off its
reader and stored before the call returns; a staged file is only noted, and stored by
`finish`, which then resolves the hard links, gives the directories their numbers and
hands the context on to `assemble`.

A call that fails keeps what it did up to that point: the calls are steps on the writer
and return the writer they leave behind also when they fail.  `none` is a panic.
-/
import LimniFS.ChunkReader
import LimniFS.Lib.NameTree
import LimniFS.Lib.TreePatch
import LimniFS.WriteDirectory

namespace LimniFS

open Lib

/-! ### The tree under construction -/

/-- The identity of an entry. -/
structure EntryMeta where
  mtimeNs : Nat
  perms : Nat
  uid : Nat
  gid : Nat
  deriving DecidableEq

namespace EntryMeta

def new (mtimeNs perms : Nat) : EntryMeta := ⟨mtimeNs, perms, 0, 0⟩

/-- Of a directory that no call asked for. -/
def implicit : EntryMeta := .new 0 0o755

def mode (info : EntryMeta) (kind : Nat) : Nat := kind ||| (info.perms &&& 0o7777)

/-- The inode of an entry. -/
def inode (info : EntryMeta) (kind number : Nat) (xattrs : List XAttr) (content : PendingContent) :
    PendingInode where
  number := number
  mode := info.mode kind
  uid := info.uid
  gid := info.gid
  mtimeNs := info.mtimeNs
  xattrs := xattrs
  content := content

end EntryMeta

/-- What is not a directory.  The writer's tree holds inode numbers. -/
inductive StreamLeaf (ι : Type) where
  | file (inode : ι)
  | symlink (inode : ι)
  | deferredLink (target : Bytes)

abbrev StreamNode (ι : Type) := NameTree Bytes EntryMeta (StreamLeaf ι)

/-- The children of a directory. -/
abbrev StreamDir (ι : Type) := NameForest Bytes EntryMeta (StreamLeaf ι)

/-- The root; its identity is never changed. -/
abbrev rootNode {ι : Type} (tree : StreamDir ι) : StreamNode ι := .dir .implicit tree

def badName (name : Bytes) : WriteError :=
  .io ("invalid stream entry name " ++ debugStr name
    ++ ": must be a non-empty relative path without '.', '..', '\\', or NUL components")

def nameConflict (name : Bytes) : WriteError :=
  .io ("stream entry conflict: " ++ debugStr name ++ " already exists with a different type")

/-- Where an entry goes: the path of its directory, and its name there. -/
structure Slot where
  parent : Path
  leaf : Bytes

section

variable {ι : Type}

def badComponent (component : Bytes) : Bool :=
  component == [] || component == ascii "." || component == ascii ".."

/-- Walk to a directory and make what is missing; what was made before a failure stays. -/
def makeParents (name : Bytes) : Path → StreamDir ι → StreamDir ι × Except WriteError Unit
  | [], dir => (dir, .ok ())
  | component :: rest, dir =>
    if badComponent component then (dir, .error (badName name))
    else
      match dir.get component with
      | none =>
        let made := makeParents name rest .nil
        (dir.add component (.dir .implicit made.1), made.2)
      | some (.dir info children) =>
        let made := makeParents name rest children
        (dir.set component (.dir info made.1), made.2)
      | some (.leaf _) => (dir, .error (nameConflict name))

def nameComponents (name : Bytes) : Path := PathText.split 0x2F name

def descend (name : Bytes) (root : StreamDir ι) : StreamDir ι × Except WriteError Slot :=
  if name = [] ∨ name.head? = some 0x2F ∨ name.getLast? = some 0x2F then
    (root, .error (badName name))
  else if 0x5C ∈ name ∨ 0x00 ∈ name then (root, .error (badName name))
  else
    let parent := (nameComponents name).dropLast
    let leaf := (nameComponents name).getLastD []
    let made := makeParents name parent root
    match made.2 with
    | .error e => (made.1, .error e)
    | .ok () =>
      if badComponent leaf then (made.1, .error (badName name)) else (made.1, .ok ⟨parent, leaf⟩)

/-- What stands in a place. -/
def Slot.get (slot : Slot) (tree : StreamDir ι) : Option (StreamNode ι) :=
  (tree.childrenAt slot.parent).bind (·.get slot.leaf)

def Slot.put (slot : Slot) (node : StreamNode ι) (tree : StreamDir ι) : StreamDir ι :=
  tree.modifyAt (·.add slot.leaf node) slot.parent

/-- The place of a new entry, where nothing may stand yet. -/
def newSlot (name : Bytes) (root : StreamDir ι) : StreamDir ι × Except WriteError Slot :=
  let found := descend name root
  match found.2 with
  | .error e => (found.1, .error e)
  | .ok slot =>
    if (slot.get found.1).isSome then (found.1, .error (nameConflict name))
    else (found.1, .ok slot)

/-- Of a directory that is there only the time is taken over. -/
def placeDir (name : Bytes) (info : EntryMeta) (root : StreamDir ι) :
    StreamDir ι × Except WriteError Unit :=
  let found := descend name root
  match found.2 with
  | .error e => (found.1, .error e)
  | .ok slot =>
    match slot.get found.1 with
    | none => (slot.put (.dir info .nil) found.1, .ok ())
    | some (.dir old children) =>
      let stamped : StreamNode ι := .dir { old with mtimeNs := info.mtimeNs } children
      (found.1.modifyAt (·.set slot.leaf stamped) slot.parent, .ok ())
    | some (.leaf _) => (found.1, .error (nameConflict name))

end

/-! ### Attributes -/

def xattrTotalCap : Nat := 64 * 1024

def unrepresentable (x : Bytes × Bytes) : Bool :=
  x.1.contains 0x00 || x.1.contains 0x0A || x.2.contains 0x00 || x.2.contains 0x0A

/-- The attributes up to the first that passes the cap; those behind it are not looked at. -/
def toWireXattrsFrom (total : Nat) : List (Bytes × Bytes) → Except WriteError (List XAttr)
  | [] => .ok []
  | x :: rest =>
    if unrepresentable x then
      .error (.io ("xattr " ++ debugStr x.1
        ++ " carries NUL or newline bytes the pax record format cannot represent"))
    else
      let total := total + (x.1.length + x.2.length)
      if xattrTotalCap < total then .ok []
      else (toWireXattrsFrom total rest).map (⟨0, x.1, x.2⟩ :: ·)

def toWireXattrs (raw : List (Bytes × Bytes)) : Except WriteError (List XAttr) :=
  toWireXattrsFrom 0 raw

/-! ### The writer -/

/-- What the configuration fixes for all entries. -/
structure StreamCodecs where
  chunker : ParallelFastCDC
  textCodec : UInt8
  binaryCodec : UInt8
  tunables : CodecTunables
  tournament : TournamentSpec
  inlineThreshold : Nat

structure StagedEntry where
  name : Bytes
  info : EntryMeta
  xattrs : List XAttr
  inodeNumber : Nat
  data : Bytes

structure StreamWriter where
  ctx : WriterState
  tree : StreamDir Nat
  staged : List StagedEntry

def StreamCodecs.fromConfig (chunker : ParallelFastCDC) (config : WriteConfig) :
    Except WriteStop StreamCodecs := do
  let registry ← openRegistry config
  let o := processOptions config chunker registry none config.defaults.inlineThreshold
  pure ⟨chunker, o.textCodec, o.binaryCodec, o.tunables, o.tournament, o.inlineThreshold⟩

/-- The metadata codec is not the configuration's. -/
def StreamWriter.new (config : WriteConfig) : Except WriteStop (StreamCodecs × StreamWriter) := do
  let chunker ← chunkerFromConfig config
  let ctx := applyDefaults config
    { WriterState.new with collectDictSamples := config.dictionaries.enabled }
  let codecs ← StreamCodecs.fromConfig chunker config
  pure (codecs, ⟨ctx, .nil, []⟩)

def streamedFile (name : Bytes) (info : EntryMeta) (number fileLen : Nat) : PendingFile where
  inodeNumber := number
  path := nameComponents name
  mtimeNs := info.mtimeNs
  fileLen := fileLen
  mode := info.mode sIfreg
  uid := info.uid
  gid := info.gid

/-- The length of the file that was merged last, in its inode and in its entry. -/
def patchFileLen (totalLen : Nat) (s : WriterState) : WriterState :=
  { s with
    inodes := s.inodes.modifyLast fun inode =>
      match inode.content with
      | .dropBacked _ slices => { inode with content := .dropBacked totalLen slices }
      | _ => inode
    pendingFiles := s.pendingFiles.modifyLast fun pf => { pf with fileLen := totalLen } }

/-- How a call leaves the writer, and what it returns. -/
abbrev Called := StreamWriter × Except WriteError Unit

section

variable (env : WriterEnv) (codecs : StreamCodecs)

/-- Every chunk becomes a drop, also one that the file has twice. -/
def chunkedResult (chunks : List Bytes) : ChunkedFileResult where
  drops := chunks.map fun chunk =>
    let best := compressChunkWithTournament env.z chunk (env.classify chunk) codecs.textCodec
      codecs.binaryCodec codecs.tunables codecs.tournament
    ⟨env.H chunk, chunk, best.2, best.1, 0⟩
  slices := slicesFrom env.H 0 chunks

/-- Store a file that was read.  The attributes of a file with slices are not kept. -/
def storeChunks (name : Bytes) (info : EntryMeta) (number : Nat) (xattrs : List XAttr)
    (chunks : List Bytes) (ctx : WriterState) : WriterState :=
  let totalLen := (chunks.map List.length).sum
  let ctx := { ctx with fileCount := ctx.fileCount + 1 }
  if totalLen ≤ codecs.inlineThreshold then
    addInode ctx (info.inode sIfreg number xattrs (.inline chunks.flatten))
  else
    patchFileLen totalLen (mergeChunkedFile env ctx (streamedFile name info number 0)
      (chunkedResult env codecs chunks))

/-- What follows once the reader was read, with the file's number and its place. -/
def StreamWriter.storeRead (w : StreamWriter) (name : Bytes) (info : EntryMeta) (number : Nat)
    (wireXattrs : List XAttr) (slot : Slot) :
    Option (Except String (List Bytes)) → Option Called
  | none => none
  | some (.error e) => some (w, .error (.io e))
  | some (.ok chunks) =>
    some ({ w with
      ctx := storeChunks env codecs name info number wireXattrs chunks w.ctx
      tree := slot.put (.leaf (.file number)) w.tree }, .ok ())

def StreamWriter.addFile (name : Bytes) (info : EntryMeta) (xattrs : List (Bytes × Bytes))
    (reader : List ReadResult) (w : StreamWriter) : Option Called :=
  let found := newSlot name w.tree
  let w := { w with tree := found.1 }
  match found.2 with
  | .error e => some (w, .error e)
  | .ok slot =>
    let number := w.ctx.nextInode
    let ctx := { w.ctx with nextInode := number + 1 }
    match toWireXattrs xattrs with
    | .error e => some ({ w with ctx := ctx }, .error e)
    | .ok wireXattrs =>
      let pf := streamedFile name info number 0
      let ctx := { ctx with pendingFiles := ctx.pendingFiles ++ [pf] }
      StreamWriter.storeRead env codecs { w with ctx := ctx } name info number wireXattrs slot
        (codecs.chunker.scalar.chunkReader reader)

/-- The entry is in the tree before its attributes are looked at. -/
def StreamWriter.stageFile (name : Bytes) (info : EntryMeta) (xattrs : List (Bytes × Bytes))
    (data : Bytes) (w : StreamWriter) : Called :=
  let found := newSlot name w.tree
  let w := { w with tree := found.1 }
  match found.2 with
  | .error e => (w, .error e)
  | .ok slot =>
    let number := w.ctx.nextInode
    let ctx := { w.ctx with nextInode := number + 1, fileCount := w.ctx.fileCount + 1 }
    let w := { w with ctx := ctx, tree := slot.put (.leaf (.file number)) w.tree }
    match toWireXattrs xattrs with
    | .error e => (w, .error e)
    | .ok wireXattrs =>
      ({ w with staged := w.staged ++ [⟨name, info, wireXattrs, number, data⟩] }, .ok ())

def StreamWriter.addDir (name : Bytes) (info : EntryMeta) (w : StreamWriter) : Called :=
  if name = ascii "/" then (w, .ok ())
  else
    let placed := placeDir name info w.tree
    ({ w with tree := placed.1 }, placed.2)

/-- The target is looked for by `finish`. -/
def StreamWriter.addHardlink (name target : Bytes) (w : StreamWriter) : Called :=
  let found := newSlot name w.tree
  let w := { w with tree := found.1 }
  match found.2 with
  | .error e => (w, .error e)
  | .ok slot => ({ w with tree := slot.put (.leaf (.deferredLink target)) w.tree }, .ok ())

def StreamWriter.addSymlink (name target : Bytes) (info : EntryMeta) (w : StreamWriter) : Called :=
  let found := newSlot name w.tree
  let w := { w with tree := found.1 }
  match found.2 with
  | .error e => (w, .error e)
  | .ok slot =>
    let number := w.ctx.nextInode
    let ctx := { w.ctx with nextInode := number + 1 }
    ({ w with
      ctx := addInode ctx (info.inode sIflnk number [] (.symlink target))
      tree := slot.put (.leaf (.symlink number)) w.tree }, .ok ())

/-! ### Finishing -/

/-- Store one staged entry. -/
def flushEntry (ctx : WriterState) (entry : StagedEntry) : Option WriterState := do
  let chunks ← codecs.chunker.chunkSlice env.threads entry.data
  let pf := streamedFile entry.name entry.info entry.inodeNumber entry.data.length
  let ctx := { ctx with pendingFiles := ctx.pendingFiles ++ [pf] }
  if entry.data.length ≤ codecs.inlineThreshold then
    pure (addInode ctx
      (entry.info.inode sIfreg entry.inodeNumber entry.xattrs (.inline entry.data)))
  else
    let ctx := if entry.xattrs = [] then ctx else { ctx with
      inodeXattrs := setEntry ctx.inodeXattrs entry.inodeNumber entry.xattrs }
    pure (mergeChunkedFile env ctx pf (chunkedResult env codecs chunks))

/-- In the order they were staged. -/
def flushStaged (staged : List StagedEntry) (ctx : WriterState) : Option WriterState :=
  staged.foldlM (flushEntry env codecs) ctx

end

section

variable {ι : Type}

def StreamLeaf.linkTarget : StreamLeaf ι → Option Bytes
  | .deferredLink target => some target
  | _ => none

/-- The targets of all deferred links, in the order of the tree. -/
def linkTargets (tree : StreamDir ι) : List Bytes := tree.leaves.filterMap (·.linkTarget)

def badTarget (target : Bytes) : WriteError :=
  .io ("hardlink target " ++ debugStr target ++ " is not a file in the tree")

def targetPath (target : Bytes) : Path := (nameComponents target).filter (· ≠ [])

/-- The file behind a target; a link is followed, and one met before is a cycle.  Every call
but the first is about the target of a link of the tree. -/
def chase (root : StreamDir ι) : Nat → Bytes → List Bytes → Except WriteError ι
  | 0, target, _ => .error (badTarget target)
  | fuel + 1, target, seen =>
    if target ∈ seen then .error (badTarget target)
    else
      match (rootNode root).look (targetPath target) with
      | some (.inr (.file inode)) => .ok inode
      | some (.inr (.deferredLink next)) => chase root fuel next (seen ++ [target])
      | _ => .error (badTarget target)

/-- As far as the chase can go: once through every target. -/
def chaseFuel (root : StreamDir ι) : Nat := (linkTargets root).length + 1

mutual

/-- Put the files that were found in the places of the links, one after another. -/
def replaceNode : StreamNode ι → List ι → StreamNode ι × List ι
  | .leaf (.deferredLink target), [] => (.leaf (.deferredLink target), [])
  | .leaf (.deferredLink _), inode :: resolved => (.leaf (.file inode), resolved)
  | .leaf (.file inode), resolved => (.leaf (.file inode), resolved)
  | .leaf (.symlink inode), resolved => (.leaf (.symlink inode), resolved)
  | .dir info children, resolved =>
    let replaced := replaceLinks children resolved
    (.dir info replaced.1, replaced.2)

def replaceLinks : StreamDir ι → List ι → StreamDir ι × List ι
  | .nil, resolved => (.nil, resolved)
  | .cons name node rest, resolved =>
    let first := replaceNode node resolved
    let others := replaceLinks rest first.2
    (.cons name first.1 others.1, others.2)

end

end

/-- One more name for an inode.  The count is a `u32` in the source, which 2^32 names would overflow. -/
def bumpNlink (s : WriterState) (number : Nat) : WriterState :=
  { s with nlinkCounts := setEntry s.nlinkCounts number ((s.nlinkCounts number).getD 1 + 1) }

def resolveDeferredLinks (tree : StreamDir Nat) (s : WriterState) :
    Except WriteError (StreamDir Nat × WriterState) := do
  let resolved ← (linkTargets tree).mapM fun target => chase tree (chaseFuel tree) target []
  pure ((replaceLinks tree resolved).1, resolved.foldl bumpNlink s)

section

variable (env : WriterEnv)

/-- A directory gets its number before its children. -/
def enterDir (s : WriterState) : WriterState :=
  { s with nextInode := s.nextInode + 1, dirCount := s.dirCount + 1 }

/-- A directory whose children have their entries. -/
def leaveDir (info : EntryMeta) (number : Nat) (entries : List DirEntry) (s : WriterState) :
    Except WriteStop ((Nat × UInt8) × WriterState) :=
  let entries := sortEntries entries
  match encodeDirNode env.H entries with
  | none => .error .panicked
  | some node =>
    let s := { s with dirNodes := s.dirNodes ++ [node] }
    .ok ((number, EntryType.directory),
      addInode s (info.inode sIfdir number [] (.directory entries)))

mutual

/-- The number and the type of a node's entry. -/
def materializeNode : StreamNode Nat → WriterState →
    Except WriteStop ((Nat × UInt8) × WriterState)
  | .leaf (.file number), s => .ok ((number, EntryType.file), s)
  | .leaf (.symlink number), s => .ok ((number, EntryType.symlink), s)
  | .leaf (.deferredLink _), _ =>
    .error (.failed (.io "internal: unresolved hardlink reached materialization"))
  | .dir info children, s =>
    match materializeChildren children (enterDir s) with
    | .error e => .error e
    | .ok (entries, s') => leaveDir env info s.nextInode entries s'

def materializeChildren : StreamDir Nat → WriterState →
    Except WriteStop (List DirEntry × WriterState)
  | .nil, s => .ok ([], s)
  | .cons name node rest, s =>
    match materializeNode node s with
    | .error e => .error e
    | .ok (entry, s) =>
      match materializeChildren rest s with
      | .error e => .error e
      | .ok (entries, s) => .ok (⟨name, entry.1, entry.2⟩ :: entries, s)

end

/-- Up to `assemble`. -/
def StreamWriter.finishContext (codecs : StreamCodecs) (dictionaries : DictionaryConfig)
    (w : StreamWriter) : Except WriteStop WriterState :=
  match flushStaged env codecs w.staged w.ctx with
  | none => .error .panicked
  | some ctx =>
    match resolveDeferredLinks w.tree ctx with
    | .error e => .error (.failed e)
    | .ok (tree, ctx) =>
      match materializeNode env (rootNode tree) ctx with
      | .error e => .error e
      | .ok (root, ctx) =>
        .ok (trainAndApplyDictionary env dictionaries { ctx with rootInodeNumber := root.1 })

def StreamWriter.finish (codecs : StreamCodecs) (dictionaries : DictionaryConfig)
    (w : StreamWriter) : Except WriteStop WriteArtifact :=
  match w.finishContext env codecs dictionaries with
  | .error e => .error e
  | .ok ctx =>
    match assemble env.H env.z ctx.toWriteContext with
    | none => .error .panicked
    | some artifact => .ok artifact

end

end LimniFS
