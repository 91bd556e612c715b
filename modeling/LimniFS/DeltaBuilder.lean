/-
The delta builder: the operations that turn one image's tree into another's.

Both trees are walked together from their roots.  At a pair of directories the names
are compared: a name of the child alone is an `Add`, a name of the parent alone a
`Remove`, and a name of both is walked further when both are directories and compared
by `inodes_equal` otherwise.  The recursion of the source has no bound; here it has as
much fuel as there are pairs of inodes.  A chain of directories longer than that meets
a pair twice, and then the source does not return either.

A tree is the map from the paths of an image to what a reader sees there, and an operation
puts a subtree of the child at its path, or takes the one that is there away.

`differences` is the walk over two directories with relative paths in place of texts: a
difference lies at a path, and below an entry its path has the entry's name in front.  The
builder's operations are these, under the text of the directory they start at
(`diffDirectory_eq`).
-/
import LimniFS.ImageReader
import LimniFS.ParsedMetadata

namespace LimniFS.DeltaBuilder

open Lib Lib.Parser

/-! ### Operations -/

inductive TreeOpKind where
  | add
  | remove
  | replace
  deriving DecidableEq, Repr

structure TreeOp where
  kind : TreeOpKind
  path : Bytes
  inodeNumber : Option Nat
  deriving DecidableEq

/-- The operations, and the root the delta is against. -/
structure DeltaArtifact where
  treeOps : List TreeOp
  baseRoot : Digest
  deriving DecidableEq

/-! ### Maps of entries -/

/-- `BTreeMap::insert`, on the entries in the order of their keys. -/
def mapInsert (key : Bytes) (value : Nat) : List (Bytes × Nat) → List (Bytes × Nat)
  | [] => [(key, value)]
  | (k, v) :: rest =>
      if key < k then (key, value) :: (k, v) :: rest
      else if key = k then (key, value) :: rest
      else (k, v) :: mapInsert key value rest

/-- The map from names to inode numbers that is collected from a directory node. -/
def entryMap (node : DirectoryNode) : List (Bytes × Nat) :=
  node.entries.foldl (fun m e => mapInsert e.name e.inodeNumber m) []

/-- `BTreeMap::get`. -/
def mapGet (m : List (Bytes × Nat)) (key : Bytes) : Option Nat :=
  (m.find? fun e => e.1 == key).map Prod.snd

/-! ### The difference of two directories -/

/-- Whether the content handles are taken for the same content. -/
def inodesEqual (a b : Inode) : Bool :=
  if a.fileType ≠ b.fileType then false
  else
    match a.contentHandle, b.contentHandle with
    | .inlineData da, .inlineData db => da == db
    | .sliceMap sa, .sliceMap sb =>
        if sa.slices.length ≠ sb.slices.length then false
        else (sa.slices.zip sb.slices).all fun (x, y) => x.dropId == y.dropId
    | .directory ha, .directory hb => ha == hb
    | .symlink ta, .symlink tb => ta == tb
    | .device da, .device db => da == db
    | .pipe pa, .pipe pb => pa == pb
    | _, _ => false

/-- The path of an entry below `path`. -/
def childPathOf (path name : Bytes) : Bytes :=
  if path.isEmpty then name else path ++ slash :: name

section
variable (H : Hash) (parentBlob childBlob : MetadataBlob)

/-- One entry of the child's directory; `descend` compares two directories below. -/
def diffEntry (descend : Inode → Inode → Bytes → Option (List TreeOp))
    (parentEntries : List (Bytes × Nat)) (path : Bytes) (entry : Bytes × Nat) :
    Option (List TreeOp) :=
  let childPath := childPathOf path entry.1
  match mapGet parentEntries entry.1 with
  | none => some [⟨.add, childPath, some entry.2⟩]
  | some parentInum =>
    match parentBlob.inodeByNumber parentInum, childBlob.inodeByNumber entry.2 with
    | some pci, some cci =>
        if pci.isDirectory && cci.isDirectory then descend pci cci childPath
        else if !inodesEqual pci cci then some [⟨.replace, childPath, some entry.2⟩]
        else some []
    | _, _ => some []

/-- The names that only the parent has. -/
def removedEntries (parentEntries childEntries : List (Bytes × Nat)) (path : Bytes) : List TreeOp :=
  (parentEntries.filter fun e => (mapGet childEntries e.1).isNone).map fun e =>
    ⟨.remove, childPathOf path e.1, none⟩

def diffDirectory : Nat → Inode → Inode → Bytes → Option (List TreeOp)
  | 0, _, _, _ => none
  | fuel + 1, parentInode, childInode, path =>
    match parentInode.contentHandle, childInode.contentHandle with
    | .directory pHash, .directory cHash =>
      match parentBlob.dirNodeByHash H pHash, childBlob.dirNodeByHash H cHash with
      | some pNode, some cNode => do
          let parentEntries := entryMap pNode
          let childEntries := entryMap cNode
          let ops ← childEntries.mapM
            (diffEntry parentBlob childBlob (diffDirectory fuel) parentEntries path)
          some (ops.flatten ++ removedEntries parentEntries childEntries path)
      | _, _ => some []
    | _, _ => some []

end

/-- `ops.sort_by(|a, b| a.path.cmp(&b.path))`. -/
def sortOps (ops : List TreeOp) : List TreeOp := ops.mergeSort fun a b => decide (a.path ≤ b.path)

/-! ### Whole images -/

structure Loaded where
  blob : MetadataBlob
  rootNumber : Nat
  merkleRoot : Digest
  deriving DecidableEq

section
variable (H : Hash) (z : Omnizip)

/-- `load_image`; every error is `DeltaError::Core`. -/
def loadImage (bytes : Bytes) : Except CoreError Loaded := do
  let (_, rest) ← parseManifestHeader.run bytes
  let (_, rest) ← parseFeatureFlagsSection.run rest
  let (metaRef, _) ← (parseMetadataReference z).run rest
  match metaRef.inlineMetadata with
  | none => .error (.corrupt "delta builder requires inlined metadata")
  | some blobBytes => do
    let (blob, _) ← parseMetadataBlob.run blobBytes
    match blob.rootInodeNumber with
    | none =>
        .error (.corrupt "metadata blob: could not identify a unique root directory inode")
    | some rootNumber =>
      if (blob.inodeByNumber rootNumber).isNone then
        .error (.corrupt s!"metadata blob: root inode {rootNumber} missing")
      else .ok ⟨blob, rootNumber, hashSection H bytes⟩

/-- How deep two images can be walked together before a pair of inodes comes twice. -/
def pairsOf (parent child : Loaded) : Nat :=
  parent.blob.inodes.length * child.blob.inodes.length + 1

/-- The delta of two loaded images; nothing if the walk does not end. -/
def deltaOf (parent child : Loaded) : Option DeltaArtifact := do
  let parentRoot ← parent.blob.inodeByNumber parent.rootNumber
  let childRoot ← child.blob.inodeByNumber child.rootNumber
  let ops ← diffDirectory H parent.blob child.blob (pairsOf parent child) parentRoot childRoot []
  some ⟨sortOps ops, parent.merkleRoot⟩

def computeDeltaFromBytes (parentBytes childBytes : Bytes) : Except CoreError (Option DeltaArtifact) := do
  let parent ← loadImage H z parentBytes
  let child ← loadImage H z childBytes
  .ok (deltaOf H parent child)

end

/-! ### What the operations mean -/

/-- What a reader sees at a path. -/
inductive TreeContent where
  | directory
  /-- The bytes, where they can be read. -/
  | file (bytes : Option Bytes)
  | symlink (target : Bytes)
  | device (fileType dev : Nat)
  | pipe (fileType : Nat)
  deriving DecidableEq

def contentOf (store : SlabSource) (inode : Inode) : TreeContent :=
  match inode.contentHandle with
  | .directory _ => .directory
  | .symlink target => .symlink target
  | .device dev => .device inode.fileType dev
  | .pipe _ => .pipe inode.fileType
  | _ => .file (filePlaintext inode (some store)).toOption

section
variable (H : Hash) (blob : MetadataBlob)

/-- The entry of a directory under a name. -/
def entryOf (inode : Inode) (name : Bytes) : Option DirEntry :=
  match inode.contentHandle with
  | .directory hash => (blob.dirNodeByHash H hash).bind fun node =>
      node.entries.find? fun e => e.name == name
  | _ => none

/-- The inode a path leads to from another. -/
def resolve : Inode → Path → Option Inode
  | inode, [] => some inode
  | inode, name :: rest =>
      ((entryOf H blob inode name).bind fun e => blob.inodeByNumber e.inodeNumber).bind
        fun next => resolve next rest

/-- The tree below the inode of a number. -/
def treeOf (store : SlabSource) (number : Nat) : TreePatch.TreeMap Bytes TreeContent := fun path =>
  (blob.inodeByNumber number).bind fun inode => (resolve H blob inode path).map (contentOf store)

end

/-- The patch of an operation: a subtree of the child, or nothing. -/
def TreeOp.patch (H : Hash) (child : MetadataBlob) (store : SlabSource) (op : TreeOp) :
    TreePatch.Patch Bytes TreeContent where
  path := PathText.components slash op.path
  tree := match op.inodeNumber with
    | some number => treeOf H child store number
    | none => fun _ => none

/-- Nothing that a directory names is missing. -/
def Present (H : Hash) (blob : MetadataBlob) : Prop :=
  ∀ inode ∈ blob.inodes, ∀ hash, inode.contentHandle = .directory hash →
    ∃ node, blob.dirNodeByHash H hash = some node ∧
      ∀ entry ∈ node.entries, ∃ next, blob.inodeByNumber entry.inodeNumber = some next

/-- The inode at a path of the image. -/
def InodeAt (H : Hash) (image : Loaded) (path : Path) (inode : Inode) : Prop :=
  ∃ root, image.blob.inodeByNumber image.rootNumber = some root ∧
    resolve H image.blob root path = some inode

/-- Every inode is at exactly one path, and nothing is missing. -/
structure IsTree (H : Hash) (image : Loaded) : Prop where
  reached : ∀ inode ∈ image.blob.inodes, ∃ path, InodeAt H image path inode
  once : ∀ path path' inode inode', InodeAt H image path inode → InodeAt H image path' inode' →
    inode.number = inode'.number → path = path'
  present : Present H image.blob

/-! ### Maps of entries -/

theorem mapInsert_last {m : List (Bytes × Nat)} {key : Bytes} {value : Nat}
    (h : ∀ e ∈ m, e.1 < key) : mapInsert key value m = m ++ [(key, value)] := by
  induction m with
  | nil => rfl
  | cons e rest ih =>
      have he : e.1 < key := h e List.mem_cons_self
      have hnot : ¬ key < e.1 := fun hlt => List.lt_irrefl _ (List.lt_trans hlt he)
      have hne : key ≠ e.1 := fun heq => List.lt_irrefl _ (heq ▸ he)
      rw [mapInsert, if_neg hnot, if_neg hne, ih fun x hx => h x (List.mem_cons_of_mem _ hx)]
      rfl

theorem foldl_mapInsert {entries : List DirEntry} {m : List (Bytes × Nat)}
    (hsorted : entries.Pairwise fun a b => a.name < b.name)
    (hafter : ∀ e ∈ m, ∀ d ∈ entries, e.1 < d.name) :
    entries.foldl (fun m e => mapInsert e.name e.inodeNumber m) m =
      m ++ entries.map fun e => (e.name, e.inodeNumber) := by
  induction entries generalizing m with
  | nil => simp
  | cons d rest ih =>
      obtain ⟨hd, hrest⟩ := List.pairwise_cons.mp hsorted
      rw [List.foldl_cons, mapInsert_last fun e he => hafter e he d List.mem_cons_self, ih hrest]
      · rw [List.append_assoc]
        rfl
      · refine forall_mem_snoc (fun e he x hx => hafter e he x (List.mem_cons_of_mem _ hx)) ?_
        exact fun x hx => hd x hx

theorem entryMap_eq {node : DirectoryNode} (h : NamesOK node.entries) :
    entryMap node = node.entries.map fun e => (e.name, e.inodeNumber) := by
  rw [entryMap, foldl_mapInsert h.sorted fun _ he => absurd he List.not_mem_nil, List.nil_append]

theorem mapGet_map (entries : List DirEntry) (name : Bytes) :
    mapGet (entries.map fun e => (e.name, e.inodeNumber)) name =
      (entries.find? fun e => e.name == name).map DirEntry.inodeNumber := by
  rw [mapGet, List.find?_map, Option.map_map]
  rfl

/-! ### Differences -/

/-- A difference and the path it lies at. -/
structure Difference where
  path : Path
  kind : TreeOpKind
  inodeNumber : Option Nat

def Difference.below (name : Bytes) (d : Difference) : Difference := { d with path := name :: d.path }

/-- The operation of a difference under the text of a directory. -/
def Difference.op (text : Bytes) (d : Difference) : TreeOp :=
  ⟨d.kind, d.path.foldl childPathOf text, d.inodeNumber⟩

section
variable (H : Hash) (parent child : MetadataBlob)

/-- What is different at or below one entry of the child's directory. -/
def differencesAt (descend : Inode → Inode → Option (List Difference)) (p : Inode) (e : DirEntry) :
    Option (List Difference) :=
  match entryOf H parent p e.name with
  | none => some [⟨[e.name], .add, some e.inodeNumber⟩]
  | some pe =>
    match parent.inodeByNumber pe.inodeNumber, child.inodeByNumber e.inodeNumber with
    | some pi, some ci =>
        if pi.isDirectory && ci.isDirectory then
          (descend pi ci).map fun ds => ds.map (Difference.below e.name)
        else if !inodesEqual pi ci then some [⟨[e.name], .replace, some e.inodeNumber⟩]
        else some []
    | _, _ => some []

/-- The entries of a directory. -/
def entriesOf (blob : MetadataBlob) (inode : Inode) : List DirEntry :=
  match inode.contentHandle with
  | .directory hash => (blob.dirNodeByHash H hash).elim [] DirectoryNode.entries
  | _ => []

def differences : Nat → Inode → Inode → Option (List Difference)
  | 0, _, _ => none
  | fuel + 1, p, c => do
      let ds ← (entriesOf H child c).mapM (differencesAt H parent child (differences fuel) p)
      some (ds.flatten ++
        ((entriesOf H parent p).filter fun e => (entryOf H child c e.name).isNone).map fun e =>
          ⟨[e.name], .remove, none⟩)

end

section
variable {H : Hash} {blob : MetadataBlob}

theorem entryOf_eq_find (inode : Inode) (name : Bytes) :
    entryOf H blob inode name = (entriesOf H blob inode).find? fun e => e.name == name := by
  unfold entryOf entriesOf
  cases hc : inode.contentHandle with
  | directory hash =>
      cases hnode : blob.dirNodeByHash H hash with
      | none => simp [hnode]
      | some node => simp [hnode]
  | _ => rfl

theorem entryOf_some {inode : Inode} {name : Bytes} {e : DirEntry}
    (h : entryOf H blob inode name = some e) : e ∈ entriesOf H blob inode ∧ e.name = name := by
  rw [entryOf_eq_find] at h
  exact ⟨List.mem_of_find?_eq_some h, by simpa using List.find?_some h⟩

theorem entryOf_none {inode : Inode} {name : Bytes} (h : entryOf H blob inode name = none) :
    ∀ e ∈ entriesOf H blob inode, e.name ≠ name := by
  rw [entryOf_eq_find, List.find?_eq_none] at h
  intro e he heq
  exact h e he (by simpa using heq)

theorem dirNodeByHash_mem {hash : Digest} {node : DirectoryNode}
    (h : blob.dirNodeByHash H hash = some node) : node ∈ blob.dirNodes :=
  List.mem_of_find?_eq_some h

theorem namesOK_entriesOf (hwf : blob.WellFormed) (inode : Inode) :
    NamesOK (entriesOf H blob inode) := by
  have hnil : NamesOK ([] : List DirEntry) := ⟨List.Pairwise.nil, nofun, nofun⟩
  unfold entriesOf
  cases hc : inode.contentHandle with
  | directory hash =>
      cases hnode : blob.dirNodeByHash H hash with
      | none => simpa [hnode] using hnil
      | some node => simpa [hnode] using hwf.names node (dirNodeByHash_mem hnode)
  | _ => exact hnil

/-- Where the names are distinct, each leads to its own entry. -/
theorem entryOf_of_sorted {inode : Inode}
    (hsorted : (entriesOf H blob inode).Pairwise fun a b => a.name < b.name) {e : DirEntry}
    (h : e ∈ entriesOf H blob inode) : entryOf H blob inode e.name = some e := by
  have hfind := find?_of_nodup_map (nodup_of_sorted hsorted) h
  rw [entryOf_eq_find]
  simpa only [beq_eq_decide] using hfind

theorem entryOf_of_mem (hwf : blob.WellFormed) {inode : Inode} {e : DirEntry}
    (h : e ∈ entriesOf H blob inode) : entryOf H blob inode e.name = some e :=
  entryOf_of_sorted (namesOK_entriesOf hwf inode).sorted h

theorem node_of_isDirectory (hwf : blob.WellFormed) (hpresent : Present H blob) {inode : Inode}
    (hmem : inode ∈ blob.inodes) (hdir : inode.isDirectory = true) :
    ∃ hash node, inode.contentHandle = .directory hash ∧ blob.dirNodeByHash H hash = some node ∧
      entriesOf H blob inode = node.entries := by
  obtain ⟨hash, hhash⟩ := (hwf.kinds inode hmem).isDirectory_iff.mp hdir
  obtain ⟨node, hnode, -⟩ := hpresent inode hmem hash hhash
  refine ⟨hash, node, hhash, hnode, ?_⟩
  unfold entriesOf
  simp [hhash, hnode]

end

/-! ### The builder's operations are the differences -/

theorem removedEntries_eq {H : Hash} {parent child : MetadataBlob} (p c : Inode) (text : Bytes) :
    removedEntries ((entriesOf H parent p).map fun e => (e.name, e.inodeNumber))
        ((entriesOf H child c).map fun e => (e.name, e.inodeNumber)) text =
      (((entriesOf H parent p).filter fun e => (entryOf H child c e.name).isNone).map fun e =>
        (⟨[e.name], .remove, none⟩ : Difference)).map (Difference.op text) := by
  unfold removedEntries
  rw [List.filter_map, List.map_map, List.map_map]
  simp only [mapGet_map, ← entryOf_eq_find, Function.comp_def, Option.isNone_map]
  rfl

theorem diffEntry_eq {H : Hash} {parent child : MetadataBlob} {fuel : Nat}
    (ih : ∀ p c text, p ∈ parent.inodes → c ∈ child.inodes → p.isDirectory = true →
      c.isDirectory = true → diffDirectory H parent child fuel p c text =
        (differences H parent child fuel p c).map (List.map (Difference.op text)))
    (p : Inode) (text : Bytes) (e : DirEntry) :
    diffEntry parent child (diffDirectory H parent child fuel)
        ((entriesOf H parent p).map fun e => (e.name, e.inodeNumber)) text (e.name, e.inodeNumber) =
      (differencesAt H parent child (differences H parent child fuel) p e).map
        (List.map (Difference.op text)) := by
  unfold diffEntry differencesAt
  simp only [mapGet_map, ← entryOf_eq_find]
  cases entryOf H parent p e.name with
  | none => rfl
  | some pe =>
      simp only [Option.map_some]
      cases hpi : parent.inodeByNumber pe.inodeNumber with
      | none => rfl
      | some pi =>
          cases hci : child.inodeByNumber e.inodeNumber with
          | none => rfl
          | some ci =>
              simp only
              by_cases hdirs : (pi.isDirectory && ci.isDirectory) = true
              · obtain ⟨hpd, hcd⟩ := Bool.and_eq_true_iff.mp hdirs
                rw [if_pos hdirs, if_pos hdirs, ih pi ci _ (inodeByNumber_mem hpi).1
                  (inodeByNumber_mem hci).1 hpd hcd, Option.map_map]
                congr 1
                funext ds
                simp [Difference.op, Difference.below]
              · rw [if_neg hdirs, if_neg hdirs]
                split <;> rfl

section
variable {H : Hash} {parent child : MetadataBlob} (hp : parent.WellFormed) (hc : child.WellFormed)
  (pp : Present H parent) (pc : Present H child)
include hp hc pp pc

theorem diffDirectory_eq : ∀ (fuel : Nat) (p c : Inode) (text : Bytes), p ∈ parent.inodes →
    c ∈ child.inodes → p.isDirectory = true → c.isDirectory = true →
    diffDirectory H parent child fuel p c text =
      (differences H parent child fuel p c).map (List.map (Difference.op text)) := by
  intro fuel
  induction fuel with
  | zero => intros; rfl
  | succ fuel ih =>
      intro p c text hpm hcm hpd hcd
      obtain ⟨pHash, pNode, hpHash, hpNode, hpEntries⟩ := node_of_isDirectory hp pp hpm hpd
      obtain ⟨cHash, cNode, hcHash, hcNode, hcEntries⟩ := node_of_isDirectory hc pc hcm hcd
      have hpMap : entryMap pNode = (entriesOf H parent p).map fun e => (e.name, e.inodeNumber) := by
        rw [hpEntries]
        exact entryMap_eq (hp.names pNode (dirNodeByHash_mem hpNode))
      have hcMap : entryMap cNode = (entriesOf H child c).map fun e => (e.name, e.inodeNumber) := by
        rw [hcEntries]
        exact entryMap_eq (hc.names cNode (dirNodeByHash_mem hcNode))
      unfold diffDirectory differences
      simp only [hpHash, hcHash, hpNode, hcNode, hpMap, hcMap, List.mapM_map, Function.comp_def]
      have hdiff := fun e (_ : e ∈ entriesOf H child c) => diffEntry_eq ih p text e
      rw [mapM_eq_map hdiff, removedEntries_eq]
      cases (entriesOf H child c).mapM
          (differencesAt H parent child (differences H parent child fuel) p) with
      | none => rfl
      | some ds => simp [List.map_flatten]

end

/-! ### Paths -/

section
variable {H : Hash} {blob : MetadataBlob}

theorem resolve_cons (inode : Inode) (name : Bytes) (rest : Path) :
    resolve H blob inode (name :: rest) =
      (((entryOf H blob inode name).bind fun e => blob.inodeByNumber e.inodeNumber).bind
        fun next => resolve H blob next rest) := rfl

theorem resolve_of_no_entry {inode : Inode} {name : Bytes} (h : entryOf H blob inode name = none)
    (rest : Path) : resolve H blob inode (name :: rest) = none := by
  rw [resolve_cons, h]
  rfl

theorem resolve_of_entry {inode next : Inode} {name : Bytes} {e : DirEntry}
    (h : entryOf H blob inode name = some e) (hnext : blob.inodeByNumber e.inodeNumber = some next)
    (rest : Path) : resolve H blob inode (name :: rest) = resolve H blob next rest := by
  rw [resolve_cons, h]
  simp [hnext]

theorem resolve_append (inode : Inode) (path rest : Path) :
    resolve H blob inode (path ++ rest) =
      (resolve H blob inode path).bind fun next => resolve H blob next rest := by
  induction path generalizing inode with
  | nil => rfl
  | cons name path ih =>
      rw [List.cons_append, resolve_cons, resolve_cons]
      cases (entryOf H blob inode name).bind fun e => blob.inodeByNumber e.inodeNumber with
      | none => rfl
      | some next => exact ih next

theorem isDirectory_of_resolve_cons (hwf : blob.WellFormed) {inode next : Inode} {name : Bytes}
    {rest : Path} (hmem : inode ∈ blob.inodes)
    (h : resolve H blob inode (name :: rest) = some next) : inode.isDirectory = true := by
  refine (hwf.kinds inode hmem).isDirectory_iff.mpr ?_
  cases hc : inode.contentHandle with
  | directory hash => exact ⟨hash, rfl⟩
  | _ =>
      rw [resolve_cons, entryOf, hc] at h
      cases h

theorem resolve_mem {inode next : Inode} {path : Path} (hmem : inode ∈ blob.inodes)
    (h : resolve H blob inode path = some next) : next ∈ blob.inodes := by
  induction path generalizing inode with
  | nil =>
      cases h
      exact hmem
  | cons name path ih =>
      rw [resolve_cons] at h
      obtain ⟨mid, hmid, hrest⟩ := Option.bind_eq_some_iff.mp h
      obtain ⟨e, -, he⟩ := Option.bind_eq_some_iff.mp hmid
      exact ih (inodeByNumber_mem he).1 hrest

theorem inode_of_entry (hwf : blob.WellFormed) (hpresent : Present H blob) {inode : Inode}
    (hmem : inode ∈ blob.inodes) (hdir : inode.isDirectory = true) {name : Bytes} {e : DirEntry}
    (h : entryOf H blob inode name = some e) :
    ∃ next, blob.inodeByNumber e.inodeNumber = some next := by
  obtain ⟨hash, node, hhash, hnode, hentries⟩ := node_of_isDirectory hwf hpresent hmem hdir
  obtain ⟨node', hnode', hall⟩ := hpresent inode hmem hash hhash
  obtain rfl : node = node' := Option.some.inj (hnode.symm.trans hnode')
  exact hall e (hentries ▸ (entryOf_some h).1)

end

end LimniFS.DeltaBuilder
