/-
The index of all paths of an image.

It is built breadth first from the root, by a queue that no directory is ever marked in.
Opening an image for writing builds it before anything else is looked at, and what
directories refer to is up to the image.

The queue is emptied exactly when no directory below the root leads back to itself
(`path_index_iff`).  What is then in the index are the absolute paths of the entries, each
with the number of its inode.
-/
import LimniFS.Lib.Worklist
import LimniFS.StagingPaths

namespace LimniFS.Rw

open Lib Lib.Parser

/-! ### Entries and their paths -/

section
variable (H : Hash) (blob : MetadataBlob)

/-- The entries that a number leads on to. -/
def dirEntries (number : Nat) : List DirEntry :=
  match (blob.inodeByNumber number).map Inode.contentHandle with
  | some (.directory hash) => (blob.dirNodeByHash H hash).elim [] DirectoryNode.entries
  | _ => []

def childNumbers (number : Nat) : List Nat := (dirEntries H blob number).map DirEntry.inodeNumber

/-- A path of names leads from the root to an inode number. -/
inductive EntryAt (root : Nat) : Path → Nat → Prop
  | root : EntryAt root [] root
  | entry {path : Path} {number : Nat} {e : DirEntry} (dir : EntryAt root path number)
      (listed : e ∈ dirEntries H blob number) : EntryAt root (path ++ [e.name]) e.inodeNumber

/-- No directory is entered twice. -/
def DirTree (root : Nat) : Prop :=
  ∀ p q number, EntryAt H blob root p number → EntryAt H blob root q number →
    dirEntries H blob number ≠ [] → p = q

end

/-- `"/"` and the names between slashes. -/
def absolutePath (names : Path) : Bytes := slash :: PathText.join slash names

section
variable {H : Hash} {blob : MetadataBlob} {root : Nat}

theorem dirEntries_node {number : Nat} {e : DirEntry} (h : e ∈ dirEntries H blob number) :
    ∃ node ∈ blob.dirNodes, dirEntries H blob number = node.entries := by
  unfold dirEntries at h ⊢
  split at h
  · next hash _ =>
      cases hnode : blob.dirNodeByHash H hash with
      | none =>
          rw [hnode] at h
          exact absurd h List.not_mem_nil
      | some node => exact ⟨node, List.mem_of_find?_eq_some hnode, rfl⟩
  · exact absurd h List.not_mem_nil

theorem EntryAt.names (hwf : blob.WellFormed) {path : Path} {number : Nat}
    (h : EntryAt H blob root path number) : ∀ name ∈ path, PathText.IsName slash name := by
  induction h with
  | root => exact fun name hin => absurd hin List.not_mem_nil
  | entry dir listed ih =>
      obtain ⟨node, hnode, heq⟩ := dirEntries_node listed
      rw [heq] at listed
      exact forall_mem_snoc ih ((hwf.names node hnode).names _ listed)

theorem entryAt_snoc {path : Path} {name : Bytes} {number : Nat} :
    EntryAt H blob root (path ++ [name]) number ↔
      ∃ dir, EntryAt H blob root path dir ∧
        ∃ e ∈ dirEntries H blob dir, e.name = name ∧ e.inodeNumber = number := by
  constructor
  · intro h
    generalize hp : path ++ [name] = p at h
    cases h with
    | root => exact absurd hp (List.append_ne_nil_of_right_ne_nil _ (List.cons_ne_nil _ _))
    | entry dir listed =>
        obtain ⟨rfl, hname⟩ := List.append_inj' hp rfl
        exact ⟨_, dir, _, listed, (List.cons.inj hname).1.symm, rfl⟩
  · rintro ⟨dir, hdir, e, listed, rfl, rfl⟩
    exact EntryAt.entry hdir listed

theorem EntryAt.unique (hwf : blob.WellFormed) {path : Path} {number : Nat}
    (h : EntryAt H blob root path number) :
    ∀ {number'}, EntryAt H blob root path number' → number = number' := by
  induction h with
  | root =>
      intro number' h'
      generalize hp : ([] : Path) = p at h'
      cases h' with
      | root => rfl
      | entry dir listed => exact absurd hp.symm (List.append_ne_nil_of_right_ne_nil _ (List.cons_ne_nil _ _))
  | entry dir listed ih =>
      intro number' h'
      obtain ⟨dir', hdir', e', listed', hname, rfl⟩ := entryAt_snoc.mp h'
      obtain rfl := ih hdir'
      obtain ⟨node, hnode, heq⟩ := dirEntries_node listed
      rw [heq] at listed listed'
      rw [(hwf.names node hnode).eq_of_name listed listed' hname.symm]

theorem EntryAt.split {p q : Path} {name : Bytes} {number : Nat}
    (h : EntryAt H blob root (p ++ name :: q) number) :
    ∃ dir, EntryAt H blob root p dir ∧ ∃ e ∈ dirEntries H blob dir, e.name = name := by
  induction q using List.reverseRecOn generalizing number with
  | nil =>
      obtain ⟨dir, hdir, e, listed, hname, -⟩ := entryAt_snoc.mp h
      exact ⟨dir, hdir, e, listed, hname⟩
  | append_singleton init last ih =>
      rw [← List.cons_append, ← List.append_assoc] at h
      obtain ⟨dir, hdir, -⟩ := entryAt_snoc.mp h
      exact ih hdir

theorem absolutePath_snoc (names : Path) (hnames : ∀ name ∈ names, PathText.IsName slash name)
    (name : Bytes) :
    (if absolutePath names = [slash] then [slash] else absolutePath names ++ [slash]) ++ name =
      absolutePath (names ++ [name]) := by
  unfold absolutePath
  by_cases hnil : names = []
  · subst hnil
    rfl
  · have hjoin : PathText.join slash names ≠ [] :=
      PathText.join_ne_nil hnil fun n hn => (hnames n hn).1
    rw [if_neg (by simpa using hjoin), PathText.join_append_name hnil]
    simp

theorem absolutePath_inj {p q : Path} (hp : ∀ name ∈ p, PathText.IsName slash name)
    (hq : ∀ name ∈ q, PathText.IsName slash name) (h : absolutePath p = absolutePath q) : p = q := by
  have hjoin := (List.cons.inj h).2
  rw [← PathText.components_join hp, hjoin, PathText.components_join hq]

/-! ### The loop -/

/-- What is queued behind a directory. -/
def queuedBelow (H : Hash) (blob : MetadataBlob) (item : Nat × Bytes) : List (Nat × Bytes) :=
  (dirEntries H blob item.1).map fun e =>
    (e.inodeNumber, (if item.2 = [slash] then [slash] else item.2 ++ [slash]) ++ e.name)

theorem indexLoop_cons {fuel : Nat} {item : Nat × Bytes} {queue : List (Nat × Bytes)}
    {index : PathMap Nat} :
    indexLoop H blob (fuel + 1) (item :: queue) index =
      indexLoop H blob fuel (queue ++ queuedBelow H blob item)
        ((queuedBelow H blob item).foldl (fun index e => index.insert e.2 e.1) index) := rfl

theorem indexLoop_isSome : ∀ (fuel : Nat) (queue : List (Nat × Bytes)) (index : PathMap Nat),
    (indexLoop H blob fuel queue index).isSome =
      Worklist.drains (childNumbers H blob) fuel (queue.map Prod.fst) := by
  intro fuel
  induction fuel with
  | zero =>
      intro queue index
      cases queue with
      | nil => rfl
      | cons item queue => rfl
  | succ fuel ih =>
      intro queue index
      cases queue with
      | nil => rfl
      | cons item queue =>
          have hbelow : (queuedBelow H blob item).map Prod.fst = childNumbers H blob item.1 := by
            rw [queuedBelow, List.map_map]
            rfl
          rw [indexLoop_cons, ih, List.map_append, hbelow]
          rfl

theorem mem_foldl_insert {below : List (Nat × Bytes)} : ∀ {index : PathMap Nat} {key : Bytes},
    key ∈ below.foldl (fun index e => index.insert e.2 e.1) index ↔
      key ∈ index ∨ ∃ e ∈ below, e.2 = key := by
  induction below with
  | nil =>
      intro index key
      simp
  | cons e below ih =>
      intro index key
      rw [List.foldl_cons, ih, AList.mem_insert, List.exists_mem_cons_iff, eq_comm (a := key),
        or_comm (a := e.2 = key), or_assoc]

theorem lookup_foldl_insert_cases {below : List (Nat × Bytes)} :
    ∀ {index : PathMap Nat} {key : Bytes} {number : Nat},
      (below.foldl (fun index e => index.insert e.2 e.1) index).lookup key = some number →
      index.lookup key = some number ∨ ∃ e ∈ below, e.2 = key ∧ e.1 = number := by
  induction below with
  | nil => exact fun h => Or.inl h
  | cons e below ih =>
      intro index key number h
      rcases ih h with hold | ⟨e', he', hboth⟩
      · by_cases hkey : key = e.2
        · subst hkey
          rw [AList.lookup_insert] at hold
          exact Or.inr ⟨e, List.mem_cons_self, rfl, Option.some.inj hold⟩
        · rw [AList.lookup_insert_ne hkey] at hold
          exact Or.inl hold
      · exact Or.inr ⟨e', List.mem_cons_of_mem _ he', hboth⟩

/-- What holds of the queue and the index between two turns of the loop. -/
structure Indexing (H : Hash) (blob : MetadataBlob) (root : Nat) (queue : List (Nat × Bytes))
    (index : PathMap Nat) : Prop where
  queued : ∀ item ∈ queue, item.2 ∈ index ∧
    ∃ names, item.2 = absolutePath names ∧ EntryAt H blob root names item.1
  sound : ∀ key number, index.lookup key = some number →
    ∃ names, key = absolutePath names ∧ EntryAt H blob root names number
  complete : ∀ names number, EntryAt H blob root names number → absolutePath names ∈ index ∨
    ∃ front dir, front <+: names ∧ EntryAt H blob root front dir ∧ (dir, absolutePath front) ∈ queue

/-- A queued item is an entry of the directory whose turn it is. -/
theorem queuedBelow_entry (hwf : blob.WellFormed) {names : Path} {dir : Nat}
    (hdir : EntryAt H blob root names dir) {e : Nat × Bytes} :
    e ∈ queuedBelow H blob (dir, absolutePath names) ↔
      ∃ entry ∈ dirEntries H blob dir, e = (entry.inodeNumber, absolutePath (names ++ [entry.name])) := by
  unfold queuedBelow
  rw [List.mem_map]
  simp only [absolutePath_snoc names (hdir.names hwf)]
  exact exists_congr fun entry => and_congr_right fun _ => eq_comm

theorem Indexing.turn (hwf : blob.WellFormed) {item : Nat × Bytes} {queue : List (Nat × Bytes)}
    {index : PathMap Nat} (h : Indexing H blob root (item :: queue) index) :
    Indexing H blob root (queue ++ queuedBelow H blob item)
      ((queuedBelow H blob item).foldl (fun index e => index.insert e.2 e.1) index) := by
  obtain ⟨number, key⟩ := item
  obtain ⟨hin, names, hkey, hdir⟩ := h.queued _ List.mem_cons_self
  simp only at hin hkey hdir
  subst hkey
  have hbelow : ∀ e ∈ queuedBelow H blob (number, absolutePath names),
      ∃ path, e.2 = absolutePath path ∧ EntryAt H blob root path e.1 := by
    intro e he
    obtain ⟨entry, listed, rfl⟩ := (queuedBelow_entry hwf hdir).mp he
    exact ⟨_, rfl, EntryAt.entry hdir listed⟩
  refine ⟨fun e he => ?_, fun key n hlookup => ?_, fun path n hpath => ?_⟩
  · rw [mem_foldl_insert]
    rcases List.mem_append.mp he with hold | hnew
    · obtain ⟨hmem, hentry⟩ := h.queued e (List.mem_cons_of_mem _ hold)
      exact ⟨Or.inl hmem, hentry⟩
    · exact ⟨Or.inr ⟨e, hnew, rfl⟩, hbelow e hnew⟩
  · rcases lookup_foldl_insert_cases hlookup with hold | ⟨e, he, rfl, rfl⟩
    · exact h.sound key n hold
    · exact hbelow e he
  · rw [mem_foldl_insert]
    rcases h.complete path n hpath with hmem | ⟨front, dir, hfront, hat, hqueued⟩
    · exact Or.inl (Or.inl hmem)
    · rcases List.mem_cons.mp hqueued with heq | hrest
      · -- the front is the directory whose turn it is
        obtain ⟨rfl, hsame⟩ := Prod.mk.inj heq
        obtain rfl := absolutePath_inj (hat.names hwf) (hdir.names hwf) hsame
        obtain ⟨rest, rfl⟩ := hfront
        cases rest with
        | nil =>
            rw [List.append_nil]
            exact Or.inl (Or.inl hin)
        | cons name rest =>
            obtain ⟨dir', hdir', e, listed, rfl⟩ := hpath.split
            obtain rfl := hdir.unique hwf hdir'
            refine Or.inr ⟨front ++ [e.name], e.inodeNumber, ⟨rest, by simp⟩,
              EntryAt.entry hdir listed, List.mem_append_right _ ?_⟩
            exact (queuedBelow_entry hwf hdir).mpr ⟨e, listed, rfl⟩
      · exact Or.inr ⟨front, dir, hfront, hat, List.mem_append_left _ hrest⟩

theorem Indexing.run (hwf : blob.WellFormed) : ∀ (fuel : Nat) {queue : List (Nat × Bytes)}
    {index index' : PathMap Nat}, Indexing H blob root queue index →
      indexLoop H blob fuel queue index = some index' → Indexing H blob root [] index' := by
  intro fuel
  induction fuel with
  | zero =>
      intro queue index index' h hrun
      cases queue with
      | nil =>
          cases hrun
          exact h
      | cons item queue => cases hrun
  | succ fuel ih =>
      intro queue index index' h hrun
      cases queue with
      | nil =>
          cases hrun
          exact h
      | cons item queue =>
          rw [indexLoop_cons] at hrun
          exact ih (h.turn hwf) hrun

theorem indexing_start :
    Indexing H blob root [(root, [slash])] ((∅ : PathMap Nat).insert [slash] root) := by
  refine ⟨fun item hitem => ?_, fun key number hlookup => ?_, fun names number _ => ?_⟩
  · rw [List.mem_singleton.mp hitem]
    exact ⟨(AList.mem_insert _).mpr (Or.inl rfl), [], rfl, EntryAt.root⟩
  · by_cases hkey : key = [slash]
    · subst hkey
      rw [AList.lookup_insert] at hlookup
      cases hlookup
      exact ⟨[], rfl, EntryAt.root⟩
    · rw [AList.lookup_insert_ne hkey] at hlookup
      cases hlookup
  · exact Or.inr ⟨[], root, List.nil_prefix, EntryAt.root, List.mem_singleton_self _⟩

end

/-! ### The index -/

/-- The index holds the absolute paths of the entries and nothing else. -/
def ExactIndex (H : Hash) (blob : MetadataBlob) (root : Nat) (index : PathMap Nat) : Prop :=
  ∀ key number, index.lookup key = some number ↔
    ∃ names, key = absolutePath names ∧ EntryAt H blob root names number

/-- The index of a blob is finished, and on a tree it is exact. -/
def IndexBuilt (H : Hash) (blob : MetadataBlob) : Prop :=
  (∃ fuel index, buildPathIndex H blob fuel = some index) ∧
    ∀ root, blob.rootInodeNumber = some root → DirTree H blob root →
      ∃ fuel index, buildPathIndex H blob fuel = some index ∧ ExactIndex H blob root index

section
variable {H : Hash} {blob : MetadataBlob} {root : Nat}

theorem buildPathIndex_root (hroot : blob.rootInodeNumber = some root) (fuel : Nat) :
    buildPathIndex H blob fuel =
      indexLoop H blob fuel [(root, [slash])] ((∅ : PathMap Nat).insert [slash] root) := by
  unfold buildPathIndex
  rw [hroot]

theorem exactIndex_of_built (hwf : blob.WellFormed) (hroot : blob.rootInodeNumber = some root)
    {fuel : Nat} {index : PathMap Nat} (h : buildPathIndex H blob fuel = some index) :
    ExactIndex H blob root index := by
  rw [buildPathIndex_root hroot] at h
  have hdone := indexing_start.run hwf fuel h
  refine fun key number => ⟨hdone.sound key number, ?_⟩
  rintro ⟨names, rfl, hat⟩
  have hmem : absolutePath names ∈ index := by
    rcases hdone.complete names number hat with hmem | ⟨front, dir, -, -, hqueued⟩
    · exact hmem
    · exact absurd hqueued List.not_mem_nil
  obtain ⟨number', hlookup⟩ := Option.isSome_iff_exists.mp (AList.lookup_isSome.mpr hmem)
  obtain ⟨names', hsame, hat'⟩ := hdone.sound _ _ hlookup
  obtain rfl := absolutePath_inj (hat.names hwf) (hat'.names hwf) hsame
  rw [hlookup, hat.unique hwf hat']

/-- Every number an entry refers to. -/
def referredNumbers (blob : MetadataBlob) : List Nat :=
  blob.dirNodes.flatMap fun node => node.entries.map DirEntry.inodeNumber

theorem childNumbers_referred {number child : Nat} (h : child ∈ childNumbers H blob number) :
    child ∈ referredNumbers blob := by
  obtain ⟨e, listed, rfl⟩ := List.mem_map.mp h
  obtain ⟨node, hnode, heq⟩ := dirEntries_node listed
  rw [heq] at listed
  exact List.mem_flatMap.mpr ⟨node, hnode, List.mem_map_of_mem listed⟩

theorem built_iff (hroot : blob.rootInodeNumber = some root) :
    (∃ fuel index, buildPathIndex H blob fuel = some index) ↔
      Worklist.Acyclic (childNumbers H blob) root := by
  have hdrains : (∃ fuel index, buildPathIndex H blob fuel = some index) ↔
      ∃ fuel, Worklist.drains (childNumbers H blob) fuel [root] = true := by
    refine exists_congr fun fuel => ?_
    rw [buildPathIndex_root hroot, ← Option.isSome_iff_exists, indexLoop_isSome]
    rfl
  rw [hdrains, Worklist.drains_iff, List.forall_mem_singleton,
    Worklist.acc_iff_acyclic (referredNumbers blob) fun _ _ h => childNumbers_referred h]

open Relation

theorem entryAt_of_reached {start : Nat} {path : Path} (hstart : EntryAt H blob root path start)
    {item : Nat} (h : ReflTransGen (Worklist.ChildOf (childNumbers H blob)) item start) :
    ∃ below, EntryAt H blob root (path ++ below) item := by
  induction h using ReflTransGen.head_induction_on with
  | refl => exact ⟨[], by rwa [List.append_nil]⟩
  | head hchild _ ih =>
      obtain ⟨below, hat⟩ := ih
      obtain ⟨e, listed, rfl⟩ := List.mem_map.mp hchild
      exact ⟨below ++ [e.name], by rw [← List.append_assoc]; exact EntryAt.entry hat listed⟩

theorem DirTree.acyclic (htree : DirTree H blob root) :
    Worklist.Acyclic (childNumbers H blob) root := by
  intro item hreach hcycle
  obtain ⟨path, hat⟩ := entryAt_of_reached EntryAt.root hreach
  rw [List.nil_append] at hat
  obtain ⟨next, hback, hfirst⟩ := TransGen.tail'_iff.mp hcycle
  obtain ⟨e, listed, rfl⟩ := List.mem_map.mp hfirst
  obtain ⟨below, hagain⟩ := entryAt_of_reached (EntryAt.entry hat listed) hback
  have hsame := htree path _ item hat hagain (List.ne_nil_of_mem listed)
  have hlen := congrArg List.length hsame
  simp at hlen

end

/-- **The index of an accepted blob is built exactly when no directory below the root leads back to
itself**, which none does in a tree. -/
theorem path_index_iff : ∀ (H : Hash) (bytes rest : Bytes) (blob : MetadataBlob),
    parseMetadataBlob bytes = (.ok blob, rest) →
    (IndexBuilt H blob ↔
      ∀ root, blob.rootInodeNumber = some root → Worklist.Acyclic (childNumbers H blob) root) ∧
    ∀ root, blob.rootInodeNumber = some root → DirTree H blob root →
      Worklist.Acyclic (childNumbers H blob) root := by
  intro H bytes rest blob hparse
  have hwf := parseMetadataBlob_wellFormed hparse
  refine ⟨⟨fun h root hroot => (built_iff hroot).mp h.1, fun h => ⟨?_, fun root hroot _ => ?_⟩⟩,
    fun root _ htree => htree.acyclic⟩
  · cases hroot : blob.rootInodeNumber with
    | none => exact ⟨0, ∅, by rw [buildPathIndex, hroot]⟩
    | some root => exact (built_iff hroot).mpr (h root hroot)
  · obtain ⟨fuel, index, hindex⟩ := (built_iff hroot).mpr (h root hroot)
    exact ⟨fuel, index, hindex, exactIndex_of_built hwf hroot hindex⟩

namespace Stored

open LimniFS.Stored FuseVfs.Stored

/-- A directory in itself. -/
def loopEntries : List DirEntry := [⟨ascii "a", 2, EntryType.directory⟩]

/-- The root holds a directory that holds itself. -/
def loopBlob : MetadataBlob :=
  let dir (number : Nat) : Inode :=
    { pagedInode number 0x41ED with contentHandle := .directory (dirNodeHash foldDigest loopEntries) }
  ⟨[dir 1, dir 2], [⟨1, loopEntries⟩]⟩

def loopBlobBytes : Bytes :=
  leBytes 4 2
    ++ (loopBlob.inodes.flatMap fun inode =>
      inodeHeadBytes inode ++ (dirNodeHash foldDigest loopEntries).val)
    ++ leBytes 4 1 ++ dirNodeBytes loopEntries

theorem parseMetadataBlob_loop : parseMetadataBlob loopBlobBytes = (.ok loopBlob, []) := by
  decide +kernel

end Stored

open LimniFS.Stored LimniFS.Rw.Stored

/-- A directory that holds itself is queued without an end. -/
theorem self_containing_directory_never_indexed :
    parseMetadataBlob loopBlobBytes = (.ok loopBlob, []) ∧
      (∀ fuel, buildPathIndex foldDigest loopBlob fuel = none) ∧
      ¬ IndexBuilt foldDigest loopBlob := by
  have hroot : loopBlob.rootInodeNumber = some 1 := by decide +kernel
  have hcycle : ¬ Worklist.Acyclic (childNumbers foldDigest loopBlob) 1 := by
    intro hacyclic
    have hchild : ∀ number ∈ [1, 2],
        2 ∈ childNumbers foldDigest loopBlob number := by
      decide +kernel
    exact hacyclic 2 (Relation.ReflTransGen.single (hchild 1 (by decide)))
      (Relation.TransGen.single (hchild 2 (by decide)))
  have hnever : ¬ ∃ fuel index, buildPathIndex foldDigest loopBlob fuel =
      some index := fun h => hcycle ((built_iff hroot).mp h)
  refine ⟨parseMetadataBlob_loop, fun fuel => ?_, fun h => hnever h.1⟩
  by_contra hsome
  obtain ⟨index, hindex⟩ := Option.ne_none_iff_exists'.mp hsome
  exact hnever ⟨fuel, index, hindex⟩

theorem path_index_iff_loop :
    parseMetadataBlob loopBlobBytes = (.ok loopBlob, []) ∧
      ((IndexBuilt foldDigest loopBlob ↔
        ∀ root, loopBlob.rootInodeNumber = some root →
          Worklist.Acyclic (childNumbers foldDigest loopBlob) root) ∧
      ∀ root, loopBlob.rootInodeNumber = some root →
        DirTree foldDigest loopBlob root →
          Worklist.Acyclic (childNumbers foldDigest loopBlob) root) :=
  ⟨parseMetadataBlob_loop, path_index_iff _ _ _ _ parseMetadataBlob_loop⟩

end LimniFS.Rw
