/-
What an image shows, and the directories `finish` makes.

The tree of an image is what its paths show: the type of the entry a path leads to from
the root, the identity and the attributes of its inode, and its content.  Numbers do not
show.  `finish` gives every directory a number and an inode with an entry for every child;
the image then shows at every path what stands there in the writer's tree
(`walk_shows`).
-/
import LimniFS.StreamContents

namespace LimniFS

open Lib

/-! ### What an image shows -/

/-- The listing of a directory shows in the paths below it. -/
def PendingContent.unlisted : PendingContent → PendingContent
  | .directory _ => .directory []
  | content => content

def PendingContent.entries : PendingContent → List DirEntry
  | .directory entries => entries
  | _ => []

namespace WriteContext

variable (ctx : WriteContext)

def inodeAt (number : Nat) : Option PendingInode := ctx.inodes.find? fun i => i.number = number

/-- What stands under a number, with the attributes as they are written. -/
def payloadAt (number : Nat) : Option Payload :=
  (ctx.inodeAt number).map fun inode =>
    ⟨inode.mode, inode.uid, inode.gid, inode.mtimeNs,
      (ctx.inodeXattrs number).getD inode.xattrs, inode.content.unlisted⟩

/-- The entry a path leads to, from an entry on. -/
def walk : Path → Nat × UInt8 → Option (Nat × UInt8)
  | [], entry => some entry
  | name :: rest, entry =>
    match (ctx.inodeAt entry.1).map PendingInode.content with
    | some (.directory entries) =>
      (entries.find? fun e => e.name = name).bind fun e => walk rest (e.inodeNumber, e.entryType)
    | _ => none

/-- The type of an entry and what stands behind it. -/
def shownAt (entry : Nat × UInt8) : Option (UInt8 × Payload) :=
  (ctx.payloadAt entry.1).map (entry.2, ·)

/-- What the image shows at a path. -/
def seen (path : Path) : Option (UInt8 × Payload) :=
  (ctx.walk path (ctx.rootInodeNumber, EntryType.directory)).bind ctx.shownAt

/-- Every entry refers to an inode that is there. -/
def EntriesClosed : Prop :=
  ∀ inode ∈ ctx.inodes, ∀ e ∈ inode.content.entries,
    ∃ target ∈ ctx.inodes, target.number = e.inodeNumber

instance : Decidable ctx.EntriesClosed :=
  inferInstanceAs (Decidable (∀ inode ∈ ctx.inodes, ∀ e ∈ inode.content.entries,
    ∃ target ∈ ctx.inodes, target.number = e.inodeNumber))

end WriteContext

/-- What a place of the contents shows. -/
def shown : EntryMeta ⊕ StreamLeaf (Option Payload) → Option (UInt8 × Payload)
  | .inl info => some (EntryType.directory, info.payload sIfdir [] (.directory []))
  | .inr (.file p) => p.map (EntryType.file, ·)
  | .inr (.symlink p) => p.map (EntryType.symlink, ·)
  | .inr (.deferredLink _) => none

/-! ### A tree in a table of inodes -/

mutual

/-- The entry shows the node: a leaf's number is one of those given before `lo`, a directory has
an inode that lists its children. -/
def ShowsNode (inodes : List PendingInode) (lo : Nat) : Nat × UInt8 → StreamNode Nat → Prop
  | entry, .leaf (.file number) => entry = (number, EntryType.file) ∧ number < lo
  | entry, .leaf (.symlink number) => entry = (number, EntryType.symlink) ∧ number < lo
  | _, .leaf (.deferredLink _) => False
  | entry, .dir info children =>
    entry.2 = EntryType.directory ∧ lo ≤ entry.1 ∧
      ∃ entries, info.inode sIfdir entry.1 [] (.directory entries) ∈ inodes ∧
        ShowsChildren inodes lo entries children

def ShowsChildren (inodes : List PendingInode) (lo : Nat) : List DirEntry → StreamDir Nat → Prop
  | entries, .nil => entries = []
  | entries, .cons name node rest =>
    ∃ e others, entries = e :: others ∧ e.name = name ∧
      ShowsNode inodes lo (e.inodeNumber, e.entryType) node ∧ ShowsChildren inodes lo others rest

end

section

variable {inodes inodes' : List PendingInode} {lo : Nat}

mutual

theorem ShowsNode.mono (hsub : ∀ i ∈ inodes, i ∈ inodes') : ∀ (node : StreamNode Nat)
    (entry : Nat × UInt8), ShowsNode inodes lo entry node → ShowsNode inodes' lo entry node
  | .leaf (.file number), entry, h => by
      unfold ShowsNode at h ⊢
      exact h
  | .leaf (.symlink number), entry, h => by
      unfold ShowsNode at h ⊢
      exact h
  | .leaf (.deferredLink target), entry, h => by
      unfold ShowsNode at h
      exact h.elim
  | .dir info children, entry, h => by
      unfold ShowsNode at h ⊢
      obtain ⟨hkind, hlo, entries, hmem, hchildren⟩ := h
      exact ⟨hkind, hlo, entries, hsub _ hmem, ShowsChildren.mono hsub children entries hchildren⟩

theorem ShowsChildren.mono (hsub : ∀ i ∈ inodes, i ∈ inodes') : ∀ (children : StreamDir Nat)
    (entries : List DirEntry), ShowsChildren inodes lo entries children →
      ShowsChildren inodes' lo entries children
  | .nil, entries, h => by
      unfold ShowsChildren at h ⊢
      exact h
  | .cons name node rest, entries, h => by
      unfold ShowsChildren at h ⊢
      obtain ⟨e, others, hentries, hname, hnode, hrest⟩ := h
      exact ⟨e, others, hentries, hname, ShowsNode.mono hsub node _ hnode,
        ShowsChildren.mono hsub rest others hrest⟩

end

/-- An entry is found where its child is, and shows it. -/
theorem ShowsChildren.find (name : Bytes) : ∀ {children : StreamDir Nat} {entries : List DirEntry},
    ShowsChildren inodes lo entries children →
    (entries.find? (fun e => e.name = name) = none ∧ children.get name = none) ∨
      ∃ e node, entries.find? (fun e => e.name = name) = some e ∧ children.get name = some node ∧
        ShowsNode inodes lo (e.inodeNumber, e.entryType) node
  | .nil, _, h => by
      unfold ShowsChildren at h
      rw [h]
      exact .inl ⟨rfl, rfl⟩
  | .cons n node rest, _, h => by
      unfold ShowsChildren at h
      obtain ⟨e, others, rfl, hname, hnode, hrest⟩ := h
      rw [NameForest.get]
      by_cases hn : n = name
      · right
        refine ⟨e, node, ?_, if_pos hn, hnode⟩
        exact List.find?_cons_of_pos (decide_eq_true (hname.trans hn))
      · rw [if_neg hn, List.find?_cons_of_neg (by simpa [hname] using hn)]
        exact ShowsChildren.find name hrest

end

/-- A context whose numbers are given once, with files and links below `lo` and directories from
there on. -/
structure Numbered (ctx : WriteContext) (lo : Nat) : Prop where
  nodup : (ctx.inodes.map (·.number)).Nodup
  plain : ∀ inode ∈ ctx.inodes, inode.number < lo → ∀ entries, inode.content ≠ .directory entries
  xattrs : ∀ number, lo ≤ number → ctx.inodeXattrs number = none

section

variable {ctx : WriteContext} {lo : Nat}

theorem Numbered.inodeAt_mem (h : Numbered ctx lo) {inode : PendingInode}
    (hmem : inode ∈ ctx.inodes) : ctx.inodeAt inode.number = some inode :=
  find?_of_nodup_map (f := PendingInode.number) h.nodup hmem

theorem Numbered.walk_leaf (h : Numbered ctx lo) {number : Nat} (hlt : number < lo) (kind : UInt8)
    (name : Bytes) (rest : Path) : ctx.walk (name :: rest) (number, kind) = none := by
  unfold WriteContext.walk
  cases hinode : ctx.inodeAt number with
  | none => rfl
  | some inode =>
      have hmem := List.mem_of_find?_eq_some hinode
      have hnumber : inode.number = number := by simpa using List.find?_some hinode
      have hplain := h.plain inode hmem (hnumber ▸ hlt)
      cases hcontent : inode.content with
      | directory entries => exact absurd hcontent (hplain entries)
      | inline data =>
          simp only [Option.map_some, hcontent]
      | symlink target =>
          simp only [Option.map_some, hcontent]
      | dropBacked fileLen slices =>
          simp only [Option.map_some, hcontent]

theorem Numbered.payloadAt_dir (h : Numbered ctx lo) {info : EntryMeta} {number : Nat}
    {entries : List DirEntry} (hlo : lo ≤ number)
    (hmem : info.inode sIfdir number [] (.directory entries) ∈ ctx.inodes) :
    ctx.payloadAt number = some (info.payload sIfdir [] (.directory [])) := by
  have hinode : ctx.inodeAt number = some (info.inode sIfdir number [] (.directory entries)) :=
    h.inodeAt_mem hmem
  unfold WriteContext.payloadAt
  rw [hinode, h.xattrs number hlo]
  rfl

/-- **What the image shows below an entry is what stands in the tree it shows.** -/
theorem walk_shows (h : Numbered ctx lo) : ∀ (path : Path) (entry : Nat × UInt8)
    (node : StreamNode Nat), ShowsNode ctx.inodes lo entry node →
    (ctx.walk path entry).bind ctx.shownAt
      = ((node.map (StreamLeaf.map ctx.payloadAt)).look path).bind shown := by
  intro path
  induction path with
  | nil =>
      intro entry node hshows
      cases node with
      | leaf leaf =>
          cases leaf with
          | file number =>
              unfold ShowsNode at hshows
              rw [hshows.1]
              rfl
          | symlink number =>
              unfold ShowsNode at hshows
              rw [hshows.1]
              rfl
          | deferredLink target =>
              unfold ShowsNode at hshows
              exact hshows.elim
      | dir info children =>
          unfold ShowsNode at hshows
          obtain ⟨hkind, hlo, entries, hmem, -⟩ := hshows
          rw [WriteContext.walk, Option.bind_some, WriteContext.shownAt,
            h.payloadAt_dir hlo hmem, hkind]
          rfl
  | cons name rest ih =>
      intro entry node hshows
      cases node with
      | leaf leaf =>
          cases leaf with
          | file number =>
              unfold ShowsNode at hshows
              rw [hshows.1, h.walk_leaf hshows.2]
              rfl
          | symlink number =>
              unfold ShowsNode at hshows
              rw [hshows.1, h.walk_leaf hshows.2]
              rfl
          | deferredLink target =>
              unfold ShowsNode at hshows
              exact hshows.elim
      | dir info children =>
          unfold ShowsNode at hshows
          obtain ⟨-, -, entries, hmem, hchildren⟩ := hshows
          have hinode : ctx.inodeAt entry.1
              = some (info.inode sIfdir entry.1 [] (.directory entries)) := h.inodeAt_mem hmem
          rw [NameTree.map, NameTree.look, NameForest.get_map, WriteContext.walk, hinode]
          simp only [Option.map_some, EntryMeta.inode]
          rcases ShowsChildren.find name hchildren with ⟨hnone, hget⟩ | ⟨e, node, hfind, hget, hnode⟩
          · rw [hnone, hget]
            rfl
          · rw [hfind, hget]
            exact ih _ node hnode

end

/-! ### Making the directories -/

/-- Only directories were added: new inodes with new numbers, and their nodes. -/
structure DirsAdded (s s' : WriterState) (new : List PendingInode) : Prop where
  state : ∃ dirNodes dirCount, s' = { s with
    inodes := s.inodes ++ new, nextInode := s'.nextInode, dirNodes := dirNodes, dirCount := dirCount }
  le : s.nextInode ≤ s'.nextInode
  range : ∀ i ∈ new, s.nextInode ≤ i.number ∧ i.number < s'.nextInode
  nodup : (new.map (·.number)).Nodup

namespace DirsAdded

variable {s s' s'' : WriterState} {new new' : List PendingInode}

theorem refl (s : WriterState) : DirsAdded s s [] where
  state := ⟨s.dirNodes, s.dirCount, by rw [List.append_nil]⟩
  le := Nat.le_refl _
  range := nofun
  nodup := List.nodup_nil

theorem inodes (h : DirsAdded s s' new) : s'.inodes = s.inodes ++ new := by
  obtain ⟨dirNodes, dirCount, hs⟩ := h.state
  rw [hs]

theorem trans (h : DirsAdded s s' new) (h' : DirsAdded s' s'' new') :
    DirsAdded s s'' (new ++ new') where
  state := by
    obtain ⟨dirNodes, dirCount, hs⟩ := h.state
    obtain ⟨dirNodes', dirCount', hs'⟩ := h'.state
    refine ⟨dirNodes', dirCount', ?_⟩
    rw [hs', hs, List.append_assoc]
  le := Nat.le_trans h.le h'.le
  range := by
    intro i hi
    rcases List.mem_append.mp hi with hi | hi
    · exact ⟨(h.range i hi).1, Nat.lt_of_lt_of_le (h.range i hi).2 h'.le⟩
    · exact ⟨Nat.le_trans h.le (h'.range i hi).1, (h'.range i hi).2⟩
  nodup := by
    rw [List.map_append]
    refine List.nodup_append.mpr ⟨h.nodup, h'.nodup, ?_⟩
    intro n hn m hm heq
    obtain ⟨i, hi, rfl⟩ := List.mem_map.mp hn
    obtain ⟨j, hj, rfl⟩ := List.mem_map.mp hm
    have hlt := (h.range i hi).2
    have hge := (h'.range j hj).1
    omega

end DirsAdded

theorem sortEntries_self {entries : List DirEntry} (h : (entries.map (·.name)).Pairwise (· < ·)) :
    sortEntries entries = entries := by
  refine List.Pairwise.insertionSort_eq ?_
  rw [List.pairwise_map] at h
  exact h.imp fun hlt => Std.le_of_lt hlt

theorem sorted_names {ι : Type} : ∀ forest : StreamDir ι, forest.Sorted →
    forest.names.Pairwise (· < ·)
  | .nil, _ => List.Pairwise.nil
  | .cons _ _ rest, h => List.pairwise_cons.mpr ⟨h.lt, sorted_names rest h.rest⟩

section

variable {env : WriterEnv} {lo : Nat}

/-- A directory that lists a part of the tree. -/
def Listed (inodes : List PendingInode) (lo : Nat) (leaves : List (StreamLeaf Nat))
    (inode : PendingInode) : Prop :=
  ∃ entries children, inode.content = .directory entries ∧
    ShowsChildren inodes lo entries children ∧ ∀ leaf ∈ children.leaves, leaf ∈ leaves

theorem Listed.mono {inodes inodes' : List PendingInode} {leaves leaves' : List (StreamLeaf Nat)}
    {inode : PendingInode} (h : Listed inodes lo leaves inode) (hsub : ∀ i ∈ inodes, i ∈ inodes')
    (hleaves : ∀ leaf ∈ leaves, leaf ∈ leaves') : Listed inodes' lo leaves' inode := by
  obtain ⟨entries, children, hcontent, hshows, hmem⟩ := h
  exact ⟨entries, children, hcontent, ShowsChildren.mono hsub children entries hshows,
    fun leaf hleaf => hleaves leaf (hmem leaf hleaf)⟩

/-- A directory is left: its inode lists the entries of its children. -/
theorem leaveDir_added {info : EntryMeta} {entries : List DirEntry} {s s₁ s' : WriterState}
    {entry : Nat × UInt8} {new : List PendingInode} (hadded : DirsAdded (enterDir s) s₁ new)
    (hsorted : (entries.map (·.name)).Pairwise (· < ·))
    (h : leaveDir env info s.nextInode entries s₁ = .ok (entry, s')) :
    entry = (s.nextInode, EntryType.directory) ∧
      DirsAdded s s' (new ++ [info.inode sIfdir s.nextInode [] (.directory entries)]) := by
  unfold leaveDir at h
  simp only [sortEntries_self hsorted] at h
  cases hnode : encodeDirNode env.H entries with
  | none =>
      rw [hnode] at h
      cases h
  | some node =>
      rw [hnode] at h
      cases h
      refine ⟨rfl, ?_, Nat.le_of_succ_le hadded.le, ?_, ?_⟩
      · obtain ⟨dirNodes, dirCount, hs⟩ := hadded.state
        refine ⟨dirNodes ++ [node], dirCount, ?_⟩
        rw [hs, ← List.append_assoc]
        rfl
      · intro i hi
        rcases List.mem_append.mp hi with hi | hi
        · exact ⟨Nat.le_of_succ_le (hadded.range i hi).1, (hadded.range i hi).2⟩
        · cases List.mem_singleton.mp hi
          exact ⟨Nat.le_refl _, hadded.le⟩
      · rw [List.map_append]
        refine List.nodup_append.mpr ⟨hadded.nodup, List.nodup_singleton _, ?_⟩
        intro n hn m hm heq
        obtain ⟨i, hi, rfl⟩ := List.mem_map.mp hn
        cases List.mem_singleton.mp hm
        exact absurd (hadded.range i hi).1 (Nat.not_le_of_lt (heq ▸ Nat.lt_succ_self _))

mutual

theorem materializeNode_shows : ∀ (node : StreamNode Nat) (s s' : WriterState)
    (entry : Nat × UInt8), node.Sorted → lo ≤ s.nextInode →
    (∀ leaf ∈ node.leaves, ∀ n, leaf.number = some n → n < lo) →
    materializeNode env node s = .ok (entry, s') →
    ∃ new, DirsAdded s s' new ∧ ShowsNode s'.inodes lo entry node ∧
      ∀ i ∈ new, Listed s'.inodes lo node.leaves i
  | .leaf (.file number), s, s', entry, _, _, hleaves, h => by
      cases h
      refine ⟨[], .refl s, ?_, nofun⟩
      unfold ShowsNode
      exact ⟨rfl, hleaves _ List.mem_cons_self number rfl⟩
  | .leaf (.symlink number), s, s', entry, _, _, hleaves, h => by
      cases h
      refine ⟨[], .refl s, ?_, nofun⟩
      unfold ShowsNode
      exact ⟨rfl, hleaves _ List.mem_cons_self number rfl⟩
  | .leaf (.deferredLink target), s, s', entry, _, _, _, h => by cases h
  | .dir info children, s, s', entry, hsorted, hlo, hleaves, h => by
      unfold materializeNode at h
      cases hchildren : materializeChildren env children (enterDir s) with
      | error e =>
          rw [hchildren] at h
          cases h
      | ok folded =>
          rw [hchildren] at h
          obtain ⟨entries, s₁⟩ := folded
          obtain ⟨new, hadded, hnames, hshows, hlisted⟩ := materializeChildren_shows children
            (enterDir s) s₁ entries hsorted (Nat.le_succ_of_le hlo) hleaves hchildren
          obtain ⟨rfl, hdir⟩ := leaveDir_added hadded (hnames ▸ sorted_names children hsorted) h
          have hsub : ∀ i ∈ s₁.inodes, i ∈ s'.inodes := by
            intro i hi
            rw [hadded.inodes] at hi
            rw [hdir.inodes, ← List.append_assoc]
            exact List.mem_append_left _ hi
          have hshows' := ShowsChildren.mono hsub children entries hshows
          refine ⟨_, hdir, ?_, ?_⟩
          · unfold ShowsNode
            refine ⟨rfl, hlo, entries, ?_, hshows'⟩
            rw [hdir.inodes]
            simp
          · intro i hi
            rcases List.mem_append.mp hi with hi | hi
            · exact (hlisted i hi).mono hsub fun _ hleaf => hleaf
            · cases List.mem_singleton.mp hi
              exact ⟨entries, children, rfl, hshows', fun _ hleaf => hleaf⟩

theorem materializeChildren_shows : ∀ (children : StreamDir Nat) (s s' : WriterState)
    (entries : List DirEntry), children.Sorted → lo ≤ s.nextInode →
    (∀ leaf ∈ children.leaves, ∀ n, leaf.number = some n → n < lo) →
    materializeChildren env children s = .ok (entries, s') →
    ∃ new, DirsAdded s s' new ∧ entries.map (·.name) = children.names ∧
      ShowsChildren s'.inodes lo entries children ∧
      ∀ i ∈ new, Listed s'.inodes lo children.leaves i
  | .nil, s, s', entries, _, _, _, h => by
      cases h
      refine ⟨[], .refl s, rfl, ?_, nofun⟩
      unfold ShowsChildren
      rfl
  | .cons name node rest, s, s', entries, hsorted, hlo, hleaves, h => by
      unfold NameForest.leaves at hleaves
      unfold materializeChildren at h
      cases hfirst : materializeNode env node s with
      | error e =>
          rw [hfirst] at h
          cases h
      | ok first =>
          rw [hfirst] at h
          obtain ⟨entry, s₁⟩ := first
          simp only at h
          cases hothers : materializeChildren env rest s₁ with
          | error e =>
              rw [hothers] at h
              cases h
          | ok others =>
              rw [hothers] at h
              cases h
              obtain ⟨new, hadded, hshows, hlisted⟩ := materializeNode_shows node s s₁ entry
                hsorted.tree hlo (fun leaf hleaf => hleaves leaf (List.mem_append_left _ hleaf))
                hfirst
              obtain ⟨new', hadded', hnames, hshows', hlisted'⟩ := materializeChildren_shows rest s₁
                others.2 others.1 hsorted.rest (Nat.le_trans hlo hadded.le)
                (fun leaf hleaf => hleaves leaf (List.mem_append_right _ hleaf)) hothers
              have hsub : ∀ i ∈ s₁.inodes, i ∈ others.2.inodes := by
                intro i hi
                rw [hadded'.inodes]
                exact List.mem_append_left _ hi
              refine ⟨_, hadded.trans hadded', ?_, ?_, ?_⟩
              · rw [List.map_cons, hnames]
                rfl
              · unfold ShowsChildren
                exact ⟨_, _, rfl, rfl, ShowsNode.mono hsub node _ hshows, hshows'⟩
              · intro i hi
                unfold NameForest.leaves
                rcases List.mem_append.mp hi with hi | hi
                · exact (hlisted i hi).mono hsub fun _ hleaf => List.mem_append_left _ hleaf
                · exact (hlisted' i hi).mono (fun _ hi => hi) fun _ hleaf =>
                    List.mem_append_right _ hleaf

end

end

end LimniFS
