/-
The tree that a rebuild stages.

A commit or a turnover writes the live tree of the image into a staging directory, entry by entry as
the walk reports it, and packs what is then there.  Names of one inode become names of one file,
where the operating system makes the link.

`stagedLive` says what the directory shows in the end: at every place that was reported the inode's
own content, and nothing elsewhere.
-/
import LimniFS.Lib.FileOverlay
import LimniFS.ExactWalk
import LimniFS.PathIndex

namespace LimniFS.Rw

open Lib

/-! ### The staging directory -/

/-- A file is made for the live tree or for a pending path. -/
inductive StagedFile where
  | live (path : Path)
  | pending (path : Path)
  deriving DecidableEq

abbrev StagingDir := FileTree Bytes StagedFile Bytes

/-- What the operating system decides: where a hard link can be made, which files may be removed,
and what is done for a key of the handle that leads through a symbolic link or through `..`. -/
structure StagingOs where
  mayLink : Path → Bool
  mayRemove : Path → Bool
  removeThrough : StagingDir → Bytes → StagingDir
  writeThrough : StagingDir → Bytes → Bytes → Option StagingDir

/-- `FilesystemSink`: the tree so far, and where an inode was first written. -/
structure FilesystemSink where
  tree : StagingDir
  seenInodes : AList fun _ : Nat => Path

def stagingError : CoreError := .corrupt "live_tree: I/O"

section
variable (os : StagingOs) (store : Option SlabSource)

/-- `std::fs::hard_link`. -/
def hardLink (tree : StagingDir) (first path : Path) : Option StagingDir :=
  match tree.node first with
  | some (.file object) => if os.mayLink path then tree.place path (.file object) else none
  | _ => none

/-- A second name is linked to the first; where that fails the content is written again. -/
def FilesystemSink.onRegularFile (path : Path) (inode : Inode) (s : FilesystemSink) :
    Except CoreError FilesystemSink :=
  let first := s.seenInodes.lookup inode.number
  match first.bind fun first => hardLink os s.tree first path with
  | some tree => .ok { s with tree }
  | none =>
    let seen := if first.isSome then s.seenInodes else s.seenInodes.insert inode.number path
    match concatChunks (fileChunks inode store) with
    | .error e => .error e
    | .ok data =>
      match s.tree.write path (.live path) data with
      | none => .error stagingError
      | some tree => .ok ⟨tree, seen⟩

def FilesystemSink.onSymlink (path : Path) (target : Bytes) (s : FilesystemSink) :
    Except CoreError FilesystemSink :=
  match s.tree.place path (.symlink target) with
  | none => .error stagingError
  | some tree => .ok { s with tree }

def filesystemSink : LiveTreeSink FilesystemSink where
  onDirectoryInode path _ s :=
    match s.tree.makeDirs path with
    | none => .error stagingError
    | some tree => .ok { s with tree }
  onRegularFile := FilesystemSink.onRegularFile os store
  onSymlinkInode path _ target s := s.onSymlink path target
  onOther _ _ s := .ok s

end

/-- The slabs of an opened image. -/
def slabSource (z : Omnizip) (state : OpenState) : Option SlabSource :=
  state.slabStore.map fun store => store.plaintextFor z

/-- `write_live_tree`, into an empty directory. -/
def writeLiveTree (H : Hash) (z : Omnizip) (os : StagingOs) (state : OpenState) :
    Except CoreError StagingDir :=
  (walkLiveTree H state.blob (filesystemSink os (slabSource z state)) state.rootInode
    ⟨.bare [], ∅⟩).map FilesystemSink.tree

/-! ### What is staged -/

/-- What an inode shows at its paths; special files are not staged. -/
def inodeEntry (store : Option SlabSource) (inode : Inode) : Option (FileEntry Bytes) :=
  match inode.contentHandle with
  | .directory _ => some .dir
  | .inlineData _ | .sliceMap _ => (concatChunks (fileChunks inode store)).toOption.map .file
  | .symlink target => some (.symlink target)
  | _ => none

/-- What the tree is after some reports. -/
structure Staged (store : Option SlabSource) (events : List WalkEvent) (s : FilesystemSink) : Prop
    where
  rooted : s.tree.Rooted
  shown : ∀ event ∈ events, s.tree.shows event.1 = inodeEntry store event.2
  absent : ∀ path, path ≠ [] → path ∉ events.map Prod.fst → s.tree.node path = none
  /-- Every file was made for a place that was reported. -/
  objects : ∀ path object, s.tree.node path = some (.file object) →
    ∃ place ∈ events.map Prod.fst, object = .live place
  seen : ∀ number path, s.seenInodes.lookup number = some path →
    ∃ inode, (path, inode) ∈ events ∧ inode.number = number

section
variable {os : StagingOs} {store : Option SlabSource} {events : List WalkEvent}
  {s s' : FilesystemSink} {path : Path} {inode : Inode}

theorem staged_nil : Staged store [] ⟨.bare [], ∅⟩ where
  rooted := FileTree.rooted_bare []
  shown event h := absurd h List.not_mem_nil
  absent path hne _ := by
    cases path with
    | nil => exact absurd rfl hne
    | cons => rfl
  objects path object h := by
    cases path with
    | nil => cases h
    | cons => cases h
  seen number path h := by
    rw [AList.lookup_empty] at h
    cases h

/-- One more place, with something new at it. -/
theorem Staged.snoc (h : Staged store events s) (hnew : path ∉ events.map Prod.fst)
    {n : FileNode StagedFile Bytes}
    (hrooted : s'.tree.Rooted)
    (hnode : ∀ q, s'.tree.node q = if q = path then some n else s.tree.node q)
    (hcontent : ∀ q object, s.tree.node q = some (.file object) →
      s'.tree.content object = s.tree.content object)
    (hshows : s'.tree.shows path = inodeEntry store inode)
    (hobject : ∀ object, n = .file object →
      ∃ place ∈ (events ++ [(path, inode)]).map Prod.fst, object = .live place)
    (hseen : s'.seenInodes = s.seenInodes ∨
      s'.seenInodes = s.seenInodes.insert inode.number path) :
    Staged store (events ++ [(path, inode)]) s' := by
  have hsame : ∀ q, q ≠ path → s'.tree.shows q = s.tree.shows q := by
    intro q hq
    have hq' := hnode q
    rw [if_neg hq] at hq'
    unfold FileTree.shows
    rw [hq']
    rcases hold : s.tree.node q with _ | _ | object | target
    · rfl
    · rfl
    · simp only [Option.map_some, hcontent q object hold]
    · rfl
  refine ⟨hrooted, fun event hevent => ?_, fun q hne hq => ?_, fun q object hq => ?_,
    fun number q hq => ?_⟩
  · rcases List.mem_append.mp hevent with hold | hlast
    · have hne : event.1 ≠ path := fun heq => hnew (heq ▸ List.mem_map_of_mem hold)
      rw [hsame _ hne, h.shown event hold]
    · rw [List.mem_singleton.mp hlast, hshows]
  · rw [List.map_append, List.mem_append, not_or] at hq
    have hqp : q ≠ path := fun heq => hq.2 (by simp [heq])
    rw [hnode, if_neg hqp, h.absent q hne hq.1]
  · rw [hnode] at hq
    split at hq
    · exact hobject object (Option.some.inj hq)
    · obtain ⟨place, hplace, rfl⟩ := h.objects q object hq
      exact ⟨place, by rw [List.map_append]; exact List.mem_append_left _ hplace, rfl⟩
  · have hearlier : s.seenInodes.lookup number = some q →
        ∃ inode', (q, inode') ∈ events ++ [(path, inode)] ∧ inode'.number = number := by
      intro hlookup
      obtain ⟨inode', hin, hnumber⟩ := h.seen number q hlookup
      exact ⟨inode', List.mem_append_left _ hin, hnumber⟩
    rcases hseen with heq | heq
    · exact hearlier (heq ▸ hq)
    · rw [heq] at hq
      by_cases hnumber : number = inode.number
      · rw [hnumber, AList.lookup_insert] at hq
        obtain rfl := Option.some.inj hq
        exact ⟨inode, List.mem_append_right _ (List.mem_singleton_self _), hnumber.symm⟩
      · rw [AList.lookup_insert_ne hnumber] at hq
        exact hearlier hq

/-- Where a report stands: at the root as the first, or in a directory reported before. -/
structure Stands (events : List WalkEvent) (path : Path) (inode : Inode) : Prop where
  fresh : path ∉ events.map Prod.fst
  root : path = [] → inode.dirHash.isSome
  parent : ∀ init name, path = init ++ [name] → ∃ dir, (init, dir) ∈ events ∧ dir.dirHash.isSome

theorem inodeEntry_dir (h : inode.dirHash.isSome) : inodeEntry store inode = some .dir := by
  unfold Inode.dirHash at h
  unfold inodeEntry
  split at h
  · next hash hhandle => rw [hhandle]
  · cases h

theorem Stands.above (hstands : Stands events path inode) (h : Staged store events s) :
    (∀ q, q <+: path → q ≠ path → s.tree.node q = some .dir) ∧
      (path ≠ [] → s.tree.node path = none) := by
  refine ⟨fun q hq hne => ?_, fun hne => h.absent path hne hstands.fresh⟩
  rcases List.eq_nil_or_concat' path with rfl | ⟨init, name, rfl⟩
  · exact absurd (List.prefix_nil.mp hq) hne
  · obtain ⟨dir, hin, hdir⟩ := hstands.parent init name rfl
    have hinit : s.tree.node init = some .dir := by
      rw [← FileTree.shows_eq_dir, h.shown _ hin, inodeEntry_dir hdir]
    rcases List.prefix_concat_iff.mp hq with rfl | hq
    · exact absurd rfl hne
    · by_cases heq : q = init
      · rw [heq, hinit]
      · exact h.rooted.above (by rw [hinit]; rfl) hq heq

theorem placed_at {n : FileNode StagedFile Bytes} {tree tree' : StagingDir}
    (hplaced : tree.Placed path n tree')
    (habove : ∀ q, q <+: path → q ≠ path → tree.node q = some .dir) (q : Path) :
    tree'.node q = if q = path then some n else tree.node q := by
  rw [hplaced.node]
  by_cases heq : q = path
  · rw [if_pos heq, if_pos heq]
  · rw [if_neg heq, if_neg heq]
    by_cases hpre : q <+: path
    · rw [if_pos hpre, habove q hpre heq]
    · rw [if_neg hpre]

/-! ### One report -/

theorem Staged.directory (h : Staged store events s) (hstands : Stands events path inode)
    (hdir : inode.dirHash.isSome)
    (hreport : (filesystemSink os store).onDirectoryInode path inode s = .ok s') :
    Staged store (events ++ [(path, inode)]) s' := by
  obtain ⟨habove, hnone⟩ := hstands.above h
  simp only [filesystemSink] at hreport
  split at hreport
  · cases hreport
  · next tree hmade =>
      cases hreport
      obtain ⟨-, rfl⟩ := FileTree.makeDirs_some hmade
      have hnode : ∀ q, (if q <+: path then some FileNode.dir else s.tree.node q) =
          if q = path then some .dir else s.tree.node q := by
        intro q
        by_cases heq : q = path
        · rw [if_pos heq, heq, if_pos (List.prefix_refl path)]
        · rw [if_neg heq]
          by_cases hpre : q <+: path
          · rw [if_pos hpre, habove q hpre heq]
          · rw [if_neg hpre]
      refine h.snoc hstands.fresh ⟨?_, fun p name hsome => ?_⟩ hnode (fun _ _ _ => rfl) ?_
        (fun object hn => by cases hn) (Or.inl rfl)
      · show (if ([] : Path) <+: path then some FileNode.dir else s.tree.node []) = some .dir
        rw [if_pos List.nil_prefix]
      · show (if p <+: path then some FileNode.dir else s.tree.node p) = some .dir
        by_cases hpre : p <+: path
        · rw [if_pos hpre]
        · rw [if_neg hpre]
          have hnot : ¬ p ++ [name] <+: path := fun hp => hpre ((List.prefix_append p [name]).trans hp)
          have hold : (s.tree.node (p ++ [name])).isSome := by
            simpa only [if_neg hnot] using hsome
          exact h.rooted.parent p name hold
      · rw [inodeEntry_dir hdir, FileTree.shows_eq_dir]
        show (if path <+: path then some FileNode.dir else s.tree.node path) = some .dir
        rw [if_pos (List.prefix_refl path)]

theorem Staged.symlink (h : Staged store events s) (hstands : Stands events path inode)
    {target : Bytes} (hlink : inode.contentHandle = .symlink target)
    (hreport : s.onSymlink path target = .ok s') :
    Staged store (events ++ [(path, inode)]) s' := by
  obtain ⟨habove, -⟩ := hstands.above h
  unfold FilesystemSink.onSymlink at hreport
  split at hreport
  · cases hreport
  · next tree hplace =>
      cases hreport
      have hplaced := FileTree.placed hplace
      have hnode := placed_at hplaced habove
      refine h.snoc hstands.fresh (hplaced.rooted h.rooted) hnode
        (fun _ object _ => congrFun hplaced.content object) ?_ (fun object hn => by cases hn)
        (Or.inl rfl)
      have hthere : tree.node path = some (.symlink target) := (hnode path).trans (if_pos rfl)
      rw [FileTree.shows_symlink hthere]
      simp [inodeEntry, hlink]

theorem Staged.passed (h : Staged store events s) (hstands : Stands events path inode)
    (hne : path ≠ []) (hentry : inodeEntry store inode = none) :
    Staged store (events ++ [(path, inode)]) s where
  rooted := h.rooted
  shown event hevent := by
    rcases List.mem_append.mp hevent with hold | hlast
    · exact h.shown event hold
    · rw [List.mem_singleton.mp hlast, hentry, FileTree.shows_eq_none]
      exact h.absent path hne hstands.fresh
  absent q hq hnot := by
    rw [List.map_append, List.mem_append, not_or] at hnot
    exact h.absent q hq hnot.1
  objects q object hq := by
    obtain ⟨place, hplace, rfl⟩ := h.objects q object hq
    exact ⟨place, by rw [List.map_append]; exact List.mem_append_left _ hplace, rfl⟩
  seen number q hq := by
    obtain ⟨inode', hin, hnumber⟩ := h.seen number q hq
    exact ⟨inode', List.mem_append_left _ hin, hnumber⟩

/-- A hard link shows what the first name shows. -/
theorem Staged.linked (h : Staged store events s) (hstands : Stands events path inode)
    {first : Path} {tree : StagingDir} (hfirst : (first, inode) ∈ events)
    (hlink : hardLink os s.tree first path = some tree) :
    Staged store (events ++ [(path, inode)]) { s with tree } := by
  obtain ⟨habove, -⟩ := hstands.above h
  unfold hardLink at hlink
  split at hlink
  · next object hobject =>
      split at hlink
      · have hplaced := FileTree.placed hlink
        have hnode := placed_at hplaced habove
        refine h.snoc hstands.fresh (hplaced.rooted h.rooted) hnode
          (fun _ o _ => congrFun hplaced.content o) ?_ (fun o hn => ?_) (Or.inl rfl)
        · have hthere : tree.node path = some (.file object) := (hnode path).trans (if_pos rfl)
          rw [← h.shown _ hfirst, FileTree.shows_file hobject, FileTree.shows_file hthere,
            hplaced.content]
        · cases hn
          obtain ⟨place, hplace, heq⟩ := h.objects first object hobject
          exact ⟨place, by rw [List.map_append]; exact List.mem_append_left _ hplace, heq⟩
      · cases hlink
  · cases hlink

/-- A file that is written shows its content. -/
theorem Staged.written (h : Staged store events s) (hstands : Stands events path inode)
    (hne : path ≠ []) {data : Bytes} {tree : StagingDir} {seen : AList fun _ : Nat => Path}
    (hdata : inodeEntry store inode = some (.file data))
    (hwrite : s.tree.write path (.live path) data = some tree)
    (hseen : seen = s.seenInodes ∨ seen = s.seenInodes.insert inode.number path) :
    Staged store (events ++ [(path, inode)]) ⟨tree, seen⟩ := by
  obtain ⟨habove, hnone⟩ := hstands.above h
  rcases FileTree.write_some hwrite with ⟨object, hobject, -⟩ | ⟨mid, hplaced, rfl⟩
  · rw [hnone hne] at hobject
    cases hobject
  · have hnode := placed_at hplaced habove
    have hrooted := hplaced.rooted h.rooted
    refine h.snoc hstands.fresh ⟨hrooted.root, hrooted.parent⟩ hnode (fun q object hq => ?_) ?_
      (fun object hn => ?_) hseen
    · obtain ⟨place, hplace, rfl⟩ := h.objects q object hq
      have hother : StagedFile.live place ≠ .live path := by
        intro heq
        cases heq
        exact hstands.fresh hplace
      show Function.update mid.content (.live path) data (.live place) = _
      rw [Function.update_of_ne hother, hplaced.content]
    · have hthere : FileTree.node
          ⟨mid.node, Function.update mid.content (StagedFile.live path) data⟩ path
            = some (.file (.live path)) := (hnode path).trans (if_pos rfl)
      rw [hdata, FileTree.shows_file hthere]
      exact congrArg (fun b => some (FileEntry.file b)) (Function.update_self ..)
    · cases hn
      exact ⟨path, by simp, rfl⟩

theorem Staged.regular (h : Staged store events s) (hstands : Stands events path inode)
    (hne : path ≠ []) (hsame : ∀ event ∈ events, event.2.number = inode.number → event.2 = inode)
    (hfile : inodeEntry store inode =
      (concatChunks (fileChunks inode store)).toOption.map FileEntry.file)
    (hreport : FilesystemSink.onRegularFile os store path inode s = .ok s') :
    Staged store (events ++ [(path, inode)]) s' := by
  unfold FilesystemSink.onRegularFile at hreport
  simp only at hreport
  split at hreport
  · next tree hlink =>
      cases hreport
      obtain ⟨first, hfirst, hmade⟩ := Option.bind_eq_some_iff.mp hlink
      obtain ⟨inode', hin, hnumber⟩ := h.seen _ _ hfirst
      have heq : inode' = inode := hsame _ hin hnumber
      exact h.linked hstands (heq ▸ hin) hmade
  · split at hreport
    · cases hreport
    · next data hchunks =>
        split at hreport
        · cases hreport
        · next tree hwrite =>
            cases hreport
            refine h.written hstands hne (by rw [hfile, hchunks]; rfl) hwrite ?_
            split
            · exact Or.inl rfl
            · exact Or.inr rfl

/-- What one report adds. -/
theorem Staged.report (h : Staged store events s) (hstands : Stands events path inode)
    (hsame : ∀ event ∈ events, event.2.number = inode.number → event.2 = inode)
    (hreport : (filesystemSink os store).report s (path, inode) = .ok s') :
    Staged store (events ++ [(path, inode)]) s' := by
  have hne : inode.dirHash = none → path ≠ [] := by
    intro hdir hnil
    have := hstands.root hnil
    rw [hdir] at this
    cases this
  unfold LiveTreeSink.report at hreport
  simp only at hreport
  split at hreport
  · next hash hhandle => exact h.directory hstands (by simp [Inode.dirHash, hhandle]) hreport
  · next data hhandle =>
      exact h.regular hstands (hne (by simp [Inode.dirHash, hhandle])) hsame
        (by simp [inodeEntry, hhandle]) hreport
  · next map hhandle =>
      exact h.regular hstands (hne (by simp [Inode.dirHash, hhandle])) hsame
        (by simp [inodeEntry, hhandle]) hreport
  · next target hhandle => exact h.symlink hstands hhandle hreport
  · next hdir hinline hslices hlink =>
      cases hreport
      have hentry : inodeEntry store inode = none := by
        unfold inodeEntry
        split
        · next hash hhandle => exact absurd hhandle (hdir hash)
        · next data hhandle => exact absurd hhandle (hinline data)
        · next map hhandle => exact absurd hhandle (hslices map)
        · next target hhandle => exact absurd hhandle (hlink target)
        · rfl
      have hnotDir : inode.dirHash = none := by
        unfold Inode.dirHash
        split
        · next hash hhandle => exact absurd hhandle (hdir hash)
        · rfl
      exact h.passed hstands (hne hnotDir) hentry

/-! ### The whole walk -/

theorem Staged.run : ∀ (new : List WalkEvent) {earlier : List WalkEvent} {s t : FilesystemSink},
    Staged store earlier s →
    (∀ before event after, new = before ++ event :: after →
      Stands (earlier ++ before) event.1 event.2) →
    (∀ a ∈ earlier ++ new, ∀ b ∈ earlier ++ new, a.2.number = b.2.number → a.2 = b.2) →
    new.foldlM (filesystemSink os store).report s = .ok t → Staged store (earlier ++ new) t := by
  intro new
  induction new with
  | nil =>
      intro earlier s t h _ _ hrun
      cases hrun
      rwa [List.append_nil]
  | cons event rest ih =>
      intro earlier s t h hstands hsame hrun
      rw [List.foldlM_cons] at hrun
      obtain ⟨mid, hmid, hrest⟩ := except_bind_eq_ok.mp hrun
      have hevent := hstands [] event rest rfl
      rw [List.append_nil] at hevent
      have hnext : Staged store (earlier ++ [event]) mid :=
        h.report hevent (fun a ha => hsame a (List.mem_append_left _ ha) event
          (List.mem_append_right _ List.mem_cons_self)) hmid
      rw [List.append_cons] at hsame ⊢
      refine ih hnext (fun before e after heq => ?_) hsame hrest
      have := hstands (event :: before) e after (by rw [heq]; rfl)
      rwa [List.append_cons] at this

end

section
variable {H : Hash} {z : Omnizip} {os : StagingOs} {state : OpenState} {base : StagingDir}

theorem root_event_isDir {root : Nat} {blob : MetadataBlob} {events : List WalkEvent}
    (h : walkLiveTree H blob recorder root [] = .ok events) {inode : Inode}
    (hin : ([], inode) ∈ events) : inode.dirHash.isSome := by
  have hexact := walkLiveTree_exactWalk h
  obtain ⟨before, after, rfl⟩ := List.append_of_mem hin
  have hfrom := hexact.source before _ after rfl
  have hroot : blob.inodeByNumber root = some inode := by
    generalize hevent : (([], inode) : WalkEvent) = event at hfrom
    cases hfrom with
    | root _ found =>
        cases hevent
        exact found
    | entry =>
        have hnil := (congrArg Prod.fst hevent).symm
        simp at hnil
  by_contra hnot
  unfold walkLiveTree at h
  rw [hroot] at h
  simp only at h
  rw [walkDir_notDir (Option.not_isSome_iff_eq_none.mp hnot)] at h
  exact List.append_ne_nil_of_right_ne_nil _ (List.cons_ne_nil _ _) (Except.ok.inj h).symm

theorem stands_of_exactWalk {root : Nat} {blob : MetadataBlob} {events : List WalkEvent}
    (h : walkLiveTree H blob recorder root [] = .ok events) (hnames : NamesDistinct blob)
    {before after : List WalkEvent} {event : WalkEvent} (hsplit : events = before ++ event :: after) :
    Stands before event.1 event.2 := by
  have hexact := walkLiveTree_exactWalk h
  have hdistinct := hexact.distinct hnames
  refine ⟨fun hin => ?_, fun hnil => ?_, fun init name heq => ?_⟩
  · rw [hsplit, List.map_append, List.map_cons, List.nodup_append] at hdistinct
    exact hdistinct.2.2 _ hin _ List.mem_cons_self rfl
  · have hroot : ([], event.2) ∈ events := by
      rw [hsplit, ← hnil]
      exact List.mem_append_right _ List.mem_cons_self
    exact root_event_isDir h hroot
  · have hfrom := hexact.source before event after hsplit
    cases hfrom with
    | root => exact absurd heq.symm (List.append_ne_nil_of_right_ne_nil _ (List.cons_ne_nil _ _))
    | entry reported isDir _ _ _ _ =>
        obtain ⟨rfl, -⟩ := List.append_inj' heq rfl
        exact ⟨_, reported, by rw [isDir]; rfl⟩

/-- **The staged live tree shows each inode's content where the walk has reported it, and is empty
elsewhere.** -/
theorem stagedLive (hnames : NamesDistinct state.blob)
    (h : writeLiveTree H z os state = .ok base) : ∃ events s,
      walkLiveTree H state.blob recorder state.rootInode [] = .ok events ∧
      Staged (slabSource z state) events s ∧ s.tree = base := by
  obtain ⟨s, hwalk, rfl⟩ := map_eq_ok h
  obtain ⟨events, hevents, hfold⟩ := walkLiveTree_recorded hwalk
  have hrecords : ∀ event ∈ events, state.blob.Records event.2 := by
    intro event hin
    obtain ⟨before, after, heq⟩ := List.append_of_mem hin
    exact ((walkLiveTree_exactWalk hevents).source before event after heq).records
  refine ⟨events, s, hevents, ?_, rfl⟩
  have hrun : Staged (slabSource z state) ([] ++ events) s := by
    refine Staged.run events staged_nil (fun before event after heq => ?_)
      (fun a ha b hb => ?_) hfold
    · exact stands_of_exactWalk hevents hnames heq
    · exact (hrecords a ha).inj (hrecords b hb)
  exact hrun

end

end LimniFS.Rw
