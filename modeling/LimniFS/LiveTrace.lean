/-
What a walk of the live tree reports.

A sink sees the walk as a list of calls, each a path with an inode, and the list is the same for
every sink that lets the walk finish (`walkLiveTree_recorded`).  It is accounted for event by
event: a report is of the root, or of an entry of a directory that was reported before it; and
what follows a directory's own report begins with its entries, in order, each reported under its
name or passed over because it is a directory that was reported before.  Every statement about
walks of cyclic or shared trees is read off that account.
-/
import LimniFS.LiveTree
import LimniFS.ParsedMetadata

namespace LimniFS

open Lib

/-- One report of a walk: where, and on which inode. -/
abbrev WalkEvent := Path × Inode

/-- The hash of a directory's node. -/
def Inode.dirHash (inode : Inode) : Option Digest :=
  match inode.contentHandle with
  | .directory hash => some hash
  | _ => none

/-- A name that is one component of a path and no way out of the directory. -/
structure SafeName (name : Bytes) : Prop where
  nonempty : name ≠ []
  notDot : name ≠ ascii "."
  notDotDot : name ≠ ascii ".."
  noSlash : slash ∉ name
  noNul : 0 ∉ name

theorem validateTreeName_ok {name : Bytes} (h : validateTreeName name = .ok ()) : SafeName name := by
  unfold validateTreeName at h
  split_ifs at h with h₁ h₂ h₃ h₄ h₅ h₆
  exact ⟨h₁, h₂, h₃, h₅, h₆⟩

/-! ### What a sink sees -/

section

variable {σ : Type}

/-- The call that the walk makes on an inode. -/
def LiveTreeSink.report (sink : LiveTreeSink σ) (s : σ) (event : WalkEvent) : Except CoreError σ :=
  match event.2.contentHandle with
  | .directory _ => sink.onDirectoryInode event.1 event.2 s
  | .inlineData _ | .sliceMap _ => sink.onRegularFile event.1 event.2 s
  | .symlink target => sink.onSymlinkInode event.1 event.2 target s
  | _ => sink.onOther event.1 event.2 s

/-- The sink that writes every call down. -/
def recorder : LiveTreeSink (List WalkEvent) where
  onDirectoryInode path inode events := .ok (events ++ [(path, inode)])
  onRegularFile path inode events := .ok (events ++ [(path, inode)])
  onSymlinkInode path inode _ events := .ok (events ++ [(path, inode)])
  onOther path inode events := .ok (events ++ [(path, inode)])

@[simp] theorem recorder_report (events : List WalkEvent) (event : WalkEvent) :
    recorder.report events event = .ok (events ++ [event]) := by
  unfold LiveTreeSink.report
  split <;> rfl

variable {H : Hash} {blob : MetadataBlob} {sink : LiveTreeSink σ}

/-- An entry that was walked has a name that is safe, and an inode. -/
theorem walkEntry_eq_ok {descend : Inode → Path → WalkState σ → Except CoreError (WalkState σ)}
    {hash : Digest} {dirPath : Path} {entry : DirEntry} {s t : WalkState σ} :
    walkEntry blob sink descend hash dirPath entry s = .ok t ↔
      validateTreeName entry.name = .ok () ∧
      ∃ child, blob.inodeByNumber entry.inodeNumber = some child ∧
        ((child.dirHash.isSome ∧ descend child (dirPath ++ [entry.name]) s = .ok t) ∨
          (child.dirHash = none ∧ sink.report s.1 (dirPath ++ [entry.name], child) = .ok t.1 ∧
            t.2 = s.2)) := by
  have hmap : ∀ r : Except CoreError σ, r.map (fun u => (u, s.2)) = .ok t ↔ r = .ok t.1 ∧ t.2 = s.2 := by
    intro r
    constructor
    · intro h
      obtain ⟨u, hu, rfl⟩ := map_eq_ok h
      exact ⟨hu, rfl⟩
    · rintro ⟨rfl, h⟩
      rw [← h]
      rfl
  unfold walkEntry
  split
  · next hname => simp [hname]
  · next hname =>
      rcases hchild : blob.inodeByNumber entry.inodeNumber with _ | child
      · simp
      · simp only [hname, Option.some.injEq, exists_eq_left', true_and]
        unfold Inode.dirHash LiveTreeSink.report
        rcases child.contentHandle <;> simp [hmap]

/-- A directory is passed over, or reported before its entries. -/
theorem walkDir_eq_ok {fuel : Nat} {inode : Inode} {path : Path} {s t : WalkState σ}
    (hdir : inode.dirHash.isSome) :
    walkDir H blob sink (fuel + 1) inode path s = .ok t ↔
      (inode.number ∈ s.2 ∧ t = s) ∨
      (inode.number ∉ s.2 ∧ ∃ hash node u, inode.dirHash = some hash ∧
        sink.report s.1 (path, inode) = .ok u ∧ blob.dirNodeByHash H hash = some node ∧
        walkEntries blob sink (walkDir H blob sink fuel) hash path node.entries
          (u, s.2 ++ [inode.number]) = .ok t) := by
  obtain ⟨hash, hhash⟩ := Option.isSome_iff_exists.mp hdir
  have hhandle : inode.contentHandle = .directory hash := by
    unfold Inode.dirHash at hhash
    split at hhash
    · next h => rw [h, Option.some.inj hhash]
    · cases hhash
  unfold walkDir LiveTreeSink.report
  simp only [hhandle, hhash, Option.some.injEq, exists_and_left, exists_eq_left']
  by_cases hmet : inode.number ∈ s.2
  · simp [hmet, eq_comm]
  · simp only [hmet, false_and, false_or, not_false_eq_true, true_and]
    rcases hcall : sink.onDirectoryInode path inode s.1 with e | u
    · simp
    · rcases hnode : blob.dirNodeByHash H hash with _ | node
      · simp
      · simp

theorem walkEntries_cons_ok {descend : Inode → Path → WalkState σ → Except CoreError (WalkState σ)}
    {hash : Digest} {dirPath : Path} {entry : DirEntry} {rest : List DirEntry} {s t : WalkState σ} :
    walkEntries blob sink descend hash dirPath (entry :: rest) s = .ok t ↔
      ∃ u, walkEntry blob sink descend hash dirPath entry s = .ok u ∧
        walkEntries blob sink descend hash dirPath rest u = .ok t := by
  rw [walkEntries]
  split
  · next hentry => simp [hentry]
  · next hentry => simp [hentry]

/-- A step of one walk that another one follows, writing down what it reports. -/
def Recorded (sink : LiveTreeSink σ) (walk : WalkState σ → Except CoreError (WalkState σ))
    (record : WalkState (List WalkEvent) → Except CoreError (WalkState (List WalkEvent))) : Prop :=
  ∀ s t visited visited', walk (s, visited) = .ok (t, visited') → ∀ earlier,
    ∃ new, record (earlier, visited) = .ok (earlier ++ new, visited') ∧
      new.foldlM sink.report s = .ok t

theorem Recorded.walkEntries {descend : Inode → Path → WalkState σ → Except CoreError (WalkState σ)}
    {record : Inode → Path → WalkState (List WalkEvent) →
      Except CoreError (WalkState (List WalkEvent))}
    (h : ∀ inode path, Recorded sink (descend inode path) (record inode path)) (hash : Digest)
    (dirPath : Path) : ∀ entries : List DirEntry,
      Recorded sink (walkEntries blob sink descend hash dirPath entries)
        (walkEntries blob recorder record hash dirPath entries) := by
  intro entries
  induction entries with
  | nil =>
      intro s t visited visited' hwalk earlier
      cases hwalk
      exact ⟨[], by rw [List.append_nil]; rfl, rfl⟩
  | cons entry rest ih =>
      intro s t visited visited' hwalk earlier
      obtain ⟨⟨u, met⟩, hentry, hrest⟩ := walkEntries_cons_ok.mp hwalk
      obtain ⟨hname, child, hchild, hcase⟩ := walkEntry_eq_ok.mp hentry
      obtain ⟨first, hfirst, hu⟩ : ∃ first,
          walkEntry blob recorder record hash dirPath entry (earlier, visited)
            = .ok (earlier ++ first, met) ∧ first.foldlM sink.report s = .ok u := by
        rcases hcase with ⟨hdir, hdescend⟩ | ⟨hfile, hreport, rfl⟩
        · obtain ⟨first, hrecord, hu⟩ := h child _ s u visited met hdescend earlier
          exact ⟨first, walkEntry_eq_ok.mpr ⟨hname, child, hchild, .inl ⟨hdir, hrecord⟩⟩, hu⟩
        · refine ⟨[(dirPath ++ [entry.name], child)], walkEntry_eq_ok.mpr
            ⟨hname, child, hchild, .inr ⟨hfile, recorder_report _ _, rfl⟩⟩, ?_⟩
          rw [List.foldlM_cons, hreport]
          rfl
      obtain ⟨more, hmore, ht⟩ := ih u t met visited' hrest (earlier ++ first)
      refine ⟨first ++ more, ?_, ?_⟩
      · rw [← List.append_assoc]
        exact walkEntries_cons_ok.mpr ⟨_, hfirst, hmore⟩
      · rw [List.foldlM_append, hu]
        exact ht

theorem walkDir_notDir {fuel : Nat} {inode : Inode} {path : Path} {s : WalkState σ}
    (h : inode.dirHash = none) : walkDir H blob sink fuel inode path s = .ok s := by
  cases fuel with
  | zero => rfl
  | succ fuel =>
      unfold walkDir
      split
      · next hhandle =>
          unfold Inode.dirHash at h
          rw [hhandle] at h
          cases h
      · rfl

theorem Recorded.walkDir (H : Hash) (blob : MetadataBlob) (sink : LiveTreeSink σ) :
    ∀ (fuel : Nat) (inode : Inode) (path : Path),
      Recorded sink (walkDir H blob sink fuel inode path) (walkDir H blob recorder fuel inode path) := by
  intro fuel
  induction fuel with
  | zero =>
      intro inode path s t visited visited' hwalk earlier
      cases hwalk
      exact ⟨[], by rw [List.append_nil]; rfl, rfl⟩
  | succ fuel ih =>
      intro inode path s t visited visited' hwalk earlier
      rcases hdir : inode.dirHash with _ | hash
      · rw [walkDir_notDir hdir] at hwalk
        cases hwalk
        exact ⟨[], by rw [walkDir_notDir hdir, List.append_nil], rfl⟩
      · have hsome : inode.dirHash.isSome := by rw [hdir]; rfl
        rcases (walkDir_eq_ok hsome).mp hwalk with ⟨hmet, heq⟩ | ⟨hnew, hash, node, u, hhash, hu, hnode, hentries⟩
        · cases heq
          exact ⟨[], (walkDir_eq_ok hsome).mpr (.inl ⟨hmet, by rw [List.append_nil]⟩), rfl⟩
        · obtain ⟨below, hbelow, ht⟩ := Recorded.walkEntries ih hash path node.entries u t _ visited'
            hentries (earlier ++ [(path, inode)])
          refine ⟨(path, inode) :: below, (walkDir_eq_ok hsome).mpr (.inr ⟨hnew, hash, node, _, hhash,
            recorder_report _ _, hnode, ?_⟩), ?_⟩
          · rw [hbelow, List.append_assoc]
            rfl
          · rw [List.foldlM_cons, hu]
            exact ht

/-- **Every sink that lets the walk finish sees the same reports.** -/
theorem walkLiveTree_recorded {root : Nat} {s t : σ} (h : walkLiveTree H blob sink root s = .ok t) :
    ∃ events, walkLiveTree H blob recorder root [] = .ok events ∧
      events.foldlM sink.report s = .ok t := by
  unfold walkLiveTree at h ⊢
  split at h
  · cases h
  · next inode _ =>
      obtain ⟨⟨t, visited⟩, ht, rfl⟩ := map_eq_ok h
      obtain ⟨events, hrecord, hfold⟩ := Recorded.walkDir H blob sink _ inode [] s t [] visited ht []
      exact ⟨events, by rw [hrecord]; rfl, hfold⟩

end

/-! ### The account of a walk -/

/-- The numbers of the directories reported. -/
def dirNumbers (events : List WalkEvent) : List Nat :=
  (events.filter fun event => event.2.dirHash.isSome).map fun event => event.2.number

@[simp] theorem dirNumbers_append (a b : List WalkEvent) :
    dirNumbers (a ++ b) = dirNumbers a ++ dirNumbers b := by
  simp [dirNumbers]

theorem dirNumbers_dir {path : Path} {inode : Inode} (h : inode.dirHash.isSome) :
    dirNumbers [(path, inode)] = [inode.number] := by
  simp [dirNumbers, h]

theorem mem_dirNumbers {events : List WalkEvent} {n : Nat} :
    n ∈ dirNumbers events ↔ ∃ event ∈ events, event.2.dirHash.isSome ∧ event.2.number = n := by
  simp only [dirNumbers, List.mem_map, List.mem_filter, and_assoc]

/-- No directory node repeats a name. -/
def NamesDistinct (blob : MetadataBlob) : Prop :=
  ∀ node ∈ blob.dirNodes, (node.entries.map DirEntry.name).Nodup

theorem MetadataBlob.WellFormed.namesDistinct {blob : MetadataBlob} (h : blob.WellFormed) :
    NamesDistinct blob := by
  intro node hnode
  refine List.pairwise_map.mpr ((h.names node hnode).sorted.imp fun hlt heq => ?_)
  exact List.lt_irrefl _ (heq ▸ hlt)

/-- The record is the one its number stands for. -/
def MetadataBlob.Records (blob : MetadataBlob) (inode : Inode) : Prop :=
  blob.inodeByNumber inode.number = some inode

theorem MetadataBlob.Records.of_number {blob : MetadataBlob} {number : Nat} {inode : Inode}
    (h : blob.inodeByNumber number = some inode) : blob.Records inode := by
  unfold MetadataBlob.Records
  rw [(inodeByNumber_mem h).2, h]

theorem MetadataBlob.Records.inj {blob : MetadataBlob} {a b : Inode} (ha : blob.Records a)
    (hb : blob.Records b) (h : a.number = b.number) : a = b := by
  unfold MetadataBlob.Records at ha hb
  rw [h, hb] at ha
  exact (Option.some.inj ha).symm

section

variable (H : Hash) (blob : MetadataBlob) (root : Nat)

/-- The inodes reached from the root through the entries of directories. -/
inductive InLiveTree : Inode → Prop
  | root {inode : Inode} (found : blob.inodeByNumber root = some inode) : InLiveTree inode
  | entry {dir child : Inode} {hash : Digest} {node : DirectoryNode} {entry : DirEntry}
      (parent : InLiveTree dir) (isDir : dir.dirHash = some hash)
      (hasNode : blob.dirNodeByHash H hash = some node) (listed : entry ∈ node.entries)
      (found : blob.inodeByNumber entry.inodeNumber = some child) : InLiveTree child

/-- The report is of the root, or of an entry of a directory reported before. -/
inductive FromEntry (earlier : List WalkEvent) : WalkEvent → Prop
  | root {inode : Inode} (first : earlier = []) (found : blob.inodeByNumber root = some inode) :
      FromEntry earlier ([], inode)
  | entry {dirPath : Path} {dir child : Inode} {hash : Digest} {node : DirectoryNode}
      {entry : DirEntry} (reported : (dirPath, dir) ∈ earlier) (isDir : dir.dirHash = some hash)
      (hasNode : blob.dirNodeByHash H hash = some node) (listed : entry ∈ node.entries)
      (safe : SafeName entry.name) (found : blob.inodeByNumber entry.inodeNumber = some child) :
      FromEntry earlier (dirPath ++ [entry.name], child)

/-- What the walk reports when the turn is at an entry. -/
inductive EntryTurn (earlier : List WalkEvent) (dirPath : Path) (entry : DirEntry) :
    List WalkEvent → Prop
  | reported {child : Inode} {below : List WalkEvent}
      (found : blob.inodeByNumber entry.inodeNumber = some child)
      (isNew : child.dirHash.isSome → child.number ∉ dirNumbers earlier)
      (inside : ∀ event ∈ below, dirPath ++ [entry.name] <+: event.1) :
      EntryTurn earlier dirPath entry ((dirPath ++ [entry.name], child) :: below)
  | passedOver {child : Inode} {path : Path}
      (found : blob.inodeByNumber entry.inodeNumber = some child)
      (isDir : child.dirHash.isSome) (met : (path, child) ∈ earlier) :
      EntryTurn earlier dirPath entry []

/-- The entries of a directory take their turns in order, each once. -/
inductive Turns (dirPath : Path) : List WalkEvent → List DirEntry → List WalkEvent → Prop
  | nil {earlier : List WalkEvent} : Turns dirPath earlier [] []
  | cons {earlier first more : List WalkEvent} {entry : DirEntry} {rest : List DirEntry}
      (turn : EntryTurn blob earlier dirPath entry first)
      (later : Turns dirPath (earlier ++ first) rest more) :
      Turns dirPath earlier (entry :: rest) (first ++ more)

/-- A directory is new when it is reported, and its entries have their turns next. -/
def Opened (earlier : List WalkEvent) (event : WalkEvent) (rest : List WalkEvent) : Prop :=
  ∀ hash, event.2.dirHash = some hash → event.2.number ∉ dirNumbers earlier ∧
    ∃ node below after, blob.dirNodeByHash H hash = some node ∧ rest = below ++ after ∧
      Turns blob event.1 (earlier ++ [event]) node.entries below

/-- Why each event of a walk was reported. -/
def Accounted : List WalkEvent → List WalkEvent → Prop
  | _, [] => True
  | earlier, event :: rest => FromEntry H blob root earlier event ∧
      Opened H blob earlier event rest ∧ Accounted (earlier ++ [event]) rest

end

section

variable {H : Hash} {blob : MetadataBlob} {root : Nat}

theorem Accounted.append {earlier a b : List WalkEvent} (ha : Accounted H blob root earlier a)
    (hb : Accounted H blob root (earlier ++ a) b) : Accounted H blob root earlier (a ++ b) := by
  induction a generalizing earlier with
  | nil => simpa using hb
  | cons event rest ih =>
      obtain ⟨hfrom, hopened, hrest⟩ := ha
      refine ⟨hfrom, fun hash hhash => ?_, ih hrest (by simpa using hb)⟩
      obtain ⟨hnew, node, below, after, hnode, rfl, hturns⟩ := hopened hash hhash
      exact ⟨hnew, node, below, after ++ b, hnode, List.append_assoc .., hturns⟩

theorem Accounted.split {earlier before after : List WalkEvent} {event : WalkEvent}
    (h : Accounted H blob root earlier (before ++ event :: after)) :
    FromEntry H blob root (earlier ++ before) event ∧
      Opened H blob (earlier ++ before) event after := by
  induction before generalizing earlier with
  | nil => simpa using ⟨h.1, h.2.1⟩
  | cons first rest ih => simpa using ih h.2.2

theorem FromEntry.records {earlier : List WalkEvent} {event : WalkEvent}
    (h : FromEntry H blob root earlier event) : blob.Records event.2 := by
  cases h with
  | root _ found => exact .of_number found
  | entry _ _ _ _ _ found => exact .of_number found

theorem Accounted.records {earlier new : List WalkEvent} (h : Accounted H blob root earlier new) :
    ∀ event ∈ new, blob.Records event.2 := by
  induction new generalizing earlier with
  | nil => simp
  | cons event rest ih => exact List.forall_mem_cons.mpr ⟨h.1.records, ih h.2.2⟩

theorem Turns.inside {dirPath : Path} {earlier more : List WalkEvent} {entries : List DirEntry}
    (h : Turns blob dirPath earlier entries more) :
    ∀ event ∈ more, ∃ entry ∈ entries, dirPath ++ [entry.name] <+: event.1 := by
  induction h with
  | nil => simp
  | cons turn later ih =>
      intro event hevent
      rcases List.mem_append.mp hevent with hfirst | hmore
      · refine ⟨_, List.mem_cons_self, ?_⟩
        cases turn with
        | reported _ _ inside =>
            rcases List.mem_cons.mp hfirst with rfl | hbelow
            · exact List.prefix_refl _
            · exact inside event hbelow
        | passedOver => cases hfirst
      · obtain ⟨entry, hentry, hprefix⟩ := ih event hmore
        exact ⟨entry, List.mem_cons_of_mem _ hentry, hprefix⟩

/-- The inode of an entry that had its turn was reported. -/
theorem Turns.reported {dirPath : Path} {earlier more : List WalkEvent} {entries : List DirEntry}
    (h : Turns blob dirPath earlier entries more) :
    ∀ entry ∈ entries, ∀ child, blob.inodeByNumber entry.inodeNumber = some child →
      ∃ path, (path, child) ∈ earlier ++ more := by
  induction h with
  | nil => simp
  | @cons earlier first more entry rest turn later ih =>
      intro e he child hchild
      rcases List.mem_cons.mp he with rfl | hrest
      · cases turn with
        | reported found =>
            obtain rfl := Option.some.inj (found.symm.trans hchild)
            exact ⟨_, List.mem_append_right _ (List.mem_append_left _ List.mem_cons_self)⟩
        | passedOver found _ met =>
            obtain rfl := Option.some.inj (found.symm.trans hchild)
            exact ⟨_, List.mem_append_left _ met⟩
      · obtain ⟨path, hpath⟩ := ih e hrest child hchild
        exact ⟨path, by rwa [List.append_assoc] at hpath⟩

end

end LimniFS
