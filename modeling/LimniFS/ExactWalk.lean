/-
A walk of the live tree is exact.

The walk of a directory adds to the reports either nothing, because the directory was met before,
or the directory itself and the turns of its entries (`walkDir_account`, by induction on the fuel
with one step for each entry).  From the account of a finished walk follows what it reports
(`walkLiveTree_exactWalk`): every directory of the live tree once and after the directory it lies
in, every entry in its turn, under names that are safe.  That no two reports have the same place
needs the names of each directory node to be distinct.  The parser sees to that; the walk does not.
-/
import LimniFS.LiveTrace

namespace LimniFS

open Lib

section

variable {H : Hash} {blob : MetadataBlob} {root : Nat}

/-! ### The walk of a directory -/

/-- No report is at or above the place of an earlier one. -/
def Ordered (events : List WalkEvent) : Prop :=
  events.Pairwise fun earlier later => ¬ later.1 <+: earlier.1

/-- What a walk below a directory adds to the reports. -/
structure DirWalk (H : Hash) (blob : MetadataBlob) (root : Nat) (inode : Inode) (path : Path)
    (earlier new : List WalkEvent) : Prop where
  accounted : Accounted H blob root earlier new
  opened : (new = [] ∧ inode.number ∈ dirNumbers earlier) ∨
    inode.number ∉ dirNumbers earlier ∧ ∃ below, new = (path, inode) :: below
  inside : ∀ event ∈ new, path <+: event.1
  ordered : NamesDistinct blob → Ordered new

/-- The walk of a directory that is given a report's inode and place, and has fuel enough. -/
def Walks (H : Hash) (blob : MetadataBlob) (root : Nat) (bound : Nat)
    (descend : Inode → Path → WalkState (List WalkEvent) →
      Except CoreError (WalkState (List WalkEvent))) : Prop :=
  ∀ inode path earlier out visited, inode.dirHash.isSome → FromEntry H blob root earlier (path, inode) →
    (∀ event ∈ earlier, blob.Records event.2) → unvisited blob (dirNumbers earlier) < bound →
    descend inode path (earlier, dirNumbers earlier) = .ok (out, visited) →
    ∃ new, out = earlier ++ new ∧ visited = dirNumbers out ∧
      DirWalk H blob root inode path earlier new

theorem not_prefix_of_names {dirPath p q : Path} {a b : Bytes} (hab : a ≠ b)
    (ha : dirPath ++ [a] <+: p) (hb : dirPath ++ [b] <+: q) : ¬ q <+: p := by
  intro h
  have heq := List.prefix_or_prefix_of_prefix ha (hb.trans h)
  have hlen : (dirPath ++ [a]).length = (dirPath ++ [b]).length := by simp
  have hsame : dirPath ++ [a] = dirPath ++ [b] := by
    rcases heq with hpre | hpre
    · exact hpre.eq_of_length hlen
    · exact (hpre.eq_of_length hlen.symm).symm
  exact hab (List.head_eq_of_cons_eq (List.append_cancel_left hsame))

theorem walkEntries_account {bound : Nat} {descend : Inode → Path → WalkState (List WalkEvent) →
      Except CoreError (WalkState (List WalkEvent))} (hdescend : Walks H blob root bound descend)
    {dirPath : Path} {dir : Inode} {hash : Digest} {node : DirectoryNode}
    (hdir : dir.dirHash = some hash) (hnode : blob.dirNodeByHash H hash = some node) :
    ∀ (entries : List DirEntry) (earlier out : List WalkEvent) (visited : List Nat),
      (∀ entry ∈ entries, entry ∈ node.entries) → (dirPath, dir) ∈ earlier →
      (∀ event ∈ earlier, blob.Records event.2) → unvisited blob (dirNumbers earlier) < bound →
      walkEntries blob recorder descend hash dirPath entries (earlier, dirNumbers earlier)
        = .ok (out, visited) →
      ∃ new, out = earlier ++ new ∧ visited = dirNumbers out ∧ Accounted H blob root earlier new ∧
        Turns blob dirPath earlier entries new ∧
        (NamesDistinct blob → (entries.map DirEntry.name).Nodup → Ordered new) := by
  intro entries
  induction entries with
  | nil =>
      intro earlier out visited _ _ _ _ h
      cases h
      exact ⟨[], (List.append_nil _).symm, rfl, trivial, .nil, fun _ _ => .nil⟩
  | cons entry rest ih =>
      intro earlier out visited hlisted hreported hrecords hbound h
      obtain ⟨⟨mid, met⟩, hentry, hrest⟩ := walkEntries_cons_ok.mp h
      obtain ⟨hname, child, hchild, hcase⟩ := walkEntry_eq_ok.mp hentry
      have hfrom : FromEntry H blob root earlier (dirPath ++ [entry.name], child) :=
        .entry hreported hdir hnode (hlisted entry List.mem_cons_self) (validateTreeName_ok hname) hchild
      -- the turn of this entry
      obtain ⟨first, rfl, rfl, hfirst, hturn, hinside, hordered⟩ : ∃ first, mid = earlier ++ first ∧
          met = dirNumbers mid ∧ Accounted H blob root earlier first ∧
          EntryTurn blob earlier dirPath entry first ∧
          (∀ event ∈ first, dirPath ++ [entry.name] <+: event.1) ∧
          (NamesDistinct blob → Ordered first) := by
        rcases hcase with ⟨hsome, hwalk⟩ | ⟨hfile, hreport, hmet⟩
        · obtain ⟨first, hmid, hmet, hwalked⟩ :=
            hdescend child _ earlier mid met hsome hfrom hrecords hbound hwalk
          refine ⟨first, hmid, hmet, hwalked.accounted, ?_, hwalked.inside, hwalked.ordered⟩
          rcases hwalked.opened with ⟨rfl, hold⟩ | ⟨hnew, below, rfl⟩
          · obtain ⟨⟨path, other⟩, hother, -, hnumber⟩ := mem_dirNumbers.mp hold
            obtain rfl := (hrecords _ hother).inj (.of_number hchild) hnumber
            exact .passedOver hchild hsome hother
          · exact .reported hchild (fun _ => hnew) fun event he =>
              hwalked.inside event (List.mem_cons_of_mem _ he)
        · rw [recorder_report] at hreport
          obtain rfl := Except.ok.inj hreport
          have hnone : dirNumbers [(dirPath ++ [entry.name], child)] = [] := by
            simp [dirNumbers, hfile]
          refine ⟨[(dirPath ++ [entry.name], child)], rfl, ?_, ⟨hfrom, ?_, trivial⟩, ?_, ?_, ?_⟩
          · rw [dirNumbers_append, hnone, List.append_nil]
            exact hmet
          · intro hash' hhash'
            rw [hfile] at hhash'
            cases hhash'
          · refine .reported hchild ?_ (by simp)
            simp [hfile]
          · simp
          · intro _
            exact List.pairwise_singleton ..
      have hfewer : unvisited blob (dirNumbers (earlier ++ first)) < bound := by
        rw [dirNumbers_append]
        exact Nat.lt_of_le_of_lt (unvisited_append_le _ _) hbound
      obtain ⟨more, rfl, rfl, hmore, hturns, horderedMore⟩ := ih (earlier ++ first) out visited
        (fun e he => hlisted e (List.mem_cons_of_mem _ he)) (List.mem_append_left _ hreported)
        (fun event he => (List.mem_append.mp he).elim (hrecords event) (hfirst.records event))
        hfewer hrest
      refine ⟨first ++ more, List.append_assoc .., rfl, hfirst.append hmore, .cons hturn hturns, ?_⟩
      intro hdistinct hnodup
      rw [List.map_cons, List.nodup_cons] at hnodup
      refine List.pairwise_append.mpr ⟨hordered hdistinct, horderedMore hdistinct hnodup.2, ?_⟩
      intro a ha b hb
      obtain ⟨other, hother, hprefix⟩ := hturns.inside b hb
      refine not_prefix_of_names (fun heq => hnodup.1 ?_) (hinside a ha) hprefix
      exact heq ▸ List.mem_map_of_mem hother

theorem walkDir_account : ∀ fuel : Nat, Walks H blob root fuel (walkDir H blob recorder fuel) := by
  intro fuel
  induction fuel with
  | zero => intro inode path earlier out visited _ _ _ hbound; exact absurd hbound (Nat.not_lt_zero _)
  | succ fuel ih =>
      intro inode path earlier out visited hsome hfrom hrecords hbound h
      rcases (walkDir_eq_ok hsome).mp h with ⟨hmet, heq⟩ | ⟨hnew, hash, node, u, hhash, hu, hnode, hentries⟩
      · cases heq
        exact ⟨[], (List.append_nil _).symm, rfl, trivial, .inl ⟨rfl, hmet⟩, by simp, fun _ => .nil⟩
      · rw [recorder_report] at hu
        obtain rfl := Except.ok.inj hu
        have hnumbers : dirNumbers earlier ++ [inode.number] = dirNumbers (earlier ++ [(path, inode)]) := by
          rw [dirNumbers_append, dirNumbers_dir hsome]
        simp only [hnumbers] at hentries
        have hless : unvisited blob (dirNumbers (earlier ++ [(path, inode)])) < fuel := by
          rw [← hnumbers]
          have hlt : unvisited blob (dirNumbers earlier ++ [inode.number])
              < unvisited blob (dirNumbers earlier) :=
            unvisited_append_lt (inodeByNumber_mem hfrom.records).1 hnew
          omega
        obtain ⟨below, rfl, rfl, hbelow, hturns, hordered⟩ := walkEntries_account ih hhash hnode
          node.entries _ out visited (fun _ he => he) (List.mem_append_right _ List.mem_cons_self)
          (fun event he => (List.mem_append.mp he).elim (hrecords event)
            fun hin => List.mem_singleton.mp hin ▸ hfrom.records) hless hentries
        have hdeeper : ∀ event ∈ below, ∃ name, path ++ [name] <+: event.1 := by
          intro event he
          obtain ⟨entry, -, hprefix⟩ := hturns.inside event he
          exact ⟨entry.name, hprefix⟩
        refine ⟨(path, inode) :: below, by rw [List.append_assoc]; rfl, rfl, ⟨hfrom, ?_, hbelow⟩,
          .inr ⟨hnew, below, rfl⟩, ?_, ?_⟩
        · intro hash' hhash'
          obtain rfl := Option.some.inj (hhash.symm.trans hhash')
          exact ⟨hnew, node, below, [], hnode, (List.append_nil _).symm, hturns⟩
        · intro event he
          rcases List.mem_cons.mp he with rfl | hin
          · exact List.prefix_refl _
          · obtain ⟨name, hname⟩ := hdeeper event hin
            exact (List.prefix_append _ _).trans hname
        · intro hdistinct
          refine List.pairwise_cons.mpr ⟨fun event he hprefix => ?_, hordered hdistinct ?_⟩
          · obtain ⟨name, hname⟩ := hdeeper event he
            have := (hname.trans hprefix).length_le
            simp at this
          · exact hdistinct node (List.mem_of_find?_eq_some hnode)
/-! ### A finished walk -/

/-- **What the reports of a finished walk amount to.** -/
structure ExactWalk (H : Hash) (blob : MetadataBlob) (root : Nat) (events : List WalkEvent) : Prop where
  /-- A directory of the live tree is reported once. -/
  once : ∀ dir, InLiveTree H blob root dir → dir.dirHash.isSome → ∃ path before after,
    events = before ++ (path, dir) :: after ∧
      ∀ event ∈ before ++ after, event.2.number ≠ dir.number
  /-- Nothing else is. -/
  reached : ∀ event ∈ events, InLiveTree H blob root event.2
  /-- A report comes after that of the directory it lies in. -/
  source : ∀ before event after, events = before ++ event :: after →
    FromEntry H blob root before event
  /-- The entries of a directory have their turns after it. -/
  entries : ∀ before dirPath dir hash after, events = before ++ (dirPath, dir) :: after →
    dir.dirHash = some hash → ∃ node below rest, blob.dirNodeByHash H hash = some node ∧
      after = below ++ rest ∧ Turns blob dirPath (before ++ [(dirPath, dir)]) node.entries below
  distinct : NamesDistinct blob → (events.map Prod.fst).Nodup
  /-- No report is at or above the place of an earlier one. -/
  ordered : NamesDistinct blob → Ordered events
  safe : ∀ event ∈ events, ∀ name ∈ event.1, SafeName name

theorem Accounted.reached {earlier new : List WalkEvent} (h : Accounted H blob root earlier new)
    (hearlier : ∀ event ∈ earlier, InLiveTree H blob root event.2) :
    ∀ event ∈ new, InLiveTree H blob root event.2 := by
  induction new generalizing earlier with
  | nil => simp
  | cons event rest ih =>
      have hevent : InLiveTree H blob root event.2 := by
        cases h.1 with
        | root _ found => exact .root found
        | entry reported isDir hasNode listed _ found =>
            exact .entry (hearlier _ reported) isDir hasNode listed found
      exact List.forall_mem_cons.mpr ⟨hevent, ih h.2.2 (forall_mem_snoc hearlier hevent)⟩

theorem Accounted.safe {earlier new : List WalkEvent} (h : Accounted H blob root earlier new)
    (hearlier : ∀ event ∈ earlier, ∀ name ∈ event.1, SafeName name) :
    ∀ event ∈ new, ∀ name ∈ event.1, SafeName name := by
  induction new generalizing earlier with
  | nil => simp
  | cons event rest ih =>
      have hevent : ∀ name ∈ event.1, SafeName name := by
        cases h.1 with
        | root => simp
        | entry reported _ _ _ safe _ => exact forall_mem_snoc (hearlier _ reported) safe
      exact List.forall_mem_cons.mpr ⟨hevent, ih h.2.2 (forall_mem_snoc hearlier hevent)⟩

theorem Accounted.nodup {earlier new : List WalkEvent} (h : Accounted H blob root earlier new)
    (hearlier : (dirNumbers earlier).Nodup) : (dirNumbers (earlier ++ new)).Nodup := by
  induction new generalizing earlier with
  | nil => simpa using hearlier
  | cons event rest ih =>
      rw [List.append_cons]
      refine ih h.2.2 ?_
      rcases hdir : event.2.dirHash with _ | hash
      · simpa [dirNumbers, hdir] using hearlier
      · rw [dirNumbers_append, dirNumbers_dir (by rw [hdir]; rfl)]
        exact List.nodup_append.mpr ⟨hearlier, List.nodup_singleton _, fun a ha b hb heq =>
          (h.2.1 hash hdir).1 (List.mem_singleton.mp hb ▸ heq ▸ ha)⟩

theorem InLiveTree.eq_root_or {inode top : Inode} (h : InLiveTree H blob root inode)
    (htop : blob.inodeByNumber root = some top) : inode = top ∨ top.dirHash.isSome := by
  induction h with
  | root found => exact .inl (Option.some.inj (found.symm.trans htop))
  | entry _ isDir _ _ _ ih =>
      refine .inr (ih.elim (fun heq => ?_) id)
      rw [← heq, isDir]
      rfl

/-- What the tree holds is reported, if the root is. -/
theorem Accounted.complete {events : List WalkEvent} (h : Accounted H blob root [] events)
    {top : Inode} (htop : blob.inodeByNumber root = some top) (hfirst : ([], top) ∈ events)
    {inode : Inode} (hin : InLiveTree H blob root inode) : ∃ path, (path, inode) ∈ events := by
  induction hin with
  | root found =>
      obtain rfl := Option.some.inj (htop.symm.trans found)
      exact ⟨[], hfirst⟩
  | entry _ isDir hasNode listed found ih =>
      obtain ⟨path, hpath⟩ := ih
      obtain ⟨before, after, rfl⟩ := List.append_of_mem hpath
      obtain ⟨-, node, below, rest, hnode, rfl, hturns⟩ := h.split.2 _ isDir
      obtain rfl := Option.some.inj (hasNode.symm.trans hnode)
      obtain ⟨place, hplace⟩ := hturns.reported _ listed _ found
      refine ⟨place, ?_⟩
      rw [List.nil_append, List.append_assoc, List.singleton_append] at hplace
      simp only [List.mem_append, List.mem_cons] at hplace ⊢
      tauto

/-- The one report of a directory. -/
theorem Accounted.once {events : List WalkEvent} (h : Accounted H blob root [] events) {path : Path}
    {dir : Inode} (hdir : dir.dirHash.isSome) (hmem : (path, dir) ∈ events) :
    ∃ before after, events = before ++ (path, dir) :: after ∧
      ∀ event ∈ before ++ after, event.2.number ≠ dir.number := by
  obtain ⟨before, after, rfl⟩ := List.append_of_mem hmem
  refine ⟨before, after, rfl, fun event he heq => ?_⟩
  have hrecords := h.records
  have hnodup := h.nodup List.nodup_nil
  rw [List.nil_append, dirNumbers_append, ← List.singleton_append, dirNumbers_append,
    dirNumbers_dir hdir] at hnodup
  have hsame : event.2 = dir := by
    refine (hrecords event ?_).inj (hrecords _ (List.mem_append_right _ List.mem_cons_self)) heq
    simp only [List.mem_append, List.mem_cons] at he ⊢
    tauto
  have hnumber : dir.number ∈ dirNumbers before ∨ dir.number ∈ dirNumbers after := by
    rcases List.mem_append.mp he with hin | hin
    · exact .inl (mem_dirNumbers.mpr ⟨event, hin, hsame ▸ hdir, heq⟩)
    · exact .inr (mem_dirNumbers.mpr ⟨event, hin, hsame ▸ hdir, heq⟩)
  have hmoved : (dir.number :: (dirNumbers before ++ dirNumbers after)).Nodup :=
    List.nodup_middle.mp hnodup
  exact (List.nodup_cons.mp hmoved).1 (List.mem_append.mpr hnumber)

theorem Ordered.nodup {events : List WalkEvent} (h : Ordered events) :
    (events.map Prod.fst).Nodup :=
  List.pairwise_map.mpr (h.imp fun {a b} hnot (heq : a.1 = b.1) =>
    hnot (heq ▸ List.prefix_refl _))

/-- **Whatever is walked to the end is walked exactly.** -/
theorem walkLiveTree_exactWalk {events : List WalkEvent}
    (h : walkLiveTree H blob recorder root [] = .ok events) : ExactWalk H blob root events := by
  unfold walkLiveTree at h
  split at h
  · cases h
  · next top htop =>
      obtain ⟨⟨out, visited⟩, hwalk, rfl⟩ := map_eq_ok h
      have haccount : Accounted H blob root [] out ∧ (NamesDistinct blob → Ordered out) ∧
          (top.dirHash.isSome → ([], top) ∈ out) := by
        rcases hdir : top.dirHash with _ | hash
        · rw [walkDir_notDir hdir] at hwalk
          cases hwalk
          exact ⟨trivial, fun _ => .nil, by simp⟩
        · have hcount : unvisited blob [] ≤ blob.inodes.length := List.countP_le_length
          have haccounts : Walks H blob root (blob.inodes.length + 1)
            (walkDir H blob recorder (blob.inodes.length + 1)) := walkDir_account _
          obtain ⟨new, rfl, -, hdirWalk⟩ := haccounts top [] [] out visited
            (by rw [hdir]; rfl) (.root rfl htop) (by simp) (Nat.lt_succ_of_le hcount) hwalk
          refine ⟨hdirWalk.accounted, hdirWalk.ordered, fun _ => ?_⟩
          rcases hdirWalk.opened with ⟨-, hmet⟩ | ⟨-, below, rfl⟩
          · cases hmet
          · exact List.mem_cons_self
      obtain ⟨hacc, hordered, htopIn⟩ := haccount
      have hcomplete : ∀ dir, InLiveTree H blob root dir → dir.dirHash.isSome →
          ∃ path, (path, dir) ∈ out := by
        intro dir hin hsome
        refine hacc.complete htop (htopIn ?_) hin
        rcases hin.eq_root_or htop with rfl | htopDir
        · exact hsome
        · exact htopDir
      refine ⟨?_, hacc.reached (by simp), ?_, ?_, fun hd => (hordered hd).nodup, hordered,
        hacc.safe (by simp)⟩
      · intro dir hin hsome
        obtain ⟨path, hpath⟩ := hcomplete dir hin hsome
        exact ⟨path, hacc.once hsome hpath⟩
      · rintro before event after rfl
        exact hacc.split.1
      · rintro before dirPath dir hash after rfl hhash
        exact ((hacc.split).2 hash hhash).2

end

/-! ### A blob that repeats a name -/

namespace RepeatedName

def hash : Hash := fun _ => ⟨List.replicate 32 0, zeros_length⟩

def rootDir : Inode := ⟨1, sIfdir, 0, 0, 0, 0, 1, none, [], .directory (hash [])⟩

def file : Inode := ⟨2, sIfreg, 0, 0, 0, 0, 1, none, [], .inlineData []⟩

/-- Put together by hand: the parser wants the names of a node in strictly increasing order. -/
def blob : MetadataBlob :=
  ⟨[rootDir, file], [⟨1, [⟨ascii "a", 2, 1⟩, ⟨ascii "a", 2, 1⟩]⟩]⟩

end RepeatedName

open RepeatedName in
/-- Both entries are reported, and in the same place. -/
theorem repeated_name_repeats_path : ∃ events,
    walkLiveTree RepeatedName.hash RepeatedName.blob recorder 1 [] = .ok events ∧
      ¬ (events.map Prod.fst).Nodup :=
  ⟨[([], rootDir), ([ascii "a"], file), ([ascii "a"], file)], by decide +kernel⟩

/-! ### The walk as a whole -/

/-- **The walk ends, and what it reports is exactly the live tree.** -/
theorem walkLiveTree_exact {σ : Type} (H : Hash) (blob : MetadataBlob) (sink : LiveTreeSink σ)
    (root : Nat) (s : σ) :
    (∀ inode more, blob.inodeByNumber root = some inode → walkLiveTree H blob sink root s
      = (walkDir H blob sink (blob.inodes.length + 1 + more) inode [] (s, [])).map Prod.fst) ∧
    (∀ t, walkLiveTree H blob sink root s = .ok t → ∃ events,
      walkLiveTree H blob recorder root [] = .ok events ∧ events.foldlM sink.report s = .ok t ∧
      ExactWalk H blob root events) ∧
    ∀ maxInlineBytes bs rest,
      parseMetadataBlobWithCeiling maxInlineBytes bs = (.ok blob, rest) → NamesDistinct blob := by
  refine ⟨fun inode more hroot => walkLiveTree_fuel hroot s more, fun t h => ?_, fun _ _ _ h =>
    (parseMetadataBlob_wellFormed h).namesDistinct⟩
  obtain ⟨events, hevents, hfold⟩ := walkLiveTree_recorded h
  exact ⟨events, hevents, hfold, walkLiveTree_exactWalk hevents⟩

end LimniFS
