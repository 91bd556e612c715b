/-
What an image shows at a path.

`imageEntry` goes down from the root by the names of a path.  The walk that stages the live tree
enters every directory once, so a tree with one directory in two places is staged without the second
one.  Where each directory has one place the staged tree shows what the image shows
(`staged_shows`).
-/
import LimniFS.StagingTree

namespace LimniFS.Rw

open Lib

section
variable (H : Hash) (blob : MetadataBlob)

/-- The number that the names of a path lead to. -/
def numberAt : Nat → Path → Option Nat
  | number, [] => some number
  | number, name :: rest =>
    ((dirEntries H blob number).find? fun e => e.name = name).bind fun e =>
      numberAt e.inodeNumber rest

/-- The root is a directory, and no directory is in two places. -/
structure DirsOnce (root : Nat) : Prop where
  top : ∃ inode, blob.inodeByNumber root = some inode ∧ inode.dirHash.isSome
  once : ∀ p q number inode, EntryAt H blob root p number → EntryAt H blob root q number →
    blob.inodeByNumber number = some inode → inode.dirHash.isSome → p = q

end

/-- What an image shows at a path: a directory, the bytes of a file, or the target of a link. -/
def imageEntry (H : Hash) (z : Omnizip) (state : OpenState) (names : Path) :
    Option (FileEntry Bytes) :=
  ((numberAt H state.blob state.rootInode names).bind state.blob.inodeByNumber).bind
    (inodeEntry (slabSource z state))

section
variable {H : Hash} {blob : MetadataBlob} {root : Nat}

theorem find_name_iff (hwf : blob.WellFormed) {number : Nat} {name : Bytes} {e : DirEntry} :
    ((dirEntries H blob number).find? fun e => e.name = name) = some e ↔
      e ∈ dirEntries H blob number ∧ e.name = name := by
  constructor
  · intro h
    exact ⟨List.mem_of_find?_eq_some h, by simpa using List.find?_some h⟩
  · rintro ⟨listed, rfl⟩
    obtain ⟨e', he'⟩ := Option.isSome_iff_exists.mp
      (List.find?_isSome (p := fun e' : DirEntry => decide (e'.name = e.name)).mpr
        ⟨e, listed, by simp⟩)
    obtain ⟨node, hnode, heq⟩ := dirEntries_node listed
    have hlisted' := List.mem_of_find?_eq_some he'
    have hname : e'.name = e.name := by simpa using List.find?_some he'
    rw [heq] at listed hlisted'
    rw [he', (hwf.names node hnode).eq_of_name hlisted' listed hname]

theorem numberAt_iff (hwf : blob.WellFormed) : ∀ (names : Path) {front : Path} {start number : Nat},
    EntryAt H blob root front start →
    (numberAt H blob start names = some number ↔ EntryAt H blob root (front ++ names) number) := by
  intro names
  induction names with
  | nil =>
      intro front start number hstart
      rw [List.append_nil]
      constructor
      · intro h
        exact Option.some.inj h ▸ hstart
      · intro h
        exact congrArg some (hstart.unique hwf h)
  | cons name rest ih =>
      intro front start number hstart
      rw [numberAt, Option.bind_eq_some_iff, List.append_cons]
      constructor
      · rintro ⟨e, he, hrest⟩
        obtain ⟨listed, rfl⟩ := (find_name_iff hwf).mp he
        exact (ih (EntryAt.entry hstart listed)).mp hrest
      · intro h
        obtain ⟨dir, hdir, e, listed, rfl⟩ := EntryAt.split (p := front) (q := rest)
          (by rwa [List.append_cons])
        obtain rfl := hstart.unique hwf hdir
        exact ⟨e, (find_name_iff hwf).mpr ⟨listed, rfl⟩, (ih (EntryAt.entry hstart listed)).mpr h⟩

theorem numberAt_root_iff (hwf : blob.WellFormed) {names : Path} {number : Nat} :
    numberAt H blob root names = some number ↔ EntryAt H blob root names number :=
  numberAt_iff hwf names EntryAt.root

/-! ### Reports and entries -/

theorem dirEntries_of_dirHash {number : Nat} {dir : Inode} {hash : Digest}
    (hfound : blob.inodeByNumber number = some dir) (hdir : dir.dirHash = some hash) :
    dirEntries H blob number = (blob.dirNodeByHash H hash).elim [] DirectoryNode.entries := by
  unfold Inode.dirHash at hdir
  unfold dirEntries
  rw [hfound]
  simp only [Option.map_some]
  split at hdir
  · next hash' hhandle =>
      obtain rfl := Option.some.inj hdir
      rw [hhandle]
  · cases hdir

/-- The turn of an entry ends with a report of it, or finds that its directory was reported
before. -/
theorem turn_of_entry {dirPath : Path} {earlier more : List WalkEvent} {entries : List DirEntry}
    (h : Turns blob dirPath earlier entries more) :
    ∀ e ∈ entries, ∀ child, blob.inodeByNumber e.inodeNumber = some child →
      (dirPath ++ [e.name], child) ∈ more ∨
        (child.dirHash.isSome ∧ ∃ path, (path, child) ∈ earlier ++ more) := by
  induction h with
  | nil =>
      intro e he
      exact absurd he List.not_mem_nil
  | @cons earlier first more entry rest turn later ih =>
      intro e he child hchild
      rcases List.mem_cons.mp he with rfl | hrest
      · cases turn with
        | reported found =>
            obtain rfl := Option.some.inj (found.symm.trans hchild)
            exact Or.inl (List.mem_append_left _ List.mem_cons_self)
        | passedOver found isDir met =>
            obtain rfl := Option.some.inj (found.symm.trans hchild)
            exact Or.inr ⟨isDir, _, List.mem_append_left _ met⟩
      · rcases ih e hrest child hchild with hin | ⟨isDir, path, hin⟩
        · exact Or.inl (List.mem_append_right _ hin)
        · exact Or.inr ⟨isDir, path, by rwa [List.append_assoc] at hin⟩

variable {events : List WalkEvent} (hexact : ExactWalk H blob root events)

include hexact in
theorem entry_of_event : ∀ {event : WalkEvent}, event ∈ events →
    ∃ number, EntryAt H blob root event.1 number ∧ blob.inodeByNumber number = some event.2 := by
  have hprefix : ∀ (before after : List WalkEvent), events = before ++ after → ∀ event ∈ before,
      ∃ number, EntryAt H blob root event.1 number ∧
        blob.inodeByNumber number = some event.2 := by
    intro before
    induction before using List.reverseRecOn with
    | nil =>
        intro after _ event hin
        exact absurd hin List.not_mem_nil
    | append_singleton before last ih =>
        intro after heq event hin
        rw [List.append_assoc] at heq
        rcases List.mem_append.mp hin with hold | hlast
        · exact ih _ heq event hold
        · obtain rfl := List.mem_singleton.mp hlast
          cases hexact.source before event after heq with
          | root _ found => exact ⟨root, EntryAt.root, found⟩
          | entry reported isDir hasNode listed _ found =>
              obtain ⟨number, hat, hdir⟩ := ih _ heq _ reported
              refine ⟨_, EntryAt.entry hat ?_, found⟩
              rw [dirEntries_of_dirHash hdir isDir, hasNode]
              exact listed
  intro event hin
  exact hprefix events [] (List.append_nil events).symm event hin

include hexact in
theorem event_of_entry (honce : DirsOnce H blob root) {path : Path} {number : Nat}
    (h : EntryAt H blob root path number) : ∀ {inode}, blob.inodeByNumber number = some inode →
      (path, inode) ∈ events := by
  have hrecords : ∀ {number inode}, blob.inodeByNumber number = some inode →
      blob.inodeByNumber inode.number = some inode := fun h => MetadataBlob.Records.of_number h
  have hplace : ∀ {place p number inode}, (place, inode) ∈ events → inode.dirHash.isSome →
      EntryAt H blob root p number → blob.inodeByNumber number = some inode → place = p := by
    intro place p number inode hin hdir hat hfound
    obtain ⟨number', hat', hfound'⟩ := entry_of_event hexact hin
    have hnum := (inodeByNumber_mem hfound).2
    have hnum' := (inodeByNumber_mem hfound').2
    exact honce.once place p number inode (by rw [← hnum, hnum']; exact hat') hat hfound hdir
  induction h with
  | root =>
      intro inode hfound
      obtain ⟨top, htop, hdir⟩ := honce.top
      obtain rfl := Option.some.inj (htop.symm.trans hfound)
      obtain ⟨place, before, after, heq, -⟩ := hexact.once top (.root htop) hdir
      have hin : (place, top) ∈ events := heq ▸ List.mem_append_right _ List.mem_cons_self
      rwa [hplace hin hdir EntryAt.root htop] at hin
  | @entry path number e dir listed ih =>
      intro inode hfound
      cases hdirInode : blob.inodeByNumber number with
      | none =>
          unfold dirEntries at listed
          rw [hdirInode] at listed
          exact absurd listed List.not_mem_nil
      | some dirInode =>
          have hreported := ih hdirInode
          obtain ⟨before, after, heq⟩ := List.append_of_mem hreported
          cases hhash : dirInode.dirHash with
          | none =>
              unfold dirEntries at listed
              rw [hdirInode] at listed
              simp only [Option.map_some] at listed
              unfold Inode.dirHash at hhash
              split at hhash
              · cases hhash
              · next hnot =>
                  split at listed
                  · next hash hhandle => exact absurd (Option.some.inj hhandle) (hnot hash)
                  · exact absurd listed List.not_mem_nil
          | some hash =>
              obtain ⟨node, below, rest, hnode, rfl, hturns⟩ :=
                hexact.entries before path dirInode hash after heq hhash
              rw [dirEntries_of_dirHash hdirInode hhash, hnode] at listed
              have hall : events = (before ++ [(path, dirInode)] ++ below) ++ rest := by
                simp [heq]
              rcases turn_of_entry hturns e listed inode hfound with hin | ⟨hdir, place, hin⟩
              · rw [hall]
                exact List.mem_append_left _ (List.mem_append_right _ hin)
              · have hevent : (place, inode) ∈ events := hall ▸ List.mem_append_left _ hin
                have hat : EntryAt H blob root (path ++ [e.name]) e.inodeNumber := by
                  refine EntryAt.entry dir ?_
                  rw [dirEntries_of_dirHash hdirInode hhash, hnode]
                  exact listed
                rwa [hplace hevent hdir hat hfound] at hevent

end

/-! ### The staged tree and the image -/

section
variable {H : Hash} {z : Omnizip} {os : StagingOs} {state : OpenState} {base : StagingDir}

/-- **Where each directory has one place, the staged live tree shows what the image shows.** -/
theorem staged_shows (hwf : state.blob.WellFormed) (honce : DirsOnce H state.blob state.rootInode)
    (h : writeLiveTree H z os state = .ok base) (names : Path) :
    base.shows names = imageEntry H z state names := by
  obtain ⟨events, s, hevents, hstaged, rfl⟩ := stagedLive hwf.namesDistinct h
  have hexact := walkLiveTree_exactWalk hevents
  have hshown : ∀ {number inode}, EntryAt H state.blob state.rootInode names number →
      state.blob.inodeByNumber number = some inode →
      s.tree.shows names = inodeEntry (slabSource z state) inode := by
    intro number inode hat hfound
    exact hstaged.shown _ (event_of_entry hexact honce hat hfound)
  unfold imageEntry
  cases hnumber : numberAt H state.blob state.rootInode names with
  | some number =>
      have hat := (numberAt_root_iff hwf).mp hnumber
      rw [Option.bind_some]
      cases hfound : state.blob.inodeByNumber number with
      | some inode => exact hshown hat hfound
      | none =>
          rw [Option.bind_none, FileTree.shows_eq_none]
          have hne : names ≠ [] := by
            rintro rfl
            obtain ⟨top, htop, -⟩ := honce.top
            rw [(EntryAt.root).unique hwf hat, hfound] at htop
            cases htop
          refine hstaged.absent names hne fun hin => ?_
          obtain ⟨⟨place, inode⟩, hevent, rfl⟩ := List.mem_map.mp hin
          obtain ⟨number', hat', hfound'⟩ := entry_of_event hexact hevent
          rw [hat.unique hwf hat', hfound'] at hfound
          cases hfound
  | none =>
      show s.tree.shows names = none
      rw [FileTree.shows_eq_none]
      have hne : names ≠ [] := by
        rintro rfl
        cases hnumber
      refine hstaged.absent names hne fun hin => ?_
      obtain ⟨⟨place, inode⟩, hevent, rfl⟩ := List.mem_map.mp hin
      obtain ⟨number', hat', -⟩ := entry_of_event hexact hevent
      rw [(numberAt_root_iff hwf).mpr hat'] at hnumber
      cases hnumber

theorem staged_objects (hwf : state.blob.WellFormed) (h : writeLiveTree H z os state = .ok base) :
    base.Rooted ∧ ∀ path object, base.node path = some (.file object) →
      ∃ place, object = .live place := by
  obtain ⟨events, s, -, hstaged, rfl⟩ := stagedLive hwf.namesDistinct h
  refine ⟨hstaged.rooted, fun path object hnode => ?_⟩
  obtain ⟨place, -, heq⟩ := hstaged.objects path object hnode
  exact ⟨place, heq⟩

end

end LimniFS.Rw
