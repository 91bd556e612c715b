/-
Two commands that print files.

`cat` takes the slashes off both ends of a path, goes down from the root by its components, and reads
the file it comes to through windows.  `cat_multi` takes slashes off the end only, looks the path up in
the index of all paths, and prints each drop of the file as it is.

On a tree both lead to the same number, except for a path that starts with two slashes or is one slash:
those are not in the index (`lookup_normalised`).  Of the records with that number one command takes the
first and the other the last.
-/
import LimniFS.ImageView
import LimniFS.DeltaLinkage

namespace LimniFS.Cat

open Lib

/-! ### Walking to a file -/

def trimStart (path : Bytes) : Bytes := path.dropWhile (· == slash)

def trimEnd (path : Bytes) : Bytes := path.rdropWhile (· == slash)

section
variable (H : Hash) (blob : MetadataBlob)

/-- The loop of `resolve_path` over the components that are left. -/
def resolveFrom : Inode → List Bytes → Option Inode
  | inode, [] => some inode
  | inode, component :: rest =>
    if component = [] ∨ 0 ∈ component then none
    else
      match inode.contentHandle with
      | .directory hash =>
        (blob.dirNodeByHash H hash).bind fun node =>
          (node.entries.find? fun e => e.name = component).bind fun entry =>
            (blob.inodeByNumber entry.inodeNumber).bind fun next => resolveFrom next rest
      | _ => none

def resolvePath (rootInode : Inode) (path : Bytes) : Option Inode :=
  let trimmed := trimEnd (trimStart path)
  if trimmed = [] then some rootInode
  else resolveFrom H blob rootInode (PathText.split slash trimmed)

end

/-! ### What is printed -/

/-- `{:?}` of a content handle that has no bytes of a file. -/
def debugOther : ContentHandle → Option String
  | .inlineData _ => none
  | .sliceMap _ => none
  | .sharedInline index => some s!"SharedInline({index})"
  | .directory hash => some ("Directory(" ++ debugBytes hash.val ++ ")")
  | .symlink target => some ("Symlink(" ++ debugStr target ++ ")")
  | .device dev => some s!"Device({dev})"
  | .pipe pipeId => some s!"Pipe({pipeId})"

def pathNotFound (path : Bytes) : CoreError :=
  .corrupt ("metadata blob: path " ++ debugStr path ++ " not found in tree")

def nonFileInode (path : Bytes) (other : String) : CoreError :=
  .corrupt ("metadata blob: path " ++ debugStr path
    ++ " resolves to a non-file inode (content_handle: " ++ other ++ ")")

/-- `CAT_WINDOW`. -/
def catWindow : Nat := 256 * 1024

/-- The loop of `cat`: `out` is what was written, `read` reads a window of a place and a length. -/
def catLoop (read : Nat → Nat → Option (Except CoreError Bytes)) (windowLen start take : Nat)
    (out : Bytes) : Option (Except CoreError Bytes) :=
  if _h : out.length < take then
    match read (start + out.length) (min windowLen (take - out.length)) with
    | none => none
    | some (.error e) => some (.error e)
    | some (.ok []) => some (.ok out)
    | some (.ok (b :: got)) => catLoop read windowLen start take (out ++ b :: got)
  else some (.ok out)
termination_by take - out.length
decreasing_by
  rw [List.length_append, List.length_cons]
  omega

section
variable (H : Hash) (z : Omnizip)

/-- `limni cat`: nothing if it panics. -/
def cat (image : ImageFile) (path : Bytes) (offset length : Option Nat) (bases : List ImageFile) :
    Option (Except CoreError Bytes) :=
  match loadImage z image with
  | .error e => some (.error e)
  | .ok loaded =>
    match loaded.blob.inodeByNumber loaded.rootInodeNumber with
    | none => none
    | some rootInode =>
      match resolvePath H loaded.blob rootInode path with
      | none => some (.error (pathNotFound path))
      | some target =>
        match debugOther target.contentHandle with
        | some other => some (.error (nonFileInode path other))
        | none =>
          match loadSlabChain z image loaded bases with
          | .error e => some (.error e)
          | .ok stores =>
            let totalLen := target.fileLen
            let start := min (offset.getD 0) totalLen
            let remaining := totalLen - start
            let take := min (length.getD remaining) remaining
            catLoop (readWindowInto target (chainSource z stores)) (max (min catWindow take) 1) start
              take []

/-! ### Several files -/

/-- The key of a path in the index. -/
def normalised (path : Bytes) : Bytes :=
  if [slash] <+: path then trimEnd path else slash :: trimEnd path

/-- The inode in a table that later records overwrite. -/
def lastInode (blob : MetadataBlob) (number : Nat) : Option Inode :=
  blob.inodes.reverse.find? fun i => i.number == number

/-- The drops of the slices, one behind the other. -/
def wholeDrops (store : SlabSource) : List SliceRef → Except CoreError Bytes
  | [] => .ok []
  | slice :: rest =>
    match store slice.dropId with
    | none => .error (.corrupt ("slab: drop id " ++ String.ofList (hexLower slice.dropId.val)
        ++ " not found in any slab"))
    | some (.error e) => .error e
    | some (.ok plaintext) => (wholeDrops store rest).map fun more => plaintext ++ more

/-- What a section holds between its header line and the line break at its end. -/
def sectionBody (store : Option SlabSource) (path : Bytes) (target : Inode) : Except CoreError Bytes :=
  match target.contentHandle with
  | .inlineData data => .ok data
  | .sliceMap map =>
    match store with
    | none => .error (.corrupt ("metadata blob: path " ++ debugStr path
        ++ " references a drop but slab store is missing"))
    | some store => wholeDrops store map.slices
  | handle => .error (nonFileInode path ((debugOther handle).getD ""))

def sectionText (path body : Bytes) : Bytes :=
  ascii "==> " ++ path ++ ascii " ==>\n" ++ body ++ ascii "\n"

/-- The section of one path. -/
def catSection (blob : MetadataBlob) (index : PathMap Nat) (store : Option SlabSource)
    (path : Bytes) : Except CoreError Bytes :=
  match index.lookup (normalised path) with
  | none => .error (pathNotFound path)
  | some number =>
    match lastInode blob number with
    | none => .error (.corrupt s!"metadata blob: inode {number} missing")
    | some target => (sectionBody store path target).map (sectionText path)

/-- `limni cat-multi`: nothing if the index of the paths is not finished in `fuel` turns. -/
def catMulti (fuel : Nat) (image : ImageFile) (paths : List Bytes) (bases : List ImageFile) :
    Option (Except CoreError Bytes) :=
  match loadImage z image with
  | .error e => some (.error e)
  | .ok loaded =>
    (Rw.buildPathIndex H loaded.blob fuel).map fun index =>
      match loadSlabChain z image loaded bases with
      | .error e => .error e
      | .ok stores =>
        (paths.mapM (catSection loaded.blob index (chainSource z stores))).map List.flatten

end

/-! ### Resolving a path -/

/-- The path, the slashes at its ends taken off, is the path of an entry with this number. -/
def Leads (H : Hash) (blob : MetadataBlob) (root : Nat) (path : Bytes) (number : Nat) : Prop :=
  ∃ names, Rw.EntryAt H blob root names number ∧
    trimEnd (trimStart path) = PathText.join slash names

/-- The path does not start with two slashes, and it is not a slash alone. -/
structure Spelled (path : Bytes) : Prop where
  notSlash : path ≠ [slash]
  oneSlash : ¬ [slash, slash] <+: path

section
variable {H : Hash} {blob : MetadataBlob} {root : Nat}

theorem dirEntries_of_handle {inode : Inode} (hrecord : blob.Records inode) :
    Rw.dirEntries H blob inode.number =
      match inode.contentHandle with
      | .directory hash => (blob.dirNodeByHash H hash).elim [] DirectoryNode.entries
      | _ => [] := by
  unfold Rw.dirEntries
  rw [hrecord]
  cases hhandle : inode.contentHandle <;> simp [hhandle]

theorem numberAt_of_missing {number : Nat} (h : blob.inodeByNumber number = none) (names : Path) :
    (Rw.numberAt H blob number names).bind blob.inodeByNumber = none := by
  cases names with
  | nil => simpa [Rw.numberAt] using h
  | cons name rest =>
      have hnone : Rw.dirEntries H blob number = [] := by
        unfold Rw.dirEntries
        rw [h]
        rfl
      simp [Rw.numberAt, hnone]

theorem resolveFrom_eq (hparsed : ∀ node ∈ blob.dirNodes, ∀ e ∈ node.entries, DeltaBuilder.ParsedEntry e) :
    ∀ (names : Path) {inode : Inode}, blob.Records inode →
      resolveFrom H blob inode names =
        (Rw.numberAt H blob inode.number names).bind blob.inodeByNumber := by
  intro names
  induction names with
  | nil =>
      intro inode hrecord
      simpa [resolveFrom, Rw.numberAt] using hrecord.symm
  | cons name rest ih =>
      intro inode hrecord
      rw [resolveFrom, Rw.numberAt]
      by_cases hname : name = [] ∨ 0 ∈ name
      · -- no entry has such a name
        rw [if_pos hname]
        have hnone : ((Rw.dirEntries H blob inode.number).find? fun e => e.name = name) = none := by
          refine List.find?_eq_none.mpr fun e he heq => ?_
          obtain ⟨node, hnode, hentries⟩ := Rw.dirEntries_node he
          have hok := (hparsed node hnode e (hentries ▸ he)).name
          obtain rfl : e.name = name := by simpa using heq
          exact hname.elim hok.component.1 hok.nul
        rw [hnone]
        rfl
      · rw [if_neg hname, dirEntries_of_handle hrecord]
        cases hhandle : inode.contentHandle with
        | directory hash =>
            simp only
            cases hnode : blob.dirNodeByHash H hash with
            | none => rfl
            | some node =>
                simp only [Option.bind_some, Option.elim_some]
                cases hentry : node.entries.find? fun e => e.name = name with
                | none => rfl
                | some e =>
                    simp only [Option.bind_some]
                    cases hnext : blob.inodeByNumber e.inodeNumber with
                    | none => exact (numberAt_of_missing hnext rest).symm
                    | some next =>
                        have hnumber := (inodeByNumber_mem hnext).2
                        rw [Option.bind_some, ih (MetadataBlob.Records.of_number hnext), hnumber]
        | _ => rfl

/-- **The command comes to the first record of the number that the path leads to.** -/
theorem resolvePath_eq_some (hwf : blob.WellFormed)
    (hparsed : ∀ node ∈ blob.dirNodes, ∀ e ∈ node.entries, DeltaBuilder.ParsedEntry e) {rootInode : Inode}
    (hroot : blob.inodeByNumber root = some rootInode) {path : Bytes} {target : Inode} :
    resolvePath H blob rootInode path = some target ↔
      ∃ number, Leads H blob root path number ∧ blob.inodeByNumber number = some target := by
  have hnumber := (inodeByNumber_mem hroot).2
  unfold resolvePath Leads
  by_cases hnil : trimEnd (trimStart path) = []
  · rw [if_pos hnil, hnil]
    constructor
    · intro h
      exact ⟨root, ⟨[], Rw.EntryAt.root, rfl⟩, hroot.trans h⟩
    · rintro ⟨number, ⟨names, hat, hjoin⟩, hfound⟩
      have hempty : names = [] := by
        by_contra hne
        exact PathText.join_ne_nil hne (fun name hin => (hat.names hwf name hin).1) hjoin.symm
      subst hempty
      rw [hat.unique hwf Rw.EntryAt.root, hroot] at hfound
      exact hfound
  · rw [if_neg hnil, resolveFrom_eq hparsed _ (MetadataBlob.Records.of_number hroot), hnumber,
      Option.bind_eq_some_iff]
    refine exists_congr fun number => and_congr_left fun _ => ?_
    rw [Rw.numberAt_root_iff hwf]
    constructor
    · intro hat
      exact ⟨_, hat, (PathText.join_split _).symm⟩
    · rintro ⟨names, hat, hjoin⟩
      have hne : names ≠ [] := by
        rintro rfl
        exact hnil hjoin
      rwa [hjoin, PathText.split_join hne fun name hin => (hat.names hwf name hin).2]

/-! ### The key of a path -/

theorem trimEnd_prefix (path : Bytes) : trimEnd path <+: path := List.rdropWhile_prefix _ _

theorem trimEnd_ne (path front : Bytes) : trimEnd path ≠ front ++ [slash] := by
  intro h
  have hlast := List.rdropWhile_last_not (fun b : UInt8 => b == slash) path (by
    rw [show path.rdropWhile _ = front ++ [slash] from h]
    simp)
  simp only [show path.rdropWhile (fun b : UInt8 => b == slash) = front ++ [slash] from h,
    List.getLast_append_singleton] at hlast
  simp at hlast

theorem trimEnd_cons {b : UInt8} {rest : Bytes} (h : trimEnd rest ≠ [] ∨ b ≠ slash) :
    trimEnd (b :: rest) = b :: trimEnd rest := by
  unfold trimEnd at h ⊢
  rw [List.rdropWhile, List.reverse_cons, List.dropWhile_append]
  by_cases hnil : (rest.reverse.dropWhile (· == slash)).isEmpty
  · have hb : b ≠ slash := by
      refine h.resolve_left fun hne => hne ?_
      rw [List.rdropWhile, List.isEmpty_iff.mp hnil, List.reverse_nil]
    rw [if_pos hnil, List.rdropWhile, List.isEmpty_iff.mp hnil]
    simp [hb]
  · rw [if_neg hnil, List.rdropWhile, List.reverse_append]
    rfl

theorem trimStart_of_head {b : UInt8} {rest : Bytes} (h : b ≠ slash) :
    trimStart (b :: rest) = b :: rest := by
  simp [trimStart, h]

theorem normalised_spelled {path : Bytes} (h : Spelled path) :
    normalised path = slash :: trimEnd (trimStart path) := by
  unfold normalised
  rcases path with _ | ⟨b, rest⟩
  · rfl
  · by_cases hb : b = slash
    · subst hb
      rw [if_pos (by simp)]
      rcases rest with _ | ⟨c, rest⟩
      · exact absurd rfl h.notSlash
      · have hc : c ≠ slash := by
          rintro rfl
          exact h.oneSlash (by simp)
        have hstart : trimStart (slash :: c :: rest) = c :: rest := by simp [trimStart, hc]
        have hne : trimEnd (c :: rest) ≠ [] := by
          rw [trimEnd_cons (Or.inr hc)]
          exact List.cons_ne_nil _ _
        rw [hstart, trimEnd_cons (Or.inl hne)]
    · rw [if_neg (by simp [Ne.symm hb]), trimStart_of_head hb]

theorem spelled_of_normalised {path : Bytes} {names : Path}
    (hnames : ∀ name ∈ names, PathText.IsName slash name)
    (h : normalised path = Rw.absolutePath names) : Spelled path := by
  unfold Rw.absolutePath at h
  -- a path that starts with a slash is only trimmed at its end
  have hslash : [slash] <+: path → trimEnd path = slash :: PathText.join slash names := by
    intro hstart
    rwa [normalised, if_pos hstart] at h
  refine ⟨?_, fun htwo => ?_⟩
  · rintro rfl
    have hkey := hslash List.prefix_rfl
    rw [show trimEnd [slash] = [] from by simp [trimEnd, List.rdropWhile_singleton]] at hkey
    cases hkey
  · obtain ⟨rest, rfl⟩ := htwo
    have hkey := hslash ⟨slash :: rest, rfl⟩
    have hpre := trimEnd_prefix ([slash, slash] ++ rest)
    rw [hkey] at hpre
    have hjoin : PathText.join slash names <+: slash :: rest :=
      (List.cons_prefix_cons.mp hpre).2
    rcases List.prefix_cons_iff.mp hjoin with hnil | ⟨tail, htail, -⟩
    · rw [hnil] at hkey
      exact trimEnd_ne _ [] hkey
    · -- the first component would be empty
      have hne : names ≠ [] := by
        rintro rfl
        cases htail
      have hsplit := @PathText.split_join _ slash _ names hne fun name hin => (hnames name hin).2
      rw [htail, PathText.split, if_pos rfl] at hsplit
      exact (hnames [] (hsplit ▸ List.mem_cons_self)).1 rfl

/-- **The index has the number a path leads to**, if the path is spelled as the index spells it. -/
theorem lookup_normalised (hwf : blob.WellFormed) {index : PathMap Nat}
    (hexact : Rw.ExactIndex H blob root index) {path : Bytes} {number : Nat} :
    index.lookup (normalised path) = some number ↔
      Spelled path ∧ Leads H blob root path number := by
  rw [hexact]
  constructor
  · rintro ⟨names, hkey, hat⟩
    have hspelled := spelled_of_normalised (hat.names hwf) hkey
    rw [normalised_spelled hspelled] at hkey
    exact ⟨hspelled, names, hat, (List.cons.inj hkey).2⟩
  · rintro ⟨hspelled, names, hat, hjoin⟩
    exact ⟨names, by rw [normalised_spelled hspelled, hjoin, Rw.absolutePath], hat⟩

theorem lastInode_isSome {number : Nat} :
    (lastInode blob number).isSome = (blob.inodeByNumber number).isSome := by
  unfold lastInode MetadataBlob.inodeByNumber
  rw [Bool.eq_iff_iff, List.find?_isSome, List.find?_isSome]
  simp

theorem Leads.unique (hwf : blob.WellFormed) {path : Bytes} {number number' : Nat}
    (h : Leads H blob root path number) (h' : Leads H blob root path number') : number = number' := by
  obtain ⟨names, hat, hjoin⟩ := h
  obtain ⟨names', hat', hjoin'⟩ := h'
  have hsame := PathText.components_join (hat.names hwf)
  rw [← hjoin, hjoin', PathText.components_join (hat'.names hwf)] at hsame
  subst hsame
  exact hat.unique hwf hat'

end

end LimniFS.Cat
