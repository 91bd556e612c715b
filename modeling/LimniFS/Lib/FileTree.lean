/-
Trees of directories, files and symbolic links, and paths resolved by their names alone.

A tree says what stands at each path.  Several paths can be names of one file: each leads to the
same object, and a write under one of them changes what all of them show.

Removing takes a name away, never a directory; placing makes the directories above that are missing,
and fails where something else is in the way.  So everything stays in a directory (`Rooted`).

A path without links is a list of names, two of which are no names: one stands for the directory
itself and one for the directory above.  What such a path does is the same from everywhere
(`LexicalPath.reduce`): it climbs so many levels and then descends along names.  It stays below where
it started when it does not climb, or when it descends again through the very names it climbed over
(`LexicalPath.prefix_walk_iff`).
-/
import Mathlib.Data.List.Infix
import Mathlib.Data.List.Lookmap
import Mathlib.Logic.Function.Basic
import Mathlib.Data.List.Basic
import Mathlib.Data.List.DropRight

namespace Lib

variable {ν ο β : Type}

inductive FileNode (ο β : Type) where
  | dir
  | file (object : ο)
  | symlink (target : β)

def FileNode.isDir : FileNode ο β → Bool
  | .dir => true
  | _ => false

/-- What stands at a path, and what the files hold. -/
structure FileTree (ν ο β : Type) where
  node : List ν → Option (FileNode ο β)
  content : ο → β

/-- What a path shows. -/
inductive FileEntry (β : Type) where
  | dir
  | file (content : β)
  | symlink (target : β)
  deriving DecidableEq

namespace FileTree

def shows (t : FileTree ν ο β) (path : List ν) : Option (FileEntry β) :=
  (t.node path).map fun
    | .dir => .dir
    | .file object => .file (t.content object)
    | .symlink target => .symlink target

/-- There is a directory at the root, and above everything that is there. -/
structure Rooted (t : FileTree ν ο β) : Prop where
  root : t.node [] = some .dir
  parent : ∀ path name, (t.node (path ++ [name])).isSome → t.node path = some .dir

/-! ### Operations -/

/-- Nothing but the root, where every file would hold `content`. -/
def bare (content : β) : FileTree ν ο β where
  node
    | [] => some .dir
    | _ :: _ => none
  content _ := content

section

variable [DecidableEq ν] [DecidableEq ο]

/-- Make the directories down to a path, unless something else is in the way. -/
def makeDirs (t : FileTree ν ο β) (path : List ν) : Option (FileTree ν ο β) :=
  if path.inits.all fun q => match t.node q with
      | none | some .dir => true
      | _ => false then
    some { t with node := fun q => if q <+: path then some .dir else t.node q }
  else none

/-- Put something new at a path, in directories that are made where they are missing. -/
def place (t : FileTree ν ο β) (path : List ν) (n : FileNode ο β) : Option (FileTree ν ο β) :=
  match t.makeDirs path.dropLast with
  | none => none
  | some t' =>
    if (t'.node path).isSome then none
    else some { t' with node := Function.update t'.node path (some n) }

/-- Write a file: the one that is there, or a new one. -/
def write (t : FileTree ν ο β) (path : List ν) (fresh : ο) (data : β) : Option (FileTree ν ο β) :=
  match t.node path with
  | some (.file object) => some { t with content := Function.update t.content object data }
  | some _ => none
  | none => (t.place path (.file fresh)).map fun t' =>
      { t' with content := Function.update t'.content fresh data }

/-- Remove the name of a file or a link; a directory stays. -/
def remove (t : FileTree ν ο β) (path : List ν) : FileTree ν ο β :=
  match t.node path with
  | none | some .dir => t
  | some _ => { t with node := Function.update t.node path none }

end

/-- A symbolic link stands at the path or above it. -/
def crosses (t : FileTree ν ο β) (path : List ν) : Bool :=
  path.inits.any fun q => match t.node q with
    | some (.symlink _) => true
    | _ => false

/-! ### What each operation does -/

section

variable {t t' : FileTree ν ο β} {path q : List ν}

theorem shows_eq_none : t.shows path = none ↔ t.node path = none := Option.map_eq_none_iff

theorem shows_eq_dir : t.shows path = some .dir ↔ t.node path = some .dir := by
  unfold shows
  rcases t.node path with _ | _ | object | target <;> simp

theorem shows_file {object : ο} (h : t.node path = some (.file object)) :
    t.shows path = some (.file (t.content object)) := by
  rw [shows, h]
  rfl

theorem shows_symlink {target : β} (h : t.node path = some (.symlink target)) :
    t.shows path = some (.symlink target) := by
  rw [shows, h]
  rfl

theorem Rooted.above (h : t.Rooted) : ∀ {path : List ν}, (t.node path).isSome → ∀ {q : List ν},
    q <+: path → q ≠ path → t.node q = some .dir := by
  intro path
  induction path using List.reverseRecOn with
  | nil =>
      intro _ q hq hne
      exact absurd (List.prefix_nil.mp hq) hne
  | append_singleton init name ih =>
      intro hsome q hq hne
      have hparent := h.parent init name hsome
      rcases List.prefix_concat_iff.mp hq with rfl | hq
      · exact absurd rfl hne
      · by_cases heq : q = init
        · rw [heq, hparent]
        · exact ih (by rw [hparent]; rfl) hq heq

theorem rooted_bare (content : β) : (bare content : FileTree ν ο β).Rooted where
  root := rfl
  parent path name h := by
    cases path with
    | nil => cases h
    | cons => cases h

theorem prefix_dropLast_iff (hne : path ≠ []) : q <+: path.dropLast ↔ q <+: path ∧ q ≠ path := by
  obtain ⟨init, name, rfl⟩ := (List.eq_nil_or_concat' path).resolve_left hne
  rw [List.dropLast_concat, List.prefix_concat_iff]
  constructor
  · intro hq
    refine ⟨Or.inr hq, ?_⟩
    rintro rfl
    have := hq.length_le
    rw [List.length_append, List.length_singleton] at this
    omega
  · rintro ⟨rfl | hq, hne⟩
    · exact absurd rfl hne
    · exact hq

theorem crosses_iff : t.crosses path = true ↔ ∃ q target, q <+: path ∧
    t.node q = some (.symlink target) := by
  unfold crosses
  rw [List.any_eq_true]
  constructor
  · rintro ⟨q, hq, hlink⟩
    split at hlink
    · next target hnode => exact ⟨q, target, (List.mem_inits q path).mp hq, hnode⟩
    · cases hlink
  · rintro ⟨q, target, hq, hnode⟩
    exact ⟨q, (List.mem_inits q path).mpr hq, by rw [hnode]⟩

variable [DecidableEq ν] [DecidableEq ο]

omit [DecidableEq ο] in
theorem makeDirs_some (h : t.makeDirs path = some t') :
    (∀ q, q <+: path → t.node q = none ∨ t.node q = some .dir) ∧
      t' = { t with node := fun q => if q <+: path then some .dir else t.node q } := by
  unfold makeDirs at h
  split at h
  · next hfree =>
      refine ⟨fun q hq => ?_, (Option.some.inj h).symm⟩
      have := List.all_eq_true.mp hfree q ((List.mem_inits q path).mpr hq)
      rcases hnode : t.node q with _ | _ | object | target
      · exact Or.inl rfl
      · exact Or.inr rfl
      · rw [hnode] at this
        cases this
      · rw [hnode] at this
        cases this
  · cases h

/-- What is placed is new, and so are the directories above it that were not there. -/
structure Placed (t : FileTree ν ο β) (path : List ν) (n : FileNode ο β) (t' : FileTree ν ο β) :
    Prop where
  nonempty : path ≠ []
  free : t.node path = none
  above : ∀ q, q <+: path → q ≠ path → t.node q = none ∨ t.node q = some .dir
  node : ∀ q, t'.node q =
    if q = path then some n else if q <+: path then some .dir else t.node q
  content : t'.content = t.content

omit [DecidableEq ο] in
theorem placed {n : FileNode ο β} (h : t.place path n = some t') :
    t.Placed path n t' := by
  unfold place at h
  split at h
  · cases h
  · next mid hmid =>
      obtain ⟨hfree, rfl⟩ := makeDirs_some hmid
      split at h
      · cases h
      · next hnone =>
          cases h
          simp only [Option.isSome_iff_ne_none, ne_eq, not_not] at hnone
          have hne : path ≠ [] := by
            rintro rfl
            rw [List.dropLast_nil, if_pos (List.prefix_refl [])] at hnone
            cases hnone
          have hnot : ¬ path <+: path.dropLast := fun hq => ((prefix_dropLast_iff hne).mp hq).2 rfl
          rw [if_neg hnot] at hnone
          refine ⟨hne, hnone, fun q hq hq' => hfree q ((prefix_dropLast_iff hne).mpr ⟨hq, hq'⟩),
            fun q => ?_, rfl⟩
          simp only [Function.update_apply, prefix_dropLast_iff hne]
          by_cases heq : q = path
          · rw [if_pos heq, if_pos heq]
          · rw [if_neg heq, if_neg heq]
            simp [heq]

omit [DecidableEq ο] in
theorem Placed.rooted {n : FileNode ο β} (h : t.Placed path n t') (hrooted : t.Rooted) :
    t'.Rooted := by
  refine ⟨?_, fun p name hsome => ?_⟩
  · rw [h.node, if_neg h.nonempty.symm, if_pos List.nil_prefix]
  · have hbelow : p ++ [name] <+: path → t'.node p = some .dir := by
      intro hp
      have hpre : p <+: path := (List.prefix_append p [name]).trans hp
      have hne : p ≠ path := by
        rintro rfl
        have := hp.length_le
        rw [List.length_append, List.length_singleton] at this
        omega
      rw [h.node, if_neg hne, if_pos hpre]
    rw [h.node] at hsome
    by_cases heq : p ++ [name] = path
    · exact hbelow (heq ▸ List.prefix_refl _)
    · rw [if_neg heq] at hsome
      by_cases hpre : p ++ [name] <+: path
      · exact hbelow hpre
      · rw [if_neg hpre] at hsome
        have hdir := hrooted.parent p name hsome
        rw [h.node]
        by_cases hp : p = path
        · rw [hp, h.free] at hdir
          cases hdir
        · rw [if_neg hp, hdir, ite_self]

theorem write_some {fresh : ο} {data : β}
    (h : t.write path fresh data = some t') :
    (∃ object, t.node path = some (.file object) ∧
        t' = { t with content := Function.update t.content object data }) ∨
      ∃ mid, t.Placed path (.file fresh) mid ∧
        t' = { mid with content := Function.update mid.content fresh data } := by
  unfold write at h
  split at h
  · next object hnode =>
      cases h
      exact Or.inl ⟨object, hnode, rfl⟩
  · cases h
  · obtain ⟨mid, hmid, rfl⟩ := Option.map_eq_some_iff.mp h
    exact Or.inr ⟨mid, placed hmid, rfl⟩

theorem Rooted.write (hrooted : t.Rooted) {fresh : ο} {data : β}
    (h : t.write path fresh data = some t') : t'.Rooted := by
  rcases write_some h with ⟨object, -, rfl⟩ | ⟨mid, hplaced, rfl⟩
  · exact ⟨hrooted.root, hrooted.parent⟩
  · have := hplaced.rooted hrooted
    exact ⟨this.root, this.parent⟩

theorem write_symlink {fresh : ο} {data : β}
    (h : t.write path fresh data = some t') {q : List ν} {target : β} :
    t'.node q = some (.symlink target) ↔ t.node q = some (.symlink target) := by
  rcases write_some h with ⟨object, -, rfl⟩ | ⟨mid, hplaced, rfl⟩
  · rfl
  · show mid.node q = _ ↔ _
    rw [hplaced.node]
    by_cases heq : q = path
    · rw [if_pos heq, heq, hplaced.free]
      exact ⟨fun h => (nomatch h), fun h => (nomatch h)⟩
    · rw [if_neg heq]
      by_cases hpre : q <+: path
      · rw [if_pos hpre]
        rcases hplaced.above q hpre heq with hnone | hdir
        · rw [hnone]
          exact ⟨fun h => (nomatch h), fun h => (nomatch h)⟩
        · rw [hdir]
      · rw [if_neg hpre]

omit [DecidableEq ο] in
theorem node_remove (t : FileTree ν ο β) (path q : List ν) : (t.remove path).node q =
    if q = path then (t.node q).filter FileNode.isDir else t.node q := by
  unfold remove
  by_cases heq : q = path
  · rw [if_pos heq, heq]
    rcases hnode : t.node path with _ | _ | object | target
    · exact hnode
    · exact hnode
    · exact Function.update_self ..
    · exact Function.update_self ..
  · rw [if_neg heq]
    rcases t.node path with _ | _ | object | target
    · rfl
    · rfl
    · exact Function.update_of_ne heq ..
    · exact Function.update_of_ne heq ..

omit [DecidableEq ο] in
theorem content_remove (t : FileTree ν ο β) (path : List ν) :
    (t.remove path).content = t.content := by
  unfold remove
  rcases t.node path with _ | _ | object | target <;> rfl

omit [DecidableEq ο] in
theorem Rooted.remove (hrooted : t.Rooted) (path : List ν) : (t.remove path).Rooted := by
  have hdir : ∀ {q}, t.node q = some .dir → (t.remove path).node q = some .dir := by
    intro q hq
    rw [node_remove, hq]
    exact ite_self _
  refine ⟨hdir hrooted.root, fun p name hsome => hdir (hrooted.parent p name ?_)⟩
  rw [node_remove] at hsome
  split at hsome
  · obtain ⟨n, hn⟩ := Option.isSome_iff_exists.mp hsome
    exact Option.isSome_iff_exists.mpr ⟨n, (Option.filter_eq_some_iff.mp hn).1⟩
  · exact hsome

end

end FileTree

end Lib

namespace Lib.LexicalPath

variable {Name : Type} [DecidableEq Name] (here up : Name)

def step (dir : List Name) (name : Name) : List Name :=
  if name = here then dir
  else if name = up then dir.dropLast
  else dir ++ [name]

/-- Where a path leads from a directory. -/
def walk (dir path : List Name) : List Name := path.foldl (step here up) dir

/-- Levels up and names down, with one more name behind them. -/
def reduceStep (r : Nat × List Name) (name : Name) : Nat × List Name :=
  if name = here then r
  else if name = up then if r.2 = [] then (r.1 + 1, []) else (r.1, r.2.dropLast)
  else (r.1, r.2 ++ [name])

/-- How many levels a path climbs, and the names it then descends along. -/
def reduce (path : List Name) : Nat × List Name := path.foldl (reduceStep here up) (0, [])

variable {here up}

/-- The directory `r` leads to. -/
def lands (dir : List Name) (r : Nat × List Name) : List Name := dir.take (dir.length - r.1) ++ r.2

theorem step_lands (dir : List Name) (r : Nat × List Name) (name : Name) :
    step here up (lands dir r) name = lands dir (reduceStep here up r name) := by
  unfold step reduceStep
  by_cases hhere : name = here
  · rw [if_pos hhere, if_pos hhere]
  · rw [if_neg hhere, if_neg hhere]
    by_cases hup : name = up
    · rw [if_pos hup, if_pos hup]
      by_cases hnil : r.2 = []
      · rw [if_pos hnil, lands, lands, hnil, List.append_nil, List.append_nil,
          List.dropLast_eq_take, List.take_take, List.length_take]
        congr 1
        simp only
        omega
      · rw [if_neg hnil, lands, lands, List.dropLast_append_of_ne_nil hnil]
    · rw [if_neg hup, if_neg hup, lands, lands, List.append_assoc]

theorem walk_eq (dir path : List Name) : walk here up dir path = lands dir (reduce here up path) := by
  have hfold : ∀ (path : List Name) (r : Nat × List Name),
      path.foldl (step here up) (lands dir r) = lands dir (path.foldl (reduceStep here up) r) := by
    intro path
    induction path with
    | nil =>
        intro r
        rfl
    | cons name rest ih =>
        intro r
        rw [List.foldl_cons, List.foldl_cons, step_lands, ih]
  have hstart : lands dir ((0, []) : Nat × List Name) = dir := by simp [lands]
  have hwalk := hfold path (0, [])
  rw [hstart] at hwalk
  exact hwalk

omit [DecidableEq Name] in
theorem prefix_take_append_iff {l r : List Name} {n : Nat} :
    l <+: l.take n ++ r ↔ l.drop n <+: r := by
  have hcancel : l.take n ++ l.drop n <+: l.take n ++ r ↔ l.drop n <+: r :=
    List.prefix_append_right_inj _
  rwa [List.take_append_drop] at hcancel

/-- **A path stays below a directory exactly when it descends through what it climbed over.** -/
theorem prefix_walk_iff {dir path : List Name} : dir <+: walk here up dir path ↔
    dir.drop (dir.length - (reduce here up path).1) <+: (reduce here up path).2 := by
  rw [walk_eq, lands, prefix_take_append_iff]

theorem walk_append (dir path path' : List Name) :
    walk here up dir (path ++ path') = walk here up (walk here up dir path) path' :=
  List.foldl_append

end Lib.LexicalPath
