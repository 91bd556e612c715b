/-
Trees of named children.

A node is a leaf or a directory; a directory has data of its own and its children in the
order of their names.  Children are added in their place, exchanged in place, and found
by name; the node at a path is found name by name.

Adding and exchanging keep the names in order, and bring in no leaf but their own.
-/
import Mathlib.Order.Defs.LinearOrder
import Mathlib.Data.Option.Basic
import Mathlib.Data.List.Basic

namespace Lib

mutual

/-- A leaf, or a directory with its data and its children. -/
inductive NameTree (κ δ α : Type) where
  | leaf (a : α)
  | dir (d : δ) (children : NameForest κ δ α)

/-- Children, name by name. -/
inductive NameForest (κ δ α : Type) where
  | nil
  | cons (name : κ) (tree : NameTree κ δ α) (rest : NameForest κ δ α)

end

variable {κ δ α β : Type}

/-! ### Operations -/

namespace NameForest

section

variable [DecidableEq κ]

def get (name : κ) : NameForest κ δ α → Option (NameTree κ δ α)
  | .nil => none
  | .cons n tree rest => if n = name then some tree else rest.get name

/-- Exchange the child of a name; without one, nothing changes. -/
def set (name : κ) (new : NameTree κ δ α) : NameForest κ δ α → NameForest κ δ α
  | .nil => .nil
  | .cons n tree rest => if n = name then .cons n new rest else .cons n tree (rest.set name new)

/-- The children of the directory at a path. -/
def childrenAt : List κ → NameForest κ δ α → Option (NameForest κ δ α)
  | [], forest => some forest
  | name :: rest, forest =>
    match forest.get name with
    | some (.dir _ children) => childrenAt rest children
    | _ => none

/-- Change the children of the directory at a path, if there is one. -/
def modifyAt (f : NameForest κ δ α → NameForest κ δ α) :
    List κ → NameForest κ δ α → NameForest κ δ α
  | [], forest => f forest
  | name :: rest, forest =>
    match forest.get name with
    | some (.dir d children) => forest.set name (.dir d (modifyAt f rest children))
    | _ => forest

end

/-- Add a child in front of the first greater name. -/
def add [DecidableEq κ] [LT κ] [DecidableLT κ] (name : κ) (new : NameTree κ δ α) :
    NameForest κ δ α → NameForest κ δ α
  | .nil => .cons name new .nil
  | .cons n tree rest =>
    if name < n then .cons name new (.cons n tree rest)
    else if n = name then .cons n new rest
    else .cons n tree (rest.add name new)

def names : NameForest κ δ α → List κ
  | .nil => []
  | .cons name _ rest => name :: rest.names

end NameForest

namespace NameTree

/-- What stands at a path: a directory's data or a leaf. -/
def look [DecidableEq κ] : List κ → NameTree κ δ α → Option (δ ⊕ α)
  | [], .leaf a => some (.inr a)
  | [], .dir d _ => some (.inl d)
  | _ :: _, .leaf _ => none
  | name :: rest, .dir _ children => (children.get name).bind (look rest)

end NameTree

mutual

def NameTree.map (f : α → β) : NameTree κ δ α → NameTree κ δ β
  | .leaf a => .leaf (f a)
  | .dir d children => .dir d (children.map f)

def NameForest.map (f : α → β) : NameForest κ δ α → NameForest κ δ β
  | .nil => .nil
  | .cons name tree rest => .cons name (tree.map f) (rest.map f)

end

mutual

def NameTree.leaves : NameTree κ δ α → List α
  | .leaf a => [a]
  | .dir _ children => children.leaves

def NameForest.leaves : NameForest κ δ α → List α
  | .nil => []
  | .cons _ tree rest => tree.leaves ++ rest.leaves

end

mutual

/-- The names of every directory are in order, and no name occurs twice. -/
def NameTree.Sorted [LT κ] : NameTree κ δ α → Prop
  | .leaf _ => True
  | .dir _ children => children.Sorted

def NameForest.Sorted [LT κ] : NameForest κ δ α → Prop
  | .nil => True
  | .cons name tree rest => (∀ n ∈ rest.names, name < n) ∧ tree.Sorted ∧ rest.Sorted

end

/-! ### One name -/

namespace NameForest

section

variable [DecidableEq κ]

theorem get_set_ne {name other : κ} (h : name ≠ other) (new : NameTree κ δ α) :
    ∀ forest : NameForest κ δ α, (forest.set name new).get other = forest.get other
  | .nil => rfl
  | .cons n tree rest => by
      unfold set
      by_cases hn : n = name
      · have hother : n ≠ other := hn ▸ h
        rw [if_pos hn, get, get, if_neg hother, if_neg hother]
      · rw [if_neg hn, get, get, get_set_ne h new rest]

theorem get_set_self {name : κ} {old new : NameTree κ δ α} :
    ∀ forest : NameForest κ δ α, forest.get name = some old →
      (forest.set name new).get name = some new
  | .nil, h => by cases h
  | .cons n tree rest, h => by
      unfold set
      by_cases hn : n = name
      · rw [if_pos hn, get, if_pos hn]
      · rw [get, if_neg hn] at h
        rw [if_neg hn, get, if_neg hn]
        exact get_set_self rest h

/-- Putting back what is there. -/
theorem set_get {name : κ} {tree : NameTree κ δ α} :
    ∀ forest : NameForest κ δ α, forest.get name = some tree → forest.set name tree = forest
  | .nil, _ => rfl
  | .cons n first rest, h => by
      unfold set
      by_cases hn : n = name
      · rw [get, if_pos hn] at h
        rw [if_pos hn, Option.some.inj h]
      · rw [get, if_neg hn] at h
        rw [if_neg hn, set_get rest h]

theorem names_set (name : κ) (new : NameTree κ δ α) :
    ∀ forest : NameForest κ δ α, (forest.set name new).names = forest.names
  | .nil => rfl
  | .cons n tree rest => by
      unfold set
      by_cases hn : n = name
      · rw [if_pos hn]
        rfl
      · rw [if_neg hn, names, names, names_set name new rest]

theorem mem_names_iff {name : κ} :
    ∀ forest : NameForest κ δ α, name ∈ forest.names ↔ (forest.get name).isSome
  | .nil => by simp [names, get]
  | .cons n tree rest => by
      unfold names get
      by_cases hn : n = name
      · simp [hn]
      · rw [if_neg hn, List.mem_cons, mem_names_iff rest]
        exact or_iff_right fun h => hn h.symm

end

section

variable [DecidableEq κ] [LT κ] [DecidableLT κ]

theorem get_add_self (name : κ) (new : NameTree κ δ α) :
    ∀ forest : NameForest κ δ α, (forest.add name new).get name = some new
  | .nil => by rw [add, get, if_pos rfl]
  | .cons n tree rest => by
      unfold add
      split
      · rw [get, if_pos rfl]
      · split
        · next hn => rw [get, if_pos hn]
        · next hn => rw [get, if_neg hn, get_add_self name new rest]

theorem get_add_ne {name other : κ} (h : name ≠ other) (new : NameTree κ δ α) :
    ∀ forest : NameForest κ δ α, (forest.add name new).get other = forest.get other
  | .nil => by
      rw [add]
      exact if_neg h
  | .cons n tree rest => by
      unfold add
      split
      · rw [get, if_neg h]
      · split
        · next hn =>
            have hother : n ≠ other := hn ▸ h
            rw [get, get, if_neg hother, if_neg hother]
        · rw [get, get, get_add_ne h new rest]

theorem mem_names_add {name n : κ} {new : NameTree κ δ α} (forest : NameForest κ δ α)
    (h : n ∈ (forest.add name new).names) : n = name ∨ n ∈ forest.names := by
  by_cases hn : name = n
  · exact .inl hn.symm
  · rw [mem_names_iff, get_add_ne hn, ← mem_names_iff] at h
    exact .inr h

end

end NameForest

/-! ### Order -/

theorem NameTree.sorted_dir [LT κ] {d : δ} {children : NameForest κ δ α} (h : children.Sorted) :
    (NameTree.dir d children).Sorted := h

namespace NameForest

section

variable [LT κ]

theorem Sorted.tree {name : κ} {tree : NameTree κ δ α} {rest : NameForest κ δ α}
    (h : (NameForest.cons name tree rest).Sorted) : tree.Sorted := by
  unfold Sorted at h
  exact h.2.1

theorem Sorted.rest {name : κ} {tree : NameTree κ δ α} {rest : NameForest κ δ α}
    (h : (NameForest.cons name tree rest).Sorted) : rest.Sorted := by
  unfold Sorted at h
  exact h.2.2

theorem Sorted.lt {name : κ} {tree : NameTree κ δ α} {rest : NameForest κ δ α}
    (h : (NameForest.cons name tree rest).Sorted) : ∀ n ∈ rest.names, name < n := by
  unfold Sorted at h
  exact h.1

theorem sorted_get [DecidableEq κ] {name : κ} {tree : NameTree κ δ α} :
    ∀ forest : NameForest κ δ α, forest.Sorted → forest.get name = some tree → tree.Sorted
  | .nil, _, h => by cases h
  | .cons n first rest, hsorted, h => by
      by_cases hn : n = name
      · rw [get, if_pos hn] at h
        exact Option.some.inj h ▸ hsorted.tree
      · rw [get, if_neg hn] at h
        exact sorted_get rest hsorted.rest h

theorem sorted_set [DecidableEq κ] {name : κ} {new : NameTree κ δ α} (hnew : new.Sorted) :
    ∀ forest : NameForest κ δ α, forest.Sorted → (forest.set name new).Sorted
  | .nil, h => h
  | .cons n tree rest, h => by
      unfold set
      by_cases hn : n = name
      · rw [if_pos hn, Sorted]
        exact ⟨h.lt, hnew, h.rest⟩
      · rw [if_neg hn, Sorted, names_set]
        exact ⟨h.lt, h.tree, sorted_set hnew rest h.rest⟩

theorem sorted_add [DecidableEq κ] [DecidableLT κ] [Std.Trichotomous (α := κ) (· < ·)]
    [Trans (α := κ) (· < ·) (· < ·) (· < ·)] {name : κ} {new : NameTree κ δ α}
    (hnew : new.Sorted) :
    ∀ forest : NameForest κ δ α, forest.Sorted → (forest.add name new).Sorted
  | .nil, _ => by
      rw [add, Sorted]
      exact ⟨nofun, hnew, trivial⟩
  | .cons n tree rest, h => by
      unfold add
      by_cases hlt : name < n
      · rw [if_pos hlt, Sorted]
        refine ⟨?_, hnew, h⟩
        intro m hm
        rcases List.mem_cons.mp hm with rfl | hm
        · exact hlt
        · exact Std.lt_trans hlt (h.lt m hm)
      · rw [if_neg hlt]
        by_cases hn : n = name
        · rw [if_pos hn, Sorted]
          exact ⟨h.lt, hnew, h.rest⟩
        · rw [if_neg hn, Sorted]
          refine ⟨?_, h.tree, sorted_add hnew rest h.rest⟩
          intro m hm
          rcases mem_names_add rest hm with rfl | hm
          · rcases Std.lt_trichotomy n m with hnm | hnm | hnm
            · exact hnm
            · exact absurd hnm hn
            · exact absurd hnm hlt
          · exact h.lt m hm

end

end NameForest

/-! ### Leaves -/

namespace NameForest

section

variable [DecidableEq κ]

theorem mem_leaves_get {name : κ} {tree : NameTree κ δ α} {a : α} (ha : a ∈ tree.leaves) :
    ∀ forest : NameForest κ δ α, forest.get name = some tree → a ∈ forest.leaves
  | .nil, h => by cases h
  | .cons n first rest, h => by
      unfold leaves
      by_cases hn : n = name
      · rw [get, if_pos hn] at h
        exact List.mem_append_left _ (Option.some.inj h ▸ ha)
      · rw [get, if_neg hn] at h
        exact List.mem_append_right _ (mem_leaves_get ha rest h)

theorem mem_leaves_set {name : κ} {new : NameTree κ δ α} {a : α} :
    ∀ forest : NameForest κ δ α, a ∈ (forest.set name new).leaves →
      a ∈ new.leaves ∨ a ∈ forest.leaves
  | .nil, h => by cases h
  | .cons n tree rest, h => by
      unfold set at h
      unfold leaves
      by_cases hn : n = name
      · rw [if_pos hn, leaves] at h
        rcases List.mem_append.mp h with h | h
        · exact .inl h
        · exact .inr (List.mem_append_right _ h)
      · rw [if_neg hn, leaves] at h
        rcases List.mem_append.mp h with h | h
        · exact .inr (List.mem_append_left _ h)
        · exact (mem_leaves_set rest h).imp_right (List.mem_append_right _)

theorem mem_leaves_add [LT κ] [DecidableLT κ] {name : κ} {new : NameTree κ δ α} {a : α} :
    ∀ forest : NameForest κ δ α, a ∈ (forest.add name new).leaves →
      a ∈ new.leaves ∨ a ∈ forest.leaves
  | .nil, h => .inl (by simpa [add, leaves] using h)
  | .cons n tree rest, h => by
      unfold add at h
      by_cases hlt : name < n
      · rw [if_pos hlt, leaves] at h
        exact List.mem_append.mp h
      · rw [if_neg hlt] at h
        rw [leaves]
        by_cases hn : n = name
        · rw [if_pos hn, leaves] at h
          rcases List.mem_append.mp h with h | h
          · exact .inl h
          · exact .inr (List.mem_append_right _ h)
        · rw [if_neg hn, leaves] at h
          rcases List.mem_append.mp h with h | h
          · exact .inr (List.mem_append_left _ h)
          · exact (mem_leaves_add rest h).imp_right (List.mem_append_right _)

theorem mem_leaves_childrenAt {a : α} {children : NameForest κ δ α} (ha : a ∈ children.leaves) :
    ∀ (path : List κ) (forest : NameForest κ δ α), forest.childrenAt path = some children →
      a ∈ forest.leaves := by
  intro path
  induction path with
  | nil =>
      intro forest h
      cases h
      exact ha
  | cons name rest ih =>
      intro forest h
      rw [childrenAt] at h
      cases hget : forest.get name with
      | none =>
          rw [hget] at h
          cases h
      | some tree =>
          rw [hget] at h
          cases tree with
          | leaf b => cases h
          | dir d others =>
              have hbelow : a ∈ (NameTree.dir d others).leaves := ih others h
              exact mem_leaves_get hbelow forest hget

theorem sorted_childrenAt [LT κ] {children : NameForest κ δ α} :
    ∀ (path : List κ) (forest : NameForest κ δ α), forest.Sorted →
      forest.childrenAt path = some children → children.Sorted := by
  intro path
  induction path with
  | nil =>
      intro forest hsorted h
      cases h
      exact hsorted
  | cons name rest ih =>
      intro forest hsorted h
      rw [childrenAt] at h
      cases hget : forest.get name with
      | none =>
          rw [hget] at h
          cases h
      | some tree =>
          rw [hget] at h
          cases tree with
          | leaf b => cases h
          | dir d others => exact ih others (sorted_get forest hsorted hget) h

theorem mem_leaves_modifyAt {change : NameForest κ δ α → NameForest κ δ α} {new : List α}
    (h : ∀ forest, ∀ a ∈ (change forest).leaves, a ∈ new ∨ a ∈ forest.leaves) {a : α} :
    ∀ (path : List κ) (forest : NameForest κ δ α), a ∈ (forest.modifyAt change path).leaves →
      a ∈ new ∨ a ∈ forest.leaves := by
  intro path
  induction path with
  | nil =>
      intro forest ha
      exact h forest a ha
  | cons name rest ih =>
      intro forest ha
      rw [modifyAt] at ha
      cases hget : forest.get name with
      | none =>
          rw [hget] at ha
          exact .inr ha
      | some tree =>
          rw [hget] at ha
          cases tree with
          | leaf leaf => exact .inr ha
          | dir d children =>
              rcases mem_leaves_set forest ha with ha | ha
              · exact (ih children ha).imp_right fun ha => mem_leaves_get ha forest hget
              · exact .inr ha

/-- A change that keeps the order keeps it below a path. -/
theorem sorted_modifyAt [LT κ] {change : NameForest κ δ α → NameForest κ δ α}
    (h : ∀ forest : NameForest κ δ α, forest.Sorted → (change forest).Sorted) :
    ∀ (path : List κ) (forest : NameForest κ δ α), forest.Sorted →
      (forest.modifyAt change path).Sorted := by
  intro path
  induction path with
  | nil =>
      intro forest hsorted
      exact h forest hsorted
  | cons name rest ih =>
      intro forest hsorted
      rw [modifyAt]
      cases hget : forest.get name with
      | none => exact hsorted
      | some tree =>
          cases tree with
          | leaf leaf => exact hsorted
          | dir d children =>
              have hchildren : children.Sorted := sorted_get forest hsorted hget
              exact sorted_set (NameTree.sorted_dir (ih children hchildren)) forest hsorted

end

end NameForest

end Lib
