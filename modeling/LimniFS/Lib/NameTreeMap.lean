/-
Relabelled trees, what stands at a path, and how often a leaf occurs.

Relabelling the leaves of a tree commutes with every operation on it.  A change at one
name of one directory changes what stands at one path, and nothing else
(`look_modifyAt`).

Adding a child, exchanging one and changing one below a path bring in the leaves of what is new,
each as often as it occurs there, and no others.
-/
import Mathlib.Data.List.Perm.Subperm
import LimniFS.Lib.NameTree

namespace Lib

variable {κ δ α β : Type}

namespace NameForest

/-! ### Relabelling -/

section

variable (f : α → β)

theorem names_map : ∀ forest : NameForest κ δ α, (forest.map f).names = forest.names
  | .nil => rfl
  | .cons name _ rest => congrArg (name :: ·) (names_map rest)

variable [DecidableEq κ]

theorem get_map (name : κ) :
    ∀ forest : NameForest κ δ α, (forest.map f).get name = (forest.get name).map (·.map f)
  | .nil => rfl
  | .cons n tree rest => by
      rw [map, get, get]
      by_cases hn : n = name
      · rw [if_pos hn, if_pos hn]
        rfl
      · rw [if_neg hn, if_neg hn, get_map name rest]

theorem set_map (name : κ) (new : NameTree κ δ α) :
    ∀ forest : NameForest κ δ α, (forest.map f).set name (new.map f) = (forest.set name new).map f
  | .nil => rfl
  | .cons n tree rest => by
      rw [map, set, set]
      by_cases hn : n = name
      · rw [if_pos hn, if_pos hn, map]
      · rw [if_neg hn, if_neg hn, map, set_map name new rest]

theorem add_map [LT κ] [DecidableLT κ] (name : κ) (new : NameTree κ δ α) :
    ∀ forest : NameForest κ δ α, (forest.map f).add name (new.map f) = (forest.add name new).map f
  | .nil => rfl
  | .cons n tree rest => by
      rw [map, add, add]
      by_cases hlt : name < n
      · rw [if_pos hlt, if_pos hlt, map, map]
      · rw [if_neg hlt, if_neg hlt]
        by_cases hn : n = name
        · rw [if_pos hn, if_pos hn, map]
        · rw [if_neg hn, if_neg hn, map, add_map name new rest]

theorem childrenAt_map : ∀ (path : List κ) (forest : NameForest κ δ α),
    (forest.map f).childrenAt path = (forest.childrenAt path).map (·.map f) := by
  intro path
  induction path with
  | nil =>
      intro forest
      rfl
  | cons name rest ih =>
      intro forest
      rw [childrenAt, childrenAt, get_map]
      cases forest.get name with
      | none => rfl
      | some tree =>
          cases tree with
          | leaf a => rfl
          | dir d children => exact ih children

theorem modifyAt_map {change : NameForest κ δ α → NameForest κ δ α}
    {change' : NameForest κ δ β → NameForest κ δ β}
    (h : ∀ forest, change' (forest.map f) = (change forest).map f) :
    ∀ (path : List κ) (forest : NameForest κ δ α),
      (forest.map f).modifyAt change' path = (forest.modifyAt change path).map f := by
  intro path
  induction path with
  | nil =>
      intro forest
      exact h forest
  | cons name rest ih =>
      intro forest
      rw [modifyAt, modifyAt, get_map]
      cases forest.get name with
      | none => rfl
      | some tree =>
          cases tree with
          | leaf a => rfl
          | dir d children =>
              have hset := set_map f name (.dir d (children.modifyAt change rest)) forest
              rw [NameTree.map, ← ih children] at hset
              exact hset

end

end NameForest

section

variable {f g : α → β}

mutual

theorem NameTree.leaves_map (f : α → β) :
    ∀ tree : NameTree κ δ α, (tree.map f).leaves = tree.leaves.map f
  | .leaf _ => rfl
  | .dir _ children => NameForest.leaves_map f children

theorem NameForest.leaves_map (f : α → β) :
    ∀ forest : NameForest κ δ α, (forest.map f).leaves = forest.leaves.map f
  | .nil => rfl
  | .cons name tree rest => by
      rw [NameForest.map, NameForest.leaves, NameForest.leaves, List.map_append,
        NameTree.leaves_map f tree, NameForest.leaves_map f rest]

end

mutual

theorem NameTree.sorted_map [LT κ] (f : α → β) :
    ∀ tree : NameTree κ δ α, tree.Sorted → (tree.map f).Sorted
  | .leaf _, _ => trivial
  | .dir _ children, h => NameForest.sorted_map f children h

theorem NameForest.sorted_map [LT κ] (f : α → β) :
    ∀ forest : NameForest κ δ α, forest.Sorted → (forest.map f).Sorted
  | .nil, _ => trivial
  | .cons name tree rest, h => by
      unfold NameForest.map NameForest.Sorted
      rw [NameForest.names_map]
      exact ⟨h.lt, NameTree.sorted_map f tree h.tree, NameForest.sorted_map f rest h.rest⟩

end

mutual

theorem NameTree.map_congr :
    ∀ tree : NameTree κ δ α, (∀ a ∈ tree.leaves, f a = g a) → tree.map f = tree.map g
  | .leaf a, h => congrArg NameTree.leaf (h a List.mem_cons_self)
  | .dir d children, h => congrArg (NameTree.dir d) (NameForest.map_congr children h)

theorem NameForest.map_congr :
    ∀ forest : NameForest κ δ α, (∀ a ∈ forest.leaves, f a = g a) → forest.map f = forest.map g
  | .nil, _ => rfl
  | .cons name tree rest, h => by
      unfold NameForest.leaves at h
      rw [NameForest.map, NameForest.map,
        NameTree.map_congr tree fun a ha => h a (List.mem_append_left _ ha),
        NameForest.map_congr rest fun a ha => h a (List.mem_append_right _ ha)]

end

mutual

theorem NameTree.map_map {γ : Type} (f : α → β) (g : β → γ) :
    ∀ tree : NameTree κ δ α, (tree.map f).map g = tree.map fun a => g (f a)
  | .leaf _ => rfl
  | .dir d children => congrArg (NameTree.dir d) (NameForest.map_map f g children)

theorem NameForest.map_map {γ : Type} (f : α → β) (g : β → γ) :
    ∀ forest : NameForest κ δ α, (forest.map f).map g = forest.map fun a => g (f a)
  | .nil => rfl
  | .cons name tree rest => by
      rw [NameForest.map, NameForest.map, NameForest.map, NameTree.map_map f g tree,
        NameForest.map_map f g rest]

end

end

/-! ### What stands at a path -/

section

variable [DecidableEq κ]

theorem NameTree.mem_leaves_look {a : α} : ∀ (path : List κ) (tree : NameTree κ δ α),
    tree.look path = some (.inr a) → a ∈ tree.leaves := by
  intro path
  induction path with
  | nil =>
      intro tree h
      cases tree with
      | leaf b =>
          cases h
          exact List.mem_cons_self
      | dir d children => cases h
  | cons name rest ih =>
      intro tree h
      cases tree with
      | leaf b => cases h
      | dir d children =>
          rw [NameTree.look] at h
          obtain ⟨child, hget, hlook⟩ := Option.bind_eq_some_iff.mp h
          exact NameForest.mem_leaves_get (ih child hlook) children hget

mutual

theorem NameTree.look_mem_leaves [LT κ] [Std.Irrefl (α := κ) (· < ·)] {a : α} :
    ∀ tree : NameTree κ δ α, tree.Sorted → a ∈ tree.leaves → ∃ path, tree.look path = some (.inr a)
  | .leaf b, _, h => by
      cases List.mem_singleton.mp h
      exact ⟨[], rfl⟩
  | .dir d children, hsorted, h => by
      obtain ⟨name, tree, path, hget, hlook⟩ := NameForest.look_mem_leaves children hsorted h
      refine ⟨name :: path, ?_⟩
      rw [NameTree.look, hget]
      exact hlook

theorem NameForest.look_mem_leaves [LT κ] [Std.Irrefl (α := κ) (· < ·)] {a : α} :
    ∀ forest : NameForest κ δ α, forest.Sorted → a ∈ forest.leaves →
      ∃ name tree path, forest.get name = some tree ∧ tree.look path = some (.inr a)
  | .nil, _, h => by cases h
  | .cons name tree rest, hsorted, h => by
      unfold NameForest.leaves at h
      rcases List.mem_append.mp h with h | h
      · obtain ⟨path, hlook⟩ := NameTree.look_mem_leaves tree hsorted.tree h
        exact ⟨name, tree, path, if_pos rfl, hlook⟩
      · obtain ⟨other, found, path, hget, hlook⟩ :=
          NameForest.look_mem_leaves rest hsorted.rest h
        refine ⟨other, found, path, ?_, hlook⟩
        have hmem : other ∈ rest.names := (NameForest.mem_names_iff rest).mpr (by rw [hget]; rfl)
        have hne : name ≠ other := by
          intro heq
          exact Std.Irrefl.irrefl other (heq ▸ hsorted.lt other hmem)
        rw [NameForest.get, if_neg hne]
        exact hget

end

theorem NameTree.look_map (f : α → β) : ∀ (path : List κ) (tree : NameTree κ δ α),
    (tree.map f).look path = (tree.look path).map (Sum.map id f) := by
  intro path
  induction path with
  | nil =>
      intro tree
      cases tree with
      | leaf a => rfl
      | dir d children => rfl
  | cons name rest ih =>
      intro tree
      cases tree with
      | leaf a => rfl
      | dir d children =>
          rw [NameTree.map, NameTree.look, NameTree.look, NameForest.get_map]
          cases children.get name with
          | none => rfl
          | some child => exact ih child

theorem NameTree.look_append_singleton : ∀ (parent : List κ) (leaf : κ) (d : δ)
    (forest : NameForest κ δ α), (NameTree.dir d forest).look (parent ++ [leaf])
      = ((forest.childrenAt parent).bind (·.get leaf)).bind (NameTree.look []) := by
  intro parent
  induction parent with
  | nil =>
      intro leaf d forest
      rfl
  | cons name rest ih =>
      intro leaf d forest
      rw [List.cons_append, NameTree.look, NameForest.childrenAt]
      cases forest.get name with
      | none => rfl
      | some tree =>
          cases tree with
          | dir e children => exact ih leaf e children
          | leaf a =>
              cases rest with
              | nil => rfl
              | cons n more => rfl

/-- A change at one name of the directory at a path is a change at one path. -/
theorem NameForest.look_modifyAt {change : NameForest κ δ α → NameForest κ δ α} {leaf : κ}
    {v : Option (δ ⊕ α)} {found : NameForest κ δ α}
    (h : ∀ name path, ((change found).get name).bind (NameTree.look path)
      = if name :: path = [leaf] then v else (found.get name).bind (NameTree.look path)) :
    ∀ (parent : List κ) (forest : NameForest κ δ α) (d : δ), forest.childrenAt parent = some found →
      ∀ q, (NameTree.dir d (forest.modifyAt change parent)).look q
        = if q = parent ++ [leaf] then v else (NameTree.dir d forest).look q := by
  intro parent
  induction parent with
  | nil =>
      intro forest d hfound q
      cases hfound
      cases q with
      | nil => rfl
      | cons name path => exact h name path
  | cons name rest ih =>
      intro forest d hfound q
      rw [NameForest.childrenAt] at hfound
      rw [NameForest.modifyAt]
      cases hget : forest.get name with
      | none =>
          rw [hget] at hfound
          cases hfound
      | some tree =>
          rw [hget] at hfound
          cases tree with
          | leaf a => cases hfound
          | dir e children =>
              cases q with
              | nil => rfl
              | cons n path =>
                  rw [NameTree.look, NameTree.look]
                  by_cases hn : name = n
                  · subst hn
                    rw [NameForest.get_set_self forest hget, hget, Option.bind_some,
                      Option.bind_some, ih children e hfound path]
                    simp only [List.cons_append, List.cons.injEq, true_and]
                  · rw [NameForest.get_set_ne hn, if_neg]
                    rw [List.cons_append, List.cons.injEq]
                    exact fun heq => hn heq.1.symm

end

end Lib

namespace Lib.NameForest

variable {κ δ α : Type} [DecidableEq κ] {name : κ}

theorem leaves_add_subperm [LT κ] [DecidableLT κ] (new : NameTree κ δ α) :
    ∀ forest : NameForest κ δ α,
      (forest.add name new).leaves.Subperm (new.leaves ++ forest.leaves)
  | .nil => by
      rw [add]
      exact List.Subperm.refl _
  | .cons n tree rest => by
      unfold add
      by_cases hlt : name < n
      · rw [if_pos hlt, leaves]
      · rw [if_neg hlt]
        by_cases hn : n = name
        · rw [if_pos hn, leaves, leaves]
          exact (List.Subperm.refl _).append (List.sublist_append_right _ _).subperm
        · rw [if_neg hn, leaves, leaves]
          have hrest := (List.Subperm.refl tree.leaves).append (leaves_add_subperm new rest)
          exact hrest.trans (List.perm_append_comm_assoc ..).subperm

theorem leaves_set_subperm {old new : NameTree κ δ α} {extra : List α}
    (hnew : new.leaves.Subperm (extra ++ old.leaves)) :
    ∀ forest : NameForest κ δ α, forest.get name = some old →
      (forest.set name new).leaves.Subperm (extra ++ forest.leaves)
  | .nil, h => by cases h
  | .cons n tree rest, h => by
      unfold set
      by_cases hn : n = name
      · rw [get, if_pos hn] at h
        rw [if_pos hn, leaves, leaves, Option.some.inj h, ← List.append_assoc]
        exact hnew.append (List.Subperm.refl _)
      · rw [get, if_neg hn] at h
        rw [if_neg hn, leaves, leaves]
        have hrest := (List.Subperm.refl tree.leaves).append (leaves_set_subperm hnew rest h)
        exact hrest.trans (List.perm_append_comm_assoc ..).subperm

theorem leaves_modifyAt_subperm {change : NameForest κ δ α → NameForest κ δ α} {extra : List α} :
    ∀ (path : List κ) (forest : NameForest κ δ α),
      (∀ children, forest.childrenAt path = some children →
        (change children).leaves.Subperm (extra ++ children.leaves)) →
      (forest.modifyAt change path).leaves.Subperm (extra ++ forest.leaves) := by
  intro path
  induction path with
  | nil =>
      intro forest h
      exact h forest rfl
  | cons name rest ih =>
      intro forest h
      have hsame : forest.leaves.Subperm (extra ++ forest.leaves) :=
        (List.sublist_append_right _ _).subperm
      rw [modifyAt]
      cases hget : forest.get name with
      | none => exact hsame
      | some tree =>
          cases tree with
          | leaf a => exact hsame
          | dir d children =>
              refine leaves_set_subperm ?_ forest hget
              refine ih children fun below hbelow => h below ?_
              rw [childrenAt, hget]
              exact hbelow

end Lib.NameForest
