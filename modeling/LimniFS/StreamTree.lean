/-
What the calls do to the tree.

Walking to the parent of a name adds implicit directories and nothing else: no leaf
appears, the names stay in order, and what stood at a path still stands there
(`look_makeParents`).  Where all directories of the walk are there already, the tree does
not change (`makeParents_there`).  Putting an entry in its place changes what stands at
one path.

None of this looks at the leaves, so all of it commutes with relabelling them.
-/
import LimniFS.Lib.NameTreeMap
import LimniFS.StreamCalls

namespace LimniFS

open Lib

variable {ι κ : Type}

/-! ### Making the parents -/

section

variable (name : Bytes)

theorem makeParents_map (f : StreamLeaf ι → StreamLeaf κ) : ∀ (path : Path) (tree : StreamDir ι),
    makeParents name path (tree.map f)
      = ((makeParents name path tree).1.map f, (makeParents name path tree).2) := by
  intro path
  induction path with
  | nil =>
      intro tree
      rfl
  | cons component rest ih =>
      intro tree
      unfold makeParents
      by_cases hbad : badComponent component
      · rw [if_pos hbad, if_pos hbad]
      · rw [if_neg hbad, if_neg hbad, NameForest.get_map]
        cases tree.get component with
        | none =>
            have hnil : makeParents name rest .nil = _ := ih .nil
            simp only [Option.map_none, hnil, ← NameForest.add_map]
            rfl
        | some node =>
            cases node with
            | leaf leaf => rfl
            | dir info children =>
                simp only [Option.map_some, NameTree.map, ih children, ← NameForest.set_map]

theorem mem_leaves_makeParents {leaf : StreamLeaf ι} : ∀ (path : Path) (tree : StreamDir ι),
    leaf ∈ (makeParents name path tree).1.leaves → leaf ∈ tree.leaves := by
  intro path
  induction path with
  | nil =>
      intro tree h
      exact h
  | cons component rest ih =>
      intro tree h
      unfold makeParents at h
      by_cases hbad : badComponent component
      · rw [if_pos hbad] at h
        exact h
      · rw [if_neg hbad] at h
        cases hget : tree.get component with
        | none =>
            rw [hget] at h
            rcases NameForest.mem_leaves_add tree h with h | h
            · cases ih .nil h
            · exact h
        | some node =>
            rw [hget] at h
            cases node with
            | leaf other => exact h
            | dir info children =>
                rcases NameForest.mem_leaves_set tree h with h | h
                · exact NameForest.mem_leaves_get (ih children h) tree hget
                · exact h

theorem sorted_makeParents : ∀ (path : Path) (tree : StreamDir ι), tree.Sorted →
    (makeParents name path tree).1.Sorted := by
  intro path
  induction path with
  | nil =>
      intro tree h
      exact h
  | cons component rest ih =>
      intro tree h
      unfold makeParents
      by_cases hbad : badComponent component
      · rw [if_pos hbad]
        exact h
      · rw [if_neg hbad]
        cases hget : tree.get component with
        | none => exact NameForest.sorted_add (NameTree.sorted_dir (ih .nil trivial)) tree h
        | some node =>
            cases node with
            | leaf other => exact h
            | dir info children =>
                have hchildren : children.Sorted := NameForest.sorted_get tree h hget
                exact NameForest.sorted_set (NameTree.sorted_dir (ih children hchildren)) tree h

/-- Does the walk find all directories it comes to? -/
def parentsThere : Path → StreamDir ι → Bool
  | [], _ => true
  | component :: rest, dir =>
    if badComponent component then true
    else
      match dir.get component with
      | none => false
      | some (.dir _ children) => parentsThere rest children
      | some (.leaf _) => true

theorem makeParents_there : ∀ (path : Path) (tree : StreamDir ι), parentsThere path tree = true →
    (makeParents name path tree).1 = tree := by
  intro path
  induction path with
  | nil =>
      intro tree _
      rfl
  | cons component rest ih =>
      intro tree h
      unfold parentsThere at h
      unfold makeParents
      by_cases hbad : badComponent component
      · rw [if_pos hbad]
      · rw [if_neg hbad] at h ⊢
        cases hget : tree.get component with
        | none =>
            rw [hget] at h
            cases h
        | some node =>
            rw [hget] at h
            cases node with
            | leaf other => rfl
            | dir info children =>
                simp only [ih children h]
                exact NameForest.set_get tree hget

theorem childrenAt_makeParents : ∀ (path : Path) (tree : StreamDir ι),
    (makeParents name path tree).2 = .ok () →
    ((makeParents name path tree).1.childrenAt path).isSome := by
  intro path
  induction path with
  | nil =>
      intro tree _
      rfl
  | cons component rest ih =>
      intro tree hok
      unfold makeParents at hok ⊢
      unfold NameForest.childrenAt
      by_cases hbad : badComponent component
      · rw [if_pos hbad] at hok
        cases hok
      · rw [if_neg hbad] at hok ⊢
        cases hget : tree.get component with
        | none =>
            rw [hget] at hok
            simp only [NameForest.get_add_self]
            exact ih .nil hok
        | some node =>
            rw [hget] at hok
            cases node with
            | leaf other => cases hok
            | dir old children =>
                simp only [NameForest.get_set_self tree hget]
                exact ih children hok

end

/-! ### The place of an entry -/

theorem nameComponents_ne_nil (name : Bytes) : nameComponents name ≠ [] := by
  unfold nameComponents
  cases name with
  | nil => exact List.cons_ne_nil _ _
  | cons b rest =>
      rw [PathText.split]
      split
      · exact List.cons_ne_nil _ _
      · split <;> exact List.cons_ne_nil _ _

/-- The directory of a name. -/
def parentPath (name : Bytes) : Path := (nameComponents name).dropLast

section

variable {name : Bytes} {tree : StreamDir ι} {slot : Slot}

theorem descend_fst (name : Bytes) (tree : StreamDir ι) :
    (descend name tree).1 = tree ∨
      (descend name tree).1 = (makeParents name (parentPath name) tree).1 := by
  unfold descend parentPath
  split
  · exact .inl rfl
  · split
    · exact .inl rfl
    · right
      simp only
      cases (makeParents name (nameComponents name).dropLast tree).2 with
      | error e => rfl
      | ok _ =>
          simp only
          split <;> rfl

theorem descend_ok (h : (descend name tree).2 = .ok slot) :
    (makeParents name (parentPath name) tree).2 = .ok () ∧
      (descend name tree).1 = (makeParents name (parentPath name) tree).1 ∧
      slot.parent = parentPath name ∧ slot.parent ++ [slot.leaf] = nameComponents name := by
  unfold descend at h ⊢
  unfold parentPath
  by_cases hslash : name = [] ∨ name.head? = some 0x2F ∨ name.getLast? = some 0x2F
  · rw [if_pos hslash] at h
    cases h
  · rw [if_neg hslash] at h ⊢
    by_cases hbytes : 0x5C ∈ name ∨ 0x00 ∈ name
    · rw [if_pos hbytes] at h
      cases h
    · rw [if_neg hbytes] at h ⊢
      simp only at h ⊢
      cases hmade : (makeParents name (nameComponents name).dropLast tree).2 with
      | error e =>
          rw [hmade] at h
          cases h
      | ok u =>
          rw [hmade] at h
          simp only at h ⊢
          by_cases hbad : badComponent ((nameComponents name).getLastD [])
          · rw [if_pos hbad] at h
            cases h
          · rw [if_neg hbad] at h ⊢
            cases h
            refine ⟨trivial, rfl, rfl, ?_⟩
            rw [List.getLastD_eq_getLast?, List.getLast?_eq_some_getLast (nameComponents_ne_nil name)]
            exact List.dropLast_append_getLast (nameComponents_ne_nil name)

theorem newSlot_fst (name : Bytes) (tree : StreamDir ι) :
    (newSlot name tree).1 = (descend name tree).1 := by
  unfold newSlot
  simp only
  cases (descend name tree).2 with
  | error e => rfl
  | ok slot =>
      simp only
      split <;> rfl

theorem newSlot_ok (h : (newSlot name tree).2 = .ok slot) :
    (descend name tree).2 = .ok slot ∧ slot.get (descend name tree).1 = none := by
  unfold newSlot at h
  simp only at h
  cases hdescend : (descend name tree).2 with
  | error e =>
      rw [hdescend] at h
      cases h
  | ok found =>
      rw [hdescend] at h
      simp only at h
      by_cases hthere : (found.get (descend name tree).1).isSome
      · rw [if_pos hthere] at h
        cases h
      · rw [if_neg hthere] at h
        cases h
        exact ⟨rfl, Option.not_isSome_iff_eq_none.mp hthere⟩

end

/-! ### Order, leaves and labels -/

section

variable (name : Bytes) (tree : StreamDir ι)

theorem sorted_descend (h : tree.Sorted) : (descend name tree).1.Sorted := by
  rcases descend_fst name tree with heq | heq
  · rw [heq]
    exact h
  · rw [heq]
    exact sorted_makeParents name _ tree h

theorem mem_leaves_descend {leaf : StreamLeaf ι} (h : leaf ∈ (descend name tree).1.leaves) :
    leaf ∈ tree.leaves := by
  rcases descend_fst name tree with heq | heq
  · rw [heq] at h
    exact h
  · rw [heq] at h
    exact mem_leaves_makeParents name _ tree h

theorem descend_there (h : parentsThere (parentPath name) tree = true) :
    (descend name tree).1 = tree := by
  rcases descend_fst name tree with heq | heq
  · exact heq
  · rw [heq, makeParents_there name _ tree h]

theorem descend_map (f : StreamLeaf ι → StreamLeaf κ) :
    descend name (tree.map f) = ((descend name tree).1.map f, (descend name tree).2) := by
  unfold descend
  split
  · rfl
  · split
    · rfl
    · simp only [makeParents_map]
      cases (makeParents name (nameComponents name).dropLast tree).2 with
      | error e => rfl
      | ok _ =>
          simp only
          split <;> rfl

theorem Slot.get_map (slot : Slot) (f : StreamLeaf ι → StreamLeaf κ) :
    slot.get (tree.map f) = (slot.get tree).map (·.map f) := by
  unfold Slot.get
  rw [NameForest.childrenAt_map]
  cases tree.childrenAt slot.parent with
  | none => rfl
  | some children => exact NameForest.get_map f slot.leaf children

theorem newSlot_map (f : StreamLeaf ι → StreamLeaf κ) :
    newSlot name (tree.map f) = ((newSlot name tree).1.map f, (newSlot name tree).2) := by
  unfold newSlot
  rw [descend_map]
  simp only
  cases (descend name tree).2 with
  | error e => rfl
  | ok slot =>
      simp only [Slot.get_map, Option.isSome_map]
      split <;> rfl

variable {tree} {slot : Slot} {node : StreamNode ι}

theorem sorted_put (hnode : node.Sorted) (h : tree.Sorted) : (slot.put node tree).Sorted :=
  NameForest.sorted_modifyAt (NameForest.sorted_add hnode) slot.parent tree h

theorem mem_leaves_put {leaf : StreamLeaf ι} (h : leaf ∈ (slot.put node tree).leaves) :
    leaf ∈ node.leaves ∨ leaf ∈ tree.leaves :=
  NameForest.mem_leaves_modifyAt (fun forest _ ha => NameForest.mem_leaves_add forest ha)
    slot.parent tree h

variable (tree node)

theorem Slot.put_map (f : StreamLeaf ι → StreamLeaf κ) :
    slot.put (node.map f) (tree.map f) = (slot.put node tree).map f :=
  NameForest.modifyAt_map f (NameForest.add_map f slot.leaf node) slot.parent tree

end

/-! ### Directories -/

section

variable (name : Bytes) (info : EntryMeta) (tree : StreamDir ι)

/-- What becomes of a directory: refused, made, stamped, or another entry has its place. -/
inductive PlacedDir : StreamDir ι × Except WriteError Unit → Prop
  | refused {e : WriteError} (hslot : (descend name tree).2 = .error e) :
      PlacedDir ((descend name tree).1, .error e)
  | made {slot : Slot} (hslot : (descend name tree).2 = .ok slot)
      (hnone : slot.get (descend name tree).1 = none) :
      PlacedDir (slot.put (.dir info .nil) (descend name tree).1, .ok ())
  | stamped {slot : Slot} {old : EntryMeta} {children : StreamDir ι}
      (hslot : (descend name tree).2 = .ok slot)
      (hdir : slot.get (descend name tree).1 = some (.dir old children)) :
      PlacedDir ((descend name tree).1.modifyAt (·.set slot.leaf
        (.dir { old with mtimeNs := info.mtimeNs } children)) slot.parent, .ok ())
  | taken {slot : Slot} {leaf : StreamLeaf ι} (hslot : (descend name tree).2 = .ok slot)
      (hleaf : slot.get (descend name tree).1 = some (.leaf leaf)) :
      PlacedDir ((descend name tree).1, .error (nameConflict name))

theorem placeDir_placed : PlacedDir name info tree (placeDir name info tree) := by
  unfold placeDir
  cases hslot : (descend name tree).2 with
  | error e =>
      simp only [hslot]
      exact .refused hslot
  | ok slot =>
      simp only [hslot]
      cases hget : slot.get (descend name tree).1 with
      | none => exact .made hslot hget
      | some node =>
          cases node with
          | dir old children => exact .stamped hslot hget
          | leaf leaf => exact .taken hslot hget

variable {name info tree}

theorem PlacedDir.sorted {placed : StreamDir ι × Except WriteError Unit}
    (h : PlacedDir name info tree placed) (hsorted : tree.Sorted) : placed.1.Sorted := by
  have hmade := sorted_descend name tree hsorted
  cases h with
  | refused _ => exact hmade
  | made _ _ => exact sorted_put (NameTree.sorted_dir trivial) hmade
  | @stamped slot old children _ hdir =>
      obtain ⟨siblings, hsiblings, hget⟩ := Option.bind_eq_some_iff.mp hdir
      have hchildren : children.Sorted := NameForest.sorted_get siblings
        (NameForest.sorted_childrenAt _ _ hmade hsiblings) hget
      exact NameForest.sorted_modifyAt
        (NameForest.sorted_set (NameTree.sorted_dir hchildren)) slot.parent _ hmade
  | taken _ _ => exact hmade

theorem PlacedDir.mem_leaves {placed : StreamDir ι × Except WriteError Unit}
    (h : PlacedDir name info tree placed) {leaf : StreamLeaf ι} (hleaf : leaf ∈ placed.1.leaves) :
    leaf ∈ tree.leaves := by
  cases h with
  | refused _ => exact mem_leaves_descend name tree hleaf
  | made _ _ =>
      rcases mem_leaves_put hleaf with hleaf | hleaf
      · cases hleaf
      · exact mem_leaves_descend name tree hleaf
  | @stamped slot old children _ hdir =>
      obtain ⟨siblings, hsiblings, hget⟩ := Option.bind_eq_some_iff.mp hdir
      apply mem_leaves_descend name tree
      rcases NameForest.mem_leaves_modifyAt
        (fun forest _ ha => NameForest.mem_leaves_set forest ha) slot.parent _ hleaf with hnew | hold
      · have hbelow : leaf ∈ (NameTree.dir old children).leaves := hnew
        exact NameForest.mem_leaves_childrenAt (NameForest.mem_leaves_get hbelow siblings hget) _ _
          hsiblings
      · exact hold
  | taken _ _ => exact mem_leaves_descend name tree hleaf

theorem placeDir_map (f : StreamLeaf ι → StreamLeaf κ) :
    placeDir name info (tree.map f)
      = ((placeDir name info tree).1.map f, (placeDir name info tree).2) := by
  unfold placeDir
  rw [descend_map]
  simp only
  cases (descend name tree).2 with
  | error e => rfl
  | ok slot =>
      simp only [Slot.get_map]
      cases slot.get (descend name tree).1 with
      | none => exact congrArg (·, Except.ok ()) (Slot.put_map _ (.dir info .nil) f)
      | some node =>
          cases node with
          | leaf leaf => rfl
          | dir old children =>
              have hset := NameForest.modifyAt_map f
                (NameForest.set_map f slot.leaf (.dir { old with mtimeNs := info.mtimeNs } children))
                slot.parent (descend name tree).1
              exact congrArg (·, Except.ok ()) hset

end

end LimniFS
