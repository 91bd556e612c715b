/-
What stands where.

The contents of a stream writer are looked at path by path.  A call that succeeds changes
the place of its entry and makes the directories on the way to it that are missing; every
other place is as it was (`look_run`).  A directory that is there keeps its identity and
takes over the time only.
-/
import LimniFS.StreamContents

namespace LimniFS

open Lib

/-! ### Directories on the way -/

section

variable {ι : Type} (name : Bytes)

/-- What an implicit directory on the way to `path` shows at `q`. -/
def onTheWay (path q : Path) : Option (EntryMeta ⊕ StreamLeaf ι) :=
  if q <+: path then some (.inl .implicit) else none

theorem onTheWay_cons (component n : Bytes) (rest p : Path) :
    (onTheWay (component :: rest) (n :: p) : Option (EntryMeta ⊕ StreamLeaf ι))
      = if component = n then onTheWay rest p else none := by
  unfold onTheWay
  by_cases hn : component = n
  · rw [if_pos hn, hn]
    simp only [List.prefix_cons_inj]
  · rw [if_neg hn, if_neg]
    rw [List.cons_prefix_cons]
    exact fun h => hn h.1.symm

theorem look_makeParents : ∀ (path : Path) (tree : StreamDir ι) (info : EntryMeta),
    (makeParents name path tree).2 = .ok () →
    ∀ q, (NameTree.dir info (makeParents name path tree).1).look q
      = ((NameTree.dir info tree).look q).or (onTheWay path q) := by
  intro path
  induction path with
  | nil =>
      intro tree info _ q
      cases q with
      | nil => rfl
      | cons n p => exact (Option.or_none).symm
  | cons component rest ih =>
      intro tree info hok q
      cases q with
      | nil =>
          unfold NameTree.look
          rfl
      | cons n p =>
          rw [NameTree.look, NameTree.look, onTheWay_cons]
          unfold makeParents at hok ⊢
          by_cases hbad : badComponent component
          · rw [if_pos hbad] at hok
            cases hok
          · rw [if_neg hbad] at hok ⊢
            cases hget : tree.get component with
            | none =>
                rw [hget] at hok
                by_cases hn : component = n
                · subst hn
                  simp only [NameForest.get_add_self, Option.bind_some, if_pos, hget,
                    Option.bind_none, Option.none_or, ih .nil .implicit hok]
                  cases p with
                  | nil => rfl
                  | cons m p => rfl
                · simp only [NameForest.get_add_ne hn, if_neg hn, Option.or_none]
            | some node =>
                rw [hget] at hok
                cases node with
                | leaf other => cases hok
                | dir old children =>
                    by_cases hn : component = n
                    · subst hn
                      simp only [NameForest.get_set_self tree hget, Option.bind_some, if_pos, hget,
                        ih children old hok]
                    · simp only [NameForest.get_set_ne hn, if_neg hn, Option.or_none]

end

/-! ### What stands where -/

section

variable {ι : Type} {name : Bytes} {tree : StreamDir ι} {slot : Slot}

theorem look_descend (h : (descend name tree).2 = .ok slot) (q : Path) :
    (rootNode (descend name tree).1).look q
      = ((rootNode tree).look q).or (onTheWay (parentPath name) q) := by
  obtain ⟨hok, hfst, -, -⟩ := descend_ok h
  rw [hfst]
  exact look_makeParents name _ tree .implicit hok q

/-- A node with nothing below it. -/
def Flat (node : StreamNode ι) : Prop := ∀ n p, node.look (n :: p) = none

theorem look_put {node : StreamNode ι} (hflat : Flat node) {parents : StreamDir ι}
    {children : StreamDir ι} (hchildren : parents.childrenAt slot.parent = some children)
    (hnone : children.get slot.leaf = none) (q : Path) :
    (rootNode (slot.put node parents)).look q
      = if q = slot.parent ++ [slot.leaf] then node.look [] else (rootNode parents).look q := by
  refine NameForest.look_modifyAt ?_ slot.parent parents .implicit hchildren q
  intro n p
  by_cases hn : slot.leaf = n
  · subst hn
    rw [NameForest.get_add_self, Option.bind_some, hnone, Option.bind_none]
    cases p with
    | nil => exact (if_pos rfl).symm
    | cons m p =>
        rw [if_neg (by simp)]
        exact hflat m p
  · rw [NameForest.get_add_ne hn, if_neg]
    exact fun heq => hn (List.cons.inj heq).1.symm

/-- A new entry: its place, the directories on the way, and nothing else. -/
theorem look_newEntry {node : StreamNode ι} (hflat : Flat node)
    (hslot : (descend name tree).2 = .ok slot) (hnone : slot.get (descend name tree).1 = none)
    (q : Path) :
    (rootNode (slot.put node (descend name tree).1)).look q
      = if q = nameComponents name then node.look []
        else ((rootNode tree).look q).or (onTheWay (parentPath name) q) := by
  obtain ⟨hok, hfst, hparent, hfull⟩ := descend_ok hslot
  have hthere := childrenAt_makeParents name _ tree hok
  rw [← hfst, ← hparent] at hthere
  obtain ⟨children, hchildren⟩ := Option.isSome_iff_exists.mp hthere
  unfold Slot.get at hnone
  rw [hchildren] at hnone
  rw [look_put hflat hchildren hnone, hfull, look_descend hslot]

/-- A directory with new data. -/
theorem look_stamped {old new : EntryMeta} {children : StreamDir ι} {parents : StreamDir ι}
    (hget : slot.get parents = some (.dir old children)) (q : Path) :
    (rootNode (parents.modifyAt (·.set slot.leaf (.dir new children)) slot.parent)).look q
      = if q = slot.parent ++ [slot.leaf] then some (.inl new) else (rootNode parents).look q := by
  obtain ⟨siblings, hsiblings, hleaf⟩ := Option.bind_eq_some_iff.mp hget
  refine NameForest.look_modifyAt ?_ slot.parent parents .implicit hsiblings q
  intro n p
  by_cases hn : slot.leaf = n
  · subst hn
    rw [NameForest.get_set_self siblings hleaf, hleaf, Option.bind_some, Option.bind_some]
    cases p with
    | nil => exact (if_pos rfl).symm
    | cons m p =>
        rw [if_neg (by simp)]
        rfl
  · rw [NameForest.get_set_ne hn, if_neg]
    exact fun heq => hn (List.cons.inj heq).1.symm

theorem look_slot (slot : Slot) (tree : StreamDir ι) :
    (rootNode tree).look (slot.parent ++ [slot.leaf]) = (slot.get tree).bind (NameTree.look []) :=
  NameTree.look_append_singleton slot.parent slot.leaf _ tree

theorem onTheWay_self (path : Path) (last : Bytes) :
    (onTheWay path (path ++ [last]) : Option (EntryMeta ⊕ StreamLeaf ι)) = none := by
  unfold onTheWay
  rw [if_neg]
  intro h
  have hlen := h.length_le
  rw [List.length_append] at hlen
  exact Nat.not_succ_le_self _ hlen

theorem look_place (h : (descend name tree).2 = .ok slot) :
    (slot.get (descend name tree).1).bind (NameTree.look [])
      = (rootNode tree).look (nameComponents name) := by
  obtain ⟨-, -, hparent, hfull⟩ := descend_ok h
  rw [← look_slot, look_descend h, ← hparent, onTheWay_self, Option.or_none, hfull]

theorem flat_leaf (leaf : StreamLeaf ι) : Flat (.leaf leaf) := fun _ _ => rfl

theorem flat_emptyDir (info : EntryMeta) : Flat (.dir info .nil : StreamNode ι) := fun _ _ => rfl

/-- The identity a directory gets: one that is there takes over the time only. -/
def stamp (info : EntryMeta) : Option (EntryMeta ⊕ StreamLeaf ι) → EntryMeta
  | some (.inl old) => { old with mtimeNs := info.mtimeNs }
  | _ => info

/-- **A directory: its place, and the directories on the way.** -/
theorem look_placeDir {info : EntryMeta} (h : (placeDir name info tree).2 = .ok ()) (q : Path) :
    (rootNode (placeDir name info tree).1).look q
      = if q = nameComponents name then some (.inl (stamp info ((rootNode tree).look q)))
        else ((rootNode tree).look q).or (onTheWay (parentPath name) q) := by
  have hplaced := placeDir_placed name info tree
  generalize placeDir name info tree = placed at h hplaced ⊢
  cases hplaced with
  | refused _ => cases h
  | taken _ _ => cases h
  | @made slot hslot hnone =>
      have hplace := look_place hslot
      rw [hnone] at hplace
      rw [look_newEntry (flat_emptyDir info) hslot hnone]
      by_cases hq : q = nameComponents name
      · rw [if_pos hq, if_pos hq, hq, ← hplace]
        rfl
      · rw [if_neg hq, if_neg hq]
  | @stamped slot old children hslot hdir =>
      obtain ⟨-, -, -, hfull⟩ := descend_ok hslot
      have hplace := look_place hslot
      rw [hdir] at hplace
      rw [look_stamped hdir, hfull, look_descend hslot]
      by_cases hq : q = nameComponents name
      · rw [if_pos hq, if_pos hq, hq, ← hplace]
        rfl
      · rw [if_neg hq, if_neg hq]

end

/-! ### What a call changes -/

/-- The path of an entry. -/
def StreamCall.path (call : StreamCall) : Path :=
  if call.name = ascii "/" then [] else nameComponents call.name

/-- What a call leaves in its place, from what it found there. -/
def StreamCall.placed (env : WriterEnv) (codecs : StreamCodecs) (call : StreamCall)
    (found : Option (EntryMeta ⊕ StreamLeaf (Option Payload))) :
    Option (EntryMeta ⊕ StreamLeaf (Option Payload)) :=
  match call with
  | .addDir _ info => some (.inl (stamp info found))
  | call => (call.leaf env codecs).map .inr

section

variable {env : WriterEnv} {codecs : StreamCodecs} {w w' : StreamWriter} {call : StreamCall}

theorem placed_of_leaf {leaf : StreamLeaf (Option Payload)}
    (hleaf : call.leaf env codecs = some leaf)
    (found : Option (EntryMeta ⊕ StreamLeaf (Option Payload))) :
    call.placed env codecs found = some (.inr leaf) := by
  cases call with
  | addDir name info => cases hleaf
  | addFile name info xattrs reader => exact congrArg (Option.map Sum.inr) hleaf
  | stageFile name info xattrs data => exact congrArg (Option.map Sum.inr) hleaf
  | addHardlink name target => exact congrArg (Option.map Sum.inr) hleaf
  | addSymlink name target info => exact congrArg (Option.map Sum.inr) hleaf

theorem placed_of_no_leaf (hleaf : call.leaf env codecs = none)
    (hdir : ∀ name info, call ≠ .addDir name info)
    (found : Option (EntryMeta ⊕ StreamLeaf (Option Payload))) :
    call.placed env codecs found = none := by
  cases call with
  | addDir name info => exact absurd rfl (hdir name info)
  | addFile name info xattrs reader => exact congrArg (Option.map Sum.inr) hleaf
  | stageFile name info xattrs data => exact congrArg (Option.map Sum.inr) hleaf
  | addHardlink name target => cases hleaf
  | addSymlink name target info => cases hleaf

theorem path_eq_nil : call.path = [] ↔ call.name = ascii "/" := by
  unfold StreamCall.path
  by_cases hroot : call.name = ascii "/"
  · simp [hroot]
  · simp [hroot, nameComponents_ne_nil]

theorem path_of_ne (h : call.path ≠ []) :
    call.name ≠ ascii "/" ∧ call.path = nameComponents call.name := by
  have hroot : call.name ≠ ascii "/" := fun heq => h (path_eq_nil.mpr heq)
  exact ⟨hroot, if_neg hroot⟩

theorem newSlot_root (tree : StreamDir Nat) {slot : Slot} :
    (newSlot (ascii "/") tree).2 ≠ .ok slot := by
  intro h
  have hslash : ascii "/" = [] ∨ (ascii "/").head? = some 0x2F ∨ (ascii "/").getLast? = some 0x2F :=
    .inr (.inl rfl)
  have hdescend := (newSlot_ok h).1
  unfold descend at hdescend
  rw [if_pos hslash] at hdescend
  cases hdescend

theorem run_root (hlive : Live env codecs w) (h : call.path = [])
    (hrun : call.run env codecs w = some (w', .ok ())) :
    w' = w ∧ ∃ info, call = .addDir (ascii "/") info := by
  have hname := path_eq_nil.mp h
  by_cases hdir : ∀ name info, call ≠ .addDir name info
  · obtain ⟨slot, -, hslot, -, -⟩ := (puts_of_run hlive hrun hdir).contents
    rw [hname] at hslot
    exact absurd hslot (newSlot_root w.tree)
  · simp only [not_forall, ne_eq, not_not] at hdir
    obtain ⟨name, info, rfl⟩ := hdir
    rw [StreamCall.name] at hname
    rw [StreamCall.run, addDir_root hname] at hrun
    cases hrun
    exact ⟨rfl, info, by rw [hname]⟩

/-- A call that brings something that is not a directory. -/
theorem Puts.look (h : Puts env codecs call w w') (q : Path) :
    (rootNode (w'.contents env codecs)).look q
      = if q = nameComponents call.name then (call.leaf env codecs).map .inr
        else ((rootNode (w.contents env codecs)).look q).or (onTheWay (parentPath call.name) q) := by
  obtain ⟨slot, leaf, hslot, hleaf, hcontents⟩ := h.contents
  obtain ⟨hdescend, hnone⟩ := newSlot_ok hslot
  have hdescend' : (descend call.name (w.contents env codecs)).2 = .ok slot := by
    rw [contents_descend]
    exact hdescend
  have hnone' : slot.get (descend call.name (w.contents env codecs)).1 = none := by
    rw [contents_descend, Slot.get_map, hnone]
    rfl
  rw [hcontents, look_newEntry (flat_leaf leaf) hdescend' hnone', hleaf]
  rfl

/-- **What a call that succeeds changes**: its place, and the directories on the way. -/
theorem look_run (hlive : Live env codecs w) (hpath : call.path ≠ [])
    (hrun : call.run env codecs w = some (w', .ok ())) :
    Live env codecs w' ∧ ∀ q, (rootNode (w'.contents env codecs)).look q
      = if q = call.path then call.placed env codecs ((rootNode (w.contents env codecs)).look q)
        else ((rootNode (w.contents env codecs)).look q).or (onTheWay call.path.dropLast q) := by
  obtain ⟨hroot, hpath⟩ := path_of_ne hpath
  rw [hpath]
  cases call with
  | addDir name info =>
      rw [StreamCall.run] at hrun
      obtain ⟨hlive', hplaced⟩ := addDir_contents hlive (Option.some.inj hrun) hroot
      refine ⟨hlive', fun q => ?_⟩
      have hlook := look_placeDir (congrArg Prod.snd hplaced) q
      rw [hplaced] at hlook
      exact hlook
  | addFile name info xattrs reader =>
      have hputs := puts_of_run hlive hrun nofun
      exact ⟨hputs.live, hputs.look⟩
  | stageFile name info xattrs data =>
      have hputs := puts_of_run hlive hrun nofun
      exact ⟨hputs.live, hputs.look⟩
  | addHardlink name target =>
      have hputs := puts_of_run hlive hrun nofun
      exact ⟨hputs.live, hputs.look⟩
  | addSymlink name target info =>
      have hputs := puts_of_run hlive hrun nofun
      exact ⟨hputs.live, hputs.look⟩

end

end LimniFS
