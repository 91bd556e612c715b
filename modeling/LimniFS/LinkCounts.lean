/-
How many names a file has.

A writer gives every number to one name, whatever the calls and also where they fail
(`NamedOnce.run`), so a file has one name and no count until the links are resolved.  Resolving
adds to both alike (`resolveDeferredLinks_nlink`).
-/
import LimniFS.StreamRejects

namespace LimniFS

open Lib Lib.Chase

/-! ### Counting names -/

section
variable {tree tree' : StreamDir Nat} {s s' : WriterState}

/-- The numbers that names refer to, once for every name. -/
def treeNumbers (tree : StreamDir Nat) : List Nat := tree.leaves.filterMap StreamLeaf.number

/-- How many names refer to a number. -/
def namesOf (tree : StreamDir Nat) (number : Nat) : Nat := (treeNumbers tree).count number

theorem namesOf_resolve (g : Bytes → Nat) (tree : StreamDir Nat) (number : Nat) :
    namesOf (tree.map (StreamLeaf.resolve g)) number =
      namesOf tree number + ((linkTargets tree).map g).count number := by
  unfold namesOf treeNumbers linkTargets
  rw [NameForest.leaves_map]
  induction tree.leaves with
  | nil => rfl
  | cons leaf rest ih =>
      cases leaf with
      | file other =>
          simp only [List.map_cons, StreamLeaf.resolve, List.filterMap_cons, StreamLeaf.number,
            StreamLeaf.linkTarget, List.count_cons, ih]
          omega
      | symlink other =>
          simp only [List.map_cons, StreamLeaf.resolve, List.filterMap_cons, StreamLeaf.number,
            StreamLeaf.linkTarget, List.count_cons, ih]
          omega
      | deferredLink target =>
          simp only [List.map_cons, StreamLeaf.resolve, List.filterMap_cons, StreamLeaf.number,
            StreamLeaf.linkTarget, List.count_cons, ih]
          omega

theorem nlink_bumped (number : Nat) : ∀ (numbers : List Nat) (s : WriterState),
    ((numbers.foldl bumpNlink s).nlinkCounts number).getD 1 =
      (s.nlinkCounts number).getD 1 + numbers.count number := by
  intro numbers
  induction numbers with
  | nil =>
      intro s
      rfl
  | cons first rest ih =>
      intro s
      rw [List.foldl_cons, ih, List.count_cons]
      by_cases hfirst : number = first
      · subst hfirst
        simp [bumpNlink, setEntry]
        omega
      · have hother : (bumpNlink s first).nlinkCounts number = s.nlinkCounts number :=
          if_neg hfirst
        rw [hother]
        simp [Ne.symm hfirst]

theorem resolveDeferredLinks_nlink (h : resolveDeferredLinks tree s = .ok (tree', s'))
    (number : Nat) :
    (s'.nlinkCounts number).getD 1 + namesOf tree number =
      (s.nlinkCounts number).getD 1 + namesOf tree' number := by
  obtain ⟨htree, hfiles, -⟩ := resolveDeferredLinks_ok h
  obtain ⟨resolved, hresolved, h⟩ := except_bind_eq_ok.mp h
  obtain ⟨-, rfl⟩ := Prod.mk.inj (Except.ok.inj h)
  have hmap : (linkTargets tree).map (fileNumber tree) = resolved := by
    have hall := mapM_ok_iff.mp hresolved
    have hpairs := (forall₂_and_mem_left hall).imp fun target n h =>
      Except.ok.inj ((hfiles target h.2).symm.trans h.1)
    rw [← List.forall₂_eq_eq_eq]
    exact List.forall₂_map_left_iff.mpr hpairs
  rw [htree, nlink_bumped, namesOf_resolve, hmap]
  omega

end

/-! ### What the calls keep -/

section
variable {env : WriterEnv} {codecs : StreamCodecs} {w w' : StreamWriter}

theorem leaves_makeParents_subperm {ι : Type} (name : Bytes) :
    ∀ (path : Path) (tree : StreamDir ι),
      (makeParents name path tree).1.leaves.Subperm tree.leaves := by
  intro path
  induction path with
  | nil =>
      intro tree
      exact List.Subperm.refl _
  | cons component rest ih =>
      intro tree
      unfold makeParents
      by_cases hbad : badComponent component
      · rw [if_pos hbad]
      · rw [if_neg hbad]
        cases hget : tree.get component with
        | none =>
            let made : StreamNode ι := .dir .implicit (makeParents name rest .nil).1
            have hadd : (tree.add component made).leaves.Subperm (made.leaves ++ tree.leaves) :=
              NameForest.leaves_add_subperm made tree
            exact hadd.trans ((ih .nil).append (List.Subperm.refl tree.leaves))
        | some node =>
            cases node with
            | leaf other => exact List.Subperm.refl _
            | dir info children =>
                have hsame : (NameTree.leaves (.dir info (makeParents name rest children).1)).Subperm
                    ([] ++ (NameTree.dir info children).leaves) := ih children
                exact NameForest.leaves_set_subperm hsame tree hget

theorem leaves_descend_subperm {ι : Type} (name : Bytes) (tree : StreamDir ι) :
    (descend name tree).1.leaves.Subperm tree.leaves := by
  rcases descend_fst name tree with heq | heq
  · rw [heq]
  · rw [heq]
    exact leaves_makeParents_subperm name _ tree

theorem leaves_put_subperm {ι : Type} {slot : Slot} {node : StreamNode ι} {tree : StreamDir ι} :
    (slot.put node tree).leaves.Subperm (node.leaves ++ tree.leaves) :=
  NameForest.leaves_modifyAt_subperm slot.parent tree
    fun children _ => NameForest.leaves_add_subperm node children

theorem PlacedDir.leaves_subperm {ι : Type} {name : Bytes} {info : EntryMeta} {tree : StreamDir ι}
    {placed : StreamDir ι × Except WriteError Unit} (h : PlacedDir name info tree placed) :
    placed.1.leaves.Subperm tree.leaves := by
  have hmade := leaves_descend_subperm name tree
  cases h with
  | refused _ => exact hmade
  | made _ _ => exact leaves_put_subperm.trans hmade
  | @stamped slot old children _ hdir =>
      obtain ⟨siblings, hsiblings, hget⟩ := Option.bind_eq_some_iff.mp hdir
      let stamped : StreamNode ι := .dir { old with mtimeNs := info.mtimeNs } children
      have hsame : stamped.leaves.Subperm ([] ++ (NameTree.dir old children).leaves) :=
        List.Subperm.refl _
      have hstamped : ((descend name tree).1.modifyAt (·.set slot.leaf stamped)
          slot.parent).leaves.Subperm ([] ++ (descend name tree).1.leaves) := by
        refine NameForest.leaves_modifyAt_subperm slot.parent _ fun below hbelow => ?_
        obtain rfl := Option.some.inj (hsiblings.symm.trans hbelow)
        exact NameForest.leaves_set_subperm hsame siblings hget
      exact hstamped.trans hmade
  | taken _ _ => exact hmade

/-- Every number has one name, and no link was counted. -/
structure NamedOnce (w : StreamWriter) : Prop where
  once : (treeNumbers w.tree).Nodup
  below : ∀ number ∈ treeNumbers w.tree, number < w.ctx.nextInode
  uncounted : ∀ number, w.ctx.nlinkCounts number = none

theorem treeNumbers_subperm {leaves leaves' : List (StreamLeaf Nat)} (h : leaves.Subperm leaves') :
    (leaves.filterMap StreamLeaf.number).Subperm (leaves'.filterMap StreamLeaf.number) := by
  obtain ⟨l, hperm, hsub⟩ := h
  exact ⟨_, hperm.filterMap _, hsub.filterMap _⟩

theorem NamedOnce.keep (h : NamedOnce w)
    (hleaves : (treeNumbers w'.tree).Subperm (treeNumbers w.tree))
    (hnext : w.ctx.nextInode ≤ w'.ctx.nextInode)
    (hcounts : w'.ctx.nlinkCounts = w.ctx.nlinkCounts) : NamedOnce w' := by
  refine ⟨?_, fun number hnumber => ?_, fun number => ?_⟩
  · obtain ⟨l, hperm, hsub⟩ := hleaves
    exact hperm.nodup_iff.mp (hsub.nodup h.once)
  · exact Nat.lt_of_lt_of_le (h.below number (hleaves.subset hnumber)) hnext
  · rw [hcounts]
    exact h.uncounted number

theorem NamedOnce.gain (h : NamedOnce w)
    (hleaves : (treeNumbers w'.tree).Subperm (w.ctx.nextInode :: treeNumbers w.tree))
    (hnext : w'.ctx.nextInode = w.ctx.nextInode + 1)
    (hcounts : w'.ctx.nlinkCounts = w.ctx.nlinkCounts) : NamedOnce w' := by
  have hnew : (w.ctx.nextInode :: treeNumbers w.tree).Nodup :=
    List.nodup_cons.mpr ⟨fun hmem => Nat.lt_irrefl _ (h.below _ hmem), h.once⟩
  refine ⟨?_, fun number hnumber => ?_, fun number => ?_⟩
  · obtain ⟨l, hperm, hsub⟩ := hleaves
    exact hperm.nodup_iff.mp (hsub.nodup hnew)
  · rw [hnext]
    rcases List.mem_cons.mp (hleaves.subset hnumber) with rfl | hold
    · exact Nat.lt_succ_self _
    · exact Nat.lt_succ_of_lt (h.below number hold)
  · rw [hcounts]
    exact h.uncounted number

theorem treeNumbers_withParents (w : StreamWriter) (name : Bytes) :
    (treeNumbers (newSlot name w.tree).1).Subperm (treeNumbers w.tree) := by
  rw [newSlot_fst]
  exact treeNumbers_subperm (leaves_descend_subperm name w.tree)

theorem treeNumbers_put (w : StreamWriter) (name : Bytes) (slot : Slot) (leaf : StreamLeaf Nat) :
    (treeNumbers (slot.put (.leaf leaf) (newSlot name w.tree).1)).Subperm
      (leaf.number.toList ++ treeNumbers w.tree) := by
  let node : StreamNode Nat := .leaf leaf
  have hleaves : (slot.put node (newSlot name w.tree).1).leaves.Subperm
      (node.leaves ++ (newSlot name w.tree).1.leaves) := leaves_put_subperm
  have hput := treeNumbers_subperm hleaves
  rw [List.filterMap_append] at hput
  have hone : node.leaves.filterMap StreamLeaf.number
      = leaf.number.toList := by
    cases hnumber : leaf.number with
    | none => simp [node, NameTree.leaves, hnumber]
    | some number => simp [node, NameTree.leaves, hnumber]
  rw [hone] at hput
  exact hput.trans ((List.Subperm.refl _).append (treeNumbers_withParents w name))

variable (env codecs) in
theorem storeChunks_uncounted (name : Bytes) (info : EntryMeta) (number : Nat) (wire : List XAttr)
    (chunks : List Bytes) (s : WriterState) :
    (storeChunks env codecs name info number wire chunks s).nextInode = s.nextInode ∧
      (storeChunks env codecs name info number wire chunks s).nlinkCounts = s.nlinkCounts := by
  unfold storeChunks
  simp only
  split
  · exact ⟨rfl, rfl⟩
  · obtain ⟨drops, index, samples, hmerge⟩ := mergeDrops_eq env
      (chunkedResult env codecs chunks).drops { s with fileCount := s.fileCount + 1 }
    unfold patchFileLen mergeChunkedFile addInode
    rw [hmerge]
    exact ⟨rfl, rfl⟩

theorem NamedOnce.run (h : NamedOnce w) {call : StreamCall} {called : Called}
    (hrun : call.run env codecs w = some called) : NamedOnce called.1 := by
  cases call with
  | addFile name info xattrs reader =>
      have hadded := addFile_added env codecs w name info xattrs reader
      rw [show w.addFile env codecs name info xattrs reader = some called from hrun] at hadded
      cases hadded with
      | refused _ => exact h.keep (treeNumbers_withParents w name) (Nat.le_refl _) rfl
      | unrepresentable _ _ => exact h.keep (treeNumbers_withParents w name) (Nat.le_succ _) rfl
      | unread _ _ _ => exact h.keep (treeNumbers_withParents w name) (Nat.le_succ _) rfl
      | @stored slot wire chunks _ _ _ =>
          have hframe := storeChunks_uncounted env codecs name info w.ctx.nextInode wire chunks
            (openedState name info w.ctx)
          exact h.gain (treeNumbers_put w name slot _) hframe.1 hframe.2
  | stageFile name info xattrs data =>
      obtain rfl := Option.some.inj hrun
      cases hslot : (newSlot name w.tree).2 with
      | error e =>
          rw [stageFile_refused hslot]
          exact h.keep (treeNumbers_withParents w name) (Nat.le_refl _) rfl
      | ok slot =>
          cases hwire : toWireXattrs xattrs with
          | error e =>
              rw [stageFile_unrepresentable hslot hwire]
              exact h.gain (treeNumbers_put w name slot _) rfl rfl
          | ok wire =>
              rw [stageFile_staged hslot hwire]
              exact h.gain (treeNumbers_put w name slot _) rfl rfl
  | addDir name info =>
      obtain rfl := Option.some.inj hrun
      show NamedOnce (w.addDir name info).1
      unfold StreamWriter.addDir
      by_cases hroot : name = ascii "/"
      · rw [if_pos hroot]
        exact h
      · rw [if_neg hroot]
        exact h.keep (treeNumbers_subperm (placeDir_placed name info w.tree).leaves_subperm)
          (Nat.le_refl _) rfl
  | addHardlink name target =>
      obtain rfl := Option.some.inj hrun
      cases hslot : (newSlot name w.tree).2 with
      | error e =>
          rw [addHardlink_refused hslot]
          exact h.keep (treeNumbers_withParents w name) (Nat.le_refl _) rfl
      | ok slot =>
          rw [addHardlink_added hslot]
          exact h.keep (treeNumbers_put w name slot (.deferredLink target)) (Nat.le_refl _) rfl
  | addSymlink name target info =>
      obtain rfl := Option.some.inj hrun
      cases hslot : (newSlot name w.tree).2 with
      | error e =>
          rw [addSymlink_refused hslot]
          exact h.keep (treeNumbers_withParents w name) (Nat.le_refl _) rfl
      | ok slot =>
          rw [addSymlink_added hslot]
          exact h.gain (treeNumbers_put w name slot _) rfl rfl

theorem NamedOnce.runCalls : ∀ {calls : List StreamCall} {w w' : StreamWriter}, NamedOnce w →
    LimniFS.runCalls env codecs calls w = some w' → NamedOnce w' := by
  intro calls
  induction calls with
  | nil =>
      intro w w' h hrun
      cases hrun
      exact h
  | cons call rest ih =>
      intro w w' h hrun
      unfold LimniFS.runCalls at hrun
      split at hrun
      · cases hrun
      · next called hcall => exact ih (h.run hcall) hrun

theorem namedOnce_new {config : WriteConfig} {started : StreamCodecs × StreamWriter}
    (hnew : StreamWriter.new config = .ok started) : NamedOnce started.2 := by
  obtain ⟨chunker, -, hnew⟩ := except_bind_eq_ok.mp hnew
  obtain ⟨codecs, -, hnew⟩ := except_bind_eq_ok.mp hnew
  cases hnew
  exact ⟨List.nodup_nil, fun _ h => absurd h List.not_mem_nil, fun _ => rfl⟩

theorem storeStaged_nlinkCounts (entry : StagedEntry) (chunks : List Bytes) (s : WriterState) :
    (storeStaged env codecs entry chunks s).nlinkCounts = s.nlinkCounts := by
  have hmerged : ∀ s : WriterState, (mergeChunkedFile env s entry.file
      (chunkedResult env codecs chunks)).nlinkCounts = s.nlinkCounts := by
    intro s
    unfold mergeChunkedFile addInode
    obtain ⟨drops, index, samples, hmerge⟩ :=
      mergeDrops_eq env (chunkedResult env codecs chunks).drops s
    rw [hmerge]
  unfold storeStaged
  split
  · rfl
  · rw [hmerged]
    split <;> rfl

theorem flushStaged_nlinkCounts : ∀ (staged : List StagedEntry) {s s' : WriterState},
    flushStaged env codecs staged s = some s' → s'.nlinkCounts = s.nlinkCounts := by
  intro staged
  induction staged with
  | nil =>
      intro s s' h
      cases h
      rfl
  | cons entry rest ih =>
      intro s s' h
      unfold flushStaged at h
      rw [List.foldlM_cons] at h
      obtain ⟨s₁, hentry, hrest⟩ := Option.bind_eq_some_iff.mp h
      rw [ih hrest]
      rw [flushEntry_eq] at hentry
      obtain ⟨chunks, -, rfl⟩ := Option.map_eq_some_iff.mp hentry
      exact storeStaged_nlinkCounts entry chunks _

end

/--
**Hard links are resolved.**  For the tree of any sequence of calls: no chase needs more than its
fuel; resolving fails exactly when the targets of a link lead to something that is no file or come
back to one of them; and where it succeeds every link is the file at the end of its targets,
everything else is as it was, and the link count of such a file is the number of its names (of fewer
than 2^32 names, as any tree has whose directories can be assembled).
-/
theorem deferred_links_resolve {env : WriterEnv} {config : WriteConfig}
    {started : StreamCodecs × StreamWriter} {calls : List StreamCall} {w : StreamWriter}
    {s : WriterState} (hnew : StreamWriter.new config = .ok started)
    (hrun : runCalls env started.1 calls started.2 = some w)
    (hflush : flushStaged env started.1 w.staged w.ctx = some s) :
    (∀ target ∈ linkTargets w.tree, ∀ fuel, chaseFuel w.tree ≤ fuel →
      chase w.tree fuel target [] = linkFile w.tree target) ∧
    ((∃ e, resolveDeferredLinks w.tree s = .error e) ↔
      ∃ target ∈ linkTargets w.tree, Fails (lookTarget w.tree) target) ∧
    ∀ tree' s', resolveDeferredLinks w.tree s = .ok (tree', s') →
      LinksResolved w.tree tree' ∧
      ∀ target ∈ linkTargets w.tree, ∀ number, EndsWith (lookTarget w.tree) target number →
        (s'.nlinkCounts number).getD 1 = namesOf tree' number := by
  have hnamed := (namedOnce_new hnew).runCalls hrun
  refine ⟨fun target htarget fuel hfuel => chase_stable htarget hfuel,
    resolveDeferredLinks_fails_iff, fun tree' s' hok => ⟨resolveDeferredLinks_links hok, ?_⟩⟩
  intro target _ number hends
  obtain ⟨place, -, hplace⟩ := hends
  have hgrow := resolveDeferredLinks_nlink hok number
  have hcount : s.nlinkCounts number = none := by
    rw [flushStaged_nlinkCounts _ hflush]
    exact hnamed.uncounted number
  have hone : namesOf w.tree number = 1 := by
    refine List.count_eq_one_of_mem hnamed.once ?_
    unfold lookTarget at hplace
    split at hplace
    · next inode hlook =>
        obtain rfl := Found.ends.inj hplace
        exact List.mem_filterMap.mpr
          ⟨_, NameTree.mem_leaves_look _ (rootNode w.tree) hlook, rfl⟩
    · cases hplace
    · cases hplace
  rw [hcount, hone, Option.getD_none] at hgrow
  omega

namespace Stored

/-- A file, a link to a link to it, and that link. -/
def chainOfLinks : List StreamCall :=
  [.addFile (ascii "a") entryInfo [] [.bytes [1, 2, 3]], .addHardlink (ascii "b") (ascii "c"),
    .addHardlink (ascii "c") (ascii "/a")]

end Stored

open LimniFS.Stored

/-- A chain of two links. -/
theorem deferred_links_resolve_chain : ∃ (started : StreamCodecs × StreamWriter)
    (w : StreamWriter) (s : WriterState),
    runCalls writerEnv started.1 chainOfLinks started.2 = some w ∧
    ((∃ e, resolveDeferredLinks w.tree s = .error e) ↔
      ∃ target ∈ linkTargets w.tree, Fails (lookTarget w.tree) target) ∧
    ∀ tree' s', resolveDeferredLinks w.tree s = .ok (tree', s') →
      LinksResolved w.tree tree' ∧
      ∀ target ∈ linkTargets w.tree, ∀ number, EndsWith (lookTarget w.tree) target number →
        (s'.nlinkCounts number).getD 1 = namesOf tree' number := by
  have hruns : ((StreamWriter.new writeConfig).toOption.bind fun started =>
      (runCalls writerEnv started.1 chainOfLinks started.2).bind fun w =>
        flushStaged writerEnv started.1 w.staged w.ctx).isSome = true := by decide +kernel
  cases hnew : StreamWriter.new writeConfig with
  | error e =>
      rw [hnew] at hruns
      cases hruns
  | ok started =>
      rw [hnew, Except.toOption, Option.bind_some] at hruns
      obtain ⟨s, hs⟩ := Option.isSome_iff_exists.mp hruns
      obtain ⟨w, hrun, hflush⟩ := Option.bind_eq_some_iff.mp hs
      obtain ⟨-, hfails, hok⟩ := deferred_links_resolve hnew hrun hflush
      exact ⟨started, w, s, hrun, hfails, hok⟩

end LimniFS
