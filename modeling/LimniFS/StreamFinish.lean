/-
What `finish` makes of the contents.

Storing the staged files gives every number what it stands for.  A deferred link is
resolved through the tree, and neither the chase nor the exchange of links for files looks
at the numbers.  So what the image shows at a path can be read off the contents
(`finishContext_shows`), and whether `finish` succeeds depends on the contents too
(`finishContext_outcome`).

A deferred link leads to what stands at its target, and that may be another link: the chase of
`resolveDeferredLinks` is one along leads, so that it fails only where they do, and a link becomes
the file at their end (`resolveDeferredLinks_fails_iff`, `resolveDeferredLinks_links`).
-/
import LimniFS.StagedPacking
import LimniFS.StreamShown
import LimniFS.Lib.Worklist

namespace LimniFS

open Lib

/-! ### Storing what is staged -/

/-- The inodes with their attributes as they are written. -/
def shownInodes (s : WriterState) : List (Nat × Payload) :=
  s.inodes.map fun i => (i.number,
    ⟨i.mode, i.uid, i.gid, i.mtimeNs, (s.inodeXattrs i.number).getD i.xattrs, i.content⟩)

/-- Attributes are kept for inodes only. -/
def XattrsKnown (s : WriterState) : Prop :=
  ∀ n, n ∉ s.inodes.map (·.number) → s.inodeXattrs n = none

section

variable {env : WriterEnv} {codecs : StreamCodecs}

theorem map_fst_shownInodes (s : WriterState) :
    (shownInodes s).map Prod.fst = s.inodes.map (·.number) := by
  unfold shownInodes
  rw [List.map_map]
  rfl

theorem shownInodes_addInode {s s' : WriterState} {inode : PendingInode}
    (hinodes : s'.inodes = s.inodes ++ [inode])
    (hxattrs : ∀ i ∈ s.inodes, s'.inodeXattrs i.number = s.inodeXattrs i.number) :
    shownInodes s' = shownInodes s ++ [(inode.number, ⟨inode.mode, inode.uid, inode.gid,
      inode.mtimeNs, (s'.inodeXattrs inode.number).getD inode.xattrs, inode.content⟩)] := by
  unfold shownInodes
  rw [hinodes, List.map_append, List.map_singleton]
  congr 1
  refine List.map_congr_left fun i hi => ?_
  rw [hxattrs i hi]

/-- What storing an entry adds: its inode, and its attributes if they are kept apart. -/
theorem storeStaged_inode (entry : StagedEntry) {chunks : List Bytes}
    (hslice : codecs.chunker.chunkSlice env.threads entry.data = some chunks) (s : WriterState)
    (hnone : s.inodeXattrs entry.inodeNumber = none) :
    ∃ inode, (storeStaged env codecs entry chunks s).inodes = s.inodes ++ [inode] ∧
      inode.number = entry.inodeNumber ∧
      (∀ n, n ≠ entry.inodeNumber →
        (storeStaged env codecs entry chunks s).inodeXattrs n = s.inodeXattrs n) ∧
      (storeStaged env codecs entry chunks s).nextInode = s.nextInode ∧
      entry.payload env codecs = ⟨inode.mode, inode.uid, inode.gid, inode.mtimeNs,
        ((storeStaged env codecs entry chunks s).inodeXattrs inode.number).getD inode.xattrs,
        inode.content⟩ := by
  unfold storeStaged StagedEntry.payload
  rw [hslice, Option.getD_some]
  by_cases hlen : entry.data.length ≤ codecs.inlineThreshold
  · simp only [if_pos hlen]
    refine ⟨_, rfl, rfl, fun _ _ => rfl, rfl, ?_⟩
    simp only [addInode, EntryMeta.inode, hnone, Option.getD_none]
    rfl
  · simp only [if_neg hlen]
    by_cases hxattrs : entry.xattrs = []
    · simp only [if_pos hxattrs, mergeChunkedFile]
      obtain ⟨drops, index, samples, hmerge⟩ :=
        mergeDrops_eq env (chunkedResult env codecs chunks).drops s
      rw [hmerge]
      refine ⟨_, rfl, rfl, fun _ _ => rfl, rfl, ?_⟩
      have hfile : (fileInode entry.file (chunkedResult env codecs chunks).slices).number
        = entry.inodeNumber := rfl
      simp only [addInode, hfile, hnone, Option.getD_none, hxattrs]
      rfl
    · simp only [if_neg hxattrs, mergeChunkedFile]
      obtain ⟨drops, index, samples, hmerge⟩ := mergeDrops_eq env
        (chunkedResult env codecs chunks).drops
        { s with inodeXattrs := setEntry s.inodeXattrs entry.inodeNumber entry.xattrs }
      rw [hmerge]
      refine ⟨_, rfl, rfl, fun n hn => if_neg hn, rfl, ?_⟩
      have hfile : (fileInode entry.file (chunkedResult env codecs chunks).slices).number
        = entry.inodeNumber := rfl
      have hset : setEntry s.inodeXattrs entry.inodeNumber entry.xattrs entry.inodeNumber
        = some entry.xattrs := if_pos rfl
      simp only [addInode, hfile, hset, Option.getD_some]
      rfl

/-- A staged entry is stored under its number. -/
theorem flushEntry_shown {s s' : WriterState} {entry : StagedEntry} (hknown : XattrsKnown s)
    (hfresh : entry.inodeNumber ∉ s.inodes.map (·.number))
    (h : flushEntry env codecs s entry = some s') :
    shownInodes s' = shownInodes s ++ [(entry.inodeNumber, entry.payload env codecs)] ∧
      XattrsKnown s' ∧ s'.nextInode = s.nextInode := by
  rw [flushEntry_eq] at h
  obtain ⟨chunks, hslice, rfl⟩ := Option.map_eq_some_iff.mp h
  obtain ⟨inode, hinodes, hnumber, hother, hnext, hpayload⟩ := storeStaged_inode entry hslice
    { s with pendingFiles := s.pendingFiles ++ [entry.file] } (hknown _ hfresh)
  refine ⟨?_, ?_, hnext⟩
  · rw [shownInodes_addInode (s := s) hinodes, hpayload, hnumber]
    intro i hi
    exact hother _ fun heq => hfresh (heq ▸ List.mem_map_of_mem hi)
  · intro n hn
    rw [hinodes, List.map_append, List.map_singleton, hnumber, List.mem_append,
      List.mem_singleton, not_or] at hn
    exact (hother n hn.2).trans (hknown n hn.1)

theorem flushStaged_shown : ∀ (staged : List StagedEntry) (s s' : WriterState), XattrsKnown s →
    (s.inodes.map (·.number) ++ staged.map (·.inodeNumber)).Nodup →
    flushStaged env codecs staged s = some s' →
    shownInodes s' = shownInodes s
        ++ staged.map (fun e => (e.inodeNumber, e.payload env codecs)) ∧
      XattrsKnown s' ∧ s'.nextInode = s.nextInode := by
  intro staged
  induction staged with
  | nil =>
      intro s s' hknown _ h
      cases h
      exact ⟨(List.append_nil _).symm, hknown, rfl⟩
  | cons entry rest ih =>
      intro s s' hknown hnodup h
      unfold flushStaged at h
      rw [List.foldlM_cons] at h
      obtain ⟨s₁, hentry, hrest⟩ := Option.bind_eq_some_iff.mp h
      have hfresh : entry.inodeNumber ∉ s.inodes.map (·.number) := by
        intro hmem
        exact (List.nodup_append.mp hnodup).2.2 _ hmem _ List.mem_cons_self rfl
      obtain ⟨hshown, hknown₁, hnext⟩ := flushEntry_shown hknown hfresh hentry
      have hnumbers : s₁.inodes.map (·.number) = s.inodes.map (·.number) ++ [entry.inodeNumber] := by
        rw [← map_fst_shownInodes, hshown, List.map_append, map_fst_shownInodes]
        rfl
      have hnodup₁ : (s₁.inodes.map (·.number) ++ rest.map (·.inodeNumber)).Nodup := by
        rw [hnumbers, List.append_assoc]
        exact hnodup
      obtain ⟨hshown', hknown', hnext'⟩ := ih s₁ s' hknown₁ hnodup₁ hrest
      refine ⟨?_, hknown', hnext'.trans hnext⟩
      rw [hshown', hshown, List.append_assoc]
      rfl

end

/-! ### Links -/

section

variable {ι κ : Type}

/-- The file behind the target of a link. -/
def linkFile (root : StreamDir ι) (target : Bytes) : Except WriteError ι :=
  chase root (chaseFuel root) target []

/-- A link exchanged for the file behind it. -/
def StreamLeaf.resolve (g : Bytes → ι) : StreamLeaf ι → StreamLeaf ι
  | .deferredLink target => .file (g target)
  | .file inode => .file inode
  | .symlink inode => .symlink inode

theorem linkTargets_map (f : ι → κ) (tree : StreamDir ι) :
    linkTargets (tree.map (StreamLeaf.map f)) = linkTargets tree := by
  unfold linkTargets
  rw [NameForest.leaves_map, List.filterMap_map]
  congr 1
  funext leaf
  cases leaf <;> rfl

theorem chase_map (f : ι → κ) (root : StreamDir ι) : ∀ (fuel : Nat) (target : Bytes)
    (seen : List Bytes), chase (root.map (StreamLeaf.map f)) fuel target seen
      = (chase root fuel target seen).map f := by
  intro fuel
  induction fuel with
  | zero =>
      intro target seen
      rfl
  | succ fuel ih =>
      intro target seen
      unfold chase
      by_cases hseen : target ∈ seen
      · rw [if_pos hseen, if_pos hseen]
        rfl
      · have hlook : (rootNode (root.map (StreamLeaf.map f))).look (targetPath target)
            = ((rootNode root).look (targetPath target)).map (Sum.map id (StreamLeaf.map f)) :=
          NameTree.look_map _ _ (rootNode root)
        rw [if_neg hseen, if_neg hseen, hlook]
        cases (rootNode root).look (targetPath target) with
        | none => rfl
        | some found =>
            cases found with
            | inl info => rfl
            | inr leaf =>
                cases leaf with
                | file inode => rfl
                | symlink inode => rfl
                | deferredLink next => exact ih next _

theorem linkFile_map (f : ι → κ) (root : StreamDir ι) (target : Bytes) :
    linkFile (root.map (StreamLeaf.map f)) target = (linkFile root target).map f := by
  unfold linkFile chaseFuel
  rw [linkTargets_map, chase_map]

theorem mem_leaves_chase {root : StreamDir ι} {inode : ι} : ∀ (fuel : Nat) (target : Bytes)
    (seen : List Bytes), chase root fuel target seen = .ok inode →
    .file inode ∈ root.leaves := by
  intro fuel
  induction fuel with
  | zero =>
      intro target seen h
      cases h
  | succ fuel ih =>
      intro target seen h
      unfold chase at h
      by_cases hseen : target ∈ seen
      · rw [if_pos hseen] at h
        cases h
      · rw [if_neg hseen] at h
        cases hlook : (rootNode root).look (targetPath target) with
        | none =>
            rw [hlook] at h
            cases h
        | some found =>
            rw [hlook] at h
            cases found with
            | inl info => cases h
            | inr leaf =>
                cases leaf with
                | file number =>
                    cases h
                    exact NameTree.mem_leaves_look _ _ hlook
                | symlink number => cases h
                | deferredLink next => exact ih next _ h

mutual

theorem replaceNode_eq (g : Bytes → ι) (rest : List ι) : ∀ node : StreamNode ι,
    replaceNode node ((node.leaves.filterMap (·.linkTarget)).map g ++ rest)
      = (node.map (StreamLeaf.resolve g), rest)
  | .leaf (.file inode) => rfl
  | .leaf (.symlink inode) => rfl
  | .leaf (.deferredLink target) => rfl
  | .dir info children => by
      have hchildren := replaceLinks_eq g rest children
      unfold linkTargets at hchildren
      unfold replaceNode NameTree.leaves
      rw [hchildren]
      rfl

theorem replaceLinks_eq (g : Bytes → ι) (rest : List ι) : ∀ tree : StreamDir ι,
    replaceLinks tree ((linkTargets tree).map g ++ rest)
      = (tree.map (StreamLeaf.resolve g), rest)
  | .nil => rfl
  | .cons name node others => by
      have hothers := replaceLinks_eq g rest others
      unfold linkTargets at hothers ⊢
      unfold replaceLinks NameForest.leaves
      rw [List.filterMap_append, List.map_append, List.append_assoc, replaceNode_eq g _ node]
      simp only [hothers]
      rfl

end

end

section

variable {tree tree' : StreamDir Nat} {s s' : WriterState}

/-- The number behind a target, where there is one. -/
def fileNumber (tree : StreamDir Nat) (target : Bytes) : Nat :=
  (linkFile tree target).toOption.getD 0

theorem bumpNlinks_eq : ∀ (numbers : List Nat) (s : WriterState),
    ∃ counts, numbers.foldl bumpNlink s = { s with nlinkCounts := counts } := by
  intro numbers
  induction numbers with
  | nil =>
      intro s
      exact ⟨s.nlinkCounts, rfl⟩
  | cons n rest ih =>
      intro s
      obtain ⟨counts, hrest⟩ := ih (bumpNlink s n)
      exact ⟨counts, hrest⟩

theorem resolveDeferredLinks_ok (h : resolveDeferredLinks tree s = .ok (tree', s')) :
    tree' = tree.map (StreamLeaf.resolve (fileNumber tree)) ∧
      (∀ target ∈ linkTargets tree, linkFile tree target = .ok (fileNumber tree target)) ∧
      ∃ counts, s' = { s with nlinkCounts := counts } := by
  obtain ⟨resolved, hresolved, h⟩ := except_bind_eq_ok.mp h
  cases h
  have hall := mapM_ok_iff.mp hresolved
  have hfile : ∀ target n, linkFile tree target = .ok n → n = fileNumber tree target := by
    intro target n hn
    unfold fileNumber
    rw [hn]
    rfl
  have heq : (linkTargets tree).map (fileNumber tree) = resolved := by
    have hpairs : List.Forall₂ (· = ·) ((linkTargets tree).map (fileNumber tree)) resolved :=
      List.forall₂_map_left_iff.mpr (hall.imp fun target n hn => (hfile target n hn).symm)
    rwa [List.forall₂_eq_eq_eq] at hpairs
  refine ⟨?_, ?_, bumpNlinks_eq resolved s⟩
  · have hreplace := replaceLinks_eq (fileNumber tree) [] tree
    rw [List.append_nil, heq] at hreplace
    rw [hreplace]
  · intro target hmem
    obtain ⟨n, -, hn⟩ := exists_mem_of_forall₂ hall.flip target hmem
    rw [← hfile target n hn]
    exact hn

end

open Lib.Chase

/-! ### Links as leads -/

section
variable {ι : Type}

/-- What a target leads to; nothing, a directory and a symbolic link are dead ends. -/
def lookTarget (root : StreamDir ι) (target : Bytes) : Found Bytes ι :=
  match (rootNode root).look (targetPath target) with
  | some (.inr (.file inode)) => .ends inode
  | some (.inr (.deferredLink next)) => .leads next
  | _ => .dead

theorem chase_eq_follow (root : StreamDir ι) : ∀ (fuel : Nat) (target : Bytes) (seen : List Bytes),
    chase root fuel target seen = (follow (lookTarget root) fuel target seen).mapError badTarget := by
  intro fuel
  induction fuel with
  | zero =>
      intro target seen
      rfl
  | succ fuel ih =>
      intro target seen
      unfold chase follow lookTarget
      by_cases hseen : target ∈ seen
      · rw [if_pos hseen, if_pos hseen]
        rfl
      · rw [if_neg hseen, if_neg hseen]
        cases (rootNode root).look (targetPath target) with
        | none => rfl
        | some found =>
            cases found with
            | inl info => rfl
            | inr leaf =>
                cases leaf with
                | file inode => rfl
                | symlink inode => rfl
                | deferredLink next => exact ih next _

theorem lookTarget_closed (root : StreamDir ι) (target next : Bytes)
    (h : Leads (lookTarget root) target next) : next ∈ linkTargets root := by
  unfold Leads lookTarget at h
  split at h
  · cases h
  · next other hlook =>
      cases h
      exact List.mem_filterMap.mpr ⟨_, NameTree.mem_leaves_look _ (rootNode root) hlook, rfl⟩
  · cases h

variable {root : StreamDir ι} {target : Bytes} (htarget : target ∈ linkTargets root)

include htarget

theorem chase_stable {fuel : Nat} (hfuel : chaseFuel root ≤ fuel) :
    chase root fuel target [] = linkFile root target := by
  unfold linkFile
  rw [chase_eq_follow, chase_eq_follow]
  rw [follow_stable (lookTarget_closed root) (enough_nil _ hfuel)
    (enough_nil _ (Nat.lt_succ_self _)) htarget]
  rfl

theorem linkFile_eq_ok_iff {inode : ι} :
    linkFile root target = .ok inode ↔ EndsWith (lookTarget root) target inode := by
  rw [← follow_eq_ok_iff (lookTarget_closed root) (Nat.lt_succ_self _) htarget]
  unfold linkFile
  rw [chase_eq_follow]
  show (follow (lookTarget root) (chaseFuel root) target []).mapError badTarget = _ ↔
    follow (lookTarget root) (chaseFuel root) target [] = _
  cases follow (lookTarget root) (chaseFuel root) target [] with
  | ok found => simp [Except.mapError]
  | error place => simp [Except.mapError]

theorem linkFile_fails_iff :
    (∃ e, linkFile root target = .error e) ↔ Fails (lookTarget root) target := by
  rw [← follow_error_iff (lookTarget_closed root) (Nat.lt_succ_self _) htarget]
  unfold linkFile
  rw [chase_eq_follow]
  show (∃ e, (follow (lookTarget root) (chaseFuel root) target []).mapError badTarget = _) ↔
    ∃ place, follow (lookTarget root) (chaseFuel root) target [] = _
  cases follow (lookTarget root) (chaseFuel root) target [] with
  | ok found => simp [Except.mapError]
  | error place => simp [Except.mapError]

end

/-! ### Resolving -/

section
variable {tree tree' : StreamDir Nat} {s s' : WriterState}

theorem resolveDeferredLinks_fails_iff :
    (∃ e, resolveDeferredLinks tree s = .error e) ↔
      ∃ target ∈ linkTargets tree, Fails (lookTarget tree) target := by
  have houter : (∃ e, resolveDeferredLinks tree s = .error e) ↔
      ∃ e, (linkTargets tree).mapM (linkFile tree) = .error e := by
    show (∃ e, ((linkTargets tree).mapM (linkFile tree) >>= fun resolved =>
      pure ((replaceLinks tree resolved).1, resolved.foldl bumpNlink s)) = .error e) ↔ _
    cases (linkTargets tree).mapM (linkFile tree) with
    | ok resolved => simp [pure, Except.pure, bind, Except.bind]
    | error e => simp [bind, Except.bind]
  rw [houter, exists_mapM_error_iff]
  refine exists_congr fun target => and_congr_right fun htarget => ?_
  exact linkFile_fails_iff htarget

/-- Every link has become the file at the end of its leads, and nothing else has changed. -/
structure LinksResolved (tree tree' : StreamDir Nat) : Prop where
  links : ∀ path target, (rootNode tree).look path = some (.inr (.deferredLink target)) →
    ∃ number, EndsWith (lookTarget tree) target number ∧
      (rootNode tree').look path = some (.inr (.file number))
  others : ∀ path, (∀ target, (rootNode tree).look path ≠ some (.inr (.deferredLink target))) →
    (rootNode tree').look path = (rootNode tree).look path

theorem resolveDeferredLinks_links (h : resolveDeferredLinks tree s = .ok (tree', s')) :
    LinksResolved tree tree' := by
  obtain ⟨rfl, hfiles, -⟩ := resolveDeferredLinks_ok h
  have hlook : ∀ path, (rootNode (tree.map (StreamLeaf.resolve (fileNumber tree)))).look path
      = ((rootNode tree).look path).map (Sum.map id (StreamLeaf.resolve (fileNumber tree))) :=
    fun path => NameTree.look_map _ path (rootNode tree)
  refine ⟨fun path target hlink => ?_, fun path hother => ?_⟩
  · have htarget : target ∈ linkTargets tree :=
      List.mem_filterMap.mpr ⟨_, NameTree.mem_leaves_look path (rootNode tree) hlink, rfl⟩
    refine ⟨fileNumber tree target, (linkFile_eq_ok_iff htarget).mp (hfiles target htarget), ?_⟩
    rw [hlook, hlink]
    rfl
  · rw [hlook]
    cases hfound : (rootNode tree).look path with
    | none => rfl
    | some found =>
        cases found with
        | inl info => rfl
        | inr leaf =>
            cases leaf with
            | file number => rfl
            | symlink number => rfl
            | deferredLink target => exact absurd hfound (hother target)

end

end LimniFS
