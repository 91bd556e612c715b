/-
The image of a stream writer.

`finish` stores what is staged, exchanges the links for files, makes the directories and
hands the context on.  The image then shows at every path what the contents of the writer
hold there, with every link shown as the file behind it, and every entry refers to an
inode that is there (`finishContext_shows`).
-/
import LimniFS.StreamFinish

namespace LimniFS

open Lib

/-! ### What the contents show -/

/-- What the file behind a target holds. -/
def fileBehind (contents : StreamDir (Option Payload)) (target : Bytes) : Option Payload :=
  (linkFile contents target).toOption.getD none

/-- What the contents show at a path, a link as the file behind it. -/
def seenIn (contents : StreamDir (Option Payload)) (path : Path) : Option (UInt8 × Payload) :=
  ((rootNode contents).look path).bind fun v =>
    shown (Sum.map id (StreamLeaf.resolve (fileBehind contents)) v)

section

variable {env : WriterEnv} {codecs : StreamCodecs} {dictionaries : DictionaryConfig}
  {w : StreamWriter} {s s' ctx : WriterState} {lo : Nat}

theorem trainAndApplyDictionary_eq (env : WriterEnv) (config : DictionaryConfig) (s : WriterState) :
    ∃ drops dicts samples base, trainAndApplyDictionary env config s = { s with
      drops := drops, trainedDicts := dicts, dictSamplesByClass := samples,
      baseDictionaries := base } := by
  unfold trainAndApplyDictionary
  split
  · exact ⟨_, _, _, _, rfl⟩
  · split
    · exact ⟨_, _, _, _, rfl⟩
    · exact ⟨_, _, _, _, rfl⟩

theorem flushStaged_held (hlive : Live env codecs w)
    (h : flushStaged env codecs w.staged w.ctx = some s) :
    shownInodes s = w.held env codecs ∧ XattrsKnown s ∧ s.nextInode = w.ctx.nextInode := by
  have hnodup := hlive.nodup
  unfold StreamWriter.held at hnodup
  rw [List.map_append, List.map_map, List.map_map] at hnodup
  obtain ⟨hshown, hknown, hnext⟩ := flushStaged_shown w.staged w.ctx s
    (fun n _ => hlive.xattrs n) hnodup h
  refine ⟨hshown.trans ?_, hknown, hnext⟩
  unfold StreamWriter.held shownInodes
  congr 1
  refine List.map_congr_left fun i _ => ?_
  rw [hlive.xattrs i.number]
  rfl

/-- The image behind the directories that were added. -/
structure Imaged (s ctx : WriterState) (new : List PendingInode) (lo : Nat) : Prop where
  inodes : ctx.inodes = s.inodes ++ new
  xattrs : ctx.inodeXattrs = s.inodeXattrs
  below : ∀ i ∈ s.inodes, i.number < lo
  above : ∀ i ∈ new, lo ≤ i.number
  nodup : (new.map (·.number)).Nodup

variable {new : List PendingInode}

theorem lookup_shownInodes (s : WriterState) (n : Nat) : (shownInodes s).lookup n
    = (s.inodes.find? fun i => i.number = n).map fun i =>
      ⟨i.mode, i.uid, i.gid, i.mtimeNs, (s.inodeXattrs i.number).getD i.xattrs, i.content⟩ := by
  unfold shownInodes
  generalize s.inodes = inodes
  induction inodes with
  | nil => rfl
  | cons i rest ih =>
      rw [List.map_cons, List.lookup_cons, List.find?_cons]
      by_cases hi : i.number = n
      · rw [decide_eq_true hi, beq_iff_eq.mpr hi.symm]
        rfl
      · rw [decide_eq_false hi, beq_eq_false_iff_ne.mpr (Ne.symm hi)]
        exact ih

theorem Imaged.inodeAt (h : Imaged s ctx new lo) {n : Nat} (hn : n < lo) :
    ctx.inodeAt n = s.inodes.find? fun i => i.number = n := by
  unfold WriteContext.inodeAt
  rw [h.inodes, List.find?_append]
  have hnone : new.find? (fun i => i.number = n) = none := by
    rw [List.find?_eq_none]
    intro i hi
    have habove := h.above i hi
    simp only [decide_eq_true_eq]
    omega
  rw [hnone, Option.or_none]

theorem entries_of_plain {p : Payload} (h : p.Plain) : p.content.entries = [] := by
  cases hcontent : p.content with
  | directory entries => exact absurd hcontent (h entries)
  | inline data => rfl
  | symlink target => rfl
  | dropBacked fileLen slices => rfl

theorem unlisted_of_plain {p : Payload} (h : p.Plain) : p.content.unlisted = p.content := by
  cases hcontent : p.content with
  | directory entries => exact absurd hcontent (h entries)
  | inline data => rfl
  | symlink target => rfl
  | dropBacked fileLen slices => rfl

theorem Imaged.payloadAt (h : Imaged s ctx new lo) (hplain : ∀ x ∈ shownInodes s, x.2.Plain)
    {n : Nat} (hn : n < lo) : ctx.payloadAt n = (shownInodes s).lookup n := by
  unfold WriteContext.payloadAt
  rw [h.inodeAt hn, lookup_shownInodes, h.xattrs]
  cases hfind : s.inodes.find? fun i => i.number = n with
  | none => rfl
  | some i =>
      have hmem := List.mem_of_find?_eq_some hfind
      have hnumber : i.number = n := by simpa using List.find?_some hfind
      have hi := hplain _ (List.mem_map_of_mem hmem)
      simp only [Option.map_some, hnumber]
      rw [hnumber] at hi
      exact congrArg (fun c => some (Payload.mk _ _ _ _ _ c)) (unlisted_of_plain hi)

theorem Imaged.numbered (h : Imaged s ctx new lo) (hknown : XattrsKnown s)
    (hnodup : (s.inodes.map (·.number)).Nodup) (hplain : ∀ x ∈ shownInodes s, x.2.Plain) :
    Numbered ctx.toWriteContext lo where
  nodup := by
    rw [h.inodes, List.map_append]
    refine List.nodup_append.mpr ⟨hnodup, h.nodup, ?_⟩
    intro n hn m hm heq
    obtain ⟨i, hi, rfl⟩ := List.mem_map.mp hn
    obtain ⟨j, hj, rfl⟩ := List.mem_map.mp hm
    have hlt := h.below i hi
    have hge := h.above j hj
    omega
  plain := by
    intro inode hmem hlt
    rw [h.inodes] at hmem
    rcases List.mem_append.mp hmem with hmem | hmem
    · exact hplain _ (List.mem_map_of_mem hmem)
    · exact absurd (h.above inode hmem) (Nat.not_le_of_lt hlt)
  xattrs := by
    intro number hlo
    rw [h.xattrs]
    refine hknown number fun hmem => ?_
    obtain ⟨i, hi, rfl⟩ := List.mem_map.mp hmem
    exact Nat.not_lt_of_le hlo (h.below i hi)

/-- Every entry of a listing is a leaf of the tree or a directory of the table. -/
theorem ShowsChildren.targets {inodes : List PendingInode} : ∀ (children : StreamDir Nat)
    (entries : List DirEntry), ShowsChildren inodes lo entries children → ∀ e ∈ entries,
    (∃ leaf ∈ children.leaves, leaf.number = some e.inodeNumber) ∨
      ∃ i ∈ inodes, i.number = e.inodeNumber
  | .nil, _, h, e, he => by
      unfold ShowsChildren at h
      rw [h] at he
      cases he
  | .cons name node rest, _, h, e, he => by
      unfold ShowsChildren at h
      obtain ⟨first, others, rfl, -, hnode, hrest⟩ := h
      unfold NameForest.leaves
      rcases List.mem_cons.mp he with rfl | he
      · cases node with
        | leaf leaf =>
            refine .inl ⟨leaf, List.mem_append_left _ List.mem_cons_self, ?_⟩
            cases leaf with
            | file number =>
                unfold ShowsNode at hnode
                exact congrArg some (congrArg Prod.fst hnode.1).symm
            | symlink number =>
                unfold ShowsNode at hnode
                exact congrArg some (congrArg Prod.fst hnode.1).symm
            | deferredLink target =>
                unfold ShowsNode at hnode
                exact hnode.elim
        | dir info children =>
            unfold ShowsNode at hnode
            obtain ⟨-, -, entries, hmem, -⟩ := hnode
            exact .inr ⟨_, hmem, rfl⟩
      · rcases ShowsChildren.targets rest others hrest e he with ⟨leaf, hleaf, hn⟩ | hdir
        · exact .inl ⟨leaf, List.mem_append_right _ hleaf, hn⟩
        · exact .inr hdir

/-- The leaves of the resolved tree have numbers that were given. -/
theorem Live.resolved (hlive : Live env codecs w)
    (hfiles : ∀ target ∈ linkTargets w.tree,
      linkFile w.tree target = .ok (fileNumber w.tree target)) :
    ∀ leaf ∈ (w.tree.map (StreamLeaf.resolve (fileNumber w.tree))).leaves, ∀ n,
      leaf.number = some n → n ∈ (w.held env codecs).map Prod.fst := by
  intro leaf hleaf n hn
  rw [NameForest.leaves_map] at hleaf
  obtain ⟨old, hold, rfl⟩ := List.mem_map.mp hleaf
  cases old with
  | file m => exact hlive.wired _ hold n hn
  | symlink m => exact hlive.wired _ hold n hn
  | deferredLink target =>
      have htarget : target ∈ linkTargets w.tree := List.mem_filterMap.mpr ⟨_, hold, rfl⟩
      have hfile := mem_leaves_chase _ _ _ (hfiles target htarget)
      cases hn
      exact hlive.wired _ hfile _ rfl

theorem fileBehind_eq {target : Bytes}
    (hfile : linkFile w.tree target = .ok (fileNumber w.tree target)) :
    fileBehind (w.contents env codecs) target
      = (w.held env codecs).lookup (fileNumber w.tree target) := by
  unfold fileBehind StreamWriter.contents
  rw [linkFile_map, hfile]
  rfl

/-- What `finish` did, step by step. -/
structure Finished (env : WriterEnv) (codecs : StreamCodecs) (w : StreamWriter)
    (ctx : WriterState) : Prop where
  steps : ∃ (s : WriterState) (new : List PendingInode), shownInodes s = w.held env codecs ∧
    XattrsKnown s ∧ Imaged s ctx new w.ctx.nextInode ∧
    (∀ target ∈ linkTargets w.tree, linkFile w.tree target = .ok (fileNumber w.tree target)) ∧
    ShowsNode ctx.inodes w.ctx.nextInode (ctx.rootInodeNumber, EntryType.directory)
      (rootNode (w.tree.map (StreamLeaf.resolve (fileNumber w.tree)))) ∧
    ∀ i ∈ new, Listed ctx.inodes w.ctx.nextInode
      (w.tree.map (StreamLeaf.resolve (fileNumber w.tree))).leaves i

theorem finishContext_finished (hlive : Live env codecs w)
    (h : w.finishContext env codecs dictionaries = .ok ctx) : Finished env codecs w ctx := by
  unfold StreamWriter.finishContext at h
  cases hflush : flushStaged env codecs w.staged w.ctx with
  | none =>
      rw [hflush] at h
      cases h
  | some s =>
      rw [hflush] at h
      simp only at h
      obtain ⟨hshown, hknown, hnext⟩ := flushStaged_held hlive hflush
      cases hresolve : resolveDeferredLinks w.tree s with
      | error e =>
          rw [hresolve] at h
          cases h
      | ok resolved =>
          rw [hresolve] at h
          obtain ⟨tree, s₁⟩ := resolved
          obtain ⟨rfl, hfiles, counts, rfl⟩ := resolveDeferredLinks_ok hresolve
          simp only at h
          cases hmade : materializeNode env
              (rootNode (w.tree.map (StreamLeaf.resolve (fileNumber w.tree))))
              { s with nlinkCounts := counts } with
          | error e =>
              rw [hmade] at h
              cases h
          | ok made =>
              rw [hmade] at h
              obtain ⟨entry, s₂⟩ := made
              cases h
              have hnumbers : s.inodes.map (·.number) = (w.held env codecs).map Prod.fst := by
                rw [← map_fst_shownInodes, hshown]
              have hsorted : (w.tree.map (StreamLeaf.resolve (fileNumber w.tree))).Sorted :=
                NameForest.sorted_map _ w.tree hlive.sorted
              have hlo : w.ctx.nextInode ≤ { s with nlinkCounts := counts }.nextInode :=
                Nat.le_of_eq hnext.symm
              obtain ⟨new, hadded, hshows, hlisted⟩ := materializeNode_shows
                _ _ s₂ entry (NameTree.sorted_dir hsorted) hlo
                (fun leaf hleaf n hn => hlive.below n (hlive.resolved hfiles leaf hleaf n hn)) hmade
              obtain ⟨dirNodes, dirCount, hs₂⟩ := hadded.state
              obtain ⟨drops, dicts, samples, base, htrain⟩ := trainAndApplyDictionary_eq env
                dictionaries { s₂ with rootInodeNumber := entry.1 }
              rw [htrain]
              refine ⟨s, new, hshown, hknown, ⟨hadded.inodes, ?_, ?_, ?_, hadded.nodup⟩, hfiles,
                ?_, hlisted⟩
              · rw [hs₂]
              · intro i hi
                refine hlive.below _ ?_
                rw [← hnumbers]
                exact List.mem_map_of_mem hi
              · intro i hi
                exact hnext ▸ (hadded.range i hi).1
              · have hkind : entry = (entry.1, EntryType.directory) := by
                  unfold ShowsNode at hshows
                  exact Prod.ext rfl hshows.1
                rw [hkind] at hshows
                exact hshows

/-- **What a finished image shows is what the contents show**, and every entry of it refers to an
inode that is there. -/
theorem finishContext_shows (hlive : Live env codecs w)
    (h : w.finishContext env codecs dictionaries = .ok ctx) :
    (∀ path, ctx.toWriteContext.seen path = seenIn (w.contents env codecs) path) ∧
      ctx.toWriteContext.EntriesClosed := by
  obtain ⟨s, new, hshown, hknown, himaged, hfiles, hshows, hlisted⟩ :=
    (finishContext_finished hlive h).steps
  have hplain : ∀ x ∈ shownInodes s, x.2.Plain := hshown ▸ hlive.plain
  have hnumbers : s.inodes.map (·.number) = (w.held env codecs).map Prod.fst := by
    rw [← map_fst_shownInodes, hshown]
  have hpayload : ∀ n ∈ (w.held env codecs).map Prod.fst,
      ctx.payloadAt n = (w.held env codecs).lookup n := fun n hn =>
    hshown ▸ himaged.payloadAt hplain (hlive.below n hn)
  constructor
  · intro path
    have hnumbered := himaged.numbered hknown (hnumbers ▸ hlive.nodup) hplain
    have hwalk := walk_shows hnumbered path _ _ hshows
    unfold WriteContext.seen seenIn
    rw [hwalk]
    have htree : (rootNode (w.tree.map (StreamLeaf.resolve (fileNumber w.tree)))).map
        (StreamLeaf.map ctx.payloadAt)
        = (rootNode (w.contents env codecs)).map
          (StreamLeaf.resolve (fileBehind (w.contents env codecs))) := by
      unfold StreamWriter.contents
      rw [NameTree.map, NameTree.map, NameForest.map_map, NameForest.map_map]
      refine congrArg (NameTree.dir EntryMeta.implicit) (NameForest.map_congr w.tree ?_)
      intro leaf hleaf
      cases leaf with
      | file n => exact congrArg StreamLeaf.file (hpayload n (hlive.wired _ hleaf n rfl))
      | symlink n => exact congrArg StreamLeaf.symlink (hpayload n (hlive.wired _ hleaf n rfl))
      | deferredLink target =>
          have hmem : target ∈ linkTargets w.tree := List.mem_filterMap.mpr ⟨_, hleaf, rfl⟩
          have hfile := hlive.wired _ (mem_leaves_chase _ _ _ (hfiles target hmem)) _ rfl
          exact congrArg StreamLeaf.file
            ((hpayload _ hfile).trans (fileBehind_eq (hfiles target hmem)).symm)
    rw [htree, NameTree.look_map]
    cases (rootNode (w.contents env codecs)).look path with
    | none => rfl
    | some v => rfl
  · intro inode hmem e he
    rw [himaged.inodes] at hmem
    rcases List.mem_append.mp hmem with hold | hnew
    · have hnone : inode.content.entries = [] :=
        entries_of_plain (hplain _ (List.mem_map_of_mem hold))
      rw [hnone] at he
      cases he
    · obtain ⟨entries, children, hdir, hchildren, hleaves⟩ := hlisted inode hnew
      rw [hdir] at he
      rcases ShowsChildren.targets children entries hchildren e he with ⟨leaf, hleaf, hn⟩ | hdir
      · have hheld := hlive.resolved hfiles leaf (hleaves leaf hleaf) _ hn
        rw [← hnumbers] at hheld
        obtain ⟨i, hi, hnumber⟩ := List.mem_map.mp hheld
        refine ⟨i, ?_, hnumber⟩
        rw [himaged.inodes]
        exact List.mem_append_left _ hi
      · exact hdir

end

end LimniFS
