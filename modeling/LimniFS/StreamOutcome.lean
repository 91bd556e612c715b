/-
What `finish` returns.

Two writers are alike when they hold the same contents and the same drops, and the same
files wait; the numbers they gave may differ.  Whether `finish` succeeds is decided by the
names, the links and the data that waits, none of which is a number: alike writers end
with the same error, or with images that show the same at every path and store the same
drops (`finishContext_alike`).
-/
import LimniFS.MetadataEncoding
import LimniFS.StreamImage

namespace LimniFS

open Lib

/-! ### The drops -/

/-- The drops and what is known about them; nothing that has a number. -/
def WriterState.store (s : WriterState) : WriterState :=
  { s with
    inodes := [], dirNodes := [], nlinkCounts := fun _ => none, inodeXattrs := fun _ => none
    fileCount := 0, dirCount := 0, rootInodeNumber := 0, nextInode := 0, pendingFiles := [] }

section

variable (env : WriterEnv) (codecs : StreamCodecs)

/-- Store the chunks of a file, unless it is inlined. -/
def storeDrops (fileLen : Nat) (chunks : List Bytes) (s : WriterState) : WriterState :=
  if fileLen ≤ codecs.inlineThreshold then s
  else (chunkedResult env codecs chunks).drops.foldl (mergeDrop env) s

/-- Store the drops of data that waited. -/
def storeData (s : WriterState) (data : Bytes) : Option WriterState :=
  (codecs.chunker.chunkSlice env.threads data).map fun chunks =>
    storeDrops env codecs data.length chunks s

variable {env codecs}

theorem store_mergeDrops (raws : List RawDrop) (s : WriterState) :
    (raws.foldl (mergeDrop env) s).store = raws.foldl (mergeDrop env) s.store := by
  refine (List.foldl_hom WriterState.store fun s r => ?_).symm
  unfold mergeDrop
  have hindex : s.store.dropIndex = s.dropIndex := rfl
  rw [hindex]
  by_cases hknown : r.id ∈ s.dropIndex
  · rw [if_pos hknown, if_pos hknown]
  · rw [if_neg hknown, if_neg hknown]
    rfl

theorem store_storeChunks (name : Bytes) (info : EntryMeta) (number : Nat) (wire : List XAttr)
    (chunks : List Bytes) (s : WriterState) :
    (storeChunks env codecs name info number wire chunks s).store
      = storeDrops env codecs (chunks.map List.length).sum chunks s.store := by
  unfold storeChunks storeDrops
  by_cases hlen : (chunks.map List.length).sum ≤ codecs.inlineThreshold
  · simp only [if_pos hlen]
    rfl
  · simp only [if_neg hlen]
    exact store_mergeDrops (chunkedResult env codecs chunks).drops
      { s with fileCount := s.fileCount + 1 }

theorem store_storeStaged (entry : StagedEntry) (chunks : List Bytes) (s : WriterState) :
    (storeStaged env codecs entry chunks s).store
      = storeDrops env codecs entry.data.length chunks s.store := by
  unfold storeStaged storeDrops
  by_cases hlen : entry.data.length ≤ codecs.inlineThreshold
  · simp only [if_pos hlen]
    rfl
  · simp only [if_neg hlen]
    by_cases hxattrs : entry.xattrs = []
    · simp only [if_pos hxattrs]
      exact store_mergeDrops (chunkedResult env codecs chunks).drops s
    · simp only [if_neg hxattrs]
      exact store_mergeDrops (chunkedResult env codecs chunks).drops
        { s with inodeXattrs := setEntry s.inodeXattrs entry.inodeNumber entry.xattrs }

theorem store_flushStaged : ∀ (staged : List StagedEntry) (s : WriterState),
    (flushStaged env codecs staged s).map WriterState.store
      = (staged.map (·.data)).foldlM (storeData env codecs) s.store := by
  intro staged
  unfold flushStaged
  induction staged with
  | nil =>
      intro s
      rfl
  | cons entry rest ih =>
      intro s
      rw [List.map_cons, List.foldlM_cons, List.foldlM_cons, flushEntry_eq, storeData]
      cases codecs.chunker.chunkSlice env.threads entry.data with
      | none => rfl
      | some chunks =>
          have hstored : (storeStaged env codecs entry chunks
              { s with pendingFiles := s.pendingFiles ++ [entry.file] }).store
              = storeDrops env codecs entry.data.length chunks s.store := store_storeStaged _ _ _
          simp only [Option.map_some, Option.bind_eq_bind, Option.bind_some]
          rw [ih, hstored]

theorem store_trainAndApplyDictionary (config : DictionaryConfig) (s : WriterState) :
    (trainAndApplyDictionary env config s).store = trainAndApplyDictionary env config s.store := by
  have hdicts : s.store.baseDictionaries = s.baseDictionaries := rfl
  unfold trainAndApplyDictionary
  by_cases henabled : config.enabled = false
  · rw [if_pos henabled, if_pos henabled]
    rfl
  · rw [if_neg henabled, if_neg henabled, hdicts]
    cases s.baseDictionaries with
    | none => rfl
    | some adopted => rfl

end

/-! ### The names -/

mutual

/-- Every directory below can be encoded. -/
def NodeFits {ι : Type} : StreamNode ι → Prop
  | .leaf _ => True
  | .dir _ children => (children.names.length < u32Limit ∧
      ∀ n ∈ children.names, n.length < u32Limit) ∧ ChildrenFit children

def ChildrenFit {ι : Type} : StreamDir ι → Prop
  | .nil => True
  | .cons _ node rest => NodeFits node ∧ ChildrenFit rest

end

mutual

def decidableNodeFits {ι : Type} : ∀ node : StreamNode ι, Decidable (NodeFits node)
  | .leaf _ => .isTrue trivial
  | .dir _ children => @instDecidableAnd _ _ _ (decidableChildrenFit children)

def decidableChildrenFit {ι : Type} : ∀ children : StreamDir ι, Decidable (ChildrenFit children)
  | .nil => .isTrue trivial
  | .cons _ node rest => @instDecidableAnd _ _ (decidableNodeFits node) (decidableChildrenFit rest)

end

instance {ι : Type} (node : StreamNode ι) : Decidable (NodeFits node) := decidableNodeFits node

section

variable {ι κ : Type}

mutual

theorem nodeFits_map (f : StreamLeaf ι → StreamLeaf κ) :
    ∀ node : StreamNode ι, NodeFits (node.map f) ↔ NodeFits node
  | .leaf _ => Iff.rfl
  | .dir _ children => by
      unfold NameTree.map NodeFits
      rw [NameForest.names_map, childrenFit_map f children]

theorem childrenFit_map (f : StreamLeaf ι → StreamLeaf κ) :
    ∀ children : StreamDir ι, ChildrenFit (children.map f) ↔ ChildrenFit children
  | .nil => Iff.rfl
  | .cons name node rest => by
      unfold NameForest.map ChildrenFit
      rw [nodeFits_map f node, childrenFit_map f rest]

end

end

theorem encodeDirNode_sorted {H : Hash} (entries : List DirEntry) :
    (encodeDirNode H (sortEntries entries)).isSome ↔
      entries.length < u32Limit ∧ ∀ n ∈ entries.map (·.name), n.length < u32Limit := by
  have hmem : ∀ e, e ∈ sortEntries entries ↔ e ∈ entries := fun e =>
    (List.perm_insertionSort _ entries).mem_iff
  have hlen : (sortEntries entries).length = entries.length := List.length_insertionSort _ entries
  constructor
  · intro h
    obtain ⟨node, hnode⟩ := Option.isSome_iff_exists.mp h
    obtain ⟨-, hcount, hnames⟩ := encodeDirNode_some hnode
    refine ⟨hlen ▸ hcount, fun n hn => ?_⟩
    obtain ⟨e, he, rfl⟩ := List.mem_map.mp hn
    exact hnames e ((hmem e).mpr he)
  · rintro ⟨hcount, hnames⟩
    have hall : (sortEntries entries).mapM (fun e => u32Bytes e.name.length)
        = some ((sortEntries entries).map fun e => leBytes 4 e.name.length) := by
      refine mapM_some_iff.mpr (List.forall₂_map_right_iff.mpr ?_)
      refine List.forall₂_same.mpr fun e he => ?_
      exact if_pos (hnames _ (List.mem_map_of_mem ((hmem e).mp he)))
    unfold encodeDirNode
    rw [hall, hlen, u32Bytes, if_pos hcount]
    rfl

section

variable (env : WriterEnv)

mutual

/-- Without links, making the directories goes wrong only where a directory does not fit; the drops
stay as they are. -/
theorem materializeNode_outcome : ∀ (node : StreamNode Nat) (s : WriterState),
    (∀ leaf ∈ node.leaves, leaf.linkTarget = none) →
    (∃ r, materializeNode env node s = .ok r ∧ r.2.store = s.store ∧ NodeFits node) ∨
      (materializeNode env node s = .error .panicked ∧ ¬NodeFits node)
  | .leaf (.file number), s, _ => .inl ⟨_, rfl, rfl, trivial⟩
  | .leaf (.symlink number), s, _ => .inl ⟨_, rfl, rfl, trivial⟩
  | .leaf (.deferredLink target), s, h => nomatch h _ List.mem_cons_self
  | .dir info children, s, h => by
      unfold materializeNode NodeFits
      rcases materializeChildren_outcome children (enterDir s) h with
        ⟨r, hr, hstore, hnames, hfit⟩ | ⟨herror, hfit⟩
      · rw [hr]
        simp only
        unfold leaveDir
        simp only
        have hiff := encodeDirNode_sorted (H := env.H) r.1
        rw [hnames] at hiff
        have hcount : r.1.length = children.names.length := by rw [← hnames, List.length_map]
        rw [hcount] at hiff
        cases hnode : encodeDirNode env.H (sortEntries r.1) with
        | none =>
            refine .inr ⟨rfl, fun hfits => ?_⟩
            have hsome := hiff.mpr hfits.1
            rw [hnode] at hsome
            cases hsome
        | some node =>
            rw [hnode] at hiff
            exact .inl ⟨_, rfl, hstore, hiff.mp rfl, hfit⟩
      · rw [herror]
        exact .inr ⟨rfl, fun hfits => hfit hfits.2⟩

theorem materializeChildren_outcome : ∀ (children : StreamDir Nat) (s : WriterState),
    (∀ leaf ∈ children.leaves, leaf.linkTarget = none) →
    (∃ r, materializeChildren env children s = .ok r ∧ r.2.store = s.store ∧
        r.1.map (·.name) = children.names ∧ ChildrenFit children) ∨
      (materializeChildren env children s = .error .panicked ∧ ¬ChildrenFit children)
  | .nil, s, _ => .inl ⟨_, rfl, rfl, rfl, trivial⟩
  | .cons name node rest, s, h => by
      unfold NameForest.leaves at h
      unfold materializeChildren ChildrenFit
      rcases materializeNode_outcome node s fun leaf hleaf =>
        h leaf (List.mem_append_left _ hleaf) with ⟨first, hfirst, hstore, hfit⟩ | ⟨herror, hfit⟩
      · rw [hfirst]
        simp only
        rcases materializeChildren_outcome rest first.2 fun leaf hleaf =>
          h leaf (List.mem_append_right _ hleaf) with
          ⟨others, hothers, hstore', hnames, hrest⟩ | ⟨herror, hrest⟩
        · rw [hothers]
          refine .inl ⟨_, rfl, hstore'.trans hstore, ?_, hfit, hrest⟩
          rw [List.map_cons, hnames]
          rfl
        · rw [herror]
          exact .inr ⟨rfl, fun hfits => hrest hfits.2⟩
      · rw [herror]
        exact .inr ⟨rfl, fun hfits => hfit hfits.1⟩

end

end

/-! ### The outcome -/

theorem linkTarget_resolve {ι : Type} (g : Bytes → ι) (tree : StreamDir ι) :
    ∀ leaf ∈ (tree.map (StreamLeaf.resolve g)).leaves, leaf.linkTarget = none := by
  intro leaf hleaf
  rw [NameForest.leaves_map] at hleaf
  obtain ⟨old, -, rfl⟩ := List.mem_map.mp hleaf
  cases old <;> rfl

section

variable (env : WriterEnv) (codecs : StreamCodecs) (dictionaries : DictionaryConfig)

/-- What `finish` returns, as far as the drops go: by the contents, the data that waits and the
drops there are. -/
def finishStore (contents : StreamDir (Option Payload)) (waiting : List Bytes)
    (store : WriterState) : Except WriteStop WriterState :=
  match waiting.foldlM (storeData env codecs) store with
  | none => .error .panicked
  | some stored =>
    match (linkTargets contents).mapM (linkFile contents) with
    | .error e => .error (.failed e)
    | .ok _ =>
      if NodeFits (rootNode contents) then .ok (trainAndApplyDictionary env dictionaries stored)
      else .error .panicked

variable {env codecs dictionaries} {w w' : StreamWriter}

theorem mapM_linkFile_contents (w : StreamWriter) :
    (linkTargets (w.contents env codecs)).mapM (linkFile (w.contents env codecs))
      = ((linkTargets w.tree).mapM (linkFile w.tree)).map
        (List.map ((w.held env codecs).lookup ·)) := by
  unfold StreamWriter.contents
  rw [linkTargets_map]
  generalize linkTargets w.tree = targets
  induction targets with
  | nil => rfl
  | cons target rest ih =>
      rw [List.mapM_cons, List.mapM_cons, linkFile_map, ih]
      cases linkFile w.tree target with
      | error e => rfl
      | ok n =>
          cases rest.mapM (linkFile w.tree) with
          | error e => rfl
          | ok numbers => rfl

/-- **Numbers do not decide what `finish` returns.** -/
theorem store_finishContext (w : StreamWriter) :
    (w.finishContext env codecs dictionaries).map WriterState.store
      = finishStore env codecs dictionaries (w.contents env codecs) (w.staged.map (·.data))
        w.ctx.store := by
  unfold StreamWriter.finishContext finishStore
  rw [← store_flushStaged, mapM_linkFile_contents]
  cases flushStaged env codecs w.staged w.ctx with
  | none => rfl
  | some s =>
      simp only [Option.map_some]
      cases hresolve : resolveDeferredLinks w.tree s with
      | error e =>
          have hlinks : (linkTargets w.tree).mapM (linkFile w.tree) = .error e := by
            unfold resolveDeferredLinks at hresolve
            cases hmap : (linkTargets w.tree).mapM (linkFile w.tree) with
            | error e' =>
                unfold linkFile at hmap
                rw [hmap] at hresolve
                cases hresolve
                rfl
            | ok numbers =>
                unfold linkFile at hmap
                rw [hmap] at hresolve
                cases hresolve
          rw [hlinks]
          rfl
      | ok resolved =>
          obtain ⟨tree, s₁⟩ := resolved
          have hlinks : ∃ numbers, (linkTargets w.tree).mapM (linkFile w.tree) = .ok numbers := by
            obtain ⟨numbers, hmap, -⟩ := except_bind_eq_ok.mp hresolve
            exact ⟨numbers, hmap⟩
          obtain ⟨numbers, hlinks⟩ := hlinks
          obtain ⟨rfl, -, counts, rfl⟩ := resolveDeferredLinks_ok hresolve
          rw [hlinks]
          simp only [Except.map]
          have hfits : NodeFits (rootNode (w.tree.map (StreamLeaf.resolve (fileNumber w.tree))))
              ↔ NodeFits (rootNode (w.contents env codecs)) :=
            (nodeFits_map _ (rootNode w.tree)).trans (nodeFits_map _ (rootNode w.tree)).symm
          rcases materializeNode_outcome env
            (rootNode (w.tree.map (StreamLeaf.resolve (fileNumber w.tree))))
            { s with nlinkCounts := counts } (linkTarget_resolve _ w.tree) with
            ⟨made, hmade, hstore, hfit⟩ | ⟨herror, hfit⟩
          · rw [hmade, if_pos (hfits.mp hfit)]
            refine congrArg Except.ok ?_
            rw [store_trainAndApplyDictionary]
            exact congrArg (trainAndApplyDictionary env dictionaries) hstore
          · rw [herror, if_neg fun h => hfit (hfits.mpr h)]

/-- Two writers that differ in the numbers they gave at most. -/
structure Alike (env : WriterEnv) (codecs : StreamCodecs) (w w' : StreamWriter) : Prop where
  live : Live env codecs w
  live' : Live env codecs w'
  contents : w.contents env codecs = w'.contents env codecs
  store : w.ctx.store = w'.ctx.store
  waiting : w.staged.map (·.data) = w'.staged.map (·.data)

/-- The same tree over the same drops, and no entry without an inode. -/
structure SameTree (ctx ctx' : WriteContext) : Prop where
  seen : ∀ path, ctx.seen path = ctx'.seen path
  drops : ctx.drops = ctx'.drops
  dicts : ctx.trainedDicts = ctx'.trainedDicts
  closed : ctx.EntriesClosed
  closed' : ctx'.EntriesClosed

/-- **Alike writers finish alike.** -/
theorem finishContext_alike (h : Alike env codecs w w') :
    (∃ e, w.finishContext env codecs dictionaries = .error e ∧
        w'.finishContext env codecs dictionaries = .error e) ∨
      ∃ ctx ctx', w.finishContext env codecs dictionaries = .ok ctx ∧
        w'.finishContext env codecs dictionaries = .ok ctx' ∧
        SameTree ctx.toWriteContext ctx'.toWriteContext := by
  have hstore : (w.finishContext env codecs dictionaries).map WriterState.store
      = (w'.finishContext env codecs dictionaries).map WriterState.store := by
    rw [store_finishContext, store_finishContext, h.contents, h.store, h.waiting]
  cases hctx : w.finishContext env codecs dictionaries with
  | error e =>
      cases hctx' : w'.finishContext env codecs dictionaries with
      | error e' =>
          rw [hctx, hctx'] at hstore
          cases hstore
          exact .inl ⟨e, rfl, rfl⟩
      | ok ctx' =>
          rw [hctx, hctx'] at hstore
          cases hstore
  | ok ctx =>
      cases hctx' : w'.finishContext env codecs dictionaries with
      | error e' =>
          rw [hctx, hctx'] at hstore
          cases hstore
      | ok ctx' =>
          rw [hctx, hctx'] at hstore
          have hsame : ctx.store = ctx'.store := Except.ok.inj hstore
          obtain ⟨hseen, hclosed⟩ := finishContext_shows h.live hctx
          obtain ⟨hseen', hclosed'⟩ := finishContext_shows h.live' hctx'
          refine .inr ⟨ctx, ctx', rfl, rfl, ?_, ?_, ?_, hclosed, hclosed'⟩
          · intro path
            rw [hseen, hseen', h.contents]
          · exact congrArg (·.toWriteContext.drops) hsame
          · exact congrArg (·.toWriteContext.trainedDicts) hsame

end

end LimniFS
