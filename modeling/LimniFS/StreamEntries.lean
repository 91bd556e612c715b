/-
Entries in some order.

After a sequence of calls that succeed, with paths that differ pairwise, every place is
known: the path of an entry holds what the entry brings, a path on the way to an entry is
an implicit directory, and nothing else is there.  Only what a directory brings depends on
the calls before it: below an entry that came earlier it is already there and keeps the
identity of an implicit one (`StreamCall.laid`).

Whether all directories of a tree can be encoded is seen in what stands where
(`nodeFits_congr`).  The calls of entries let nothing wait, and the chunks of every file
that is not inlined are among the drops when its call returns (`backed_run`).
-/
import LimniFS.StreamPlaces
import LimniFS.StreamRejects

namespace LimniFS

open Lib

section

variable (env : WriterEnv) (codecs : StreamCodecs)

/-- Every call of a sequence succeeds. -/
def AllSucceed : List StreamCall → StreamWriter → StreamWriter → Prop
  | [], w, v => v = w
  | call :: rest, w, v => ∃ w', call.run env codecs w = some (w', .ok ()) ∧ AllSucceed rest w' v

/-- What an entry leaves in its place, behind the calls `before`. -/
def StreamCall.laid (before : List StreamCall) (call : StreamCall) :
    Option (EntryMeta ⊕ StreamLeaf (Option Payload)) :=
  call.placed env codecs
    (if ∃ a ∈ before, call.path <+: a.path then some (.inl .implicit) else none)

/-- The places behind the calls `done`. -/
structure Laid (done : List StreamCall)
    (places : Path → Option (EntryMeta ⊕ StreamLeaf (Option Payload))) : Prop where
  root : places [] = some (.inl .implicit)
  entry : ∀ before call after, done = before ++ call :: after → call.path ≠ [] →
    places call.path = call.laid env codecs before
  atRoot : ∀ call ∈ done, call.path = [] → ∃ info, call = .addDir (ascii "/") info
  there : ∀ call ∈ done, (places call.path).isSome
  other : ∀ q, q ≠ [] → (∀ call ∈ done, call.path ≠ q) →
    places q = if ∃ call ∈ done, q <+: call.path then some (.inl .implicit) else none

end

section

variable {env : WriterEnv} {codecs : StreamCodecs} {w w' : StreamWriter} {call : StreamCall}
  {done : List StreamCall} {places places' : Path → Option (EntryMeta ⊕ StreamLeaf (Option Payload))}

theorem prefix_dropLast {q path : Path} (hpath : path ≠ []) (hq : q ≠ path) :
    q <+: path.dropLast ↔ q <+: path := by
  have hsplit := List.dropLast_append_getLast hpath
  constructor
  · exact fun h => h.trans (List.dropLast_prefix path)
  · intro h
    rw [← hsplit, List.prefix_concat_iff, hsplit] at h
    exact h.resolve_left hq

theorem split_concat {before after : List StreamCall} {c : StreamCall}
    (h : done ++ [call] = before ++ c :: after) :
    (before = done ∧ c = call) ∨ ∃ after', done = before ++ c :: after' := by
  rcases List.eq_nil_or_concat after with rfl | ⟨after', last, rfl⟩
  · obtain ⟨hbefore, hc⟩ := List.append_inj' h rfl
    exact .inl ⟨hbefore.symm, (List.singleton_inj.mp hc).symm⟩
  · rw [List.concat_eq_append, ← List.cons_append, ← List.append_assoc] at h
    exact .inr ⟨after', (List.append_inj' h rfl).1⟩

/-- A step: one place is new, and the directories on the way to it. -/
theorem Laid.snoc (h : Laid env codecs done places) (hpath : call.path ≠ [])
    (hfresh : ∀ c ∈ done, c.path ≠ call.path)
    (hsome : (call.placed env codecs (places call.path)).isSome)
    (hstep : ∀ q, places' q = if q = call.path then call.placed env codecs (places q)
      else (places q).or (onTheWay call.path.dropLast q)) :
    Laid env codecs (done ++ [call]) places' := by
  have hold : ∀ c ∈ done, places' c.path = places c.path := by
    intro c hc
    rw [hstep, if_neg (hfresh c hc)]
    exact Option.or_of_isSome (h.there c hc)
  refine ⟨?_, ?_, ?_, ?_, ?_⟩
  · rw [hstep, if_neg hpath.symm, h.root]
    rfl
  · intro before c after hdone hc
    rcases split_concat hdone with ⟨rfl, rfl⟩ | ⟨after', rfl⟩
    · rw [hstep, if_pos rfl, h.other _ hpath hfresh]
      rfl
    · rw [hold c (by simp)]
      exact h.entry before c after' rfl hc
  · intro c hc hroot
    rcases List.mem_append.mp hc with hc | hc
    · exact h.atRoot c hc hroot
    · rw [List.mem_singleton.mp hc] at hroot
      exact absurd hroot hpath
  · intro c hc
    rcases List.mem_append.mp hc with hc | hc
    · rw [hold c hc]
      exact h.there c hc
    · rw [List.mem_singleton.mp hc, hstep, if_pos rfl]
      exact hsome
  · intro q hq hne
    have hcall : q ≠ call.path := fun heq => hne call (by simp) heq.symm
    rw [hstep, if_neg hcall, h.other q hq fun c hc => hne c (List.mem_append_left _ hc)]
    unfold onTheWay
    simp only [prefix_dropLast hpath hcall, List.mem_append, List.mem_singleton, or_and_right,
      exists_or, exists_eq_left]
    by_cases hdone : ∃ c ∈ done, q <+: c.path
    · rw [if_pos hdone, Option.some_or]
      exact (if_pos (Or.inl hdone)).symm
    · rw [if_neg hdone, Option.none_or]
      simp only [hdone, false_or]

theorem Laid.snoc_root (h : Laid env codecs done places) (hpath : call.path = [])
    (hdir : ∃ info, call = .addDir (ascii "/") info) :
    Laid env codecs (done ++ [call]) places := by
  refine ⟨h.root, ?_, ?_, ?_, ?_⟩
  · intro before c after hdone hc
    rcases split_concat hdone with ⟨rfl, rfl⟩ | ⟨after', rfl⟩
    · exact absurd hpath hc
    · exact h.entry before c after' rfl hc
  · intro c hc hroot
    rcases List.mem_append.mp hc with hc | hc
    · exact h.atRoot c hc hroot
    · rw [List.mem_singleton.mp hc]
      exact hdir
  · intro c hc
    rcases List.mem_append.mp hc with hc | hc
    · exact h.there c hc
    · rw [List.mem_singleton.mp hc, hpath, h.root]
      rfl
  · intro q hq hne
    rw [h.other q hq fun c hc => hne c (List.mem_append_left _ hc)]
    simp only [List.mem_append, List.mem_singleton, or_and_right, exists_or, exists_eq_left, hpath,
      List.prefix_nil, hq, or_false]

theorem placed_isSome (hlive : Live env codecs w)
    (hrun : call.run env codecs w = some (w', .ok ()))
    (found : Option (EntryMeta ⊕ StreamLeaf (Option Payload))) :
    (call.placed env codecs found).isSome := by
  by_cases hdir : ∀ name info, call ≠ .addDir name info
  · obtain ⟨-, leaf, -, hleaf, -⟩ := (puts_of_run hlive hrun hdir).contents
    rw [placed_of_leaf hleaf]
    rfl
  · simp only [not_forall, ne_eq, not_not] at hdir
    obtain ⟨name, info, rfl⟩ := hdir
    rfl

/-- One call. -/
theorem Laid.run (hlive : Live env codecs w)
    (h : Laid env codecs done fun q => (rootNode (w.contents env codecs)).look q)
    (hfresh : ∀ c ∈ done, c.path ≠ call.path)
    (hrun : call.run env codecs w = some (w', .ok ())) :
    Live env codecs w' ∧
      Laid env codecs (done ++ [call]) fun q => (rootNode (w'.contents env codecs)).look q := by
  by_cases hpath : call.path = []
  · obtain ⟨rfl, hdir⟩ := run_root hlive hpath hrun
    exact ⟨hlive, h.snoc_root hpath hdir⟩
  · obtain ⟨hlive', hstep⟩ := look_run hlive hpath hrun
    exact ⟨hlive', h.snoc hpath hfresh (placed_isSome hlive hrun _) hstep⟩

/-- **A sequence of calls that succeed.** -/
theorem laid_run : ∀ (calls done : List StreamCall) (w v : StreamWriter), Live env codecs w →
    (Laid env codecs done fun q => (rootNode (w.contents env codecs)).look q) →
    ((done ++ calls).map StreamCall.path).Nodup → AllSucceed env codecs calls w v →
    Live env codecs v ∧
      Laid env codecs (done ++ calls) fun q => (rootNode (v.contents env codecs)).look q := by
  intro calls
  induction calls with
  | nil =>
      intro done w v hlive hlaid _ hall
      cases hall
      rw [List.append_nil]
      exact ⟨hlive, hlaid⟩
  | cons call rest ih =>
      intro done w v hlive hlaid hnodup hall
      obtain ⟨w', hrun, hall⟩ := hall
      have hfresh : ∀ c ∈ done, c.path ≠ call.path := by
        intro c hc heq
        rw [List.map_append, List.map_cons] at hnodup
        exact (List.nodup_append.mp hnodup).2.2 _ (List.mem_map_of_mem hc) _ List.mem_cons_self heq
      obtain ⟨hlive', hlaid'⟩ := hlaid.run hlive hfresh hrun
      have hstep := ih (done ++ [call]) w' v hlive' hlaid'
      rw [List.append_assoc, List.singleton_append] at hstep
      exact hstep hnodup hall

theorem laid_new : Laid env codecs [] fun q =>
    (rootNode (NameForest.nil : StreamDir (Option Payload))).look q := by
  refine ⟨rfl, ?_, nofun, nofun, ?_⟩
  · intro before call after h
    cases before <;> cases h
  · intro q hq _
    cases q with
    | nil => exact absurd rfl hq
    | cons n p => simp [NameTree.look, NameForest.get]

end

/-! ### Trees of one shape -/

section

variable {ι : Type}

theorem names_congr {info info' : EntryMeta} {children children' : StreamDir ι}
    (hsorted : children.Sorted) (hsorted' : children'.Sorted)
    (h : ∀ q, ((NameTree.dir info children).look q).map Sum.isLeft
      = ((NameTree.dir info' children').look q).map Sum.isLeft) :
    children.names = children'.names := by
  refine List.Pairwise.eq_of_mem_iff (sorted_names _ hsorted) (sorted_names _ hsorted') ?_
  intro name
  have hname := congrArg Option.isSome (h [name])
  rw [NameTree.look, NameTree.look, Option.isSome_map, Option.isSome_map] at hname
  rw [NameForest.mem_names_iff, NameForest.mem_names_iff]
  have hlook : ∀ forest : StreamDir ι,
      ((forest.get name).bind (NameTree.look [])).isSome = (forest.get name).isSome := by
    intro forest
    cases forest.get name with
    | none => rfl
    | some node => cases node <;> rfl
  rw [hlook, hlook] at hname
  rw [hname]

mutual

/-- What fits is seen in what stands where. -/
theorem nodeFits_congr : ∀ node node' : StreamNode ι, node.Sorted → node'.Sorted →
    (∀ q, (node.look q).map Sum.isLeft = (node'.look q).map Sum.isLeft) →
    (NodeFits node ↔ NodeFits node')
  | .leaf _, .leaf _, _, _, _ => Iff.rfl
  | .leaf _, .dir _ _, _, _, h => nomatch h []
  | .dir _ _, .leaf _, _, _, h => nomatch h []
  | .dir info children, .dir info' children', hsorted, hsorted', h => by
      have hnames := names_congr hsorted hsorted' h
      unfold NodeFits
      rw [hnames]
      refine and_congr_right fun _ => ?_
      refine childrenFit_congr children children' hsorted hsorted' hnames ?_
      intro name node node' hget hget' q
      have hbelow := h (name :: q)
      rw [NameTree.look, NameTree.look, hget, hget'] at hbelow
      exact hbelow

theorem childrenFit_congr : ∀ children children' : StreamDir ι, children.Sorted →
    children'.Sorted → children.names = children'.names →
    (∀ name node node', children.get name = some node → children'.get name = some node' →
      ∀ q, (node.look q).map Sum.isLeft = (node'.look q).map Sum.isLeft) →
    (ChildrenFit children ↔ ChildrenFit children')
  | .nil, .nil, _, _, _, _ => Iff.rfl
  | .nil, .cons _ _ _, _, _, hnames, _ => nomatch hnames
  | .cons _ _ _, .nil, _, _, hnames, _ => nomatch hnames
  | .cons name node rest, .cons name' node' rest', hsorted, hsorted', hnames, h => by
      obtain ⟨rfl, hrest⟩ := List.cons.inj hnames
      unfold ChildrenFit
      refine and_congr ?_ ?_
      · exact nodeFits_congr node node' hsorted.tree hsorted'.tree
          (h name node node' (if_pos rfl) (if_pos rfl))
      · refine childrenFit_congr rest rest' hsorted.rest hsorted'.rest hrest ?_
        intro other found found' hget hget'
        have hmem : other ∈ rest.names := (NameForest.mem_names_iff rest).mpr (by rw [hget]; rfl)
        have hne : name ≠ other := fun heq => Std.Irrefl.irrefl other (heq ▸ hsorted.lt other hmem)
        refine h other found found' ?_ ?_
        · rw [NameForest.get, if_neg hne]
          exact hget
        · rw [NameForest.get, if_neg hne]
          exact hget'

end

end

/-! ### What is stored -/

/-- A call of an entry; a staged file is another way to bring one. -/
def StreamCall.isEntry : StreamCall → Bool
  | .stageFile .. => false
  | _ => true

/-- Nothing waits, and the chunks of the files that are not inlined are stored. -/
structure Backed (env : WriterEnv) (codecs : StreamCodecs) (done : List StreamCall)
    (w : StreamWriter) : Prop where
  staged : w.staged = []
  kept : ∃ raws, DropsKept raws w.ctx
  files : ∀ name info xattrs reader, .addFile name info xattrs reader ∈ done → ∀ chunks,
    codecs.chunker.scalar.chunkReader reader = some (.ok chunks) →
    codecs.inlineThreshold < (chunks.map List.length).sum →
    ∀ chunk ∈ chunks, env.H chunk ∈ w.ctx.dropIndex

section

variable {env : WriterEnv} {codecs : StreamCodecs} {w w' : StreamWriter} {call : StreamCall}
  {done : List StreamCall}

/-- A call that stores nothing. -/
theorem Backed.keep (h : Backed env codecs done w) (hstaged : w'.staged = w.staged)
    (hindex : w'.ctx.dropIndex = w.ctx.dropIndex) (hdrops : w'.ctx.drops = w.ctx.drops)
    (hcall : ∀ name info xattrs reader, call ≠ .addFile name info xattrs reader) :
    Backed env codecs (done ++ [call]) w' where
  staged := hstaged.trans h.staged
  kept := by
    obtain ⟨raws, hkept⟩ := h.kept
    refine ⟨raws, ?_, ?_, ?_⟩
    · rw [hindex, hdrops]
      exact hkept.index
    · rw [hdrops]
      exact hkept.ids
    · rw [hdrops]
      exact hkept.kept
  files := by
    intro name info xattrs reader hmem
    rw [hindex]
    rcases List.mem_append.mp hmem with hmem | hmem
    · exact h.files name info xattrs reader hmem
    · exact absurd (List.mem_singleton.mp hmem).symm (hcall name info xattrs reader)

/-- The drops of a file that is stored. -/
theorem storeDrops_kept (env : WriterEnv) (codecs : StreamCodecs) {raws : List RawDrop} {s : WriterState} (h : DropsKept raws s)
    (fileLen : Nat) (chunks : List Bytes) :
    (∃ raws', DropsKept raws' (storeDrops env codecs fileLen chunks s)) ∧
      (∀ id ∈ s.dropIndex, id ∈ (storeDrops env codecs fileLen chunks s).dropIndex) ∧
      (codecs.inlineThreshold < fileLen → ∀ chunk ∈ chunks,
        env.H chunk ∈ (storeDrops env codecs fileLen chunks s).dropIndex) := by
  unfold storeDrops
  by_cases hlen : fileLen ≤ codecs.inlineThreshold
  · rw [if_pos hlen]
    exact ⟨⟨raws, h⟩, fun _ hid => hid, fun hlt => absurd hlen (Nat.not_le_of_lt hlt)⟩
  · rw [if_neg hlen]
    obtain ⟨hkept, -, hindex⟩ := mergeDrops_kept env (chunkedResult env codecs chunks).drops raws s h
    refine ⟨⟨_, hkept⟩, fun id hid => hindex id (.inl hid), fun _ chunk hchunk => ?_⟩
    exact hindex _ (.inr ⟨_, List.mem_map_of_mem hchunk, rfl⟩)

theorem dropsKept_store {raws : List RawDrop} {s : WriterState} :
    DropsKept raws s.store ↔ DropsKept raws s :=
  ⟨fun h => ⟨h.index, h.ids, h.kept⟩, fun h => ⟨h.index, h.ids, h.kept⟩⟩

theorem Backed.run (h : Backed env codecs done w) (hentry : call.isEntry = true)
    (hrun : call.run env codecs w = some (w', .ok ())) :
    Backed env codecs (done ++ [call]) w' := by
  cases call with
  | addFile name info xattrs reader =>
      rw [StreamCall.run] at hrun
      have hadded := addFile_added env codecs w name info xattrs reader
      rw [hrun] at hadded
      cases hadded with
      | @stored slot wire chunks hslot hwire hread =>
          obtain ⟨raws, hkept⟩ := h.kept
          have hopened : DropsKept raws (openedState name info w.ctx).store :=
            dropsKept_store.mpr ⟨hkept.index, hkept.ids, hkept.kept⟩
          obtain ⟨⟨raws', hkept'⟩, hold, hnew⟩ := storeDrops_kept env codecs hopened
            (chunks.map List.length).sum chunks
          rw [← store_storeChunks name info w.ctx.nextInode wire] at hkept' hold hnew
          refine ⟨h.staged, ⟨raws', dropsKept_store.mp hkept'⟩, ?_⟩
          intro name' info' xattrs' reader' hmem chunks' hread' hlen chunk hchunk
          rcases List.mem_append.mp hmem with hmem | hmem
          · exact hold _ (h.files name' info' xattrs' reader' hmem chunks' hread' hlen chunk hchunk)
          · cases List.mem_singleton.mp hmem
            rw [hread] at hread'
            cases hread'
            exact hnew hlen chunk hchunk
  | stageFile name info xattrs data => cases hentry
  | addDir name info =>
      obtain ⟨hctx, hstaged⟩ := addDir_frame (Option.some.inj hrun)
      exact h.keep hstaged (by rw [hctx]) (by rw [hctx]) (by simp)
  | addHardlink name target =>
      rw [StreamCall.run] at hrun
      cases hslot : (newSlot name w.tree).2 with
      | error e =>
          rw [addHardlink_refused hslot] at hrun
          cases hrun
      | ok slot =>
          rw [addHardlink_added hslot] at hrun
          cases hrun
          exact h.keep rfl rfl rfl (by simp)
  | addSymlink name target info =>
      rw [StreamCall.run] at hrun
      cases hslot : (newSlot name w.tree).2 with
      | error e =>
          rw [addSymlink_refused hslot] at hrun
          cases hrun
      | ok slot =>
          rw [addSymlink_added hslot] at hrun
          cases hrun
          exact h.keep rfl rfl rfl (by simp)

theorem backed_run : ∀ (calls done : List StreamCall) (w v : StreamWriter),
    Backed env codecs done w → (∀ call ∈ calls, call.isEntry = true) →
    AllSucceed env codecs calls w v → Backed env codecs (done ++ calls) v := by
  intro calls
  induction calls with
  | nil =>
      intro done w v h _ hall
      cases hall
      rw [List.append_nil]
      exact h
  | cons call rest ih =>
      intro done w v h hentries hall
      obtain ⟨w', hrun, hall⟩ := hall
      have hstep := ih (done ++ [call]) w' v (h.run (hentries call List.mem_cons_self) hrun)
        (fun c hc => hentries c (List.mem_cons_of_mem _ hc)) hall
      rw [List.append_assoc, List.singleton_append] at hstep
      exact hstep

theorem backed_new {config : WriteConfig} {started : StreamCodecs × StreamWriter}
    (hnew : StreamWriter.new config = .ok started) : Backed env started.1 [] started.2 := by
  obtain ⟨chunker, -, hnew⟩ := except_bind_eq_ok.mp hnew
  obtain ⟨codecs, -, hnew⟩ := except_bind_eq_ok.mp hnew
  cases hnew
  exact ⟨rfl, ⟨[], dropsKept_nil rfl rfl⟩, nofun⟩

end

end LimniFS
