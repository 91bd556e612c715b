/-
Entries in the image.

What is asked of the image of a set of entries: every entry is shown at its path as it was
added, a file with its bytes, a link as the file it names.  Behind calls that all succeed
every link leads to its file, so `finish` goes wrong only where a directory is too large
to be encoded (`Entered.finish`), and the image shows every entry that is no directory as
it was added (`Entered.shownIn`).
-/
import LimniFS.StreamEntries

namespace LimniFS

open Lib

/-! ### What is asked of the images -/

/-- The permissions, the owner and the group of a directory that no call asked for. -/
def EntryMeta.LikeImplicit (info : EntryMeta) : Prop :=
  info.perms &&& 0o7777 = 0o755 ∧ info.uid = 0 ∧ info.gid = 0

/-- Every directory comes before what is below it, or asks for nothing an implicit one has not;
the root is always implicit. -/
structure DirsInTime (calls : List StreamCall) : Prop where
  below : ∀ before name info after, calls = before ++ .addDir name info :: after →
    (∃ a ∈ before, (StreamCall.addDir name info).path <+: a.path) → info.LikeImplicit
  root : ∀ info, .addDir (ascii "/") info ∈ calls → info.LikeImplicit ∧ info.mtimeNs = 0

/-- The targets of the hard links are files among the entries. -/
def LinksToFiles (calls : List StreamCall) : Prop :=
  ∀ name target, .addHardlink name target ∈ calls → ∃ file info xattrs reader,
    .addFile file info xattrs reader ∈ calls ∧ targetPath target = nameComponents file

def Payload.Carries (p : Payload) (kind : Nat) (info : EntryMeta) : Prop :=
  p.mode = info.mode kind ∧ p.uid = info.uid ∧ p.gid = info.gid ∧ p.mtimeNs = info.mtimeNs

/-- A file of these bytes, inlined or in chunks whose drops are there. -/
def WriteContext.FileHolds (H : Hash) (ctx : WriteContext) (p : Payload) (data : Bytes) : Prop :=
  p.content = .inline data ∨
    ∃ chunks, chunks.flatten = data ∧ p.content = .dropBacked data.length (slicesFrom H 0 chunks) ∧
      ∀ chunk ∈ chunks, H chunk ∈ ctx.drops.map (·.id)

/-- The image shows the entry as it was added. -/
def StreamCall.ShownIn (H : Hash) (ctx : WriteContext) (call : StreamCall) : Prop :=
  match call with
  | .addFile _ info _ reader => ∃ p, ctx.seen call.path = some (EntryType.file, p) ∧
      p.Carries sIfreg info ∧ ctx.FileHolds H p (FastCDC.delivered reader)
  | .addSymlink _ target info => ∃ p, ctx.seen call.path = some (EntryType.symlink, p) ∧
      p.Carries sIflnk info ∧ p.content = .symlink target
  | .addDir _ info => ∃ p, ctx.seen call.path = some (EntryType.directory, p) ∧
      p.Carries sIfdir info
  | .addHardlink _ target => ∃ p, ctx.seen call.path = some (EntryType.file, p) ∧
      ctx.seen (targetPath target) = some (EntryType.file, p)
  | .stageFile .. => True

/-- The same at every path, and every entry as it was added. -/
structure OrderFree (H : Hash) (calls : List StreamCall) (ctx ctx' : WriteContext) : Prop where
  seen : ∀ path, ctx.seen path = ctx'.seen path
  entries : ∀ call ∈ calls, call.ShownIn H ctx ∧ call.ShownIn H ctx'

/-! ### One order -/

/-- The entries were all added. -/
structure Entered (env : WriterEnv) (codecs : StreamCodecs) (calls : List StreamCall)
    (v : StreamWriter) : Prop where
  live : Live env codecs v
  laid : Laid env codecs calls fun q => (rootNode (v.contents env codecs)).look q
  backed : Backed env codecs calls v

section

variable {env : WriterEnv} {codecs : StreamCodecs} {calls calls' : List StreamCall}
  {v v' : StreamWriter} {dictionaries : DictionaryConfig} {ctx ctx' : WriterState}

theorem entered_of_run {config : WriteConfig} {started : StreamCodecs × StreamWriter}
    (hnew : StreamWriter.new config = .ok started) (hentries : ∀ call ∈ calls, call.isEntry = true)
    (hpaths : (calls.map StreamCall.path).Nodup)
    (hrun : AllSucceed env started.1 calls started.2 v) : Entered env started.1 calls v := by
  obtain ⟨hlive, hcontents, -⟩ := live_new env hnew
  have hlaid : Laid env started.1 [] fun q => (rootNode (started.2.contents env started.1)).look q :=
    hcontents ▸ laid_new
  obtain ⟨hlive', hlaid'⟩ := laid_run calls [] started.2 v hlive hlaid hpaths hrun
  exact ⟨hlive', hlaid', backed_run calls [] started.2 v (backed_new hnew) hentries hrun⟩

theorem Entered.look (h : Entered env codecs calls v) {before after : List StreamCall}
    {call : StreamCall} (hcalls : calls = before ++ call :: after) (hpath : call.path ≠ []) :
    (rootNode (v.contents env codecs)).look call.path = call.laid env codecs before :=
  h.laid.entry before call after hcalls hpath

theorem Entered.path_ne_nil (h : Entered env codecs calls v) {call : StreamCall}
    (hmem : call ∈ calls) (hdir : ∀ name info, call ≠ .addDir name info) : call.path ≠ [] := by
  intro hpath
  obtain ⟨info, hcall⟩ := h.laid.atRoot call hmem hpath
  exact hdir _ info hcall

/-- An entry that is no directory stands at its path. -/
theorem Entered.look_leaf (h : Entered env codecs calls v) {call : StreamCall}
    (hmem : call ∈ calls) (hdir : ∀ name info, call ≠ .addDir name info) :
    ∃ leaf, call.leaf env codecs = some leaf ∧
      (rootNode (v.contents env codecs)).look call.path = some (.inr leaf) := by
  obtain ⟨before, after, hcalls⟩ := List.append_of_mem hmem
  have hlook := h.look hcalls (h.path_ne_nil hmem hdir)
  have hsome := h.laid.there call hmem
  cases hleaf : call.leaf env codecs with
  | some leaf => exact ⟨leaf, rfl, hlook.trans (placed_of_leaf hleaf _)⟩
  | none =>
      simp only [hlook] at hsome
      have hnone : call.laid env codecs before = none := placed_of_no_leaf hleaf hdir _
      rw [hnone] at hsome
      cases hsome

theorem Entered.of_look (h : Entered env codecs calls v) {q : Path}
    {leaf : StreamLeaf (Option Payload)}
    (hlook : (rootNode (v.contents env codecs)).look q = some (.inr leaf)) :
    ∃ call ∈ calls, call.leaf env codecs = some leaf := by
  by_cases hq : q = []
  · rw [hq, NameTree.look] at hlook
    cases hlook
  · by_cases hentry : ∃ call ∈ calls, call.path = q
    · obtain ⟨call, hmem, rfl⟩ := hentry
      by_cases hdir : ∀ name info, call ≠ .addDir name info
      · obtain ⟨other, hleaf, hother⟩ := h.look_leaf hmem hdir
        rw [hlook] at hother
        cases hother
        exact ⟨call, hmem, hleaf⟩
      · simp only [not_forall, ne_eq, not_not] at hdir
        obtain ⟨name, info, rfl⟩ := hdir
        obtain ⟨before, after, hcalls⟩ := List.append_of_mem hmem
        rw [h.look hcalls hq] at hlook
        cases hlook
    · have hother : ∀ call ∈ calls, call.path ≠ q := fun call hmem heq => hentry ⟨call, hmem, heq⟩
      have hplace : (rootNode (v.contents env codecs)).look q = _ := h.laid.other q hq hother
      rw [hlook] at hplace
      split at hplace
      · cases hplace
      · cases hplace

/-! ### Links and files -/

theorem leaf_of_addFile {name : Bytes} {info : EntryMeta} {xattrs : List (Bytes × Bytes)}
    {reader : List ReadResult} {leaf : StreamLeaf (Option Payload)}
    (hleaf : (StreamCall.addFile name info xattrs reader).leaf env codecs = some leaf) :
    ∃ wire chunks, codecs.chunker.scalar.chunkReader reader = some (.ok chunks) ∧
      leaf = .file (some (storedPayload env codecs info wire chunks)) := by
  rw [StreamCall.leaf] at hleaf
  split at hleaf
  · rename_i wire chunks _ hread
    cases hleaf
    exact ⟨wire, chunks, hread, rfl⟩
  · cases hleaf

theorem leaf_of_link {call : StreamCall} {target : Bytes}
    (hleaf : call.leaf env codecs = some (.deferredLink target)) :
    ∃ name, call = .addHardlink name target := by
  cases call with
  | addFile name info xattrs reader =>
      obtain ⟨wire, chunks, -, heq⟩ := leaf_of_addFile hleaf
      cases heq
  | stageFile name info xattrs data =>
      rw [StreamCall.leaf] at hleaf
      split at hleaf
      · cases hleaf
      · cases hleaf
  | addDir name info => cases hleaf
  | addHardlink name other =>
      cases hleaf
      exact ⟨name, rfl⟩
  | addSymlink name other info => cases hleaf

/-- A hard link names a file among the entries. -/
theorem Entered.link (h : Entered env codecs calls v) (hlinks : LinksToFiles calls)
    {name target : Bytes} (hmem : .addHardlink name target ∈ calls) :
    ∃ file p, file ∈ calls ∧ file.leaf env codecs = some (.file (some p)) ∧
      targetPath target = file.path := by
  obtain ⟨file, info, xattrs, reader, hfile, htarget⟩ := hlinks name target hmem
  obtain ⟨leaf, hleaf, -⟩ := h.look_leaf hfile nofun
  obtain ⟨wire, chunks, -, rfl⟩ := leaf_of_addFile hleaf
  exact ⟨_, _, hfile, hleaf, htarget.trans (path_of_ne (h.path_ne_nil hfile nofun)).2.symm⟩

/-- A hard link leads to the file it names. -/
theorem Entered.resolves (h : Entered env codecs calls v) {file : StreamCall} {p : Payload}
    {target : Bytes} (hfile : file ∈ calls) (hleaf : file.leaf env codecs = some (.file (some p)))
    (htarget : targetPath target = file.path) :
    linkFile (v.contents env codecs) target = .ok (some p) := by
  have hdir : ∀ name info, file ≠ .addDir name info := by
    intro name info hcall
    rw [hcall] at hleaf
    cases hleaf
  obtain ⟨other, hother, hlook⟩ := h.look_leaf hfile hdir
  rw [hleaf] at hother
  cases hother
  unfold linkFile chaseFuel chase
  rw [if_neg List.not_mem_nil, htarget, hlook]

/-- **Finishing goes wrong only where a directory is too large to be encoded.** -/
theorem Entered.finish (h : Entered env codecs calls v) (hlinks : LinksToFiles calls)
    (dictionaries : DictionaryConfig) :
    (v.finishContext env codecs dictionaries = .error .panicked ∧
        ¬NodeFits (rootNode (v.contents env codecs))) ∨
      ∃ ctx, v.finishContext env codecs dictionaries = .ok ctx ∧
        NodeFits (rootNode (v.contents env codecs)) ∧
        ctx.drops.map (·.id) = v.ctx.drops.map (·.id) := by
  have hresolved : ∃ files, (linkTargets (v.contents env codecs)).mapM
      (linkFile (v.contents env codecs)) = .ok files := by
    refine ⟨(linkTargets (v.contents env codecs)).map (fileBehind (v.contents env codecs)), ?_⟩
    refine mapM_ok_iff.mpr (List.forall₂_map_right_iff.mpr (List.forall₂_same.mpr ?_))
    intro target htarget
    obtain ⟨leaf, hleaf, hlink⟩ := List.mem_filterMap.mp htarget
    have hsorted : (rootNode (v.contents env codecs)).Sorted :=
      NameTree.sorted_dir (NameForest.sorted_map _ v.tree h.live.sorted)
    obtain ⟨q, hlook⟩ := NameTree.look_mem_leaves (rootNode (v.contents env codecs)) hsorted hleaf
    obtain ⟨call, hcall, hbrought⟩ := h.of_look hlook
    cases leaf with
    | file p => cases hlink
    | symlink p => cases hlink
    | deferredLink other =>
        cases hlink
        obtain ⟨name, rfl⟩ := leaf_of_link hbrought
        obtain ⟨file, p, hfile, hleaf, hpath⟩ := h.link hlinks hcall
        unfold fileBehind
        rw [h.resolves hfile hleaf hpath]
        rfl
  obtain ⟨files, hfiles⟩ := hresolved
  have hstore : (v.finishContext env codecs dictionaries).map WriterState.store = _ :=
    store_finishContext v
  unfold finishStore at hstore
  rw [h.backed.staged, hfiles] at hstore
  simp only [List.map_nil, List.foldlM_nil, Option.pure_def] at hstore
  by_cases hfits : NodeFits (rootNode (v.contents env codecs))
  · rw [if_pos hfits] at hstore
    cases hctx : v.finishContext env codecs dictionaries with
    | error e =>
        rw [hctx] at hstore
        cases hstore
    | ok ctx =>
        rw [hctx] at hstore
        refine .inr ⟨ctx, rfl, hfits, ?_⟩
        have hdrops : ctx.drops = (trainAndApplyDictionary env dictionaries v.ctx.store).drops :=
          congrArg (·.toWriteContext.drops) (Except.ok.inj hstore)
        obtain ⟨-, f, hf, htrained⟩ := trainAndApplyDictionary_finishes dictionaries v.ctx.store
        rw [hdrops, htrained, List.map_map]
        exact List.map_congr_left fun d _ => (hf d).1
  · rw [if_neg hfits] at hstore
    cases hctx : v.finishContext env codecs dictionaries with
    | error e =>
        rw [hctx] at hstore
        cases hstore
        exact .inl ⟨rfl, hfits⟩
    | ok ctx =>
        rw [hctx] at hstore
        cases hstore

/-! ### What the image shows of an entry -/

/-- What the image shows is what stands in the places. -/
theorem Entered.seen (h : Entered env codecs calls v)
    (hctx : v.finishContext env codecs dictionaries = .ok ctx) (q : Path) :
    ctx.seen q = ((rootNode (v.contents env codecs)).look q).bind fun place =>
      shown (Sum.map id (StreamLeaf.resolve (fileBehind (v.contents env codecs))) place) :=
  (finishContext_shows h.live hctx).1 q

/-- The bytes of a file that was added are in the image. -/
theorem Entered.fileHolds (h : Entered env codecs calls v) {name : Bytes} {info : EntryMeta}
    {xattrs : List (Bytes × Bytes)} {reader : List ReadResult} {wire : List XAttr}
    {chunks : List Bytes} (hmem : .addFile name info xattrs reader ∈ calls)
    (hread : codecs.chunker.scalar.chunkReader reader = some (.ok chunks))
    (hids : ctx.drops.map (·.id) = v.ctx.drops.map (·.id)) :
    ctx.toWriteContext.FileHolds env.H (storedPayload env codecs info wire chunks)
      (FastCDC.delivered reader) := by
  have hflat := FastCDC.flatten_chunkReader hread
  have hlength : (chunks.map List.length).sum = (FastCDC.delivered reader).length := by
    rw [← hflat, List.length_flatten]
  unfold storedPayload
  simp only
  by_cases hlen : (chunks.map List.length).sum ≤ codecs.inlineThreshold
  · rw [if_pos hlen, hflat]
    exact .inl rfl
  · rw [if_neg hlen, hlength]
    refine .inr ⟨chunks, hflat, rfl, fun chunk hchunk => ?_⟩
    obtain ⟨raws, hkept⟩ := h.backed.kept
    rw [hids, ← hkept.index]
    exact h.backed.files name info xattrs reader hmem chunks hread (Nat.lt_of_not_le hlen) chunk
      hchunk

theorem storedPayload_carries (info : EntryMeta) (wire : List XAttr) (chunks : List Bytes) :
    (storedPayload env codecs info wire chunks).Carries sIfreg info := by
  unfold storedPayload
  simp only
  split
  · exact ⟨rfl, rfl, rfl, rfl⟩
  · exact ⟨rfl, rfl, rfl, rfl⟩

/-- An entry with a payload of its own is shown with it. -/
theorem Entered.seen_leaf (h : Entered env codecs calls v)
    (hctx : v.finishContext env codecs dictionaries = .ok ctx) {call : StreamCall}
    (hmem : call ∈ calls) {leaf : StreamLeaf (Option Payload)}
    (hleaf : call.leaf env codecs = some leaf) :
    ctx.seen call.path
      = shown (.inr (leaf.resolve (fileBehind (v.contents env codecs)))) := by
  have hdir : ∀ name info, call ≠ .addDir name info := by
    intro name info hcall
    rw [hcall] at hleaf
    cases hleaf
  obtain ⟨other, hother, hlook⟩ := h.look_leaf hmem hdir
  rw [hleaf] at hother
  cases hother
  rw [h.seen hctx, hlook]
  rfl

/-- A hard link is shown as the file it names. -/
theorem Entered.seen_link (h : Entered env codecs calls v)
    (hctx : v.finishContext env codecs dictionaries = .ok ctx) {name target : Bytes}
    (hmem : .addHardlink name target ∈ calls) {file : StreamCall} {p : Payload}
    (hfile : file ∈ calls) (hleaf : file.leaf env codecs = some (.file (some p)))
    (htarget : targetPath target = file.path) :
    ctx.seen (StreamCall.addHardlink name target).path = some (EntryType.file, p) := by
  have hseen := h.seen_leaf hctx hmem rfl
  have hbehind : fileBehind (v.contents env codecs) target = some p := by
    unfold fileBehind
    rw [h.resolves hfile hleaf htarget]
    rfl
  rw [hseen, StreamLeaf.resolve, hbehind]
  rfl

/-- Every entry that is no directory is shown as it was added. -/
theorem Entered.shownIn (h : Entered env codecs calls v) (hlinks : LinksToFiles calls)
    (hctx : v.finishContext env codecs dictionaries = .ok ctx)
    (hids : ctx.drops.map (·.id) = v.ctx.drops.map (·.id)) {call : StreamCall}
    (hmem : call ∈ calls) (hdir : ∀ name info, call ≠ .addDir name info) :
    call.ShownIn env.H ctx.toWriteContext := by
  obtain ⟨leaf, hleaf, -⟩ := h.look_leaf hmem hdir
  have hseen := h.seen_leaf hctx hmem hleaf
  cases call with
  | addFile name info xattrs reader =>
      obtain ⟨wire, chunks, hread, rfl⟩ := leaf_of_addFile hleaf
      exact ⟨_, hseen, storedPayload_carries info wire chunks, h.fileHolds hmem hread hids⟩
  | stageFile name info xattrs data => trivial
  | addDir name info => exact absurd rfl (hdir name info)
  | addHardlink name target =>
      obtain ⟨file, p, hfile, hbrought, htarget⟩ := h.link hlinks hmem
      refine ⟨p, h.seen_link hctx hmem hfile hbrought htarget, ?_⟩
      rw [htarget]
      exact h.seen_leaf hctx hfile hbrought
  | addSymlink name target info =>
      cases hleaf
      exact ⟨_, hseen, ⟨rfl, rfl, rfl, rfl⟩, rfl⟩

/-- A directory is shown with the identity it got. -/
theorem Entered.seen_dir (h : Entered env codecs calls v)
    (hctx : v.finishContext env codecs dictionaries = .ok ctx) {before after : List StreamCall}
    {name : Bytes} {info : EntryMeta} (hcalls : calls = before ++ .addDir name info :: after)
    (hpath : (StreamCall.addDir name info).path ≠ []) :
    ctx.seen (StreamCall.addDir name info).path = some (EntryType.directory,
      EntryMeta.payload (if ∃ a ∈ before, (StreamCall.addDir name info).path <+: a.path
        then { EntryMeta.implicit with mtimeNs := info.mtimeNs } else info)
        sIfdir [] (.directory [])) := by
  rw [h.seen hctx, h.look hcalls hpath]
  unfold StreamCall.laid StreamCall.placed
  by_cases hbelow : ∃ a ∈ before, (StreamCall.addDir name info).path <+: a.path
  · rw [if_pos hbelow, if_pos hbelow]
    rfl
  · rw [if_neg hbelow, if_neg hbelow]
    rfl

theorem Entered.seen_root (h : Entered env codecs calls v)
    (hctx : v.finishContext env codecs dictionaries = .ok ctx) :
    ctx.seen [] = some (EntryType.directory,
      EntryMeta.implicit.payload sIfdir [] (.directory [])) := by
  rw [h.seen hctx]
  rfl

end

end LimniFS
