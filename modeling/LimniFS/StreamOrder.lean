/-
The order of the entries.

The same entries in two orders.  The places differ in the directories only, and there only
where an entry below came first: the directory is then implicit when its own call comes,
which changes its time and nothing else.  So the images show the same, and every entry as
it was added, exactly when in both orders every directory comes before what is below it or
asks for what an implicit directory has (`entry_order_free_iff`).
-/
import LimniFS.StreamEntered

namespace LimniFS

open Lib

/-! ### Directories -/

section

theorem perms_of_mode {info info' : EntryMeta} (h : info.mode sIfdir = info'.mode sIfdir) :
    info.perms &&& 0o7777 = info'.perms &&& 0o7777 := by
  have hmask : ∀ perms : Nat, (sIfdir ||| (perms &&& 0o7777)) &&& 0o7777 = perms &&& 0o7777 := by
    intro perms
    have hkind : sIfdir &&& 0o7777 = 0 := by decide
    rw [Nat.and_or_distrib_right, Nat.and_assoc, Nat.and_self, hkind, Nat.zero_or]
  have hboth := congrArg (· &&& 0o7777) h
  unfold EntryMeta.mode at hboth
  simp only [hmask] at hboth
  exact hboth

theorem likeImplicit_iff {info : EntryMeta} :
    (EntryMeta.payload { EntryMeta.implicit with mtimeNs := info.mtimeNs } sIfdir []
      (.directory [])).Carries sIfdir info ↔ info.LikeImplicit := by
  have himplicit : EntryMeta.implicit.perms &&& 0o7777 = 0o755 := by decide
  unfold Payload.Carries EntryMeta.LikeImplicit
  constructor
  · rintro ⟨hmode, huid, hgid, -⟩
    exact ⟨(perms_of_mode hmode).symm.trans himplicit, huid.symm, hgid.symm⟩
  · rintro ⟨hperms, huid, hgid⟩
    refine ⟨?_, huid.symm, hgid.symm, rfl⟩
    exact congrArg (sIfdir ||| ·) (himplicit.trans hperms.symm)

variable {env : WriterEnv} {codecs : StreamCodecs} {calls calls' : List StreamCall}
  {v v' : StreamWriter} {dictionaries : DictionaryConfig} {ctx ctx' : WriterState}

/-- In time, a directory is shown as it was added. -/
theorem Entered.seen_dir_inTime (h : Entered env codecs calls v)
    (hctx : v.finishContext env codecs dictionaries = .ok ctx) (htime : DirsInTime calls)
    {name : Bytes} {info : EntryMeta} (hmem : .addDir name info ∈ calls) :
    ctx.seen (StreamCall.addDir name info).path
      = some (EntryType.directory, info.payload sIfdir [] (.directory [])) := by
  have hsame : info.LikeImplicit →
      EntryMeta.payload { EntryMeta.implicit with mtimeNs := info.mtimeNs } sIfdir []
        (.directory []) = info.payload sIfdir [] (.directory []) := by
    intro hlike
    obtain ⟨hmode, huid, hgid, -⟩ := likeImplicit_iff.mpr hlike
    exact Payload.ext hmode huid hgid rfl rfl rfl
  by_cases hpath : (StreamCall.addDir name info).path = []
  · have hname : name = ascii "/" := path_eq_nil.mp hpath
    obtain ⟨hlike, hmtime⟩ := htime.root info (hname ▸ hmem)
    rw [hpath, h.seen_root hctx, ← hsame hlike, hmtime]
    rfl
  · obtain ⟨before, after, hcalls⟩ := List.append_of_mem hmem
    rw [h.seen_dir hctx hcalls hpath]
    by_cases hbelow : ∃ a ∈ before, (StreamCall.addDir name info).path <+: a.path
    · rw [if_pos hbelow, hsame (htime.below before name info after hcalls hbelow)]
    · rw [if_neg hbelow]

theorem Entered.inTime (h : Entered env codecs calls v)
    (hctx : v.finishContext env codecs dictionaries = .ok ctx)
    (hshown : ∀ call ∈ calls, call.ShownIn env.H ctx.toWriteContext) : DirsInTime calls := by
  have hroot : ∀ info, (EntryMeta.implicit.payload sIfdir [] (.directory [])).Carries sIfdir info →
      info.LikeImplicit ∧ info.mtimeNs = 0 := by
    rintro info ⟨hmode, huid, hgid, hmtime⟩
    exact ⟨likeImplicit_iff.mp ⟨hmode, huid, hgid, rfl⟩, hmtime.symm⟩
  have hatRoot : ∀ name info, .addDir name info ∈ calls →
      (StreamCall.addDir name info).path = [] → info.LikeImplicit ∧ info.mtimeNs = 0 := by
    intro name info hmem hpath
    obtain ⟨p, hseen, hcarries⟩ := hshown _ hmem
    rw [hpath, h.seen_root hctx] at hseen
    cases hseen
    exact hroot info hcarries
  constructor
  · intro before name info after hcalls hbelow
    have hmem : .addDir name info ∈ calls := by
      rw [hcalls]
      simp
    by_cases hpath : (StreamCall.addDir name info).path = []
    · exact (hatRoot name info hmem hpath).1
    · obtain ⟨p, hseen, hcarries⟩ := hshown _ hmem
      rw [h.seen_dir hctx hcalls hpath, if_pos hbelow] at hseen
      cases hseen
      exact likeImplicit_iff.mp hcarries
  · intro info hmem
    exact hatRoot _ info hmem (path_eq_nil.mpr rfl)

/-- Away from the directories that were asked for, the order does not show. -/
theorem Entered.seen_eq (h : Entered env codecs calls v) (h' : Entered env codecs calls' v')
    (hlinks : LinksToFiles calls) (hperm : calls.Perm calls')
    (hctx : v.finishContext env codecs dictionaries = .ok ctx)
    (hctx' : v'.finishContext env codecs dictionaries = .ok ctx') {q : Path}
    (hdirs : ∀ name info, .addDir name info ∈ calls → (StreamCall.addDir name info).path = q →
      ctx.seen q = ctx'.seen q) : ctx.seen q = ctx'.seen q := by
  by_cases hq : q = []
  · rw [hq, h.seen_root hctx, h'.seen_root hctx']
  · by_cases hentry : ∃ call ∈ calls, call.path = q
    · obtain ⟨call, hmem, rfl⟩ := hentry
      by_cases hdir : ∀ name info, call ≠ .addDir name info
      · have hmem' := hperm.mem_iff.mp hmem
        obtain ⟨leaf, hleaf, -⟩ := h.look_leaf hmem hdir
        have hseen := h.seen_leaf hctx hmem hleaf
        have hseen' := h'.seen_leaf hctx' hmem' hleaf
        cases leaf with
        | file p => rw [hseen, hseen', StreamLeaf.resolve, StreamLeaf.resolve]
        | symlink p => rw [hseen, hseen', StreamLeaf.resolve, StreamLeaf.resolve]
        | deferredLink target =>
            obtain ⟨name, rfl⟩ := leaf_of_link hleaf
            obtain ⟨file, p, hfile, hbrought, htarget⟩ := h.link hlinks hmem
            rw [h.seen_link hctx hmem hfile hbrought htarget,
              h'.seen_link hctx' hmem' (hperm.mem_iff.mp hfile) hbrought htarget]
      · simp only [not_forall, ne_eq, not_not] at hdir
        obtain ⟨name, info, rfl⟩ := hdir
        exact hdirs name info hmem rfl
    · have hother : ∀ call ∈ calls, call.path ≠ q := fun call hmem heq => hentry ⟨call, hmem, heq⟩
      have hother' : ∀ call ∈ calls', call.path ≠ q := fun call hmem =>
        hother call (hperm.mem_iff.mpr hmem)
      have hplace : (rootNode (v.contents env codecs)).look q = _ := h.laid.other q hq hother
      have hplace' : (rootNode (v'.contents env codecs)).look q = _ := h'.laid.other q hq hother'
      rw [h.seen hctx, h'.seen hctx', hplace, hplace']
      simp only [hperm.mem_iff]
      split
      · rfl
      · rfl

theorem Entered.fits_iff (h : Entered env codecs calls v) (h' : Entered env codecs calls' v')
    (hperm : calls.Perm calls') :
    NodeFits (rootNode (v.contents env codecs)) ↔ NodeFits (rootNode (v'.contents env codecs)) := by
  refine nodeFits_congr _ _
    (NameTree.sorted_dir (NameForest.sorted_map _ v.tree h.live.sorted))
    (NameTree.sorted_dir (NameForest.sorted_map _ v'.tree h'.live.sorted)) ?_
  intro q
  by_cases hq : q = []
  · rw [hq]
    rfl
  · by_cases hentry : ∃ call ∈ calls, call.path = q
    · obtain ⟨call, hmem, rfl⟩ := hentry
      have hmem' := hperm.mem_iff.mp hmem
      by_cases hdir : ∀ name info, call ≠ .addDir name info
      · obtain ⟨leaf, hleaf, hlook⟩ := h.look_leaf hmem hdir
        obtain ⟨leaf', hleaf', hlook'⟩ := h'.look_leaf hmem' hdir
        rw [hlook, hlook']
        rfl
      · simp only [not_forall, ne_eq, not_not] at hdir
        obtain ⟨name, info, rfl⟩ := hdir
        obtain ⟨before, after, hcalls⟩ := List.append_of_mem hmem
        obtain ⟨before', after', hcalls'⟩ := List.append_of_mem hmem'
        rw [h.look hcalls hq, h'.look hcalls' hq]
        rfl
    · have hother : ∀ call ∈ calls, call.path ≠ q := fun call hmem heq => hentry ⟨call, hmem, heq⟩
      have hother' : ∀ call ∈ calls', call.path ≠ q := fun call hmem =>
        hother call (hperm.mem_iff.mpr hmem)
      have hplace : (rootNode (v.contents env codecs)).look q = _ := h.laid.other q hq hother
      have hplace' : (rootNode (v'.contents env codecs)).look q = _ := h'.laid.other q hq hother'
      rw [hplace, hplace']
      simp only [hperm.mem_iff]

end

/-- **The order of the entries does not matter, as long as the directories come in time.**  The
same entries in two orders panic both, for a directory that cannot be encoded, or give images
that show the same at every path, and every entry as it was added, exactly when in both orders
every directory comes before what is below it or asks for what an implicit directory has. -/
theorem entry_order_free_iff {env : WriterEnv} {config : WriteConfig}
    {started : StreamCodecs × StreamWriter} {calls calls' : List StreamCall} {v v' : StreamWriter}
    (hnew : StreamWriter.new config = .ok started) (hentries : ∀ call ∈ calls, call.isEntry = true)
    (hpaths : (calls.map StreamCall.path).Nodup) (hlinks : LinksToFiles calls)
    (hperm : calls.Perm calls') (hrun : AllSucceed env started.1 calls started.2 v)
    (hrun' : AllSucceed env started.1 calls' started.2 v') :
    (v.finishContext env started.1 config.dictionaries = .error .panicked ∧
        v'.finishContext env started.1 config.dictionaries = .error .panicked) ∨
      ∃ ctx ctx', v.finishContext env started.1 config.dictionaries = .ok ctx ∧
        v'.finishContext env started.1 config.dictionaries = .ok ctx' ∧
        (OrderFree env.H calls ctx.toWriteContext ctx'.toWriteContext ↔
          DirsInTime calls ∧ DirsInTime calls') := by
  have hlinks' : LinksToFiles calls' := by
    intro name target hmem
    obtain ⟨file, info, xattrs, reader, hfile, htarget⟩ :=
      hlinks name target (hperm.mem_iff.mpr hmem)
    exact ⟨file, info, xattrs, reader, hperm.mem_iff.mp hfile, htarget⟩
  have h : Entered env started.1 calls v := entered_of_run hnew hentries hpaths hrun
  have h' : Entered env started.1 calls' v' := entered_of_run hnew
    (fun call hmem => hentries call (hperm.mem_iff.mpr hmem))
    ((hperm.map _).nodup_iff.mp hpaths) hrun'
  have hfits := h.fits_iff h' hperm
  rcases h.finish hlinks config.dictionaries with ⟨herror, hfit⟩ | ⟨ctx, hctx, hfit, hids⟩
  · rcases h'.finish hlinks' config.dictionaries with ⟨herror', -⟩ | ⟨ctx', -, hfit', -⟩
    · exact .inl ⟨herror, herror'⟩
    · exact absurd (hfits.mpr hfit') hfit
  · rcases h'.finish hlinks' config.dictionaries with ⟨-, hfit'⟩ | ⟨ctx', hctx', -, hids'⟩
    · exact absurd (hfits.mp hfit) hfit'
    · refine .inr ⟨ctx, ctx', hctx, hctx', ?_, ?_⟩
      · intro hfree
        refine ⟨h.inTime hctx fun call hmem => (hfree.entries call hmem).1, ?_⟩
        exact h'.inTime hctx' fun call hmem => (hfree.entries call (hperm.mem_iff.mpr hmem)).2
      · rintro ⟨htime, htime'⟩
        constructor
        · intro q
          refine h.seen_eq h' hlinks hperm hctx hctx' ?_
          rintro name info hmem rfl
          rw [h.seen_dir_inTime hctx htime hmem,
            h'.seen_dir_inTime hctx' htime' (hperm.mem_iff.mp hmem)]
        · intro call hmem
          have hmem' := hperm.mem_iff.mp hmem
          by_cases hdir : ∀ name info, call ≠ .addDir name info
          · exact ⟨h.shownIn hlinks hctx hids hmem hdir, h'.shownIn hlinks' hctx' hids' hmem' hdir⟩
          · simp only [not_forall, ne_eq, not_not] at hdir
            obtain ⟨name, info, rfl⟩ := hdir
            exact ⟨⟨_, h.seen_dir_inTime hctx htime hmem, rfl, rfl, rfl, rfl⟩,
              ⟨_, h'.seen_dir_inTime hctx' htime' hmem', rfl, rfl, rfl, rfl⟩⟩

/-- The calls one after another, as long as they succeed. -/
def runAll (env : WriterEnv) (codecs : StreamCodecs) :
    List StreamCall → StreamWriter → Option StreamWriter
  | [], w => some w
  | call :: rest, w =>
    match call.run env codecs w with
    | some (w', .ok ()) => runAll env codecs rest w'
    | _ => none

theorem allSucceed_of_runAll {env : WriterEnv} {codecs : StreamCodecs} {v : StreamWriter} :
    ∀ (calls : List StreamCall) (w : StreamWriter), runAll env codecs calls w = some v →
      AllSucceed env codecs calls w v := by
  intro calls
  induction calls with
  | nil =>
      intro w h
      exact (Option.some.inj h).symm
  | cons call rest ih =>
      intro w h
      unfold runAll at h
      split at h
      · rename_i w' hrun
        exact ⟨w', hrun, ih w' h⟩
      · cases h

/-- Two orders that can be run, and what the images are tested for. -/
theorem exists_orders (env : WriterEnv) (config : WriteConfig) (calls calls' : List StreamCall)
    (P : WriterState → WriterState → Bool)
    (h : ((StreamWriter.new config).toOption.bind fun started =>
      (runAll env started.1 calls started.2).bind fun v =>
      (runAll env started.1 calls' started.2).bind fun v' =>
      (v.finishContext env started.1 config.dictionaries).toOption.bind fun ctx =>
      (v'.finishContext env started.1 config.dictionaries).toOption.map (P ctx)) = some true) :
    ∃ started v v' ctx ctx', StreamWriter.new config = .ok started ∧
      AllSucceed env started.1 calls started.2 v ∧ AllSucceed env started.1 calls' started.2 v' ∧
      v.finishContext env started.1 config.dictionaries = .ok ctx ∧
      v'.finishContext env started.1 config.dictionaries = .ok ctx' ∧ P ctx ctx' = true := by
  have hok : ∀ {ε α : Type} {x : Except ε α} {a : α}, x.toOption = some a → x = .ok a := by
    intro ε α x a hx
    cases x with
    | error e => cases hx
    | ok b => exact congrArg Except.ok (Option.some.inj hx)
  obtain ⟨started, hnew, h⟩ := Option.bind_eq_some_iff.mp h
  obtain ⟨v, hrun, h⟩ := Option.bind_eq_some_iff.mp h
  obtain ⟨v', hrun', h⟩ := Option.bind_eq_some_iff.mp h
  obtain ⟨ctx, hctx, h⟩ := Option.bind_eq_some_iff.mp h
  obtain ⟨ctx', hctx', h⟩ := Option.map_eq_some_iff.mp h
  exact ⟨started, v, v', ctx, ctx', hok hnew, allSucceed_of_runAll _ _ hrun,
    allSucceed_of_runAll _ _ hrun', hok hctx, hok hctx', h⟩

namespace Stored

/-- A directory for its owner alone. -/
def privateDir : StreamCall := .addDir (ascii "d") (.new 7 0o700)

def fileBelow : StreamCall := .addFile (ascii "d/f") entryInfo [] [.bytes [1, 2, 3, 4, 5]]

def linkBeside : StreamCall := .addHardlink (ascii "h") (ascii "d/f")

end Stored

open LimniFS.Stored

/-- A directory that comes behind its file keeps the permissions of an implicit one. -/
theorem late_directory_differs : ∃ started v v' ctx ctx',
    StreamWriter.new writeConfig = .ok started ∧
      AllSucceed writerEnv started.1 [fileBelow, privateDir] started.2 v ∧
      AllSucceed writerEnv started.1 [privateDir, fileBelow] started.2 v' ∧
      v.finishContext writerEnv started.1 writeConfig.dictionaries = .ok ctx ∧
      v'.finishContext writerEnv started.1 writeConfig.dictionaries = .ok ctx' ∧
      ¬OrderFree writerEnv.H [fileBelow, privateDir] ctx.toWriteContext
        ctx'.toWriteContext := by
  obtain ⟨started, v, v', ctx, ctx', hnew, hrun, hrun', hctx, hctx', hdiffer⟩ := exists_orders
    writerEnv writeConfig [fileBelow, privateDir]
    [privateDir, fileBelow]
    (fun ctx ctx' => decide (ctx.seen [ascii "d"] ≠ ctx'.seen [ascii "d"])) (by decide +kernel)
  exact ⟨started, v, v', ctx, ctx', hnew, hrun, hrun', hctx, hctx',
    fun hfree => of_decide_eq_true hdiffer (hfree.seen _)⟩

theorem linkBeside_toFile :
    LinksToFiles [privateDir, fileBelow, linkBeside] := by
  intro name target hmem
  have htarget : target = ascii "d/f" := by
    simp only [privateDir, fileBelow, linkBeside, List.mem_cons, reduceCtorEq,
      List.not_mem_nil, or_false, false_or, StreamCall.addHardlink.injEq] at hmem
    exact hmem.2
  rw [htarget]
  exact ⟨_, _, _, _, List.mem_cons_of_mem _ List.mem_cons_self, by decide⟩

theorem entry_order_free_iff_link : ∃ (started : StreamCodecs × StreamWriter) (v v' : StreamWriter),
    StreamWriter.new writeConfig = .ok started ∧
    ((v.finishContext writerEnv started.1 writeConfig.dictionaries
          = .error .panicked ∧
        v'.finishContext writerEnv started.1 writeConfig.dictionaries
          = .error .panicked) ∨
      ∃ ctx ctx',
        v.finishContext writerEnv started.1 writeConfig.dictionaries = .ok ctx ∧
        v'.finishContext writerEnv started.1 writeConfig.dictionaries = .ok ctx' ∧
        (OrderFree writerEnv.H [privateDir, fileBelow, linkBeside]
            ctx.toWriteContext ctx'.toWriteContext ↔
          DirsInTime [privateDir, fileBelow, linkBeside] ∧
            DirsInTime [linkBeside, privateDir, fileBelow])) := by
  obtain ⟨started, v, v', -, -, hnew, hrun, hrun', -⟩ := exists_orders
    writerEnv writeConfig [privateDir, fileBelow, linkBeside]
    [linkBeside, privateDir, fileBelow] (fun _ _ => true) (by decide +kernel)
  have hperm : [privateDir, fileBelow, linkBeside].Perm
      [linkBeside, privateDir, fileBelow] :=
    List.perm_append_singleton linkBeside [privateDir, fileBelow]
  exact ⟨started, v, v', hnew, entry_order_free_iff hnew (by decide) (by decide) linkBeside_toFile
    hperm hrun hrun'⟩

end LimniFS
