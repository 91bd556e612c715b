/-
Calls that fail.

A call that fails keeps what it did before: the directories it made on the way, a number,
or an entry of a staged file whose attributes were refused.  A number shows nowhere, so a
failing call leaves no trace if it made no directory and staged no file (`Traceless`).  A
sequence in which every failing call is of that kind gives the image that the calls that
succeed give alone.
-/
import LimniFS.StagedAgrees
import LimniFS.StreamOutcome

namespace LimniFS

open Lib

section

variable (env : WriterEnv) (codecs : StreamCodecs)

def StreamCall.Fails (w : StreamWriter) (call : StreamCall) : Prop :=
  ∃ w' e, call.run env codecs w = some (w', .error e)

/-- The calls of a sequence that succeed; one that panics ends it. -/
def accepted : List StreamCall → StreamWriter → List StreamCall
  | [], _ => []
  | call :: rest, w =>
    match call.run env codecs w with
    | none => [call]
    | some (w', .ok ()) => call :: accepted rest w'
    | some (w', .error _) => accepted rest w'

/-- What is handed on to `assemble` after all calls. -/
def packContext (dictionaries : DictionaryConfig) (calls : List StreamCall) (w : StreamWriter) :
    Except WriteStop WriterState :=
  match runCalls env codecs calls w with
  | none => .error .panicked
  | some w => w.finishContext env codecs dictionaries

end

/-- A name that is refused before the walk. -/
def refusedAtOnce (name : Bytes) : Bool :=
  (name = [] ∨ name.head? = some 0x2F ∨ name.getLast? = some 0x2F) ∨ 0x5C ∈ name ∨ 0x00 ∈ name

/-- The name of the call is refused at once or all directories it comes to are there, and it does
not stage a file whose attributes cannot be represented. -/
def Traceless (w : StreamWriter) (call : StreamCall) : Prop :=
  (refusedAtOnce call.name ∨ parentsThere (parentPath call.name) w.tree = true) ∧
    ∀ name info xattrs data, call = .stageFile name info xattrs data →
      (∃ wire, toWireXattrs xattrs = .ok wire) ∨ ∃ e, (newSlot name w.tree).2 = .error e

section

variable {env : WriterEnv} {codecs : StreamCodecs} {w w' w₁ : StreamWriter} {call : StreamCall}

theorem descend_refused {ι : Type} {name : Bytes} (h : refusedAtOnce name) (tree : StreamDir ι) :
    (descend name tree).1 = tree := by
  unfold descend
  by_cases hslash : name = [] ∨ name.head? = some 0x2F ∨ name.getLast? = some 0x2F
  · rw [if_pos hslash]
  · rw [if_neg hslash, if_pos ((of_decide_eq_true h).resolve_left hslash)]

theorem Traceless.descend (h : Traceless w call) : (descend call.name w.tree).1 = w.tree := by
  rcases h.1 with hrefused | hthere
  · exact descend_refused hrefused w.tree
  · exact descend_there _ w.tree hthere

theorem Traceless.withParents (h : Traceless w call) : w.withParents call.name = w := by
  unfold StreamWriter.withParents
  rw [newSlot_fst, h.descend]

/-! ### A call that fails -/

theorem Alike.skip (h : Alike env codecs w w') {ctx : WriterState}
    (hctx : ctx = w.ctx.allocInode ∨
      ∃ name info, ctx = openedState name info w.ctx) :
    Alike env codecs { w with ctx := ctx } w' := by
  have hparts : ctx.inodes = w.ctx.inodes ∧ w.ctx.nextInode ≤ ctx.nextInode ∧
      ctx.inodeXattrs = w.ctx.inodeXattrs ∧ ctx.store = w.ctx.store := by
    rcases hctx with rfl | ⟨name, info, rfl⟩
    · exact ⟨rfl, Nat.le_succ _, rfl, rfl⟩
    · exact ⟨rfl, Nat.le_succ _, rfl, rfl⟩
  obtain ⟨hinodes, hnext, hxattrs, hstore⟩ := hparts
  have hheld : StreamWriter.held env codecs { w with ctx := ctx } = w.held env codecs := by
    unfold StreamWriter.held
    rw [hinodes]
  refine ⟨⟨h.live.sorted, ?_, ?_, ?_, ?_, ?_⟩, h.live', ?_, ?_, h.waiting⟩
  · rw [hheld]
    exact h.live.nodup
  · rw [hheld]
    exact fun n hn => Nat.lt_of_lt_of_le (h.live.below n hn) hnext
  · rw [hheld]
    exact h.live.wired
  · rw [hheld]
    exact h.live.plain
  · rw [hxattrs]
    exact h.live.xattrs
  · rw [← h.contents]
    unfold StreamWriter.contents
    rw [hheld]
  · exact hstore.trans h.store

theorem placeDir_error {ι : Type} {name : Bytes} {info : EntryMeta} {tree : StreamDir ι}
    {e : WriteError} (h : (placeDir name info tree).2 = .error e) :
    (placeDir name info tree).1 = (descend name tree).1 := by
  have hplaced := placeDir_placed name info tree
  generalize placeDir name info tree = placed at h hplaced ⊢
  cases hplaced with
  | refused _ => rfl
  | taken _ _ => rfl
  | made _ _ => cases h
  | stamped _ _ => cases h

/-- **A traceless call that fails leaves a writer that is alike.** -/
theorem Alike.fails (h : Alike env codecs w w') {e : WriteError} (htrace : Traceless w call)
    (hrun : call.run env codecs w = some (w₁, .error e)) : Alike env codecs w₁ w' := by
  have hsame := htrace.withParents
  cases call with
  | addFile name info xattrs reader =>
      rw [StreamCall.run] at hrun
      rw [StreamCall.name] at hsame
      have hadded := addFile_added env codecs w name info xattrs reader
      rw [hrun] at hadded
      cases hadded with
      | refused hslot =>
          rw [hsame]
          exact h
      | unrepresentable hslot hwire =>
          rw [hsame]
          exact h.skip (.inl rfl)
      | unread hslot hwire hread =>
          rw [hsame]
          exact h.skip (.inr ⟨name, info, rfl⟩)
  | stageFile name info xattrs data =>
      rw [StreamCall.run] at hrun
      rw [StreamCall.name] at hsame
      cases hslot : (newSlot name w.tree).2 with
      | error e' =>
          rw [stageFile_refused hslot, hsame] at hrun
          cases hrun
          exact h
      | ok slot =>
          rcases htrace.2 name info xattrs data rfl with ⟨wire, hwire⟩ | ⟨e', he⟩
          · rw [stageFile_staged hslot hwire] at hrun
            cases hrun
          · rw [he] at hslot
            cases hslot
  | addDir name info =>
      rw [StreamCall.run] at hrun
      by_cases hroot : name = ascii "/"
      · rw [addDir_root hroot] at hrun
        cases hrun
      · have hdescend : (descend name w.tree).1 = w.tree := htrace.descend
        rw [StreamWriter.addDir, if_neg hroot] at hrun
        obtain ⟨rfl, herror⟩ := Prod.mk.inj (Option.some.inj hrun)
        rw [placeDir_error herror, hdescend]
        exact h
  | addHardlink name target =>
      rw [StreamCall.run] at hrun
      rw [StreamCall.name] at hsame
      cases hslot : (newSlot name w.tree).2 with
      | error e' =>
          rw [addHardlink_refused hslot, hsame] at hrun
          cases hrun
          exact h
      | ok slot =>
          rw [addHardlink_added hslot] at hrun
          cases hrun
  | addSymlink name target info =>
      rw [StreamCall.run] at hrun
      rw [StreamCall.name] at hsame
      cases hslot : (newSlot name w.tree).2 with
      | error e' =>
          rw [addSymlink_refused hslot, hsame] at hrun
          cases hrun
          exact h
      | ok slot =>
          rw [addSymlink_added hslot] at hrun
          cases hrun

/-! ### A call that succeeds -/

theorem Alike.slot (h : Alike env codecs w w') (name : Bytes) :
    (newSlot name w'.tree).2 = (newSlot name w.tree).2 := by
  have hslot := congrArg (fun tree => (newSlot name tree).2) h.contents
  unfold StreamWriter.contents at hslot
  simp only [newSlot_map] at hslot
  exact hslot.symm

/-- The same entry in both. -/
theorem Alike.puts {w₁' : StreamWriter} (h : Alike env codecs w w')
    (hputs : Puts env codecs call w w₁) (hputs' : Puts env codecs call w' w₁')
    (hstore : w₁.ctx.store = w₁'.ctx.store)
    (hwaiting : w₁.staged.map (·.data) = w₁'.staged.map (·.data)) : Alike env codecs w₁ w₁' := by
  refine ⟨hputs.live, hputs'.live, ?_, hstore, hwaiting⟩
  obtain ⟨slot, leaf, hslot, hleaf, hcontents⟩ := hputs.contents
  obtain ⟨slot', leaf', hslot', hleaf', hcontents'⟩ := hputs'.contents
  rw [h.slot, hslot] at hslot'
  rw [hleaf] at hleaf'
  cases hslot'
  cases hleaf'
  rw [hcontents, hcontents', h.contents]

/-- **A call does the same to alike writers.** -/
theorem Alike.succeeds (h : Alike env codecs w w')
    (hrun : call.run env codecs w = some (w₁, .ok ())) :
    ∃ w₁', call.run env codecs w' = some (w₁', .ok ()) ∧ Alike env codecs w₁ w₁' := by
  cases call with
  | addFile name info xattrs reader =>
      rw [StreamCall.run] at hrun ⊢
      have hputs := addFile_puts h.live hrun
      have hadded := addFile_added env codecs w name info xattrs reader
      rw [hrun] at hadded
      cases hadded with
      | stored hslot hwire hread =>
          have hrun' : w'.addFile env codecs name info xattrs reader = _ :=
            addFile_stored ((h.slot name).trans hslot) hwire hread
          refine ⟨_, hrun', h.puts hputs (addFile_puts h.live' hrun') ?_ h.waiting⟩
          rw [store_storeChunks, store_storeChunks]
          exact congrArg _ h.store
  | stageFile name info xattrs data =>
      rw [StreamCall.run] at hrun ⊢
      have hputs := stageFile_puts h.live (Option.some.inj hrun)
      cases hslot : (newSlot name w.tree).2 with
      | error e =>
          rw [stageFile_refused hslot] at hrun
          cases hrun
      | ok slot =>
          have hslot' := (h.slot name).trans hslot
          cases hwire : toWireXattrs xattrs with
          | error e =>
              rw [stageFile_unrepresentable hslot hwire] at hrun
              cases hrun
          | ok wire =>
              rw [stageFile_staged hslot hwire] at hrun
              have hrun' : w'.stageFile name info xattrs data = _ := stageFile_staged hslot' hwire
              refine ⟨_, congrArg some hrun', h.puts hputs (stageFile_puts h.live' hrun') ?_ ?_⟩
              · cases hrun
                exact h.store
              · cases hrun
                rw [List.map_append, List.map_append, h.waiting]
                rfl
  | addDir name info =>
      rw [StreamCall.run] at hrun ⊢
      by_cases hroot : name = ascii "/"
      · rw [addDir_root hroot] at hrun ⊢
        cases hrun
        exact ⟨w', rfl, h⟩
      · cases hplaced : w'.addDir name info with
        | mk w₁' result' =>
            obtain ⟨hlive, hcontents⟩ := addDir_contents h.live (Option.some.inj hrun) hroot
            obtain ⟨hlive', hcontents'⟩ := addDir_contents h.live' hplaced hroot
            rw [h.contents, hcontents'] at hcontents
            obtain ⟨heq, hok⟩ := Prod.mk.inj hcontents
            obtain ⟨hctx, hstaged⟩ := addDir_frame (Option.some.inj hrun)
            obtain ⟨hctx', hstaged'⟩ := addDir_frame hplaced
            refine ⟨w₁', by rw [hok], hlive, hlive', heq.symm, ?_, ?_⟩
            · rw [hctx, hctx']
              exact h.store
            · rw [hstaged, hstaged']
              exact h.waiting
  | addHardlink name target =>
      rw [StreamCall.run] at hrun ⊢
      have hputs := addHardlink_puts h.live (Option.some.inj hrun)
      cases hslot : (newSlot name w.tree).2 with
      | error e =>
          rw [addHardlink_refused hslot] at hrun
          cases hrun
      | ok slot =>
          have hslot' := (h.slot name).trans hslot
          rw [addHardlink_added hslot] at hrun
          have hrun' : w'.addHardlink name target = _ := addHardlink_added hslot'
          refine ⟨_, congrArg some hrun', h.puts hputs (addHardlink_puts h.live' hrun') ?_ ?_⟩
          · cases hrun
            exact h.store
          · cases hrun
            exact h.waiting
  | addSymlink name target info =>
      rw [StreamCall.run] at hrun ⊢
      have hputs := addSymlink_puts h.live (Option.some.inj hrun)
      cases hslot : (newSlot name w.tree).2 with
      | error e =>
          rw [addSymlink_refused hslot] at hrun
          cases hrun
      | ok slot =>
          have hslot' := (h.slot name).trans hslot
          rw [addSymlink_added hslot] at hrun
          have hrun' : w'.addSymlink name target info = _ := addSymlink_added hslot'
          refine ⟨_, congrArg some hrun', h.puts hputs (addSymlink_puts h.live' hrun') ?_ ?_⟩
          · cases hrun
            exact h.store
          · cases hrun
            exact h.waiting

theorem Alike.panics (h : Alike env codecs w w') (hrun : call.run env codecs w = none) :
    call.run env codecs w' = none := by
  cases call with
  | addFile name info xattrs reader =>
      rw [StreamCall.run] at hrun ⊢
      have hadded := addFile_added env codecs w name info xattrs reader
      rw [hrun] at hadded
      cases hadded with
      | panicked hslot hwire hread => exact addFile_panicked ((h.slot name).trans hslot) hwire hread
  | stageFile name info xattrs data => cases hrun
  | addDir name info => cases hrun
  | addHardlink name target => cases hrun
  | addSymlink name target info => cases hrun

/-! ### Sequences -/

/-- A failing call leaves no trace. -/
def NoTrace (env : WriterEnv) (codecs : StreamCodecs) (w : StreamWriter) (call : StreamCall) :
    Prop := call.Fails env codecs w → Traceless w call

section

variable {rest : List StreamCall}

theorem runCalls_panics (hrun : call.run env codecs w = none) :
    runCalls env codecs (call :: rest) w = none := by
  rw [runCalls, hrun]

theorem runCalls_goes_on {called : Called} (hrun : call.run env codecs w = some called) :
    runCalls env codecs (call :: rest) w = runCalls env codecs rest called.1 := by
  rw [runCalls, hrun]

theorem accepted_panics (hrun : call.run env codecs w = none) :
    accepted env codecs (call :: rest) w = [call] := by
  rw [accepted, hrun]

theorem accepted_fails {e : WriteError} (hrun : call.run env codecs w = some (w₁, .error e)) :
    accepted env codecs (call :: rest) w = accepted env codecs rest w₁ := by
  rw [accepted, hrun]

theorem accepted_succeeds (hrun : call.run env codecs w = some (w₁, .ok ())) :
    accepted env codecs (call :: rest) w = call :: accepted env codecs rest w₁ := by
  rw [accepted, hrun]

end

/-- The calls that succeed do alone what all calls do. -/
theorem runCalls_accepted : ∀ (calls : List StreamCall) (w w' : StreamWriter),
    Alike env codecs w w' → Along env codecs (NoTrace env codecs) calls w →
    (runCalls env codecs calls w = none ∧
        runCalls env codecs (accepted env codecs calls w) w' = none) ∨
      ∃ v v', runCalls env codecs calls w = some v ∧
        runCalls env codecs (accepted env codecs calls w) w' = some v' ∧ Alike env codecs v v' := by
  intro calls
  induction calls with
  | nil =>
      intro w w' h _
      exact .inr ⟨w, w', rfl, rfl, h⟩
  | cons call rest ih =>
      intro w w' h halong
      obtain ⟨htrace, hrest⟩ := halong
      cases hrun : call.run env codecs w with
      | none =>
          rw [accepted_panics hrun]
          exact .inl ⟨runCalls_panics hrun, runCalls_panics (h.panics hrun)⟩
      | some called =>
          rw [runCalls_goes_on hrun]
          obtain ⟨w₁, result⟩ := called
          cases result with
          | error e =>
              rw [accepted_fails hrun]
              exact ih w₁ w' (h.fails (htrace ⟨w₁, e, hrun⟩) hrun) (hrest _ hrun)
          | ok done =>
              obtain ⟨w₁', hrun', h'⟩ := h.succeeds hrun
              rw [accepted_succeeds hrun, runCalls_goes_on hrun']
              exact ih w₁ w₁' h' (hrest _ hrun)

end

section

variable (env : WriterEnv) (config : WriteConfig)

/-- The context of the image of a sequence of calls. -/
def streamContext (calls : List StreamCall) : Except WriteStop WriterState := do
  let started ← StreamWriter.new config
  packContext env started.1 config.dictionaries calls started.2

/-- The calls that succeed when all are made one after another. -/
def acceptedCalls (calls : List StreamCall) : List StreamCall :=
  match StreamWriter.new config with
  | .error _ => []
  | .ok started => accepted env started.1 calls started.2

variable {env config}

/-- **Calls that fail leave no trace**, in every sequence in which each that fails makes no
directory and stages no file. -/
theorem rejected_calls_leave_no_trace {calls : List StreamCall}
    (hcond : ∀ started, StreamWriter.new config = .ok started →
      Along env started.1 (NoTrace env started.1) calls started.2) :
    (∃ e, streamContext env config calls = .error e ∧
        streamContext env config (acceptedCalls env config calls) = .error e) ∨
      ∃ ctx ctx', streamContext env config calls = .ok ctx ∧
        streamContext env config (acceptedCalls env config calls) = .ok ctx' ∧
        SameTree ctx.toWriteContext ctx'.toWriteContext := by
  unfold streamContext acceptedCalls
  cases hnew : StreamWriter.new config with
  | error e => exact .inl ⟨e, rfl, rfl⟩
  | ok started =>
      simp only [bind, Except.bind]
      have hlive := (live_new env hnew).1
      unfold packContext
      rcases runCalls_accepted calls started.2 started.2 ⟨hlive, hlive, rfl, rfl, rfl⟩
        (hcond started hnew) with ⟨hnone, hnone'⟩ | ⟨v, v', hv, hv', h⟩
      · rw [hnone, hnone']
        exact .inl ⟨_, rfl, rfl⟩
      · rw [hv, hv']
        exact finishContext_alike h

end

namespace Stored

/-- The name goes wrong behind its first component. -/
def climbingName : List StreamCall := [.addFile (ascii "a/../b") entryInfo [] []]

/-- A key with a zero byte. -/
def zeroKey : List StreamCall := [.stageFile (ascii "a") entryInfo [([0x00], [])] []]

/-- A link, and a file that would have its name. -/
def takenName : List StreamCall :=
  [.addSymlink (ascii "l") (ascii "t") entryInfo, .addFile (ascii "l") entryInfo [] []]

end Stored

open LimniFS.Stored

theorem exists_context {x : Except WriteStop WriterState} {P : WriterState → Prop}
    [DecidablePred P] (h : (x.toOption.map fun ctx => decide (P ctx)) = some true) :
    ∃ ctx, x = .ok ctx ∧ P ctx := by
  cases x with
  | error e => cases h
  | ok ctx => exact ⟨ctx, rfl, of_decide_eq_true (Option.some.inj h)⟩

/-- A name that is refused leaves a directory behind, and a file that is refused an entry without
an inode. -/
theorem rejected_calls_leave_traces :
    (∃ ctx ctx' : WriterState,
      streamContext writerEnv writeConfig climbingName = .ok ctx ∧
      acceptedCalls writerEnv writeConfig climbingName = [] ∧
      streamContext writerEnv writeConfig [] = .ok ctx' ∧
      (ctx.seen [ascii "a"]).isSome ∧ ctx'.seen [ascii "a"] = none) ∧
    ∃ ctx : WriterState,
      streamContext writerEnv writeConfig zeroKey = .ok ctx ∧
      ¬ctx.EntriesClosed := by
  obtain ⟨ctx, hctx, hseen⟩ := exists_context
    (x := streamContext writerEnv writeConfig climbingName)
    (P := fun ctx => (ctx.seen [ascii "a"]).isSome = true) (by decide +kernel)
  obtain ⟨ctx', hctx', hseen'⟩ := exists_context
    (x := streamContext writerEnv writeConfig [])
    (P := fun ctx => ctx.seen [ascii "a"] = none) (by decide +kernel)
  obtain ⟨ctx₁, hctx₁, hdangling⟩ := exists_context
    (x := streamContext writerEnv writeConfig zeroKey)
    (P := fun ctx => ¬ctx.EntriesClosed) (by decide +kernel)
  exact ⟨⟨ctx, ctx', hctx, List.eq_nil_of_length_eq_zero (by decide +kernel), hctx', hseen, hseen'⟩,
    ctx₁, hctx₁, hdangling⟩

theorem rejected_calls_leave_no_trace_taken :
    (acceptedCalls writerEnv writeConfig takenName).length = 1 ∧
    ((∃ e, streamContext writerEnv writeConfig takenName = .error e ∧
        streamContext writerEnv writeConfig
          (acceptedCalls writerEnv writeConfig takenName) = .error e) ∨
      ∃ ctx ctx', streamContext writerEnv writeConfig takenName = .ok ctx ∧
        streamContext writerEnv writeConfig
          (acceptedCalls writerEnv writeConfig takenName) = .ok ctx' ∧
        SameTree ctx.toWriteContext ctx'.toWriteContext) := by
  refine ⟨by decide +kernel, rejected_calls_leave_no_trace ?_⟩
  intro started hnew
  refine ⟨fun _ => ⟨.inr rfl, nofun⟩, fun called _ => ⟨fun _ => ⟨.inr rfl, nofun⟩, ?_⟩⟩
  exact fun called _ => trivial

end LimniFS
