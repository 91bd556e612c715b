/-
A log is replayed whole or not at all, as far as that goes.

The replay takes over each file and runs each operation as soon as it is read, and the
first failure ends one loop and not the replay.  What it keeps of bytes that are no log is
therefore nothing only when neither a file nor an operation is complete where it looks
for one (`StopsAtOnce`).  Of a log it keeps all, unless the inode numbers run out.
-/
import LimniFS.WalCursor

namespace LimniFS.Rw

open Lib Lib.Parser

/-! ### The replay -/

namespace WalCursor

/-- The count of the operations, zero where there is none. -/
def histCount (c : WalCursor) : Option (Nat × WalCursor) :=
  match readU32Le c with
  | none => none
  | some (.ok n, c') => some (n, c')
  | some (.error _, c') => some (0, c')

def replayBody (image : RwImage) (c : WalCursor) : Option RwImage :=
  match readU32Le c with
  | none => none
  | some (.error _, _) => some image
  | some (.ok filesCount, c) => do
    let (files, c) ← rounds replayFile filesCount image.pendingFiles c
    let (histCount, c) ← histCount c
    let (image, _) ← rounds replayEntry histCount { image with pendingFiles := files } c
    some image

end WalCursor

/-- `replay_wal_if_present` with the manifest on disk; nothing if it stops the program. -/
def replayWalIfPresent (H : Hash) (onDisk : Option Bytes) (image : RwImage) :
    Option Bytes → Option RwImage
  | none => some image
  | some bytes =>
    if bytes.length < 40 ∨ bytes.take 8 ≠ walMagic then some image
    else if onDisk.map (fun m => (hashSection H m).val) ≠ some ((bytes.drop 8).take 32) then
      some image
    else WalCursor.replayBody image ⟨bytes, 40⟩

/-! ### What a log is -/

/-- The files and the operations of a log. -/
structure WalBody where
  files : List (Σ _ : Bytes, Bytes)
  ops : List (UInt8 × Bytes)

namespace WalBody

def opBytes (op : UInt8 × Bytes) : Bytes := op.1 :: pathStrBytes op.2

def bytes (b : WalBody) : Bytes :=
  leBytes 4 b.files.length ++ (b.files.flatMap walFileBytes
    ++ (leBytes 4 b.ops.length ++ b.ops.flatMap opBytes))

/-- Counts and lengths that fit their fields, paths that are text and operations that there are. -/
structure Fits (b : WalBody) : Prop where
  files : b.files.length < u32Limit
  contents : ∀ file ∈ b.files, file.1.length < u32Limit ∧ utf8Valid file.1 = true ∧
    file.2.length < 2 ^ 64
  ops : b.ops.length < u32Limit
  paths : ∀ op ∈ b.ops, op.2.length < u32Limit ∧ utf8Valid op.2 = true ∧
    (op.1 = 1 ∨ op.1 = 2 ∨ op.1 = 3)

/-- The operations that take a new inode number. -/
def numbered (b : WalBody) : Nat := b.ops.countP fun op => op.1 = 1 ∨ op.1 = 2

/-- The handle with all of the log. -/
def applied (b : WalBody) (image : RwImage) : RwImage :=
  b.ops.foldl (fun image op => replayOp image op.1 op.2)
    { image with pendingFiles := b.files.foldl (fun m file => m.insert file.1 file.2) image.pendingFiles }

end WalBody

/-- These bytes are a complete, well-formed body of a log. -/
def WellFormed (bytes : Bytes) : Prop := ∃ b : WalBody, b.Fits ∧ bytes = b.bytes

/-- All of a log, and nothing of bytes that are none. -/
def AllOrNothing (image : RwImage) (bytes : Bytes) (outcome : Option RwImage) : Prop :=
  ∃ after, outcome = some after ∧
    (∀ b : WalBody, b.Fits → bytes = b.bytes → after = b.applied image) ∧
    (¬ WellFormed bytes → after = image)

/-! ### Where nothing is kept -/

/-- No file is complete where the replay looks for the first, and it goes on at `left`. -/
def NoFile (size filesCount : Nat) (rest left : Bytes) : Prop :=
  (filesCount = 0 ∧ left = rest) ∨
    (filesCount ≠ 0 ∧ ¬ WalCursor.Overlong size rest ∧ ∃ e, Rw.replayFile ∅ rest = (.error e, left))

/-- No operation is complete where the replay looks for the first. -/
def NoOperation (image : RwImage) (left : Bytes) : Prop :=
  ∀ histCount rest, Cursor.readU32Le left = (.ok histCount, rest) →
    histCount = 0 ∨ ∃ e after, Rw.replayEntry image rest = (.error e, after)

/-- Nothing is complete where the replay looks for it. -/
def StopsAtOnce (image : RwImage) (size : Nat) (bytes : Bytes) : Prop :=
  ∀ filesCount rest, Cursor.readU32Le bytes = (.ok filesCount, rest) →
    ∃ left, NoFile size filesCount rest left ∧ NoOperation image left

/-! ### The replay is the one without a limit -/

namespace WalCursor

section
variable {σ α : Type} {body : σ → WalRead σ}

theorem rounds_follows {p : σ → CoreParser σ} (h : ∀ s, Follows (body s) (p s)) :
    ∀ (n : Nat) (s : σ) (c : WalCursor), c.Inside → ∀ s' c', rounds body n s c = some (s', c') →
      Parser.rounds p n s c.left = (s', c'.left) ∧ c'.Inside ∧ c'.bytes = c.bytes := by
  intro n
  induction n with
  | zero =>
      intro s c hc s' c' hrun
      cases hrun
      exact ⟨rfl, hc, rfl⟩
  | succ n ih =>
      intro s c hc s' c' hrun
      rw [rounds] at hrun
      cases hout : body s c with
      | none =>
          rw [hout] at hrun
          cases hrun
      | some out =>
          rcases (h s).cases hc hout with ⟨next, after, hok, hread, hin, hbytes⟩
            | ⟨e, after, hbad, hread, hin, hbytes⟩
          · rw [hok] at hrun
            obtain ⟨hrounds, hin', hbytes'⟩ := ih next after hin s' c' hrun
            rw [Parser.rounds, hread]
            exact ⟨hrounds, hin', hbytes'.trans hbytes⟩
          · rw [hbad] at hrun
            cases hrun
            rw [Parser.rounds, hread]
            exact ⟨rfl, hin, hbytes⟩

theorem rounds_stopped {n : Nat} {s : σ} {c : WalCursor}
    (h : n = 0 ∨ ∃ c', body s c = some (.error (), c')) : ∃ c', rounds body n s c = some (s, c') := by
  cases n with
  | zero => exact ⟨c, rfl⟩
  | succ n =>
      obtain ⟨c', hc'⟩ := h.resolve_left (Nat.succ_ne_zero n)
      exact ⟨c', by rw [rounds, hc']⟩

end

theorem histCount_eq {c : WalCursor} (hc : c.Inside) :
    ∃ c', histCount c = some ((historyCount c.left).1, c') ∧ c'.left = (historyCount c.left).2 ∧
      c'.Inside := by
  unfold histCount historyCount
  rcases total_readU32Le.cases follows_readU32Le hc with ⟨n, c', hok, hread, hin, -⟩
    | ⟨e, c', hbad, hread, hin, -⟩
  · rw [hok, hread]
    exact ⟨c', rfl, rfl, hin⟩
  · rw [hbad, hread]
    exact ⟨c', rfl, rfl, hin⟩

/-- The steps of a replay that reads a count of files and does not stop the program. -/
theorem replayBody_steps {image after : RwImage} {c c1 : WalCursor} {n : Nat} (hin : c1.Inside)
    (hcount : readU32Le c = some (.ok n, c1)) (hrun : replayBody image c = some after) :
    ∃ files c2 c3 c4, rounds replayFile n image.pendingFiles c1 = some (files, c2) ∧
      Parser.rounds Rw.replayFile n image.pendingFiles c1.left = (files, c2.left) ∧
      c2.Inside ∧ c3.Inside ∧ c3.left = (historyCount c2.left).2 ∧
      rounds replayEntry (historyCount c2.left).1 { image with pendingFiles := files } c3 =
        some (after, c4) := by
  rw [replayBody, hcount] at hrun
  obtain ⟨⟨files, c2⟩, hfiles, hrun⟩ := Option.bind_eq_some_iff.mp hrun
  obtain ⟨hread, hin2, -⟩ := rounds_follows follows_replayFile n _ c1 hin files c2 hfiles
  obtain ⟨c3, hhist, hleft, hin3⟩ := histCount_eq hin2
  obtain ⟨⟨count, c3'⟩, hcount', hrun⟩ := Option.bind_eq_some_iff.mp hrun
  rw [hhist] at hcount'
  cases hcount'
  obtain ⟨⟨image', c4⟩, hops, hrun⟩ := Option.bind_eq_some_iff.mp hrun
  cases hrun
  exact ⟨files, c2, c3, c4, hfiles, hread, hin2, hin3, hleft, hops⟩

theorem replayBody_follows {image after : RwImage} {c : WalCursor} (hc : c.Inside)
    (hrun : replayBody image c = some after) : after = Rw.replayBody image c.left := by
  unfold Rw.replayBody
  rcases total_readU32Le.cases follows_readU32Le hc with ⟨n, c1, hok, hread, hin, -⟩
    | ⟨e, c1, hbad, hread, hin, -⟩
  · obtain ⟨files, c2, c3, c4, -, hfiles, hin2, hin3, hleft, hops⟩ := replayBody_steps hin hok hrun
    obtain ⟨hrounds, -⟩ := rounds_follows follows_replayEntry _ _ c3 hin3 _ _ hops
    rw [hread]
    simp only [hfiles]
    rw [hleft] at hrounds
    exact (congrArg Prod.fst hrounds).symm
  · rw [replayBody, hbad] at hrun
    rw [hread]
    cases hrun
    rfl

end WalCursor

/-- **A replay that does not stop the program is the replay whose sums have no limit.** -/
theorem replayWalIfPresent_eq {H : Hash} {onDisk : Option Bytes} {image after : RwImage}
    {bytes : Bytes} (hvec : bytes.length < 2 ^ 63)
    (hrun : replayWalIfPresent H onDisk image (some bytes) = some after) :
    after = replayWal H onDisk image (some bytes) := by
  unfold replayWalIfPresent at hrun
  unfold replayWal
  simp only at hrun ⊢
  split at hrun
  · next hhead =>
      rw [if_pos hhead]
      exact (Option.some.inj hrun).symm
  · next hhead =>
      rw [if_neg hhead]
      split at hrun
      · next htag =>
          rw [if_pos htag]
          exact (Option.some.inj hrun).symm
      · next htag =>
          rw [if_neg htag]
          rw [not_or, Nat.not_lt] at hhead
          exact WalCursor.replayBody_follows ⟨hhead.1, hvec⟩ hrun

/-! ### Bytes that are no log -/

theorem replayOp_history (image : RwImage) (op : UInt8) (path : Bytes) :
    (replayOp image op path).pendingHistory.length = image.pendingHistory.length + 1 := by
  unfold replayOp
  split
  · simp
  · split <;> simp

/-- Where an operation is kept the history is longer. -/
theorem operations_unchanged {n : Nat} {image : RwImage} {bs : Bytes}
    (h : (rounds replayEntry n image bs).1.pendingHistory = image.pendingHistory) :
    (rounds replayEntry n image bs).1 = image ∧
      (n = 0 ∨ ∃ e rest, replayEntry image bs = (.error e, rest)) := by
  have hgrow : ∀ s bs s' rest, replayEntry s bs = (.ok s', rest) →
      s.pendingHistory.length < s'.pendingHistory.length := by
    intro s bs s' rest hbody
    obtain ⟨op, path, rfl, -⟩ := replayEntry_ok hbody
    rw [replayOp_history]
    exact Nat.lt_succ_self _
  rcases rounds_unchanged replayEntry (fun s => s.pendingHistory.length)
      (fun s bs s' rest hbody => Nat.le_of_lt (hgrow s bs s' rest hbody)) (hgrow image bs)
      (Nat.le_of_eq (congrArg List.length h)) with ⟨hzero, hrun⟩ | ⟨-, e, rest, hbad, hrun⟩
  · exact ⟨congrArg Prod.fst hrun, Or.inl hzero⟩
  · exact ⟨congrArg Prod.fst hrun, Or.inr ⟨e, rest, hbad⟩⟩

theorem files_unchanged {n : Nat} {bs : Bytes} (h : (rounds replayFile n ∅ bs).1 = ∅) :
    (n = 0 ∧ (rounds replayFile n ∅ bs).2 = bs) ∨
      (n ≠ 0 ∧ ∃ e, replayFile ∅ bs = (.error e, (rounds replayFile n ∅ bs).2)) := by
  have hstays : ∀ (files : PathMap Bytes) bs files' rest, replayFile files bs = (.ok files', rest) →
      files'.keys ≠ [] := by
    intro files bs files' rest hbody
    obtain ⟨path, data, rfl, -⟩ := replayFile_ok hbody
    rw [AList.keys_insert]
    exact List.cons_ne_nil _ _
  let size := fun files : PathMap Bytes => if files.keys = [] then 0 else 1
  have hsize : ∀ (files : PathMap Bytes) bs files' rest,
      replayFile files bs = (.ok files', rest) → size files' = 1 :=
    fun files bs files' rest hbody => if_neg (hstays files bs files' rest hbody)
  have hle : ∀ files, size files ≤ 1 := by
    intro files
    show (if files.keys = [] then 0 else 1) ≤ 1
    split <;> omega
  have hempty : size ∅ = 0 := if_pos AList.keys_empty
  have hfirst : ∀ files' rest, replayFile ∅ bs = (.ok files', rest) → size ∅ < size files' := by
    intro files' rest hbody
    rw [hsize ∅ bs files' rest hbody, hempty]
    exact Nat.one_pos
  have hgrow : ∀ files bs files' rest, replayFile files bs = (.ok files', rest) →
      size files ≤ size files' := by
    intro files bs files' rest hbody
    rw [hsize files bs files' rest hbody]
    exact hle files
  rcases rounds_unchanged replayFile size hgrow hfirst (Nat.le_of_eq (by rw [h])) with
    ⟨hzero, hrun⟩ | ⟨hne, e, rest, hbad, hrun⟩
  · exact Or.inl ⟨hzero, congrArg Prod.snd hrun⟩
  · rw [hrun]
    exact Or.inr ⟨hne, e, hbad⟩

theorem noOperation_iff {image : RwImage} {left : Bytes} : NoOperation image left ↔
    ((historyCount left).1 = 0 ∨
      ∃ e after, replayEntry image (historyCount left).2 = (.error e, after)) := by
  unfold NoOperation historyCount
  cases hcount : Cursor.readU32Le left with
  | mk value rest =>
      cases value with
      | error e =>
          refine ⟨fun _ => Or.inl rfl, fun _ histCount rest' h => ?_⟩
          cases h
      | ok n =>
          refine ⟨fun h => h n rest rfl, fun h histCount rest' heq => ?_⟩
          cases heq
          exact h

theorem stopsAtOnce_of_unchanged {image : RwImage} {c : WalCursor} (hc : c.Inside)
    (hempty : image.pendingFiles = ∅) (hrun : WalCursor.replayBody image c = some image) :
    StopsAtOnce image c.bytes.length c.left := by
  intro filesCount rest hcount
  rcases WalCursor.total_readU32Le.cases WalCursor.follows_readU32Le hc with
    ⟨n, c1, hok, hread, hin, hbytes⟩ | ⟨e, c1, hbad, hread, -⟩
  · rw [hread] at hcount
    cases hcount
    obtain ⟨files, c2, c3, c4, hfiles, hrounds, hin2, hin3, hleft, hops⟩ :=
      WalCursor.replayBody_steps hin hok hrun
    obtain ⟨hentries, -⟩ :=
      WalCursor.rounds_follows WalCursor.follows_replayEntry _ _ c3 hin3 _ _ hops
    have hlast := congrArg Prod.fst hentries
    have hkept : (rounds replayEntry (historyCount c2.left).1 { image with pendingFiles := files }
        c3.left).1.pendingHistory = ({ image with pendingFiles := files } : RwImage).pendingHistory := by
      rw [hlast]
    obtain ⟨hsame, hstop⟩ := operations_unchanged hkept
    have hnone : files = ∅ := by
      rw [← hempty]
      exact congrArg RwImage.pendingFiles (hsame.symm.trans hlast)
    have himage : { image with pendingFiles := files } = image := by
      rw [hnone, ← hempty]
    rw [himage, hleft] at hstop
    rw [hempty, hnone] at hrounds hfiles
    refine ⟨c2.left, ?_, noOperation_iff.mpr hstop⟩
    rcases files_unchanged (congrArg Prod.fst hrounds) with ⟨hzero, hrest⟩ | ⟨hne, e, hbad⟩
    · rw [hrounds] at hrest
      exact Or.inl ⟨hzero, hrest⟩
    · rw [hrounds] at hbad
      refine Or.inr ⟨hne, fun hover => ?_, e, hbad⟩
      obtain ⟨k, rfl⟩ := Nat.exists_eq_succ_of_ne_zero hne
      rw [← hbytes, ← WalCursor.replayFile_eq_none hin ∅] at hover
      rw [WalCursor.rounds, hover] at hfiles
      cases hfiles
  · rw [hread] at hcount
    cases hcount

theorem files_of_noFile {n : Nat} {c : WalCursor} {left : Bytes} (hin : c.Inside)
    (h : NoFile c.bytes.length n c.left left) :
    ∃ c', WalCursor.rounds WalCursor.replayFile n ∅ c = some (∅, c') ∧ c'.left = left ∧
      c'.Inside := by
  rcases h with ⟨rfl, rfl⟩ | ⟨hne, hshort, e, hbad⟩
  · exact ⟨c, rfl, rfl, hin⟩
  · obtain ⟨k, rfl⟩ := Nat.exists_eq_succ_of_ne_zero hne
    cases hout : WalCursor.replayFile ∅ c with
    | none => exact absurd ((WalCursor.replayFile_eq_none hin ∅).mp hout) hshort
    | some out =>
        rcases (WalCursor.follows_replayFile ∅).cases hin hout with ⟨a, c', -, hread, -⟩
          | ⟨e', c', hbad', hread, hin', -⟩
        · rw [hbad] at hread
          cases hread
        · rw [hbad] at hread
          rw [WalCursor.rounds, hbad']
          exact ⟨c', rfl, (congrArg Prod.snd hread).symm, hin'⟩

theorem unchanged_of_stopsAtOnce {image : RwImage} {c : WalCursor} (hc : c.Inside)
    (hempty : image.pendingFiles = ∅) (hstops : StopsAtOnce image c.bytes.length c.left) :
    WalCursor.replayBody image c = some image := by
  rcases WalCursor.total_readU32Le.cases WalCursor.follows_readU32Le hc with
    ⟨n, c1, hok, hread, hin, hbytes⟩ | ⟨e, c1, hbad, -⟩
  · obtain ⟨left, hfile, hop⟩ := hstops n c1.left hread
    rw [← hbytes] at hfile
    obtain ⟨c2, hfiles, hleft2, hin2⟩ := files_of_noFile hin hfile
    obtain ⟨c3, hhist, hleft3, hin3⟩ := WalCursor.histCount_eq hin2
    rw [← hleft2] at hop
    obtain ⟨c4, hops⟩ := WalCursor.rounds_stopped (n := (historyCount c2.left).1)
      ((noOperation_iff.mp hop).imp_right fun ⟨e, after, hbad⟩ =>
        WalCursor.replayEntry_error hin3 (by rw [hleft3]; exact hbad))
    have himage : { image with pendingFiles := ∅ } = image := by
      rw [← hempty]
    rw [WalCursor.replayBody, hok]
    simp only [hempty, hfiles, bind, Option.bind, hhist, himage, hops]
  · rw [WalCursor.replayBody, hbad]

theorem unchanged_iff {image : RwImage} {c : WalCursor} (hc : c.Inside)
    (hempty : image.pendingFiles = ∅) :
    WalCursor.replayBody image c = some image ↔ StopsAtOnce image c.bytes.length c.left :=
  ⟨stopsAtOnce_of_unchanged hc hempty, unchanged_of_stopsAtOnce hc hempty⟩

end LimniFS.Rw
