/-
What the replay makes of a log.

Of a complete, well-formed log every file and every operation is taken over, unless the
inode numbers run out on the way, which stops the program.  With what is kept of other
bytes this gives exactly when a replay is all or nothing.
-/
import LimniFS.WalAtomic

namespace LimniFS.Rw

open Lib Lib.Parser

/-! ### A log -/

/-- What a read finds where the encoding of a value stands. -/
theorem WalCursor.Follows.reads {α : Type} {m : WalRead α} {p : CoreParser α}
    (h : WalCursor.Follows m p) {enc rest : Bytes} {a : α} (hr : Reads p enc a) {c : WalCursor}
    (hc : c.Inside) (hleft : c.left = enc ++ rest) (hsome : m c ≠ none) :
    m c = some (.ok a, c.skip enc.length) := by
  obtain ⟨out, hout⟩ := Option.ne_none_iff_exists'.mp hsome
  rcases h.cases hc hout with ⟨a', c', hok, hread, hin, hbytes⟩ | ⟨e, c', -, hread, -⟩
  · rw [hleft, hr rest] at hread
    cases hread
    have hpos := WalCursor.left_length hc
    have hpos' := WalCursor.left_length hin
    rw [hbytes] at hpos'
    rw [hleft, List.length_append] at hpos
    have hstands : c'.pos = c.pos + enc.length := by omega
    rw [hok, WalCursor.skip, ← hbytes, ← hstands]
  · rw [hleft, hr rest] at hread
    cases hread

/-- A loop over what is written where the cursor stands. -/
theorem WalCursor.rounds_written {σ α : Type} {body : σ → WalRead σ} {enc : α → Bytes}
    {step : σ → α → Option σ} : ∀ (xs : List α) (s : σ) (c : WalCursor) (rest : Bytes), c.Inside →
      c.left = xs.flatMap enc ++ rest →
      (∀ x ∈ xs, ∀ (s : σ) (c : WalCursor) (rest : Bytes), c.Inside → c.left = enc x ++ rest →
        body s c = (step s x).map fun s' => (.ok s', c.skip (enc x).length)) →
      WalCursor.rounds body xs.length s c =
        (xs.foldlM step s).map fun s' => (s', c.skip (xs.flatMap enc).length) := by
  intro xs
  induction xs with
  | nil =>
      intro s c rest _ _ _
      rfl
  | cons x xs ih =>
      intro s c rest hc hleft h
      obtain ⟨hx, hxs⟩ := List.forall_mem_cons.mp h
      rw [List.flatMap_cons, List.append_assoc] at hleft
      rw [List.length_cons, WalCursor.rounds, hx s c _ hc hleft, List.foldlM_cons, List.flatMap_cons]
      cases hstep : step s x with
      | none => rfl
      | some s' =>
          have hrest := ih s' (c.skip (enc x).length) rest (hc.skip_append hleft)
            (WalCursor.left_skip_append hleft) hxs
          have hskip : ∀ m n : Nat, (c.skip m).skip n = c.skip (m + n) := by
            intro m n
            simp only [WalCursor.skip, Nat.add_assoc]
          simp only [Option.map_some, hrest, hskip, List.length_append]
          rfl

theorem framed_readPathStr : Framed 0 readPathStr :=
  Cursor.framed_readU32Le.bind_zero fun len => (Cursor.framed_readN len).bind_zero fun _ =>
    Framed.ensure fun _ => framed_pure _

theorem not_overlong_of_ok {size : Nat} {files files' : PathMap Bytes} {record rest : Bytes}
    (hsize : size < 2 ^ 63) (hrecord : record.length ≤ size)
    (h : replayFile files record = (.ok files', rest)) : ¬ WalCursor.Overlong size record := by
  rintro ⟨path, len, after, content, hpath, hlen, hover⟩
  obtain ⟨used, hrecord', -⟩ := framed_readPathStr _ _ _ hpath
  obtain ⟨used', hafter, -⟩ := Cursor.framed_readU64Le _ _ _ hlen
  obtain ⟨path', _, hpath', hread⟩ := bind_eq_ok.mp h
  rw [hpath] at hpath'
  cases hpath'
  obtain ⟨len', _, hlen', hread⟩ := bind_eq_ok.mp hread
  rw [hlen] at hlen'
  cases hlen'
  obtain ⟨data, _, hdata, -⟩ := bind_eq_ok.mp hread
  obtain ⟨hlength, rfl⟩ := Cursor.readN_eq_ok.mp hdata
  rw [hrecord', hafter] at hrecord
  simp only [List.length_append] at hrecord hover
  unfold usizeLimit at hover
  omega

theorem replayFile_written {file : Σ _ : Bytes, Bytes} (hshort : file.1.length < u32Limit)
    (htext : utf8Valid file.1 = true) (hdata : file.2.length < 2 ^ 64) (files : PathMap Bytes)
    {c : WalCursor} {rest : Bytes} (hc : c.Inside) (hleft : c.left = walFileBytes file ++ rest) :
    WalCursor.replayFile files c =
      some (.ok (files.insert file.1 file.2), c.skip (walFileBytes file).length) := by
  have hreads := reads_replayFile hshort htext hdata files
  refine (WalCursor.follows_replayFile files).reads hreads hc hleft fun hnone => ?_
  have hlen := WalCursor.left_length hc
  have hok : replayFile files c.left = (.ok (files.insert file.1 file.2), rest) := by
    rw [hleft, hreads rest]
  exact not_overlong_of_ok hc.vec (by omega) hok ((WalCursor.replayFile_eq_none hc files).mp hnone)

/-- An operation, unless it takes an inode number behind the last. -/
def takeOp (image : RwImage) (op : UInt8 × Bytes) : Option RwImage :=
  if op.1 = 1 ∨ op.1 = 2 then
    (add64 image.nextInode 1).map fun _ => replayOp image op.1 op.2
  else some (replayOp image op.1 op.2)

theorem replayEntry_written {op : UInt8 × Bytes} (hshort : op.2.length < u32Limit)
    (htext : utf8Valid op.2 = true) (hop : op.1 = 1 ∨ op.1 = 2 ∨ op.1 = 3) (image : RwImage)
    {c : WalCursor} {rest : Bytes} (hc : c.Inside) (hleft : c.left = WalBody.opBytes op ++ rest) :
    WalCursor.replayEntry image c =
      (takeOp image op).map fun image' => (.ok image', c.skip (WalBody.opBytes op).length) := by
  have hfirst : c.left = [op.1] ++ (pathStrBytes op.2 ++ rest) := hleft
  obtain ⟨out, hout⟩ := WalCursor.total_readU8 c hc
  have hread := WalCursor.follows_readU8.reads (Cursor.reads_readU8 op.1) hc hfirst (by
    rw [hout]
    exact Option.some_ne_none _)
  have hin := hc.skip_append hfirst
  have hsecond := WalCursor.left_skip_append hfirst
  obtain ⟨out, hout⟩ := WalCursor.total_readPathStr _ hin
  have hread' := WalCursor.follows_readPathStr.reads (reads_readPathStr hshort htext) hin hsecond (by
    rw [hout]
    exact Option.some_ne_none _)
  have hskip : (c.skip [op.1].length).skip (pathStrBytes op.2).length =
      c.skip (WalBody.opBytes op).length := by
    simp only [WalCursor.skip, WalBody.opBytes, List.length_cons, List.length_nil]
    congr 1
    omega
  rw [hskip] at hread'
  rw [WalCursor.replayEntry, WalCursor.bind_ok hread, WalCursor.bind_ok hread', takeOp]
  by_cases hput : op.1 = 1 ∨ op.1 = 2
  · rw [if_pos hput, if_pos hput]
    cases add64 image.nextInode 1 with
    | none => rfl
    | some next => rfl
  · have hthree : op.1 = 3 := by
      rw [← or_assoc] at hop
      exact hop.resolve_left hput
    rw [if_neg hput, if_neg hput, if_pos hthree]
    rfl

/-! ### Inode numbers -/

theorem replayOp_nextInode (image : RwImage) (op : UInt8 × Bytes) :
    (replayOp image op.1 op.2).nextInode =
      image.nextInode + if op.1 = 1 ∨ op.1 = 2 then 1 else 0 := by
  unfold replayOp
  by_cases h1 : op.1 = 1
  · rw [if_pos h1, if_pos (Or.inl h1)]
  · rw [if_neg h1]
    by_cases h2 : op.1 = 2
    · rw [if_pos h2, if_pos (Or.inr h2)]
    · rw [if_neg h2, if_neg (not_or.mpr ⟨h1, h2⟩)]
      rfl

theorem foldlM_takeOp : ∀ (ops : List (UInt8 × Bytes)) (image : RwImage),
    image.nextInode < usizeLimit →
    ops.foldlM takeOp image =
      if image.nextInode + ops.countP (fun op => op.1 = 1 ∨ op.1 = 2) < usizeLimit then
        some (ops.foldl (fun image op => replayOp image op.1 op.2) image)
      else none := by
  intro ops
  induction ops with
  | nil =>
      intro image hnext
      rw [List.countP_nil, Nat.add_zero, if_pos hnext]
      rfl
  | cons op ops ih =>
      intro image hnext
      have hup := replayOp_nextInode image op
      rw [List.foldlM_cons, takeOp, List.foldl_cons, List.countP_cons]
      simp only [decide_eq_true_eq]
      by_cases hput : op.1 = 1 ∨ op.1 = 2
      · rw [if_pos hput] at hup
        simp only [if_pos hput]
        by_cases hroom : image.nextInode + 1 < usizeLimit
        · rw [add64_of_lt hroom]
          show ops.foldlM takeOp (replayOp image op.1 op.2) = _
          rw [ih _ (by rw [hup]; exact hroom), hup]
          congr 2
          omega
        · rw [add64, if_neg hroom, if_neg (by omega)]
          rfl
      · rw [if_neg hput] at hup
        simp only [if_neg hput]
        show ops.foldlM takeOp (replayOp image op.1 op.2) = _
        rw [ih _ (by rw [hup]; exact hnext), hup]
        rfl

section
variable {b : WalBody} {c : WalCursor} {rest : Bytes}

theorem files_written (hfits : b.Fits) (files : PathMap Bytes) (hc : c.Inside)
    (hleft : c.left = b.files.flatMap walFileBytes ++ rest) :
    WalCursor.rounds WalCursor.replayFile b.files.length files c =
      some (b.files.foldl (fun m file => m.insert file.1 file.2) files,
        c.skip (b.files.flatMap walFileBytes).length) := by
  let insert := fun (m : PathMap Bytes) (file : Σ _ : Bytes, Bytes) => m.insert file.1 file.2
  have hrounds := WalCursor.rounds_written b.files files c rest hc hleft
    (fun file hfile files c rest hc hleft => by
      obtain ⟨hshort, htext, hdata⟩ := hfits.contents file hfile
      show WalCursor.replayFile files c = (some (insert files file)).map _
      exact replayFile_written hshort htext hdata files hc hleft)
  have hall : b.files.foldlM (fun m file => some (insert m file)) files =
      some (b.files.foldl insert files) := List.foldlM_pure
  rw [hall] at hrounds
  exact hrounds

theorem ops_written (hfits : b.Fits) (image : RwImage) (hc : c.Inside)
    (hleft : c.left = b.ops.flatMap WalBody.opBytes ++ rest) (hnext : image.nextInode < usizeLimit) :
    WalCursor.rounds WalCursor.replayEntry b.ops.length image c =
      if image.nextInode + b.numbered < usizeLimit then
        some (b.ops.foldl (fun image op => replayOp image op.1 op.2) image,
          c.skip (b.ops.flatMap WalBody.opBytes).length)
      else none := by
  have hrounds := WalCursor.rounds_written b.ops image c rest hc hleft
    (fun op hop image c rest hc hleft => by
      obtain ⟨hshort, htext, hknown⟩ := hfits.paths op hop
      exact replayEntry_written hshort htext hknown image hc hleft)
  rw [hrounds, foldlM_takeOp _ _ hnext, WalBody.numbered]
  split
  · rfl
  · rfl

theorem counted {n : Nat} (hn : n < u32Limit) (hc : c.Inside) (hleft : c.left = leBytes 4 n ++ rest) :
    WalCursor.readU32Le c = some (.ok n, c.skip (leBytes 4 n).length) := by
  obtain ⟨out, hout⟩ := WalCursor.total_readU32Le c hc
  refine WalCursor.follows_readU32Le.reads (Cursor.reads_readU32Le hn) hc hleft ?_
  rw [hout]
  exact Option.some_ne_none _

/-- **Of a log all is kept, if there are inode numbers for it.** -/
theorem replayBody_wellFormed (hfits : b.Fits) {image : RwImage} (hc : c.Inside)
    (hleft : c.left = b.bytes) (hnext : image.nextInode < usizeLimit) :
    WalCursor.replayBody image c =
      if image.nextInode + b.numbered < usizeLimit then some (b.applied image) else none := by
  have hcount := counted hfits.files hc hleft
  have hin1 := hc.skip_append hleft
  have hleft1 := WalCursor.left_skip_append hleft
  have hfiles := files_written hfits image.pendingFiles hin1 hleft1
  have hin2 := hin1.skip_append hleft1
  have hleft2 := WalCursor.left_skip_append hleft1
  have hhist := counted hfits.ops hin2 hleft2
  have hin3 := hin2.skip_append hleft2
  have hleft3 := WalCursor.left_skip_append hleft2
  rw [← List.append_nil (b.ops.flatMap WalBody.opBytes)] at hleft3
  let files := b.files.foldl (fun m file => m.insert file.1 file.2) image.pendingFiles
  let filled : RwImage := { image with pendingFiles := files }
  have hops := ops_written hfits filled hin3 hleft3 hnext
  rw [WalCursor.replayBody, hcount]
  simp only [hfiles, bind, Option.bind, WalCursor.histCount, hhist]
  rw [hops]
  by_cases hroom : image.nextInode + b.numbered < usizeLimit
  · rw [if_pos hroom, if_pos hroom]
    rfl
  · rw [if_neg hroom, if_neg hroom]

end

/-! ### All or nothing -/

/-- A log file whose magic is right and whose tag is the manifest's hash. -/
structure WalHeader (H : Hash) (manifest bytes : Bytes) : Prop where
  long : 40 ≤ bytes.length
  magic : bytes.take 8 = walMagic
  tag : (bytes.drop 8).take 32 = (hashSection H manifest).val

theorem replayWalIfPresent_headed {H : Hash} {manifest bytes : Bytes}
    (h : WalHeader H manifest bytes) (image : RwImage) :
    replayWalIfPresent H (some manifest) image (some bytes) =
      WalCursor.replayBody image ⟨bytes, 40⟩ := by
  unfold replayWalIfPresent
  simp only
  rw [if_neg, if_neg]
  · rw [h.tag]
    exact not_not_intro rfl
  · rw [h.magic, not_or]
    exact ⟨Nat.not_lt.mpr h.long, not_not_intro rfl⟩

/-- **A replay is all or nothing exactly for a log that there are inode numbers for, and for other
bytes exactly where it stops at once.** -/
theorem replay_all_or_nothing_iff : ∀ (H : Hash) (manifest bytes : Bytes) (image : RwImage),
    WalHeader H manifest bytes → bytes.length < 2 ^ 63 →
    image.pendingFiles = ∅ → image.nextInode < usizeLimit →
    (AllOrNothing image (bytes.drop 40)
        (replayWalIfPresent H (some manifest) image (some bytes)) ↔
      (∃ b : WalBody, b.Fits ∧ bytes.drop 40 = b.bytes ∧
        image.nextInode + b.numbered < usizeLimit) ∨
      (¬ WellFormed (bytes.drop 40) ∧ StopsAtOnce image bytes.length (bytes.drop 40))) := by
  intro H manifest bytes image hhead hvec hempty hnext
  have hc : WalCursor.Inside ⟨bytes, 40⟩ := ⟨hhead.long, hvec⟩
  have hwhole : ∀ b : WalBody, b.Fits → bytes.drop 40 = b.bytes →
      WalCursor.replayBody image ⟨bytes, 40⟩ =
        if image.nextInode + b.numbered < usizeLimit then some (b.applied image) else none :=
    fun b hfits hbytes => replayBody_wellFormed hfits hc hbytes hnext
  rw [replayWalIfPresent_headed hhead]
  constructor
  · rintro ⟨after, hrun, -, hnothing⟩
    by_cases hwell : WellFormed (bytes.drop 40)
    · obtain ⟨b, hfits, hbytes⟩ := hwell
      refine Or.inl ⟨b, hfits, hbytes, ?_⟩
      by_contra hroom
      rw [hwhole b hfits hbytes, if_neg hroom] at hrun
      cases hrun
    · rw [hnothing hwell] at hrun
      exact Or.inr ⟨hwell, (unchanged_iff hc hempty).mp hrun⟩
  · rintro (⟨b, hfits, hbytes, hroom⟩ | ⟨hwell, hstops⟩)
    · have hrun := hwhole b hfits hbytes
      rw [if_pos hroom] at hrun
      refine ⟨_, hrun, fun b' hfits' hbytes' => ?_, fun hwell => absurd ⟨b, hfits, hbytes⟩ hwell⟩
      have hrun' := hwhole b' hfits' hbytes'
      rw [hrun] at hrun'
      split at hrun'
      · exact Option.some.inj hrun'
      · cases hrun'
    · refine ⟨image, (unchanged_iff hc hempty).mpr hstops, fun b hfits hbytes => ?_, fun _ => rfl⟩
      exact absurd ⟨b, hfits, hbytes⟩ hwell

namespace Stored

open LimniFS.Stored

/-- A log of the opened image whose body is this. -/
def logOf (body : Bytes) : Bytes :=
  walMagic ++ ((hashSection foldDigest rwFile.manifest).val ++ body)

def newFile : Σ _ : Bytes, Bytes := ⟨ascii "/b", ascii "new"⟩

/-- One file, and the end where the count of the operations should be. -/
def tornBody : Bytes := leBytes 4 1 ++ walFileBytes newFile

/-- One file whose content is said to have the largest length there is. -/
def overlongBody : Bytes := leBytes 4 1 ++ (pathStrBytes newFile.1 ++ leBytes 8 (2 ^ 64 - 1))

theorem walHeader_logOf (body : Bytes) : WalHeader foldDigest rwFile.manifest (logOf body) := by
  have hmagic : walMagic.length = 8 := rfl
  have hhash := (hashSection foldDigest rwFile.manifest).2
  refine ⟨?_, List.take_left' hmagic, ?_⟩
  · unfold logOf
    rw [List.length_append, List.length_append, hmagic, hhash]
    omega
  · unfold logOf
    rw [List.drop_left' hmagic, List.take_left' hhash]

theorem rwOpened_pendingFiles : rwOpened.pendingFiles = ∅ :=
  AList.ext (show rwOpened.pendingFiles.entries = [] by decide +kernel)

theorem tornBody_not_wellFormed : ¬ WellFormed tornBody := by
  rintro ⟨b, hfits, hbytes⟩
  have hone : Cursor.readU32Le tornBody = (.ok 1, walFileBytes newFile) :=
    Cursor.reads_readU32Le (by decide) _
  rw [hbytes, WalBody.bytes, Cursor.reads_readU32Le hfits.files] at hone
  obtain ⟨hcount, hrest⟩ := Prod.mk.inj hone
  obtain ⟨file, hfile⟩ := List.length_eq_one_iff.mp (Except.ok.inj hcount)
  obtain ⟨hshort, htext, hdata⟩ := hfits.contents file (by rw [hfile]; exact List.mem_singleton_self _)
  have hread : replayFile ∅ (walFileBytes newFile ++ []) = (.ok _, []) :=
    reads_replayFile (by decide) (by decide +kernel) (by decide) ∅ []
  rw [List.append_nil, ← hrest, hfile, List.flatMap_singleton,
    reads_replayFile hshort htext hdata ∅ _] at hread
  have hnil := congrArg List.length (Prod.mk.inj hread).2
  simp at hnil

end Stored

open LimniFS.Stored LimniFS.Rw.Stored

/-- A file without operations behind it stays, and a length of `2^64 - 1` stops the program. -/
theorem torn_log_is_kept :
    (∃ after, replayWalIfPresent foldDigest (some rwFile.manifest)
        rwOpened (some (logOf tornBody)) = some after ∧
      after.pendingFiles.lookup (ascii "/b") = some (ascii "new") ∧
      ¬ AllOrNothing rwOpened tornBody (some after)) ∧
    replayWalIfPresent foldDigest (some rwFile.manifest)
        rwOpened (some (logOf overlongBody)) = none ∧
      ¬ AllOrNothing rwOpened overlongBody none := by
  have htorn : ((replayWalIfPresent foldDigest (some rwFile.manifest)
      rwOpened (some (logOf tornBody))).map fun after =>
        after.pendingFiles.lookup (ascii "/b")) = some (some (ascii "new")) := by
    decide +kernel
  obtain ⟨after, hafter, hlookup⟩ := Option.map_eq_some_iff.mp htorn
  refine ⟨⟨after, hafter, hlookup, ?_⟩, ?_, ?_⟩
  · rintro ⟨after', hsome, -, hnothing⟩
    cases hsome
    rw [hnothing tornBody_not_wellFormed, rwOpened_pendingFiles] at hlookup
    cases hlookup
  · exact Option.isNone_iff_eq_none.mp (by decide +kernel)
  · rintro ⟨after, hsome, -⟩
    cases hsome

theorem replay_all_or_nothing_iff_torn :
    WalHeader foldDigest rwFile.manifest (logOf tornBody) ∧
      (AllOrNothing rwOpened ((logOf tornBody).drop 40)
          (replayWalIfPresent foldDigest (some rwFile.manifest)
            rwOpened (some (logOf tornBody))) ↔
        (∃ b : WalBody, b.Fits ∧ (logOf tornBody).drop 40 = b.bytes ∧
          rwOpened.nextInode + b.numbered < usizeLimit) ∨
        (¬ WellFormed ((logOf tornBody).drop 40) ∧
          StopsAtOnce rwOpened (logOf tornBody).length
            ((logOf tornBody).drop 40))) :=
  ⟨walHeader_logOf _, replay_all_or_nothing_iff _ _ _ _ (walHeader_logOf _)
    (by decide +kernel) rwOpened_pendingFiles (by decide +kernel)⟩

end LimniFS.Rw
