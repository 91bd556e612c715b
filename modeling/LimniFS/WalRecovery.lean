/-
What opening an image again restores.

The operations are replayed on the contents as they were in the end, so a deletion
takes a content with it that was added only after it, and nothing brings it back.
Everything else is restored: the paths, because additions, updates and deletions act
on them as they did the first time, and the operations themselves, as long as every
count and length fits the field it is written in (`wal_recovers_iff`).
-/
import LimniFS.WalReplay
import LimniFS.FusePaging

namespace LimniFS.Rw

open Lib Lib.Parser Cursor

section
variable {base : Digest} {index : Bytes → Bool} {image : RwImage}

/-! ### Replaying a log that was written -/

theorem reads_readPathStr {path : Bytes} (hshort : path.length < u32Limit)
    (htext : utf8Valid path = true) : Reads readPathStr (pathStrBytes path) path :=
  (reads_readU32Le hshort).bind
    ((reads_readN rfl).bind_last ((reads_ensure htext).bind_nil (reads_pure path)))

theorem reads_replayFile {file : Σ _ : Bytes, Bytes} (hshort : file.1.length < u32Limit)
    (htext : utf8Valid file.1 = true) (hdata : file.2.length < 2 ^ 64) (files : PathMap Bytes) :
    Reads (replayFile files) (walFileBytes file) (files.insert file.1 file.2) :=
  (reads_readPathStr hshort htext).bind
    ((reads_readU64Le hdata).bind ((reads_readN rfl).bind_last (reads_pure _)))

theorem reads_replayEntry {e : HistoryEntry} (hshort : e.path.length < u32Limit)
    (htext : utf8Valid e.path = true) (image : RwImage) :
    Reads (replayEntry image) (walEntryBytes e) (Rw.replayOp image e.opByte e.path) := by
  have hop : e.opByte = 1 ∨ e.opByte = 2 ∨ e.opByte = 3 := by
    cases e <;> simp [HistoryEntry.opByte]
  exact (reads_readU8 e.opByte).bind ((reads_readPathStr hshort htext).bind_last
    ((reads_ensure hop).bind_nil (reads_pure _)))

theorem lookup_foldl_insert : ∀ (l : List (Σ _ : Bytes, Bytes)) (m : PathMap Bytes) (path : Bytes),
    l.NodupKeys → (l.foldl (fun m file => m.insert file.1 file.2) m).lookup path =
      (l.dlookup path).or (m.lookup path) := by
  intro l
  induction l with
  | nil =>
      intro m path _
      rfl
  | cons file rest ih =>
      intro m path hnodup
      obtain ⟨hnew, hrest⟩ := List.nodupKeys_cons.mp hnodup
      rw [List.foldl_cons, ih _ _ hrest]
      by_cases hpath : path = file.1
      · subst hpath
        rw [List.dlookup_eq_none.mpr hnew, AList.lookup_insert, List.dlookup_cons_eq]
        rfl
      · rw [AList.lookup_insert_ne hpath, List.dlookup_cons_ne _ _ hpath]

/-- The operations of the log, one after another. -/
def replayAll (image : RwImage) (history : List HistoryEntry) : RwImage :=
  history.foldl (fun image e => Rw.replayOp image e.opByte e.path) image

theorem replayAll_history : ∀ (history : List HistoryEntry) (image : RwImage),
    ((replayAll image history).pendingHistory.map fun e => (e.opByte, e.path)) =
      (image.pendingHistory.map fun e => (e.opByte, e.path))
        ++ history.map fun e => (e.opByte, e.path) := by
  intro history
  induction history with
  | nil =>
      intro image
      exact (List.append_nil _).symm
  | cons e rest ih =>
      intro image
      have hone : ((Rw.replayOp image e.opByte e.path).pendingHistory.map
          fun e => (e.opByte, e.path)) =
          (image.pendingHistory.map fun e => (e.opByte, e.path)) ++ [(e.opByte, e.path)] := by
        cases e <;> simp [Rw.replayOp, HistoryEntry.opByte, HistoryEntry.path]
      rw [replayAll, List.foldl_cons, ← replayAll, ih, hone, List.append_assoc]
      rfl

theorem replayAll_files : ∀ (history : List HistoryEntry) (image : RwImage) (path : Bytes),
    (replayAll image history).pendingFiles.lookup path =
      if ∃ e ∈ history, e.opByte = 3 ∧ e.path = path then none
      else image.pendingFiles.lookup path := by
  intro history
  induction history with
  | nil =>
      intro image path
      rw [if_neg (by simp)]
      rfl
  | cons e rest ih =>
      intro image path
      rw [replayAll, List.foldl_cons, ← replayAll, ih]
      by_cases hrest : ∃ e ∈ rest, e.opByte = 3 ∧ e.path = path
      · obtain ⟨e', he', hdel⟩ := hrest
        rw [if_pos ⟨e', he', hdel⟩, if_pos ⟨e', List.mem_cons_of_mem _ he', hdel⟩]
      · rw [if_neg hrest]
        by_cases hdel : e.opByte = 3 ∧ e.path = path
        · rw [if_pos ⟨e, List.mem_cons_self, hdel⟩, Rw.replayOp, hdel.1, hdel.2]
          exact AList.lookup_erase _ _
        · have hnone : ¬ ∃ e' ∈ e :: rest, e'.opByte = 3 ∧ e'.path = path := by
            rintro ⟨e', he', h'⟩
            rcases List.mem_cons.mp he' with rfl | hin
            · exact hdel h'
            · exact hrest ⟨e', hin, h'⟩
          rw [if_neg hnone]
          unfold Rw.replayOp
          split
          · rfl
          · split
            · rfl
            · next h1 h2 =>
                refine AList.lookup_erase_ne fun heq => hdel ⟨?_, heq.symm⟩
                cases e <;> simp [HistoryEntry.opByte] at h1 h2 ⊢

/-- The log of an image whose counts and lengths fit is read back whole. -/
theorem replayBody_written (hfits : LogFits image) (htexts : TextPaths image)
    {files : List (Σ _ : Bytes, Bytes)} (hfiles : files.Perm image.pendingFiles.entries)
    (fresh : RwImage) :
    replayBody fresh (leBytes 4 files.length ++ (files.flatMap walFileBytes
        ++ (leBytes 4 image.pendingHistory.length ++ image.pendingHistory.flatMap walEntryBytes))) =
      replayAll { fresh with
        pendingFiles := files.foldl (fun m file => m.insert file.1 file.2) fresh.pendingFiles }
        image.pendingHistory := by
  have hcount : files.length < u32Limit := by
    rw [hfiles.length_eq, ← List.length_map (f := Sigma.fst)]
    exact hfits.files
  have hmem : ∀ file ∈ files, image.pendingFiles.lookup file.1 = some file.2 := fun file hfile =>
    AList.mem_lookup_iff.mpr (hfiles.mem_iff.mp hfile)
  have hreadFiles := rounds_reads replayFile walFileBytes
    (fun m file => m.insert file.1 file.2) files fresh.pendingFiles
    (leBytes 4 image.pendingHistory.length ++ image.pendingHistory.flatMap walEntryBytes)
    (fun file hfile m => by
      obtain ⟨hshort, hdata⟩ := hfits.contents _ _ (hmem file hfile)
      refine reads_replayFile hshort (htexts.files _ ?_) hdata m
      exact AList.lookup_isSome.mp (by rw [hmem file hfile]; rfl))
  have hreadEntries := rounds_reads replayEntry walEntryBytes
    (fun image e => Rw.replayOp image e.opByte e.path) image.pendingHistory
    { fresh with
      pendingFiles := files.foldl (fun m file => m.insert file.1 file.2) fresh.pendingFiles } []
    (fun e he image => reads_replayEntry (hfits.paths e he) (htexts.history e he) image)
  rw [List.append_nil] at hreadEntries
  unfold replayBody
  rw [reads_readU32Le hcount]
  simp only [hreadFiles]
  rw [reads_readU32Le hfits.history]
  simp only [hreadEntries]
  rfl

theorem walTag_length (image : RwImage) : (walTag image).length = 32 := by
  unfold walTag
  split
  · next hash _ => exact hash.2
  · exact List.length_replicate

theorem writeWal_drop (image : RwImage) (files : List (Σ _ : Bytes, Bytes)) :
    (writeWal image files).drop 40 = leBytes 4 files.length ++ (files.flatMap walFileBytes
      ++ (leBytes 4 image.pendingHistory.length ++ image.pendingHistory.flatMap walEntryBytes)) := by
  have hmagic : walMagic.length = 8 := rfl
  unfold writeWal
  rw [← List.append_assoc walMagic,
    List.drop_left' (by rw [List.length_append, hmagic, walTag_length])]

theorem writeWal_tag (image : RwImage) (files : List (Σ _ : Bytes, Bytes)) :
    ((writeWal image files).drop 8).take 32 = walTag image := by
  have hmagic : walMagic.length = 8 := rfl
  unfold writeWal
  rw [List.drop_left' hmagic, List.take_left' (walTag_length image)]

theorem replayWal_stale {H : Hash} {manifest : Bytes}
    (htag : walTag image ≠ (hashSection H manifest).val)
    (files : List (Σ _ : Bytes, Bytes)) (fresh : RwImage) :
    replayWal H (some manifest) fresh (some (writeWal image files)) = fresh := by
  unfold replayWal
  simp only
  rw [writeWal_tag]
  split
  · rfl
  · rw [if_pos]
    exact fun h => htag (Option.some.inj h).symm

/-- A log whose tag is the hash of the manifest on disk is replayed. -/
theorem replayWal_written {H : Hash} {manifest : Bytes}
    (htag : walTag image = (hashSection H manifest).val)
    (files : List (Σ _ : Bytes, Bytes)) (fresh : RwImage) :
    replayWal H (some manifest) fresh (some (writeWal image files)) =
      replayBody fresh ((writeWal image files).drop 40) := by
  have hmagic : walMagic.length = 8 := rfl
  have hlen := walTag_length image
  have hhead : (writeWal image files).take 8 = walMagic := List.take_left' hmagic
  have hlong : ¬ (writeWal image files).length < 40 := by
    unfold writeWal
    rw [List.length_append, List.length_append, hmagic, hlen]
    omega
  unfold replayWal
  simp only
  rw [if_neg, if_neg]
  · rw [writeWal_tag, htag]
    exact not_not_intro rfl
  · rw [hhead, not_or]
    exact ⟨hlong, not_not_intro rfl⟩

theorem keys_length_of_lookup {a b : PathMap Bytes} (h : ∀ path, a.lookup path = b.lookup path) :
    a.keys.length = b.keys.length := by
  refine List.Perm.length_eq ((List.perm_ext_iff_of_nodup a.keys_nodup b.keys_nodup).mpr fun path => ?_)
  rw [← AList.mem_keys, ← AList.mem_keys, ← AList.lookup_isSome, ← AList.lookup_isSome, h]

theorem logFits_of_same {again : RwImage} {k m : Nat} (hk : k < u32Limit) (hm : m < u32Limit)
    (hbound : Bounded k m again) (hsame : SamePending again image) : LogFits image := by
  refine ⟨?_, fun path data hp => ?_, ?_, fun e he => ?_⟩
  · rw [← keys_length_of_lookup hsame.files]
    exact Nat.lt_of_le_of_lt hbound.files hk
  · rw [← hsame.files] at hp
    exact hbound.contents path data hp
  · have hlen := congrArg List.length hsame.history
    rw [List.length_map, List.length_map] at hlen
    rw [← hlen]
    exact Nat.lt_of_le_of_lt hbound.history hm
  · have hmem : (e.opByte, e.path) ∈ again.pendingHistory.map fun e => (e.opByte, e.path) := by
      rw [hsame.history]
      exact List.mem_map_of_mem he
    obtain ⟨e', he', heq⟩ := List.mem_map.mp hmem
    rw [← (Prod.mk.inj heq).2]
    exact hbound.paths e' he'

/-- The pending contents and the operations of a log that fits are there again, but for contents
added after a deletion. -/
theorem replayBody_pending (hfits : LogFits image) (htexts : TextPaths image)
    {files : List (Σ _ : Bytes, Bytes)} (hfiles : files.Perm image.pendingFiles.entries)
    {fresh : RwImage} (hempty : fresh.pendingFiles = ∅) (hnone : fresh.pendingHistory = []) :
    let again := replayBody fresh ((writeWal image files).drop 40)
    ((again.pendingHistory.map fun e => (e.opByte, e.path))
        = image.pendingHistory.map fun e => (e.opByte, e.path)) ∧
      ((∀ path, again.pendingFiles.lookup path = image.pendingFiles.lookup path) ↔
        NothingReadded image) := by
  intro again
  have hagain : again = replayAll { fresh with
      pendingFiles := files.foldl (fun m file => m.insert file.1 file.2) fresh.pendingFiles }
      image.pendingHistory := by
    show replayBody fresh ((writeWal image files).drop 40) = _
    rw [writeWal_drop, replayBody_written hfits htexts hfiles]
  have hlookup : ∀ path, (files.foldl (fun m file => m.insert file.1 file.2)
      fresh.pendingFiles).lookup path = image.pendingFiles.lookup path := by
    intro path
    have hnodup : files.NodupKeys := (List.perm_nodupKeys hfiles).mpr image.pendingFiles.nodupKeys
    rw [lookup_foldl_insert _ _ _ hnodup, hempty, List.perm_dlookup path hnodup hfiles]
    exact Option.or_none
  rw [hagain]
  refine ⟨?_, ?_⟩
  · rw [replayAll_history]
    simp only [hnone, List.map_nil, List.nil_append]
  · constructor
    · intro hsame e he hdel
      rw [← hsame, replayAll_files, if_pos ⟨e, he, hdel, rfl⟩]
    · intro hnothing path
      rw [replayAll_files]
      by_cases hdel : ∃ e ∈ image.pendingHistory, e.opByte = 3 ∧ e.path = path
      · obtain ⟨e, he, hop, rfl⟩ := hdel
        rw [if_pos ⟨e, he, hop, rfl⟩, hnothing e he hop]
      · rw [if_neg hdel]
        exact hlookup path

theorem samePending_iff (hfits : LogFits image) (hhandle : Handle base index image)
    {files : List (Σ _ : Bytes, Bytes)} (hfiles : files.Perm image.pendingFiles.entries)
    {fresh : RwImage} (hfresh : Handle base index fresh) (hempty : fresh.pendingFiles = ∅)
    (hnone : fresh.pendingHistory = []) :
    SamePending (replayBody fresh ((writeWal image files).drop 40)) image ↔ NothingReadded image := by
  obtain ⟨hhistory, hsame⟩ := replayBody_pending hfits hhandle.texts hfiles hempty hnone
  refine ⟨fun h => hsame.mp h.files, fun hnothing => ⟨hsame.mpr hnothing, fun path => ?_, hhistory⟩⟩
  have hafter := hfresh.replayBody ((writeWal image files).drop 40)
  rw [← decide_eq_decide, hafter.paths, hhandle.paths, lives_congr index hhistory]

/-! ### Opening again -/

theorem handle_freshHandle (H : Hash) (file : ImageFile) (state : OpenState) (paths : PathMap Nat) :
    Handle (hashSection H file.manifest) (fun path => decide (path ∈ paths))
      (freshHandle H file state paths) := by
  refine ⟨rfl, fun path => rfl, fun path hp => ?_, fun e he => ?_⟩
  · exact absurd hp (AList.notMem_empty path)
  · cases he

theorem Handle.replayWal {H : Hash} {onDisk : Option Bytes} (h : Handle base index image)
    (wal : Option Bytes) : Handle base index (Rw.replayWal H onDisk image wal) := by
  unfold Rw.replayWal
  split
  · exact h
  · split
    · exact h
    · split
      · exact h
      · exact h.replayBody _

/-- **Opening again restores the pending state exactly when the log's fields hold it and no
path with a pending content was deleted before.** -/
theorem wal_recovers_iff : ∀ (H : Hash) (z : Omnizip) (fuel : Nat) (file : ImageFile)
    (wal : Option Bytes) (opened image : RwImage) (ops : List Op),
    openImage H z fuel file wal = .ok (some opened) → runOps opened ops = .ok image →
    ∀ files : List (Σ _ : Bytes, Bytes), files.Perm image.pendingFiles.entries →
    ∃ again, openImage H z fuel file (some (writeWal image files)) = .ok (some again) ∧
      (SamePending again image ↔ LogFits image ∧ NothingReadded image) := by
  intro H z fuel file wal opened image ops hopen hrun files hfiles
  unfold openImage at hopen ⊢
  obtain ⟨state, hstate, hopen⟩ := except_bind_eq_ok.mp hopen
  obtain ⟨paths, hpaths, hopened⟩ := Option.map_eq_some_iff.mp (Except.ok.inj hopen)
  have hfresh := handle_freshHandle H file state paths
  have hhandle : Handle (hashSection H file.manifest) (fun path => decide (path ∈ paths)) image := by
    refine Handle.runOps ?_ hrun
    rw [← hopened]
    exact hfresh.replayWal wal
  rw [hstate]
  refine ⟨_, congrArg Except.ok (Option.map_eq_some_iff.mpr ⟨paths, hpaths, rfl⟩), ?_⟩
  have htag : walTag image = (hashSection H file.manifest).val := by rw [walTag, hhandle.tag]
  rw [replayWal_written htag]
  constructor
  · intro hsame
    have hfiles' : (freshHandle H file state paths).pendingFiles = ∅ := rfl
    obtain ⟨k, hk, m, hm, hbound⟩ := bounded_replayBody hfiles' rfl ((writeWal image files).drop 40)
    have hfits := logFits_of_same hk hm hbound hsame
    exact ⟨hfits, (samePending_iff hfits hhandle hfiles hfresh rfl rfl).mp hsame⟩
  · rintro ⟨hfits, hnothing⟩
    exact (samePending_iff hfits hhandle hfiles hfresh rfl rfl).mpr hnothing

end

namespace Stored

open LimniFS.Stored FuseVfs.Stored

def rwFile : ImageFile := ⟨manifest pagedBlobBytes 0, fun _ => none⟩

def rwOpen (file : ImageFile) (wal : Option Bytes) : Option RwImage :=
  (openImage foldDigest omnizip 8 file wal).toOption.bind id

theorem openImage_of_rwOpen {file : ImageFile} {wal : Option Bytes} {image : RwImage}
    (h : rwOpen file wal = some image) :
    openImage foldDigest omnizip 8 file wal = .ok (some image) := by
  unfold rwOpen at h
  cases hopen : openImage foldDigest omnizip 8 file wal with
  | error e =>
      rw [hopen] at h
      cases h
  | ok opened =>
      rw [hopen] at h
      exact congrArg Except.ok h

def rwOpened : RwImage := (rwOpen rwFile none).get (by decide +kernel)

/-- A file is deleted and added again. -/
def readdOps : List Op :=
  [.deleteFile ⟨ascii "a", by decide +kernel⟩, .addFile ⟨ascii "a", by decide +kernel⟩ (ascii "new")]

def readded : RwImage := (runOps rwOpened readdOps).toOption.get (by decide +kernel)

def reopened : RwImage :=
  (rwOpen rwFile (some (writeWal readded readded.pendingFiles.entries))).get (by decide +kernel)

theorem openImage_rwOpened : openImage foldDigest omnizip 8 rwFile none = .ok (some rwOpened) :=
  openImage_of_rwOpen (Option.some_get _).symm

theorem runOps_readded : runOps rwOpened readdOps = .ok readded := eq_ok_get _

end Stored

open LimniFS.Stored LimniFS.Rw.Stored

/-- A file that is deleted and added again has no content after the replay. -/
theorem readded_content_is_lost :
    openImage foldDigest omnizip 8 rwFile none =
        .ok (some rwOpened) ∧
      runOps rwOpened readdOps = .ok readded ∧
      openImage foldDigest omnizip 8 rwFile
          (some (writeWal readded readded.pendingFiles.entries)) =
        .ok (some reopened) ∧
      readded.pendingFiles.lookup (ascii "/a") = some (ascii "new") ∧
      reopened.pendingFiles.lookup (ascii "/a") = none ∧
      ¬ SamePending reopened readded := by
  refine ⟨openImage_rwOpened, runOps_readded,
    openImage_of_rwOpen (Option.some_get _).symm, by decide +kernel, by decide +kernel,
    fun h => ?_⟩
  exact absurd (h.files (ascii "/a")) (by decide +kernel)

theorem wal_recovers_iff_readded :
    openImage foldDigest omnizip 8 rwFile none =
        .ok (some rwOpened) ∧
      runOps rwOpened readdOps = .ok readded ∧
      ∃ again, openImage foldDigest omnizip 8 rwFile
          (some (writeWal readded readded.pendingFiles.entries)) =
        .ok (some again) ∧
        (SamePending again readded ↔
          LogFits readded ∧ NothingReadded readded) :=
  ⟨openImage_rwOpened, runOps_readded,
    wal_recovers_iff _ _ _ _ _ _ _ _ openImage_rwOpened runOps_readded _
      (List.Perm.refl _)⟩

end LimniFS.Rw
