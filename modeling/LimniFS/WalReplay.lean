/-
Handles on an image, and the replay of a log whatever its bytes are.

A handle keeps in its map of paths what its operations have made of the image's own
(`Handle`), whether they came from a caller or from a log.  What a replay leaves fits
the fields it was read from (`Bounded`).  Both are proved by one rule: what taking over
a file and replaying one operation preserve, the replay of any bytes preserves.
-/
import LimniFS.RwImage

namespace LimniFS.Rw

open Lib Lib.Parser Cursor

/-! ### Runs of operations -/

/-- A `&str`. -/
abbrev Text := { b : Bytes // utf8Valid b = true }

inductive Op where
  | addFile (path : Text) (data : Bytes)
  | updateFile (path : Text) (data : Bytes)
  | deleteFile (path : Text)

def Op.apply (image : RwImage) : Op → Except WriteError RwImage
  | .addFile path data => .ok (image.addFile path.val data)
  | .updateFile path data => image.updateFile path.val data
  | .deleteFile path => image.deleteFile path.val

/-- Operations that all succeed. -/
def runOps (image : RwImage) (ops : List Op) : Except WriteError RwImage := ops.foldlM Op.apply image

/-- The same pending files, the same paths, and the same operations on the same paths. -/
structure SamePending (a b : RwImage) : Prop where
  files : ∀ path, a.pendingFiles.lookup path = b.pendingFiles.lookup path
  paths : ∀ path, path ∈ a.inodeMap ↔ path ∈ b.inodeMap
  history : (a.pendingHistory.map fun e => (e.opByte, e.path)) =
    b.pendingHistory.map fun e => (e.opByte, e.path)

/-- Every count and length fits the field it is written in. -/
structure LogFits (image : RwImage) : Prop where
  files : image.pendingFiles.keys.length < u32Limit
  contents : ∀ path data, image.pendingFiles.lookup path = some data →
    path.length < u32Limit ∧ data.length < 2 ^ 64
  history : image.pendingHistory.length < u32Limit
  paths : ∀ e ∈ image.pendingHistory, e.path.length < u32Limit

/-- No path that was deleted has a pending content. -/
def NothingReadded (image : RwImage) : Prop :=
  ∀ e ∈ image.pendingHistory, e.opByte = 3 → image.pendingFiles.lookup e.path = none

/-! ### What a handle's operations have made of its paths -/

/-- Which paths there are after the operations. -/
def lives (history : List HistoryEntry) (index : Bytes → Bool) : Bytes → Bool :=
  history.foldl (fun f e => Function.update f e.path (e.opByte != 3)) index

theorem lives_congr : ∀ {a b : List HistoryEntry} (index : Bytes → Bool),
    (a.map fun e => (e.opByte, e.path)) = (b.map fun e => (e.opByte, e.path)) →
      lives a index = lives b index := by
  have hfold : ∀ (l : List HistoryEntry) (index : Bytes → Bool), lives l index =
      (l.map fun e => (e.opByte, e.path)).foldl
        (fun f e => Function.update f e.2 (e.1 != 3)) index := by
    intro l index
    rw [List.foldl_map]
    rfl
  intro a b index h
  rw [hfold, hfold, h]

/-- What every handle on an image satisfies. -/
structure Handle (base : Digest) (index : Bytes → Bool) (image : RwImage) : Prop where
  tag : image.baseManifestHash = some base
  paths : ∀ path, decide (path ∈ image.inodeMap) = lives image.pendingHistory index path
  fileText : ∀ path ∈ image.pendingFiles, utf8Valid path = true
  historyText : ∀ e ∈ image.pendingHistory, utf8Valid e.path = true

/-- The pending paths are text. -/
structure TextPaths (image : RwImage) : Prop where
  files : ∀ path ∈ image.pendingFiles, utf8Valid path = true
  history : ∀ e ∈ image.pendingHistory, utf8Valid e.path = true

section
variable {base : Digest} {index : Bytes → Bool} {image : RwImage}

theorem Handle.texts (h : Handle base index image) : TextPaths image := ⟨h.fileText, h.historyText⟩

theorem lives_snoc (history : List HistoryEntry) (e : HistoryEntry) (path : Bytes) :
    lives (history ++ [e]) index path =
      if path = e.path then e.opByte != 3 else lives history index path := by
  rw [lives, List.foldl_append, List.foldl_cons, List.foldl_nil, Function.update_apply]
  rfl

theorem decide_mem_insert {m : PathMap Nat} {key path : Bytes} {n : Nat} :
    decide (path ∈ m.insert key n) = if path = key then true else decide (path ∈ m) := by
  by_cases h : path = key
  · simp [h]
  · simp [h]

theorem decide_mem_erase {m : PathMap Nat} {key path : Bytes} :
    decide (path ∈ m.erase key) = if path = key then false else decide (path ∈ m) := by
  by_cases h : path = key
  · simp [h, AList.mem_erase]
  · simp [h, AList.mem_erase]

/-- An operation that puts a path in. -/
theorem Handle.insert (h : Handle base index image) {e : HistoryEntry} (hop : e.opByte ≠ 3)
    (htext : utf8Valid e.path = true) (inode next : Nat) {files : PathMap Bytes}
    (hfiles : ∀ path ∈ files, utf8Valid path = true) :
    Handle base index { image with
      nextInode := next
      pendingFiles := files
      inodeMap := image.inodeMap.insert e.path inode
      pendingHistory := image.pendingHistory ++ [e] } := by
  refine ⟨h.tag, fun path => ?_, hfiles, fun e' he' => ?_⟩
  · rw [lives_snoc, ← h.paths path, decide_mem_insert, bne_iff_ne.mpr hop]
  · rcases List.mem_append.mp he' with hin | hin
    · exact h.historyText e' hin
    · rw [List.mem_singleton.mp hin]
      exact htext

theorem Handle.erase (h : Handle base index image) {path : Bytes} {inode : Nat}
    (htext : utf8Valid path = true) :
    Handle base index { image with
      inodeMap := image.inodeMap.erase path
      pendingFiles := image.pendingFiles.erase path
      pendingHistory := image.pendingHistory ++ [.delete path inode] } := by
  refine ⟨h.tag, fun p => ?_, fun p hp => ?_, fun e' he' => ?_⟩
  · rw [lives_snoc, ← h.paths p, decide_mem_erase]
    rfl
  · exact h.fileText p (AList.mem_erase.mp hp).2
  · rcases List.mem_append.mp he' with hin | hin
    · exact h.historyText e' hin
    · rw [List.mem_singleton.mp hin]
      exact htext

/-! ### Paths stay text -/

theorem utf8Valid_slash (rest : Bytes) : utf8Valid (slash :: rest) = utf8Valid rest := by
  rw [utf8Valid.eq_def]
  exact if_pos (by decide)

theorem utf8Valid_append_slash (x : Bytes) : utf8Valid (x ++ [slash]) = utf8Valid x := by
  have hslash : isContinuation slash = false := by decide
  have hlt : slash < 128 := by decide
  fun_induction utf8Valid x with
  | case1 => decide
  | case2 b rest hb ih =>
      rw [List.cons_append, utf8Valid.eq_def]
      simp only [if_pos hb]
      exact ih
  | case3 b hb =>
      rw [List.cons_append, utf8Valid.eq_def]
      simp [hb, hslash]
  | case4 b hb b1 rest1 hb1 ih =>
      rw [List.cons_append, List.cons_append, utf8Valid.eq_def]
      simp [hb, hb1, ih]
  | case5 b hb b1 hb1 =>
      rw [List.cons_append, List.cons_append, utf8Valid.eq_def]
      simp [hb, hb1, hslash]
  | case6 b hb b1 hb1 b2 rest2 hb2 ih =>
      rw [List.cons_append, List.cons_append, List.cons_append, utf8Valid.eq_def]
      simp [hb, hb1, hb2, ih]
  | case7 b hb b1 hb1 b2 hb2 =>
      rw [List.cons_append, List.cons_append, List.cons_append, utf8Valid.eq_def]
      simp [hb, hb1, hb2, hslash]
  | case8 b hb b1 hb1 b2 hb2 b3 rest3 ih =>
      rw [List.cons_append, List.cons_append, List.cons_append, List.cons_append, utf8Valid.eq_def]
      simp [hb, hb1, hb2, ih]

theorem utf8Valid_dropWhile {x : Bytes} (h : utf8Valid x = true) :
    utf8Valid (x.dropWhile (· == slash)) = true := by
  induction x with
  | nil => rfl
  | cons b rest ih =>
      rw [List.dropWhile_cons]
      by_cases hb : b = slash
      · subst hb
        rw [if_pos (beq_self_eq_true slash)]
        exact ih (by rwa [utf8Valid_slash] at h)
      · rw [if_neg (by simpa using hb)]
        exact h

theorem utf8Valid_rdropWhile {x : Bytes} (h : utf8Valid x = true) :
    utf8Valid (x.rdropWhile (· == slash)) = true := by
  induction x using List.reverseRecOn with
  | nil => rfl
  | append_singleton init b ih =>
      by_cases hb : b = slash
      · subst hb
        rw [List.rdropWhile_concat_pos (fun x => x == slash) init slash (beq_self_eq_true slash)]
        exact ih (by rwa [utf8Valid_append_slash] at h)
      · rw [List.rdropWhile_concat_neg (fun x => x == slash) init b (by simpa using hb)]
        exact h

theorem normalizePath_text {path : Bytes} (h : utf8Valid path = true) :
    utf8Valid (normalizePath path) = true := by
  unfold normalizePath
  simp only
  split
  · decide
  · rw [utf8Valid_slash]
    exact utf8Valid_rdropWhile (utf8Valid_dropWhile h)

/-! ### Handles -/

theorem fileText_insert {files : PathMap Bytes} {key : Bytes} (data : Bytes)
    (h : ∀ path ∈ files, utf8Valid path = true) (hkey : utf8Valid key = true) :
    ∀ path ∈ files.insert key data, utf8Valid path = true := by
  intro path hp
  rcases (AList.mem_insert files).mp hp with rfl | hin
  · exact hkey
  · exact h path hin

/-- The path an operation is about. -/
def Op.key : Op → Bytes
  | .addFile path _ | .updateFile path _ | .deleteFile path => normalizePath path.val

theorem Op.key_text (op : Op) : utf8Valid op.key = true := by
  cases op with
  | addFile path data | updateFile path data | deleteFile path => exact normalizePath_text path.2

theorem Op.apply_cases {op : Op} {image' : RwImage} (happly : op.apply image = .ok image') :
    (∃ data e inode next, e.path = op.key ∧ e.opByte ≠ 3 ∧
        image' = { image with
          nextInode := next
          pendingFiles := image.pendingFiles.insert op.key data
          inodeMap := image.inodeMap.insert op.key inode
          pendingHistory := image.pendingHistory ++ [e] }) ∨
      ∃ inode, image' = { image with
        inodeMap := image.inodeMap.erase op.key
        pendingFiles := image.pendingFiles.erase op.key
        pendingHistory := image.pendingHistory ++ [.delete op.key inode] } := by
  cases op with
  | addFile path data =>
      cases happly
      exact Or.inl ⟨data, .add _ _ _, _, _, rfl, by simp [HistoryEntry.opByte], rfl⟩
  | updateFile path data =>
      simp only [Op.apply, RwImage.updateFile] at happly
      split at happly
      · cases happly
      · cases happly
        exact Or.inl ⟨data, .update _ _ _ _, _, _, rfl, by simp [HistoryEntry.opByte], rfl⟩
  | deleteFile path =>
      simp only [Op.apply, RwImage.deleteFile] at happly
      split at happly
      · cases happly
      · cases happly
        exact Or.inr ⟨_, rfl⟩

theorem Handle.apply (h : Handle base index image) {op : Op} {image' : RwImage}
    (happly : op.apply image = .ok image') : Handle base index image' := by
  rcases Op.apply_cases happly with ⟨data, e, inode, next, hpath, hop, rfl⟩ | ⟨inode, rfl⟩
  · rw [← hpath]
    have hkey : utf8Valid e.path = true := by
      rw [hpath]
      exact op.key_text
    exact h.insert hop hkey inode next (fileText_insert data h.fileText hkey)
  · exact h.erase op.key_text

theorem Handle.runOps : ∀ {ops : List Op} {image image' : RwImage}, Handle base index image →
    Rw.runOps image ops = .ok image' → Handle base index image' := by
  intro ops
  induction ops with
  | nil =>
      intro image image' h hrun
      cases hrun
      exact h
  | cons op ops ih =>
      intro image image' h hrun
      rw [Rw.runOps, List.foldlM_cons] at hrun
      obtain ⟨mid, hmid, hrest⟩ := except_bind_eq_ok.mp hrun
      exact ih (h.apply hmid) hrest

theorem Handle.replayOp (h : Handle base index image) {op : UInt8} {path : Bytes}
    (htext : utf8Valid path = true) : Handle base index (Rw.replayOp image op path) := by
  unfold Rw.replayOp
  split
  · exact h.insert (e := .add _ _ _) (by simp [HistoryEntry.opByte]) htext _ _ h.fileText
  · split
    · exact h.insert (e := .update _ _ _ _) (by simp [HistoryEntry.opByte]) htext _ _ h.fileText
    · exact h.erase htext

theorem readN_length {n : Nat} {bs rest l : Bytes} (h : readN n bs = (.ok l, rest)) :
    l.length = n := by
  obtain ⟨b, _, _, hpure⟩ := bind_eq_ok.mp h
  obtain ⟨rfl, -⟩ := pure_eq_ok.mp hpure
  exact b.2

theorem readPathStr_ok {bs rest path : Bytes} (h : readPathStr bs = (.ok path, rest)) :
    path.length < u32Limit ∧ utf8Valid path = true := by
  simp only [readPathStr, bind_eq_ok, pure_eq_ok, ensure_eq_ok] at h
  obtain ⟨len, _, hlen, _, _, hread, _, _, ⟨htext, rfl⟩, rfl, -⟩ := h
  rw [readN_length hread]
  exact ⟨readU32Le_lt hlen, htext⟩

theorem replayFile_ok {files files' : PathMap Bytes} {bs rest : Bytes}
    (h : replayFile files bs = (.ok files', rest)) :
    ∃ path data, files' = files.insert path data ∧ path.length < u32Limit ∧
      utf8Valid path = true ∧ data.length < 2 ^ 64 := by
  simp only [replayFile, bind_eq_ok, pure_eq_ok] at h
  obtain ⟨path, _, hpath, len, _, hlen, data, _, hdata, rfl, -⟩ := h
  obtain ⟨hshort, htext⟩ := readPathStr_ok hpath
  refine ⟨path, data, rfl, hshort, htext, ?_⟩
  rw [readN_length hdata]
  exact readU64Le_lt hlen

theorem replayEntry_ok {image' : RwImage} {bs rest : Bytes}
    (h : replayEntry image bs = (.ok image', rest)) :
    ∃ op path, image' = Rw.replayOp image op path ∧ path.length < u32Limit ∧
      utf8Valid path = true ∧ (op = 1 ∨ op = 2 ∨ op = 3) := by
  simp only [replayEntry, bind_eq_ok, pure_eq_ok, ensure_eq_ok] at h
  obtain ⟨op, _, _, path, _, hpath, _, _, ⟨hop, rfl⟩, rfl, -⟩ := h
  obtain ⟨hshort, htext⟩ := readPathStr_ok hpath
  exact ⟨op, path, rfl, hshort, htext, hop⟩

/-- What a replay can leave: everything it read fits the fields it was read from. -/
structure Bounded (files entries : Nat) (image : RwImage) : Prop where
  files : image.pendingFiles.keys.length ≤ files
  contents : ∀ path data, image.pendingFiles.lookup path = some data →
    path.length < u32Limit ∧ data.length < 2 ^ 64
  history : image.pendingHistory.length ≤ entries
  paths : ∀ e ∈ image.pendingHistory, e.path.length < u32Limit

theorem bounded_replayOp {files entries : Nat} (h : Bounded files entries image) {op : UInt8}
    {path : Bytes} (hshort : path.length < u32Limit) :
    Bounded files (entries + 1) (Rw.replayOp image op path) := by
  have hpaths : ∀ e : HistoryEntry, e.path = path →
      ∀ e' ∈ image.pendingHistory ++ [e], e'.path.length < u32Limit := by
    intro e he e' he'
    rcases List.mem_append.mp he' with hin | hin
    · exact h.paths e' hin
    · rw [List.mem_singleton.mp hin, he]
      exact hshort
  have hlen : ∀ e : HistoryEntry, (image.pendingHistory ++ [e]).length ≤ entries + 1 := by
    intro e
    rw [List.length_append]
    exact Nat.succ_le_succ h.history
  unfold Rw.replayOp
  split
  · exact ⟨h.files, h.contents, hlen _, hpaths _ rfl⟩
  · split
    · exact ⟨h.files, h.contents, hlen _, hpaths _ rfl⟩
    · refine ⟨?_, fun p d hp => ?_, hlen _, hpaths _ rfl⟩
      · exact Nat.le_trans (keys_length_erase image.pendingFiles path) h.files
      · by_cases hpath : p = path
        · subst hpath
          rw [AList.lookup_erase] at hp
          cases hp
        · rw [AList.lookup_erase_ne hpath] at hp
          exact h.contents p d hp

theorem bounded_insert {files entries : Nat} (h : Bounded files entries image) {path data : Bytes}
    (hshort : path.length < u32Limit) (hdata : data.length < 2 ^ 64) :
    Bounded (files + 1) entries
      { image with pendingFiles := image.pendingFiles.insert path data } := by
  refine ⟨?_, fun p d hp => ?_, h.history, h.paths⟩
  · exact Nat.le_trans (keys_length_insert image.pendingFiles path data) (Nat.succ_le_succ h.files)
  · by_cases hpath : p = path
    · subst hpath
      rw [AList.lookup_insert] at hp
      cases hp
      exact ⟨hshort, hdata⟩
    · rw [AList.lookup_insert_ne hpath] at hp
      exact h.contents p d hp

/-- The history count of a log, zero if there is none. -/
def historyCount (bytes : Bytes) : Nat × Bytes :=
  match readU32Le bytes with
  | (.ok n, rest) => (n, rest)
  | (.error _, rest) => (0, rest)

theorem historyCount_lt (bytes : Bytes) : (historyCount bytes).1 < u32Limit := by
  unfold historyCount
  split
  · next n rest h => exact readU32Le_lt h
  · exact Nat.two_pow_pos 32

/-- **A rule for replays**: what taking over a file and replaying an operation preserve, the
replay of any bytes preserves. -/
theorem replayBody_induct {I : Nat → Nat → RwImage → Prop}
    (hfile : ∀ k m image path data, I k m image → path.length < u32Limit → utf8Valid path = true →
      data.length < 2 ^ 64 →
      I (k + 1) m { image with pendingFiles := image.pendingFiles.insert path data })
    (hop : ∀ k m image op path, I k m image → path.length < u32Limit → utf8Valid path = true →
      I k (m + 1) (Rw.replayOp image op path))
    (hinit : I 0 0 image) (bytes : Bytes) :
    ∃ k < u32Limit, ∃ m < u32Limit, I k m (replayBody image bytes) := by
  unfold replayBody
  split
  · exact ⟨0, by decide, 0, by decide, hinit⟩
  · next filesCount rest hcount =>
      have hfiles := rounds_induct replayFile
        (I := fun k files => I k 0 { image with pendingFiles := files })
        (fun k files bs files' rest hI hbody => by
          obtain ⟨path, data, rfl, hshort, htext, hdata⟩ := replayFile_ok hbody
          exact hfile k 0 _ path data hI hshort htext hdata)
        filesCount 0 image.pendingFiles rest hinit
      obtain ⟨k, hk, hI⟩ := hfiles
      rw [Nat.zero_add] at hI
      have hentries := rounds_induct replayEntry (I := fun m image => I k m image)
        (fun m image bs image' rest hI hbody => by
          obtain ⟨op, path, rfl, hshort, htext, -⟩ := replayEntry_ok hbody
          exact hop k m _ op path hI hshort htext)
        (historyCount (rounds replayFile filesCount image.pendingFiles rest).2).1 0 _
        (historyCount (rounds replayFile filesCount image.pendingFiles rest).2).2 hI
      obtain ⟨m, hm, hI⟩ := hentries
      rw [Nat.zero_add] at hI
      exact ⟨k, Nat.lt_of_le_of_lt hk (readU32Le_lt hcount), m,
        Nat.lt_of_le_of_lt hm (historyCount_lt _), hI⟩

theorem Handle.replayBody (h : Handle base index image) (bytes : Bytes) :
    Handle base index (Rw.replayBody image bytes) := by
  obtain ⟨k, -, m, -, hI⟩ := replayBody_induct (I := fun _ _ image => Handle base index image)
    (fun k m image path data hI _ htext _ =>
      ⟨hI.tag, hI.paths, fileText_insert data hI.fileText htext, hI.historyText⟩)
    (fun k m image op path hI _ htext => hI.replayOp htext) h bytes
  exact hI

theorem bounded_replayBody (hfiles : image.pendingFiles = ∅) (hhistory : image.pendingHistory = [])
    (bytes : Bytes) : ∃ k < u32Limit, ∃ m < u32Limit, Bounded k m (Rw.replayBody image bytes) := by
  refine replayBody_induct (I := fun k m image => Bounded k m image)
    (fun k m image path data hI hshort _ hdata => bounded_insert hI hshort hdata)
    (fun k m image op path hI hshort _ => bounded_replayOp hI hshort) ⟨?_, ?_, ?_, ?_⟩ bytes
  · rw [hfiles]
    exact Nat.le_refl 0
  · intro path data hp
    rw [hfiles] at hp
    cases hp
  · rw [hhistory]
    exact Nat.le_refl 0
  · intro e he
    rw [hhistory] at he
    cases he

end

end LimniFS.Rw
