/-
The live tree of an image: its walk, and the bytes of a file.

The walk visits the inodes reachable from a root and hands each to a sink.  A
directory that was met before is passed over, so a walk over cyclic metadata ends;
the depth of the recursion is bounded by the number of inodes, which is the fuel it
starts with (`walkLiveTree_fuel` says more would change nothing).
-/
import LimniFS.Metadata
import LimniFS.SlabStore

namespace LimniFS

open Lib

/-! ### The bytes of a file -/

/-- What a slab source answers for a drop id. -/
abbrev SlabSource := Digest → Option (Except CoreError Bytes)

/-- `{:02x?}` of a byte slice. -/
def debugHex2 (bytes : Bytes) : String :=
  "[" ++ ", ".intercalate (bytes.map fun b => String.ofList (hexDigits false 2 b.toNat)) ++ "]"

/-- Where the slice ends in a drop's plaintext. -/
def SliceRef.dropByteEnd (slice : SliceRef) (plaintext : Bytes) : Nat :=
  min (slice.dropByteStart + slice.dropByteLen) plaintext.length

/-- The bytes of the slice in a drop's plaintext. -/
def SliceRef.window (slice : SliceRef) (plaintext : Bytes) : Bytes :=
  (plaintext.drop slice.dropByteStart).take (slice.dropByteEnd plaintext - slice.dropByteStart)

def decodeSlice (store : SlabSource) (slice : SliceRef) : Except CoreError Bytes :=
  match store slice.dropId with
  | none => .error (.corrupt ("file_plaintext: drop " ++ debugHex2 (slice.dropId.val.take 4)
      ++ " not in any slab"))
  | some (.error e) => .error (.corrupt ("file_plaintext: decompress: " ++ e.display))
  | some (.ok plaintext) =>
    if plaintext.length < slice.dropByteStart then
      .error (.corrupt (s!"file_plaintext: slice range {slice.dropByteStart}"
        ++ s!"..{slice.dropByteEnd plaintext} outside drop of len {plaintext.length}"))
    else .ok (slice.window plaintext)

/-- One chunk for each slice, or the inline bytes as one chunk. -/
def fileChunks (inode : Inode) (store : Option SlabSource) : List (Except CoreError Bytes) :=
  match inode.contentHandle with
  | .inlineData data => [.ok data]
  | .sliceMap map =>
    match map.slices, store with
    | [], _ => []
    | _ :: _, none =>
        [.error (.corrupt "file_chunks: slice-backed file but no slab store provided")]
    | slices, some store => slices.map (decodeSlice store)
  | _ => []

/-- All chunks in order; the first failure is the result. -/
def concatChunks : List (Except CoreError Bytes) → Except CoreError Bytes
  | [] => .ok []
  | .error e :: _ => .error e
  | .ok chunk :: rest =>
    match concatChunks rest with
    | .error e => .error e
    | .ok tail => .ok (chunk ++ tail)

/-- Slices are decoded in batches on several threads, which does not change the bytes. -/
def filePlaintext (inode : Inode) (store : Option SlabSource) : Except CoreError Bytes :=
  match inode.contentHandle with
  | .inlineData data => .ok data
  | .sliceMap map =>
    match store with
    | none => .error (.corrupt "file_plaintext: slice-backed file but no slab store provided")
    | some store => concatChunks (map.slices.map (decodeSlice store))
  | _ => .ok []

theorem concatChunks_ok {chunks : List (Except CoreError Bytes)} {out : Bytes}
    (h : concatChunks chunks = .ok out) :
    ∃ parts : List Bytes, chunks = parts.map .ok ∧ out = parts.flatten := by
  induction chunks generalizing out with
  | nil =>
      cases h
      exact ⟨[], rfl, rfl⟩
  | cons chunk rest ih =>
      rcases chunk with e | chunk
      · cases h
      · unfold concatChunks at h
        rcases hrest : concatChunks rest with e | tail
        · rw [hrest] at h
          cases h
        · rw [hrest] at h
          cases h
          obtain ⟨parts, rfl, rfl⟩ := ih hrest
          exact ⟨chunk :: parts, rfl, rfl⟩

theorem concatChunks_map_ok (parts : List Bytes) :
    concatChunks (parts.map .ok) = .ok parts.flatten := by
  induction parts with
  | nil => rfl
  | cons part rest ih =>
      rw [List.map_cons, List.flatten_cons]
      unfold concatChunks
      rw [ih]

theorem decodeSlice_ok {store : SlabSource} {slice : SliceRef} {chunk : Bytes}
    (h : decodeSlice store slice = .ok chunk) :
    ∃ plaintext, store slice.dropId = some (.ok plaintext) ∧ chunk = slice.window plaintext := by
  unfold decodeSlice at h
  split at h
  · cases h
  · cases h
  · next plaintext hdrop =>
      split at h
      · cases h
      · exact ⟨plaintext, hdrop, (Except.ok.inj h).symm⟩

theorem fileLen_pos {inode : Inode} {map : SliceMap} (h : inode.contentHandle = .sliceMap map)
    (hne : map.slices ≠ []) : 0 < inode.fileLen := by
  have hgap := map.contiguous
  unfold Inode.fileLen
  rw [h]
  rcases hslices : map.slices with _ | ⟨first, rest⟩
  · exact absurd hslices hne
  · rw [hslices] at hgap
    unfold sliceMapGap at hgap
    split at hgap
    · cases hgap
    · next hstart =>
        have hfirst : first.fileByteStart = 0 := Decidable.not_not.mp hstart
        have hlast := List.getLast?_eq_some_getLast (List.cons_ne_nil first rest)
        have hpos := ((first :: rest).getLast (List.cons_ne_nil first rest)).start_lt_end
        simp only [hslices, hlast, List.head?_cons, Option.elim_some, hfirst]
        omega

theorem filePlaintext_drops {inode : Inode} {store : SlabSource} {out : Bytes}
    (h : filePlaintext inode (some store) = .ok out) :
    ∀ slice ∈ inode.slices, ∃ plaintext, store slice.dropId = some (.ok plaintext) := by
  intro slice hslice
  unfold Inode.slices at hslice
  unfold filePlaintext at h
  split at hslice
  · next map hmap =>
      rw [hmap] at h
      obtain ⟨parts, hparts, -⟩ := concatChunks_ok h
      obtain ⟨part, -, hpart⟩ := List.mem_map.mp (hparts ▸ List.mem_map_of_mem hslice)
      obtain ⟨plaintext, hdrop, -⟩ := decodeSlice_ok hpart.symm
      exact ⟨plaintext, hdrop⟩
  · cases hslice

theorem filePlaintext_congr {inode : Inode} {store store' : SlabSource} {out : Bytes}
    (hsame : ∀ slice ∈ inode.slices, ∀ plaintext, store slice.dropId = some (.ok plaintext) →
      store' slice.dropId = some (.ok plaintext))
    (h : filePlaintext inode (some store) = .ok out) :
    filePlaintext inode (some store') = .ok out := by
  have hdrops := filePlaintext_drops h
  unfold filePlaintext at h ⊢
  split at h
  · exact h
  · next map hmap =>
      have hslices : inode.slices = map.slices := by
        unfold Inode.slices
        rw [hmap]
      have hmaps : map.slices.map (decodeSlice store') = map.slices.map (decodeSlice store) := by
        refine List.map_congr_left fun slice hslice => ?_
        rw [← hslices] at hslice
        obtain ⟨plaintext, hdrop⟩ := hdrops slice hslice
        unfold decodeSlice
        rw [hdrop, hsame slice hslice plaintext hdrop]
      simp only
      rw [hmaps]
      exact h
  · exact h

/-! ### The walk -/

/-- A visitor with a state. -/
structure LiveTreeSink (σ : Type) where
  onDirectoryInode : Path → Inode → σ → Except CoreError σ
  onRegularFile : Path → Inode → σ → Except CoreError σ
  onSymlinkInode : Path → Inode → Bytes → σ → Except CoreError σ
  onOther : Path → Inode → σ → Except CoreError σ

/-- The reason a name must not be joined to a path, if there is one. -/
def validateTreeName (name : Bytes) : Except String Unit :=
  if name = [] then .error "is empty"
  else if name = ascii "." then .error "is '.'"
  else if name = ascii ".." then .error "is '..'"
  else if name.head? = some slash then .error "is absolute"
  else if slash ∈ name then .error "contains a '/' separator"
  else if 0 ∈ name then .error "contains a NUL byte"
  else .ok ()

def hexPrefixOf (hash : Digest) : String := String.ofList (hexLower (hash.val.take 4))

section

variable {σ : Type} (H : Hash) (blob : MetadataBlob) (sink : LiveTreeSink σ)

/-- The state of a walk: the sink's, and the directories met so far. -/
abbrev WalkState (σ : Type) := σ × List Nat

/-- One entry of a directory; `descend` walks a directory below. -/
def walkEntry (descend : Inode → Path → WalkState σ → Except CoreError (WalkState σ))
    (hash : Digest) (dirPath : Path) (entry : DirEntry) (s : WalkState σ) :
    Except CoreError (WalkState σ) :=
  match validateTreeName entry.name with
  | .error reason => .error (.corrupt ("walk_live_tree: directory node " ++ hexPrefixOf hash
      ++ " entry name " ++ debugStr entry.name ++ " " ++ reason))
  | .ok () =>
    let childPath := dirPath ++ [entry.name]
    match blob.inodeByNumber entry.inodeNumber with
    | none => .error (.corrupt s!"walk_live_tree: inode {entry.inodeNumber} missing")
    | some child =>
      match child.contentHandle with
      | .directory _ => descend child childPath s
      | .inlineData _ | .sliceMap _ =>
          (sink.onRegularFile childPath child s.1).map fun t => (t, s.2)
      | .symlink target => (sink.onSymlinkInode childPath child target s.1).map fun t => (t, s.2)
      | _ => (sink.onOther childPath child s.1).map fun t => (t, s.2)

/-- The entries in order, until one fails. -/
def walkEntries (descend : Inode → Path → WalkState σ → Except CoreError (WalkState σ))
    (hash : Digest) (dirPath : Path) :
    List DirEntry → WalkState σ → Except CoreError (WalkState σ)
  | [], s => .ok s
  | entry :: rest, s =>
    match walkEntry blob sink descend hash dirPath entry s with
    | .error e => .error e
    | .ok s => walkEntries descend hash dirPath rest s

def walkDir : Nat → Inode → Path → WalkState σ → Except CoreError (WalkState σ)
  | 0, _, _, s => .ok s
  | fuel + 1, dirInode, dirPath, s =>
    match dirInode.contentHandle with
    | .directory hash =>
      if dirInode.number ∈ s.2 then .ok s
      else
        match sink.onDirectoryInode dirPath dirInode s.1 with
        | .error e => .error e
        | .ok t =>
          match blob.dirNodeByHash H hash with
          | none => .error (.corrupt ("walk_live_tree: directory node for hash "
              ++ hexPrefixOf hash ++ " missing"))
          | some node =>
            walkEntries blob sink (walkDir fuel) hash dirPath node.entries
              (t, s.2 ++ [dirInode.number])
    | _ => .ok s

def walkLiveTree (rootInodeNumber : Nat) (s : σ) : Except CoreError σ :=
  match blob.inodeByNumber rootInodeNumber with
  | none => .error (.corrupt s!"walk_live_tree: root inode {rootInodeNumber} missing")
  | some root => (walkDir H blob sink (blob.inodes.length + 1) root [] (s, [])).map Prod.fst

end

theorem inodeByNumber_mem {blob : MetadataBlob} {number : Nat} {inode : Inode}
    (h : blob.inodeByNumber number = some inode) :
    inode ∈ blob.inodes ∧ inode.number = number := by
  have hnum := List.find?_some h
  exact ⟨List.mem_of_find?_eq_some h, by simpa using hnum⟩

theorem map_eq_ok {ε α β : Type} {f : α → β} {x : Except ε α} {b : β}
    (h : x.map f = .ok b) : ∃ a, x = .ok a ∧ f a = b := by
  rcases x with e | a
  · cases h
  · exact ⟨a, rfl, Except.ok.inj h⟩

/-! ### The fuel is enough -/

section

variable {σ : Type} {H : Hash} {blob : MetadataBlob} {sink : LiveTreeSink σ}

/-- How many inodes have a number that was not met yet. -/
def unvisited (blob : MetadataBlob) (visited : List Nat) : Nat :=
  blob.inodes.countP fun i => i.number ∉ visited

theorem unvisited_append_le (visited more : List Nat) :
    unvisited blob (visited ++ more) ≤ unvisited blob visited := by
  refine List.countP_mono_left fun i _ hi => ?_
  simp only [decide_eq_true_eq, List.mem_append, not_or] at hi ⊢
  exact hi.1

theorem unvisited_append_lt {inode : Inode} (hmem : inode ∈ blob.inodes) {visited : List Nat}
    (hnew : inode.number ∉ visited) :
    unvisited blob (visited ++ [inode.number]) < unvisited blob visited := by
  unfold unvisited
  obtain ⟨before, after, hsplit⟩ := List.append_of_mem hmem
  have hle : ∀ l : List Inode, l.countP (fun i => decide (i.number ∉ visited ++ [inode.number]))
      ≤ l.countP fun i => decide (i.number ∉ visited) := by
    intro l
    refine List.countP_mono_left fun i _ hi => ?_
    simp only [decide_eq_true_eq, List.mem_append, not_or] at hi ⊢
    exact hi.1
  have hbefore := hle before
  have hafter := hle after
  rw [hsplit]
  simp only [List.countP_append, List.countP_cons]
  rw [if_neg (by simp), if_pos (by simpa using hnew)]
  omega

/-- A walk below only meets more. -/
def Meets (blob : MetadataBlob)
    (descend : Inode → Path → WalkState σ → Except CoreError (WalkState σ)) : Prop :=
  ∀ inode ∈ blob.inodes, ∀ path s t, descend inode path s = .ok t →
    unvisited blob t.2 ≤ unvisited blob s.2

theorem walkEntry_meets {descend : Inode → Path → WalkState σ → Except CoreError (WalkState σ)}
    (hdescend : Meets blob descend) {hash : Digest} {dirPath : Path} {entry : DirEntry}
    {s t : WalkState σ} (h : walkEntry blob sink descend hash dirPath entry s = .ok t) :
    unvisited blob t.2 ≤ unvisited blob s.2 := by
  unfold walkEntry at h
  split at h
  · cases h
  · split at h
    · cases h
    · next child hchild =>
        split at h
        · exact hdescend child (inodeByNumber_mem hchild).1 _ _ _ h
        all_goals
          obtain ⟨t', -, rfl⟩ := map_eq_ok h
          exact Nat.le_refl _

theorem walkEntries_meets {descend : Inode → Path → WalkState σ → Except CoreError (WalkState σ)}
    (hdescend : Meets blob descend) {hash : Digest} {dirPath : Path} :
    ∀ (entries : List DirEntry) (s t : WalkState σ),
      walkEntries blob sink descend hash dirPath entries s = .ok t →
      unvisited blob t.2 ≤ unvisited blob s.2 := by
  intro entries
  induction entries with
  | nil => intro s t h; cases h; exact Nat.le_refl _
  | cons entry rest ih =>
      intro s t h
      unfold walkEntries at h
      split at h
      · cases h
      · next s' hs' => exact Nat.le_trans (ih s' t h) (walkEntry_meets hdescend hs')

theorem walkDir_meets (fuel : Nat) : Meets blob (walkDir H blob sink fuel) := by
  induction fuel with
  | zero => intro inode _ path s t h; cases h; exact Nat.le_refl _
  | succ fuel ih =>
      intro inode _ path s t h
      unfold walkDir at h
      split at h
      · split at h
        · cases h
          exact Nat.le_refl _
        · split at h
          · cases h
          · split at h
            · cases h
            · exact Nat.le_trans (walkEntries_meets ih _ _ _ h) (unvisited_append_le _ _)
      · cases h
        exact Nat.le_refl _

/-- Two walks below that agree while at most `bound` is unmet make the same walk. -/
theorem walkEntries_congr {d₁ d₂ : Inode → Path → WalkState σ → Except CoreError (WalkState σ)}
    (bound : Nat) (hmeets : Meets blob d₁)
    (heq : ∀ inode ∈ blob.inodes, ∀ path s, unvisited blob s.2 ≤ bound →
      d₁ inode path s = d₂ inode path s) {hash : Digest} {dirPath : Path} :
    ∀ (entries : List DirEntry) (s : WalkState σ), unvisited blob s.2 ≤ bound →
      walkEntries blob sink d₁ hash dirPath entries s
        = walkEntries blob sink d₂ hash dirPath entries s := by
  intro entries
  induction entries with
  | nil => intro s _; rfl
  | cons entry rest ih =>
      intro s hs
      have hentry : walkEntry blob sink d₁ hash dirPath entry s
          = walkEntry blob sink d₂ hash dirPath entry s := by
        unfold walkEntry
        split
        · rfl
        · split
          · rfl
          · next child hchild =>
              split
              · exact heq child (inodeByNumber_mem hchild).1 _ _ hs
              all_goals rfl
      unfold walkEntries
      rw [← hentry]
      split
      · rfl
      · next s' hs' => exact ih s' (Nat.le_trans (walkEntry_meets hmeets hs') hs)

/-- **More fuel than inodes unmet changes nothing.** -/
theorem walkDir_fuel : ∀ (fuel : Nat), ∀ inode ∈ blob.inodes, ∀ path (s : WalkState σ),
    unvisited blob s.2 < fuel →
    walkDir H blob sink fuel inode path s = walkDir H blob sink (fuel + 1) inode path s := by
  intro fuel
  induction fuel with
  | zero => intro inode _ path s h; exact absurd h (Nat.not_lt_zero _)
  | succ fuel ih =>
      intro inode hmem path s h
      rw [walkDir, walkDir]
      split
      · split
        · rfl
        · next hnew =>
            split
            · rfl
            · split
              · rfl
              · have hless := unvisited_append_lt hmem hnew
                exact walkEntries_congr (fuel - 1) (walkDir_meets fuel)
                  (fun child hchild path' s' hs' => ih child hchild path' s' (by omega)) _ _
                  (Nat.le_sub_one_of_lt (Nat.lt_of_lt_of_le hless (Nat.le_of_lt_succ h)))
      · rfl

theorem walkLiveTree_fuel {root : Nat} {inode : Inode}
    (hroot : blob.inodeByNumber root = some inode) (s : σ) (more : Nat) :
    walkLiveTree H blob sink root s
      = (walkDir H blob sink (blob.inodes.length + 1 + more) inode [] (s, [])).map Prod.fst := by
  unfold walkLiveTree
  rw [hroot]
  simp only
  congr 1
  induction more with
  | zero => rfl
  | succ more ih =>
      rw [ih]
      refine walkDir_fuel _ inode (inodeByNumber_mem hroot).1 _ _ ?_
      have hcount : unvisited blob [] ≤ blob.inodes.length := List.countP_le_length
      show unvisited blob [] < _
      omega

end

end LimniFS
