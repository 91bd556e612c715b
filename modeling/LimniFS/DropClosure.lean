/-
Nothing the writer refers to is missing.

A run leaves drops, some of them only marks for what a base image has, and inodes whose
slices name drops.  Dedup happens twice, within a file and across files, and the marks
are left out when slabs are packed; what has to hold in the end is that no id was noted
as known on a way that stored nothing.

The invariant is `DropsKept`: the index holds exactly the ids of the drops, each once,
and every drop was kept from a raw drop of some file.  Merging a drop preserves it
(`mergeDrop_kept`), so merging all files does (`mergeFiles_kept`).
-/
import LimniFS.WriteDirectory

namespace LimniFS

open Lib Lib.Parser Cursor

/-! ### What is claimed of a run -/

/-- The slices lead from `start` to `stop`, none of them empty. -/
def Contiguous : Nat → List PendingSlice → Nat → Prop
  | start, [], stop => start = stop
  | start, slice :: rest, stop =>
    slice.fileByteStart = start ∧ start < slice.fileByteEnd ∧ Contiguous slice.fileByteEnd rest stop

/-- A reader of the encoded slice finds the drop taken from its first byte on, for as many bytes
as the slice covers. -/
def TakesWholeDrop (slice : PendingSlice) : Prop :=
  ∀ bytes, encodeSlice slice = some bytes → ∀ inodeNumber index before,
    ∃ h, Reads (parseSliceRef inodeNumber index before) bytes (before ++
      [⟨slice.fileByteStart, slice.fileByteEnd, slice.dropId, 0,
        slice.fileByteEnd - slice.fileByteStart, h⟩])

/-- `p` is the plaintext of the drop `id`: the writer stored it under this id, or the base has
it. -/
def IsPlaintext (H : Hash) (base : Option (Digest → Bool)) (raws : List RawDrop) (id : Digest)
    (p : Bytes) : Prop :=
  (∃ r ∈ raws, r.id = id ∧ r.codec ≠ codecReferenced ∧ r.plaintext = p) ∨
    (baseContains base id = true ∧ H p = id)

/-- Whatever the plaintexts of the drops are, in order they are the file. -/
def PlaintextsGive (H : Hash) (base : Option (Digest → Bool)) (raws : List RawDrop)
    (slices : List PendingSlice) (data : Bytes) : Prop :=
  ∃ chunks : List Bytes, chunks.flatten = data ∧
    List.Forall₂ (fun slice chunk => slice.dropId = H chunk) slices chunks ∧
    ∀ plaintextOf : Digest → Bytes,
      (∀ slice ∈ slices, IsPlaintext H base raws slice.dropId (plaintextOf slice.dropId)) →
      NoCollision H (chunks ++ slices.map fun slice => plaintextOf slice.dropId) →
      slices.flatMap (fun slice => plaintextOf slice.dropId) = data

/-- What holds of the slabs and the inodes a run leaves; `pending` are the files the walk put
off and `results` what the workers made of them. -/
structure DropClosure (env : WriterEnv) (base : Option (Digest → Bool))
    (pending : List PendingFile) (results : List ChunkedFileResult) (s : WriterState)
    (slabs : List SlabArtifact) : Prop where
  /-- A slab has a record for each of its drops. -/
  records : ∀ slab ∈ slabs, ∃ header records window,
    slab.bytes = slabBytes header records window ∧ records.map (·.dropId) = slab.dropIds
  /-- No id has two records. -/
  unique : (slabs.flatMap (·.dropIds)).Nodup
  /-- A stored drop was made from a plaintext with its id. -/
  stored : ∀ id ∈ slabs.flatMap (·.dropIds), ∃ r ∈ results.flatMap (·.drops),
    r.id = id ∧ r.codec ≠ codecReferenced ∧ env.H r.plaintext = id
  /-- What a slice names is in exactly one slab, or in the base. -/
  closed : ∀ inode ∈ s.inodes, ∀ fileLen slices, inode.content = .dropBacked fileLen slices →
    ∀ slice ∈ slices, slabs.countP (fun slab => slice.dropId ∈ slab.dropIds) = 1 ∨
      baseContains base slice.dropId = true
  /-- The slices of an inode cover its file, and their drops hold it. -/
  files : ∀ inode ∈ s.inodes, ∀ fileLen slices, inode.content = .dropBacked fileLen slices →
    ∃ pf ∈ pending, pf.inodeNumber = inode.number ∧ pf.fileLen = fileLen ∧
      ∃ data, env.readFile pf.path = .ok data ∧ data.length = fileLen ∧
        Contiguous 0 slices fileLen ∧ (∀ slice ∈ slices, TakesWholeDrop slice) ∧
        PlaintextsGive env.H base (results.flatMap (·.drops)) slices data

/-! ### The slices of one file -/

theorem Contiguous.bounds {start stop : Nat} {slices : List PendingSlice}
    (h : Contiguous start slices stop) :
    ∀ slice ∈ slices, slice.fileByteStart < slice.fileByteEnd ∧ slice.fileByteEnd ≤ stop := by
  have hle : ∀ (slices : List PendingSlice) (start : Nat), Contiguous start slices stop →
      start ≤ stop := by
    intro slices
    induction slices with
    | nil => intro start h; exact Nat.le_of_eq h
    | cons slice rest ih =>
        rintro start ⟨-, hlt, hrest⟩
        have := ih _ hrest
        omega
  induction slices generalizing start with
  | nil => nofun
  | cons first rest ih =>
      obtain ⟨hstart, hlt, hrest⟩ := h
      intro slice hmem
      rcases List.mem_cons.mp hmem with rfl | hmem
      · exact ⟨by omega, hle rest _ hrest⟩
      · exact ih hrest slice hmem

theorem contiguous_slicesFrom {H : Hash} :
    ∀ (chunks : List Bytes) (offset : Nat), (∀ chunk ∈ chunks, chunk ≠ []) →
      Contiguous offset (slicesFrom H offset chunks) (offset + chunks.flatten.length) := by
  intro chunks
  induction chunks with
  | nil => intro offset _; rfl
  | cons chunk rest ih =>
      intro offset hne
      have hpos := List.length_pos_iff.mpr (hne chunk List.mem_cons_self)
      have hrest := ih (offset + chunk.length) fun c hc => hne c (List.mem_cons_of_mem _ hc)
      rw [Nat.add_assoc, ← List.length_append, ← List.flatten_cons] at hrest
      exact ⟨rfl, by show offset < offset + chunk.length; omega, hrest⟩

theorem forall₂_slicesFrom {H : Hash} :
    ∀ (chunks : List Bytes) (offset : Nat),
      List.Forall₂ (fun slice chunk => slice.dropId = H chunk) (slicesFrom H offset chunks)
        chunks := by
  intro chunks
  induction chunks with
  | nil => intro offset; exact .nil
  | cons chunk rest ih => intro offset; exact .cons rfl (ih _)

theorem takesWholeDrop_of_bounds {slice : PendingSlice}
    (hlt : slice.fileByteStart < slice.fileByteEnd) (hfits : slice.fileByteEnd < 2 ^ 64) :
    TakesWholeDrop slice := by
  intro bytes henc inodeNumber index before
  refine ⟨hlt, ?_⟩
  unfold encodeSlice u32Bytes at henc
  split at henc
  · next hlen =>
      cases henc
      simp only [List.append_assoc]
      unfold parseSliceRef
      refine (reads_readU64Le (by omega)).bind ?_
      refine (reads_readU64Le hfits).bind ?_
      simp only [dif_pos hlt]
      refine (reads_readHash _).bind ?_
      refine (reads_readU32Le (by decide)).bind ?_
      exact (reads_readU32Le hlen).map fun dropByteLen => before ++
        [(⟨slice.fileByteStart, slice.fileByteEnd, slice.dropId, 0, dropByteLen, hlt⟩ : SliceRef)]
  · cases henc

/-- Plaintexts with the names of the chunks are the chunks. -/
theorem flatMap_plaintexts {H : Hash} {slices : List PendingSlice} {chunks : List Bytes}
    {plaintextOf : Digest → Bytes}
    (hchunks : List.Forall₂ (fun slice chunk => slice.dropId = H chunk) slices chunks)
    (hplain : ∀ slice ∈ slices, H (plaintextOf slice.dropId) = slice.dropId)
    (hcol : NoCollision H (chunks ++ slices.map fun slice => plaintextOf slice.dropId)) :
    slices.flatMap (fun slice => plaintextOf slice.dropId) = chunks.flatten := by
  induction hchunks with
  | nil => rfl
  | @cons slice chunk slices chunks hid _ ih =>
      have hsame : plaintextOf slice.dropId = chunk := by
        refine hcol _ ?_ _ ?_ ?_
        · simp
        · simp
        · rw [hplain slice List.mem_cons_self, hid]
      rw [List.flatMap_cons, List.flatten_cons, hsame]
      congr 1
      refine ih (fun s hs => hplain s (List.mem_cons_of_mem _ hs)) ?_
      intro a ha b hb
      refine hcol a ?_ b ?_
      · rcases List.mem_append.mp ha with ha | ha
        · exact List.mem_append_left _ (List.mem_cons_of_mem _ ha)
        · exact List.mem_append_right _ (List.mem_cons_of_mem _ ha)
      · rcases List.mem_append.mp hb with hb | hb
        · exact List.mem_append_left _ (List.mem_cons_of_mem _ hb)
        · exact List.mem_append_right _ (List.mem_cons_of_mem _ hb)

theorem hash_of_isPlaintext {H : Hash} {base : Option (Digest → Bool)} {raws : List RawDrop}
    (hraws : ∀ r ∈ raws, r.Accounted H base) {id : Digest} {p : Bytes}
    (h : IsPlaintext H base raws id p) : H p = id := by
  rcases h with ⟨r, hr, rfl, hcodec, rfl⟩ | ⟨-, hp⟩
  · have haccounted := hraws r hr
    unfold RawDrop.Accounted at haccounted
    rw [if_neg hcodec] at haccounted
    exact haccounted.symm
  · exact hp

/-! ### What merging keeps -/

/-- The index holds the ids of the drops, each once, and every drop was kept from one of
`raws`. -/
structure DropsKept (raws : List RawDrop) (s : WriterState) : Prop where
  index : ∀ id, id ∈ s.dropIndex ↔ id ∈ s.drops.map (·.id)
  ids : (s.drops.map (·.id)).Nodup
  kept : ∀ d ∈ s.drops, ∃ r ∈ raws, ∃ retain, d = r.pending retain

section

variable {env : WriterEnv} {base : Option (Digest → Bool)}

theorem DropsKept.mono {raws raws' : List RawDrop} {s : WriterState} (h : DropsKept raws s)
    (hsub : ∀ r ∈ raws, r ∈ raws') : DropsKept raws' s where
  index := h.index
  ids := h.ids
  kept := by
    intro d hd
    obtain ⟨r, hr, hkept⟩ := h.kept d hd
    exact ⟨r, hsub r hr, hkept⟩

theorem mergeDrop_kept {raws : List RawDrop} {s : WriterState} (h : DropsKept raws s)
    (r : RawDrop) : DropsKept (raws ++ [r]) (mergeDrop env s r) := by
  have hold := h.mono fun r' hr' => List.mem_append_left [r] hr'
  unfold mergeDrop
  by_cases hknown : r.id ∈ s.dropIndex
  · rw [if_pos hknown]
    exact hold
  · rw [if_neg hknown]
    refine ⟨?_, ?_, ?_⟩
    · intro id
      simp only [List.mem_cons, List.map_append, List.mem_append, h.index id, List.map_cons,
        List.map_nil, List.not_mem_nil, or_false]
      exact or_comm
    · simp only [List.map_append, List.map_cons, List.map_nil]
      rw [List.nodup_append]
      refine ⟨h.ids, List.nodup_singleton _, ?_⟩
      rintro a ha b hb rfl
      rw [List.mem_singleton.mp hb] at ha
      exact hknown ((h.index _).mpr ha)
    · intro d hd
      rcases List.mem_append.mp hd with hd | hd
      · exact hold.kept d hd
      · rw [List.mem_singleton.mp hd]
        exact ⟨r, by simp, _, rfl⟩

theorem mem_dropIndex_mergeDrop (s : WriterState) (r : RawDrop) {id : Digest}
    (h : id = r.id ∨ id ∈ s.dropIndex) : id ∈ (mergeDrop env s r).dropIndex := by
  unfold mergeDrop
  by_cases hknown : r.id ∈ s.dropIndex
  · rw [if_pos hknown]
    rcases h with rfl | h
    · exact hknown
    · exact h
  · rw [if_neg hknown]
    exact List.mem_cons.mpr h

/-- The drops of one file: all of their ids are known afterwards, and none is forgotten. -/
theorem mergeDrops_kept (env : WriterEnv) :
    ∀ (drops raws : List RawDrop) (s : WriterState), DropsKept raws s →
      DropsKept (raws ++ drops) (drops.foldl (mergeDrop env) s) ∧
      (drops.foldl (mergeDrop env) s).inodes = s.inodes ∧
      ∀ id, (id ∈ s.dropIndex ∨ ∃ r ∈ drops, r.id = id) →
        id ∈ (drops.foldl (mergeDrop env) s).dropIndex := by
  intro drops
  induction drops with
  | nil =>
      intro raws s h
      rw [List.append_nil]
      refine ⟨h, rfl, ?_⟩
      rintro id (hid | ⟨r, hr, -⟩)
      · exact hid
      · cases hr
  | cons r rest ih =>
      intro raws s h
      obtain ⟨hkept, hinodes, hindex⟩ := ih _ _ (mergeDrop_kept h r)
      rw [List.append_assoc, List.singleton_append] at hkept
      refine ⟨hkept, ?_, ?_⟩
      · refine hinodes.trans ?_
        unfold mergeDrop
        split <;> rfl
      · rintro id (hid | ⟨r', hr', rfl⟩)
        · exact hindex id (.inl (mem_dropIndex_mergeDrop s r (.inr hid)))
        · rcases List.mem_cons.mp hr' with rfl | hr'
          · exact hindex _ (.inl (mem_dropIndex_mergeDrop s r' (.inl rfl)))
          · exact hindex _ (.inr ⟨r', hr', rfl⟩)

/-- **Merging all files keeps the invariant**, and every drop any of them has is known in the
end. -/
theorem mergeFiles_kept (env : WriterEnv) :
    ∀ (files : List (PendingFile × ChunkedFileResult)) (raws : List RawDrop) (s : WriterState),
      DropsKept raws s →
      DropsKept (raws ++ files.flatMap (·.2.drops)) (mergeFiles env s files) ∧
      (mergeFiles env s files).inodes
        = s.inodes ++ files.map (fun f => fileInode f.1 f.2.slices) ∧
      ∀ id, (id ∈ s.dropIndex ∨ ∃ r ∈ files.flatMap (·.2.drops), r.id = id) →
        id ∈ (mergeFiles env s files).dropIndex := by
  intro files
  induction files with
  | nil =>
      intro raws s h
      rw [List.flatMap_nil, List.append_nil]
      refine ⟨h, by simp [mergeFiles], ?_⟩
      rintro id (hid | ⟨r, hr, -⟩)
      · exact hid
      · cases hr
  | cons f rest ih =>
      intro raws s h
      obtain ⟨hfile, hinodes, hindex⟩ := mergeDrops_kept env f.2.drops raws s h
      have hmerged : DropsKept (raws ++ f.2.drops) (mergeChunkedFile env s f.1 f.2) :=
        ⟨hfile.index, hfile.ids, hfile.kept⟩
      obtain ⟨hrest, hinodes', hindex'⟩ := ih _ _ hmerged
      rw [List.append_assoc] at hrest
      refine ⟨hrest, ?_, ?_⟩
      · refine hinodes'.trans ?_
        show (_ ++ [fileInode f.1 f.2.slices]) ++ _ = _
        rw [hinodes, List.append_assoc]
        rfl
      · intro id hid
        refine hindex' id ?_
        rw [List.flatMap_cons] at hid
        rcases hid with hid | ⟨r, hr, rfl⟩
        · exact .inl (hindex id (.inl hid))
        · rcases List.mem_append.mp hr with hr | hr
          · exact .inl (hindex _ (.inr ⟨r, hr, rfl⟩))
          · exact .inr ⟨r, hr, rfl⟩

end

end LimniFS
