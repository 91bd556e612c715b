/-
What every writer packs.

A drop is kept of a plaintext, under the hash of that plaintext.  If it is flagged as a container, it
is the container of that plaintext, unless the dictionary pass has put other bytes in its place.  A
slice is named by a chunk of its file and is as long as the chunk.

Every way of storing a file keeps to this (`processFile_packed`), and so does every merge and the
dictionary pass, whatever was merged before.
-/
import LimniFS.Pipeline

namespace LimniFS

open Lib

/-! ### Drops and slices of known texts -/

/-- The drop was packed from `p`. -/
structure PendingDrop.Packs (H : Hash) (z : Omnizip) (d : PendingDrop) (p : Bytes) : Prop where
  id : H p = d.id
  plaintextLen : d.plaintextLen = saturateU32 p.length
  container : d.flags &&& dropFlagSeekable ≠ 0 → d.dictId = noDict →
    isSeekableCodec d.codec = true ∧ ∃ t, encodeSeekable z d.codec p t = .ok d.compressed

/-- The slice is named by one of the texts and covers as many bytes. -/
def PendingSlice.Covers (H : Hash) (texts : List Bytes) (slice : PendingSlice) : Prop :=
  ∃ p ∈ texts, H p = slice.dropId ∧ slice.fileByteEnd - slice.fileByteStart = p.length

/-- All local drops and all slices stand for texts of the list. -/
structure PackedFrom (H : Hash) (z : Omnizip) (texts : List Bytes) (ctx : WriteContext) : Prop where
  drops : ∀ d ∈ localDrops ctx.drops, ∃ p ∈ texts, d.Packs H z p
  slices : ∀ inode ∈ ctx.inodes, ∀ fileLen slices, inode.content = .dropBacked fileLen slices →
    ∀ slice ∈ slices, slice.Covers H texts

/-- What a file brings stands for texts of the list. -/
structure ChunkedFileResult.Packed (H : Hash) (z : Omnizip) (texts : List Bytes)
    (result : ChunkedFileResult) : Prop where
  drops : ∀ r ∈ result.drops, r.codec ≠ codecReferenced →
    ∃ p ∈ texts, (r.pending false).Packs H z p
  slices : ∀ slice ∈ result.slices, slice.Covers H texts

section

variable {H : Hash} {z : Omnizip} {texts more : List Bytes} {ctx ctx' : WriteContext}

theorem PendingSlice.Covers.mono {slice : PendingSlice} (hsub : texts ⊆ more)
    (h : slice.Covers H texts) : slice.Covers H more := by
  obtain ⟨p, hp, hcovers⟩ := h
  exact ⟨p, hsub hp, hcovers⟩

theorem ChunkedFileResult.Packed.mono {result : ChunkedFileResult} (hsub : texts ⊆ more)
    (h : result.Packed H z texts) : result.Packed H z more where
  drops r hr hcodec := by
    obtain ⟨p, hp, hpacks⟩ := h.drops r hr hcodec
    exact ⟨p, hsub hp, hpacks⟩
  slices slice hslice := (h.slices slice hslice).mono hsub

theorem PackedFrom.congr (h : PackedFrom H z texts ctx) (hdrops : ctx'.drops = ctx.drops)
    (hinodes : ctx'.inodes = ctx.inodes) : PackedFrom H z texts ctx' where
  drops := by
    rw [hdrops]
    exact h.drops
  slices := by
    rw [hinodes]
    exact h.slices

/-- One more inode. -/
theorem PackedFrom.addInode {s : WriterState} {inode : PendingInode}
    (h : PackedFrom H z texts s.toWriteContext)
    (hinode : ∀ fileLen slices, inode.content = .dropBacked fileLen slices →
      ∀ slice ∈ slices, slice.Covers H texts) :
    PackedFrom H z texts (LimniFS.addInode s inode).toWriteContext where
  drops := h.drops
  slices other hother := by
    rcases List.mem_append.mp hother with hold | hnew
    · exact h.slices other hold
    · obtain rfl := List.mem_singleton.mp hnew
      exact hinode

/-! ### One file -/

/-- What is emitted as a container is the container of the plaintext. -/
theorem seekableOrMonolithic_container {codec : UInt8} {plaintext compressed : Bytes}
    {t : CodecTunables} {seekableDrops : Bool} {threshold : Nat}
    (h : (seekableOrMonolithic z codec plaintext compressed t seekableDrops threshold).2
      &&& dropFlagSeekable ≠ 0) :
    isSeekableCodec codec = true ∧ encodeSeekable z codec plaintext t
      = .ok (seekableOrMonolithic z codec plaintext compressed t seekableDrops threshold).1 := by
  unfold seekableOrMonolithic at h ⊢
  by_cases hemit : seekableDrops = true ∧ threshold < plaintext.length ∧ isSeekableCodec codec = true
  · rw [if_pos hemit] at h ⊢
    cases hcall : encodeSeekable z codec plaintext t with
    | ok container => exact ⟨hemit.2.2, rfl⟩
    | error e =>
        rw [hcall] at h
        exact (h UInt8.zero_and).elim
  · rw [if_neg hemit] at h
    exact (h UInt8.zero_and).elim

/-- A drop that was emitted in one form or the other. -/
theorem packs_emitted (codec : UInt8) (plaintext compressed : Bytes) (t : CodecTunables)
    (seekableDrops : Bool) (threshold : Nat) :
    (RawDrop.pending ⟨H plaintext, plaintext,
      (seekableOrMonolithic z codec plaintext compressed t seekableDrops threshold).1, codec,
      (seekableOrMonolithic z codec plaintext compressed t seekableDrops threshold).2⟩
      false).Packs H z plaintext where
  id := rfl
  plaintextLen := rfl
  container hflag _ := by
    obtain ⟨hcodec, hencoded⟩ := seekableOrMonolithic_container hflag
    exact ⟨hcodec, t, hencoded⟩

/-- A file stored as one drop. -/
theorem packed_whole (codec : UInt8) (data compressed : Bytes) (t : CodecTunables)
    (seekableDrops : Bool) (threshold : Nat) :
    ChunkedFileResult.Packed H z [data]
      ⟨[⟨H data, data,
        (seekableOrMonolithic z codec data compressed t seekableDrops threshold).1, codec,
        (seekableOrMonolithic z codec data compressed t seekableDrops threshold).2⟩],
        [⟨H data, 0, data.length⟩]⟩ where
  drops r hr _ := by
    obtain rfl := List.mem_singleton.mp hr
    exact ⟨data, List.mem_singleton_self data, packs_emitted _ _ _ _ _ _⟩
  slices slice hslice := by
    obtain rfl := List.mem_singleton.mp hslice
    exact ⟨data, List.mem_singleton_self data, rfl, rfl⟩

theorem covers_slicesFrom : ∀ (chunks : List Bytes) (offset : Nat),
    ∀ slice ∈ slicesFrom H offset chunks, slice.Covers H chunks := by
  intro chunks
  induction chunks with
  | nil =>
      intro offset slice hslice
      exact absurd hslice List.not_mem_nil
  | cons chunk rest ih =>
      intro offset slice hslice
      rcases List.mem_cons.mp hslice with rfl | hslice
      · exact ⟨chunk, List.mem_cons_self, rfl, Nat.add_sub_cancel_left _ _⟩
      · exact (ih _ slice hslice).mono (List.subset_cons_self _ _)

end

section

variable {env : WriterEnv} {o : ProcessOptions} {texts : List Bytes}

theorem chunkDrop_packed (cache : CompressCache env.H env.z) (chunk : Bytes)
    (hcodec : (chunkDrop env o cache chunk).1.codec ≠ codecReferenced) :
    ((chunkDrop env o cache chunk).1.pending false).Packs env.H env.z chunk := by
  unfold chunkDrop at hcodec ⊢
  simp only at hcodec ⊢
  by_cases hbase : baseContains o.baseDropIndex (env.H chunk) = true
  · rw [if_pos hbase] at hcodec
    exact absurd rfl hcodec
  · rw [if_neg hbase]
    exact packs_emitted _ _ _ _ _ _

theorem processChunks_packed (caches : Nat → CompressCache env.H env.z) (chunks : List Bytes) :
    (processChunks env o caches chunks).Packed env.H env.z chunks where
  drops r hr hcodec := by
    obtain ⟨i, hi, rfl⟩ := List.mem_mapIdx.mp hr
    exact ⟨_, scanChunks_mem chunks 0 [] _ (List.getElem_mem hi),
      chunkDrop_packed (caches i) _ hcodec⟩
  slices := by
    show ∀ slice ∈ (scanChunks env.H chunks 0 []).1, _
    rw [scanChunks_slices]
    exact covers_slicesFrom chunks 0

/-- **Whichever way a file goes**, what it brings was packed from its bytes or their chunks. -/
theorem processFile_packed {caches : Nat → CompressCache env.H env.z} {pf : PendingFile}
    {result : ChunkedFileResult} (h : processFile env o caches pf = .ok result)
    (htexts : ∀ data, env.readFile pf.path = .ok data →
      ∀ x ∈ piecesOf env o.chunker data, x ∈ texts) : result.Packed env.H env.z texts := by
  unfold processFile at h
  split at h
  · cases h
  · next data hread =>
      have hpieces := htexts data hread
      have hdata : [data] ⊆ texts :=
        List.cons_subset.mpr ⟨hpieces data List.mem_cons_self, List.nil_subset _⟩
      split at h
      · cases h
        exact (packed_whole _ _ _ _ _ _).mono hdata
      · split at h
        · cases h
          exact (packed_whole _ _ _ _ _ _).mono hdata
        · split at h
          · cases h
          · next chunks hchunks =>
              cases h
              refine (processChunks_packed caches chunks).mono fun c hc => ?_
              refine hpieces c (List.mem_cons_of_mem _ ?_)
              rw [hchunks]
              exact hc

/-! ### Merging -/

theorem PackedFrom.mergeDrops : ∀ (raws : List RawDrop) (s : WriterState),
    PackedFrom env.H env.z texts s.toWriteContext →
    (∀ r ∈ raws, r.codec ≠ codecReferenced → ∃ p ∈ texts, (r.pending false).Packs env.H env.z p) →
    PackedFrom env.H env.z texts (raws.foldl (mergeDrop env) s).toWriteContext := by
  intro raws
  induction raws with
  | nil =>
      intro s h _
      exact h
  | cons r rest ih =>
      intro s h hraws
      obtain ⟨hr, hrest⟩ := List.forall_mem_cons.mp hraws
      refine ih _ ?_ hrest
      unfold mergeDrop
      by_cases hknown : r.id ∈ s.dropIndex
      · rw [if_pos hknown]
        exact h
      · rw [if_neg hknown]
        refine ⟨fun d hd => ?_, h.slices⟩
        obtain ⟨hmem, hcodec⟩ := List.mem_filter.mp hd
        rcases List.mem_append.mp hmem with hold | hnew
        · exact h.drops d (List.mem_filter.mpr ⟨hold, hcodec⟩)
        · obtain rfl := List.mem_singleton.mp hnew
          obtain ⟨p, hp, hpacks⟩ := hr (by simpa [RawDrop.pending] using hcodec)
          exact ⟨p, hp, hpacks.id, hpacks.plaintextLen, hpacks.container⟩

theorem PackedFrom.mergeChunkedFile {s : WriterState} {result : ChunkedFileResult}
    (h : PackedFrom env.H env.z texts s.toWriteContext) (pf : PendingFile)
    (hresult : result.Packed env.H env.z texts) :
    PackedFrom env.H env.z texts (LimniFS.mergeChunkedFile env s pf result).toWriteContext := by
  refine (h.mergeDrops result.drops s hresult.drops).addInode fun fileLen slices hcontent => ?_
  cases hcontent
  exact hresult.slices

theorem PackedFrom.mergeFiles : ∀ (files : List (PendingFile × ChunkedFileResult)) (s : WriterState),
    PackedFrom env.H env.z texts s.toWriteContext →
    (∀ f ∈ files, f.2.Packed env.H env.z texts) →
    PackedFrom env.H env.z texts (LimniFS.mergeFiles env s files).toWriteContext := by
  intro files
  induction files with
  | nil =>
      intro s h _
      exact h
  | cons f rest ih =>
      intro s h hfiles
      obtain ⟨hf, hrest⟩ := List.forall_mem_cons.mp hfiles
      exact ih _ (h.mergeChunkedFile f.1 hf) hrest

/-! ### The dictionary pass -/

section

variable {dicts : TrainedDicts} {d d' : PendingDrop} {p : Bytes}

/-- What the pass makes of a drop. -/
def Released (env : WriterEnv) (dicts : TrainedDicts) (d d' : PendingDrop) : Prop :=
  d' = releaseSample d ∨ ∃ c id, dictCandidate env.z env.classify dicts d = some (c, id) ∧
    d' = releaseSample { d with compressed := c, dictId := id }

theorem Released.same (h : Released env dicts d d') :
    d'.id = d.id ∧ d'.codec = d.codec ∧ d'.plaintextLen = d.plaintextLen := by
  rcases h with rfl | ⟨c, id, -, rfl⟩
  · exact ⟨rfl, rfl, rfl⟩
  · exact ⟨rfl, rfl, rfl⟩

theorem applyDictionaries_released (s : WriterState) (given : TrainedDicts) :
    List.Forall₂ (Released env (applyDictionaries env s given).trainedDicts) s.drops
      (applyDictionaries env s given).drops := by
  unfold applyDictionaries
  simp only
  rw [applyTrainedDictionaries_drops, List.forall₂_map_right_iff, List.forall₂_same]
  intro d _
  unfold applyTrainedDictionaries swapDrop
  by_cases hpay : dictionariesPay env.z env.classify given s.drops
  · simp only [if_pos hpay]
    split
    · exact Or.inl rfl
    · next c id hcand => exact Or.inr ⟨c, id, hcand, rfl⟩
  · simp only [if_neg hpay]
    exact Or.inl rfl

theorem trainAndApplyDictionary_released (dictionaries : DictionaryConfig) (s : WriterState) :
    List.Forall₂ (Released env (trainAndApplyDictionary env dictionaries s).trainedDicts) s.drops
      (trainAndApplyDictionary env dictionaries s).drops := by
  unfold trainAndApplyDictionary
  split
  · rw [List.forall₂_map_right_iff, List.forall₂_same]
    exact fun d _ => Or.inl rfl
  · split
    · exact applyDictionaries_released _ _
    · exact applyDictionaries_released s _

theorem Released.packs (h : Released env dicts d d') (hpacks : d.Packs env.H env.z p) :
    d'.Packs env.H env.z p := by
  rcases h with rfl | ⟨c, id, hcand, rfl⟩
  · exact ⟨hpacks.id, hpacks.plaintextLen, hpacks.container⟩
  · obtain ⟨plaintext, content, -, hclass, -⟩ := dictCandidate_some hcand
    exact ⟨hpacks.id, hpacks.plaintextLen, fun _ hnone =>
      absurd hnone (TrainedDicts.forClass_mem hclass).2.1⟩

end

/-- The dictionary pass keeps what is not given a dictionary. -/
theorem PackedFrom.trainAndApplyDictionary {s : WriterState} (dictionaries : DictionaryConfig)
    (h : PackedFrom env.H env.z texts s.toWriteContext) :
    PackedFrom env.H env.z texts
      (LimniFS.trainAndApplyDictionary env dictionaries s).toWriteContext where
  drops d' hd' := by
    obtain ⟨hmem, hcodec⟩ := List.mem_filter.mp hd'
    obtain ⟨d, hd, hreleased⟩ :=
      exists_mem_of_forall₂ (trainAndApplyDictionary_released dictionaries s) d' hmem
    obtain ⟨p, hp, hpacks⟩ := h.drops d (List.mem_filter.mpr ⟨hd, hreleased.same.2.1 ▸ hcodec⟩)
    exact ⟨p, hp, hreleased.packs hpacks⟩
  slices := by
    rw [(trainAndApplyDictionary_finishes dictionaries s).1]
    exact h.slices

/-! ### Directories -/

theorem PackedFrom.walked {files : List (Path × SurveyMeta)} {s s' : WriterState}
    (h : PackedFrom env.H env.z texts s.toWriteContext) (hwalk : Walked files s s') :
    PackedFrom env.H env.z texts s'.toWriteContext where
  drops := by
    rw [hwalk.drops]
    exact h.drops
  slices inode hinode fileLen slices hcontent := by
    rcases hwalk.inodes inode hinode with hold | hplain
    · exact h.slices inode hold fileLen slices hcontent
    · exact absurd hcontent (hplain fileLen slices)

/-- A run of the streaming writer: the walk, a result for each file that was put off, and the state they
were merged to. -/
structure StreamedRun (env : WriterEnv) (config : WriteConfig) (workers : Workers env)
    (tree : SourceTree env.readFile) (s₀ s : WriterState) (chunker : ParallelFastCDC) (number : Nat)
    (walked : WriterState) (results : List ChunkedFileResult) : Prop where
  chunked : chunkerFromConfig config = .ok chunker
  walk : foldSurvey env tree.root none tree.survey (streamingStart config s₀) = .ok (number, walked)
  processed : ∃ registry, List.Forall₂ (fun t r => processNumbered env workers
    (processOptions config chunker registry s₀.baseDropIndex s₀.inlineThreshold) t = .ok r)
    walked.pendingFiles.zipIdx results
  result : s = trainAndApplyDictionary env config.dictionaries (mergeFiles env
    { walked with rootInodeNumber := number, pendingFiles := [] } (walked.pendingFiles.zip results))

section

variable {config : WriteConfig} {workers : Workers env} {sched : Schedule}
  {tree : SourceTree env.readFile} {s₀ s : WriterState}

theorem exists_streamedRun (h : writeDirectoryStreaming env config workers sched tree s₀ = .ok s) :
    ∃ chunker number walked results,
      StreamedRun env config workers tree s₀ s chunker number walked results := by
  obtain ⟨chunker, hchunker, h⟩ := except_bind_eq_ok.mp h
  obtain ⟨registry, -, h⟩ := except_bind_eq_ok.mp h
  obtain ⟨⟨number, walked⟩, hwalk, h⟩ := except_bind_eq_ok.mp h
  obtain ⟨merged, hmerge, h⟩ := except_bind_eq_ok.mp h
  cases h
  obtain ⟨results, hall, rfl⟩ := mergeInOrder_ok _ _ _ hmerge
  rw [parallelMap_eq_map] at hall ⊢
  rw [List.forall₂_map_left_iff] at hall
  refine ⟨chunker, number, walked, results, hchunker, hwalk, ⟨registry, hall⟩, ?_⟩
  rw [List.map_map]
  exact congrArg (fun files => trainAndApplyDictionary env config.dictionaries
    (mergeFiles env _ (files.zip results))) (List.zipIdx_map_fst 0 walked.pendingFiles)

namespace StreamedRun

variable {chunker : ParallelFastCDC} {number : Nat} {walked : WriterState}
  {results : List ChunkedFileResult}

theorem merged (h : StreamedRun env config workers tree s₀ s chunker number walked results) :
    Merged env workers walked.pendingFiles results walked s := by
  obtain ⟨registry, hall⟩ := h.processed
  refine ⟨⟨_, (foldSurvey_walked _ _ _ _ _ _ h.walk).baseDropIndex.symm, hall⟩,
    { walked with rootInodeNumber := number, pendingFiles := [] }, rfl, rfl, rfl, ?_⟩
  rw [h.result]
  exact trainAndApplyDictionary_finishes _ _

theorem layout (h : StreamedRun env config workers tree s₀ s chunker number walked results) :
    LayoutKept walked s := by
  have hstart : LayoutKept walked
      { walked with rootInodeNumber := number, pendingFiles := [] } := ⟨rfl, rfl, rfl, rfl⟩
  rw [h.result]
  exact (hstart.trans (mergeFiles_layout _ _)).trans (trainAndApplyDictionary_layout _ _)

end StreamedRun

end

end

end LimniFS
