/-
What is stored of a drop gives it back.

A candidate is kept because it is short; what it decodes to is looked at nowhere.  It decodes to what it
was made of under every codec but FLAC (`processFile_restores`), also if it was found in the cache of a
worker, as long as the texts behind the ids are told apart.  The dictionary pass leaves that as it is
unless it gives a dictionary to a container, or a dictionary that is too long (`StreamedRun.restored`).
-/
import LimniFS.PackedWindows

namespace LimniFS

open Lib

/-! ### Candidates -/

/-- What the bytes decode to under the codec is `x`, FLAC apart. -/
def Gives (z : Omnizip) (x : Bytes) (best : UInt8 × Bytes) : Prop :=
  best.1 ≠ codecFlac → decompress z best.1 best.2 x.length = .ok x

/-- What is stored of the drop decodes to its plaintext. -/
def RawDrop.Restores (z : Omnizip) (r : RawDrop) : Prop :=
  decodeStored z r.codec r.flags r.compressed r.plaintext.length = .ok r.plaintext

/-- Every entry was made of one of the texts. -/
def CompressCache.MadeOf {H : Hash} {z : Omnizip} (cache : CompressCache H z) (texts : List Bytes) :
    Prop :=
  ∀ e ∈ cache.entries, ∃ chunk ∈ texts, ∃ cls textCodec binaryCodec t tournament,
    e = (H chunk, compressChunkWithTournament z chunk cls textCodec binaryCodec t tournament)

section

variable {z : Omnizip} {x : Bytes}

theorem gives_store (x : Bytes) : Gives z x (codecStore, x) := fun _ => decompress_store x

theorem gives_of_compress (hz : z.Lawful) (hfits : FilteredFits z x) {id : UInt8} {c : Bytes}
    {t : CodecTunables} (h : compressWithTunables z id x t = .ok c) : Gives z x (id, c) :=
  fun hflac => decompress_compressWithTunables hz (fun _ => hfits) hflac h

theorem Emits.gives (hz : z.Lawful) (hfits : FilteredFits z x) {best : UInt8 × Bytes}
    (h : Emits z x best) : Gives z x best := by
  rcases h with rfl | ⟨t, ht⟩
  · exact gives_store x
  · exact gives_of_compress hz hfits ht

theorem wholeFileCandidate_gives (hz : z.Lawful) (hfits : FilteredFits z x) (catCodec : UInt8)
    (t : CodecTunables) : Gives z x (wholeFileCandidate z x catCodec t) := fun hflac =>
  (wholeFileCandidate_decodes_iff hz fun _ => hfits).mpr fun htruncates =>
    hflac (wholeFileCandidate_flac htruncates)

/-- Stored as it is or as a container, a candidate gives the text back. -/
theorem restores_of_gives (hz : z.Lawful) {best : UInt8 × Bytes} (h : Gives z x best)
    (hflac : best.1 ≠ codecFlac) (hlen : x.length < u32Limit) (id : Digest) (t : CodecTunables)
    (seekableDrops : Bool) (threshold : Nat) :
    (⟨id, x, (seekableOrMonolithic z best.1 x best.2 t seekableDrops threshold).1, best.1,
      (seekableOrMonolithic z best.1 x best.2 t seekableDrops threshold).2⟩ : RawDrop).Restores z :=
  decodeStored_seekableOrMonolithic hz hlen (h hflac)

end

/-! ### Files -/

/-- The drops of a file give back the texts they are named by, FLAC and what is too long for a reader
apart, and the slices are those of the file. -/
structure ChunkedFileResult.Restores (H : Hash) (z : Omnizip) (texts : List Bytes) (data : Bytes)
    (r : ChunkedFileResult) : Prop where
  slices : ∃ chunks : List Bytes, chunks.flatten = data ∧ (∀ c ∈ chunks, c ∈ texts) ∧
    (∀ c ∈ chunks, ∃ d ∈ r.drops, d.id = H c) ∧ r.slices = slicesFrom H 0 chunks
  drops : ∀ d ∈ r.drops, d.codec ≠ codecReferenced → d.id = H d.plaintext ∧ d.plaintext ∈ texts ∧
    (d.codec ≠ codecFlac → d.plaintext.length ≤ wholeFileMaxSize → d.Restores z)

section

variable {env : WriterEnv} {o : ProcessOptions} {texts : List Bytes}

theorem lt_u32Limit_of_le {n : Nat} (h : n ≤ wholeFileMaxSize) : n < u32Limit :=
  Nat.lt_of_le_of_lt h (by decide)

/-- A file stored as one drop. -/
theorem restores_whole (hz : env.z.Lawful) {data : Bytes} (hdata : data ∈ texts)
    {best : UInt8 × Bytes} (hbest : FilteredFits env.z data → Gives env.z data best)
    (t : CodecTunables) (seekableDrops : Bool) (threshold : Nat) :
    ChunkedFileResult.Restores env.H env.z texts data
      ⟨[⟨env.H data, data,
        (seekableOrMonolithic env.z best.1 data best.2 t seekableDrops threshold).1, best.1,
        (seekableOrMonolithic env.z best.1 data best.2 t seekableDrops threshold).2⟩],
        [⟨env.H data, 0, data.length⟩]⟩ where
  slices := by
    refine ⟨[data], by simp, fun c hc => ?_, fun c hc => ?_, by simp [slicesFrom]⟩
    · rw [List.mem_singleton.mp hc]
      exact hdata
    · rw [List.mem_singleton.mp hc]
      exact ⟨_, List.mem_singleton.mpr rfl, rfl⟩
  drops d hd _ := by
    obtain rfl := List.mem_singleton.mp hd
    exact ⟨rfl, hdata, fun hflac hlen => restores_of_gives hz (hbest (filteredFits_of_le hz hlen)) hflac
      (lt_u32Limit_of_le hlen) _ _ _ _⟩

/-- What a worker finds in its cache decodes as what it would make. -/
theorem compressCached_gives (hz : env.z.Lawful) (hcol : NoCollision env.H texts)
    {cache : CompressCache env.H env.z} (hcache : cache.MadeOf texts) {chunk : Bytes}
    (hchunk : chunk ∈ texts) (hfits : FilteredFits env.z chunk) :
    Gives env.z chunk (compressCached env o cache chunk).1 := by
  unfold compressCached
  simp only
  split
  · next hit hhit =>
      obtain ⟨e, he, rfl⟩ := Option.map_eq_some_iff.mp hhit
      obtain ⟨c, hc, cls, text, binary, t, tournament, rfl⟩ := hcache e (List.mem_of_find?_eq_some he)
      have hname : env.H c = env.H chunk := by simpa using List.find?_some he
      obtain rfl := hcol c hc chunk hchunk hname
      exact (compressChunkWithTournament_emits c cls text binary t tournament).gives hz hfits
  · exact (compressChunkWithTournament_emits chunk _ _ _ _ _).gives hz hfits

/-- A chunk that the base does not have. -/
theorem chunkDrop_restores (hz : env.z.Lawful) (hcol : NoCollision env.H texts)
    {cache : CompressCache env.H env.z} (hcache : cache.MadeOf texts) {chunk : Bytes}
    (hchunk : chunk ∈ texts) (hstored : (chunkDrop env o cache chunk).1.codec ≠ codecReferenced) :
    (chunkDrop env o cache chunk).1.plaintext = chunk ∧
      ((chunkDrop env o cache chunk).1.codec ≠ codecFlac → chunk.length ≤ wholeFileMaxSize →
        (chunkDrop env o cache chunk).1.Restores env.z) := by
  unfold chunkDrop at hstored ⊢
  simp only at hstored ⊢
  by_cases hbase : baseContains o.baseDropIndex (env.H chunk) = true
  · rw [if_pos hbase] at hstored
    exact absurd rfl hstored
  · rw [if_neg hbase]
    exact ⟨rfl, fun hflac hlen => restores_of_gives hz
      (compressCached_gives hz hcol hcache hchunk (filteredFits_of_le hz hlen)) hflac
      (lt_u32Limit_of_le hlen) _ _ _ _⟩

theorem processChunks_restores (hz : env.z.Lawful) (hcol : NoCollision env.H texts)
    {caches : Nat → CompressCache env.H env.z} (hcaches : ∀ i, (caches i).MadeOf texts)
    {chunks : List Bytes} (hchunks : ∀ c ∈ chunks, c ∈ texts) :
    (processChunks env o caches chunks).Restores env.H env.z texts chunks.flatten where
  slices := by
    refine ⟨chunks, rfl, hchunks, fun c hc => ?_, scanChunks_slices chunks 0 []⟩
    rcases @scanChunks_unique env.H chunks 0 [] c hc with hseen | ⟨u, hu, hid⟩
    · exact absurd hseen List.not_mem_nil
    · obtain ⟨i, hi, rfl⟩ := List.getElem_of_mem hu
      exact ⟨_, List.mem_mapIdx.mpr ⟨i, hi, rfl⟩, (chunkDrop_id _ _).trans hid⟩
  drops d hd hstored := by
    obtain ⟨i, hi, rfl⟩ := List.mem_mapIdx.mp hd
    have hmem : (scanChunks env.H chunks 0 []).2[i] ∈ texts :=
      hchunks _ (scanChunks_mem chunks 0 [] _ (List.getElem_mem hi))
    obtain ⟨hplain, hrestores⟩ := chunkDrop_restores hz hcol (hcaches i) hmem hstored
    rw [chunkDrop_id, hplain]
    exact ⟨rfl, hmem, hrestores⟩

/-- **Whichever way a file goes, what is stored of its drops gives them back.** -/
theorem processFile_restores (hz : env.z.Lawful) (hcol : NoCollision env.H texts)
    {caches : Nat → CompressCache env.H env.z} (hcaches : ∀ i, (caches i).MadeOf texts)
    {pf : PendingFile} {r : ChunkedFileResult} (h : processFile env o caches pf = .ok r)
    (htexts : ∀ data, env.readFile pf.path = .ok data → ∀ x ∈ piecesOf env o.chunker data, x ∈ texts) :
    ∃ data, env.readFile pf.path = .ok data ∧ r.Restores env.H env.z texts data := by
  unfold processFile at h
  split at h
  · cases h
  · next data hread =>
      have hpieces := htexts data hread
      have hdata : data ∈ texts := hpieces data List.mem_cons_self
      refine ⟨data, hread, ?_⟩
      split at h
      · cases h
        refine restores_whole hz hdata (fun hfits => ?_) _ _ _
        split
        · next c hc =>
            split
            · exact gives_of_compress hz hfits hc
            · exact gives_store data
        · exact gives_store data
      · split at h
        · next codecId _ =>
            cases h
            exact restores_whole hz hdata
              (fun hfits => wholeFileCandidate_gives hz hfits codecId o.tunables) _ _ _
        · split at h
          · cases h
          · next chunks hchunks =>
              cases h
              have hmem : ∀ c ∈ chunks, c ∈ texts := by
                intro c hc
                refine hpieces c (List.mem_cons_of_mem _ ?_)
                rw [hchunks]
                exact hc
              have hrestores := @processChunks_restores env o texts hz hcol caches hcaches chunks hmem
              rw [FastCDC.chunkSlice_scalar] at hchunks
              rw [(o.chunker.scalar.chunkSlice_partition hchunks).1] at hrestores
              exact hrestores

end

/-! ### The dictionary pass -/

/-- What decodes of a drop: no FLAC, and a dictionary only where a reader puts it in. -/
structure PendingDrop.Faithful (dicts : TrainedDicts) (d : PendingDrop) : Prop where
  noFlac : d.codec ≠ codecFlac
  dictionary : d.dictId ≠ noDict → d.flags &&& dropFlagSeekable = 0 ∧ dicts.WithinCap

section

variable {env : WriterEnv} {d d' : PendingDrop} {p : Bytes} {dicts : TrainedDicts}

/-- **After the pass** a faithful drop decodes as before, under the dictionaries of the image. -/
theorem decodeDrop_released (hz : env.z.Lawful) (hd : d.Holds env.z env.H p)
    (h : Released env dicts d d') (hfaithful : d'.Faithful dicts) (offset : Nat) (trailer : Bytes) :
    decodeDrop env.z (d'.record offset) d'.compressed (imageDictTable dicts trailer) = .ok p := by
  rcases h with rfl | ⟨c, id, hcand, rfl⟩
  · rw [decodeDrop_plain (show ((releaseSample d).record offset).dictId = noDict from hd.dict) rfl rfl]
    exact hd.decodes
  · obtain ⟨plaintext, content, hplain, hclass, hc⟩ := dictCandidate_some hcand
    have hid := (TrainedDicts.forClass_mem hclass).2.1
    obtain ⟨hseek, hcap⟩ := hfaithful.dictionary hid
    obtain rfl : plaintext = p := by
      rcases hd.kept with hkept | hkept
      · rw [hkept] at hplain
        cases hplain
      · exact Option.some.inj (hplain.symm.trans hkept)
    have hlen : ((releaseSample { d with compressed := c, dictId := id }).record offset).plaintextLen
        = plaintext.length := hd.len
    have hdecode := @decodeDrop_dict env.z
      ((releaseSample { d with compressed := c, dictId := id }).record offset) c
      (imageDictTable dicts trailer) hseek hid rfl rfl
    have hdict : ((releaseSample { d with compressed := c, dictId := id }).record offset).dictId = id :=
      rfl
    rw [hlen, hdict, imageDictTable_withinCap hcap hclass trailer] at hdecode
    refine hdecode.trans ?_
    simp only [decompressWithDict, hz.zstdDict _ _ _ hc]

end

/-! ### A run -/

/-- The texts behind the ids, which the hash tells apart: the files and their chunks, and what the
workers had compressed before. -/
structure TextsApart (env : WriterEnv) (config : WriteConfig) (workers : Workers env)
    (files : List (Path × SurveyMeta)) (texts : List Bytes) : Prop where
  pieces : ∀ f ∈ files, ∀ data, env.readFile f.1 = .ok data → ∀ chunker,
    chunkerFromConfig config = .ok chunker → ∀ x ∈ piecesOf env chunker data, x ∈ texts
  cached : ∀ file chunk, (workers file chunk).MadeOf texts
  apart : NoCollision env.H texts

section

variable {env : WriterEnv} {config : WriteConfig} {workers : Workers env} {sched : Schedule}
  {tree : SourceTree env.readFile} {s₀ s walked : WriterState} {chunker : ParallelFastCDC}
  {number : Nat} {results : List ChunkedFileResult} {texts : List Bytes}

namespace StreamedRun

/-- A file that was put off is one of the tree's, and so are the pieces of it. -/
theorem pieces (h : StreamedRun env config workers tree s₀ s chunker number walked results)
    (hfresh : s₀.Fresh) (htexts : ∀ f ∈ tree.survey.files tree.root, ∀ data,
      env.readFile f.1 = .ok data → ∀ x ∈ piecesOf env chunker data, x ∈ texts) :
    ∀ t ∈ walked.pendingFiles.zipIdx, ∀ data, env.readFile t.1.path = .ok data →
      ∀ x ∈ piecesOf env chunker data, x ∈ texts := by
  intro t ht data hread
  have hpf : t.1 ∈ walked.pendingFiles := by
    rw [← List.zipIdx_map_fst 0 walked.pendingFiles]
    exact List.mem_map_of_mem ht
  rcases (foldSurvey_walked _ _ _ _ _ _ h.walk).pendingFiles t.1 hpf with hold | ⟨-, info, hfile, -⟩
  · rw [show (streamingStart config s₀).pendingFiles = [] from hfresh.2.2.2] at hold
    exact absurd hold List.not_mem_nil
  · exact htexts _ hfile data hread

/-- **What a directory is written to was packed from its files and their chunks.** -/
theorem packedFrom (h : StreamedRun env config workers tree s₀ s chunker number walked results)
    (hfresh : s₀.Fresh) (htexts : ∀ f ∈ tree.survey.files tree.root, ∀ data,
      env.readFile f.1 = .ok data → ∀ x ∈ piecesOf env chunker data, x ∈ texts) :
    PackedFrom env.H env.z texts s.toWriteContext := by
  obtain ⟨registry, hall⟩ := h.processed
  have hstart : PackedFrom env.H env.z texts (streamingStart config s₀).toWriteContext := by
    refine ⟨fun d hd => ?_, fun inode hinode => ?_⟩
    · rw [show (streamingStart config s₀).drops = [] from hfresh.2.1] at hd
      exact absurd hd List.not_mem_nil
    · rw [show (streamingStart config s₀).inodes = [] from hfresh.1] at hinode
      exact absurd hinode List.not_mem_nil
  have hwalked := hstart.walked (foldSurvey_walked _ _ _ _ _ _ h.walk)
  rw [h.result]
  refine PackedFrom.trainAndApplyDictionary _ (PackedFrom.mergeFiles _ _
    (hwalked.congr (by rfl) (by rfl)) fun f hf => ?_)
  obtain ⟨t, ht, hresult⟩ := exists_mem_of_forall₂ hall f.2 (List.of_mem_zip hf).2
  exact processFile_packed hresult (h.pieces hfresh htexts t ht)

/-- What each file that was put off brings gives it back. -/
theorem restores (h : StreamedRun env config workers tree s₀ s chunker number walked results)
    (hfresh : s₀.Fresh) (hz : env.z.Lawful)
    (htexts : TextsApart env config workers (tree.survey.files tree.root) texts) :
    List.Forall₂ (fun pf r => ∃ data, env.readFile pf.path = .ok data ∧
      r.Restores env.H env.z texts data) walked.pendingFiles results := by
  obtain ⟨registry, hall⟩ := h.processed
  have hfiles : walked.pendingFiles = walked.pendingFiles.zipIdx.map Prod.fst :=
    (List.zipIdx_map_fst 0 walked.pendingFiles).symm
  rw [hfiles, List.forall₂_map_left_iff]
  refine (forall₂_and_mem_left hall).imp ?_
  rintro t r ⟨hr, ht⟩
  exact processFile_restores hz htexts.apart (htexts.cached t.2) hr (h.pieces hfresh
    (fun f hf data hread => htexts.pieces f hf data hread chunker h.chunked) t ht)

/-- **What is packed gives back one of the texts**, the one that it is named by, if it is faithful and
not too long for a reader. -/
theorem decodes (h : StreamedRun env config workers tree s₀ s chunker number walked results)
    (hfresh : s₀.Fresh) (hz : env.z.Lawful)
    (htexts : TextsApart env config workers (tree.survey.files tree.root) texts) :
    ∀ d ∈ localDrops s.drops, d.Faithful s.trainedDicts →
      d.plaintextLen ≤ defaultDropMaxPlaintextBytes → ∃ p ∈ texts, env.H p = d.id ∧
        ∀ offset trailer, decodeDrop env.z (d.record offset) d.compressed
          (imageDictTable s.trainedDicts trailer) = .ok p := by
  intro d hd hfaithful hlen
  obtain ⟨hmem, hcodec⟩ := List.mem_filter.mp hd
  have hstored : d.codec ≠ codecReferenced := by simpa using hcodec
  have hreleased := @trainAndApplyDictionary_released env config.dictionaries (mergeFiles env
    { walked with rootInodeNumber := number, pendingFiles := [] } (walked.pendingFiles.zip results))
  rw [← h.result] at hreleased
  obtain ⟨before, hbefore, hback⟩ := exists_mem_of_forall₂ hreleased d hmem
  obtain ⟨hid, hsame, hlens⟩ := hback.same
  have hwalked := foldSurvey_walked _ _ _ _ _ _ h.walk
  obtain ⟨hkept, -, -⟩ := mergeFiles_kept env (walked.pendingFiles.zip results) []
    { walked with rootInodeNumber := number, pendingFiles := [] }
    (dropsKept_nil (hwalked.drops.trans hfresh.2.1) (hwalked.dropIndex.trans hfresh.2.2.1))
  obtain ⟨r, hr, retain, rfl⟩ := hkept.kept before hbefore
  rw [List.nil_append] at hr
  obtain ⟨f, hf, hr⟩ := List.mem_flatMap.mp hr
  obtain ⟨data, -, hrestores⟩ := List.forall₂_zip (h.restores hfresh hz htexts) hf
  obtain ⟨hname, htext, hdecodes⟩ := hrestores.drops r hr fun href => hstored (hsame.trans href)
  have hshort : r.plaintext.length < u32Limit := by
    by_contra hlong
    rw [hlens] at hlen
    have hsaturated : saturateU32 r.plaintext.length ≤ defaultDropMaxPlaintextBytes := hlen
    rw [saturateU32, if_neg hlong] at hsaturated
    exact absurd hsaturated (by decide)
  have hlen' : (r.pending retain).plaintextLen = r.plaintext.length := saturateU32_of_lt hshort
  refine ⟨r.plaintext, htext, hname.symm.trans hid.symm, fun offset trailer =>
    decodeDrop_released hz ⟨hname, hlen', rfl, ?_, ?_⟩ hback hfaithful offset trailer⟩
  · cases retain with
    | true => exact Or.inr rfl
    | false => exact Or.inl rfl
  · rw [hlen']
    refine hdecodes (fun hflac => hfaithful.noFlac (hsame.trans hflac)) ?_
    rw [← hlen', ← hlens]
    exact hlen

theorem packed (h : StreamedRun env config workers tree s₀ s chunker number walked results)
    (hfresh : s₀.Fresh) (hbase : s₀.baseDropIndex = none) :
    ∀ r ∈ results.flatMap (·.drops), ∃ d ∈ localDrops s.drops, d.id = r.id := by
  intro r hr
  have hwalked := foldSurvey_walked _ _ _ _ _ _ h.walk
  have hnew : (streamingStart config s₀).Fresh := hfresh
  obtain ⟨merged, hfin, hkept, -, hindex⟩ := kept_of_merged hnew hwalked h.merged
  obtain ⟨d, hd, hid⟩ := List.mem_map.mp ((hkept.index _).mp (hindex r hr))
  have hmark : d.codec ≠ codecReferenced := by
    intro hmark
    obtain ⟨raw, hraw, retain, rfl⟩ := hkept.kept d hd
    obtain ⟨result, hresult, hraw⟩ := List.mem_flatMap.mp hraw
    obtain ⟨pf, -, data, -, hcovers⟩ := exists_mem_of_forall₂ (covers_of_merged h.merged) result hresult
    have hacc := hcovers.accounted raw hraw
    unfold RawDrop.Accounted at hacc
    rw [if_pos (show raw.codec = codecReferenced from hmark),
      hwalked.baseDropIndex.trans (show (streamingStart config s₀).baseDropIndex = none from hbase)] at hacc
    cases hacc
  obtain ⟨-, f, hf, hdrops⟩ := hfin
  refine ⟨f d, ?_, (hf d).1.trans hid⟩
  rw [hdrops]
  refine List.mem_filter.mpr ⟨List.mem_map_of_mem hd, ?_⟩
  rw [(hf d).2.1]
  simpa using hmark

end StreamedRun

end

end LimniFS
