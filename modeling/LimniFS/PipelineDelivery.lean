/-
Which bytes a file gets.

The channel keeps the order of each reader and no other: with two readers any two
neighbouring files may change places (`Lib.SharedQueue.delivered_swapped`), and then
each is written with the bytes of the other.  Nothing downstream can notice, since every
drop is named by what it holds.

So the pipelined writer is right on every run only where there is nothing to mix up:
`pipeline_faithful_iff` says that every run that returns has every file as it is on
disk, and any two runs the same image, exactly if some file cannot be read (then no run
returns), the chunk sizes are wrong (likewise), or all files that were put off have the
same bytes.
-/
import LimniFS.Pipeline
import LimniFS.WriteHistory

namespace LimniFS

open Lib Lib.SharedQueue

/-! ### What the slices of a result hold -/

section

variable {H : Hash} {strings : List Bytes}

theorem holdsFile_of_madeFrom {pieces data : _} {r : ChunkedFileResult} {raws : List RawDrop}
    (hcol : NoCollision H strings) (hpieces : ∀ p ∈ pieces, p ∈ strings)
    (h : MadeFrom H pieces data r) (hraws : ∀ d ∈ r.drops, d ∈ raws) :
    HoldsFile raws r.slices data := by
  obtain ⟨chunks, hflat, hmem, hlisted, hslices⟩ := h.slices
  refine ⟨chunks, hflat, ?_⟩
  rw [hslices]
  have hcover := forall₂_and_mem_right (forall₂_slicesFrom (H := H) chunks 0)
  refine hcover.imp ?_
  rintro slice c ⟨hid, hc⟩
  obtain ⟨d, hd, hdid⟩ := hlisted c hc
  obtain ⟨hown, hpiece⟩ := h.drops d hd
  refine ⟨d, hraws d hd, hdid.trans hid.symm, ?_⟩
  exact hcol _ (hpieces _ hpiece) _ (hpieces _ (hmem c hc)) (hown.symm.trans hdid)

theorem eq_of_holdsFile {pieces data data' : _} {r : ChunkedFileResult} {raws : List RawDrop}
    (hcol : NoCollision H strings) (hpieces : ∀ p ∈ pieces, p ∈ strings)
    (h : MadeFrom H pieces data r)
    (hraws : ∀ d ∈ raws, d.id = H d.plaintext ∧ d.plaintext ∈ strings)
    (hholds : HoldsFile raws r.slices data') : data = data' := by
  obtain ⟨chunks, hflat, hmem, -, hslices⟩ := h.slices
  obtain ⟨chunks', hflat', hall⟩ := hholds
  rw [hslices] at hall
  rw [← hflat, ← hflat']
  refine congrArg List.flatten (eq_of_forall₂ (forall₂_and_mem_right
    (forall₂_slicesFrom (H := H) chunks 0)) hall ?_)
  rintro slice _ c c' ⟨hid, hc⟩ ⟨d, hd, hdid, rfl⟩
  obtain ⟨hown, hstring⟩ := hraws d hd
  exact hcol _ (hpieces c (hmem c hc)) _ hstring (hid.symm.trans (hdid.symm.trans hown))

end

/-! ### Pairing -/

section

variable {env : WriterEnv} {o : ProcessOptions}

theorem compressReceived_ok :
    ∀ {pending : List PendingFile} {received : List Bytes} {results : List ChunkedFileResult},
      compressReceived env o pending received = .ok results →
      pending.length ≤ received.length ∧
      List.Forall₂ (fun f r => processFileInline env o f.1 f.2 = .ok r) (pending.zip received)
        results := by
  intro pending
  induction pending with
  | nil =>
      intro received results h
      cases h
      exact ⟨Nat.zero_le _, .nil⟩
  | cons pf pending ih =>
      intro received results h
      cases received with
      | nil => cases h
      | cons data received =>
          obtain ⟨result, hresult, h⟩ := except_bind_eq_ok.mp h
          obtain ⟨rest, hrest, h⟩ := except_bind_eq_ok.mp h
          cases h
          obtain ⟨hlen, hall⟩ := ih hrest
          exact ⟨Nat.succ_le_succ hlen, .cons hresult hall⟩

theorem compressReceived_total (env : WriterEnv) (o : ProcessOptions) :
    ∀ (pending : List PendingFile) (received : List Bytes),
      pending.length ≤ received.length →
      (∀ data ∈ received, data.length + o.chunker.scalar.maxSize < usizeLimit) →
      ∃ results, compressReceived env o pending received = .ok results := by
  intro pending
  induction pending with
  | nil => intro received _ _; exact ⟨[], rfl⟩
  | cons pf pending ih =>
      intro received hlen hfits
      cases received with
      | nil => exact absurd hlen (by simp)
      | cons data received =>
          obtain ⟨rest, hrest⟩ := ih received (by simpa using hlen)
            fun d hd => hfits d (List.mem_cons_of_mem _ hd)
          have hfile : ∃ r, processFileInline env o pf data = .ok r := by
            obtain ⟨chunks, hchunks⟩ := FastCDC.chunkSlice_total (hfits data List.mem_cons_self)
            unfold processFileInline
            split
            · exact ⟨_, rfl⟩
            · rw [FastCDC.chunkSlice_scalar, hchunks]
              exact ⟨_, rfl⟩
          obtain ⟨r, hr⟩ := hfile
          refine ⟨r :: rest, ?_⟩
          unfold compressReceived
          rw [hr, hrest]
          rfl

variable {strings : List Bytes}

theorem raws_of_results {files : List (PendingFile × Bytes)} {results : List ChunkedFileResult}
    (hall : List.Forall₂ (fun f r => processFileInline env o f.1 f.2 = .ok r) files results)
    (hpieces : ∀ f ∈ files, ∀ p ∈ piecesOf env o.chunker f.2, p ∈ strings) :
    ∀ d ∈ results.flatMap (·.drops), d.id = env.H d.plaintext ∧ d.plaintext ∈ strings := by
  intro d hd
  obtain ⟨r, hr, hd⟩ := List.mem_flatMap.mp hd
  obtain ⟨f, hf, hrun⟩ := exists_mem_of_forall₂ hall r hr
  obtain ⟨hid, hpiece⟩ := (processFileInline_madeFrom hrun).drops d hd
  exact ⟨hid, hpieces f hf _ hpiece⟩

/-- **A file that got its own bytes is right.** -/
theorem filesHold_of_own {pending : List PendingFile} {contents : List Bytes}
    {results : List ChunkedFileResult} (hcol : NoCollision env.H strings)
    (hpieces : ∀ data ∈ contents, ∀ p ∈ piecesOf env o.chunker data, p ∈ strings)
    (hread : List.Forall₂ (fun pf data => env.readFile pf.path = .ok data) pending contents)
    (hall : List.Forall₂ (fun f r => processFileInline env o f.1 f.2 = .ok r)
      (pending.zip contents) results) :
    FilesHold env pending results := by
  have hlen := hread.length_eq
  have hfiles : pending = (pending.zip contents).map Prod.fst :=
    (List.map_fst_zip (Nat.le_of_eq hlen)).symm
  unfold FilesHold
  rw [hfiles, List.forall₂_map_left_iff]
  refine (forall₂_and_mem_right (forall₂_and_mem_left hall)).imp ?_
  rintro f r ⟨⟨hrun, hf⟩, hr⟩
  have hmem : f.2 ∈ contents := (List.of_mem_zip hf).2
  refine ⟨f.2, List.forall₂_zip hread hf, ?_⟩
  exact holdsFile_of_madeFrom hcol (hpieces f.2 hmem) (processFileInline_madeFrom hrun)
    fun d hd => List.mem_flatMap.mpr ⟨r, hr, hd⟩

end

/-! ### Whole runs -/

section

variable (env : WriterEnv) (config : WriteConfig) (tree : SourceTree env.readFile)

/-- On every run that returns, every file is as it is on disk; and any two of them give one
image. -/
def PipelineFaithful : Prop :=
  ∀ walked, foldSurvey env tree.root none tree.survey (pipelineStart config) = .ok walked →
    (∀ received, Delivered readThreads channelCapacity
        (pipelineItems env walked.2.pendingFiles) received →
      ∀ results, pipelined env config walked.2.pendingFiles received = .ok results →
        FilesHold env walked.2.pendingFiles results) ∧
    ∀ received received',
      Delivered readThreads channelCapacity (pipelineItems env walked.2.pendingFiles) received →
      Delivered readThreads channelCapacity (pipelineItems env walked.2.pendingFiles) received' →
      ∀ s s', writeDirectoryWithPipeline env config tree received = .ok s →
        writeDirectoryWithPipeline env config tree received' = .ok s' →
        assemble env.H env.z s.toWriteContext = assemble env.H env.z s'.toWriteContext

/-- The chunk sizes are wrong, a file cannot be read, or all files have the same bytes. -/
def NothingToMixUp : Prop :=
  ∀ walked, foldSurvey env tree.root none tree.survey (pipelineStart config) = .ok walked →
    (∃ e, chunkerFromConfig config = .error e) ∨
    (∃ pf ∈ walked.2.pendingFiles, ∃ e, env.readFile pf.path = .error e) ∨
    ∀ pf ∈ walked.2.pendingFiles, ∀ pf' ∈ walked.2.pendingFiles,
      env.readFile pf.path = env.readFile pf'.path

/-- The strings that are hashed, whichever file they are taken for. -/
def pipelineStrings (chunker : ParallelFastCDC) (pending : List PendingFile) : List Bytes :=
  ((pipelineItems env pending).filterMap id).flatMap (piecesOf env chunker)

/-- No two of them have one hash. -/
def PipelineNoCollision : Prop :=
  ∀ walked, foldSurvey env tree.root none tree.survey (pipelineStart config) = .ok walked →
    ∀ chunker, chunkerFromConfig config = .ok chunker →
      NoCollision env.H (pipelineStrings env chunker walked.2.pendingFiles)

end

section

variable {env : WriterEnv} {config : WriteConfig} {tree : SourceTree env.readFile}
  {pending : List PendingFile} {received : List Bytes}

theorem filterMap_map_some (contents : List Bytes) :
    (contents.map some).filterMap id = contents := by
  rw [List.filterMap_map]
  exact List.filterMap_some

theorem read_of_items {contents : List Bytes}
    (h : pipelineItems env pending = contents.map some) :
    List.Forall₂ (fun pf data => env.readFile pf.path = .ok data) pending contents := by
  have hpairs : List.Forall₂ Eq (pipelineItems env pending) (contents.map some) := by
    rw [h]
    exact List.forall₂_refl _
  unfold pipelineItems at hpairs
  rw [List.forall₂_map_left_iff, List.forall₂_map_right_iff] at hpairs
  refine hpairs.imp ?_
  intro pf data hread
  cases hfile : env.readFile pf.path with
  | error e => rw [hfile] at hread; cases hread
  | ok d => rw [hfile] at hread; cases hread; rfl

/-- **A run that returns got the bytes of all files**, in some order. -/
theorem received_of_ok (hdelivered : Delivered readThreads channelCapacity
      (pipelineItems env pending) received) {o : ProcessOptions}
    {results : List ChunkedFileResult}
    (hok : compressReceived env o pending received = .ok results) :
    ∃ contents, List.Forall₂ (fun pf data => env.readFile pf.path = .ok data) pending contents ∧
      pipelineItems env pending = contents.map some ∧ received.Perm contents := by
  have hlen : (pipelineItems env pending).length = pending.length := by simp [pipelineItems]
  have hle := delivered_length_le hdelivered
  have hge := (compressReceived_ok hok).1
  obtain ⟨contents, hitems, hperm⟩ := delivered_perm hdelivered (by omega)
  exact ⟨contents, read_of_items hitems, hitems, hperm⟩

/-- If there is nothing to mix up, a run that returns gave every file its own bytes. -/
theorem received_own (hdelivered : Delivered readThreads channelCapacity
      (pipelineItems env pending) received) {o : ProcessOptions}
    {results : List ChunkedFileResult}
    (hok : compressReceived env o pending received = .ok results)
    (hone : (∃ pf ∈ pending, ∃ e, env.readFile pf.path = .error e) ∨
      ∀ pf ∈ pending, ∀ pf' ∈ pending, env.readFile pf.path = env.readFile pf'.path) :
    List.Forall₂ (fun pf data => env.readFile pf.path = .ok data) pending received ∧
      pipelineItems env pending = received.map some := by
  obtain ⟨contents, hread, hitems, hperm⟩ := received_of_ok hdelivered hok
  rcases hone with ⟨pf, hpf, e, hfails⟩ | hsame
  · obtain ⟨data, -, hdata⟩ := exists_mem_of_forall₂ hread.flip pf hpf
    rw [hfails] at hdata
    cases hdata
  · have hconstant : ∀ x ∈ contents, ∀ y ∈ contents, x = y := by
      intro x hx y hy
      obtain ⟨pf, hpf, hreadx⟩ := exists_mem_of_forall₂ hread x hx
      obtain ⟨pf', hpf', hready⟩ := exists_mem_of_forall₂ hread y hy
      have heq := hsame pf hpf pf' hpf'
      rw [hreadx, hready] at heq
      exact Except.ok.inj heq
    rw [eq_of_perm_constant hperm hconstant]
    exact ⟨hread, hitems⟩

/-- Two neighbours that change places have to be alike. -/
theorem neighbours_alike {chunker : ParallelFastCDC} {before rest : List Bytes} {a b : Bytes}
    (hchunker : chunkerFromConfig config = .ok chunker)
    (hitems : pipelineItems env pending = (before ++ a :: b :: rest).map some)
    (hcol : NoCollision env.H (pipelineStrings env chunker pending))
    (hfits : ∀ data ∈ before ++ a :: b :: rest,
      data.length + chunker.scalar.maxSize < usizeLimit)
    (hfaithful : ∀ received, Delivered readThreads channelCapacity (pipelineItems env pending)
        received → ∀ results, pipelined env config pending received = .ok results →
        FilesHold env pending results) : a = b := by
  have hread := read_of_items hitems
  have hlen := hread.length_eq
  have hswap : (before ++ b :: a :: rest).Perm (before ++ a :: b :: rest) :=
    (List.Perm.swap a b rest).append_left before
  have hdelivered : Delivered readThreads channelCapacity (pipelineItems env pending)
      (before ++ b :: a :: rest) := by
    rw [hitems]
    exact delivered_swapped (by decide) (by decide) before rest a b
  obtain ⟨results, hresults⟩ := compressReceived_total env
    (pipelineOptions config chunker) pending (before ++ b :: a :: rest)
    (by rw [hlen, hswap.length_eq]) fun d hd => hfits d (hswap.mem_iff.mp hd)
  have hne : pending ≠ [] := by
    rintro rfl
    simp at hlen
  have hpipelined : pipelined env config pending (before ++ b :: a :: rest) = .ok results := by
    unfold pipelined
    rw [if_neg (by simpa using hne), hchunker]
    exact hresults
  have hholds := hfaithful _ hdelivered results hpipelined
  obtain ⟨-, hall⟩ := compressReceived_ok hresults
  -- the file at the first of the two places
  have hi : before.length < pending.length := by rw [hlen]; simp
  have hzip : before.length < (pending.zip (before ++ b :: a :: rest)).length := by
    rw [List.length_zip, hlen]
    simp
  have hres : before.length < results.length := by
    rw [← hholds.length_eq]
    exact hi
  obtain ⟨data, hdata, hfile⟩ := hholds.get hi hres
  have hown := hread.get hi (by simp)
  have hmade := processFileInline_madeFrom (hall.get hzip hres)
  have hpair : (pending.zip (before ++ b :: a :: rest)).get ⟨before.length, hzip⟩
      = (pending.get ⟨before.length, hi⟩, b) := by simp
  rw [hpair] at hmade
  have hfirst : data = a := by
    rw [hdata] at hown
    have := Except.ok.inj hown
    simpa using this
  have hstrings : ∀ d ∈ before ++ a :: b :: rest, ∀ p ∈ piecesOf env chunker d,
      p ∈ pipelineStrings env chunker pending := by
    intro d hd p hp
    unfold pipelineStrings
    rw [hitems, filterMap_map_some]
    exact List.mem_flatMap.mpr ⟨d, hd, hp⟩
  rw [← hfirst]
  refine (eq_of_holdsFile hcol (hstrings b (by simp)) hmade ?_ hfile).symm
  refine raws_of_results hall ?_
  intro f hf
  exact hstrings f.2 (hswap.mem_iff.mp (List.of_mem_zip hf).2)

/-- A file that was put off has the length the survey saw. -/
theorem fits_of_walked {walked : Nat × WriterState} {chunker : ParallelFastCDC}
    {contents : List Bytes}
    (hwalk : foldSurvey env tree.root none tree.survey (pipelineStart config) = .ok walked)
    (hchunker : chunkerFromConfig config = .ok chunker)
    (hfits : ∀ f ∈ tree.survey.files tree.root,
      f.2.len + config.chunking.maxChunkSize < usizeLimit)
    (hread : List.Forall₂ (fun pf data => env.readFile pf.path = .ok data)
      walked.2.pendingFiles contents) :
    ∀ data ∈ contents, data.length + chunker.scalar.maxSize < usizeLimit := by
  have hmax : chunker.scalar.maxSize = config.chunking.maxChunkSize := by
    unfold chunkerFromConfig at hchunker
    split at hchunker
    · next scalar hnew =>
        cases hchunker
        exact FastCDC.new_maxSize hnew
    · cases hchunker
  intro data hdata
  obtain ⟨pf, hpf, hfile⟩ := exists_mem_of_forall₂ hread data hdata
  rcases (foldSurvey_walked _ _ _ _ _ _ hwalk).pendingFiles pf hpf with
    hold | ⟨-, info, hinfo, -⟩
  · cases hold
  · rw [hmax, tree.agrees _ hinfo data hfile]
    exact hfits _ hinfo

theorem nothingToMixUp_of_faithful (hcol : PipelineNoCollision env config tree)
    (hfits : ∀ f ∈ tree.survey.files tree.root,
      f.2.len + config.chunking.maxChunkSize < usizeLimit)
    (hfaithful : PipelineFaithful env config tree) : NothingToMixUp env config tree := by
  intro walked hwalk
  cases hchunker : chunkerFromConfig config with
  | error e => exact .inl ⟨e, rfl⟩
  | ok chunker =>
      right
      by_cases hreadable : ∀ pf ∈ walked.2.pendingFiles, ∃ data, env.readFile pf.path = .ok data
      · right
        -- the files as the readers find them
        have hitems : pipelineItems env walked.2.pendingFiles
            = ((pipelineItems env walked.2.pendingFiles).filterMap id).map some := by
          rw [List.map_filterMap_some_eq_filter_map_isSome, List.map_id]
          refine (List.filter_eq_self.mpr ?_).symm
          intro item hitem
          obtain ⟨pf, hpf, rfl⟩ := List.mem_map.mp hitem
          obtain ⟨data, hdata⟩ := hreadable pf hpf
          rw [hdata]
          rfl
        have hread := read_of_items hitems
        have hsame := forall_eq_of_neighbours
          ((pipelineItems env walked.2.pendingFiles).filterMap id) (by
            intro before a b rest heq
            have hfit := fits_of_walked hwalk hchunker hfits hread
            rw [heq] at hitems hfit
            exact neighbours_alike hchunker hitems (hcol walked hwalk chunker hchunker) hfit
              (hfaithful walked hwalk).1)
        intro pf hpf pf' hpf'
        obtain ⟨data, hdata, hfile⟩ := exists_mem_of_forall₂ hread.flip pf hpf
        obtain ⟨data', hdata', hfile'⟩ := exists_mem_of_forall₂ hread.flip pf' hpf'
        rw [hfile, hfile', hsame data hdata data' hdata']
      · left
        simp only [not_forall, not_exists] at hreadable
        obtain ⟨pf, hpf, hfails⟩ := hreadable
        refine ⟨pf, hpf, ?_⟩
        cases hfile : env.readFile pf.path with
        | error e => exact ⟨e, rfl⟩
        | ok data => exact absurd hfile (hfails data)

theorem pipelined_ok {results : List ChunkedFileResult}
    (h : pipelined env config pending received = .ok results) :
    (pending = [] ∧ results = []) ∨ ∃ chunker, chunkerFromConfig config = .ok chunker ∧
      compressReceived env (pipelineOptions config chunker) pending received = .ok results := by
  unfold pipelined at h
  by_cases hempty : pending.isEmpty = true
  · rw [if_pos hempty] at h
    cases h
    exact .inl ⟨List.isEmpty_iff.mp hempty, rfl⟩
  · rw [if_neg hempty] at h
    obtain ⟨chunker, hchunker, h⟩ := except_bind_eq_ok.mp h
    exact .inr ⟨chunker, hchunker, h⟩

/-- What is delivered does not matter without files, and is determined by them otherwise. -/
theorem pipelined_eq {walked : Nat × WriterState} {received' : List Bytes}
    {results results' : List ChunkedFileResult}
    (hwalk : foldSurvey env tree.root none tree.survey (pipelineStart config) = .ok walked)
    (hone : NothingToMixUp env config tree)
    (hdelivered : Delivered readThreads channelCapacity
      (pipelineItems env walked.2.pendingFiles) received)
    (hdelivered' : Delivered readThreads channelCapacity
      (pipelineItems env walked.2.pendingFiles) received')
    (h : pipelined env config walked.2.pendingFiles received = .ok results)
    (h' : pipelined env config walked.2.pendingFiles received' = .ok results') :
    results = results' := by
  rcases pipelined_ok h with ⟨hnil, hresults⟩ | ⟨chunker, hchunker, hok⟩
  · rcases pipelined_ok h' with ⟨-, hresults'⟩ | ⟨chunker', -, hok'⟩
    · rw [hresults, hresults']
    · rw [hnil] at hok'
      cases hok'
      exact hresults
  · rcases pipelined_ok h' with ⟨hnil, hresults'⟩ | ⟨chunker', hchunker', hok'⟩
    · rw [hnil] at hok
      cases hok
      exact hresults'.symm
    · rcases hone walked hwalk with ⟨e, hbad⟩ | hone
      · rw [hbad] at hchunker
        cases hchunker
      · have hitems := (received_own hdelivered hok hone).2
        have hitems' := (received_own hdelivered' hok' hone).2
        have heq : received = received' := by
          rw [← filterMap_map_some received, ← filterMap_map_some received', ← hitems, ← hitems']
        rw [hchunker] at hchunker'
        cases hchunker'
        rw [heq, hok'] at hok
        exact (Except.ok.inj hok).symm

/--
**The pipelined writer keeps files apart exactly where there is nothing to mix up.**  For
every tree and configuration: on every interleaving of the two readers' sends with the
receives, a run that returns has every file as it is on disk and any two such runs give
the same manifest and slabs, if and only if the chunk sizes are wrong, some file that was
put off cannot be read, or all of them have the same bytes.
-/
theorem pipeline_faithful_iff (hcol : PipelineNoCollision env config tree)
    (hfits : ∀ f ∈ tree.survey.files tree.root,
      f.2.len + config.chunking.maxChunkSize < usizeLimit) :
    PipelineFaithful env config tree ↔ NothingToMixUp env config tree := by
  refine ⟨nothingToMixUp_of_faithful hcol hfits, ?_⟩
  intro hone walked hwalk
  refine ⟨?_, ?_⟩
  · intro received hdelivered results hresults
    rcases pipelined_ok hresults with ⟨hnil, rfl⟩ | ⟨chunker, hchunker, hok⟩
    · rw [hnil]
      exact .nil
    · rcases hone walked hwalk with ⟨e, hbad⟩ | hone
      · rw [hbad] at hchunker
        cases hchunker
      · obtain ⟨hread, hitems⟩ := received_own hdelivered hok hone
        refine filesHold_of_own (hcol walked hwalk chunker hchunker) ?_ hread
          (compressReceived_ok hok).2
        intro data hdata p hp
        unfold pipelineStrings
        rw [hitems, filterMap_map_some]
        exact List.mem_flatMap.mpr ⟨data, hdata, hp⟩
  · intro received received' hdelivered hdelivered' s s' hs hs'
    obtain ⟨walked₁, hwalk₁, hs⟩ := except_bind_eq_ok.mp hs
    obtain ⟨walked₂, hwalk₂, hs'⟩ := except_bind_eq_ok.mp hs'
    rw [hwalk] at hwalk₁ hwalk₂
    cases hwalk₁
    cases hwalk₂
    obtain ⟨results, hresults, hs⟩ := except_bind_eq_ok.mp hs
    obtain ⟨results', hresults', hs'⟩ := except_bind_eq_ok.mp hs'
    have heq := pipelined_eq hwalk hone hdelivered hdelivered' hresults hresults'
    subst heq
    rw [hs] at hs'
    cases hs'
    rfl

end

theorem noCollision_of_toOption {env : WriterEnv} {config : WriteConfig}
    {tree : SourceTree env.readFile}
    (h : ((chunkerFromConfig config).toOption.bind fun chunker =>
      (foldSurvey env tree.root none tree.survey (pipelineStart config)).toOption.map fun walked =>
        decide (NoCollision env.H (pipelineStrings env chunker walked.2.pendingFiles)))
      = some true) : PipelineNoCollision env config tree := by
  intro walked hwalk chunker hchunker
  rw [hwalk, hchunker] at h
  exact of_decide_eq_true (Option.some.inj h)

theorem items_of_toOption {env : WriterEnv} {config : WriteConfig}
    {tree : SourceTree env.readFile} (items : List (Option Bytes))
    (h : ((foldSurvey env tree.root none tree.survey (pipelineStart config)).toOption.map
      fun walked => pipelineItems env walked.2.pendingFiles) = some items) :
    ∃ walked, foldSurvey env tree.root none tree.survey (pipelineStart config) = .ok walked ∧
      pipelineItems env walked.2.pendingFiles = items := by
  cases hwalk : foldSurvey env tree.root none tree.survey (pipelineStart config) with
  | error e => rw [hwalk] at h; cases h
  | ok walked =>
      rw [hwalk] at h
      exact ⟨walked, rfl, Option.some.inj h⟩

open LimniFS.Stored

/-- Two files that differ: if the second is sent first, each gets the bytes of the other. -/
theorem files_mixed_up :
    ¬ PipelineFaithful writerEnv writeConfig sourceTree := by
  intro hfaithful
  obtain ⟨walked, hwalk, hitems⟩ :
      ∃ walked, foldSurvey writerEnv sourceTree.root none sourceTree.survey
          (pipelineStart writeConfig) = .ok walked ∧
        pipelineItems writerEnv walked.2.pendingFiles
          = [[1, 2, 3, 4, 5, 6, 7, 8], [1, 2, 3, 4, 9]].map some :=
    items_of_toOption _ (by decide +kernel)
  have hread := read_of_items hitems
  have hnothing := nothingToMixUp_of_faithful (noCollision_of_toOption (by decide +kernel))
    (by decide) hfaithful walked hwalk
  rcases hnothing with ⟨e, hbad⟩ | ⟨pf, hpf, e, hfails⟩ | hsame
  · cases hbad
  · obtain ⟨data, -, hdata⟩ := exists_mem_of_forall₂ hread.flip pf hpf
    rw [hfails] at hdata
    cases hdata
  · obtain ⟨pf, hpf, hfile⟩ := exists_mem_of_forall₂ hread _ List.mem_cons_self
    obtain ⟨pf', hpf', hfile'⟩ := exists_mem_of_forall₂ hread _
      (List.mem_cons_of_mem _ List.mem_cons_self)
    have heq := hsame pf hpf pf' hpf'
    rw [hfile, hfile'] at heq
    exact absurd (Except.ok.inj heq) (by decide)

namespace Stored

/-- Every file holds the letters. -/
def twinEnv : WriterEnv := { lettersEnv with readFile := fun _ => .ok letters }

/-- Two files of letters. -/
def twinTree : SourceTree twinEnv.readFile where
  root := []
  survey := .node dirInfo (.cons [0x61] (.node (fileInfo 2 100) .nil none)
    (.cons [0x62] (.node (fileInfo 3 100) .nil none) .nil)) none
  agrees := by
    intro f hf data hread
    cases hread
    simp only [SurveyNode.files, SurveyChildren.files, dirInfo, fileInfo, if_true,
      List.nil_append, List.append_nil, List.singleton_append, List.mem_cons,
      List.not_mem_nil, or_false, reduceCtorEq, if_false] at hf
    rcases hf with rfl | rfl
    · rfl
    · rfl
  len_lt := by decide

end Stored

/-- Two files that are alike cannot be mixed up. -/
theorem pipeline_faithful_iff_twins :
    PipelineFaithful twinEnv (codecConfig "store") twinTree := by
  refine (pipeline_faithful_iff (noCollision_of_toOption (by decide +kernel)) (by decide)).mpr ?_
  intro walked _
  exact .inr (.inr fun _ _ _ _ => rfl)

end LimniFS
