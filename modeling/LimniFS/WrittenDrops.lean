/-
The end of a run.

From the invariant of merging and from what each file's result promises, the run as a
whole: the slabs hold every kept drop that has a codec, once, and a slice that is not in
them is a mark for something the base has.  The dictionary pass only changes how drops
are stored, so it can be left out of the argument (`Finishes`).
-/
import LimniFS.DropClosure

namespace LimniFS

open Lib

section

variable {env : WriterEnv} {base : Option (Digest → Bool)}

/-! ### The end of a run -/

theorem dropIds_of_finishes {merged s : WriterState} {slabs : List SlabArtifact}
    (hfin : Finishes merged s) (hpack : packSlabs env.H s.drops = some slabs) :
    slabs.flatMap (·.dropIds) = (localDrops merged.drops).map (·.id) := by
  obtain ⟨-, f, hf, hdrops⟩ := hfin
  rw [packSlabs_dropIds hpack, hdrops, localDrops_map fun d => (hf d).2.1, List.map_map]
  exact List.map_congr_left fun d _ => (hf d).1

/-- Every slab is its records, one for each of its drops. -/
theorem slab_records {H : Hash} {drops : List PendingDrop} {slabs : List SlabArtifact}
    (hpack : packSlabs H drops = some slabs) :
    ∀ slab ∈ slabs, ∃ header records window,
      slab.bytes = slabBytes header records window ∧ records.map (·.dropId) = slab.dropIds := by
  refine forall_mem_of_forall₂ (encodeSlabs_groups _ _ _ hpack) (fun _ _ => trivial) ?_
  rintro slab group ⟨o, -, henc⟩ -
  obtain ⟨records, hrecords, rfl⟩ := Option.map_eq_some_iff.mp henc
  refine ⟨_, records, _, rfl, ?_⟩
  exact map_eq_map_of_forall₂ (window_of_recordsFrom hrecords) fun r d ⟨hr, _⟩ => by rw [hr]; rfl

theorem covers_of_merged {workers : Workers env} {pending : List PendingFile}
    {results : List ChunkedFileResult} {s s' : WriterState}
    (h : Merged env workers pending results s s') :
    List.Forall₂ (fun pf r => ∃ data, env.readFile pf.path = .ok data ∧
      r.Covers env.H s.baseDropIndex data) pending results := by
  obtain ⟨o, hbase, hall⟩ := h.processed
  have hfiles : pending = pending.zipIdx.map Prod.fst := (List.zipIdx_map_fst 0 pending).symm
  rw [hfiles, List.forall₂_map_left_iff]
  refine hall.imp ?_
  intro t r hr
  rw [← hbase]
  exact processFile_covers hr

/-- A file whose result covers it: the slices are contiguous, take whole drops and give the
file. -/
theorem slices_of_covers {raws : List RawDrop} (hraws : ∀ r ∈ raws, r.Accounted env.H base)
    {data : Bytes} {r : ChunkedFileResult} (hcovers : r.Covers env.H base data)
    (hne : data ≠ []) (hlen : data.length < 2 ^ 64) :
    Contiguous 0 r.slices data.length ∧ (∀ slice ∈ r.slices, TakesWholeDrop slice) ∧
      PlaintextsGive env.H base raws r.slices data := by
  obtain ⟨chunks, hflat, hchunks, hslices⟩ := hcovers.slices
  have hcont : Contiguous 0 r.slices data.length := by
    have h := contiguous_slicesFrom (H := env.H) chunks 0 (hchunks hne)
    rwa [Nat.zero_add, hflat, ← hslices] at h
  refine ⟨hcont, ?_, chunks, hflat, ?_, ?_⟩
  · intro slice hslice
    obtain ⟨hlt, hle⟩ := hcont.bounds slice hslice
    exact takesWholeDrop_of_bounds hlt (by omega)
  · rw [hslices]
    exact forall₂_slicesFrom chunks 0
  · intro plaintextOf hplain hcol
    rw [← hflat]
    refine flatMap_plaintexts ?_ ?_ hcol
    · rw [hslices]
      exact forall₂_slicesFrom chunks 0
    · intro slice hslice
      exact hash_of_isPlaintext hraws (hplain slice hslice)

theorem dropsKept_nil {s : WriterState} (hdrops : s.drops = []) (hindex : s.dropIndex = []) :
    DropsKept [] s := by
  refine ⟨?_, ?_, ?_⟩
  · intro id
    rw [hdrops, hindex]
    rfl
  · rw [hdrops]
    exact List.nodup_nil
  · rw [hdrops]
    nofun

section

variable {raws : List RawDrop} {merged s : WriterState} {slabs : List SlabArtifact}

theorem unique_of_kept (hkept : DropsKept raws merged) (hfin : Finishes merged s)
    (hpack : packSlabs env.H s.drops = some slabs) : (slabs.flatMap (·.dropIds)).Nodup := by
  rw [dropIds_of_finishes hfin hpack]
  exact hkept.ids.sublist (List.filter_sublist.map _)

theorem stored_of_kept (hraws : ∀ r ∈ raws, r.Accounted env.H base)
    (hkept : DropsKept raws merged) (hfin : Finishes merged s)
    (hpack : packSlabs env.H s.drops = some slabs) :
    ∀ id ∈ slabs.flatMap (·.dropIds), ∃ r ∈ raws,
      r.id = id ∧ r.codec ≠ codecReferenced ∧ env.H r.plaintext = id := by
  intro id hid
  rw [dropIds_of_finishes hfin hpack] at hid
  obtain ⟨d, hd, rfl⟩ := List.mem_map.mp hid
  obtain ⟨hmem, hcodec⟩ := List.mem_filter.mp hd
  obtain ⟨r, hr, retain, rfl⟩ := hkept.kept d hmem
  have hcodec : r.codec ≠ codecReferenced := by simpa [RawDrop.pending] using hcodec
  have hacc := hraws r hr
  unfold RawDrop.Accounted at hacc
  rw [if_neg hcodec] at hacc
  exact ⟨r, hr, rfl, hcodec, hacc.symm⟩

/-- **A known id is in exactly one slab or in the base**: its drop was kept, and if all that was
kept is a mark, the base has it. -/
theorem closed_of_kept (hraws : ∀ r ∈ raws, r.Accounted env.H base)
    (hkept : DropsKept raws merged) (hfin : Finishes merged s)
    (hpack : packSlabs env.H s.drops = some slabs) {id : Digest} (hid : id ∈ merged.dropIndex) :
    slabs.countP (fun slab => id ∈ slab.dropIds) = 1 ∨ baseContains base id = true := by
  obtain ⟨d, hd, rfl⟩ := List.mem_map.mp ((hkept.index _).mp hid)
  by_cases hmark : d.codec = codecReferenced
  · right
    obtain ⟨r, hr, retain, rfl⟩ := hkept.kept d hd
    have hacc := hraws r hr
    unfold RawDrop.Accounted at hacc
    rw [if_pos (show r.codec = codecReferenced from hmark)] at hacc
    exact hacc
  · left
    refine countP_mem_of_nodup_flatMap (unique_of_kept hkept hfin hpack) ?_
    rw [dropIds_of_finishes hfin hpack]
    exact List.mem_map_of_mem (List.mem_filter.mpr ⟨hd, by simpa using hmark⟩)

theorem wellFormed_of_kept (hkept : DropsKept raws merged) (hfin : Finishes merged s) :
    s.toWriteContext.WellFormed := by
  obtain ⟨-, f, hf, hdrops⟩ := hfin
  have hids : s.drops.map (·.id) = merged.drops.map (·.id) := by
    rw [hdrops, List.map_map]
    exact List.map_congr_left fun d _ => (hf d).1
  refine ⟨?_, ?_⟩
  · rw [hids]
    exact hkept.ids
  · rw [hdrops, List.forall_mem_map]
    intro d hd
    obtain ⟨r, -, retain, rfl⟩ := hkept.kept d hd
    rw [(hf _).2.2]
    exact saturateU32_lt _

end

theorem data_of_pending {tree : SourceTree env.readFile} {s₀ walked : WriterState}
    (hfresh : s₀.Fresh) (hwalk : Walked (tree.survey.files tree.root) s₀ walked)
    {pf : PendingFile} (hpf : pf ∈ walked.pendingFiles) {data : Bytes}
    (hread : env.readFile pf.path = .ok data) :
    data.length = pf.fileLen ∧ data ≠ [] ∧ data.length < 2 ^ 64 := by
  rcases hwalk.pendingFiles pf hpf with hold | ⟨hlong, info, hfile, hinfo⟩
  · rw [hfresh.2.2.2] at hold
    cases hold
  · have hdata : data.length = info.len := tree.agrees _ hfile data hread
    have hlt : info.len < 2 ^ 64 := tree.len_lt _ hfile
    exact ⟨hdata.trans hinfo.symm, List.ne_nil_of_length_pos (by omega), by omega⟩

/-- What merging the files of a walk leaves, before the last step. -/
theorem kept_of_merged {files : List (Path × SurveyMeta)} {workers : Workers env}
    {results : List ChunkedFileResult} {s₀ walked s : WriterState} (hfresh : s₀.Fresh)
    (hwalk : Walked files s₀ walked)
    (hmerged : Merged env workers walked.pendingFiles results walked s) :
    ∃ merged, Finishes merged s ∧ DropsKept (results.flatMap (·.drops)) merged ∧
      merged.inodes = walked.inodes
        ++ (walked.pendingFiles.zip results).map (fun f => fileInode f.1 f.2.slices) ∧
      ∀ r ∈ results.flatMap (·.drops), r.id ∈ merged.dropIndex := by
  obtain ⟨s₁, hinodes₁, hdrops₁, hindex₁, hfin⟩ := hmerged.merged
  have hstart : DropsKept [] s₁ :=
    dropsKept_nil (hdrops₁.trans (hwalk.drops.trans hfresh.2.1))
      (hindex₁.trans (hwalk.dropIndex.trans hfresh.2.2.1))
  obtain ⟨hkept, hinodes, hindex⟩ :=
    mergeFiles_kept env (walked.pendingFiles.zip results) [] s₁ hstart
  have hdrops : (walked.pendingFiles.zip results).flatMap (·.2.drops)
      = results.flatMap (·.drops) := by
    rw [← List.flatMap_map,
      List.map_snd_zip (Nat.le_of_eq (covers_of_merged hmerged).length_eq.symm)]
  rw [List.nil_append, hdrops] at hkept
  rw [hdrops] at hindex
  rw [hinodes₁] at hinodes
  exact ⟨_, hfin, hkept, hinodes, fun r hr => hindex r.id (.inr ⟨r, hr, rfl⟩)⟩

/-- Files walked from a fresh context, compressed and merged, leave nothing open. -/
theorem dropClosure_of_merged {tree : SourceTree env.readFile} {workers : Workers env}
    {results : List ChunkedFileResult} {s₀ walked s : WriterState} {slabs : List SlabArtifact}
    (hfresh : s₀.Fresh) (hwalk : Walked (tree.survey.files tree.root) s₀ walked)
    (hmerged : Merged env workers walked.pendingFiles results walked s)
    (hpack : packSlabs env.H s.drops = some slabs) :
    DropClosure env s₀.baseDropIndex walked.pendingFiles results s slabs := by
  have hcovers := covers_of_merged hmerged
  rw [hwalk.baseDropIndex] at hcovers
  have hraws : ∀ r ∈ results.flatMap (·.drops), r.Accounted env.H s₀.baseDropIndex := by
    intro raw hraw
    obtain ⟨r, hr, hraw⟩ := List.mem_flatMap.mp hraw
    obtain ⟨pf, -, data, -, hcover⟩ := exists_mem_of_forall₂ hcovers r hr
    exact hcover.accounted raw hraw
  obtain ⟨merged, hfin, hkept, hinodes, hindex⟩ := kept_of_merged hfresh hwalk hmerged
  -- an inode with slices is one of those merged
  have hbacked : ∀ inode ∈ s.inodes, ∀ fileLen slices,
      inode.content = .dropBacked fileLen slices →
      ∃ pf r, (pf, r) ∈ walked.pendingFiles.zip results ∧ inode = fileInode pf r.slices := by
    intro inode hinode fileLen slices hcontent
    rw [hfin.1, hinodes] at hinode
    rcases List.mem_append.mp hinode with hold | hnew
    · rcases hwalk.inodes inode hold with hfirst | hplain
      · rw [hfresh.1] at hfirst
        cases hfirst
      · exact absurd hcontent (hplain fileLen slices)
    · obtain ⟨⟨pf, r⟩, hmem, rfl⟩ := List.mem_map.mp hnew
      exact ⟨pf, r, hmem, rfl⟩
  refine ⟨slab_records hpack, unique_of_kept hkept hfin hpack,
    stored_of_kept hraws hkept hfin hpack, ?_, ?_⟩
  · intro inode hinode fileLen slices hcontent slice hslice
    obtain ⟨pf, r, hmem, rfl⟩ := hbacked inode hinode fileLen slices hcontent
    cases hcontent
    obtain ⟨data, -, hcover⟩ := List.forall₂_zip hcovers hmem
    obtain ⟨raw, hraw, hid⟩ := hcover.listed slice hslice
    refine closed_of_kept hraws hkept hfin hpack ?_
    rw [← hid]
    exact hindex raw (List.mem_flatMap.mpr ⟨r, (List.of_mem_zip hmem).2, hraw⟩)
  · intro inode hinode fileLen slices hcontent
    obtain ⟨pf, r, hmem, rfl⟩ := hbacked inode hinode fileLen slices hcontent
    cases hcontent
    have hpf := (List.of_mem_zip hmem).1
    obtain ⟨data, hread, hcover⟩ := List.forall₂_zip hcovers hmem
    obtain ⟨hlen, hne, hlt⟩ := data_of_pending hfresh hwalk hpf hread
    have hslices := slices_of_covers hraws hcover hne hlt
    rw [hlen] at hslices
    exact ⟨pf, hpf, rfl, rfl, data, hread, hlen, hslices⟩

end

/-- A run that walked the tree from `start`, compressed and merged the files that were put off,
and ended in `s` with nothing open. -/
def ClosedRun (env : WriterEnv) (workers : Workers env) (tree : SourceTree env.readFile)
    (start s : WriterState) (slabs : List SlabArtifact) : Prop :=
  ∃ number walked results,
    foldSurvey env tree.root none tree.survey start = .ok (number, walked) ∧
    Merged env workers walked.pendingFiles results walked s ∧
    DropClosure env start.baseDropIndex walked.pendingFiles results s slabs

section

variable {env : WriterEnv} {config : WriteConfig} {workers : Workers env} {sched : Schedule}
  {tree : SourceTree env.readFile}

theorem writeLayer_merges {s₀ s : WriterState}
    (h : writeLayer env config workers sched tree s₀ = .ok s) :
    ∃ number walked results,
      foldSurvey env tree.root none tree.survey s₀ = .ok (number, walked) ∧
      Merged env workers walked.pendingFiles results walked s := by
  obtain ⟨⟨number, walked⟩, hwalk, h⟩ := except_bind_eq_ok.mp h
  obtain ⟨results, hmerged⟩ := writeDirectoryBody_merges h
  exact ⟨number, walked, results, hwalk, hmerged.processed, hmerged.merged⟩

/--
**Every drop a file names is stored once or in the base, and the drops hold the file.**
For every tree, configuration, base, schedule of the workers and state of their caches:
once a layer or a standalone image was written from a fresh context and its slabs are
packed, no id has two records; what a slice names has its record in exactly one slab or
is in the base; the slices of an inode lead from 0 to the length of its file, each taking
its drop from the first byte on for its own length; and the plaintexts of the drops, in
order, are the bytes of the file.
-/
theorem written_drops_closed {s₀ s : WriterState} {slabs : List SlabArtifact}
    (hfresh : s₀.Fresh) (hpack : packSlabs env.H s.drops = some slabs) :
    (writeLayer env config workers sched tree s₀ = .ok s →
      ClosedRun env workers tree s₀ s slabs) ∧
    (writeDirectoryStreaming env config workers sched tree s₀ = .ok s →
      ClosedRun env workers tree (streamingStart config s₀) s slabs) := by
  constructor
  · intro hrun
    obtain ⟨number, walked, results, hwalk, hmerged⟩ := writeLayer_merges hrun
    exact ⟨number, walked, results, hwalk, hmerged,
      dropClosure_of_merged hfresh (foldSurvey_walked _ _ _ _ _ _ hwalk) hmerged hpack⟩
  · intro hrun
    obtain ⟨number, walked, results, hwalk, hmerged⟩ := writeDirectoryStreaming_merges hrun
    have hstart : (streamingStart config s₀).Fresh := hfresh
    exact ⟨number, walked, results, hwalk, hmerged,
      dropClosure_of_merged hstart (foldSurvey_walked _ _ _ _ _ _ hwalk) hmerged hpack⟩

end

namespace Stored

def dirInfo : SurveyMeta := ⟨.directory, 0, 0, 0x41ED, 0, 0, 1, 1, []⟩

def fileInfo (ino len : Nat) : SurveyMeta := ⟨.file, len, 0, 0x81A4, 0, 0, 1, ino, []⟩

/-- Two files that start with the same three bytes. -/
def treeFiles (path : Path) : Except String Bytes :=
  if path = [[0x61]] then .ok [1, 2, 3, 4, 5, 6, 7, 8]
  else if path = [[0x62]] then .ok [1, 2, 3, 4, 9]
  else .error "No such file or directory (os error 2)"

def survey : SurveyNode :=
  .node dirInfo (.cons [0x61] (.node (fileInfo 2 8) .nil none)
    (.cons [0x62] (.node (fileInfo 3 5) .nil none) .nil)) none

def writerEnv : WriterEnv where
  H := digest
  z := omnizip
  classify := fun _ => .text
  builtinCategorize := fun _ _ => none
  trainDictionary := fun _ _ _ _ => none
  readFile := treeFiles
  threads := 1

def sourceTree : SourceTree writerEnv.readFile where
  root := []
  survey := survey
  agrees := by
    intro f hf data hread
    simp only [survey, SurveyNode.files, SurveyChildren.files, dirInfo, fileInfo, if_true,
      List.nil_append, List.append_nil, List.singleton_append, List.mem_cons,
      List.not_mem_nil, or_false, reduceCtorEq, if_false] at hf
    rcases hf with rfl | rfl
    · cases hread
      rfl
    · cases hread
      rfl
  len_lt := by decide

def writeConfig : WriteConfig where
  defaults := ⟨"store", "store", "brotli", 1000 * 1024, true, true, 0, 0⟩
  categorizers := []
  chunking := ⟨2, 1, 4⟩
  tournament := ⟨[], 0, true, 250⟩
  codecTunables := tunables
  skipChunking := false
  dictionaries := ⟨false, 0, 0, "frequency"⟩

/-- A base that has one of the chunks. -/
def layerStart : WriterState :=
  { WriterState.new with
    inlineThreshold := 0
    baseDropIndex := some fun id => id = digest [4, 5]
    baseRoot := some (digest []) }

end Stored

open LimniFS.Stored

theorem exists_packed {H : Hash} {x : Except WriteStop WriterState}
    (h : (x.toOption.bind fun s => packSlabs H s.drops).isSome = true) :
    ∃ s slabs, x = .ok s ∧ packSlabs H s.drops = some slabs := by
  cases x with
  | error e => cases h
  | ok s =>
      obtain ⟨slabs, hslabs⟩ := Option.isSome_iff_exists.mp h
      exact ⟨s, slabs, rfl, hslabs⟩

/-- A layer of the two files over that base. -/
theorem written_drops_closed_layer :
    ∃ s slabs, writeLayer writerEnv writeConfig (fun _ _ => .empty) .sequential
        sourceTree Stored.layerStart = .ok s ∧
      packSlabs writerEnv.H s.drops = some slabs ∧
      ClosedRun writerEnv (fun _ _ => .empty) sourceTree Stored.layerStart s
        slabs := by
  obtain ⟨s, slabs, hrun, hpack⟩ := exists_packed (H := writerEnv.H)
    (x := writeLayer writerEnv writeConfig (fun _ _ => .empty) .sequential
      sourceTree Stored.layerStart) (by decide +kernel)
  exact ⟨s, slabs, hrun, hpack, (written_drops_closed ⟨rfl, rfl, rfl, rfl⟩ hpack).1 hrun⟩

section

variable {env : WriterEnv} {config : WriteConfig} {workers : Workers env} {sched : Schedule}
  {tree : SourceTree env.readFile}

/-- **What the writer leaves is a context other passes may rely on**: an id is kept once, and
lengths are `u32`. -/
theorem written_wellFormed {s₀ s : WriterState} (hfresh : s₀.Fresh)
    (hrun : writeLayer env config workers sched tree s₀ = .ok s ∨
      writeDirectoryStreaming env config workers sched tree s₀ = .ok s) :
    s.toWriteContext.WellFormed := by
  rcases hrun with hrun | hrun
  · obtain ⟨number, walked, results, hwalk, hmerged⟩ := writeLayer_merges hrun
    obtain ⟨merged, hfin, hkept, -, -⟩ :=
      kept_of_merged hfresh (foldSurvey_walked _ _ _ _ _ _ hwalk) hmerged
    exact wellFormed_of_kept hkept hfin
  · obtain ⟨number, walked, results, hwalk, hmerged⟩ := writeDirectoryStreaming_merges hrun
    have hstart : (streamingStart config s₀).Fresh := hfresh
    obtain ⟨merged, hfin, hkept, -, -⟩ :=
      kept_of_merged hstart (foldSurvey_walked _ _ _ _ _ _ hwalk) hmerged
    exact wellFormed_of_kept hkept hfin

end

end LimniFS
