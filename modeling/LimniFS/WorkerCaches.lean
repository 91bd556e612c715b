/-
The caches of the workers.

A worker keeps what it compressed, by the id of the chunk alone, and the caches outlive
a write.  What a cache holds at some point of a process is what the writes before left
in it and what this write has added so far.  If no chunk that was compressed before has
another outcome under the options of now, then at any point of the write no cache
answers anything but the tournament's own outcome (`Run.agrees`), and the result of a
file is the one it has with empty caches (`processFile_of_agrees`).
-/
import LimniFS.Lib.FiniteMap
import LimniFS.WrittenDrops

namespace LimniFS

open Lib

/-! ### What a write compresses -/

/-- What the tournament makes of a chunk under these options. -/
def outcome (env : WriterEnv) (o : ProcessOptions) (chunk : Bytes) : UInt8 × Bytes :=
  compressChunkWithTournament env.z chunk (env.classify chunk) o.textCodec o.binaryCodec
    o.tunables o.tournament

/-- The chunks of a file that a worker has to compress: none if the file becomes one drop, and
none that the base has. -/
def tournamentChunks (env : WriterEnv) (o : ProcessOptions) (pf : PendingFile) : List Bytes :=
  match env.readFile pf.path with
  | .error _ => []
  | .ok data =>
    if o.skipChunking = true ∧ o.inlineThreshold < data.length then []
    else
      match categorizerClaim env o pf.path data with
      | some _ => []
      | none =>
        match o.chunker.chunkSlice env.threads data with
        | none => []
        | some chunks =>
          (scanChunks env.H chunks 0 []).2.filter fun c => !baseContains o.baseDropIndex (env.H c)

/-- What a write gives its workers. -/
structure Work where
  options : ProcessOptions
  files : List PendingFile

def Work.chunks (env : WriterEnv) (work : Work) : List Bytes :=
  work.files.flatMap (tournamentChunks env work.options)

/-! ### The caches over time -/

section

variable (env : WriterEnv)

/-- From `cache` a worker has come to hold another one by compressing some of the chunks. -/
inductive Grown (o : ProcessOptions) (chunks : List Bytes) (cache : CompressCache env.H env.z) :
    CompressCache env.H env.z → Prop where
  | held : Grown o chunks cache cache
  | took {grown : CompressCache env.H env.z} {chunk : Bytes} (h : Grown o chunks cache grown)
      (hchunk : chunk ∈ chunks) : Grown o chunks cache (compressCached env o grown chunk).2

/-- An earlier write of the process, finished or not: its options and the chunks that its workers
compressed. -/
structure PastWrite where
  options : ProcessOptions
  chunks : List Bytes

/-- What the threads of the process hold after some writes. -/
inductive Held : List PastWrite → (Nat → CompressCache env.H env.z) → Prop where
  | start : Held [] fun _ => .empty
  | wrote {past : List PastWrite} {pool pool' : Nat → CompressCache env.H env.z}
      {write : PastWrite} (h : Held past pool)
      (hgrown : ∀ thread, Grown env write.options write.chunks (pool thread) (pool' thread)) :
      Held (past ++ [write]) pool'

/-- A write in a process: what was written before, what the threads hold, which caches the
chunks meet, and the order in which the tasks finish. -/
structure Run (work : Except WriteStop Work) where
  past : List PastWrite
  pool : Nat → CompressCache env.H env.z
  held : Held env past pool
  workers : Workers env
  grown : ∀ job, work = .ok job → ∀ file chunk, ∃ thread,
    Grown env job.options (job.chunks env) (pool thread) (workers file chunk)
  sched : Schedule

/-- **The condition**: a chunk that an earlier write compressed has the same outcome now. -/
def Run.Consistent {work : Except WriteStop Work} (run : Run env work) : Prop :=
  ∀ job, work = .ok job → ∀ write ∈ run.past, ∀ chunk ∈ write.chunks, chunk ∈ job.chunks env →
    outcome env write.options chunk = outcome env job.options chunk

/-- No two chunks the process compressed have one id. -/
def Run.NoCollision {work : Except WriteStop Work} (run : Run env work) : Prop :=
  ∀ job, work = .ok job →
    LimniFS.NoCollision env.H (job.chunks env ++ run.past.flatMap (·.chunks))

end

/-- For these chunks the cache has nothing, or what the tournament gives now. -/
def CompressCache.Agrees (env : WriterEnv) (o : ProcessOptions) (chunks : List Bytes)
    (cache : CompressCache env.H env.z) : Prop :=
  MemoAgrees env.H (outcome env o) chunks cache.entries

section

variable {env : WriterEnv} {o : ProcessOptions} {chunks : List Bytes}
  {cache : CompressCache env.H env.z}

theorem agrees_empty : CompressCache.empty.Agrees env o chunks :=
  memoAgrees_nil _ _ _

/-- Compressing a chunk leaves the cache as it was or adds the chunk's outcome. -/
theorem compressCached_entries (o : ProcessOptions) (cache : CompressCache env.H env.z)
    (chunk : Bytes) :
    (compressCached env o cache chunk).2.entries = cache.entries ∨
    (compressCached env o cache chunk).2.entries
      = (env.H chunk, outcome env o chunk) :: cache.entries := by
  unfold compressCached
  simp only
  split
  · exact .inl rfl
  · unfold CompressCache.remember
    split
    · exact .inr rfl
    · exact .inl rfl

theorem agrees_compressCached {o' : ProcessOptions} {chunk : Bytes}
    (h : cache.Agrees env o chunks)
    (hsame : ∀ c ∈ chunks, env.H c = env.H chunk → outcome env o' chunk = outcome env o c) :
    (compressCached env o' cache chunk).2.Agrees env o chunks := by
  unfold CompressCache.Agrees
  rcases compressCached_entries o' cache chunk with hsame' | hnew
  · rw [hsame']
    exact h
  · rw [hnew]
    exact memoAgrees_cons h hsame

theorem agrees_of_grown {o' : ProcessOptions} {chunks' : List Bytes}
    {grown : CompressCache env.H env.z} (hgrown : Grown env o' chunks' cache grown)
    (h : cache.Agrees env o chunks)
    (hsame : ∀ chunk ∈ chunks', ∀ c ∈ chunks, env.H c = env.H chunk →
      outcome env o' chunk = outcome env o c) :
    grown.Agrees env o chunks := by
  induction hgrown with
  | held => exact h
  | took _ hchunk ih => exact agrees_compressCached ih (hsame _ hchunk)

theorem agrees_of_held {past : List PastWrite} {pool : Nat → CompressCache env.H env.z}
    (hheld : Held env past pool)
    (hsame : ∀ write ∈ past, ∀ chunk ∈ write.chunks, ∀ c ∈ chunks, env.H c = env.H chunk →
      outcome env write.options chunk = outcome env o c) :
    ∀ thread, (pool thread).Agrees env o chunks := by
  induction hheld with
  | start => intro thread; exact agrees_empty
  | @wrote past pool pool' write hbefore hgrown ih =>
      intro thread
      have hpast := ih fun w hw => hsame w (List.mem_append_left _ hw)
      exact agrees_of_grown (hgrown thread) (hpast thread)
        (hsame write (List.mem_append_right _ (List.mem_singleton.mpr rfl)))

/-- **In a consistent run no cache is stale**, at any time. -/
theorem Run.agrees {work : Except WriteStop Work} {run : Run env work}
    (hcons : run.Consistent) (hcol : run.NoCollision) (job : Work) (hwork : work = .ok job) :
    ∀ file chunk, (run.workers file chunk).Agrees env job.options (job.chunks env) := by
  intro file chunk
  have hcol := hcol job hwork
  obtain ⟨thread, hgrown⟩ := run.grown job hwork file chunk
  have hpool : (run.pool thread).Agrees env job.options (job.chunks env) := by
    refine agrees_of_held run.held ?_ thread
    intro write hwrite c hc c' hc' hid
    have heq : c' = c := hcol c' (List.mem_append_left _ hc') c
      (List.mem_append_right _ (List.mem_flatMap.mpr ⟨write, hwrite, hc⟩)) hid
    subst heq
    exact hcons job hwork write hwrite c' hc hc'
  refine agrees_of_grown hgrown hpool ?_
  intro c hc c' hc' hid
  rw [hcol c' (List.mem_append_left _ hc') c (List.mem_append_left _ hc) hid]

/-! ### A cache that agrees is not seen -/

theorem CompressCache.Agrees.mono {chunks' : List Bytes} (h : cache.Agrees env o chunks)
    (hsub : ∀ c ∈ chunks', c ∈ chunks) : cache.Agrees env o chunks' :=
  fun c hc => h c (hsub c hc)

theorem compressCached_of_agrees (h : cache.Agrees env o chunks) {chunk : Bytes}
    (hchunk : chunk ∈ chunks) : (compressCached env o cache chunk).1 = outcome env o chunk := by
  unfold compressCached
  simp only
  split
  · next hit hhit => exact h chunk hchunk hit hhit
  · rfl

theorem chunkDrop_of_agrees {chunk : Bytes}
    (h : baseContains o.baseDropIndex (env.H chunk) = false →
      (compressCached env o cache chunk).1 = outcome env o chunk) :
    (chunkDrop env o cache chunk).1 = (chunkDrop env o .empty chunk).1 := by
  have hempty : (compressCached env o .empty chunk).1 = outcome env o chunk := rfl
  unfold chunkDrop
  simp only
  by_cases hbase : baseContains o.baseDropIndex (env.H chunk) = true
  · rw [if_pos hbase, if_pos hbase]
  · rw [if_neg hbase, if_neg hbase, hempty, h (by simpa using hbase)]

theorem processFile_of_agrees {pf : PendingFile} {caches : Nat → CompressCache env.H env.z}
    (h : ∀ i, (caches i).Agrees env o (tournamentChunks env o pf)) :
    processFile env o caches pf = processFile env o (fun _ => .empty) pf := by
  unfold tournamentChunks at h
  unfold processFile
  split
  · rfl
  · next data hread =>
      rw [hread] at h
      simp only at h
      split
      · rfl
      · next hgate =>
          rw [if_neg hgate] at h
          split
          · rfl
          · next hclaim =>
              rw [hclaim] at h
              simp only at h
              split
              · rfl
              · next split hsplit =>
                  rw [hsplit] at h
                  refine congrArg Except.ok ?_
                  unfold processChunks chunkDrops
                  simp only [ChunkedFileResult.mk.injEq, and_true]
                  refine List.mapIdx_eq_mapIdx_iff.mpr ?_
                  intro i hi
                  refine chunkDrop_of_agrees fun hbase => ?_
                  refine compressCached_of_agrees (h i) (List.mem_filter.mpr ⟨?_, ?_⟩)
                  · exact List.getElem_mem hi
                  · rw [hbase]
                    rfl

end

end LimniFS
