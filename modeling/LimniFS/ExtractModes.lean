/-
Extracting a file drop by drop, or window by window.

With parallel decoding the drops of a file are decoded in batches and each is written whole;
without it the file is copied through a buffer, which is filled from the ranges that the
slices cover.  Both go through the cached store of the opened image.

The drops that are decoded do not depend on what else is asked of the store in the meantime
(`parallelOutput_iff`), and a window that is filled holds what it would hold without a
cache (`Sound.fillWindow`).
-/
import LimniFS.CachedWindows
import LimniFS.ReadWindow

namespace LimniFS

open Lib Lib.Parser

namespace CachedSlabStore

/-! ### The two modes -/

section
variable (H : Hash) (z : Omnizip)

/-- The loop of `read_window_into` over the slices, on a cached store; `none` is a panic. -/
def fillWindow (offset n windowEnd : Nat) :
    List SliceRef → CachedSlabStore → Bytes → Option (CachedSlabStore × Except CoreError Bytes)
  | [], s, filled => some (s, .ok filled)
  | slice :: rest, s, filled =>
    if slice.fileByteEnd ≤ offset ∨ windowEnd ≤ slice.fileByteStart then
      fillWindow offset n windowEnd rest s filled
    else
      let fromAbs := max offset slice.fileByteStart
      let want := min windowEnd slice.fileByteEnd - fromAbs
      if want = 0 then fillWindow offset n windowEnd rest s filled
      else if n < filled.length + want then none
      else
        match s.decodedRangeInto H z slice.dropId (fromAbs - slice.fileByteStart)
            (List.replicate want 0) with
        | none => none
        | some (s, _, none) =>
          some (s, .error (.corrupt "slice references a drop missing from every slab"))
        | some (s, _, some (.error e)) => some (s, .error e)
        | some (s, buf, some (.ok k)) =>
          if (filled ++ buf.take k).length = n ∨ windowEnd ≤ slice.fileByteEnd then
            some (s, .ok (filled ++ buf.take k))
          else fillWindow offset n windowEnd rest s (filled ++ buf.take k)

/-- `io::copy` from a `FileReader` at `pos`, with a buffer of `n` bytes. -/
def copyFile (slices : List SliceRef) (n : Nat) :
    Nat → CachedSlabStore → Nat → Bytes → Option (Except CoreError Bytes)
  | 0, _, _, _ => none
  | fuel + 1, s, pos, out =>
    match s.fillWindow H z pos n (windowEnd pos n) slices [] with
    | none => none
    | some (_, .error e) => some (.error e)
    | some (s, .ok got) =>
      if got = [] then some (.ok out)
      else copyFile slices n fuel s (pos + got.length) (out ++ got)

/-- What `decoded` can answer, whatever else is called before it. -/
def Answers (start : CachedSlabStore) (dropId : Digest) (answer : Option (Except CoreError Bytes)) :
    Prop :=
  ∃ calls s s', start.run H z calls = some s ∧ s.decoded z dropId = some (s', answer)

/-- Batches of up to eight drops, each written in order before the next is decoded. -/
inductive ParallelOutput (start : CachedSlabStore) : List SliceRef → Bytes → Prop
  | done : ParallelOutput start [] []
  | batch {slices : List SliceRef} {decoded : List Bytes} {out : Bytes} (more : slices ≠ [])
      (drops : List.Forall₂ (fun slice bytes => start.Answers H z slice.dropId (some (.ok bytes)))
        (slices.take 8) decoded)
      (rest : ParallelOutput start (slices.drop 8) out) :
      ParallelOutput start slices (decoded.flatten ++ out)

/-- What `extract_file` writes of a file in slices, when it succeeds. -/
def Extracts (start : CachedSlabStore) (slices : List SliceRef) (parallelDecode : Bool) (n : Nat)
    (out : Bytes) : Prop :=
  if parallelDecode ∧ 1 < slices.length then ParallelOutput H z start slices out
  else ∃ fuel, copyFile H z slices n fuel start 0 [] = some (.ok out)

/-- Where both modes succeed they write the same, whatever the size of the copy's buffer. -/
def ModesAgree (start : CachedSlabStore) (slices : List SliceRef) : Prop :=
  ∀ n, 0 < n → ∀ out out', Extracts H z start slices true n out →
    Extracts H z start slices false n out' → out = out'

end

/-! ### Whole drops -/

section
variable {H : Hash} {z : Omnizip} {store : SlabStore} {s : CachedSlabStore} {dropId : Digest}

theorem Sound.answers (h : Sound H z store s) {answer : Option (Except CoreError Bytes)} :
    s.Answers H z dropId answer ↔ store.plaintextFor z dropId = answer := by
  constructor
  · rintro ⟨calls, mid, s', hrun, hdecoded⟩
    obtain ⟨s'', hanswer, -⟩ := (h.run calls hrun).decoded dropId
    rw [hdecoded] at hanswer
    exact (congrArg Prod.snd (Option.some.inj hanswer)).symm
  · rintro rfl
    obtain ⟨s', hdecoded, -⟩ := h.decoded dropId
    exact ⟨[], s, s', rfl, hdecoded⟩

theorem Sound.parallelOutput_iff (h : Sound H z store s) {slices : List SliceRef} {out : Bytes} :
    ParallelOutput H z s slices out ↔
      Readable (store.plaintextFor z) slices ∧
        out = (slices.map (plainOf (store.plaintextFor z))).flatten := by
  have hbatch : ∀ (batch : List SliceRef) (decoded : List Bytes),
      List.Forall₂ (fun slice bytes => s.Answers H z slice.dropId (some (.ok bytes))) batch decoded ↔
        Readable (store.plaintextFor z) batch ∧
          decoded = batch.map (plainOf (store.plaintextFor z)) := by
    intro batch
    induction batch with
    | nil =>
        intro decoded
        simp [Readable]
    | cons slice rest ih =>
        intro decoded
        rw [List.forall₂_cons_left_iff]
        constructor
        · rintro ⟨bytes, tail, hanswer, htail, rfl⟩
          obtain ⟨hrest, rfl⟩ := (ih tail).mp htail
          have hbytes := h.answers.mp hanswer
          rw [List.map_cons, plainOf_eq hbytes]
          exact ⟨List.forall_mem_cons.mpr ⟨by rw [hbytes, plainOf_eq hbytes], hrest⟩, rfl⟩
        · rintro ⟨hread, rfl⟩
          obtain ⟨hslice, hrest⟩ := List.forall_mem_cons.mp hread
          exact ⟨_, _, h.answers.mpr hslice, (ih _).mpr ⟨hrest, rfl⟩, rfl⟩
  constructor
  · intro hout
    induction hout with
    | done => exact ⟨fun _ hin => absurd hin List.not_mem_nil, rfl⟩
    | @batch slices decoded out _ drops _ ih =>
        obtain ⟨hfront, rfl⟩ := (hbatch _ _).mp drops
        obtain ⟨hrest, rfl⟩ := ih
        refine ⟨fun slice hin => ?_, ?_⟩
        · rw [← List.take_append_drop 8 slices] at hin
          exact (List.mem_append.mp hin).elim (hfront slice) (hrest slice)
        · rw [← List.flatten_append, ← List.map_append, List.take_append_drop]
  · rintro ⟨hread, rfl⟩
    induction hn : slices.length using Nat.strongRecOn generalizing slices with
    | ind n ih =>
        by_cases hnil : slices = []
        · subst hnil
          exact ParallelOutput.done
        · have hpos := List.length_pos_iff.mpr hnil
          rw [← List.take_append_drop 8 slices, List.map_append, List.flatten_append]
          rw [List.take_append_drop]
          refine ParallelOutput.batch hnil ((hbatch _ _).mpr
            ⟨fun slice hin => hread slice (List.mem_of_mem_take hin), rfl⟩) ?_
          refine ih (slices.drop 8).length ?_
            (fun slice hin => hread slice (List.mem_of_mem_drop hin)) rfl
          rw [List.length_drop]
          omega

/-! ### Windows -/

theorem copyFrom_take (full : Bytes) (off : Nat) (buf : Bytes) :
    (copyFrom full off buf).1.take (copyFrom full off buf).2 = (full.drop off).take buf.length := by
  rw [copyFrom_eq, copyAt, List.take_zero, List.nil_append]
  have hlen : ((full.drop off).take (min buf.length (full.length - off))).length =
      min buf.length (full.length - off) := by
    rw [List.length_take, List.length_drop]
    omega
  rw [List.take_left' hlen, List.take_eq_take_iff, List.length_drop]
  omega

/-- A range that is answered is the drop's, from wherever it is asked for. -/
theorem Sound.decodedRangeInto_took (h : Sound H z store s) (hcol : NoCollision H store.frameNames)
    (hexact : store.ExactContainers z) {p : Bytes}
    (hplain : store.plaintextFor z dropId = some (.ok p)) {off : Nat} {buf buf' : Bytes}
    (hbuf : buf ≠ []) (hfit : off + buf.length < 2 ^ 64) {s' : CachedSlabStore} {k : Nat}
    (hcall : s.decodedRangeInto H z dropId off buf = some (s', buf', some (.ok k))) :
    buf'.take k = (p.drop off).take buf.length := by
  have hcopied : ∀ s'', s.decodedRangeInto H z dropId off buf =
      some (s'', (copyFrom p off buf).1, some (.ok (copyFrom p off buf).2)) →
        buf'.take k = (p.drop off).take buf.length := by
    intro s'' hcopy
    rw [hcall] at hcopy
    cases hcopy
    exact copyFrom_take p off buf
  by_cases hoff : off ≤ p.length
  · obtain ⟨s'', hcopy⟩ := h.decodedRangeInto_window hcol hexact hplain hoff hfit
    exact hcopied s'' hcopy
  · by_cases hwhole : store.dropIsSeekable dropId = some false ∨
        (s.cache.entries.lookup dropId).isSome
    · obtain ⟨s'', hcopy⟩ := h.decodedRangeInto_whole hplain hwhole off buf
      exact hcopied s'' hcopy
    · obtain ⟨hnot, hcold⟩ := not_or.mp hwhole
      obtain ⟨raw, record, hwindow, -⟩ := SlabStore.plaintextFor_ok hplain
      have hseek : store.dropIsSeekable dropId = some true := by
        rw [SlabStore.dropIsSeekable_eq hwindow] at hnot ⊢
        simpa using hnot
      obtain ⟨raw, record, footer, plains, hcontainer, -, -, rfl, hlens⟩ :=
        SlabStore.container_of_seekable hseek hplain
      have htotal : plains.flatten.length = footer.totalUncomp := by
        rw [List.length_flatten, hlens hexact]
        rfl
      have hpast : footer.totalUncomp < off := by
        rw [← htotal]
        exact Nat.lt_of_not_le hoff
      refine absurd ?_ (h.decodedRangeInto_past hcontainer hseek
        (Option.not_isSome_iff_eq_none.mp hcold) hpast hbuf k buf')
      rw [hcall]
      rfl

/-- **A window that the cached store fills is the window of the drops.** -/
theorem Sound.fillWindow (hcol : NoCollision H store.frameNames) (hexact : store.ExactContainers z)
    {offset n windowEnd : Nat} : ∀ {slices : List SliceRef} {s s' : CachedSlabStore}
      {filled out : Bytes}, Sound H z store s → Readable (store.plaintextFor z) slices →
      (∀ slice ∈ slices, slice.fileByteEnd < 2 ^ 64) →
      s.fillWindow H z offset n windowEnd slices filled = some (s', .ok out) →
      LimniFS.fillWindow (store.plaintextFor z) offset n windowEnd slices filled = some (.ok out) ∧
        Sound H z store s' := by
  intro slices
  induction slices with
  | nil =>
      intro s s' filled out h _ _ hfill
      cases hfill
      exact ⟨rfl, h⟩
  | cons slice rest ih =>
      intro s s' filled out h hread hlt hfill
      obtain ⟨hslice, hrest⟩ := List.forall_mem_cons.mp hread
      obtain ⟨hend, hltrest⟩ := List.forall_mem_cons.mp hlt
      rw [CachedSlabStore.fillWindow] at hfill
      rw [LimniFS.fillWindow.eq_2]
      by_cases hskip : slice.fileByteEnd ≤ offset ∨ windowEnd ≤ slice.fileByteStart
      · rw [if_pos hskip] at hfill ⊢
        exact ih h hrest hltrest hfill
      · rw [if_neg hskip] at hfill ⊢
        simp only at hfill ⊢
        by_cases hwant : min windowEnd slice.fileByteEnd - max offset slice.fileByteStart = 0
        · rw [if_pos hwant] at hfill ⊢
          exact ih h hrest hltrest hfill
        · rw [if_neg hwant] at hfill ⊢
          by_cases hroom : n < filled.length +
              (min windowEnd slice.fileByteEnd - max offset slice.fileByteStart)
          · rw [if_pos hroom] at hfill
            cases hfill
          · rw [if_neg hroom] at hfill ⊢
            generalize hcall : s.decodedRangeInto H z slice.dropId _ _ = answer at hfill
            rcases answer with _ | ⟨mid, buf, _ | e | k⟩
            · cases hfill
            · cases hfill
            · cases hfill
            · have hmid := h.decodedRangeInto hcall
              have htook := h.decodedRangeInto_took hcol hexact hslice
                (by simpa using hwant) (by rw [List.length_replicate]; omega) hcall
              rw [List.length_replicate] at htook
              rw [decodedRangeInto_readable hslice hwant, ← htook]
              simp only at hfill ⊢
              split at hfill
              · next hstop =>
                  rw [if_pos hstop]
                  cases hfill
                  exact ⟨rfl, hmid⟩
              · next hstop =>
                  rw [if_neg hstop]
                  exact ih hmid hrest hltrest hfill

end

end CachedSlabStore

end LimniFS
