/-
A paged read is a range of the object.

The slots of the range are all filled once the missing pages are fetched, and putting them
together gives the range, wherever the object ends.  So a read returns the same bytes
whatever is cached and whether the length is unknown, learned or pinned, and the state it
leaves is sound again: `read_is_transparent_iff` is that over every run of calls.  Before a page is
fetched there is a vector for all of them, and one for the bytes before they are put together, and a
read whose length is made up does not fit them.

A page is cached only if the object reaches into it and its end fits a word (`Fetched`), and
looking pages up changes their order only.  The missing pages of a range fall into runs; the
reader may refuse one that ends at a cached page (`RunRefused`), or the last (`LastRefused`).
-/
import LimniFS.PagedBytes

namespace LimniFS

open Lib

namespace PagedBytes

variable {object : Bytes} {p : PagedBytes}

/-! ### Whole reads -/

/-- **The slots of a range are put together to the range.** -/
theorem assemble_spec (object : Bytes) {offset stop : Nat} : ∀ (n index : Nat),
    offset < (index + 1) * pagedPageSize → (n ≠ 0 → (index + n - 1) * pagedPageSize < stop) →
    stop ≤ (index + n) * pagedPageSize →
    (assemble offset stop index (slots pagedPageSize object index n) = none ∧
      2 ^ 64 ≤ (index + n) * pagedPageSize) ∨
    assemble offset stop index (slots pagedPageSize object index n)
      = some (window object (max offset (index * pagedPageSize)) stop) := by
  intro n
  induction n with
  | zero =>
      intro index _ _ hstop
      right
      rw [window_empty (by rw [Nat.add_zero] at hstop; omega)]
      rfl
  | succ n ih =>
      intro index hoffset hlast hstop
      have hmono : (index + 1) * pagedPageSize ≤ (index + (n + 1)) * pagedPageSize :=
        Nat.mul_le_mul_right _ (by omega)
      have hstart : index * pagedPageSize < stop :=
        Nat.lt_of_le_of_lt (Nat.mul_le_mul_right _ (by omega)) (hlast (Nat.succ_ne_zero n))
      have hnext : (index + 1) * pagedPageSize = index * pagedPageSize + pagedPageSize :=
        Nat.succ_mul index pagedPageSize
      have hih := ih (index + 1) (Nat.lt_of_lt_of_le hoffset (Nat.mul_le_mul_right _ (by omega)))
        (fun _ => by
          rw [show index + 1 + n - 1 = index + (n + 1) - 1 by omega]
          exact hlast (Nat.succ_ne_zero n))
        (by rwa [show index + 1 + n = index + (n + 1) by omega])
      rw [show index + 1 + n = index + (n + 1) by omega] at hih
      rw [slots, slot]
      by_cases hpast : object.length ≤ index * pagedPageSize
      · right
        rw [if_pos hpast, window_past (by omega)]
        rfl
      · rw [if_neg hpast]
        have hpage : (page pagedPageSize object index).length
            = min pagedPageSize (object.length - index * pagedPageSize) :=
          page_length object index
        have hpos : 0 < pagedPageSize := by decide
        unfold assemble
        simp only
        generalize hbegin : index * pagedPageSize = begin at *
        by_cases hover : 2 ^ 64 ≤ begin + pagedPageSize
        · rw [if_pos hover]
          exact Or.inl ⟨rfl, by omega⟩
        · rw [if_neg hover, hpage]
          have hlo : begin + (max offset begin - begin) = max offset begin := by omega
          have hcut : ∀ available, available ≤ pagedPageSize →
              ((page pagedPageSize object index).take available).drop (max offset begin - begin)
                = window object (max offset begin) (begin + available) := by
            intro available havailable
            rw [page, hbegin, window_cut object havailable, hlo]
          by_cases hshort : min (min pagedPageSize (object.length - begin))
              (min stop (begin + pagedPageSize) - begin) ≤ max offset begin - begin
          · -- the range or the object ends in front of this page
            right
            rw [if_pos hshort]
            by_cases hrange : stop ≤ max offset begin
            · rw [window_empty hrange]
            · rw [window_past (by omega)]
          · rw [if_neg hshort, hcut _ (by omega)]
            by_cases hends : min (min pagedPageSize (object.length - begin))
                (min stop (begin + pagedPageSize) - begin)
                < min stop (begin + pagedPageSize) - begin
            · -- the object ends in this page
              right
              rw [if_pos hends, window_clamp (by omega), window_clamp (by omega)]
            · rw [if_neg hends]
              rcases hih with ⟨hnone, hover⟩ | hsome
              · rw [hnone]
                exact Or.inl ⟨rfl, hover⟩
              · right
                have hmax : max offset (begin + pagedPageSize) = begin + pagedPageSize := by omega
                rw [hsome, Option.map_some, hnext, hmax]
                by_cases hinside : stop ≤ begin + pagedPageSize
                · have hto : begin + min (min pagedPageSize (object.length - begin))
                      (min stop (begin + pagedPageSize) - begin) = stop := by omega
                  rw [window_empty hinside, List.append_nil, hto]
                · have hto : begin + min (min pagedPageSize (object.length - begin))
                      (min stop (begin + pagedPageSize) - begin) = begin + pagedPageSize := by omega
                  rw [hto, window_join object (by omega) (by omega)]

/-- The vector of the pages of a range, and the one of its bytes. -/
def VectorsFit (memory offset stop : Nat) : Prop :=
  Allocates memory (pageCount offset stop * pageSlotBytes) ∧ Allocates memory (stop - offset)

/-- Nothing is read, or both vectors fit. -/
def Reserves (memory : Nat) (p : PagedBytes) (offset len : Nat) : Prop :=
  p.clamp (offset + len) ≤ offset ∨ VectorsFit memory offset (p.clamp (offset + len))

/-- The first page of a range reaches over its begin, and the last one is the one its end is in. -/
theorem pageCount_bounds {offset stop : Nat} (hpast : offset < stop) :
    offset / pagedPageSize * pagedPageSize ≤ offset ∧
      offset < (offset / pagedPageSize + 1) * pagedPageSize ∧
      (offset / pagedPageSize + pageCount offset stop - 1) * pagedPageSize < stop ∧
      stop ≤ (offset / pagedPageSize + pageCount offset stop) * pagedPageSize ∧
      (offset / pagedPageSize + pageCount offset stop) * pagedPageSize < stop + pagedPageSize := by
  have horder : offset / pagedPageSize ≤ (stop - 1) / pagedPageSize :=
    Nat.div_le_div_right (by omega)
  have hcount : offset / pagedPageSize + pageCount offset stop = (stop - 1) / pagedPageSize + 1 := by
    unfold pageCount
    omega
  rw [hcount, Nat.add_sub_cancel]
  unfold pagedPageSize
  omega

/-- Either all pages of the range are there then, or its last page ends behind all addresses. -/
theorem Sound.fetch_pages (h : Sound object p) {offset stop : Nat} (hpast : offset < stop)
    (hknown : p.len = unknownLen ∨ stop ≤ p.len) {cache : PageCache} {pages : List (Option Bytes)}
    (hsnap : p.cache.snapshot (List.range' (offset / pagedPageSize) (pageCount offset stop))
      = (cache, pages)) :
    (fetchPages fetchRun (pageCount offset stop) { p with cache } (offset / pagedPageSize) pages
        = none ∧ 2 ^ 64 - pagedPageSize < stop) ∨
    ∃ p', fetchPages fetchRun (pageCount offset stop) { p with cache } (offset / pagedPageSize) pages
        = some (p', .ok (slots pagedPageSize object (offset / pagedPageSize) (pageCount offset stop))) ∧
      Sound object p' := by
  obtain ⟨-, -, hlast, -, hend⟩ := pageCount_bounds hpast
  obtain ⟨hcache, hpartly, hlen⟩ := h.cache.snapshot (pageCount offset stop) (offset / pagedPageSize)
  rw [hsnap] at hcache hpartly hlen
  have hfetch := @fetchPages_spec object (pageCount offset stop) { p with cache } _ pages
    (Nat.le_of_eq hlen) ⟨h.reader, h.len, hcache⟩ hpartly
    (hknown.imp id fun hknown => .inr (by rw [hlen]; exact (Nat.le_of_lt hlast).trans hknown))
  rw [hlen] at hfetch
  exact hfetch.imp (And.imp_right fun hover => by omega) id

/-- The pages of a range are put together to the range. -/
theorem assemble_pages (object : Bytes) {offset stop : Nat} (hpast : offset < stop) :
    (assemble offset stop (offset / pagedPageSize)
        (slots pagedPageSize object (offset / pagedPageSize) (pageCount offset stop)) = none ∧
      2 ^ 64 - pagedPageSize < stop) ∨
    assemble offset stop (offset / pagedPageSize)
        (slots pagedPageSize object (offset / pagedPageSize) (pageCount offset stop))
      = some (window object offset stop) := by
  obtain ⟨hbegin, hinside, hlast, hcover, hend⟩ := pageCount_bounds hpast
  rcases assemble_spec object _ _ hinside (fun _ => hlast) hcover with ⟨hnone, hover⟩ | hout
  · exact .inl ⟨hnone, by omega⟩
  · rw [Nat.max_eq_left hbegin] at hout
    exact .inr hout

/-- The pages of a range that is not empty. -/
theorem readPages_spec (h : Sound object p) (memory : Nat) {offset stop : Nat} (hpast : offset < stop)
    (hknown : p.len = unknownLen ∨ stop ≤ p.len) :
    (p.readPages memory offset stop = none ∧
      (2 ^ 64 - pagedPageSize < stop ∨ ¬ VectorsFit memory offset stop)) ∨
    (VectorsFit memory offset stop ∧ ∃ p', p.readPages memory offset stop
      = some (p', .ok (window object offset stop)) ∧ Sound object p') := by
  unfold readPages VectorsFit
  by_cases hslots : Allocates memory (pageCount offset stop * pageSlotBytes)
  · rw [if_pos hslots]
    simp only [hslots, true_and]
    generalize hsnap : p.cache.snapshot
      (List.range' (offset / pagedPageSize) (pageCount offset stop)) = snap
    obtain ⟨cache, pages⟩ := snap
    simp only
    rcases h.fetch_pages hpast hknown hsnap with ⟨hnone, hover⟩ | ⟨p', hsome, hsound'⟩
    · rw [hnone]
      exact Or.inl ⟨rfl, Or.inl hover⟩
    · rw [hsome]
      simp only
      by_cases hbytes : Allocates memory (stop - offset)
      · rw [if_pos hbytes]
        rcases assemble_pages object hpast with ⟨hnone, hover⟩ | hout
        · rw [hnone]
          exact Or.inl ⟨rfl, Or.inl hover⟩
        · rw [hout]
          exact Or.inr ⟨hbytes, p', rfl, hsound'⟩
      · rw [if_neg hbytes]
        exact Or.inl ⟨rfl, Or.inr hbytes⟩
  · rw [if_neg hslots]
    exact Or.inl ⟨rfl, Or.inr fun hfit => hslots hfit.1⟩

/-- **A read returns the range of the object and leaves a sound state**; only a range in the last
page of the address space can overflow, and only vectors that do not fit can stop it. -/
theorem readAt_spec (h : Sound object p) (memory : Nat) {offset len : Nat}
    (hfit : offset + len < 2 ^ 64) :
    (p.readAt memory offset len = none ∧
      (2 ^ 64 - pagedPageSize < offset + len ∨ ¬ p.Reserves memory offset len)) ∨
    (p.Reserves memory offset len ∧ ∃ p', p.readAt memory offset len
      = some (p', .ok (window object offset (offset + len))) ∧ Sound object p') := by
  unfold readAt Reserves
  rw [if_neg (by omega)]
  have hle := p.clamp_le (offset + len)
  have hknown := p.clamp_known (offset + len)
  have hclamp := h.take_clamp offset (offset + len)
  by_cases hempty : len = 0
  · rw [if_pos hempty, window_empty (by omega)]
    exact Or.inr ⟨Or.inl (by omega), p, rfl, h⟩
  · rw [if_neg hempty]
    simp only
    generalize p.clamp (offset + len) = stop at *
    by_cases hpast : stop ≤ offset
    · rw [if_pos hpast]
      rw [window_empty hpast] at hclamp
      rw [← hclamp]
      exact Or.inr ⟨Or.inl hpast, p, rfl, h⟩
    · rw [if_neg hpast, ← hclamp]
      rcases readPages_spec h memory (Nat.lt_of_not_le hpast) hknown with ⟨hnone, hwhy⟩ | ⟨hvec, hread⟩
      · refine Or.inl ⟨hnone, hwhy.imp (fun hover => by omega) fun hvec hres => ?_⟩
        exact hvec (hres.resolve_left hpast)
      · exact Or.inr ⟨Or.inr hvec, hread⟩

/-! ### Runs -/

/-- A call on a reader of the object. -/
inductive Op where
  | readAt (offset len : Nat)
  | setLen

/-- The state a call leaves, if the program goes on. -/
def Op.apply (memory : Nat) (object : Bytes) (p : PagedBytes) : Op → Option PagedBytes
  | .readAt offset len => (p.readAt memory offset len).map Prod.fst
  | .setLen => some (p.setLen object.length)

def run (memory : Nat) (object : Bytes) (p : PagedBytes) (ops : List Op) : Option PagedBytes :=
  ops.foldlM (Op.apply memory object) p

section

variable {memory : Nat}

theorem Op.apply_sound (h : Sound object p) {op : Op} {p' : PagedBytes}
    (hop : op.apply memory object p = some p') : Sound object p' := by
  cases op with
  | setLen =>
      cases hop
      exact h.setLen
  | readAt offset len =>
      by_cases hfit : offset + len < 2 ^ 64
      · rcases readAt_spec h memory hfit with ⟨hnone, -⟩ | ⟨-, q, hsome, hq⟩
        · rw [Op.apply, hnone] at hop
          cases hop
        · rw [Op.apply, hsome] at hop
          cases hop
          exact hq
      · rw [Op.apply, PagedBytes.readAt, if_pos (by omega)] at hop
        cases hop
        exact h

theorem run_sound : ∀ (ops : List Op) {p p' : PagedBytes}, Sound object p →
    p.run memory object ops = some p' → Sound object p' := by
  intro ops
  induction ops with
  | nil =>
      intro p p' h hrun
      cases hrun
      exact h
  | cons op ops ih =>
      intro p p' h hrun
      rw [run, List.foldlM_cons] at hrun
      obtain ⟨mid, hmid, hrest⟩ := Option.bind_eq_some_iff.mp hrun
      exact ih (op.apply_sound h hmid) hrest

end

/-- **Whatever was read before, a read returns the range of the object exactly if the range that is not
behind a known end is empty, or the vectors of its pages and of its bytes fit.** -/
theorem read_is_transparent_iff {object : Bytes} {reader : PositionedReader}
    (hreader : ReadsFrom object reader) (memory cachePages : Nat) (ops : List Op) {p : PagedBytes}
    (hrun : (withCachePages reader cachePages).run memory object ops = some p) {offset len : Nat}
    (hfit : offset + len ≤ 2 ^ 64 - pagedPageSize) :
    (∃ p', p.readAt memory offset len = some (p',
      .ok (window object (min offset object.length) (min (offset + len) object.length)))) ↔
    p.Reserves memory offset len := by
  have hsound := run_sound ops (sound_withCachePages hreader cachePages) hrun
  have hwindow : window object (min offset object.length) (min (offset + len) object.length)
      = window object offset (offset + len) := by
    by_cases hoffset : offset ≤ object.length
    · rw [Nat.min_eq_left hoffset]
      by_cases hstop : offset + len ≤ object.length
      · rw [Nat.min_eq_left hstop]
      · rw [Nat.min_eq_right (by omega), window_clamp (Nat.le_refl _), window_clamp (by omega)]
    · rw [window_empty (by omega), window_past (by omega)]
  rw [hwindow]
  have hbelow : offset + len < 2 ^ 64 := by
    unfold pagedPageSize at hfit
    omega
  rcases readAt_spec hsound memory hbelow with ⟨hnone, hwhy⟩ | ⟨hres, p', hsome, -⟩
  · have hres : ¬ p.Reserves memory offset len := hwhy.resolve_left (by omega)
    refine iff_of_false ?_ hres
    rintro ⟨p', hsome⟩
    rw [hnone] at hsome
    cases hsome
  · exact iff_of_true ⟨p', hsome⟩ hres

/-- Behind the end first, then with the length pinned. -/
theorem read_is_transparent_short :
    ∃ p p', (withCachePages (fun offset len => .ok (([1, 2, 3] : Bytes).drop offset |>.take len)) 1).run
        4096 [1, 2, 3] [.readAt 7 9, .readAt 1 7, .setLen] = some p ∧
      p.readAt 4096 2 9 = some (p', .ok [3]) := by
  cases hrun : (withCachePages (fun offset len =>
      .ok (([1, 2, 3] : Bytes).drop offset |>.take len)) 1).run 4096 [1, 2, 3]
        [.readAt 7 9, .readAt 1 7, .setLen] with
  | none => exact absurd (congrArg Option.isSome hrun) (by decide +kernel)
  | some p =>
      have hfit : 2 + 9 ≤ 2 ^ 64 - pagedPageSize := by decide
      have hreserves : p.Reserves 4096 2 9 := by
        have hle := p.clamp_le (2 + 9)
        unfold Reserves VectorsFit Allocates pageCount pagedPageSize pageSlotBytes isizeMax
        omega
      obtain ⟨p', hread⟩ :=
        (read_is_transparent_iff (fun _ _ => rfl) 4096 1 _ hrun hfit).mpr hreserves
      exact ⟨p, p', rfl, hread⟩

/-- **A read of 2^63 bytes while the length is unknown**: the object has none, and no vector of them
fits, whatever memory there is. -/
theorem long_read_stops :
    ReadsFrom [] (fun _ _ => .ok []) ∧ 0 + 2 ^ 63 ≤ 2 ^ 64 - pagedPageSize ∧
      ∀ memory, (withCachePages (fun _ _ => .ok []) 1).readAt memory 0 (2 ^ 63) = none := by
  have hreader : ReadsFrom [] (fun _ _ => .ok []) := by
    intro offset len
    rw [List.drop_nil, List.take_nil]
  refine ⟨hreader, by decide, fun memory => ?_⟩
  rcases readAt_spec (sound_withCachePages hreader 1) memory (show 0 + 2 ^ 63 < 2 ^ 64 by decide) with
    ⟨hnone, -⟩ | ⟨hres, -⟩
  · exact hnone
  · rcases hres with hempty | ⟨-, -, hbytes⟩
    · exact absurd hempty (by decide)
    · exact absurd hbytes (by decide)

end PagedBytes

/-! ### Cached pages -/

namespace PageCache

/-- Some page is cached under the index. -/
def Caches (c : PageCache) (index : Nat) : Prop := ∃ bytes, (index, bytes) ∈ c.entries

/-- The object reaches into every cached page, and the page ends at an offset that fits a word. -/
structure Fetched (object : Bytes) (c : PageCache) : Prop where
  reach : ∀ index, c.Caches index → index * pagedPageSize < object.length
  fits : ∀ index, c.Caches index → (index + 1) * pagedPageSize < 2 ^ 64

variable {object : Bytes} {c : PageCache}

theorem mem_of_mem_get {index : Nat} {e : Nat × Bytes} (h : e ∈ (c.get index).1.entries) :
    e ∈ c.entries := by
  unfold get at h
  cases hfind : c.entries.find? fun e => e.1 = index with
  | none =>
      rw [hfind] at h
      exact h
  | some hit =>
      rw [hfind] at h
      rcases List.mem_append.mp h with h | h
      · exact List.mem_of_mem_eraseP h
      · rw [List.mem_singleton.mp h]
        exact List.mem_of_find?_eq_some hfind

theorem get_isSome (c : PageCache) (index : Nat) : (c.get index).2.isSome ↔ c.Caches index := by
  unfold get Caches
  cases hfind : c.entries.find? fun e => e.1 = index with
  | none =>
      refine ⟨fun h => (by cases h), fun ⟨bytes, hmem⟩ => ?_⟩
      exact absurd (by simp) (List.find?_eq_none.mp hfind _ hmem)
  | some hit =>
      obtain rfl : hit.1 = index := by simpa using List.find?_some hfind
      exact ⟨fun _ => ⟨hit.2, List.mem_of_find?_eq_some hfind⟩, fun _ => rfl⟩

theorem get_caches (c : PageCache) (index other : Nat) :
    (c.get index).1.Caches other ↔ c.Caches other := by
  refine ⟨fun ⟨bytes, hmem⟩ => ⟨bytes, mem_of_mem_get hmem⟩, fun ⟨bytes, hmem⟩ => ?_⟩
  unfold get
  cases hfind : c.entries.find? fun e => e.1 = index with
  | none => exact ⟨bytes, hmem⟩
  | some hit =>
      by_cases hother : other = index
      · obtain rfl : hit.1 = other := by
          rw [hother]
          simpa using List.find?_some hfind
        exact ⟨hit.2, List.mem_append_right _ (List.mem_singleton_self _)⟩
      · refine ⟨bytes, List.mem_append_left _ ?_⟩
        rw [List.mem_eraseP_of_neg (by simpa using hother)]
        exact hmem

theorem Fetched.get (h : c.Fetched object) (index : Nat) : (c.get index).1.Fetched object :=
  ⟨fun other hother => h.reach other ((get_caches c index other).mp hother),
    fun other hother => h.fits other ((get_caches c index other).mp hother)⟩

theorem caches_of_insert {index other : Nat} {bytes : Bytes}
    (h : (c.insert index bytes).Caches other) : other = index ∨ c.Caches other := by
  obtain ⟨bytes', hmem⟩ := h
  rcases List.mem_append.mp (List.mem_of_mem_drop hmem) with hmem | hmem
  · exact .inr ⟨bytes', List.mem_of_mem_eraseP hmem⟩
  · exact .inl (Prod.mk.inj (List.mem_singleton.mp hmem)).1

theorem Fetched.insert (h : c.Fetched object) {index : Nat} {bytes : Bytes}
    (hreach : index * pagedPageSize < object.length)
    (hfit : (index + 1) * pagedPageSize < 2 ^ 64) : (c.insert index bytes).Fetched object := by
  refine ⟨fun other hother => ?_, fun other hother => ?_⟩
  · rcases caches_of_insert hother with rfl | hother
    · exact hreach
    · exact h.reach other hother
  · rcases caches_of_insert hother with rfl | hother
    · exact hfit
    · exact h.fits other hother

/-- Keeping the pages of an answer that the object reaches into. -/
theorem Fetched.keep : ∀ (pages : List Bytes) {c : PageCache} {index : Nat}, c.Fetched object →
    (pages ≠ [] → (index + pages.length - 1) * pagedPageSize < object.length) →
    (index + pages.length) * pagedPageSize < 2 ^ 64 → (c.keep index pages).Fetched object := by
  intro pages
  induction pages with
  | nil =>
      intro c index h _ _
      exact h
  | cons bytes pages ih =>
      intro c index h hreach hfit
      rw [List.length_cons] at hreach hfit
      have hlast := hreach (List.cons_ne_nil _ _)
      have hmono : ∀ {a b : Nat}, a ≤ b → a * pagedPageSize ≤ b * pagedPageSize :=
        Nat.mul_le_mul_right _
      refine ih (h.insert (Nat.lt_of_le_of_lt (hmono (by omega)) hlast)
        (Nat.lt_of_le_of_lt (hmono (by omega)) hfit)) (fun hne => ?_) ?_
      · have hpos := List.length_pos_iff.mpr hne
        rwa [show index + 1 + pages.length - 1 = index + (pages.length + 1) - 1 by omega]
      · rw [Nat.add_assoc, Nat.add_comm 1]
        exact hfit

/-- Looking up a range of pages: a slot is filled exactly where its page is cached. -/
theorem snapshot_caches : ∀ (n index : Nat) (c : PageCache),
    (∀ other, (c.snapshot (List.range' index n)).1.Caches other ↔ c.Caches other) ∧
    (c.Fetched object → (c.snapshot (List.range' index n)).1.Fetched object) ∧
    (c.snapshot (List.range' index n)).2.length = n ∧
    ∀ k hit, (c.snapshot (List.range' index n)).2[k]? = some hit →
      (hit.isSome ↔ c.Caches (index + k)) := by
  intro n
  induction n with
  | zero =>
      intro index c
      exact ⟨fun _ => Iff.rfl, id, rfl, fun k hit h => (by cases h)⟩
  | succ n ih =>
      intro index c
      obtain ⟨hcaches, hfetched, hlen, hslots⟩ := ih (index + 1) (c.get index).1
      rw [List.range'_succ]
      refine ⟨fun other => (hcaches other).trans (get_caches c index other),
        fun h => hfetched (h.get index), congrArg (· + 1) hlen, fun k hit hk => ?_⟩
      cases k with
      | zero =>
          cases hk
          exact get_isSome c index
      | succ k =>
          rw [← get_caches c index, show index + (k + 1) = index + 1 + k by omega]
          exact hslots k hit hk

end PageCache

/-! ### Runs that are refused -/

/-- The reader fails at a run of missing pages that ends at a cached one. -/
def RunRefused (reader : PositionedReader) (index : Nat) (pages : List (Option Bytes)) : Prop :=
  ∃ i n, 0 < n ∧ (∀ k < n, pages[i + k]? = some none) ∧
    (∃ bytes, pages[i + n]? = some (some bytes)) ∧
    (i = 0 ∨ ∃ bytes, pages[i - 1]? = some (some bytes)) ∧
    ∃ e, reader ((index + i) * pagedPageSize) (n * pagedPageSize) = .error e

section

variable {reader : PositionedReader} {index : Nat} {rest : List (Option Bytes)}

theorem not_runRefused_nil : ¬ RunRefused reader index [] := by
  rintro ⟨i, n, -, -, ⟨bytes, h⟩, -⟩
  cases h

theorem runRefused_cons_iff (bytes : Bytes) :
    RunRefused reader index (some bytes :: rest) ↔ RunRefused reader (index + 1) rest := by
  constructor
  · rintro ⟨i, n, hn, hrun, hend, hbegin, he⟩
    cases i with
    | zero => cases hrun 0 hn
    | succ i =>
        refine ⟨i, n, hn, fun k hk => ?_, ?_, ?_, ?_⟩
        · have := hrun k hk
          rwa [Nat.add_right_comm, List.getElem?_cons_succ] at this
        · rwa [Nat.add_right_comm, List.getElem?_cons_succ] at hend
        · cases i with
          | zero => exact .inl rfl
          | succ i => exact .inr (hbegin.resolve_left (Nat.succ_ne_zero _))
        · rwa [Nat.add_assoc, Nat.add_comm 1]
  · rintro ⟨i, n, hn, hrun, hend, hbegin, he⟩
    refine ⟨i + 1, n, hn, fun k hk => ?_, ?_, ?_, ?_⟩
    · rw [Nat.add_right_comm, List.getElem?_cons_succ]
      exact hrun k hk
    · rwa [Nat.add_right_comm, List.getElem?_cons_succ]
    · cases i with
      | zero => exact .inr ⟨bytes, rfl⟩
      | succ i => exact .inr (hbegin.resolve_left (Nat.succ_ne_zero _))
    · rwa [Nat.add_assoc, Nat.add_comm 1] at he

theorem not_runRefused_missing {n : Nat} : ¬ RunRefused reader index (List.replicate n none) := by
  rintro ⟨i, m, -, -, ⟨bytes, h⟩, -⟩
  cases List.eq_of_mem_replicate (List.mem_of_getElem? h)

theorem getElem?_missing_append {n : Nat} {behind : List (Option Bytes)} (k : Nat) :
    (List.replicate n none ++ behind)[n + k]? = behind[k]? := by
  rw [List.getElem?_append_right (by rw [List.length_replicate]; omega), List.length_replicate,
    Nat.add_sub_cancel_left]

theorem getElem?_behind_missing {n : Nat} (hit : Option Bytes) :
    (List.replicate n none ++ hit :: rest)[n]? = some hit :=
  @getElem?_missing_append n (hit :: rest) 0

theorem getElem?_missing {n k : Nat} {behind : List (Option Bytes)} (h : k < n) :
    (List.replicate n none ++ behind)[k]? = some none := by
  rw [List.getElem?_append_left (by rw [List.length_replicate]; exact h), List.getElem?_replicate,
    if_pos h]

theorem runRefused_run_iff {n : Nat} (hn : 0 < n) (bytes : Bytes) :
    RunRefused reader index (List.replicate n none ++ some bytes :: rest) ↔
      (∃ e, reader (index * pagedPageSize) (n * pagedPageSize) = .error e) ∨
        RunRefused reader (index + n + 1) rest := by
  constructor
  · rintro ⟨i, m, hm, hrun, ⟨found, hend⟩, hbegin, he⟩
    by_cases hi : i = 0
    · subst hi
      left
      -- the run ends where the cached page is
      obtain rfl : m = n := by
        rcases Nat.lt_trichotomy m n with h | h | h
        · rw [Nat.zero_add, getElem?_missing h] at hend
          cases hend
        · exact h
        · have := hrun n h
          rw [Nat.zero_add, getElem?_behind_missing] at this
          cases this
      exact he
    · obtain ⟨before, hbefore⟩ := hbegin.resolve_left hi
      have hle : n ≤ i - 1 := by
        by_contra hlt
        rw [getElem?_missing (by omega)] at hbefore
        cases hbefore
      obtain ⟨j, rfl⟩ : ∃ j, i = n + 1 + j := ⟨i - (n + 1), by omega⟩
      refine .inr ⟨j, m, hm, fun k hk => ?_, ⟨found, ?_⟩, ?_, ?_⟩
      · have := hrun k hk
        rwa [show n + 1 + j + k = n + (j + k + 1) by omega, getElem?_missing_append,
          List.getElem?_cons_succ] at this
      · rwa [show n + 1 + j + m = n + (j + m + 1) by omega, getElem?_missing_append,
          List.getElem?_cons_succ] at hend
      · cases j with
        | zero => exact .inl rfl
        | succ j =>
            rw [show n + 1 + (j + 1) - 1 = n + (j + 1) by omega, getElem?_missing_append,
              List.getElem?_cons_succ] at hbefore
            exact .inr ⟨before, hbefore⟩
      · rwa [show index + n + 1 + j = index + (n + 1 + j) by omega]
  · rintro (⟨e, he⟩ | ⟨j, m, hm, hrun, ⟨found, hend⟩, hbegin, he⟩)
    · refine ⟨0, n, hn, fun k hk => ?_, ⟨bytes, ?_⟩, .inl rfl, e, he⟩
      · rw [Nat.zero_add, getElem?_missing hk]
      · rw [Nat.zero_add, getElem?_behind_missing]
    · refine ⟨n + 1 + j, m, hm, fun k hk => ?_, ⟨found, ?_⟩, .inr ?_, ?_⟩
      · rw [show n + 1 + j + k = n + (j + k + 1) by omega, getElem?_missing_append,
          List.getElem?_cons_succ]
        exact hrun k hk
      · rwa [show n + 1 + j + m = n + (j + m + 1) by omega, getElem?_missing_append,
          List.getElem?_cons_succ]
      · cases j with
        | zero =>
            refine ⟨bytes, ?_⟩
            rw [show n + 1 + 0 - 1 = n by omega, getElem?_behind_missing]
        | succ j =>
            obtain ⟨before, hbefore⟩ := hbegin.resolve_left (Nat.succ_ne_zero _)
            refine ⟨before, ?_⟩
            rwa [show n + 1 + (j + 1) - 1 = n + (j + 1) by omega, getElem?_missing_append,
              List.getElem?_cons_succ]
      · rwa [show index + n + 1 + j = index + (n + 1 + j) by omega] at he

/-- The reader fails at the run of missing pages that the range ends with; `limit` cuts what it is
asked for. -/
def LastRefused (reader : PositionedReader) (limit : Nat → Nat) (index : Nat)
    (pages : List (Option Bytes)) : Prop :=
  ∃ front n, 0 < n ∧ pages = front ++ List.replicate n none ∧
    (front = [] ∨ ∃ init bytes, front = init ++ [some bytes]) ∧
    ∃ e, reader ((index + front.length) * pagedPageSize)
      (limit ((index + pages.length) * pagedPageSize) - (index + front.length) * pagedPageSize)
        = .error e

variable {limit : Nat → Nat}

theorem not_lastRefused_nil : ¬ LastRefused reader limit index [] := by
  rintro ⟨front, n, hn, hpages, -⟩
  have hlen := congrArg List.length hpages
  rw [List.length_append, List.length_replicate, List.length_nil] at hlen
  omega

theorem lastRefused_missing_iff {n : Nat} (hn : 0 < n) :
    LastRefused reader limit index (List.replicate n none) ↔
      ∃ e, reader (index * pagedPageSize)
        (limit ((index + n) * pagedPageSize) - index * pagedPageSize) = .error e := by
  constructor
  · rintro ⟨front, m, -, hpages, hends, he⟩
    rcases hends with rfl | ⟨init, bytes, rfl⟩
    · rwa [List.length_nil, Nat.add_zero, List.length_replicate] at he
    · have hmem : some bytes ∈ List.replicate n none := by
        rw [hpages]
        simp
      cases List.eq_of_mem_replicate hmem
  · intro he
    refine ⟨[], n, hn, rfl, .inl rfl, ?_⟩
    rwa [List.length_nil, Nat.add_zero, List.length_replicate]

/-- What is in front of a cached page has no part in the last run. -/
theorem lastRefused_behind_iff (front : List (Option Bytes)) (bytes : Bytes) :
    LastRefused reader limit index (front ++ some bytes :: rest) ↔
      LastRefused reader limit (index + front.length + 1) rest := by
  have hstart : ∀ more : List (Option Bytes), index + (front ++ some bytes :: more).length
      = index + front.length + 1 + more.length := by
    intro more
    rw [List.length_append, List.length_cons]
    omega
  constructor
  · rintro ⟨begin, n, hn, hpages, hends, he⟩
    rcases List.append_eq_append_iff.mp hpages with ⟨more, rfl, hmore⟩ | ⟨more, -, hmore⟩
    · cases more with
      | nil =>
          have hmem : some bytes ∈ List.replicate n none := by
            rw [← List.nil_append (List.replicate n none), ← hmore]
            exact List.mem_cons_self
          cases List.eq_of_mem_replicate hmem
      | cons hit more =>
          obtain ⟨rfl, rfl⟩ := List.cons.inj hmore
          rw [hstart, hstart] at he
          refine ⟨more, n, hn, rfl, ?_, he⟩
          rcases List.eq_nil_or_concat' more with rfl | ⟨init, last, rfl⟩
          · exact .inl rfl
          · right
            obtain ⟨init', found, hfound⟩ := hends.resolve_left (by simp)
            rw [← List.cons_append, ← List.append_assoc] at hfound
            obtain ⟨-, hlast⟩ := List.append_inj' hfound rfl
            exact ⟨init, found, by rw [hlast]⟩
    · have hmem : some bytes ∈ List.replicate n none := by
        rw [hmore]
        exact List.mem_append_right _ List.mem_cons_self
      cases List.eq_of_mem_replicate hmem
  · rintro ⟨more, n, hn, rfl, hends, he⟩
    refine ⟨front ++ some bytes :: more, n, hn, by simp, .inr ?_, ?_⟩
    · rcases hends with rfl | ⟨init, found, rfl⟩
      · exact ⟨front, bytes, rfl⟩
      · exact ⟨front ++ some bytes :: init, found, by simp⟩
    · rwa [hstart, hstart]

end

end LimniFS
