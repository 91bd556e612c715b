/-
Positioned reads through a page cache.

An object that is not resident is read page by page through a reader with `pread`
semantics.  A read looks every page of its range up in the cache, fetches each run of
missing pages with one call, learns from a short answer where the object ends, and puts
its result together from the pages it has then.

Two things hold between any two calls (`Sound`): a cached page is a page of the object and
not empty, and the length is unknown or not below the object's.  The learned length may be
too large, when a read starts behind the end, and that does no harm.
-/
import LimniFS.Lib.Blocks
import LimniFS.Seekable

namespace LimniFS

open Lib

def pagedPageSize : Nat := 256 * 1024
def pagedCachePages : Nat := 16

/-- `isize::MAX`, the bytes of the largest vector. -/
def isizeMax : Nat := 2 ^ 63 - 1

/-- The bytes of an `Option<Arc<[u8]>>`. -/
def pageSlotBytes : Nat := 16

/-- The length of an object whose length is not known. -/
def unknownLen : Nat := 2 ^ 64 - 1

/-- `read_at(offset, len)`: up to `len` bytes, short only at the end of the object. -/
abbrev PositionedReader := Nat → Nat → Except CoreError Bytes

/-- `pread` over exactly these bytes. -/
def ReadsFrom (object : Bytes) (reader : PositionedReader) : Prop :=
  ∀ offset len, reader offset len = .ok ((object.drop offset).take len)

/-- `Vec::with_capacity` returns: above `isize::MAX` it panics, and where the largest block that there
is, `memory`, is too small, it aborts. -/
def Allocates (memory bytes : Nat) : Prop := bytes ≤ memory ∧ bytes ≤ isizeMax

instance (memory bytes : Nat) : Decidable (Allocates memory bytes) :=
  inferInstanceAs (Decidable (_ ∧ _))

/-! ### The cache -/

/-- Pages by index; the back is the most recently used. -/
structure PageCache where
  entries : List (Nat × Bytes)
  capacity : Nat

namespace PageCache

def get (c : PageCache) (index : Nat) : PageCache × Option Bytes :=
  match c.entries.find? fun e => e.1 = index with
  | none => (c, none)
  | some hit =>
    ({ c with entries := c.entries.eraseP (fun e => e.1 = index) ++ [hit] }, some hit.2)

/-- A page in its place at the back; the front goes while there are too many. -/
def insert (c : PageCache) (index : Nat) (bytes : Bytes) : PageCache :=
  let entries := c.entries.eraseP (fun e => e.1 = index) ++ [(index, bytes)]
  { c with entries := entries.drop (entries.length - c.capacity) }

/-- Look up every page of a range. -/
def snapshot (c : PageCache) : List Nat → PageCache × List (Option Bytes)
  | [] => (c, [])
  | index :: rest =>
    let (c, hit) := c.get index
    let (c, hits) := snapshot c rest
    (c, hit :: hits)

/-- Keep the pages of one answer, the first under `index`. -/
def keep (c : PageCache) (index : Nat) : List Bytes → PageCache
  | [] => c
  | bytes :: rest => keep (c.insert index bytes) (index + 1) rest

end PageCache

/-! ### Reads -/

structure PagedBytes where
  reader : PositionedReader
  len : Nat
  cache : PageCache

namespace PagedBytes

def withCachePages (reader : PositionedReader) (cachePages : Nat) : PagedBytes :=
  ⟨reader, unknownLen, ⟨[], cachePages⟩⟩

def setLen (p : PagedBytes) (len : Nat) : PagedBytes := { p with len }

/-- Only the first observation counts, and never against a pinned length. -/
def learnLen (p : PagedBytes) (len : Nat) : PagedBytes :=
  if p.len = unknownLen then { p with len } else p

/-- A short answer is the end of the object. -/
def learnFrom (p : PagedBytes) (fetchOffset expected : Nat) (bytes : Bytes) : PagedBytes :=
  if bytes.length < expected then p.learnLen (fetchOffset + bytes.length) else p

/-- A position, not behind a known end. -/
def clamp (p : PagedBytes) (position : Nat) : Nat :=
  if p.len = unknownLen then position else min position p.len

/-- Fetch a run of missing pages with one call; `none` is an overflow or an underflow. -/
def fetchRun (p : PagedBytes) (index run : Nat) :
    Option (PagedBytes × Except CoreError (List (Option Bytes))) :=
  let fetchOffset := index * pagedPageSize
  let runEnd := (index + run) * pagedPageSize
  let fetchEnd := p.clamp runEnd
  if 2 ^ 64 ≤ runEnd ∨ fetchEnd < fetchOffset then none
  else
    let expected := fetchEnd - fetchOffset
    match p.reader fetchOffset expected with
    | .error e => some (p, .error e)
    | .ok bytes =>
      if expected < bytes.length then
        some (p, .error (.corrupt (s!"paged source over-delivered: {bytes.length} bytes for a"
          ++ s!" {expected}-byte request at offset {fetchOffset}")))
      else
        let p := p.learnFrom fetchOffset expected bytes
        let fetched := chunksOf pagedPageSize bytes.length bytes
        some ({ p with cache := p.cache.keep index fetched },
          .ok (fetched.map some ++ List.replicate (run - fetched.length) none))

/-- Fetch what is missing, run by run; the fuel bounds the number of slots left. -/
def fetchPages
    (fetch : PagedBytes → Nat → Nat → Option (PagedBytes × Except CoreError (List (Option Bytes)))) :
    Nat → PagedBytes → Nat → List (Option Bytes) →
    Option (PagedBytes × Except CoreError (List (Option Bytes)))
  | 0, p, _, pages => some (p, .ok pages)
  | _ + 1, p, _, [] => some (p, .ok [])
  | fuel + 1, p, index, some bytes :: rest =>
    match fetchPages fetch fuel p (index + 1) rest with
    | some (p, .ok rest) => some (p, .ok (some bytes :: rest))
    | other => other
  | fuel + 1, p, index, none :: rest =>
    let run := (rest.takeWhile Option.isNone).length + 1
    match fetch p index run with
    | some (p, .ok fetched) =>
      match fetchPages fetch fuel p (index + run) (rest.drop (run - 1)) with
      | some (p, .ok behind) => some (p, .ok (fetched ++ behind))
      | other => other
    | other => other

/-- Put the result together; a missing or a short page ends it, and `none` is an overflow. -/
def assemble (offset stop : Nat) : Nat → List (Option Bytes) → Option Bytes
  | index, some bytes :: rest =>
    let pageStart := index * pagedPageSize
    if 2 ^ 64 ≤ pageStart + pagedPageSize then none
    else
      let first := max offset pageStart - pageStart
      let last := min stop (pageStart + pagedPageSize) - pageStart
      let available := min bytes.length last
      if available ≤ first then some []
      else if available < last then some ((bytes.take available).drop first)
      else (assemble offset stop (index + 1) rest).map ((bytes.take available).drop first ++ ·)
  | _, _ => some []

/-- The number of pages that the bytes from `offset` up to `stop` lie in. -/
def pageCount (offset stop : Nat) : Nat := (stop - 1) / pagedPageSize - offset / pagedPageSize + 1

/-- The part of a read behind the clamp: the pages of the range, and the result they come to. -/
def readPages (memory : Nat) (p : PagedBytes) (offset stop : Nat) :
    Option (PagedBytes × Except CoreError Bytes) :=
  if Allocates memory (pageCount offset stop * pageSlotBytes) then
    let first := offset / pagedPageSize
    let (cache, pages) := p.cache.snapshot (List.range' first (pageCount offset stop))
    match fetchPages fetchRun (pageCount offset stop) { p with cache } first pages with
    | none => none
    | some (p, .error e) => some (p, .error e)
    | some (p, .ok pages) =>
      if Allocates memory (stop - offset) then
        (assemble offset stop first pages).map fun out => (p, .ok out)
      else none
  else none

/-- A read with the state it leaves, where the largest block is `memory`; `none` is a panic or the end
of the program. -/
def readAt (memory : Nat) (p : PagedBytes) (offset len : Nat) :
    Option (PagedBytes × Except CoreError Bytes) :=
  if 2 ^ 64 ≤ offset + len then
    some (p, .error (.corrupt s!"paged read offset {offset} + length {len} overflows u64"))
  else if len = 0 then some (p, .ok [])
  else
    let stop := p.clamp (offset + len)
    if stop ≤ offset then some (p, .ok []) else p.readPages memory offset stop

end PagedBytes

/-! ### What the cache holds -/

/-- Every cached page is a page of the object, and not an empty one. -/
def PageCache.Holds (object : Bytes) (c : PageCache) : Prop :=
  ∀ e ∈ c.entries, slot pagedPageSize object e.1 = some e.2

/-- The slots from `index` on, as far as they are filled. -/
def Partly (object : Bytes) : Nat → List (Option Bytes) → Prop
  | _, [] => True
  | index, hit :: rest =>
    (∀ bytes, hit = some bytes → slot pagedPageSize object index = some bytes) ∧
      Partly object (index + 1) rest

namespace PageCache

variable {object : Bytes} {c : PageCache}

theorem Holds.get (h : c.Holds object) (index : Nat) :
    (c.get index).1.Holds object ∧
      ∀ bytes, (c.get index).2 = some bytes → slot pagedPageSize object index = some bytes := by
  unfold PageCache.get
  cases hfind : c.entries.find? fun e => e.1 = index with
  | none => exact ⟨h, fun _ hbytes => by cases hbytes⟩
  | some hit =>
      have hmem := List.mem_of_find?_eq_some hfind
      have hindex : hit.1 = index := by simpa using List.find?_some hfind
      refine ⟨?_, ?_⟩
      · intro e he
        rcases List.mem_append.mp he with he | he
        · exact h e (List.mem_of_mem_eraseP he)
        · rw [List.mem_singleton.mp he]
          exact h hit hmem
      · intro bytes hbytes
        cases hbytes
        rw [← hindex]
        exact h hit hmem

theorem Holds.insert (h : c.Holds object) {index : Nat} {bytes : Bytes}
    (hslot : slot pagedPageSize object index = some bytes) :
    (c.insert index bytes).Holds object := by
  intro e he
  rcases List.mem_append.mp (List.mem_of_mem_drop he) with he | he
  · exact h e (List.mem_of_mem_eraseP he)
  · rw [List.mem_singleton.mp he]
    exact hslot

theorem Holds.snapshot : ∀ (n index : Nat) {c : PageCache}, c.Holds object →
    (c.snapshot (List.range' index n)).1.Holds object ∧
      Partly object index (c.snapshot (List.range' index n)).2 ∧
      (c.snapshot (List.range' index n)).2.length = n := by
  intro n
  induction n with
  | zero =>
      intro index c h
      exact ⟨h, trivial, rfl⟩
  | succ n ih =>
      intro index c h
      obtain ⟨hget, hslot⟩ := h.get index
      obtain ⟨hrest, hpartly, hlen⟩ := ih (index + 1) hget
      rw [List.range'_succ]
      exact ⟨hrest, ⟨hslot, hpartly⟩, congrArg (· + 1) hlen⟩

end PageCache

/-! ### One answer -/

theorem chunks_of_answer (object : Bytes) : ∀ (run index fuel : Nat) (answer : Bytes),
    answer.length ≤ fuel →
    answer = (object.drop (index * pagedPageSize)).take (run * pagedPageSize) →
    (chunksOf pagedPageSize fuel answer).map some
        ++ List.replicate (run - (chunksOf pagedPageSize fuel answer).length) none
      = slots pagedPageSize object index run := by
  have hnil : ∀ fuel, chunksOf pagedPageSize fuel [] = [] := by
    intro fuel
    cases fuel <;> rfl
  intro run
  induction run with
  | zero =>
      intro index fuel answer _ hanswer
      rw [Nat.zero_mul, List.take_zero] at hanswer
      rw [hanswer, hnil]
      rfl
  | succ run ih =>
      intro index fuel answer hfuel hanswer
      by_cases hpast : object.length ≤ index * pagedPageSize
      · rw [List.drop_eq_nil_of_le hpast, List.take_nil] at hanswer
        rw [hanswer, hnil, slots_past object _ hpast]
        rfl
      · have hpage : answer.take pagedPageSize = page pagedPageSize object index := by
          rw [hanswer, List.take_take, Nat.min_eq_left]
          · rfl
          · rw [Nat.succ_mul]
            omega
        have hbehind : answer.drop pagedPageSize
            = (object.drop ((index + 1) * pagedPageSize)).take (run * pagedPageSize) := by
          rw [hanswer, List.drop_take, List.drop_drop, Nat.succ_mul, Nat.succ_mul,
            Nat.add_sub_cancel]
        have hne : answer ≠ [] := by
          intro h
          rw [h, List.take_nil] at hpage
          exact hpast ((page_eq_nil_iff (by decide) object index).mp hpage.symm)
        have hpos := List.length_pos_iff.mpr hne
        obtain ⟨fuel, rfl⟩ : ∃ k, fuel = k + 1 := ⟨fuel - 1, by omega⟩
        have hrest := ih (index + 1) fuel (answer.drop pagedPageSize) (by
          rw [List.length_drop]
          unfold pagedPageSize
          omega) hbehind
        unfold chunksOf
        rw [if_neg hne, List.map_cons, List.length_cons, List.cons_append, Nat.succ_sub_succ, hrest,
          slots, slot, if_neg hpast, hpage]

theorem PageCache.Holds.keep {object : Bytes} {c : PageCache} (h : c.Holds object) :
    ∀ (pages : List Bytes) (index n : Nat) (rest : List (Option Bytes)),
    pages.map some ++ rest = slots pagedPageSize object index n →
    (c.keep index pages).Holds object := by
  intro pages
  induction pages generalizing c with
  | nil =>
      intro index n rest _
      exact h
  | cons bytes pages ih =>
      intro index n rest hslots
      cases n with
      | zero => cases hslots
      | succ n =>
          rw [List.map_cons, List.cons_append, slots] at hslots
          obtain ⟨hhead, htail⟩ := List.cons.inj hslots
          exact ih (h.insert hhead.symm) (index + 1) n rest htail

namespace PagedBytes

/-- What holds of a reader of an object between any two calls. -/
structure Sound (object : Bytes) (p : PagedBytes) : Prop where
  reader : ReadsFrom object p.reader
  len : p.len = unknownLen ∨ object.length ≤ p.len
  cache : p.cache.Holds object

theorem sound_withCachePages {object : Bytes} {reader : PositionedReader}
    (h : ReadsFrom object reader) (cachePages : Nat) : Sound object (withCachePages reader cachePages) :=
  ⟨h, Or.inl rfl, fun _ he => by cases he⟩

theorem Sound.setLen {object : Bytes} {p : PagedBytes} (h : Sound object p) :
    Sound object (p.setLen object.length) :=
  ⟨h.reader, Or.inr (Nat.le_refl _), h.cache⟩

variable {object : Bytes} {p : PagedBytes}

theorem clamp_le (p : PagedBytes) (position : Nat) : p.clamp position ≤ position := by
  unfold PagedBytes.clamp
  split
  · exact Nat.le_refl _
  · exact Nat.min_le_left _ _

theorem clamp_known (p : PagedBytes) (position : Nat) :
    p.len = unknownLen ∨ p.clamp position ≤ p.len := by
  unfold PagedBytes.clamp
  split
  · next hlen => exact Or.inl hlen
  · exact Or.inr (Nat.min_le_right _ _)

theorem le_clamp {position bound : Nat} (hle : position ≤ bound)
    (hknown : p.len = unknownLen ∨ position ≤ p.len) : position ≤ p.clamp bound := by
  unfold PagedBytes.clamp
  split
  · exact hle
  · next hlen => exact Nat.le_min.mpr ⟨hle, hknown.resolve_left hlen⟩

theorem Sound.take_clamp (h : Sound object p) (start stop : Nat) :
    window object start (p.clamp stop) = window object start stop := by
  unfold PagedBytes.clamp
  split
  · rfl
  · next hknown =>
      by_cases hshort : stop ≤ p.len
      · rw [Nat.min_eq_left hshort]
      · have hlen : object.length ≤ p.len := h.len.resolve_left hknown
        rw [Nat.min_eq_right (by omega), window_clamp hlen, window_clamp (by omega)]

theorem learnFrom_cases (p : PagedBytes) (fetchOffset expected : Nat) (bytes : Bytes) :
    p.learnFrom fetchOffset expected bytes = p ∨
      (bytes.length < expected ∧ p.learnFrom fetchOffset expected bytes
        = { p with len := fetchOffset + bytes.length }) := by
  unfold learnFrom learnLen
  by_cases hshort : bytes.length < expected
  · rw [if_pos hshort]
    by_cases hknown : p.len = unknownLen
    · rw [if_pos hknown]
      exact Or.inr ⟨hshort, rfl⟩
    · rw [if_neg hknown]
      exact Or.inl rfl
  · rw [if_neg hshort]
    exact Or.inl rfl

/-- A short answer starts at or in front of the end it teaches. -/
theorem Sound.learnFrom (h : Sound object p) (fetchOffset expected : Nat) :
    Sound object (p.learnFrom fetchOffset expected ((object.drop fetchOffset).take expected)) ∧
      ((p.learnFrom fetchOffset expected ((object.drop fetchOffset).take expected)).len = p.len ∨
        object.length < fetchOffset + expected) := by
  rcases learnFrom_cases p fetchOffset expected ((object.drop fetchOffset).take expected) with
    heq | ⟨hshort, heq⟩
  · rw [heq]
    exact ⟨h, Or.inl rfl⟩
  · rw [heq]
    rw [List.length_take, List.length_drop] at hshort ⊢
    exact ⟨⟨h.reader, Or.inr (by simp only; omega), h.cache⟩, Or.inr (by omega)⟩

theorem withCache_len (p : PagedBytes) (cache : PageCache) :
    PagedBytes.len { p with cache } = p.len := rfl

theorem Sound.keep (h : Sound object p) {index n : Nat} {pages : List Bytes}
    {rest : List (Option Bytes)} (hslots : pages.map some ++ rest = slots pagedPageSize object index n) :
    Sound object { p with cache := p.cache.keep index pages } :=
  ⟨h.reader, h.len, h.cache.keep pages index n rest hslots⟩

/-- **One call fills a run of slots**, and it teaches a length only where the object ends. -/
theorem fetchRun_spec (h : Sound object p) {index run : Nat}
    (hfirst : p.len = unknownLen ∨ index * pagedPageSize ≤ p.len)
    (hfit : (index + run) * pagedPageSize < 2 ^ 64) :
    ∃ p', p.fetchRun index run = some (p', .ok (slots pagedPageSize object index run)) ∧
      Sound object p' ∧ (p'.len = p.len ∨ object.length < (index + run) * pagedPageSize) := by
  have hrun : index * pagedPageSize ≤ (index + run) * pagedPageSize :=
    Nat.mul_le_mul_right _ (Nat.le_add_right index run)
  have hstart : index * pagedPageSize ≤ p.clamp ((index + run) * pagedPageSize) :=
    le_clamp hrun hfirst
  have hclamp := h.take_clamp (index * pagedPageSize) ((index + run) * pagedPageSize)
  have hend := p.clamp_le ((index + run) * pagedPageSize)
  unfold window at hclamp
  rw [show (index + run) * pagedPageSize - index * pagedPageSize = run * pagedPageSize by
    rw [Nat.add_mul]; omega] at hclamp
  have hcut := chunks_of_answer object run index _ _ (Nat.le_refl _) hclamp
  unfold fetchRun
  simp only
  rw [if_neg (by omega), h.reader]
  simp only
  rw [if_neg (by rw [List.length_take]; omega), hcut]
  obtain ⟨hlearned, hlen⟩ := h.learnFrom (index * pagedPageSize)
    (p.clamp ((index + run) * pagedPageSize) - index * pagedPageSize)
  refine ⟨_, rfl, hlearned.keep hcut, ?_⟩
  rw [withCache_len]
  exact hlen.imp id fun hshort => by omega

/-! ### All missing pages -/

theorem fetchRun_overflow {index run : Nat} (h : 2 ^ 64 ≤ (index + run) * pagedPageSize) :
    p.fetchRun index run = none := by
  unfold fetchRun
  simp only
  rw [if_pos (Or.inl h)]

theorem Partly.drop : ∀ (n index : Nat) {pages : List (Option Bytes)}, Partly object index pages →
    Partly object (index + n) (pages.drop n) := by
  intro n
  induction n with
  | zero =>
      intro index pages h
      exact h
  | succ n ih =>
      intro index pages h
      cases pages with
      | nil => trivial
      | cons hit rest =>
          have := ih (index + 1) h.2
          rwa [show index + 1 + n = index + (n + 1) by omega] at this

theorem drop_takeWhile_isNone (pages : List (Option Bytes)) :
    pages.drop (pages.takeWhile Option.isNone).length = [] ∨
      ∃ bytes behind, pages.drop (pages.takeWhile Option.isNone).length = some bytes :: behind := by
  induction pages with
  | nil => exact Or.inl rfl
  | cons hit rest ih =>
      cases hit with
      | none => exact ih
      | some bytes => exact Or.inr ⟨bytes, rest, rfl⟩

section

variable {fetch : PagedBytes → Nat → Nat → Option (PagedBytes × Except CoreError (List (Option Bytes)))}
  {index width : Nat} {rest : List (Option Bytes)}

theorem fetchPages_stop {fuel : Nat} (hwidth : (rest.takeWhile Option.isNone).length = width)
    (h : fetch p index (width + 1) = none) :
    fetchPages fetch (fuel + 1) p index (none :: rest) = none := by
  unfold fetchPages
  simp only
  rw [hwidth, h]

theorem fetchPages_run {fuel : Nat} {mid : PagedBytes} {fetched : List (Option Bytes)}
    (hwidth : (rest.takeWhile Option.isNone).length = width)
    (h : fetch p index (width + 1) = some (mid, .ok fetched)) :
    fetchPages fetch (fuel + 1) p index (none :: rest) =
      match fetchPages fetch fuel mid (index + (width + 1)) (rest.drop width) with
      | some (p, .ok behind) => some (p, .ok (fetched ++ behind))
      | other => other := by
  rw [fetchPages]
  rw [hwidth, h, Nat.add_sub_cancel]

end

/-- **Fetching what is missing fills every slot of the range.** -/
theorem fetchPages_spec : ∀ (fuel : Nat) {p : PagedBytes} {index : Nat}
    {pages : List (Option Bytes)}, pages.length ≤ fuel → Sound object p →
    Partly object index pages →
    (p.len = unknownLen ∨ pages = [] ∨ (index + pages.length - 1) * pagedPageSize ≤ p.len) →
    (fetchPages fetchRun fuel p index pages = none ∧ 2 ^ 64 ≤ (index + pages.length) * pagedPageSize) ∨
    ∃ p', fetchPages fetchRun fuel p index pages
        = some (p', .ok (slots pagedPageSize object index pages.length)) ∧ Sound object p' := by
  intro fuel
  induction fuel with
  | zero =>
      intro p index pages hfuel h _ _
      rw [List.length_eq_zero_iff.mp (Nat.le_zero.mp hfuel)]
      exact Or.inr ⟨p, rfl, h⟩
  | succ fuel ih =>
      intro p index pages hfuel h hpartly hlen
      match pages, hfuel, hpartly, hlen with
      | [], _, _, _ => exact Or.inr ⟨p, rfl, h⟩
      | some bytes :: rest, hfuel, hpartly, hlen =>
          have hindex : index + 1 + rest.length = index + (some bytes :: rest).length := by
            rw [List.length_cons]
            omega
          have hih := ih (p := p) (Nat.le_of_succ_le_succ hfuel) h hpartly.2 (by
            rw [hindex]
            rcases hlen with hlen | hlen | hlen
            · exact Or.inl hlen
            · cases hlen
            · exact Or.inr (Or.inr hlen))
          rw [hindex] at hih
          unfold fetchPages
          rcases hih with ⟨hnone, hover⟩ | ⟨p', hsome, hsound⟩
          · rw [hnone]
            exact Or.inl ⟨rfl, hover⟩
          · rw [hsome]
            refine Or.inr ⟨p', ?_, hsound⟩
            rw [List.length_cons, slots, hpartly.1 bytes rfl]
      | none :: rest, hfuel, hpartly, hlen =>
          generalize hwidth : (rest.takeWhile Option.isNone).length = width
          have hwidth_le : width ≤ rest.length := by
            have hsub : (rest.takeWhile Option.isNone).Sublist rest := List.takeWhile_sublist _
            have := hsub.length_le
            omega
          have hcount : (none :: rest).length = width + 1 + (rest.drop width).length := by
            rw [List.length_cons, List.length_drop]
            omega
          by_cases hover : 2 ^ 64 ≤ (index + (width + 1)) * pagedPageSize
          · refine Or.inl ⟨fetchPages_stop hwidth (fetchRun_overflow hover),
              Nat.le_trans hover (Nat.mul_le_mul_right _ ?_)⟩
            omega
          · have hfirst : p.len = unknownLen ∨ index * pagedPageSize ≤ p.len := by
              rcases hlen with hlen | hlen | hlen
              · exact Or.inl hlen
              · cases hlen
              · refine Or.inr (Nat.le_trans (Nat.mul_le_mul_right _ ?_) hlen)
                rw [List.length_cons]
                omega
            have hfit : (index + (width + 1)) * pagedPageSize < 2 ^ 64 := Nat.lt_of_not_le hover
            obtain ⟨mid, hmid, hsound, hlearned⟩ := fetchRun_spec h hfirst hfit
            have hbehind : Partly object (index + (width + 1)) (rest.drop width) := by
              have := Partly.drop (width + 1) index hpartly
              rwa [List.drop_succ_cons] at this
            have hmidlen : mid.len = unknownLen ∨ rest.drop width = [] ∨
                (index + (width + 1) + (rest.drop width).length - 1) * pagedPageSize ≤ mid.len := by
              rcases hwidth ▸ drop_takeWhile_isNone rest with hnil | ⟨bytes, behind, hcons⟩
              · exact Or.inr (Or.inl hnil)
              · -- a cached page behind the run: the object has not ended in it
                rw [hcons] at hbehind
                have hslot := hbehind.1 bytes rfl
                unfold slot at hslot
                have hkept : mid.len = p.len := by
                  refine hlearned.resolve_right fun hshort => ?_
                  rw [if_pos (Nat.le_of_lt hshort)] at hslot
                  cases hslot
                rw [hkept]
                rcases hlen with hlen | hlen | hlen
                · exact Or.inl hlen
                · cases hlen
                · refine Or.inr (Or.inr ?_)
                  rwa [hcount, ← Nat.add_assoc] at hlen
            have hshorter : (rest.drop width).length ≤ fuel := by
              rw [List.length_drop]
              rw [List.length_cons] at hfuel
              omega
            have hih := ih hshorter hsound hbehind hmidlen
            rw [fetchPages_run hwidth hmid]
            rcases hih with ⟨hnone, hover⟩ | ⟨p', hsome, hsound'⟩
            · rw [hnone]
              refine Or.inl ⟨rfl, ?_⟩
              rwa [hcount, ← Nat.add_assoc]
            · rw [hsome]
              refine Or.inr ⟨p', ?_, hsound'⟩
              rw [hcount, slots_add object (width + 1)]

end PagedBytes

end LimniFS
