/-
Page boundaries at the end of the address space.

A paged read checks that its own end fits a word, and then rounds it up to the end of a page.
The last page ends one behind the largest offset, so a read that reaches into it overflows
where the missing pages in front of that end are fetched.

Besides, a read allocates a vector for its pages and one for its bytes, as long as was asked for where
the length is not known.  Nothing else can go wrong: `read_at_bounded_iff` says exactly which reads are
answered, with bytes or with a corruption, in every state that calls lead to.
-/
import LimniFS.PagedFetch

namespace LimniFS

open Lib

namespace PagedBytes

variable {object : Bytes} {p : PagedBytes}

/-! ### Reads -/

theorem assemble_ne_none {offset stop : Nat} : ∀ (pages : List (Option Bytes)) (index : Nat),
    (pages ≠ [] → (index + pages.length) * pagedPageSize < 2 ^ 64) →
    PagedBytes.assemble offset stop index pages ≠ none := by
  intro pages
  induction pages with
  | nil =>
      intro index _
      exact Option.some_ne_none _
  | cons hit rest ih =>
      intro index hfit
      have hfit := hfit (List.cons_ne_nil _ _)
      cases hit with
      | none => exact Option.some_ne_none _
      | some bytes =>
          have hnext : (index + 1) * pagedPageSize ≤ (index + (some bytes :: rest).length) * pagedPageSize :=
            Nat.mul_le_mul_right _ (by rw [List.length_cons]; omega)
          rw [Nat.succ_mul] at hnext
          unfold PagedBytes.assemble
          simp only
          rw [if_neg (by omega)]
          split
          · exact Option.some_ne_none _
          · split
            · exact Option.some_ne_none _
            · rw [Ne, Option.map_eq_none_iff]
              refine ih (index + 1) fun _ => ?_
              rw [Nat.add_assoc, Nat.add_comm 1]
              exact hfit

/-- The reader fails at a run of missing pages in front of a cached one of the range. -/
def RefusedBefore (p : PagedBytes) (first last : Nat) : Prop :=
  ∃ i n, first ≤ i ∧ 0 < n ∧ i + n ≤ last ∧ (∀ k < n, ¬ p.cache.Caches (i + k)) ∧
    p.cache.Caches (i + n) ∧ (i = first ∨ p.cache.Caches (i - 1)) ∧
    ∃ e, p.reader (i * pagedPageSize) (n * pagedPageSize) = .error e

/-- The reader fails at the run of missing pages that the range ends with. -/
def RefusedLast (p : PagedBytes) (first last : Nat) : Prop :=
  ∃ i, first ≤ i ∧ i ≤ last ∧ (∀ k, i ≤ k → k ≤ last → ¬ p.cache.Caches k) ∧
    (i = first ∨ p.cache.Caches (i - 1)) ∧
    ∃ e, p.reader (i * pagedPageSize)
      (p.clamp ((last + 1) * pagedPageSize) - i * pagedPageSize) = .error e

/-- The vector of the pages fits; and the read fails before it comes to the last run of missing pages,
or ends in front of the last page of the address space, and then the reader fails at that run or the
vector of the bytes fits. -/
def PagesFit (memory : Nat) (p : PagedBytes) (offset stop : Nat) : Prop :=
  Allocates memory (pageCount offset stop * pageSlotBytes) ∧
    (p.RefusedBefore (offset / pagedPageSize) ((stop - 1) / pagedPageSize) ∨
      (stop ≤ 2 ^ 64 - pagedPageSize ∧
        (p.RefusedLast (offset / pagedPageSize) ((stop - 1) / pagedPageSize) ∨
          Allocates memory (stop - offset))))

/-- The read does not fit a word itself, or it is empty, or its pages fit. -/
def ReadFits (memory : Nat) (p : PagedBytes) (offset len : Nat) : Prop :=
  2 ^ 64 ≤ offset + len ∨ p.clamp (offset + len) ≤ offset ∨
    p.PagesFit memory offset (p.clamp (offset + len))

/-- The call returns, and its error is a corruption. -/
def ReadAnswered (answer : Option (PagedBytes × Except CoreError Bytes)) : Prop :=
  ∃ p r, answer = some (p, r) ∧ ∀ e, r = .error e → ∃ reason, e = .corrupt reason

theorem not_readAnswered_none : ¬ ReadAnswered none := by
  rintro ⟨p, r, hread, -⟩
  cases hread

theorem readAnswered_ok (p : PagedBytes) (bytes : Bytes) : ReadAnswered (some (p, .ok bytes)) :=
  ⟨p, _, rfl, fun _ he => (by cases he)⟩

theorem readAnswered_corrupt (p : PagedBytes) (reason : String) :
    ReadAnswered (some (p, .error (.corrupt reason))) := by
  refine ⟨p, _, rfl, fun e he => ?_⟩
  cases he
  exact ⟨reason, rfl⟩

/-! ### Slots and cached pages -/

section

variable {first last : Nat} {pages : List (Option Bytes)}
  (hslots : ∀ k hit, pages[k]? = some hit → (hit.isSome ↔ p.cache.Caches (first + k)))

include hslots

theorem slot_filled_iff {k : Nat} (hk : k < pages.length) :
    (∃ bytes, pages[k]? = some (some bytes)) ↔ p.cache.Caches (first + k) := by
  rw [← hslots k _ (List.getElem?_eq_getElem hk), Option.isSome_iff_exists,
    List.getElem?_eq_getElem hk]
  simp only [Option.some.injEq]

theorem slot_missing_iff {k : Nat} (hk : k < pages.length) :
    pages[k]? = some none ↔ ¬ p.cache.Caches (first + k) := by
  rw [← hslots k _ (List.getElem?_eq_getElem hk), List.getElem?_eq_getElem hk]
  simp

/-- The slots of a range and the pages that are cached. -/
theorem runRefused_iff_before (hle : first ≤ last) (hlen : pages.length = last - first + 1) :
    RunRefused p.reader first pages ↔ p.RefusedBefore first last := by
  constructor
  · rintro ⟨i, n, hn, hrun, hend, hbegin, he⟩
    have hin : i + n < pages.length := by
      obtain ⟨bytes, hend⟩ := hend
      exact (List.getElem?_eq_some_iff.mp hend).1
    refine ⟨first + i, n, by omega, hn, by omega, fun k hk => ?_, ?_, ?_, he⟩
    · rw [Nat.add_assoc]
      exact (slot_missing_iff hslots (by omega)).mp (hrun k hk)
    · rw [Nat.add_assoc]
      exact (slot_filled_iff hslots hin).mp hend
    · by_cases hi : i = 0
      · exact .inl (by rw [hi]; rfl)
      · right
        rw [show first + i - 1 = first + (i - 1) by omega]
        exact (slot_filled_iff hslots (by omega)).mp (hbegin.resolve_left hi)
  · rintro ⟨i, n, hi, hn, hlast, hrun, hend, hbegin, he⟩
    obtain ⟨j, rfl⟩ : ∃ j, i = first + j := ⟨i - first, by omega⟩
    refine ⟨j, n, hn, fun k hk => ?_, ?_, ?_, he⟩
    · refine (slot_missing_iff hslots (by omega)).mpr ?_
      rw [← Nat.add_assoc]
      exact hrun k hk
    · refine (slot_filled_iff hslots (by omega)).mpr ?_
      rwa [← Nat.add_assoc]
    · by_cases hj : j = 0
      · exact .inl hj
      · refine .inr ((slot_filled_iff hslots (by omega)).mpr ?_)
        rw [show first + (j - 1) = first + j - 1 by omega]
        exact hbegin.resolve_left (by omega)

theorem lastRefused_iff_last (hle : first ≤ last) (hlen : pages.length = last - first + 1) :
    LastRefused p.reader p.clamp first pages ↔ p.RefusedLast first last := by
  have hstop : first + pages.length = last + 1 := by omega
  constructor
  · rintro ⟨front, n, hn, rfl, hends, he⟩
    rw [hstop] at he
    rw [List.length_append, List.length_replicate] at hlen
    refine ⟨first + front.length, by omega, by omega, fun k hk hlast => ?_, ?_, he⟩
    · obtain ⟨j, rfl⟩ : ∃ j, k = first + (front.length + j) := ⟨k - first - front.length, by omega⟩
      refine (slot_missing_iff hslots ?_).mp ?_
      · rw [List.length_append, List.length_replicate]
        omega
      · rw [List.getElem?_append_right (Nat.le_add_right _ _), Nat.add_sub_cancel_left,
          List.getElem?_replicate, if_pos (by omega)]
    · rcases hends with rfl | ⟨init, bytes, rfl⟩
      · exact .inl rfl
      · right
        rw [List.length_append, List.length_singleton, ← Nat.add_assoc, Nat.add_sub_cancel]
        refine (slot_filled_iff hslots ?_).mp ⟨bytes, ?_⟩
        · simp only [List.length_append, List.length_singleton]
          omega
        · rw [List.append_assoc, List.getElem?_append_right (Nat.le_refl _), Nat.sub_self]
          rfl
  · rintro ⟨i, hi, hlast, hfree, hbegin, he⟩
    obtain ⟨j, rfl⟩ : ∃ j, i = first + j := ⟨i - first, by omega⟩
    have hfront : (pages.take j).length = j := by
      rw [List.length_take]
      omega
    have hbehind : pages.drop j = List.replicate (pages.length - j) none := by
      refine List.eq_replicate_iff.mpr ⟨List.length_drop, fun hit hmem => ?_⟩
      obtain ⟨k, hk, hget⟩ := List.mem_iff_getElem.mp hmem
      rw [List.length_drop] at hk
      have hnone := (slot_missing_iff hslots (k := j + k) (by omega)).mpr
        (hfree _ (by omega) (by omega))
      rw [List.getElem_drop] at hget
      rw [List.getElem?_eq_getElem (by omega), hget] at hnone
      exact Option.some.inj hnone
    refine ⟨pages.take j, pages.length - j, by omega, ?_, ?_, ?_⟩
    · rw [← hbehind, List.take_append_drop]
    · by_cases hj : j = 0
      · exact .inl (by rw [hj, List.take_zero])
      · right
        obtain ⟨bytes, hget⟩ := (slot_filled_iff hslots (k := j - 1) (by omega)).mpr (by
          rw [show first + (j - 1) = first + j - 1 by omega]
          exact hbegin.resolve_left (by omega))
        refine ⟨pages.take (j - 1), bytes, ?_⟩
        have htake := @List.take_add_one _ pages (j - 1)
        rwa [hget, Nat.sub_add_cancel (Nat.pos_of_ne_zero hj)] at htake
    · rwa [hfront, hstop]

end

/-- The pages from `first` to `last` are fetched, or not, by what the cache holds of them. -/
theorem Kept.fetch_range (h : Kept object p) {first last : Nat} (horder : first ≤ last)
    (hknown : p.len = unknownLen ∨ last * pagedPageSize ≤ p.len) {cache : PageCache}
    {pages : List (Option Bytes)}
    (hsnap : p.cache.snapshot (List.range' first (last - first + 1)) = (cache, pages)) :
    pages.length = last - first + 1 ∧
      (RunRefused p.reader first pages ↔ p.RefusedBefore first last) ∧
      (LastRefused p.reader p.clamp first pages ↔ p.RefusedLast first last) ∧
      FetchOutcome object p.reader p.clamp first pages
        (fetchPages PagedBytes.fetchRun (last - first + 1) { p with cache } first pages) := by
  obtain ⟨hcaches, hfetched, hlen, hslots⟩ :=
    @PageCache.snapshot_caches object (last - first + 1) first p.cache
  rw [hsnap] at hcaches hfetched hlen hslots
  refine ⟨hlen, runRefused_iff_before hslots horder hlen, lastRefused_iff_last hslots horder hlen, ?_⟩
  have hkept : Kept object { p with cache } := ⟨h.reader, hfetched h.cache⟩
  refine fetchPages_outcome (last - first + 1) (Nat.le_of_eq hlen) hkept
    (fun k bytes hk => ?_) (hknown.imp id fun hknown => .inr ?_)
  · have hcached := (hslots k _ hk).mp rfl
    exact ⟨h.cache.reach _ hcached, h.cache.fits _ hcached⟩
  · rwa [hlen, show first + (last - first + 1) - 1 = last by omega]

/-- **The pages of a range that is not empty.** -/
theorem Kept.readPages_answered_iff (h : Kept object p) (memory : Nat) {offset stop : Nat}
    (hpast : offset < stop) (hknown : p.len = unknownLen ∨ stop ≤ p.len) :
    (ReadAnswered (p.readPages memory offset stop) ↔ p.PagesFit memory offset stop) ∧
    ∀ p' r, p.readPages memory offset stop = some (p', r) → Kept object p' := by
  unfold PagesFit PagedBytes.readPages
  by_cases hvector : Allocates memory (pageCount offset stop * pageSlotBytes)
  · rw [if_pos hvector]
    simp only [hvector, true_and]
    unfold pageCount
    have horder : offset / pagedPageSize ≤ (stop - 1) / pagedPageSize :=
      Nat.div_le_div_right (by omega)
    have hstart : (stop - 1) / pagedPageSize * pagedPageSize ≤ stop - 1 :=
      Nat.div_mul_le_self _ _
    have hlast : ((stop - 1) / pagedPageSize + 1) * pagedPageSize < 2 ^ 64 ↔
        stop ≤ 2 ^ 64 - pagedPageSize := by
      unfold pagedPageSize
      omega
    generalize offset / pagedPageSize = first at *
    generalize (stop - 1) / pagedPageSize = last at *
    generalize hsnap : p.cache.snapshot (List.range' first (last - first + 1)) = snap
    obtain ⟨cache, pages⟩ := snap
    obtain ⟨hlen, hbefore, hbehind, houtcome⟩ :=
      h.fetch_range horder (hknown.imp id fun hknown => by omega) hsnap
    have hend : first + pages.length = last + 1 := by omega
    simp only
    generalize fetchPages PagedBytes.fetchRun (last - first + 1) { p with cache } first pages
      = answer at houtcome ⊢
    cases houtcome with
    | refused p' reason hrefused hkept' =>
        refine ⟨iff_of_true (readAnswered_corrupt p' reason) (.inl (hbefore.mp hrefused)), ?_⟩
        intro q r hread
        cases hread
        exact hkept'
    | overflow hfree _ hbeyond =>
        rw [hend] at hbeyond
        refine ⟨iff_of_false not_readAnswered_none fun hfits => ?_, fun q r hread => (by cases hread)⟩
        rcases hfits with hfits | ⟨hfits, -⟩
        · exact hfree (hbefore.mpr hfits)
        · exact absurd (hlast.mpr hfits) (Nat.not_lt.mpr hbeyond)
    | failed p' reason hfree hbelow hrefused hkept' =>
        rw [hend] at hbelow
        refine ⟨iff_of_true (readAnswered_corrupt p' reason)
          (.inr ⟨hlast.mp hbelow, .inl (hbehind.mp hrefused)⟩), fun q r hread => ?_⟩
        cases hread
        exact hkept'
    | fetched p' out hfree hbelow hgiven hkept' hout =>
        have hbelow := hbelow (List.ne_nil_of_length_pos (by omega))
        have hfit : out ≠ [] → (first + out.length) * pagedPageSize < 2 ^ 64 :=
          fun _ => hout ▸ hbelow
        rw [hend] at hbelow
        simp only
        by_cases hbytes : Allocates memory (stop - offset)
        · obtain ⟨bytes, hassembled⟩ := Option.ne_none_iff_exists'.mp
            (@assemble_ne_none offset stop out first hfit)
          rw [if_pos hbytes, hassembled]
          refine ⟨iff_of_true (readAnswered_ok p' bytes) (.inr ⟨hlast.mp hbelow, .inr hbytes⟩),
            fun q r hread => ?_⟩
          cases hread
          exact hkept'
        · rw [if_neg hbytes]
          refine ⟨iff_of_false not_readAnswered_none fun hfits => ?_,
            fun q r hread => (by cases hread)⟩
          rcases hfits with hfits | ⟨-, hfits | hfits⟩
          · exact hfree (hbefore.mpr hfits)
          · exact hgiven (hbehind.mpr hfits)
          · exact hbytes hfits
  · rw [if_neg hvector]
    exact ⟨iff_of_false not_readAnswered_none fun hfits => hvector hfits.1,
      fun q r hread => (by cases hread)⟩

/-- **A read is answered exactly if it does not come to the end of the last page**, and its vectors
fit. -/
theorem Kept.readAt_answered_iff (h : Kept object p) (memory offset len : Nat) :
    (ReadAnswered (p.readAt memory offset len) ↔ p.ReadFits memory offset len) ∧
    ∀ p' r, p.readAt memory offset len = some (p', r) → Kept object p' := by
  unfold ReadFits PagedBytes.readAt
  have hle := p.clamp_le (offset + len)
  have hknown := p.clamp_known (offset + len)
  by_cases hover : 2 ^ 64 ≤ offset + len
  · rw [if_pos hover]
    refine ⟨iff_of_true (readAnswered_corrupt p _) (.inl hover), fun p' r hread => ?_⟩
    cases hread
    exact h
  · rw [if_neg hover]
    by_cases hzero : len = 0
    · rw [if_pos hzero]
      refine ⟨iff_of_true (readAnswered_ok p []) (.inr (.inl (by omega))), fun p' r hread => ?_⟩
      cases hread
      exact h
    · rw [if_neg hzero]
      simp only
      by_cases hpast : p.clamp (offset + len) ≤ offset
      · rw [if_pos hpast]
        refine ⟨iff_of_true (readAnswered_ok p []) (.inr (.inl hpast)), fun p' r hread => ?_⟩
        cases hread
        exact h
      · rw [if_neg hpast]
        obtain ⟨hiff, hkept⟩ := h.readPages_answered_iff memory (Nat.lt_of_not_le hpast) hknown
        simp only [hover, hpast, false_or]
        exact ⟨hiff, hkept⟩

/-! ### Runs -/

/-- A call on a reader, whose length may be pinned to anything. -/
inductive Request where
  | readAt (offset len : Nat)
  | setLen (len : Nat)

/-- The state a call leaves, if the program goes on. -/
def Request.apply (memory : Nat) (p : PagedBytes) : Request → Option PagedBytes
  | .readAt offset len => (p.readAt memory offset len).map Prod.fst
  | .setLen len => some (p.setLen len)

def serve (memory : Nat) (p : PagedBytes) (requests : List Request) : Option PagedBytes :=
  requests.foldlM (Request.apply memory) p

theorem Kept.apply (h : Kept object p) {memory : Nat} {request : Request} {p' : PagedBytes}
    (hcall : request.apply memory p = some p') : Kept object p' := by
  cases request with
  | readAt offset len =>
      obtain ⟨⟨q, r⟩, hread, rfl⟩ := Option.map_eq_some_iff.mp hcall
      exact (h.readAt_answered_iff memory offset len).2 q r hread
  | setLen len =>
      cases hcall
      exact ⟨h.reader, h.cache⟩

theorem Kept.serve {memory : Nat} : ∀ (requests : List Request) {p p' : PagedBytes},
    Kept object p → p.serve memory requests = some p' → Kept object p' := by
  intro requests
  induction requests with
  | nil =>
      intro p p' h hrun
      cases hrun
      exact h
  | cons request requests ih =>
      intro p p' h hrun
      rw [PagedBytes.serve, List.foldlM_cons] at hrun
      obtain ⟨mid, hmid, hrest⟩ := Option.bind_eq_some_iff.mp hrun
      exact ih (h.apply hmid) hrest

theorem kept_withCachePages {reader : PositionedReader} (h : PreadContract object reader)
    (cachePages : Nat) : Kept object (withCachePages reader cachePages) := by
  refine ⟨h, ?_, ?_⟩
  · rintro index ⟨bytes, hmem⟩
    cases hmem
  · rintro index ⟨bytes, hmem⟩
    cases hmem

/-- **In every state that calls lead to, and in any other whose pages were fetched, a read returns
bytes or a corruption exactly if it does not reach into the last page of the address space and its
vectors fit**, or does not fit a word itself, or is empty, or fails before it comes to that. -/
theorem read_at_bounded_iff {object : Bytes} {reader : PositionedReader}
    (hreader : PreadContract object reader) (memory : Nat) :
    (∀ cachePages requests p,
      (withCachePages reader cachePages).serve memory requests = some p → Kept object p) ∧
    ∀ p, Kept object p → ∀ offset len,
      ReadAnswered (p.readAt memory offset len) ↔ p.ReadFits memory offset len :=
  ⟨fun cachePages requests _ hrun =>
      (kept_withCachePages hreader cachePages).serve requests hrun,
    fun _ h offset len => (h.readAt_answered_iff memory offset len).1⟩

/-- An object of three bytes, read once and pinned behind its end. -/
theorem read_at_bounded_iff_short :
    ∃ p, (withCachePages (fun offset len => .ok (([1, 2, 3] : Bytes).drop offset |>.take len)) 1).serve
        4096 [.readAt 0 2, .setLen 9] = some p ∧
      (ReadAnswered (p.readAt 4096 1 7) ↔ p.ReadFits 4096 1 7) := by
  cases hrun : (withCachePages (fun offset len =>
      .ok (([1, 2, 3] : Bytes).drop offset |>.take len)) 1).serve 4096 [.readAt 0 2, .setLen 9] with
  | none => exact absurd (congrArg Option.isSome hrun) (by decide +kernel)
  | some p =>
      have hcontract : PreadContract [1, 2, 3]
          (fun offset len => .ok (([1, 2, 3] : Bytes).drop offset |>.take len)) :=
        fun _ _ => .inl rfl
      obtain ⟨hkept, hanswered⟩ := read_at_bounded_iff hcontract 4096
      exact ⟨p, rfl, hanswered p (hkept 1 _ p hrun) 1 7⟩

/-- **The last byte but one of the address space**, of an empty object whose length is not known
and of one whose length is pinned there: the sum fits a word, and the end of its page does not. -/
theorem last_page_overflows :
    PreadContract [] (fun _ _ => .ok []) ∧
      2 ^ 64 - 2 + 1 < 2 ^ 64 ∧
      ((withCachePages (fun _ _ => .ok []) 1).readAt isizeMax (2 ^ 64 - 2) 1).isNone ∧
      (((withCachePages (fun _ _ => .ok []) 1).setLen (2 ^ 64 - 2)).readAt isizeMax
        (2 ^ 64 - 3) 1).isNone ∧
      ¬ ReadAnswered ((withCachePages (fun _ _ => .ok []) 1).readAt isizeMax (2 ^ 64 - 2) 1) := by
  have hnone : ((withCachePages (fun _ _ => .ok []) 1).readAt isizeMax (2 ^ 64 - 2) 1).isNone := by
    decide +kernel
  refine ⟨fun offset len => .inl ?_, by decide, hnone, by decide +kernel, ?_⟩
  · rw [List.drop_nil, List.take_nil]
  · rw [Option.isNone_iff_eq_none.mp hnone]
    exact not_readAnswered_none

end PagedBytes

end LimniFS
