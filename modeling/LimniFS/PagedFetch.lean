/-
Fetching the missing pages of a range.

Each run of missing pages is one call of the reader, which may fail.  A run in front of a cached
page lies in the object and ends at an offset that fits a word, whatever the length is pinned to;
so only the last run can overflow, and only where the range ends behind every offset
(`fetchPages_outcome`).
-/
import LimniFS.PagedReads

namespace LimniFS

open Lib

/-- The contract of a reader of the object: the bytes that are there, or a transport error. -/
def PreadContract (object : Bytes) (reader : PositionedReader) : Prop :=
  ∀ offset len, reader offset len = .ok ((object.drop offset).take len) ∨
    ∃ reason, reader offset len = .error (.corrupt reason)

namespace PagedBytes

variable {object : Bytes} {p : PagedBytes}

/-- What holds of a reader between any two calls, whatever its length is pinned to. -/
structure Kept (object : Bytes) (p : PagedBytes) : Prop where
  reader : PreadContract object p.reader
  cache : p.cache.Fetched object

/-! ### One call -/

theorem chunksOf_count {size : Nat} (hsize : 0 < size) : ∀ (fuel : Nat) (l : Bytes),
    (chunksOf size fuel l).length * size < l.length + size := by
  intro fuel
  induction fuel with
  | zero =>
      intro l
      rw [chunksOf, List.length_nil, Nat.zero_mul]
      omega
  | succ fuel ih =>
      intro l
      unfold chunksOf
      by_cases hnil : l = []
      · rw [if_pos hnil, List.length_nil, Nat.zero_mul]
        omega
      · have hpos := List.length_pos_iff.mpr hnil
        have hrest := ih (l.drop size)
        rw [List.length_drop] at hrest
        rw [if_neg hnil, List.length_cons, Nat.succ_mul]
        by_cases hshort : l.length ≤ size
        · have hnone : (chunksOf size fuel (l.drop size)).length = 0 := by
            rw [List.drop_eq_nil_of_le hshort]
            cases fuel <;> rfl
          rw [hnone]
          omega
        · omega

section

variable {index run : Nat}

/-- A call whose answer is taken. -/
theorem fetchRun_ok {bytes : Bytes} (hfit : (index + run) * pagedPageSize < 2 ^ 64)
    (hstart : index * pagedPageSize ≤ p.clamp ((index + run) * pagedPageSize))
    (hread : p.reader (index * pagedPageSize)
      (p.clamp ((index + run) * pagedPageSize) - index * pagedPageSize) = .ok bytes)
    (hle : bytes.length ≤ p.clamp ((index + run) * pagedPageSize) - index * pagedPageSize) :
    ∃ p', p.fetchRun index run = some (p', .ok ((chunksOf pagedPageSize bytes.length bytes).map some
        ++ List.replicate (run - (chunksOf pagedPageSize bytes.length bytes).length) none)) ∧
      p'.reader = p.reader ∧
      p'.cache = p.cache.keep index (chunksOf pagedPageSize bytes.length bytes) ∧
      (p'.len = p.len ∨
        bytes.length < p.clamp ((index + run) * pagedPageSize) - index * pagedPageSize) := by
  unfold PagedBytes.fetchRun
  simp only
  rw [if_neg (by omega), hread]
  simp only
  rw [if_neg (by omega)]
  refine ⟨_, rfl, ?_⟩
  rcases learnFrom_cases p (index * pagedPageSize)
    (p.clamp ((index + run) * pagedPageSize) - index * pagedPageSize) bytes with heq | ⟨hshort, heq⟩
  · rw [heq]
    exact ⟨rfl, rfl, .inl rfl⟩
  · rw [heq]
    exact ⟨rfl, rfl, .inr hshort⟩

/-- A call that the reader refuses. -/
theorem fetchRun_error {e : CoreError} (hfit : (index + run) * pagedPageSize < 2 ^ 64)
    (hstart : index * pagedPageSize ≤ p.clamp ((index + run) * pagedPageSize))
    (hread : p.reader (index * pagedPageSize)
      (p.clamp ((index + run) * pagedPageSize) - index * pagedPageSize) = .error e) :
    p.fetchRun index run = some (p, .error e) := by
  unfold PagedBytes.fetchRun
  simp only
  rw [if_neg (by omega), hread]

theorem chunks_of_read {object bytes : Bytes}
    (hle : bytes.length ≤ run * pagedPageSize)
    (hin : bytes.length ≤ object.length - index * pagedPageSize) :
    (chunksOf pagedPageSize bytes.length bytes).length ≤ run ∧
    (chunksOf pagedPageSize bytes.length bytes ≠ [] →
      (index + (chunksOf pagedPageSize bytes.length bytes).length - 1) * pagedPageSize
        < object.length) := by
  have hcount := chunksOf_count (show 0 < pagedPageSize by decide) bytes.length bytes
  generalize chunksOf pagedPageSize bytes.length bytes = fetched at hcount ⊢
  refine ⟨?_, fun hne => ?_⟩
  · by_contra hlt
    have hmore : (run + 1) * pagedPageSize ≤ fetched.length * pagedPageSize :=
      Nat.mul_le_mul_right _ (Nat.lt_of_not_le hlt)
    rw [Nat.succ_mul] at hmore
    omega
  · have hpos : 1 ≤ fetched.length := List.length_pos_iff.mpr hne
    have hlast : fetched.length * pagedPageSize
        = (fetched.length - 1) * pagedPageSize + pagedPageSize := by
      rw [← Nat.succ_mul, Nat.succ_eq_add_one, Nat.sub_add_cancel hpos]
    rw [Nat.add_sub_assoc hpos, Nat.add_mul]
    omega

/-- **A run of missing pages whose end fits a word**: a refusal of the reader, or its slots. -/
theorem Kept.fetchRun (h : Kept object p)
    (hfirst : p.len = unknownLen ∨ index * pagedPageSize ≤ p.len)
    (hfit : (index + run) * pagedPageSize < 2 ^ 64) :
    (∃ reason, p.fetchRun index run = some (p, .error (.corrupt reason)) ∧
      p.reader (index * pagedPageSize)
        (p.clamp ((index + run) * pagedPageSize) - index * pagedPageSize)
          = .error (.corrupt reason)) ∨
    ∃ p' fetched, p.fetchRun index run = some (p', .ok fetched) ∧ fetched.length = run ∧
      Kept object p' ∧ p'.reader = p.reader ∧
      (p'.len = p.len ∨ object.length < (index + run) * pagedPageSize) ∧
      ∃ plain, p.reader (index * pagedPageSize)
        (p.clamp ((index + run) * pagedPageSize) - index * pagedPageSize) = .ok plain := by
  have hrun : index * pagedPageSize ≤ (index + run) * pagedPageSize :=
    Nat.mul_le_mul_right _ (Nat.le_add_right index run)
  have hstart : index * pagedPageSize ≤ p.clamp ((index + run) * pagedPageSize) :=
    le_clamp hrun hfirst
  have hend := p.clamp_le ((index + run) * pagedPageSize)
  have hwidth : (index + run) * pagedPageSize = index * pagedPageSize + run * pagedPageSize :=
    Nat.add_mul _ _ _
  rcases h.reader (index * pagedPageSize)
    (p.clamp ((index + run) * pagedPageSize) - index * pagedPageSize) with hread | ⟨reason, hread⟩
  · right
    obtain ⟨bytes, hbytes⟩ : ∃ bytes, bytes = (object.drop (index * pagedPageSize)).take
      (p.clamp ((index + run) * pagedPageSize) - index * pagedPageSize) := ⟨_, rfl⟩
    have hlen : bytes.length = min (p.clamp ((index + run) * pagedPageSize) - index * pagedPageSize)
        (object.length - index * pagedPageSize) := by
      rw [hbytes, List.length_take, List.length_drop]
    rw [← hbytes] at hread
    obtain ⟨hcount, hreach⟩ := @chunks_of_read index run object bytes (by omega) (by omega)
    obtain ⟨p', hfetch, hreader, hcache, hlearned⟩ := fetchRun_ok hfit hstart hread (by omega)
    refine ⟨p', _, hfetch, ?_, ⟨?_, ?_⟩, hreader, ?_, bytes, hread⟩
    · rw [List.length_append, List.length_map, List.length_replicate]
      omega
    · rw [hreader]
      exact h.reader
    · rw [hcache]
      exact h.cache.keep _ hreach (Nat.lt_of_le_of_lt
        (Nat.mul_le_mul_right _ (Nat.add_le_add_left hcount index)) hfit)
    · exact hlearned.imp id fun hshort => by omega
  · exact .inl ⟨reason, fetchRun_error hfit hstart hread, hread⟩

end

/-! ### All missing pages -/

/-- How fetching the missing pages ends: it is refused, or it overflows in the last run, or the reader
fails there, or it fills the slots. -/
inductive FetchOutcome (object : Bytes) (reader : PositionedReader) (limit : Nat → Nat) (index : Nat)
    (pages : List (Option Bytes)) : Option (PagedBytes × Except CoreError (List (Option Bytes))) → Prop
  | refused (p : PagedBytes) (reason : String) (hrefused : RunRefused reader index pages)
      (hkept : Kept object p) :
      FetchOutcome object reader limit index pages (some (p, .error (.corrupt reason)))
  | overflow (hfree : ¬ RunRefused reader index pages) (hne : pages ≠ [])
      (hover : 2 ^ 64 ≤ (index + pages.length) * pagedPageSize) :
      FetchOutcome object reader limit index pages none
  | failed (p : PagedBytes) (reason : String) (hfree : ¬ RunRefused reader index pages)
      (hfit : (index + pages.length) * pagedPageSize < 2 ^ 64)
      (hlast : LastRefused reader limit index pages) (hkept : Kept object p) :
      FetchOutcome object reader limit index pages (some (p, .error (.corrupt reason)))
  | fetched (p : PagedBytes) (out : List (Option Bytes)) (hfree : ¬ RunRefused reader index pages)
      (hfit : pages ≠ [] → (index + pages.length) * pagedPageSize < 2 ^ 64)
      (hlast : ¬ LastRefused reader limit index pages)
      (hkept : Kept object p) (hlen : out.length = pages.length) :
      FetchOutcome object reader limit index pages (some (p, .ok out))

/-- The pages that were fetched behind others. -/
def fetchedBehind (front : List (Option Bytes)) :
    Option (PagedBytes × Except CoreError (List (Option Bytes))) →
      Option (PagedBytes × Except CoreError (List (Option Bytes)))
  | some (p, .ok behind) => some (p, .ok (front ++ behind))
  | other => other

section

variable {fuel index width : Nat} {rest : List (Option Bytes)}

theorem fetchPages_cached (bytes : Bytes) :
    fetchPages PagedBytes.fetchRun (fuel + 1) p index (some bytes :: rest)
      = fetchedBehind [some bytes] (fetchPages PagedBytes.fetchRun fuel p (index + 1) rest) := by
  rw [fetchPages]
  rcases fetchPages PagedBytes.fetchRun fuel p (index + 1) rest with _ | ⟨p', e | pages⟩
  · rfl
  · rfl
  · rfl

theorem fetchPages_refused {mid : PagedBytes} {e : CoreError}
    (hwidth : (rest.takeWhile Option.isNone).length = width)
    (h : p.fetchRun index (width + 1) = some (mid, .error e)) :
    fetchPages PagedBytes.fetchRun (fuel + 1) p index (none :: rest) = some (mid, .error e) := by
  rw [fetchPages]
  rw [hwidth, h]

theorem fetchPages_behind {mid : PagedBytes} {fetched : List (Option Bytes)}
    (hwidth : (rest.takeWhile Option.isNone).length = width)
    (h : p.fetchRun index (width + 1) = some (mid, .ok fetched)) :
    fetchPages PagedBytes.fetchRun (fuel + 1) p index (none :: rest)
      = fetchedBehind fetched
        (fetchPages PagedBytes.fetchRun fuel mid (index + (width + 1)) (rest.drop width)) := by
  rw [fetchPages_run hwidth h]
  rcases fetchPages PagedBytes.fetchRun fuel mid (index + (width + 1)) (rest.drop width) with
    _ | ⟨p', e | pages⟩
  · rfl
  · rfl
  · rfl

/-- Missing pages in front of a cached one, or up to the end. -/
theorem pages_split (rest : List (Option Bytes)) :
    ∃ width, (rest.takeWhile Option.isNone).length = width ∧
      (none :: rest : List (Option Bytes)) = List.replicate (width + 1) none ++ rest.drop width ∧
      (rest.drop width = [] ∨ ∃ bytes behind, rest.drop width = some bytes :: behind) := by
  refine ⟨_, rfl, ?_, drop_takeWhile_isNone rest⟩
  induction rest with
  | nil => rfl
  | cons hit rest ih =>
      cases hit with
      | none =>
          rw [List.takeWhile_cons_of_pos rfl, List.length_cons, List.drop_succ_cons,
            List.replicate_succ, List.cons_append, ← ih]
      | some bytes => rfl

variable {reader : PositionedReader} {limit : Nat → Nat}
  {answer : Option (PagedBytes × Except CoreError (List (Option Bytes)))}

/-- The same runs are refused, and the range ends at the same place. -/
theorem FetchOutcome.behind {pages front behind : List (Option Bytes)}
    (h : FetchOutcome object reader limit (index + front.length) behind answer)
    (hlen : pages.length = front.length + behind.length)
    (hsame : RunRefused reader index pages ↔ RunRefused reader (index + front.length) behind)
    (hend : LastRefused reader limit index pages ↔
      LastRefused reader limit (index + front.length) behind)
    (hne : pages ≠ []) (hfit : behind = [] → (index + front.length) * pagedPageSize < 2 ^ 64) :
    FetchOutcome object reader limit index pages (fetchedBehind front answer) := by
  have hstop : index + pages.length = index + front.length + behind.length := by
    rw [hlen, Nat.add_assoc]
  cases h with
  | refused p reason hrefused hkept => exact .refused p reason (hsame.mpr hrefused) hkept
  | overflow hfree _ hover => exact .overflow (fun h => hfree (hsame.mp h)) hne (hstop ▸ hover)
  | failed p reason hfree hbelow hlast hkept =>
      exact .failed p reason (fun h => hfree (hsame.mp h)) (hstop ▸ hbelow) (hend.mpr hlast) hkept
  | fetched p out hfree hbelow hlast hkept hout =>
      refine .fetched p _ (fun h => hfree (hsame.mp h)) (fun _ => ?_) (fun h => hlast (hend.mp h))
        hkept ?_
      · rw [hstop]
        by_cases hnil : behind = []
        · rw [hnil, List.length_nil, Nat.add_zero]
          exact hfit hnil
        · exact hbelow hnil
      · rw [List.length_append, hout, hlen]

/-- Missing pages up to the end of the range. -/
theorem Kept.fetch_last (h : Kept object p)
    (hwidth : (rest.takeWhile Option.isNone).length = width) (hnil : rest.drop width = [])
    (hpages : (none :: rest : List (Option Bytes)) = List.replicate (width + 1) none)
    (hfirst : p.len = unknownLen ∨ index * pagedPageSize ≤ p.len) :
    FetchOutcome object p.reader p.clamp index (none :: rest)
      (fetchPages PagedBytes.fetchRun (fuel + 1) p index (none :: rest)) := by
  have hfree : ¬ RunRefused p.reader index (none :: rest) := by
    rw [hpages]
    exact not_runRefused_missing
  have hcount : (none :: rest).length = width + 1 := by rw [hpages, List.length_replicate]
  have hlast : LastRefused p.reader p.clamp index (none :: rest) ↔ ∃ e,
      p.reader (index * pagedPageSize)
        (p.clamp ((index + (width + 1)) * pagedPageSize) - index * pagedPageSize) = .error e := by
    rw [hpages]
    exact lastRefused_missing_iff (Nat.succ_pos width)
  by_cases hover : 2 ^ 64 ≤ (index + (width + 1)) * pagedPageSize
  · rw [fetchPages_stop hwidth (fetchRun_overflow hover)]
    exact .overflow hfree (List.cons_ne_nil _ _) (hcount ▸ hover)
  · have hfit := Nat.lt_of_not_le hover
    rcases h.fetchRun hfirst hfit with ⟨reason, hrun, hread⟩ |
      ⟨mid, fetched, hrun, hfetched, hmid, -, -, plain, hread⟩
    · rw [fetchPages_refused hwidth hrun]
      exact .failed p reason hfree (hcount ▸ hfit) (hlast.mpr ⟨_, hread⟩) h
    · have hrest : fetchPages PagedBytes.fetchRun fuel mid (index + (width + 1)) (rest.drop width)
          = some (mid, .ok []) := by
        rw [hnil]
        cases fuel <;> rfl
      rw [fetchPages_behind hwidth hrun, hrest]
      refine .fetched mid _ hfree (fun _ => hcount ▸ hfit) (fun hrefused => ?_) hmid ?_
      · obtain ⟨e, he⟩ := hlast.mp hrefused
        rw [hread] at he
        cases he
      · rw [List.append_nil, hfetched, hcount]

/-- A run of missing pages in front of a cached one. -/
theorem Kept.fetch_front (h : Kept object p) {bytes : Bytes} {behind : List (Option Bytes)}
    (hwidth : (rest.takeWhile Option.isNone).length = width)
    (hcons : rest.drop width = some bytes :: behind)
    (hpages : (none :: rest : List (Option Bytes))
      = List.replicate (width + 1) none ++ some bytes :: behind)
    (hreach : (index + (width + 1)) * pagedPageSize < object.length)
    (hfit : (index + (width + 1)) * pagedPageSize < 2 ^ 64)
    (hknown : p.len = unknownLen ∨ (index + (width + 1)) * pagedPageSize ≤ p.len)
    (hrest : ∀ mid : PagedBytes, Kept object mid → mid.reader = p.reader → mid.len = p.len →
      FetchOutcome object mid.reader mid.clamp (index + (width + 1)) (some bytes :: behind)
        (fetchPages PagedBytes.fetchRun fuel mid (index + (width + 1)) (some bytes :: behind))) :
    FetchOutcome object p.reader p.clamp index (none :: rest)
      (fetchPages PagedBytes.fetchRun (fuel + 1) p index (none :: rest)) := by
  have hfirst : p.len = unknownLen ∨ index * pagedPageSize ≤ p.len :=
    hknown.imp id (Nat.le_trans (Nat.mul_le_mul_right _ (Nat.le_add_right _ _)))
  -- the whole run is asked for
  have hclamp : p.clamp ((index + (width + 1)) * pagedPageSize)
      = (index + (width + 1)) * pagedPageSize :=
    Nat.le_antisymm (p.clamp_le _) (le_clamp (Nat.le_refl _) hknown)
  have hexpected : p.clamp ((index + (width + 1)) * pagedPageSize) - index * pagedPageSize
      = (width + 1) * pagedPageSize := by
    rw [hclamp, Nat.add_mul, Nat.add_sub_cancel_left]
  have hrefused : RunRefused p.reader index (none :: rest) ↔
      (∃ e, p.reader (index * pagedPageSize) ((width + 1) * pagedPageSize) = .error e) ∨
        RunRefused p.reader (index + (width + 1) + 1) behind := by
    rw [hpages]
    exact runRefused_run_iff (Nat.succ_pos width) bytes
  rcases h.fetchRun hfirst hfit with ⟨reason, hrun, hread⟩ |
    ⟨mid, fetched, hrun, hfetched, hmid, hreader, hlearned, plain, hread⟩
  · rw [hexpected] at hread
    rw [fetchPages_refused hwidth hrun]
    exact .refused p reason (hrefused.mpr (.inl ⟨_, hread⟩)) h
  · rw [hexpected] at hread
    have hlen : mid.len = p.len := hlearned.resolve_right (Nat.not_lt.mpr (Nat.le_of_lt hreach))
    have hlimit : mid.clamp = p.clamp := by
      funext position
      unfold PagedBytes.clamp
      rw [hlen]
    have houtcome := hrest mid hmid hreader hlen
    rw [hreader, hlimit, ← hfetched] at houtcome
    rw [fetchPages_behind hwidth hrun, hcons, ← hfetched]
    refine houtcome.behind ?_ ?_ ?_ (List.cons_ne_nil _ _) (fun hnil => (by cases hnil))
    · rw [hpages, List.length_append, List.length_replicate, hfetched]
    · rw [hrefused, runRefused_cons_iff, hfetched]
      refine ⟨fun h => h.resolve_left ?_, .inr⟩
      rintro ⟨e, he⟩
      rw [hread] at he
      cases he
    · have hnear := @lastRefused_behind_iff p.reader (index + fetched.length) behind p.clamp [] bytes
      rw [hpages, lastRefused_behind_iff, List.length_replicate, ← hfetched]
      exact hnear.symm

end

/-- **Fetching the missing pages of a range.** -/
theorem fetchPages_outcome : ∀ (fuel : Nat) {p : PagedBytes} {index : Nat}
    {pages : List (Option Bytes)}, pages.length ≤ fuel → Kept object p →
    (∀ k bytes, pages[k]? = some (some bytes) → (index + k) * pagedPageSize < object.length ∧
      (index + k + 1) * pagedPageSize < 2 ^ 64) →
    (p.len = unknownLen ∨ pages = [] ∨ (index + pages.length - 1) * pagedPageSize ≤ p.len) →
    FetchOutcome object p.reader p.clamp index pages
      (fetchPages PagedBytes.fetchRun fuel p index pages) := by
  intro fuel
  induction fuel with
  | zero =>
      intro p index pages hfuel h _ _
      obtain rfl := List.length_eq_zero_iff.mp (Nat.le_zero.mp hfuel)
      exact .fetched p [] not_runRefused_nil (fun hne => absurd rfl hne) not_lastRefused_nil h rfl
  | succ fuel ih =>
      intro p index pages hfuel h hcached hlen
      rcases pages with _ | ⟨_ | bytes, rest⟩
      · exact .fetched p [] not_runRefused_nil (fun hne => absurd rfl hne) not_lastRefused_nil h rfl
      · obtain ⟨width, hwidth, hsplit, htail⟩ := pages_split rest
        have hcount : (none :: rest).length = width + 1 + (rest.drop width).length := by
          rw [hsplit, List.length_append, List.length_replicate]
        have hknown : ∀ k < (none :: rest).length,
            p.len = unknownLen ∨ (index + k) * pagedPageSize ≤ p.len := by
          intro k hk
          rcases hlen with hlen | hlen | hlen
          · exact .inl hlen
          · cases hlen
          · exact .inr (Nat.le_trans (Nat.mul_le_mul_right _ (by omega)) hlen)
        rcases htail with hnil | ⟨bytes, behind, hcons⟩
        · rw [hnil, List.append_nil] at hsplit
          exact h.fetch_last hwidth hnil hsplit (hknown 0 (Nat.succ_pos _))
        · rw [hcons] at hsplit hcount
          rw [List.length_cons (a := some bytes)] at hcount
          have hat : (none :: rest)[width + 1]? = some (some bytes) := by
            rw [hsplit]
            exact getElem?_behind_missing _
          obtain ⟨hreach, hfit⟩ := hcached (width + 1) bytes hat
          refine h.fetch_front hwidth hcons hsplit hreach
            (Nat.lt_of_le_of_lt (Nat.mul_le_mul_right _ (Nat.le_succ _)) hfit)
            (hknown (width + 1) (by omega)) fun mid hmid hreader hmidlen => ?_
          refine ih (by rw [List.length_cons]; omega) hmid (fun k found hk => ?_) ?_
          · have hfound := hcached (width + 1 + k) found (by
              rw [hsplit, getElem?_missing_append]
              exact hk)
            rwa [← Nat.add_assoc] at hfound
          · rw [hmidlen]
            refine (hknown (width + 1 + behind.length) (by omega)).imp id fun hle => .inr ?_
            rwa [List.length_cons, ← Nat.add_assoc (index + (width + 1)), Nat.add_sub_cancel,
              Nat.add_assoc index]
      · have hrest : FetchOutcome object p.reader p.clamp (index + [some bytes].length) rest
            (fetchPages PagedBytes.fetchRun fuel p (index + 1) rest) := by
          refine ih (Nat.le_of_succ_le_succ hfuel) h (fun k found hk => ?_) ?_
          · have hfound := hcached (k + 1) found hk
            rwa [show index + (k + 1) = index + 1 + k by omega] at hfound
          · rcases hlen with hlen | hlen | hlen
            · exact .inl hlen
            · cases hlen
            · rw [List.length_cons, show index + (rest.length + 1) = index + 1 + rest.length by omega]
                at hlen
              exact .inr (.inr hlen)
        rw [fetchPages_cached]
        exact hrest.behind (by rw [List.length_cons, List.length_singleton, Nat.add_comm])
          (runRefused_cons_iff bytes) (lastRefused_behind_iff [] bytes) (List.cons_ne_nil _ _)
          fun _ => (hcached 0 bytes rfl).2

end PagedBytes

end LimniFS
