/-
Listing a directory in pages.

The kernel asks for a page at an offset, the buffer takes as many entries as it has
room for, and the next page is asked for at the cookie of the last one.  The cookie of
a child is counted from the page's own start and then once more by its index in the
whole directory, which is the same thing only on a page that starts at the beginning.
So a listing is complete, with the cookies it ought to have, exactly when the first
page holds all of it (`readdir_complete_iff`).
-/
import LimniFS.FuseVfs
import LimniFS.Signing

namespace LimniFS.FuseVfs

open Lib Lib.Parser

/-! ### Pages -/

/-- The entries from the first on, as long as they fit. -/
def fill (fits : ReplyBuffer) : List ReplyEntry → List ReplyEntry → List ReplyEntry
  | reply, [] => reply
  | reply, entry :: rest => if fits reply entry then fill fits (reply ++ [entry]) rest else reply

section
variable (H : Hash) (vfs : Vfs) (ino : Nat)

/-- The children of the directory, in its order. -/
def children : List DirEntry :=
  ((vfs.dirNode H (mapInode vfs ino)).map DirectoryNode.entries).getD []

/-- The entry for the child at index `i`, on a page where cookies are counted from `base`. -/
def childEntry (base i : Nat) (e : DirEntry) : ReplyEntry :=
  ⟨e.inodeNumber, base + i + 1, vfsTypeToFtype (entryVfsType e.entryType), e.name⟩

/-- What a page at the offset offers to the buffer. -/
def offered (offset : Nat) : List ReplyEntry :=
  (if offset = 0 then [⟨ino, 1, .directory, ascii "."⟩] else [])
    ++ (if offset ≤ 1 then [⟨ino, 2, .directory, ascii ".."⟩] else [])
    ++ ((children H vfs ino).drop (offset - 2)).mapIdx
      fun i e => childEntry (offset - 2 + 2) (offset - 2 + i) e

/-- The listing: `.`, `..` and every child once, the child at index `i` with cookie `i + 3`. -/
def listing : List ReplyEntry :=
  [⟨ino, 1, .directory, ascii "."⟩, ⟨ino, 2, .directory, ascii ".."⟩]
    ++ (children H vfs ino).mapIdx fun i e => childEntry 2 i e

variable (buffers : Nat → ReplyBuffer)

/-- Where page `k` starts: at the cookie of the last entry so far. -/
def pageOffset : Nat → Nat
  | 0 => 0
  | k + 1 => ((readdir H vfs (buffers k) ino (pageOffset k)).getLast?.map ReplyEntry.cookie).getD
      (pageOffset k)

def page (k : Nat) : List ReplyEntry := readdir H vfs (buffers k) ino (pageOffset H vfs ino buffers k)

/-- After some pages the listing is there, and no page behind them has an entry. -/
def ListingComplete : Prop :=
  ∃ n, (List.range n).flatMap (page H vfs ino buffers) = listing H vfs ino ∧
    ∀ k ≥ n, page H vfs ino buffers k = []

end

/-- A buffer with room for three entries. -/
def RoomForThree (fits : ReplyBuffer) : Prop := ∀ reply entry, reply.length < 3 → fits reply entry = true

/-! ### One page -/

section
variable {H : Hash} {vfs : Vfs} {ino : Nat}

theorem offer_eq_fill (fits : ReplyBuffer) (base : Nat) : ∀ (entries : List DirEntry) (i : Nat)
    (reply : List ReplyEntry),
    Vfs.offer (fun reply i childIno name kind =>
        ((fits.add reply ⟨childIno, base + i + 1, vfsTypeToFtype kind, name⟩).1,
          !(fits.add reply ⟨childIno, base + i + 1, vfsTypeToFtype kind, name⟩).2)) i entries reply =
      fill fits reply (entries.mapIdx fun j e => childEntry base (i + j) e) := by
  intro entries
  induction entries with
  | nil =>
      intro i reply
      rfl
  | cons e rest ih =>
      intro i reply
      have hshift : (rest.mapIdx fun j e => childEntry base (i + (j + 1)) e) =
          rest.mapIdx fun j e => childEntry base (i + 1 + j) e := by
        congr 1
        funext j e
        rw [Nat.add_assoc, Nat.add_comm 1 j]
      rw [List.mapIdx_cons, hshift, fill, Vfs.offer]
      by_cases hfits : fits reply (childEntry base i e) = true
      · simp only [ReplyBuffer.add, childEntry] at hfits ⊢
        simp only [hfits, if_true, Nat.add_zero, Bool.not_false]
        exact ih (i + 1) _
      · simp only [ReplyBuffer.add, childEntry, Bool.not_eq_true] at hfits ⊢
        simp [hfits]

theorem readdir_eq_fill (fits : ReplyBuffer) (offset : Nat) :
    readdir H vfs fits ino offset = fill fits [] (offered H vfs ino offset) := by
  have hchildren : ∀ reply, readdirChildren H vfs fits ino offset reply =
      fill fits reply (((children H vfs ino).drop (offset - 2)).mapIdx
        fun i e => childEntry (offset - 2 + 2) (offset - 2 + i) e) := by
    intro reply
    unfold readdirChildren Vfs.readdirAt children
    cases vfs.dirNode H (mapInode vfs ino) with
    | none => simp [fill]
    | some node => exact offer_eq_fill fits _ _ _ _
  unfold readdir offered ReplyBuffer.add
  by_cases hzero : offset = 0
  · subst hzero
    simp only [if_true, Nat.zero_le, List.cons_append, List.nil_append, fill]
    by_cases hdot : fits [] ⟨ino, 1, .directory, ascii "."⟩ = true
    · rw [if_pos hdot, if_pos hdot]
      simp only [Bool.false_eq_true, if_false]
      by_cases hdots : fits [⟨ino, 1, .directory, ascii "."⟩] ⟨ino, 2, .directory, ascii ".."⟩ = true
      · rw [if_pos hdots, if_pos hdots]
        simp only [Bool.false_eq_true, if_false]
        exact hchildren _
      · rw [if_neg hdots, if_neg hdots]
        simp
    · rw [if_neg hdot, if_neg hdot]
      simp
  · simp only [if_neg hzero, Bool.false_eq_true, if_false, List.nil_append]
    by_cases hone : offset ≤ 1
    · simp only [if_pos hone, List.cons_append, List.nil_append, fill]
      by_cases hdots : fits [] ⟨ino, 2, .directory, ascii ".."⟩ = true
      · rw [if_pos hdots, if_pos hdots]
        simp only [Bool.false_eq_true, if_false]
        exact hchildren _
      · rw [if_neg hdots, if_neg hdots]
        simp
    · simp only [if_neg hone, Bool.false_eq_true, if_false, List.nil_append]
      exact hchildren _

theorem fill_eq_take (fits : ReplyBuffer) : ∀ (entries reply : List ReplyEntry),
    ∃ m ≤ entries.length, fill fits reply entries = reply ++ entries.take m := by
  intro entries
  induction entries with
  | nil =>
      intro reply
      exact ⟨0, Nat.le_refl 0, (List.append_nil reply).symm⟩
  | cons e rest ih =>
      intro reply
      unfold fill
      by_cases hfits : fits reply e = true
      · obtain ⟨m, hm, hfill⟩ := ih (reply ++ [e])
        refine ⟨m + 1, Nat.succ_le_succ hm, ?_⟩
        rw [if_pos hfits, hfill, List.take_succ_cons, List.append_assoc, List.singleton_append]
      · refine ⟨0, Nat.zero_le _, ?_⟩
        rw [if_neg hfits, List.take_zero, List.append_nil]

theorem fill_three {fits : ReplyBuffer} (h : RoomForThree fits) : ∀ (entries reply : List ReplyEntry),
    ∃ m ≤ entries.length, min (3 - reply.length) entries.length ≤ m ∧
      fill fits reply entries = reply ++ entries.take m := by
  intro entries
  induction entries with
  | nil =>
      intro reply
      exact ⟨0, Nat.le_refl 0, Nat.min_le_right _ _, (List.append_nil reply).symm⟩
  | cons e rest ih =>
      intro reply
      by_cases hlen : reply.length < 3
      · obtain ⟨m, hm, hmin, hfill⟩ := ih (reply ++ [e])
        rw [List.length_append, List.length_singleton] at hmin
        refine ⟨m + 1, Nat.succ_le_succ hm, by rw [List.length_cons]; omega, ?_⟩
        rw [fill, if_pos (h reply e hlen), hfill, List.take_succ_cons, List.append_assoc,
          List.singleton_append]
      · obtain ⟨m, hm, hfill⟩ := fill_eq_take fits (e :: rest) reply
        exact ⟨m, hm, by omega, hfill⟩

theorem offered_zero : offered H vfs ino 0 = listing H vfs ino := by
  unfold offered listing
  simp

theorem offered_children {offset : Nat} (h : 2 ≤ offset) : offered H vfs ino offset =
    ((children H vfs ino).drop (offset - 2)).mapIdx
      fun i e => childEntry offset (offset - 2 + i) e := by
  unfold offered
  rw [if_neg (by omega), if_neg (by omega), Nat.sub_add_cancel h]
  rfl

theorem listing_length : (listing H vfs ino).length = (children H vfs ino).length + 2 := by
  unfold listing
  rw [List.length_append, List.length_mapIdx, Nat.add_comm]
  rfl

theorem listing_cookie {m : Nat} {entry : ReplyEntry} (h : (listing H vfs ino)[m]? = some entry) :
    entry.cookie = m + 1 := by
  unfold listing at h
  rcases m with _ | _ | m
  · cases h
    rfl
  · cases h
    rfl
  · rw [List.getElem?_append_right (by simp)] at h
    simp only [List.length_cons, List.length_nil, List.getElem?_mapIdx, Option.map_eq_some_iff] at h
    obtain ⟨e, -, rfl⟩ := h
    show 2 + (m + 2 - 2) + 1 = m + 2 + 1
    omega

end

/-! ### All pages -/

section
variable {H : Hash} {vfs : Vfs} {ino : Nat} {buffers : Nat → ReplyBuffer}

theorem page_eq_fill (k : Nat) : page H vfs ino buffers k =
    fill (buffers k) [] (offered H vfs ino (pageOffset H vfs ino buffers k)) :=
  readdir_eq_fill _ _

theorem page_zero : page H vfs ino buffers 0 = fill (buffers 0) [] (listing H vfs ino) := by
  rw [page_eq_fill, pageOffset, offered_zero]

theorem pageOffset_succ {k : Nat} {entry : ReplyEntry}
    (h : (page H vfs ino buffers k).getLast? = some entry) :
    pageOffset H vfs ino buffers (k + 1) = entry.cookie := by
  unfold page at h
  rw [pageOffset, h]
  rfl

theorem page_nil_of_first (h : page H vfs ino buffers 0 = listing H vfs ino) :
    ∀ k, pageOffset H vfs ino buffers (k + 1) = (children H vfs ino).length + 2 ∧
      page H vfs ino buffers (k + 1) = [] := by
  have hnil : ∀ k, pageOffset H vfs ino buffers k = (children H vfs ino).length + 2 →
      page H vfs ino buffers k = [] := by
    intro k hk
    rw [page_eq_fill, hk, offered_children (Nat.le_add_left _ _), Nat.add_sub_cancel,
      List.drop_length]
    rfl
  have hfirst : pageOffset H vfs ino buffers 1 = (children H vfs ino).length + 2 := by
    have hlen : (listing H vfs ino).length = (children H vfs ino).length + 2 := listing_length
    obtain ⟨entry, hentry⟩ : ∃ entry, (listing H vfs ino)[(listing H vfs ino).length - 1]? =
        some entry := ⟨_, List.getElem?_eq_getElem (by omega)⟩
    have hcookie := listing_cookie hentry
    rw [← List.getLast?_eq_getElem?, ← h] at hentry
    rw [pageOffset_succ hentry, hcookie]
    omega
  intro k
  induction k with
  | zero => exact ⟨hfirst, hnil 1 hfirst⟩
  | succ k ih =>
      have hnext : pageOffset H vfs ino buffers (k + 1 + 1) = (children H vfs ino).length + 2 := by
        have hpage := ih.2
        unfold page at hpage
        rw [pageOffset, hpage]
        exact ih.1
      exact ⟨hnext, hnil _ hnext⟩

/-- A second page starts with a cookie that is not the child's own. -/
theorem second_page (hroom : RoomForThree (buffers 1)) {m : Nat} (hm : 3 ≤ m)
    (hlt : m < (listing H vfs ino).length)
    (hfirst : page H vfs ino buffers 0 = (listing H vfs ino).take m) :
    ∃ entry rest, page H vfs ino buffers 1 = entry :: rest ∧ entry.cookie = 2 * m - 1 := by
  have hlen : (listing H vfs ino).length = (children H vfs ino).length + 2 := listing_length
  obtain ⟨last, hlast⟩ : ∃ entry, (listing H vfs ino)[m - 1]? = some entry :=
    ⟨_, List.getElem?_eq_getElem (by omega)⟩
  have hoffset : pageOffset H vfs ino buffers 1 = m := by
    have hcookie := listing_cookie hlast
    have hgetLast : (page H vfs ino buffers 0).getLast? = some last := by
      rw [hfirst, List.getLast?_eq_getElem?, List.length_take, Nat.min_eq_left (by omega),
        List.getElem?_take, if_pos (by omega), hlast]
    rw [pageOffset_succ hgetLast, hcookie, Nat.sub_add_cancel (by omega)]
  obtain ⟨child, hchild⟩ : ∃ e, (children H vfs ino)[m - 2]? = some e :=
    ⟨_, List.getElem?_eq_getElem (by omega)⟩
  have hdrop : (children H vfs ino).drop (m - 2) = child :: (children H vfs ino).drop (m - 2 + 1) := by
    obtain ⟨hlt', rfl⟩ := List.getElem?_eq_some_iff.mp hchild
    exact List.drop_eq_getElem_cons hlt'
  obtain ⟨t, -, hmin, hfill⟩ := fill_three hroom
    (childEntry m (m - 2 + 0) child :: ((children H vfs ino).drop (m - 2 + 1)).mapIdx
      fun i e => childEntry m (m - 2 + (i + 1)) e) []
  rw [List.length_nil, List.length_cons] at hmin
  obtain ⟨t, rfl⟩ : ∃ t', t = t' + 1 := ⟨t - 1, by omega⟩
  rw [List.nil_append, List.take_succ_cons] at hfill
  rw [page_eq_fill, hoffset, offered_children (by omega), hdrop, List.mapIdx_cons, hfill]
  refine ⟨_, _, rfl, ?_⟩
  show m + (m - 2 + 0) + 1 = 2 * m - 1
  omega

theorem first_of_complete (hroom : ∀ k, RoomForThree (buffers k))
    (h : ListingComplete H vfs ino buffers) : page H vfs ino buffers 0 = listing H vfs ino := by
  obtain ⟨n, hall, -⟩ := h
  by_contra hfirst
  obtain ⟨m, hm, hmin, hfill⟩ := fill_three (hroom 0) (listing H vfs ino) []
  rw [← page_zero, List.nil_append] at hfill
  have hlt : m < (listing H vfs ino).length := by
    refine Nat.lt_of_le_of_ne hm fun heq => hfirst ?_
    rw [hfill, heq, List.take_length]
  have hlen : (listing H vfs ino).length = (children H vfs ino).length + 2 := listing_length
  rw [List.length_nil] at hmin
  obtain ⟨entry, rest, hsecond, hcookie⟩ := second_page (hroom 1) (by omega) hlt hfill
  rcases n with _ | _ | n
  · rw [← hall] at hlt
    exact absurd hlt (Nat.not_lt_zero m)
  · exact hfirst (by simpa using hall)
  · have hat : (listing H vfs ino)[m]? = some entry := by
      rw [← hall, List.range_succ_eq_map, List.flatMap_cons, List.range_succ_eq_map,
        List.map_cons, List.flatMap_cons, hsecond, hfill, List.getElem?_append_right (by simp)]
      simp [Nat.min_eq_left hm]
    rw [listing_cookie hat] at hcookie
    omega

/-- **A listing is complete, with its own cookies, exactly when the first page holds it.** -/
theorem readdir_complete_iff : ∀ (H : Hash) (vfs : Vfs) (ino : Nat) (buffers : Nat → ReplyBuffer),
    (∀ k, RoomForThree (buffers k)) →
    (ListingComplete H vfs ino buffers ↔
      fill (buffers 0) [] (listing H vfs ino) = listing H vfs ino) := by
  intro H vfs ino buffers hroom
  rw [← page_zero]
  constructor
  · exact first_of_complete hroom
  · intro hfirst
    refine ⟨1, by simpa using hfirst, fun k hk => ?_⟩
    obtain ⟨k, rfl⟩ : ∃ k', k = k' + 1 := ⟨k - 1, by omega⟩
    exact (page_nil_of_first hfirst k).2

end

namespace Stored

open LimniFS.Stored

def pagedNames : List Bytes := [ascii "a", ascii "b", ascii "c", ascii "d", ascii "e", ascii "f"]

def pagedEntries : List DirEntry := pagedNames.mapIdx fun i name => ⟨name, i + 1, EntryType.file⟩

def pagedInode (number mode : Nat) : Inode :=
  ⟨number, mode, 0, 0, 0, 0, 1, none, [], .sliceMap ⟨[], rfl⟩⟩

/-- Six empty files in one directory. -/
def pagedBlobBytes : Bytes :=
  leBytes 4 7
    ++ (pagedNames.mapIdx fun i _ => inodeHeadBytes (pagedInode (i + 1) 0x81A4) ++ leBytes 4 0).flatten
    ++ (inodeHeadBytes (pagedInode 7 0x41ED) ++ (dirNodeHash foldDigest pagedEntries).val)
    ++ leBytes 4 1 ++ dirNodeBytes pagedEntries

def openPaged : Except CoreError Vfs :=
  Vfs.fromBytes omnizip (manifest pagedBlobBytes 0) fun _ => none

def pagedVfs : Vfs := openPaged.toOption.get (by decide +kernel)

theorem openPaged_eq : openPaged = .ok pagedVfs := Lib.eq_ok_get _

/-- Every buffer has room for three entries and no more. -/
def threeAtATime : Nat → ReplyBuffer := fun _ reply _ => decide (reply.length < 3)

theorem threeAtATime_room (k : Nat) : RoomForThree (threeAtATime k) := fun _ _ h => decide_eq_true h

end Stored

open LimniFS.FuseVfs.Stored

/-- Six children, three entries at a time: the fifth child is on no page. -/
theorem fifth_child_is_skipped :
    openPaged = .ok pagedVfs ∧ (∀ k, RoomForThree (threeAtATime k)) ∧
      (((List.range 4).flatMap
        (page LimniFS.Stored.foldDigest pagedVfs fuseRoot threeAtATime)).map
        fun e => (e.name, e.cookie)) =
        [(ascii ".", 1), (ascii "..", 2), (ascii "a", 3), (ascii "b", 5), (ascii "c", 6),
          (ascii "d", 7), (ascii "f", 13)] ∧
      ¬ ListingComplete LimniFS.Stored.foldDigest pagedVfs fuseRoot threeAtATime := by
  refine ⟨openPaged_eq, threeAtATime_room, by decide +kernel, fun h => ?_⟩
  exact absurd (first_of_complete threeAtATime_room h) (by decide +kernel)

theorem readdir_complete_iff_three :
    (∀ k, RoomForThree (threeAtATime k)) ∧
      (ListingComplete LimniFS.Stored.foldDigest pagedVfs fuseRoot threeAtATime ↔
        fill (threeAtATime 0) [] (listing LimniFS.Stored.foldDigest pagedVfs fuseRoot) =
          listing LimniFS.Stored.foldDigest pagedVfs fuseRoot) :=
  ⟨threeAtATime_room, readdir_complete_iff _ _ _ _ threeAtATime_room⟩

end LimniFS.FuseVfs
