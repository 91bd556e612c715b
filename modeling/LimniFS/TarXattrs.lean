/-
Extended attributes in a tar archive.

Every attribute becomes one record of a pax header in front of the file, its length found by trying how
many digits it takes (`paxLength_eq`).  The record is put together as text, so a value that is not text
is changed on its way in, and a key with an equals sign in it is cut there when the record is read.
-/
import LimniFS.Metadata
import LimniFS.Utf8Lossy
import LimniFS.Lib.PaxRecords

namespace LimniFS

open Lib PaxRecords

/-- The prefix of the keys. -/
def schilyXattr : Bytes := ascii "SCHILY.xattr."

/-! ### Writing -/

/-- The loop that finds the length of a record, with room for `fuel` rounds. -/
def paxLengthLoop (line : Bytes) : Nat → Nat → Option Nat
  | 0, _ => none
  | fuel + 1, digits =>
    let len := line.length + digits + 2
    let printed := (Numeral.encode 10 len).length
    if printed = digits then some len else paxLengthLoop line fuel printed

/-- There is never a round more than the line has bytes, and some. -/
def paxLength (line : Bytes) : Option Nat := paxLengthLoop line (line.length + 4) 1

/-- Values and keys that the framing cannot hold. -/
def paxSkips (x : XAttr) : Prop := 0 ∈ x.key ∨ 10 ∈ x.key ∨ 0 ∈ x.value ∨ 10 ∈ x.value

instance (x : XAttr) : Decidable (paxSkips x) := inferInstanceAs (Decidable (_ ∨ _))

def paxLine (x : XAttr) : Bytes := schilyXattr ++ x.key ++ ascii "=" ++ fromUtf8Lossy x.value

/-- The records of a regular file, as `TarSink::on_regular_file` puts them together. -/
def paxRecords : List XAttr → Option Bytes
  | [] => some []
  | x :: xattrs =>
    if paxSkips x then paxRecords xattrs
    else do
      let len ← paxLength (paxLine x)
      let records ← paxRecords xattrs
      return PaxRecords.record len (paxLine x) ++ records

/-! ### Reading -/

/-- The attributes among the entries, as `limn_from_tar` takes them. -/
def paxXattr (entry : Bytes × Bytes) : Option (Bytes × Bytes) :=
  if utf8Valid entry.1 = false then none
  else if entry.1 = ascii "mtime" then none
  else if schilyXattr.isPrefixOf entry.1 then some (entry.1.drop schilyXattr.length, entry.2)
  else none

/-- What comes back of the records. -/
def paxReadBack (records : Bytes) : Option (List (Bytes × Bytes)) :=
  (PaxRecords.parse records).map fun entries => entries.filterMap paxXattr

/-! ### The length of a record -/

theorem encode_length_add {n k : Nat} (h : (Numeral.encode 10 n).length ≤ k) (hk : 0 < k) :
    (Numeral.encode 10 (n + k)).length ≤ k + 1 := by
  obtain ⟨k, rfl⟩ : ∃ j, k = j + 1 := ⟨k - 1, by omega⟩
  have hlt := (Numeral.length_encode_le_iff (show 2 ≤ 10 by decide)).mp h
  have hself : k + 1 < 10 ^ (k + 1) := Nat.lt_pow_self (by decide)
  rw [Numeral.length_encode_le_iff (by decide), Nat.pow_succ]
  omega

section

variable {line : Bytes} {digits : Nat}

theorem paxLengthLoop_done (h : (Numeral.encode 10 (line.length + digits + 2)).length = digits)
    (fuel : Nat) : paxLengthLoop line (fuel + 1) digits = some (line.length + digits + 2) := by
  rw [paxLengthLoop]
  simp only [if_pos h]

theorem paxLengthLoop_next (h : (Numeral.encode 10 (line.length + digits + 2)).length ≠ digits)
    (fuel : Nat) : paxLengthLoop line (fuel + 1) digits
      = paxLengthLoop line fuel (Numeral.encode 10 (line.length + digits + 2)).length := by
  rw [paxLengthLoop]
  simp only [if_neg h]

end

/-- **The third round is the last**: the first finds the digits of the line, and counting them in adds at
most one. -/
theorem paxLengthLoop_three (line : Bytes) : ∃ digits,
    (Numeral.encode 10 (line.length + digits + 2)).length = digits ∧
      ∀ more, paxLengthLoop line (more + 3) 1 = some (line.length + digits + 2) := by
  by_cases hfirst : (Numeral.encode 10 (line.length + 1 + 2)).length = 1
  · exact ⟨1, hfirst, fun more => paxLengthLoop_done hfirst _⟩
  · obtain ⟨k, hk⟩ : ∃ k, (Numeral.encode 10 (line.length + 1 + 2)).length = k := ⟨_, rfl⟩
    have hpos : 0 < k := by
      rw [← hk]
      exact List.length_pos_iff.mpr (Numeral.encode_ne_nil _)
    by_cases hsecond : (Numeral.encode 10 (line.length + k + 2)).length = k
    · refine ⟨k, hsecond, fun more => ?_⟩
      rw [paxLengthLoop_next hfirst, hk]
      exact paxLengthLoop_done hsecond _
    · -- between the digits of the line and one more, so one more
      have hgrown : (Numeral.encode 10 (line.length + (k + 1) + 2)).length ≤ k + 1 := by
        have hadd := encode_length_add (Nat.le_of_eq hk) hpos
        rwa [show line.length + 1 + 2 + k = line.length + (k + 1) + 2 by omega] at hadd
      have hlow : k ≤ (Numeral.encode 10 (line.length + k + 2)).length := by
        rw [← hk]
        exact Numeral.length_encode_mono (by decide) (by omega)
      have hhigh : (Numeral.encode 10 (line.length + k + 2)).length
          ≤ (Numeral.encode 10 (line.length + (k + 1) + 2)).length :=
        Numeral.length_encode_mono (by decide) (by omega)
      have hnext : (Numeral.encode 10 (line.length + k + 2)).length = k + 1 := by omega
      have hthird : (Numeral.encode 10 (line.length + (k + 1) + 2)).length = k + 1 := by omega
      refine ⟨k + 1, hthird, fun more => ?_⟩
      rw [paxLengthLoop_next hfirst, hk, paxLengthLoop_next hsecond, hnext]
      exact paxLengthLoop_done hthird _

theorem record_length {line : Bytes} {digits : Nat}
    (h : (Numeral.encode 10 (line.length + digits + 2)).length = digits) :
    (PaxRecords.record (line.length + digits + 2) line).length = line.length + digits + 2 := by
  unfold PaxRecords.record
  simp only [List.length_append, List.length_cons, List.length_nil, h]
  omega

/-- **The loop ends, and the record has the length that it says.** -/
theorem paxLength_eq (line : Bytes) :
    ∃ len, paxLength line = some len ∧ (PaxRecords.record len line).length = len := by
  obtain ⟨digits, hdigits, hloop⟩ := paxLengthLoop_three line
  exact ⟨_, hloop (line.length + 1), record_length hdigits⟩

/--
**Framing converges.**  For every line the loop ends, in its third round at the latest, and the record
that is emitted is as long as its number says.
-/
theorem pax_framing_converges (line : Bytes) : ∃ len,
    (∀ more, paxLengthLoop line (more + 3) 1 = some len) ∧
      (PaxRecords.record len line).length = len := by
  obtain ⟨digits, hdigits, hloop⟩ := paxLengthLoop_three line
  exact ⟨_, hloop, record_length hdigits⟩

/-! ### There and back -/

/-- An attribute that the framing can hold. -/
structure PaxText (x : XAttr) : Prop where
  key : utf8Valid x.key = true
  fits : ¬ paxSkips x

theorem splitEquals_paxLine (x : XAttr) : ∃ front back,
    splitEquals (paxLine x) = some (front, back) ∧ 61 ∉ front ∧ front <+: schilyXattr ++ x.key ∧
      front ++ 61 :: back = schilyXattr ++ x.key ++ 61 :: fromUtf8Lossy x.value := by
  have hline : paxLine x = (schilyXattr ++ x.key) ++ 61 :: fromUtf8Lossy x.value := by
    have hequals : ascii "=" = [61] := by decide
    unfold paxLine
    rw [hequals, List.append_assoc, List.singleton_append]
  rw [hline]
  exact splitEquals_first _ _

theorem schilyXattr_noEquals : 61 ∉ schilyXattr := by decide

theorem schily_prefix {front back rest : Bytes} (hfront : 61 ∉ front)
    (happ : front ++ 61 :: back = schilyXattr ++ rest) : ∃ name, front = schilyXattr ++ name := by
  have hpre : front <+: schilyXattr ++ rest := ⟨61 :: back, happ⟩
  rcases List.prefix_or_prefix_of_prefix hpre (List.prefix_append schilyXattr rest) with h | h
  · obtain ⟨tail, htail⟩ := h
    cases tail with
    | nil => exact ⟨[], by rw [← htail]; simp⟩
    | cons c tail =>
        -- the sign would stand in the prefix
        rw [← htail, List.append_assoc] at happ
        have hc := List.append_cancel_left happ
        obtain rfl : 61 = c := (List.cons.inj hc).1
        exact absurd (by rw [← htail]; simp) schilyXattr_noEquals
  · obtain ⟨name, rfl⟩ := h
    exact ⟨name, rfl⟩

theorem paxXattr_line {x : XAttr} (h : PaxText x) : ∃ entry name value,
    splitEquals (paxLine x) = some entry ∧ paxXattr entry = some (name, value) ∧
      ((name, value) = (x.key, x.value) ↔ 61 ∉ x.key ∧ utf8Valid x.value = true) := by
  obtain ⟨front, value, hsplit, hfront, hcut, happ⟩ := splitEquals_paxLine x
  have happ' : front ++ 61 :: value = schilyXattr ++ (x.key ++ 61 :: fromUtf8Lossy x.value) := by
    rw [happ, List.append_assoc]
  obtain ⟨name, rfl⟩ := schily_prefix hfront happ'
  have hname : name ++ 61 :: value = x.key ++ 61 :: fromUtf8Lossy x.value := by
    rw [List.append_assoc] at happ'
    exact List.append_cancel_left happ'
  have hpre : name <+: x.key := by
    obtain ⟨tail, htail⟩ := hcut
    rw [List.append_assoc] at htail
    exact ⟨tail, List.append_cancel_left htail⟩
  have htext : utf8Valid (schilyXattr ++ name) = true := by
    have hprefix : utf8Valid schilyXattr = true := by decide +kernel
    rw [utf8Valid_append hprefix]
    obtain ⟨tail, htail⟩ := hpre
    cases tail with
    | nil =>
        rw [List.append_nil] at htail
        rw [htail]
        exact h.key
    | cons c tail =>
        rw [← htail, List.append_assoc] at hname
        have hc : 61 = c := (List.cons.inj (List.append_cancel_left hname)).1
        refine @utf8Valid_of_append name tail c (by rw [← hc]; decide) ?_
        rw [htail]
        exact h.key
  refine ⟨_, name, value, hsplit, ?_, ?_⟩
  · have hmtime : schilyXattr ++ name ≠ ascii "mtime" := by
      intro heq
      have := congrArg List.length heq
      rw [List.length_append, show schilyXattr.length = 13 by decide,
        show (ascii "mtime").length = 5 by decide] at this
      omega
    unfold paxXattr
    simp only
    rw [if_neg (by rw [htext]; decide), if_neg hmtime,
      if_pos (List.isPrefixOf_iff_prefix.mpr (List.prefix_append _ _)), List.drop_left]
  · constructor
    · intro hsame
      obtain ⟨rfl, rfl⟩ := Prod.mk.inj hsame
      refine ⟨fun hmem => hfront (List.mem_append_right _ hmem), ?_⟩
      have hvalue := List.append_cancel_left hname
      exact fromUtf8Lossy_eq_iff.mp (List.cons.inj hvalue).2.symm
    · rintro ⟨hkey, hvalue⟩
      have hwhole := splitEquals_append (show 61 ∉ schilyXattr ++ x.key by
        rw [List.mem_append]
        rintro (h | h)
        · exact schilyXattr_noEquals h
        · exact hkey h) (fromUtf8Lossy x.value)
      rw [List.append_assoc, ← hname, ← List.append_assoc, splitEquals_append hfront] at hwhole
      obtain ⟨hfrontEq, hvalueEq⟩ := Prod.mk.inj (Option.some.inj hwhole)
      rw [List.append_cancel_left hfrontEq, hvalueEq, fromUtf8Lossy_of_valid hvalue]

/-- The records, read back. -/
theorem paxReadBack_records : ∀ {xattrs : List XAttr}, (∀ x ∈ xattrs, PaxText x) →
    ∃ records read, paxRecords xattrs = some records ∧ paxReadBack records = some read ∧
      (read = xattrs.map (fun x => (x.key, x.value)) ↔
        ∀ x ∈ xattrs, 61 ∉ x.key ∧ utf8Valid x.value = true) := by
  intro xattrs
  induction xattrs with
  | nil =>
      intro _
      refine ⟨[], [], rfl, ?_, by simp⟩
      unfold paxReadBack
      rw [parse_nil]
      rfl
  | cons x xattrs ih =>
      intro htexts
      have hx := htexts x List.mem_cons_self
      obtain ⟨records, read, hrecords, hread, hiff⟩ := ih fun x' hx' =>
        htexts x' (List.mem_cons_of_mem _ hx')
      obtain ⟨len, hlen, hrecord⟩ := paxLength_eq (paxLine x)
      obtain ⟨entry, name, value, hsplit, hxattr, hsame⟩ := paxXattr_line hx
      refine ⟨PaxRecords.record len (paxLine x) ++ records, (name, value) :: read, ?_, ?_, ?_⟩
      · rw [paxRecords, if_neg hx.fits, hlen, hrecords, Option.bind_eq_bind, Option.bind_some,
          Option.bind_eq_bind, Option.bind_some, Option.pure_def]
      · obtain ⟨entries, hentries, rfl⟩ := Option.map_eq_some_iff.mp hread
        unfold paxReadBack
        rw [parse_of_some (readRecord_record hrecord hsplit records), hentries]
        simp [hxattr]
      · rw [List.map_cons, List.cons.injEq, hsame, hiff]
        simp

/--
**Attributes survive a tar archive exactly if they are text without equals signs in their keys.**  For
every list of attributes whose keys and values have no NUL and no line break, the records are put
together, and what is read back of them is the same list of keys and values if and only if every value
is valid UTF-8 and no key has an equals sign.
-/
theorem tar_xattrs_iff {xattrs : List XAttr} (h : ∀ x ∈ xattrs, PaxText x) :
    (∃ records, paxRecords xattrs = some records ∧
      paxReadBack records = some (xattrs.map fun x => (x.key, x.value))) ↔
    ∀ x ∈ xattrs, 61 ∉ x.key ∧ utf8Valid x.value = true := by
  obtain ⟨records, read, hrecords, hread, hiff⟩ := paxReadBack_records h
  rw [← hiff]
  constructor
  · rintro ⟨records', hrecords', hread'⟩
    obtain rfl := Option.some.inj (hrecords.symm.trans hrecords')
    exact Option.some.inj (hread.symm.trans hread')
  · rintro rfl
    exact ⟨records, hrecords, hread⟩

namespace Stored

def textXattr : XAttr := ⟨0, ascii "user.note", ascii "a=b"⟩

def byteXattr : XAttr := ⟨0, ascii "user.note", [0xFF]⟩

def equalsXattr : XAttr := ⟨0, ascii "user.a=b", ascii "c"⟩

theorem paxText_textXattr : PaxText textXattr := ⟨by decide +kernel, by decide⟩

theorem paxText_byteXattr : PaxText byteXattr := ⟨by decide +kernel, by decide⟩

theorem paxText_equalsXattr : PaxText equalsXattr := ⟨by decide +kernel, by decide⟩

end Stored

open LimniFS.Stored

/-- An equals sign in the value is no harm. -/
theorem tar_xattrs_text :
    ∃ records, paxRecords [textXattr] = some records ∧
      paxReadBack records = some [(ascii "user.note", ascii "a=b")] :=
  (@tar_xattrs_iff [textXattr] (by
    intro x hx
    rw [List.mem_singleton.mp hx]
    exact paxText_textXattr)).mpr (by
    intro x hx
    rw [List.mem_singleton.mp hx]
    exact ⟨by decide, by decide +kernel⟩)

/-- **A byte that is not text is lost, and a key with an equals sign is cut.** -/
theorem tar_xattrs_lost :
    (∃ records read, paxRecords [byteXattr] = some records ∧ paxReadBack records = some read ∧
      read ≠ [(ascii "user.note", [0xFF])]) ∧
    ∃ records read, paxRecords [equalsXattr] = some records ∧
      paxReadBack records = some read ∧ read ≠ [(ascii "user.a=b", ascii "c")] := by
  constructor
  · obtain ⟨records, read, hrecords, hread, hiff⟩ := @paxReadBack_records [byteXattr] (by
      intro x hx
      rw [List.mem_singleton.mp hx]
      exact paxText_byteXattr)
    refine ⟨records, read, hrecords, hread, fun hsame => ?_⟩
    have hvalid := (hiff.mp hsame byteXattr List.mem_cons_self).2
    revert hvalid
    decide +kernel
  · obtain ⟨records, read, hrecords, hread, hiff⟩ := @paxReadBack_records [equalsXattr] (by
      intro x hx
      rw [List.mem_singleton.mp hx]
      exact paxText_equalsXattr)
    refine ⟨records, read, hrecords, hread, fun hsame => ?_⟩
    have hkey := (hiff.mp hsame equalsXattr List.mem_cons_self).1
    revert hkey
    decide

end LimniFS
