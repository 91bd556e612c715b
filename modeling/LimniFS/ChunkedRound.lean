/-
One chunk at a time.

Whatever the data are, a round of the reader takes exactly one chunk, because the line of the size ends
at its first line feed and the data are counted.  A chunk that the stream ends in is an error as long as
the digits that are left of its size still count for something.
-/
import LimniFS.HttpLocator

namespace LimniFS

open Lib ChunkedCoding

/-! ### Lines -/

theorem takeLine_append {text : Bytes} (h : ∀ b ∈ text, b ≠ 10) (rest : Bytes) :
    takeLine (text ++ 10 :: rest) = (text ++ [10], rest) := by
  induction text with
  | nil => simp [takeLine]
  | cons b text ih =>
      have ih := ih fun b' hb' => h b' (List.mem_cons_of_mem _ hb')
      rw [List.cons_append, takeLine, if_neg (h b List.mem_cons_self), ih]
      rfl

theorem takeLine_all {text : Bytes} (h : ∀ b ∈ text, b ≠ 10) : takeLine text = (text, []) := by
  induction text with
  | nil => rfl
  | cons b text ih =>
      have ih := ih fun b' hb' => h b' (List.mem_cons_of_mem _ hb')
      rw [takeLine, if_neg (h b List.mem_cons_self), ih]

theorem utf8Valid_crlf (text : Bytes) : utf8Valid (text ++ crlf) = utf8Valid text := by
  by_cases h : utf8Valid text = true
  · rw [utf8Valid_append h, h]
    rfl
  · rw [Bool.eq_false_of_not_eq_true h]
    by_contra hvalid
    exact h (utf8Valid_of_append (by decide) (Bool.eq_true_of_not_eq_false hvalid))

theorem readLine_crlf {text : Bytes} (h : NoBreak text) (hvalid : utf8Valid text = true)
    (rest : Bytes) : readLine (text ++ (crlf ++ rest)) = .ok (text ++ crlf, rest) := by
  have hline : takeLine (text ++ (crlf ++ rest)) = (text ++ crlf, rest) := by
    have := @takeLine_append (text ++ [13]) (by
      intro b hb
      rcases List.mem_append.mp hb with hb | hb
      · exact (h b hb).2
      · simp only [List.mem_singleton] at hb
        rw [hb]
        decide) rest
    simpa [crlf] using this
  unfold readLine
  rw [hline, if_pos (by rw [utf8Valid_crlf]; exact hvalid)]

theorem readLine_crlf_invalid {text : Bytes} (h : NoBreak text) (hvalid : utf8Valid text = false)
    (rest : Bytes) : ∃ e, readLine (text ++ (crlf ++ rest)) = .error e := by
  have hline : (takeLine (text ++ (crlf ++ rest))).1 = text ++ crlf := by
    have := @takeLine_append (text ++ [13]) (by
      intro b hb
      rcases List.mem_append.mp hb with hb | hb
      · exact (h b hb).2
      · simp only [List.mem_singleton] at hb
        rw [hb]
        decide) rest
    simpa [crlf] using congrArg Prod.fst this
  unfold readLine
  rw [hline, if_neg (by rw [utf8Valid_crlf, hvalid]; decide)]
  exact ⟨_, rfl⟩

/-! ### Sizes -/

theorem solid_of_ascii {b : UInt8} (hlow : 32 < b.toNat) (hhigh : b.toNat < 128) :
    Trim.Solid whiteSpace b := by
  have hblanks : ∀ w ∈ whiteSpace, ∀ c ∈ w, c.toNat ≤ 32 ∨ 128 ≤ c.toNat := by
    decide +kernel
  intro w hw hb
  rcases hblanks w hw b hb with h | h <;> omega

theorem solid_of_digit {b : UInt8} (h : (Numeral.digit? 16 b).isSome) : Trim.Solid whiteSpace b := by
  rcases Numeral.digit?_isSome h with h | h | h
  · exact solid_of_ascii (by omega) (by omega)
  · exact solid_of_ascii (by omega) (by omega)
  · exact solid_of_ascii (by omega) (by omega)

theorem decode_digits {s : Bytes} {n : Nat} (h : Numeral.decode 16 s = some n) {b : UInt8}
    (hb : b ∈ s) : (Numeral.digit? 16 b).isSome :=
  Numeral.valueFrom_digits (Numeral.decode_eq_some.mp h).2 b hb

theorem core_of_decode {s : Bytes} {n : Nat} (h : Numeral.decode 16 s = some n) :
    Trim.Core whiteSpace s := by
  have hne := (Numeral.decode_eq_some.mp h).1
  constructor
  · obtain ⟨c, rest, rfl⟩ := List.exists_cons_of_ne_nil hne
    exact ⟨c, rest, rfl, solid_of_digit (decode_digits h List.mem_cons_self)⟩
  · rcases List.eq_nil_or_concat' s with rfl | ⟨front, c, rfl⟩
    · exact absurd rfl hne
    · exact ⟨front, c, rfl, solid_of_digit (decode_digits h (by simp))⟩

/-- What may stand between a size and its extensions, or the end of the line. -/
def LineBlank (b : UInt8) : Prop := b = 32 ∨ b = 9 ∨ b = 13 ∨ b = 10

theorem blank_mem {b : UInt8} (h : LineBlank b) : [b] ∈ whiteSpace := by
  rcases h with rfl | rfl | rfl | rfl <;> decide

theorem mem_takeWhile_append {p : UInt8 → Bool} {front back : Bytes} {b : UInt8}
    (h : b ∈ front.takeWhile p) : b ∈ (front ++ back).takeWhile p := by
  rw [List.takeWhile_append]
  split
  · exact List.mem_append_left _ ((List.takeWhile_prefix p).subset h)
  · exact h

/-- **The size of a line** is its digits, whatever stands behind blanks and a semicolon. -/
theorem parseChunkSize_eq {s back : Bytes} {n : Nat} (h : Numeral.decode 16 s = some n)
    (hn : n < usizeLimit) (hback : ∀ b ∈ back.takeWhile (· ≠ 59), LineBlank b) :
    parseChunkSize (s ++ back) = .ok n := by
  have hcore := core_of_decode h
  obtain ⟨left, ⟨rest, rfl⟩, htrim⟩ := hcore.trim_append back
  have hdigits : ∀ b ∈ s, decide (b ≠ 59) = true := by
    intro b hb
    have hdigit := Numeral.digit?_isSome (decode_digits h hb)
    have hne : b ≠ 59 := by
      rintro rfl
      simp at hdigit
    simpa using hne
  have hfield : (s ++ left).takeWhile (· ≠ 59) = s ++ left.takeWhile (· ≠ 59) :=
    List.takeWhile_append_of_pos hdigits
  have hsize : trimText ((trimText (s ++ (left ++ rest))).takeWhile (· ≠ 59)) = s := by
    unfold trimText
    rw [htrim, hfield]
    exact hcore.trim_blank fun b hb => blank_mem (hback b (mem_takeWhile_append hb))
  unfold parseChunkSize
  simp only [hsize, Numeral.parseWord_of_decode h hn]

theorem extensions_blank {text back : Bytes} (h : Extensions text) (hback : ∀ b ∈ back, LineBlank b) :
    ∀ b ∈ (text ++ back).takeWhile (· ≠ 59), LineBlank b := by
  rcases h.form with rfl | ⟨blanks, rest, rfl, hblanks⟩
  · intro b hb
    exact hback b ((List.takeWhile_prefix _).subset hb)
  · intro b hb
    have hfield : (blanks ++ 59 :: (rest ++ back)).takeWhile (· ≠ 59) = blanks := by
      rw [List.takeWhile_append_of_pos]
      · simp
      · intro b hb
        rcases hblanks b hb with rfl | rfl <;> decide
    rw [List.append_assoc, List.cons_append, hfield] at hb
    rcases hblanks b hb with rfl | rfl
    · exact Or.inl rfl
    · exact Or.inr (Or.inl rfl)

theorem crlf_blank : ∀ b ∈ crlf, LineBlank b := by
  intro b hb
  simp only [crlf, List.mem_cons, List.not_mem_nil, or_false] at hb
  rcases hb with rfl | rfl
  · exact Or.inr (Or.inr (Or.inl rfl))
  · exact Or.inr (Or.inr (Or.inr rfl))

theorem noBreak_digits {s : Bytes} {n : Nat} (h : Numeral.decode 16 s = some n) : NoBreak s := by
  intro b hb
  have hdigit := Numeral.digit?_isSome (decode_digits h hb)
  constructor
  · rintro rfl
    simp at hdigit
  · rintro rfl
    simp at hdigit

theorem utf8Valid_digits {s : Bytes} {n : Nat} (h : Numeral.decode 16 s = some n) (back : Bytes) :
    utf8Valid (s ++ back) = utf8Valid back := by
  refine utf8Valid_append (utf8Valid_ascii fun b hb => ?_) back
  rw [UInt8.lt_iff_toNat_lt]
  rcases Numeral.digit?_isSome (decode_digits h hb) with h | h | h
  · exact Nat.lt_of_le_of_lt h.2 (by decide)
  · exact Nat.lt_of_le_of_lt h.2 (by decide)
  · exact Nat.lt_of_le_of_lt h.2 (by decide)

theorem noBreak_append {x y : Bytes} (hx : NoBreak x) (hy : NoBreak y) : NoBreak (x ++ y) := by
  intro b hb
  rcases List.mem_append.mp hb with hb | hb
  · exact hx b hb
  · exact hy b hb

theorem prefix_append_cases {p x y : Bytes} (h : p <+: x ++ y) :
    p <+: x ∨ ∃ back, p = x ++ back ∧ back <+: y := by
  rcases List.prefix_or_prefix_of_prefix h (List.prefix_append x y) with hp | ⟨back, rfl⟩
  · exact Or.inl hp
  · exact Or.inr ⟨back, rfl, (List.prefix_append_right_inj x).mp h⟩

/-! ### One round -/

theorem readExact_append {taken : Bytes} (rest : Bytes) :
    readExact taken.length (taken ++ rest) = .ok (taken, rest) := by
  unfold readExact
  rw [if_neg (by rw [List.length_append]; omega), List.take_left, List.drop_left]

theorem readExact_short {n : Nat} {stream : Bytes} (h : stream.length < n) :
    ∃ e, readExact n stream = .error e := by
  unfold readExact
  rw [if_pos h]
  exact ⟨_, rfl⟩

/-- A line with a size that is not zero. -/
theorem readChunk_sized {stream line rest : Bytes} {n : Nat} (hline : readLine stream = .ok (line, rest))
    (hne : line ≠ []) (hsize : parseChunkSize line = .ok n) (hn : n ≠ 0) :
    readChunk stream = (readExact n rest >>= fun taken =>
      readExact 2 taken.2 >>= fun crlf => .ok (some taken.1, crlf.2)) := by
  unfold readChunk
  rw [hline]
  show (if line = [] then _ else _) = _
  rw [if_neg hne, hsize]
  show (if n = 0 then _ else _) = _
  rw [if_neg hn]
  rfl

theorem readChunk_cut {stream line rest : Bytes} {n : Nat} (hline : readLine stream = .ok (line, rest))
    (hne : line ≠ []) (hsize : parseChunkSize line = .ok n) (hn : n ≠ 0) (hshort : rest.length < n + 2) :
    ∃ e, readChunk stream = .error e := by
  rw [readChunk_sized hline hne hsize hn]
  by_cases hdata : rest.length < n
  · obtain ⟨e, he⟩ := readExact_short hdata
    rw [he]
    exact ⟨e, rfl⟩
  · have htaken : readExact n rest = .ok (rest.take n, rest.drop n) := by
      unfold readExact
      rw [if_neg hdata]
    obtain ⟨e, he⟩ := @readExact_short 2 (rest.drop n) (by rw [List.length_drop]; omega)
    rw [htaken]
    show ∃ e, (readExact 2 (rest.drop n) >>= _) = Except.error e
    rw [he]
    exact ⟨e, rfl⟩

theorem readChunk_of_line_error {stream : Bytes} (h : ∃ e, readLine stream = .error e) :
    ∃ e, readChunk stream = .error e := by
  obtain ⟨e, he⟩ := h
  unfold readChunk
  rw [he]
  exact ⟨e, rfl⟩

section

variable {chunk : Chunk}

theorem chunk_line (rest : Bytes) : chunk.bytes ++ rest
    = (chunk.size ++ chunk.extensions) ++ (crlf ++ (chunk.data ++ (crlf ++ rest))) := by
  simp only [Chunk.bytes, List.append_assoc]

theorem line_noBreak (h : chunk.WellFormed) : NoBreak (chunk.size ++ chunk.extensions) :=
  noBreak_append (noBreak_digits h.size) h.extensions.noBreak

theorem parseChunkSize_line (h : chunk.WellFormed) (hlen : chunk.data.length < usizeLimit)
    {back : Bytes} (hback : ∀ b ∈ back, LineBlank b) :
    parseChunkSize (chunk.size ++ (chunk.extensions ++ back)) = .ok chunk.data.length :=
  parseChunkSize_eq h.size hlen (extensions_blank h.extensions hback)

theorem size_ne_nil (h : chunk.WellFormed) : chunk.size ≠ [] := (Numeral.decode_eq_some.mp h.size).1

theorem data_length_ne (h : chunk.WellFormed) : chunk.data.length ≠ 0 := by
  have := List.length_pos_iff.mpr h.nonempty
  omega

/-- **A whole chunk** is taken, and nothing behind it. -/
theorem readChunk_bytes (h : chunk.WellFormed) (hlen : chunk.data.length < usizeLimit)
    (htext : utf8Valid chunk.extensions = true) (rest : Bytes) :
    readChunk (chunk.bytes ++ rest) = .ok (some chunk.data, rest) := by
  have hline := readLine_crlf (line_noBreak h) (by rw [utf8Valid_digits h.size]; exact htext)
    (chunk.data ++ (crlf ++ rest))
  have hne : (chunk.size ++ chunk.extensions) ++ crlf ≠ [] := by simp [size_ne_nil h]
  have hsize := parseChunkSize_line h hlen crlf_blank
  rw [← List.append_assoc] at hsize
  rw [chunk_line, readChunk_sized hline hne hsize (data_length_ne h), readExact_append]
  have hcrlf : readExact 2 (crlf ++ rest) = .ok (crlf, rest) := @readExact_append crlf rest
  show (readExact 2 (crlf ++ rest) >>= fun taken => .ok (some chunk.data, taken.2)) = _
  rw [hcrlf]
  rfl

theorem readChunk_not_text (h : chunk.WellFormed) (htext : utf8Valid chunk.extensions = false)
    (rest : Bytes) : ∃ e, readChunk (chunk.bytes ++ rest) = .error e := by
  rw [chunk_line]
  exact readChunk_of_line_error (readLine_crlf_invalid (line_noBreak h)
    (by rw [utf8Valid_digits h.size]; exact htext) _)

/-- The first digit of the size counts. -/
def Leading (chunk : Chunk) : Prop := chunk.size.head? ≠ some 48

theorem digit_zero {b : UInt8} (h : Numeral.digit? 16 b = some 0) : b = 48 := by
  have hall : ∀ n : Fin 256, Numeral.digit? 16 (UInt8.ofNat n.val) = some 0 → n.val = 48 := by
    decide +kernel
  have hb := hall ⟨b.toNat, b.toNat_lt⟩ (by rw [UInt8.ofNat_toNat]; exact h)
  exact UInt8.toNat_inj.mp hb

theorem decode_cut (h : chunk.WellFormed) (hlead : Leading chunk) {s : Bytes}
    (hs : s <+: chunk.size) (hne : s ≠ []) :
    ∃ n, Numeral.decode 16 s = some n ∧ n ≠ 0 ∧ n ≤ chunk.data.length := by
  obtain ⟨rest, hsize⟩ := hs
  have hvalue := (Numeral.decode_eq_some.mp h.size).2
  rw [← hsize, Numeral.valueFrom_append] at hvalue
  obtain ⟨n, hn, hmore⟩ := Option.bind_eq_some_iff.mp hvalue
  refine ⟨n, Numeral.decode_eq_some.mpr ⟨hne, hn⟩, ?_, Numeral.le_valueFrom (by decide) hmore⟩
  obtain ⟨b, digits, rfl⟩ := List.exists_cons_of_ne_nil hne
  rw [Numeral.valueFrom] at hn
  obtain ⟨d, hd, hn⟩ := Option.bind_eq_some_iff.mp hn
  have hgrow := Numeral.le_valueFrom (by decide) hn
  have hpos : d ≠ 0 := by
    rintro rfl
    refine hlead ?_
    rw [← hsize, digit_zero hd]
    rfl
  omega

/-- **A chunk that is cut is an error**, wherever it is cut. -/
theorem readChunk_strict (h : chunk.WellFormed) (hlen : chunk.data.length < usizeLimit)
    (htext : utf8Valid chunk.extensions = true) (hlead : Leading chunk) {p q : Bytes}
    (hcut : p ++ q = chunk.bytes) (hq : q ≠ []) : ∃ e, readChunk p = .error e := by
  have hbreak := line_noBreak h
  rw [← List.append_nil chunk.bytes, chunk_line] at hcut
  by_cases hshort : p.length < (chunk.size ++ chunk.extensions).length + 2
  · -- the line itself is cut
    have hp : p <+: (chunk.size ++ chunk.extensions) ++ [13] := by
      refine List.prefix_of_prefix_length_le (List.prefix_append p q) ?_ (by simp; simp at hshort; omega)
      rw [hcut]
      exact ⟨10 :: (chunk.data ++ (crlf ++ [])), by simp [crlf]⟩
    have hfeed : ∀ b ∈ p, b ≠ 10 := by
      intro b hb
      rcases List.mem_append.mp (hp.subset hb) with hmem | hmem
      · exact (hbreak b hmem).2
      · simp only [List.mem_singleton] at hmem
        rw [hmem]
        decide
    by_cases hvalid : utf8Valid p = true
    · have hline : readLine p = .ok (p, []) := by
        unfold readLine
        rw [takeLine_all hfeed, if_pos hvalid]
      by_cases hnil : p = []
      · subst hnil
        exact ⟨_, rfl⟩
      · have hsized : ∃ n, parseChunkSize p = .ok n ∧ n ≠ 0 := by
          rw [List.append_assoc] at hp
          rcases prefix_append_cases hp with hs | ⟨back, rfl, hback⟩
          · obtain ⟨n, hn, hpos, hle⟩ := decode_cut h hlead hs hnil
            have hsize := parseChunkSize_eq hn (by omega) (show ∀ b ∈ ([] : Bytes).takeWhile (· ≠ 59),
              LineBlank b from fun b hb => absurd hb (by simp))
            rw [List.append_nil] at hsize
            exact ⟨n, hsize, hpos⟩
          · obtain ⟨rest, hrest⟩ := hback
            refine ⟨_, parseChunkSize_eq h.size hlen ?_, data_length_ne h⟩
            intro b hb
            refine @extensions_blank chunk.extensions [13] h.extensions ?_ b ?_
            · intro b hb
              rw [List.mem_singleton.mp hb]
              exact Or.inr (Or.inr (Or.inl rfl))
            · rw [← hrest]
              exact mem_takeWhile_append hb
        obtain ⟨n, hsize, hpos⟩ := hsized
        exact readChunk_cut hline hnil hsize hpos (by simp)
    · refine readChunk_of_line_error ?_
      unfold readLine
      rw [takeLine_all hfeed, if_neg hvalid]
      exact ⟨_, rfl⟩
  · -- the line is whole
    have hwhole : (chunk.size ++ chunk.extensions) ++ crlf <+: p := by
      refine List.prefix_of_prefix_length_le ?_ (List.prefix_append p q) ?_
      · rw [hcut, ← List.append_assoc]
        exact List.prefix_append _ _
      · rw [List.length_append, show crlf.length = 2 from rfl]
        omega
    obtain ⟨back, rfl⟩ := hwhole
    have hback : back ++ q = chunk.data ++ (crlf ++ []) := by
      simp only [List.append_assoc] at hcut ⊢
      simpa using hcut
    have hqpos := List.length_pos_iff.mpr hq
    have hcount := congrArg List.length hback
    simp only [List.length_append, List.length_nil, show crlf.length = 2 from rfl] at hcount
    have hline := readLine_crlf hbreak (by rw [utf8Valid_digits h.size]; exact htext) back
    rw [← List.append_assoc] at hline
    have hsize := parseChunkSize_line h hlen crlf_blank
    rw [← List.append_assoc] at hsize
    have hne : (chunk.size ++ chunk.extensions) ++ crlf ≠ [] := by simp [size_ne_nil h]
    exact readChunk_cut hline hne hsize (data_length_ne h) (by omega)

end

end LimniFS
