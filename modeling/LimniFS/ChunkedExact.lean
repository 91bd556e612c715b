/-
What a chunked message is read back as.

What can go wrong stands on the lines, not in the data.  They have to be text; and a size line that the
stream ends in is taken for a whole one, so where a size is spelled with a zero in front the stream can
be cut behind that zero and look complete.
-/
import LimniFS.ChunkedRound

namespace LimniFS

open Lib ChunkedCoding

/-- Every line of the message is text. -/
structure TextLines (message : Message) : Prop where
  chunks : ∀ chunk ∈ message.chunks, utf8Valid chunk.extensions = true
  last : utf8Valid message.lastExtensions = true
  trailers : ∀ trailer ∈ message.trailers, utf8Valid trailer = true

/-! ### The end of a message -/

theorem readTail_blank {text : Bytes} (h : Trailer text) : trimText (text ++ crlf) ≠ [] := by
  obtain ⟨name, value, rfl, hne, hname⟩ := h.form
  obtain ⟨b, name, rfl⟩ := List.exists_cons_of_ne_nil hne
  have hall : ∀ n : Fin 256, isTokenByte (UInt8.ofNat n.val) = true → 32 < n.val ∧ n.val < 128 := by
    decide +kernel
  have hb : 32 < b.toNat ∧ b.toNat < 128 :=
    hall ⟨b.toNat, b.toNat_lt⟩ (by rw [UInt8.ofNat_toNat]; exact hname b List.mem_cons_self)
  have hsolid := solid_of_ascii hb.1 hb.2
  unfold trimText Trim.trim
  simp only [List.cons_append]
  rw [Trim.trimStart_solid hsolid]
  obtain ⟨left, -, htrim⟩ := Trim.trimEnd_keeps hsolid [] (name ++ 58 :: value ++ crlf)
  rw [List.nil_append] at htrim
  rw [htrim]
  simp

theorem skipTrailers_of_ok {stream tail rest : Bytes} (h : readLine stream = .ok (tail, rest)) :
    skipTrailers stream
      = if tail = [] ∨ trimText tail = [] then .ok rest else skipTrailers rest := by
  rw [skipTrailers]
  split
  · next e he =>
    rw [h] at he
    cases he
  · next tail' rest' he =>
    rw [h] at he
    cases he
    rfl

theorem skipTrailers_of_error {stream : Bytes} (h : ∃ e, readLine stream = .error e) :
    ∃ e, skipTrailers stream = .error e := by
  obtain ⟨e, he⟩ := h
  refine ⟨e, ?_⟩
  rw [skipTrailers]
  split
  · next e' he' =>
    rw [he] at he'
    cases he'
    rfl
  · next tail rest he' =>
    rw [he] at he'
    cases he'

theorem skipTrailers_iff : ∀ {trailers : List Bytes}, (∀ t ∈ trailers, Trailer t) → ∀ rest out : Bytes,
    (skipTrailers (trailers.flatMap (fun t => t ++ crlf) ++ (crlf ++ rest)) = .ok out ↔
      (∀ t ∈ trailers, utf8Valid t = true) ∧ out = rest) := by
  intro trailers
  induction trailers with
  | nil =>
      intro _ rest out
      have hline : readLine (crlf ++ rest) = .ok (crlf, rest) := by
        have := @readLine_crlf [] (by intro b hb; cases hb) rfl rest
        exact this
      have hblank : trimText crlf = [] := by decide +kernel
      rw [List.flatMap_nil, List.nil_append, skipTrailers_of_ok hline, if_pos (Or.inr hblank)]
      constructor
      · intro h
        exact ⟨fun t ht => absurd ht (by simp), (Except.ok.inj h).symm⟩
      · rintro ⟨-, rfl⟩
        rfl
  | cons t trailers ih =>
      intro htrailers rest out
      have ht := htrailers t List.mem_cons_self
      have ih := ih (fun t' ht' => htrailers t' (List.mem_cons_of_mem _ ht')) rest out
      rw [List.flatMap_cons]
      simp only [List.append_assoc]
      by_cases hvalid : utf8Valid t = true
      · have hline := readLine_crlf ht.noBreak hvalid
          (trailers.flatMap (fun t => t ++ crlf) ++ (crlf ++ rest))
        have hne : ¬ (t ++ crlf = [] ∨ trimText (t ++ crlf) = []) := by
          rintro (h | h)
          · simp [crlf] at h
          · exact readTail_blank ht h
        rw [skipTrailers_of_ok hline, if_neg hne, ih]
        simp [hvalid]
      · obtain ⟨e, he⟩ := skipTrailers_of_error (readLine_crlf_invalid ht.noBreak
          (Bool.eq_false_of_not_eq_true hvalid) (trailers.flatMap (fun t => t ++ crlf) ++ (crlf ++ rest)))
        rw [he]
        simp [hvalid]

/-- The last chunk and what follows it. -/
theorem readChunk_last {message : Message} (h : message.WellFormed) (rest : Bytes)
    (out : Option Bytes × Bytes) :
    readChunk (message.lastBytes ++ rest) = .ok out ↔
      utf8Valid message.lastExtensions = true ∧
        (∀ t ∈ message.trailers, utf8Valid t = true) ∧ out = (none, rest) := by
  have hbreak : NoBreak (message.lastSize ++ message.lastExtensions) :=
    noBreak_append (noBreak_digits h.lastSize) h.lastExtensions.noBreak
  have hbytes : message.lastBytes ++ rest = (message.lastSize ++ message.lastExtensions)
      ++ (crlf ++ (message.trailers.flatMap (fun t => t ++ crlf) ++ (crlf ++ rest))) := by
    simp only [Message.lastBytes, List.append_assoc]
  rw [hbytes]
  by_cases htext : utf8Valid message.lastExtensions = true
  · have hline := readLine_crlf hbreak (by rw [utf8Valid_digits h.lastSize]; exact htext)
      (message.trailers.flatMap (fun t => t ++ crlf) ++ (crlf ++ rest))
    have hne : ¬ (message.lastSize ++ message.lastExtensions) ++ crlf = [] := by simp [crlf]
    have hsize : parseChunkSize ((message.lastSize ++ message.lastExtensions) ++ crlf) = .ok 0 := by
      rw [List.append_assoc]
      exact parseChunkSize_eq h.lastSize (by decide) (extensions_blank h.lastExtensions crlf_blank)
    have hround : readChunk ((message.lastSize ++ message.lastExtensions) ++ (crlf
        ++ (message.trailers.flatMap (fun t => t ++ crlf) ++ (crlf ++ rest))))
        = (skipTrailers (message.trailers.flatMap (fun t => t ++ crlf) ++ (crlf ++ rest))).map
          fun left => (none, left) := by
      unfold readChunk
      rw [hline]
      show (if (message.lastSize ++ message.lastExtensions) ++ crlf = [] then _ else _) = _
      rw [if_neg hne, hsize]
      rfl
    rw [hround]
    constructor
    · intro hok
      rcases hskip : skipTrailers (message.trailers.flatMap (fun t => t ++ crlf) ++ (crlf ++ rest))
        with e | left
      · rw [hskip] at hok
        cases hok
      · rw [hskip] at hok
        cases hok
        obtain ⟨htrailers, rfl⟩ := (skipTrailers_iff h.trailers rest left).mp hskip
        exact ⟨htext, htrailers, rfl⟩
    · rintro ⟨-, htrailers, rfl⟩
      rw [(skipTrailers_iff h.trailers rest rest).mpr ⟨htrailers, rfl⟩]
      rfl
  · obtain ⟨e, he⟩ := readChunk_of_line_error (readLine_crlf_invalid hbreak
      (by rw [utf8Valid_digits h.lastSize]; exact Bool.eq_false_of_not_eq_true htext)
      (message.trailers.flatMap (fun t => t ++ crlf) ++ (crlf ++ rest)))
    rw [he]
    simp [htext]

/-! ### Whole messages -/

theorem readChunkedLoop_chunk {stream chunk rest : Bytes} (buf : Bytes)
    (h : readChunk stream = .ok (some chunk, rest)) :
    readChunkedLoop stream buf = readChunkedLoop rest (buf ++ chunk) := by
  rw [readChunkedLoop]
  split
  · next e he => rw [h] at he; cases he
  · next rest' he => rw [h] at he; cases he
  · next chunk' rest' he =>
    rw [h] at he
    cases he
    rfl

theorem readChunkedLoop_last {stream rest : Bytes} (buf : Bytes)
    (h : readChunk stream = .ok (none, rest)) : readChunkedLoop stream buf = .ok (buf, rest) := by
  rw [readChunkedLoop]
  split
  · next e he => rw [h] at he; cases he
  · next rest' he =>
    rw [h] at he
    cases he
    rfl
  · next chunk' rest' he => rw [h] at he; cases he

theorem readChunkedLoop_error {stream : Bytes} (buf : Bytes) (h : ∃ e, readChunk stream = .error e) :
    ∃ e, readChunkedLoop stream buf = .error e := by
  obtain ⟨e, he⟩ := h
  refine ⟨e, ?_⟩
  rw [readChunkedLoop]
  split
  · next e' he' =>
    rw [he] at he'
    cases he'
    rfl
  · next rest' he' => rw [he] at he'; cases he'
  · next chunk' rest' he' => rw [he] at he'; cases he'

/-- Chunks that were read, and what they leave to be read. -/
theorem readChunkedLoop_chunks : ∀ {chunks : List Chunk}, (∀ c ∈ chunks, c.WellFormed) →
    (∀ c ∈ chunks, c.data.length < usizeLimit) → ∀ (rest buf : Bytes) (out : Bytes × Bytes),
      (readChunkedLoop (chunks.flatMap Chunk.bytes ++ rest) buf = .ok out ↔
        (∀ c ∈ chunks, utf8Valid c.extensions = true) ∧
          readChunkedLoop rest (buf ++ chunks.flatMap Chunk.data) = .ok out) := by
  intro chunks
  induction chunks with
  | nil =>
      intro _ _ rest buf out
      simp
  | cons c chunks ih =>
      intro hformed hlens rest buf out
      have hc := hformed c List.mem_cons_self
      rw [List.flatMap_cons, List.flatMap_cons, List.append_assoc]
      by_cases htext : utf8Valid c.extensions = true
      · rw [readChunkedLoop_chunk buf (readChunk_bytes hc (hlens c List.mem_cons_self) htext _),
          ih (fun c' hc' => hformed c' (List.mem_cons_of_mem _ hc'))
            (fun c' hc' => hlens c' (List.mem_cons_of_mem _ hc')), List.append_assoc]
        simp [htext]
      · obtain ⟨e, he⟩ := readChunkedLoop_error buf (readChunk_not_text hc
          (Bool.eq_false_of_not_eq_true htext) (chunks.flatMap Chunk.bytes ++ rest))
        rw [he]
        simp [htext]

/-- **A message is read back** exactly if its lines are text. -/
theorem readChunked_bytes {message : Message} (h : message.WellFormed)
    (hlens : ∀ c ∈ message.chunks, c.data.length < usizeLimit) (rest : Bytes) (out : Bytes × Bytes) :
    readChunked (message.bytes ++ rest) = .ok out ↔
      TextLines message ∧ out = (message.content, rest) := by
  unfold readChunked Message.bytes Message.chunkBytes
  rw [List.append_assoc, readChunkedLoop_chunks h.chunks hlens, List.nil_append]
  constructor
  · rintro ⟨hchunks, hlast⟩
    rcases hround : readChunk (message.lastBytes ++ rest) with e | ⟨_ | chunk, left⟩
    · obtain ⟨e', he'⟩ := readChunkedLoop_error (message.chunks.flatMap Chunk.data) ⟨e, hround⟩
      rw [he'] at hlast
      cases hlast
    · obtain ⟨htext, htrailers, hleft⟩ := (readChunk_last h rest _).mp hround
      obtain rfl := (Prod.mk.inj hleft).2
      rw [readChunkedLoop_last _ hround] at hlast
      exact ⟨⟨hchunks, htext, htrailers⟩, (Except.ok.inj hlast).symm⟩
    · have hleft := ((readChunk_last h rest _).mp hround).2.2
      cases (Prod.mk.inj hleft).1
  · rintro ⟨htext, rfl⟩
    refine ⟨htext.chunks, ?_⟩
    exact readChunkedLoop_last _ ((readChunk_last h rest _).mpr ⟨htext.last, htext.trailers, rfl⟩)

/-- **No cut looks complete** where every size starts with a digit that counts. -/
theorem readChunkedLoop_cut : ∀ {chunks : List Chunk}, (∀ c ∈ chunks, c.WellFormed) →
    (∀ c ∈ chunks, c.data.length < usizeLimit) → (∀ c ∈ chunks, utf8Valid c.extensions = true) →
    (∀ c ∈ chunks, Leading c) → ∀ {p : Bytes}, p <+: chunks.flatMap Chunk.bytes → ∀ buf : Bytes,
      ∃ e, readChunkedLoop p buf = .error e := by
  intro chunks
  induction chunks with
  | nil =>
      intro _ _ _ _ p hp buf
      rw [List.flatMap_nil, List.prefix_nil] at hp
      subst hp
      exact readChunkedLoop_error buf ⟨_, rfl⟩
  | cons c chunks ih =>
      intro hformed hlens htext hlead p hp buf
      have hc := hformed c List.mem_cons_self
      have hmore : ∀ {back : Bytes}, back <+: chunks.flatMap Chunk.bytes → ∀ buf,
          ∃ e, readChunkedLoop back buf = .error e :=
        ih (fun c' hc' => hformed c' (List.mem_cons_of_mem _ hc'))
          (fun c' hc' => hlens c' (List.mem_cons_of_mem _ hc'))
          (fun c' hc' => htext c' (List.mem_cons_of_mem _ hc'))
          (fun c' hc' => hlead c' (List.mem_cons_of_mem _ hc'))
      have hwhole : ∀ {back : Bytes}, back <+: chunks.flatMap Chunk.bytes →
          ∃ e, readChunkedLoop (c.bytes ++ back) buf = .error e := by
        intro back hback
        rw [readChunkedLoop_chunk buf (readChunk_bytes hc (hlens c List.mem_cons_self)
          (htext c List.mem_cons_self) back)]
        exact hmore hback _
      rw [List.flatMap_cons] at hp
      rcases prefix_append_cases hp with ⟨q, hcut⟩ | ⟨back, rfl, hback⟩
      · by_cases hq : q = []
        · subst hq
          rw [List.append_nil] at hcut
          rw [hcut, ← List.append_nil c.bytes]
          exact hwhole (List.nil_prefix)
        · exact readChunkedLoop_error buf (readChunk_strict hc (hlens c List.mem_cons_self)
            (htext c List.mem_cons_self) (hlead c List.mem_cons_self) hcut hq)
      · exact hwhole hback

theorem readChunk_zero : readChunk [48] = .ok (none, []) := by decide +kernel

/--
**Chunked decoding is exact for text lines and sizes without leading zeros.**  For every message of
chunks that are not empty, with extensions and trailers: reading its bytes gives what it carries and
leaves what follows, and no stream that ends before the line of the last chunk is read, if and only if
every line is text and the size of every chunk starts with a digit that counts.
-/
theorem read_chunked_exact_iff {message : Message} (h : message.WellFormed)
    (hlens : ∀ c ∈ message.chunks, c.data.length < usizeLimit) :
    ((∀ rest, readChunked (message.bytes ++ rest) = .ok (message.content, rest)) ∧
      ∀ p, p <+: message.chunkBytes → ∀ out, readChunked p ≠ .ok out) ↔
    TextLines message ∧ ∀ c ∈ message.chunks, Leading c := by
  constructor
  · rintro ⟨hread, hcut⟩
    have htext := ((readChunked_bytes h hlens [] _).mp (hread [])).1
    refine ⟨htext, fun c hc hzero => ?_⟩
    obtain ⟨before, after, hchunks⟩ := List.append_of_mem hc
    obtain ⟨size, hsize⟩ : ∃ digits, c.size = 48 :: digits := by
      cases hcs : c.size with
      | nil => rw [hcs] at hzero; cases hzero
      | cons b digits =>
          rw [hcs] at hzero
          exact ⟨digits, by rw [Option.some.inj hzero]⟩
    refine hcut (before.flatMap Chunk.bytes ++ [48]) ?_ (before.flatMap Chunk.data, []) ?_
    · unfold Message.chunkBytes
      rw [hchunks, List.flatMap_append, List.flatMap_cons, Chunk.bytes, hsize]
      exact (List.prefix_append_right_inj _).mpr ⟨_, rfl⟩
    · have hmem : ∀ c' ∈ before, c' ∈ message.chunks := by
        intro c' hc'
        rw [hchunks]
        exact List.mem_append_left _ hc'
      refine (readChunkedLoop_chunks (fun c' hc' => h.chunks c' (hmem c' hc'))
        (fun c' hc' => hlens c' (hmem c' hc')) [48] [] _).mpr
        ⟨fun c' hc' => htext.chunks c' (hmem c' hc'), ?_⟩
      exact readChunkedLoop_last _ readChunk_zero
  · rintro ⟨htext, hlead⟩
    refine ⟨fun rest => (readChunked_bytes h hlens rest _).mpr ⟨htext, rfl⟩, fun p hp out hok => ?_⟩
    obtain ⟨e, he⟩ := readChunkedLoop_cut h.chunks hlens htext.chunks hlead hp []
    rw [readChunked, he] at hok
    cases hok

namespace Stored

/-- A chunk that holds a line break, with an extension, and a trailer. -/
def breakMessage : Message where
  chunks := [⟨ascii "2", ascii ";q", [13, 10]⟩]
  lastSize := ascii "0"
  lastExtensions := []
  trailers := [ascii "t: 1"]

/-- A size with a zero in front. -/
def zeroMessage : Message where
  chunks := [⟨ascii "02", [], ascii "hi"⟩]
  lastSize := ascii "0"
  lastExtensions := []
  trailers := []

theorem breakMessage_wellFormed : breakMessage.WellFormed where
  chunks := by
    intro chunk hchunk
    obtain rfl := List.mem_singleton.mp hchunk
    refine ⟨by decide, by decide, ⟨by unfold NoBreak; decide +kernel, Or.inr ⟨[], ascii "q", rfl, ?_⟩⟩⟩
    intro b hb
    exact absurd hb List.not_mem_nil
  lastSize := by decide
  lastExtensions := ⟨by unfold NoBreak; decide +kernel, Or.inl rfl⟩
  trailers := by
    intro trailer htrailer
    obtain rfl := List.mem_singleton.mp htrailer
    refine ⟨by unfold NoBreak; decide +kernel, ascii "t", ascii " 1", by decide, by decide, ?_⟩
    intro b hb
    obtain rfl := List.mem_singleton.mp hb
    decide

theorem zeroMessage_wellFormed : zeroMessage.WellFormed where
  chunks := by
    intro chunk hchunk
    obtain rfl := List.mem_singleton.mp hchunk
    exact ⟨by decide, by decide, ⟨by unfold NoBreak; decide +kernel, Or.inl rfl⟩⟩
  lastSize := by decide
  lastExtensions := ⟨by unfold NoBreak; decide +kernel, Or.inl rfl⟩
  trailers := by
    intro trailer htrailer
    cases htrailer

end Stored

open LimniFS.Stored

/-- Line breaks in the data do no harm. -/
theorem read_chunked_break :
    readChunked (breakMessage.bytes ++ [1]) = .ok ([13, 10], [1]) := by
  have htext : TextLines breakMessage := ⟨by decide, by decide, by decide⟩
  have hlead : ∀ c ∈ breakMessage.chunks, Leading c := by
    unfold Leading
    decide
  exact ((read_chunked_exact_iff breakMessage_wellFormed (by decide)).mpr ⟨htext, hlead⟩).1 [1]

/-- **Cut behind its first digit, the message is read as an empty one.** -/
theorem zero_size_cut :
    zeroMessage.WellFormed ∧ [48] <+: zeroMessage.chunkBytes ∧
      readChunked [48] = .ok ([], []) ∧
      ¬ ∀ p, p <+: zeroMessage.chunkBytes → ∀ out, readChunked p ≠ .ok out := by
  have hcut : [48] <+: zeroMessage.chunkBytes :=
    ⟨zeroMessage.chunkBytes.drop 1, by decide⟩
  have hread : readChunked [48] = .ok ([], []) := readChunkedLoop_last [] readChunk_zero
  exact ⟨zeroMessage_wellFormed, hcut, hread, fun h => h [48] hcut _ hread⟩

end LimniFS
