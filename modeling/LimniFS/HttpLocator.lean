/-
The HTTP locator, and reading a chunked body.

A range is asked for with both its ends, the last byte included, so an empty range is asked for as one
that ends before it starts, and at the very beginning as the range of the first byte.  What comes back
is cut only if the server has sent everything; the answer to a range is taken as it is.  What `send`
comes back with is a parameter of the fetches.

The lines of the chunked coding are read as text up to the next line break or the end of the stream, and
a line that is not text is an error.  A stream is the bytes that are left of it; what a reader leaves is
its second result.
-/
import LimniFS.Lib.Numeral
import LimniFS.Lib.Trim
import LimniFS.Utf8Lossy

namespace LimniFS

open Lib

/-- What a reader or a connection fails with. -/
inductive IoError where
  | unexpectedEof (message : String)
  | invalidData (message : String)
  | other (message : String)
  deriving DecidableEq

inductive LocatorError where
  | unsupportedScheme (scheme : Bytes)
  | invalidUri (reason : Bytes)
  | io (error : IoError)
  | notFound
  | status (code : Nat) (body : Bytes)
  deriving DecidableEq

/-- `bytes[start..end]`. -/
def byteSlice (bytes : Bytes) (start stop : Nat) : Bytes := (bytes.take stop).drop start

/-- `u64::saturating_add`. -/
def saturatingAdd (a b : Nat) : Nat := min (a + b) (2 ^ 64 - 1)

/-- `Locator::fetch_range` where a locator does not have its own. -/
def defaultFetchRange (fetch : Bytes → Except LocatorError Bytes) (uri : Bytes) (offset length : Nat) :
    Except LocatorError Bytes := do
  let data ← fetch uri
  let total := data.length
  let start := min offset total
  let stop := min (saturatingAdd start length) total
  return byteSlice data start stop

/-! ### Requests -/

def schemeOf (uri : Bytes) : Bytes := ((splitOnce 58 uri).map Prod.fst).getD []

/-- `str::strip_prefix`. -/
def stripPrefixBytes (front s : Bytes) : Option Bytes :=
  if front.isPrefixOf s then some (s.drop front.length) else none

def parseHttpUrl (uri : Bytes) : Except LocatorError (Bytes × Nat × Bytes) :=
  match (stripPrefixBytes (ascii "http://") uri).or (stripPrefixBytes (ascii "https://") uri) with
  | none => .error (.unsupportedScheme (schemeOf uri))
  | some rest =>
    let authority := rest.takeWhile (· != 47)
    let path := if 47 ∈ rest then rest.dropWhile (· != 47) else ascii "/"
    if authority = [] then .error (.invalidUri (ascii "http URI has empty authority"))
    else
      match splitOnce 58 authority with
      | none => .ok (authority, 80, path)
      | some (host, p) =>
        match Numeral.parseWord 10 (2 ^ 16) p with
        | none => .error (.invalidUri (ascii "invalid port: " ++ p))
        | some port => .ok (host, port, path)

structure HttpRequest where
  host : Bytes
  port : Nat
  path : Bytes
  range : Option Bytes
  agent : Bytes
  deriving DecidableEq

def HttpRequest.new (uri agent : Bytes) : Except LocatorError HttpRequest := do
  let (host, port, path) ← parseHttpUrl uri
  return ⟨host, port, path, none, agent⟩

def HttpRequest.withRange (request : HttpRequest) (range : Bytes) : HttpRequest :=
  { request with range := some range }

structure RawResponse where
  status : Nat
  body : Bytes
  deriving DecidableEq

def RawResponse.intoBody (response : RawResponse) : Except LocatorError Bytes :=
  if response.status = 200 ∨ response.status = 206 then .ok response.body
  else if response.status = 404 then .error .notFound
  else .error (.status response.status (fromUtf8Lossy response.body))

/-! ### Fetches -/

section

variable (send : HttpRequest → Except LocatorError RawResponse) (agent : Bytes)

/-- What a ranged fetch makes of the response. -/
def takeRange (response : RawResponse) (offset length : Nat) : Except LocatorError Bytes :=
  if response.status = 200 then do
    -- the server has ignored the range
    let body ← response.intoBody
    let start := min offset body.length
    let stop := min (saturatingAdd start length) body.length
    return byteSlice body start stop
  else if response.status = 206 then response.intoBody
  else if response.status = 416 then .ok []
  else .error (.status response.status (fromUtf8Lossy response.body))

def httpFetchRange (uri : Bytes) (offset length : Nat) : Except LocatorError Bytes :=
  if 2 ^ 64 ≤ offset + length then
    .error (.invalidUri (ascii "offset (" ++ Numeral.encode 10 offset ++ ascii ") + length ("
      ++ Numeral.encode 10 length ++ ascii ") overflows u64"))
  else do
    let last := offset + length - 1
    let range := ascii "bytes=" ++ Numeral.encode 10 offset ++ ascii "-" ++ Numeral.encode 10 last
    let request ← HttpRequest.new uri agent
    let response ← send (request.withRange range)
    takeRange response offset length

end

/-! ### What a ranged fetch brings back -/

/-- The bytes of the window that there are. -/
def availablePart (body : Bytes) (offset length : Nat) : Bytes :=
  byteSlice body (min offset body.length) (min (offset + length) body.length)

/-- The server has `body`, and answers every range of it. -/
def ServesRanges (send : HttpRequest → Except LocatorError RawResponse) (body : Bytes) : Prop :=
  ∀ request range, request.range = some range →
    ∃ response, send request = .ok response ∧
      ByteRange.Answers body range response.status response.body

/-- Clipping the start before the length is added makes no difference. -/
theorem byteSlice_clipped {body : Bytes} {offset length : Nat} (hsum : offset + length < 2 ^ 64)
    (hbody : body.length < 2 ^ 64) :
    byteSlice body (min offset body.length)
        (min (saturatingAdd (min offset body.length) length) body.length)
      = availablePart body offset length := by
  have hstop : min (saturatingAdd (min offset body.length) length) body.length
      = if offset ≤ body.length then min (offset + length) body.length else body.length := by
    unfold saturatingAdd
    split <;> omega
  unfold availablePart
  rw [hstop]
  by_cases h : offset ≤ body.length
  · rw [if_pos h]
  · rw [if_neg h, Nat.min_eq_right (show body.length ≤ offset + length by omega)]

/-- **The default is exact.** -/
theorem defaultFetchRange_eq {fetch : Bytes → Except LocatorError Bytes} {uri body : Bytes}
    {offset length : Nat} (hsum : offset + length < 2 ^ 64) (hbody : body.length < 2 ^ 64)
    (hfetch : fetch uri = .ok body) :
    defaultFetchRange fetch uri offset length = .ok (availablePart body offset length) := by
  unfold defaultFetchRange
  rw [hfetch]
  show Except.ok _ = _
  rw [byteSlice_clipped hsum hbody]

theorem range_text (first last : Nat) :
    ascii "bytes=" ++ Numeral.encode 10 first ++ ascii "-" ++ Numeral.encode 10 last
      = ByteRange.text first last := by
  have hunit : ascii "bytes=" = [98, 121, 116, 101, 115, 61] := by decide
  have hdash : ascii "-" = [45] := by decide
  unfold ByteRange.text
  rw [hunit, hdash]
  simp only [List.append_assoc, List.singleton_append]

theorem httpFetchRange_eq {send : HttpRequest → Except LocatorError RawResponse} {agent uri : Bytes}
    {request : HttpRequest} {response : RawResponse} {offset length : Nat}
    (huri : HttpRequest.new uri agent = .ok request) (hsum : offset + length < 2 ^ 64)
    (hsend : send (request.withRange (ByteRange.text offset (offset + length - 1))) = .ok response) :
    httpFetchRange send agent uri offset length = takeRange response offset length := by
  unfold httpFetchRange
  rw [if_neg (by omega), huri]
  simp only [range_text]
  show (send (request.withRange (ByteRange.text offset (offset + length - 1))) >>= fun response =>
    takeRange response offset length) = _
  rw [hsend]
  rfl

section

variable {body content : Bytes} {offset length : Nat}

theorem takeRange_whole (hsum : offset + length < 2 ^ 64) (hbody : body.length < 2 ^ 64) :
    takeRange ⟨200, body⟩ offset length = .ok (availablePart body offset length) := by
  show Except.ok (byteSlice body (min offset body.length)
    (min (saturatingAdd (min offset body.length) length) body.length)) = _
  rw [byteSlice_clipped hsum hbody]

theorem availablePart_zero : availablePart body offset 0 = [] := by
  unfold availablePart byteSlice
  rw [Nat.add_zero, List.drop_eq_nil_iff, List.length_take]
  omega

theorem availablePart_past (h : body.length ≤ offset) : availablePart body offset length = [] := by
  unfold availablePart byteSlice
  rw [List.drop_eq_nil_iff, List.length_take]
  omega

theorem availablePart_inside (h : offset < body.length) :
    availablePart body offset length = (body.take (offset + length)).drop offset := by
  unfold availablePart byteSlice
  rw [Nat.min_eq_left (Nat.le_of_lt h), ← List.take_eq_take_min]

/-- **Every answer is exact**, unless it answers for the first byte where none was asked for. -/
theorem takeRange_exact (hsum : offset + length < 2 ^ 64) (hbody : body.length < 2 ^ 64)
    (hempty : offset = 0 → length = 0 → body = []) {status : Nat}
    (h : ByteRange.Answers body (ByteRange.text offset (offset + length - 1)) status content) :
    takeRange ⟨status, content⟩ offset length = .ok (availablePart body offset length) := by
  have hparse := ByteRange.parse_text offset (offset + length - 1)
  cases h with
  | whole => exact takeRange_whole hsum hbody
  | @selected range _ hrange hvalid hpart =>
      obtain rfl := Option.some.inj (hrange.symm.trans hparse)
      have hle : offset ≤ offset + length - 1 := hvalid
      rw [ByteRange.part_fromTo] at hpart
      by_cases hin : offset < body.length
      · rw [if_pos hin] at hpart
        have hlength : length ≠ 0 := by
          rintro rfl
          have hzero : offset = 0 := by omega
          rw [hempty hzero rfl, List.length_nil] at hin
          omega
        have hstop : offset + length - 1 + 1 = offset + length := by omega
        rw [availablePart_inside hin, ← Option.some.inj hpart, hstop]
        rfl
      · rw [if_neg hin] at hpart
        cases hpart
  | @unsatisfiable range _ hrange hvalid hpart =>
      obtain rfl := Option.some.inj (hrange.symm.trans hparse)
      rw [ByteRange.part_fromTo] at hpart
      by_cases hin : offset < body.length
      · rw [if_pos hin] at hpart
        cases hpart
      · rw [availablePart_past (Nat.le_of_not_lt hin)]
        rfl
  | invalid hnever =>
      have hshort : ¬ offset ≤ offset + length - 1 := hnever _ hparse
      have hlength : length = 0 := by omega
      subst hlength
      rw [availablePart_zero]
      rfl

end

/-- A server that answers with the first byte wherever it may, and with everything elsewhere. -/
def firstByteServer (body : Bytes) (request : HttpRequest) : Except LocatorError RawResponse :=
  if request.range = some (ByteRange.text 0 0) then .ok ⟨206, body.take 1⟩ else .ok ⟨200, body⟩

theorem servesRanges_firstByteServer {body : Bytes} (h : body ≠ []) :
    ServesRanges (firstByteServer body) body := by
  intro request range hrange
  unfold firstByteServer
  by_cases hfirst : request.range = some (ByteRange.text 0 0)
  · rw [if_pos hfirst]
    obtain rfl := Option.some.inj (hrange.symm.trans hfirst)
    refine ⟨_, rfl, .selected (ByteRange.parse_text 0 0) (Nat.le_refl 0) ?_⟩
    rw [ByteRange.part_fromTo, if_pos (List.length_pos_iff.mpr h)]
    rfl
  · rw [if_neg hfirst]
    exact ⟨_, rfl, .whole⟩

/--
**A ranged fetch is exact but for the empty range at the beginning.**  For every body, offset and length
whose sum fits the word, the default fetch brings back the bytes of the window that there are; and the
HTTP locator does, from every server that answers as RFC 9110 allows, if and only if the window is not
the empty one at the start of a body that is not empty.
-/
theorem fetch_range_exact_iff {uri agent body : Bytes} {request : HttpRequest} {offset length : Nat}
    (huri : HttpRequest.new uri agent = .ok request) (hsum : offset + length < 2 ^ 64)
    (hbody : body.length < 2 ^ 64) :
    (∀ fetch : Bytes → Except LocatorError Bytes, fetch uri = .ok body →
      defaultFetchRange fetch uri offset length = .ok (availablePart body offset length)) ∧
    ((∀ send, ServesRanges send body →
        httpFetchRange send agent uri offset length = .ok (availablePart body offset length)) ↔
      (offset = 0 → length = 0 → body = [])) := by
  refine ⟨fun fetch hfetch => defaultFetchRange_eq hsum hbody hfetch, ?_, ?_⟩
  · intro hexact hoffset hlength
    subst hoffset hlength
    by_contra hne
    have hserves := servesRanges_firstByteServer hne
    have hfetch := hexact _ hserves
    rw [httpFetchRange_eq huri hsum (show firstByteServer body _ = .ok ⟨206, body.take 1⟩ from
      if_pos rfl), availablePart_zero] at hfetch
    have hnil : body.take 1 = [] := Except.ok.inj hfetch
    rcases List.take_eq_nil_iff.mp hnil with h | h
    · cases h
    · exact hne h
  · intro hempty send hserves
    obtain ⟨response, hsend, hanswers⟩ := hserves (request.withRange (ByteRange.text offset
      (offset + length - 1))) _ rfl
    rw [httpFetchRange_eq huri hsum hsend]
    exact takeRange_exact hsum hbody hempty hanswers

namespace Stored

def objectUri : Bytes := ascii "http://h/o"

def objectRequest : HttpRequest := ⟨ascii "h", 80, ascii "/o", none, []⟩

end Stored

theorem objectRequest_new : HttpRequest.new Stored.objectUri [] = .ok Stored.objectRequest := by
  decide +kernel

/-- The window of two bytes at the end of a body of three. -/
theorem fetch_range_window :
    httpFetchRange (firstByteServer [1, 2, 3]) [] Stored.objectUri 1 2 = .ok [2, 3] :=
  (fetch_range_exact_iff objectRequest_new (by decide) (by decide)).2.mpr (by decide) _
    (servesRanges_firstByteServer (by simp))

/-- **No bytes are asked for, and one comes.** -/
theorem fetch_range_first_byte :
    ServesRanges (firstByteServer [7]) [7] ∧
      httpFetchRange (firstByteServer [7]) [] Stored.objectUri 0 0 = .ok [7] ∧
      availablePart [7] 0 0 = [] := by
  refine ⟨servesRanges_firstByteServer (by simp), ?_, availablePart_zero⟩
  have hanswer : firstByteServer [7] (Stored.objectRequest.withRange (ByteRange.text 0 0))
      = .ok ⟨206, [7]⟩ := if_pos rfl
  rw [httpFetchRange_eq objectRequest_new (by decide) hanswer]
  rfl

/-- The encodings of Unicode's white space. -/
def whiteSpace : List Bytes :=
  [[9], [10], [11], [12], [13], [32], [0xC2, 0x85], [0xC2, 0xA0], [0xE1, 0x9A, 0x80],
    [0xE2, 0x80, 0x80], [0xE2, 0x80, 0x81], [0xE2, 0x80, 0x82], [0xE2, 0x80, 0x83],
    [0xE2, 0x80, 0x84], [0xE2, 0x80, 0x85], [0xE2, 0x80, 0x86], [0xE2, 0x80, 0x87],
    [0xE2, 0x80, 0x88], [0xE2, 0x80, 0x89], [0xE2, 0x80, 0x8A], [0xE2, 0x80, 0xA8],
    [0xE2, 0x80, 0xA9], [0xE2, 0x80, 0xAF], [0xE2, 0x81, 0x9F], [0xE3, 0x80, 0x80]]

/-- `str::trim`. -/
def trimText (s : Bytes) : Bytes := Trim.trim whiteSpace s

/-! ### Readers -/

/-- Up to the next line feed, which belongs to the line, or all there is. -/
def takeLine : Bytes → Bytes × Bytes
  | [] => ([], [])
  | b :: rest => if b = 10 then ([b], rest) else (b :: (takeLine rest).1, (takeLine rest).2)

/-- `read_line`; an empty line is the end of the stream. -/
def readLine (stream : Bytes) : Except LocatorError (Bytes × Bytes) :=
  if utf8Valid (takeLine stream).1 = true then .ok (takeLine stream)
  else .error (.io (.invalidData "stream did not contain valid UTF-8"))

/-- `read_exact` of `n` bytes. -/
def readExact (n : Nat) (stream : Bytes) : Except LocatorError (Bytes × Bytes) :=
  if stream.length < n then .error (.io (.unexpectedEof "failed to fill whole buffer"))
  else .ok (stream.take n, stream.drop n)

theorem takeLine_lt {stream : Bytes} (h : (takeLine stream).1 ≠ []) :
    (takeLine stream).2.length < stream.length := by
  have hle : ∀ s : Bytes, (takeLine s).2.length ≤ s.length := by
    intro s
    induction s with
    | nil => exact Nat.le_refl 0
    | cons b rest ih =>
        rw [takeLine, List.length_cons]
        split
        · exact Nat.le_succ _
        · exact Nat.le_succ_of_le ih
  cases stream with
  | nil => exact absurd rfl h
  | cons b rest =>
      rw [takeLine, List.length_cons]
      split
      · exact Nat.lt_succ_self _
      · exact Nat.lt_succ_of_le (hle rest)

theorem readLine_eq_ok {stream line rest : Bytes} (h : readLine stream = .ok (line, rest)) :
    takeLine stream = (line, rest) := by
  unfold readLine at h
  split at h
  · exact Except.ok.inj h
  · cases h

theorem readLine_lt {stream line rest : Bytes} (h : readLine stream = .ok (line, rest))
    (hne : line ≠ []) : rest.length < stream.length := by
  have hline := readLine_eq_ok h
  have := @takeLine_lt stream
  rw [hline] at this
  exact this hne

theorem readExact_le {n : Nat} {stream taken rest : Bytes}
    (h : readExact n stream = .ok (taken, rest)) : rest.length ≤ stream.length := by
  unfold readExact at h
  split at h
  · cases h
  · cases h
    rw [List.length_drop]
    omega

/-! ### The chunked coding -/

/-- The size on the line of a chunk. -/
def parseChunkSize (sizeLine : Bytes) : Except LocatorError Nat :=
  let sizeStr := trimText ((trimText sizeLine).takeWhile (· ≠ 59))
  match Numeral.parseWord 16 usizeLimit sizeStr with
  | none => .error (.io (.invalidData ("invalid chunk size: " ++ debugStr sizeStr)))
  | some size => .ok size

/-- The headers behind the last chunk, up to an empty line or the end of the stream. -/
def skipTrailers (stream : Bytes) : Except LocatorError Bytes :=
  match _h : readLine stream with
  | .error e => .error e
  | .ok (tail, rest) => if _hne : tail = [] ∨ trimText tail = [] then .ok rest else skipTrailers rest
termination_by stream.length
decreasing_by exact readLine_lt _h fun h => _hne (Or.inl h)

/-- One round of `read_chunked`: a chunk and the bytes behind it, or what is left behind the last. -/
def readChunk (stream : Bytes) : Except LocatorError (Option Bytes × Bytes) := do
  let (sizeLine, rest) ← readLine stream
  if sizeLine = [] then throw (.io (.unexpectedEof "chunked response truncated mid-size"))
  else
    let chunkSize ← parseChunkSize sizeLine
    if chunkSize = 0 then return (none, ← skipTrailers rest)
    else
      let (chunk, rest) ← readExact chunkSize rest
      let (_, rest) ← readExact 2 rest
      return (some chunk, rest)

theorem readChunk_lt {stream chunk rest : Bytes} (h : readChunk stream = .ok (some chunk, rest)) :
    rest.length < stream.length := by
  unfold readChunk at h
  obtain ⟨⟨sizeLine, tail⟩, hline, h⟩ := except_bind_eq_ok.mp h
  by_cases hempty : sizeLine = []
  · simp only [if_pos hempty] at h
    cases h
  · simp only [if_neg hempty] at h
    obtain ⟨size, -, h⟩ := except_bind_eq_ok.mp h
    by_cases hzero : size = 0
    · simp only [if_pos hzero] at h
      obtain ⟨left, -, h⟩ := except_bind_eq_ok.mp h
      cases h
    · simp only [if_neg hzero] at h
      obtain ⟨⟨data, behind⟩, hdata, h⟩ := except_bind_eq_ok.mp h
      obtain ⟨⟨crlf, left⟩, hcrlf, hret⟩ := except_bind_eq_ok.mp h
      cases hret
      have h1 := readLine_lt hline hempty
      have h2 : behind.length ≤ tail.length := readExact_le hdata
      have h3 : left.length ≤ behind.length := readExact_le hcrlf
      show left.length < stream.length
      omega

/-- The loop of `read_chunked`. -/
def readChunkedLoop (stream buf : Bytes) : Except LocatorError (Bytes × Bytes) :=
  match _h : readChunk stream with
  | .error e => .error e
  | .ok (none, rest) => .ok (buf, rest)
  | .ok (some chunk, rest) => readChunkedLoop rest (buf ++ chunk)
termination_by stream.length
decreasing_by exact readChunk_lt _h

def readChunked (stream : Bytes) : Except LocatorError (Bytes × Bytes) := readChunkedLoop stream []

end LimniFS
