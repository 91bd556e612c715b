/-
How long the plaintext is that a codec gives back.

A reader passes the length that the drop record states.  Some wrappers check it, some hand it to a
decoder that honours it; the others take what the stream gives: a filter composite goes by the
length in front of its stream and lets its filter make of it what it makes (the shuffles take their
own two bytes off), FSST + Brotli lets the FSST stage give what it gives, and FLAC, Rice++, GLZA and
ZPAQ are not told the length.  `decompress_length_iff` says when such a stream
gives what was expected.
-/
import LimniFS.CodecRoundTrip

namespace LimniFS

open Lib

variable {z : Omnizip}

/-! ### What is documented of the decoders -/

variable (z) in
/-- A decoder that is given a length returns so many bytes or fails.  Brotli does not check a
length of `u32::MAX`. -/
structure Omnizip.HonoursLength : Prop where
  brotli : ∀ c n p, n ≠ u32Limit - 1 → z.brotliDecompress c n = .ok p → p.length = n
  lz4 : ∀ c n p, z.lz4Decompress c n = .ok p → p.length = n
  snappy : ∀ c n p, z.snappyDecompress c n = .ok p → p.length = n
  ppmd7 : ∀ c n p, z.ppmd7Decompress c n = .ok p → p.length = n
  ppmd8 : ∀ c n p, z.ppmd8Decompress c n = .ok p → p.length = n
  bzip2 : ∀ c n p, z.bzip2Decompress c n = .ok p → p.length = n
  deflate64 : ∀ c n p, z.deflate64Decompress c n = .ok p → p.length = n

/-! ### The length that a stream gives by itself -/

def outLength (r : Coded) : Option Nat := r.toOption.map List.length

/-- What a composite's filter makes of the stream behind the length in front. -/
def filteredLength (filter : Filter) (inner : Codec) (c : Bytes) : Option Nat :=
  if c.length < 4 then none
  else
    (codecCall (inner.decompress (c.drop 4) (leNat (c.take 4)))).toOption.map fun filtered =>
      (filter.decode filtered).length

section
variable (z)

/-- Without an FSST section the rest is Brotli of the expected length. -/
def fsstLength (c : Bytes) (n : Nat) : Option Nat :=
  if c.length < 4 then none
  else
    let fsstLen := leNat (c.take 4)
    if fsstLen = 0 then
      if n = u32Limit - 1 then outLength (z.brotliDecompress (c.drop 4) n) else none
    else if c.length < 4 + fsstLen then none
    else
      match z.brotliDecompress (c.drop (4 + fsstLen)) (u32Limit - 1) with
      | .error _ => none
      | .ok fsstEscaped => outLength (z.fsstDecompress fsstEscaped)

/-- The filter and the codec of a composite. -/
def compositeParts (id : UInt8) : Option (Filter × Codec) :=
  if id = codecBlosc2ShuffleLz4 then some (z.byteShuffle4, lz4Codec z)
  else if id = codecShuffleZstd then some (z.byteShuffle4, zstdCodec z)
  else if id = codecBitshuffleLz4 then some (z.bitShuffle8, lz4Codec z)
  else if id = codecBcjX86Lz4 then some (z.bcjX86, lz4Codec z)
  else if id = codecBcjX86Zstd then some (z.bcjX86, zstdCodec z)
  else if id = codecBcjArm64Lz4 then some (z.bcjArm64, lz4Codec z)
  else if id = codecBcjArm64Zstd then some (z.bcjArm64, zstdCodec z)
  else none

/-- The length of what comes out of a stream that is not held to the expected one. -/
def freeLength (id : UInt8) (c : Bytes) (n : Nat) : Option Nat :=
  if id = codecFlac then outLength (z.flacDecompress c)
  else if id = codecRicepp then outLength (z.riceppDecompress c)
  else if id = codecZpaq then outLength (z.zpaqDecompress c)
  else if id = codecGlza then outLength (z.glzaDecompress c)
  else if id = codecFsstBrotli then fsstLength z c n
  else (compositeParts z id).bind fun parts => filteredLength parts.1 parts.2 c

end

/-! ### One codec -/

/-- What the codec gives back is as long as the stream says, or as expected where it says
nothing. -/
structure Codec.Measured (codec : Codec) (free : Bytes → Nat → Option Nat) : Prop where
  length : ∀ c n p, codecCall (codec.decompress c n) = .ok p → p.length = (free c n).getD n
  decodes : ∀ c n m, free c n = some m → ∃ p, codecCall (codec.decompress c n) = .ok p

theorem Codec.Measured.iff {codec : Codec} {free : Bytes → Nat → Option Nat}
    (h : codec.Measured free) (c : Bytes) (n : Nat) :
    (∀ p, codecCall (codec.decompress c n) = .ok p → p.length = n) ↔
      ∀ m, free c n = some m → m = n := by
  constructor
  · intro hall m hm
    obtain ⟨p, hp⟩ := h.decodes c n m hm
    have hlen := h.length c n p hp
    rw [hm, Option.getD_some, hall p hp] at hlen
    exact hlen.symm
  · intro hall p hp
    rw [h.length c n p hp]
    cases hfree : free c n with
    | none => rfl
    | some m => exact hall m hfree

theorem measured_held {codec : Codec}
    (h : ∀ c n p, codec.decompress c n = .ok p → p.length = n) :
    codec.Measured fun _ _ => none :=
  ⟨fun c n p hp => h c n p (codecCall_ok hp), fun _ _ _ hm => by cases hm⟩

theorem checkLen_length {name : String} {n : Nat} {r : Except CodecFailure Bytes} {p : Bytes}
    (h : checkLen name n r = .ok p) : p.length = n := by
  unfold checkLen at h
  split at h
  · cases h
  · split at h
    · next hlen =>
        cases h
        exact hlen
    · cases h

theorem relabel_eq_ok {label : String} {r : Coded} {p : Bytes} :
    relabel label r = .ok p ↔ r = .ok p := by
  unfold relabel
  split <;> simp

theorem codecCall_relabel_ok {label : String} {r : Coded} {p : Bytes} :
    codecCall (relabel label r) = .ok p ↔ r = .ok p := by
  rcases r with (text | payload) | c <;> simp [relabel, codecCall]

theorem outLength_eq_some {r : Coded} {m : Nat} :
    outLength r = some m ↔ ∃ p, r = .ok p ∧ p.length = m := by
  unfold outLength
  cases r <;> simp [Except.toOption]

theorem measured_free {codec : Codec} {label : String} {decode : Bytes → Coded}
    (h : ∀ c n, codec.decompress c n = relabel label (decode c)) :
    codec.Measured fun c _ => outLength (decode c) := by
  refine ⟨fun c n p hp => ?_, fun c n m hm => ?_⟩
  · rw [h, codecCall_relabel_ok] at hp
    rw [outLength_eq_some.mpr ⟨p, hp, rfl⟩, Option.getD_some]
  · obtain ⟨p, hp, -⟩ := outLength_eq_some.mp hm
    exact ⟨p, by rw [h, codecCall_relabel_ok, hp]⟩

theorem measured_of_cases {codec : Codec} {free : Bytes → Nat → Option Nat}
    (h : ∀ c n, ((∃ e, codecCall (codec.decompress c n) = .error e) ∧ free c n = none) ∨
      ∃ p, codecCall (codec.decompress c n) = .ok p ∧ p.length = (free c n).getD n) :
    codec.Measured free := by
  refine ⟨fun c n p hp => ?_, fun c n m hm => ?_⟩
  · rcases h c n with ⟨⟨e, he⟩, -⟩ | ⟨q, hq, hlen⟩
    · cases he.symm.trans hp
    · rw [← Except.ok.inj (hq.symm.trans hp)]
      exact hlen
  · rcases h c n with ⟨-, hnone⟩ | ⟨q, hq, -⟩
    · cases hnone.symm.trans hm
    · exact ⟨q, hq⟩

theorem measured_composite (filter : Filter) (inner : Codec) (id : UInt8) (name : String) :
    (filterComposite filter inner id name).Measured fun c _ => filteredLength filter inner c := by
  refine measured_of_cases fun c n => ?_
  unfold filteredLength filterComposite plainCodec
  simp only
  by_cases hshort : c.length < 4
  · rw [if_pos hshort, if_pos hshort]
    exact .inl ⟨⟨_, rfl⟩, rfl⟩
  · rw [if_neg hshort, if_neg hshort]
    cases codecCall (inner.decompress (c.drop 4) (leNat (c.take 4))) with
    | error e => exact .inl ⟨⟨_, rfl⟩, rfl⟩
    | ok filtered => exact .inr ⟨filter.decode filtered, rfl, rfl⟩

theorem relabel_cases (label : String) (r : Coded) (n : Nat) :
    ((∃ e, codecCall (relabel label r) = .error e) ∧ outLength r = none) ∨
      ∃ p, codecCall (relabel label r) = .ok p ∧ p.length = (outLength r).getD n := by
  cases r with
  | ok p => exact .inr ⟨p, rfl, rfl⟩
  | error fault =>
      cases fault with
      | error text => exact .inl ⟨⟨_, rfl⟩, rfl⟩
      | panic payload => exact .inl ⟨⟨_, rfl⟩, rfl⟩

theorem measured_fsst (hz : z.HonoursLength) :
    (fsstBrotliCodec z).Measured (fsstLength z) := by
  refine measured_of_cases fun c n => ?_
  have hdecompress : (fsstBrotliCodec z).decompress c n = fsstDecompress z c n := rfl
  rw [hdecompress]
  unfold fsstDecompress fsstLength brotliDecompressAtQuality
  by_cases hshort : c.length < 4
  · rw [if_pos hshort, if_pos hshort]
    exact .inl ⟨⟨_, rfl⟩, rfl⟩
  rw [if_neg hshort, if_neg hshort]
  simp only
  by_cases hplain : leNat (c.take 4) = 0
  · rw [if_pos hplain, if_pos hplain]
    by_cases hmax : n = u32Limit - 1
    · rw [if_pos hmax]
      exact relabel_cases _ _ n
    · rw [if_neg hmax]
      rcases relabel_cases "brotli: " (z.brotliDecompress (c.drop 4) n) n with ⟨hfails, -⟩ | ⟨p, hp, -⟩
      · exact .inl ⟨hfails, rfl⟩
      · exact .inr ⟨p, hp, hz.brotli _ _ _ hmax (codecCall_relabel_ok.mp hp)⟩
  · rw [if_neg hplain, if_neg hplain]
    by_cases hover : c.length < 4 + leNat (c.take 4)
    · rw [if_pos hover, if_pos hover]
      exact .inl ⟨⟨_, rfl⟩, rfl⟩
    · rw [if_neg hover, if_neg hover]
      cases z.brotliDecompress (c.drop (4 + leNat (c.take 4))) (u32Limit - 1) with
      | ok escaped => exact relabel_cases _ _ n
      | error fault =>
          cases fault with
          | error text => exact .inl ⟨⟨_, rfl⟩, rfl⟩
          | panic payload => exact .inl ⟨⟨_, rfl⟩, rfl⟩

/-! ### The registry -/

theorem store_held (c : Bytes) (n : Nat) (p : Bytes)
    (h : storeCodec.decompress c n = .ok p) : p.length = n := by
  have hstore : storeCodec.decompress c n = if c.length = n then .ok c
    else .error (.core (.corrupt (s!"store codec: compressed length {c.length}"
      ++ s!" does not match plaintext_len {n}"))) := rfl
  rw [hstore] at h
  split at h
  · next hlen =>
      cases h
      exact hlen
  · cases h

theorem registry_measured (hz : z.HonoursLength) {k : Codec} (hk : k ∈ defaultRegistry z) :
    k.Measured (freeLength z k.id) := by
  simp only [defaultRegistry, List.mem_cons, List.not_mem_nil, or_false] at hk
  rcases hk with rfl | rfl | rfl | rfl | rfl | rfl | rfl | rfl | rfl | rfl | rfl | rfl | rfl | rfl |
    rfl | rfl | rfl | rfl | rfl | rfl | rfl | rfl | rfl | rfl | rfl
  · exact measured_held store_held
  · exact measured_held fun c n p h => hz.lz4 c n p (relabel_eq_ok.mp h)
  · exact measured_held fun c n p h => hz.lz4 c n p (relabel_eq_ok.mp h)
  · exact measured_held fun c n p h => checkLen_length h
  · exact measured_held fun c n p h => checkLen_length h
  · exact measured_held fun c n p h => checkLen_length h
  · exact measured_held fun c n p h => checkLen_length h
  · exact measured_held fun c n p h => checkLen_length h
  · exact measured_held fun c n p h => hz.snappy c n p (relabel_eq_ok.mp h)
  · exact measured_free fun _ _ => rfl
  · exact measured_free fun _ _ => rfl
  · exact measured_fsst hz
  · exact measured_composite _ _ _ _
  · exact measured_free fun _ _ => rfl
  · exact measured_held fun c n p h => hz.ppmd7 c n p (relabel_eq_ok.mp h)
  · exact measured_held fun c n p h => hz.ppmd8 c n p (relabel_eq_ok.mp h)
  · exact measured_free fun _ _ => rfl
  · exact measured_composite _ _ _ _
  · exact measured_composite _ _ _ _
  · exact measured_held fun c n p h => hz.bzip2 c n p (relabel_eq_ok.mp h)
  · exact measured_held fun c n p h => hz.deflate64 c n p (relabel_eq_ok.mp h)
  · exact measured_composite _ _ _ _
  · exact measured_composite _ _ _ _
  · exact measured_composite _ _ _ _
  · exact measured_composite _ _ _ _

/--
**A plaintext is as long as expected exactly when its stream does not say otherwise.**  Every codec
that is told the length keeps to it; the others give what the stream gives, and no id outside the
registry gives anything.
-/
theorem decompress_length_iff (hz : z.HonoursLength) (id : UInt8) (c : Bytes) (n : Nat) :
    (∀ p, decompress z id c n = .ok p → p.length = n) ↔
      ((findCodec z id).isSome → ∀ m, freeLength z id c n = some m → m = n) := by
  unfold decompress
  cases hfind : findCodec z id with
  | none => exact iff_of_true (fun p h => by cases h) fun h => by cases h
  | some k =>
      have hid : k.id = id := by simpa using List.find?_some hfind
      have hmeasured := registry_measured hz (List.mem_of_find?_eq_some hfind)
      rw [hid] at hmeasured
      rw [Option.isSome_some, imp_iff_right rfl]
      exact hmeasured.iff c n

namespace Stored

def heldTo (c : Bytes) (n : Nat) : Coded :=
  if c.length = n then .ok c else .error (.error "length")

/-- Stored as it is, with decoders that honour the length. -/
def exactOmnizip : Omnizip :=
  { omnizip with
    brotliDecompress := fun c n => if n = u32Limit - 1 then .ok c else heldTo c n
    lz4Decompress := heldTo
    snappyDecompress := heldTo
    ppmd7Decompress := heldTo
    ppmd8Decompress := heldTo
    bzip2Decompress := heldTo
    deflate64Decompress := heldTo }

theorem heldTo_ok {c p : Bytes} {n : Nat} (h : heldTo c n = .ok p) : p.length = n := by
  unfold heldTo at h
  split at h
  · next hlen =>
      cases h
      exact hlen
  · cases h

theorem exactOmnizip_honoursLength : exactOmnizip.HonoursLength where
  brotli c n p hn h := by
    have hheld : heldTo c n = .ok p := (if_neg hn).symm.trans h
    exact heldTo_ok hheld
  lz4 _ _ _ := heldTo_ok
  snappy _ _ _ := heldTo_ok
  ppmd7 _ _ _ := heldTo_ok
  ppmd8 _ _ _ := heldTo_ok
  bzip2 _ _ _ := heldTo_ok
  deflate64 _ _ _ := heldTo_ok

/-- Four bytes behind their length. -/
def prefixedStream : Bytes := [4, 0, 0, 0, 1, 2, 3, 4]

end Stored

open LimniFS.Stored

/-- Five bytes are expected of a stream that says four, and four come. -/
theorem composite_ignores_expected_length :
    exactOmnizip.HonoursLength ∧
      decompress exactOmnizip codecBcjX86Lz4 prefixedStream 5 = .ok [1, 2, 3, 4] ∧
      ([1, 2, 3, 4] : Bytes).length ≠ 5 := by
  refine ⟨exactOmnizip_honoursLength, ?_, by decide⟩
  rfl

/-- The same stream under the length that it says. -/
theorem decompress_length_iff_prefixed :
    (∀ p, decompress exactOmnizip codecBcjX86Lz4 prefixedStream 4 = .ok p →
      p.length = 4) ↔
    ((findCodec exactOmnizip codecBcjX86Lz4).isSome → ∀ m,
      freeLength exactOmnizip codecBcjX86Lz4 prefixedStream 4 = some m → m = 4) :=
  decompress_length_iff exactOmnizip_honoursLength codecBcjX86Lz4 prefixedStream 4

end LimniFS
