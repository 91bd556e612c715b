/-
The dictionary pass.

Once all drops are known, every ZSTD drop whose plaintext was kept is compressed again
with the dictionary of its class.  If what the shorter results save is more than what
the dictionaries themselves cost, they replace the drops' bytes and the dictionaries
are written into the manifest; otherwise nothing changes.

The pass sets the bytes and the dictionary id of a drop and leaves its flags.  A drop
that was a seekable container keeps the flag and loses the container, and no reader
takes the two together.  `dictionaryPass_readable_iff` says that this, and a dictionary
above the reader's limit, is all that goes wrong.
-/
import LimniFS.SlabWriter

namespace LimniFS

open Lib Lib.Parser Cursor

/-! ### The pass -/

/-- The contents of the trained or adopted dictionaries; the text one has id 0, the binary
one id 1. -/
structure TrainedDicts where
  text : Option Bytes
  binary : Option Bytes

namespace TrainedDicts

def none : TrainedDicts := ⟨Option.none, Option.none⟩

/-- The dictionaries with their ids, in the order of the ids. -/
def toList (dicts : TrainedDicts) : List (UInt8 × Bytes) :=
  (dicts.text.map ((0 : UInt8), ·)).toList ++ (dicts.binary.map ((1 : UInt8), ·)).toList

/-- The dictionary of a class. -/
def forClass (dicts : TrainedDicts) : Class → Option (UInt8 × Bytes)
  | .text | .code | .sparse => dicts.text.map ((0 : UInt8), ·)
  | .binary => dicts.binary.map ((1 : UInt8), ·)
  | _ => Option.none

def totalBytes (dicts : TrainedDicts) : Nat := (dicts.toList.map (·.2.length)).sum

/-- What `assemble` writes behind the history. -/
def section_ (dicts : TrainedDicts) : DictionarySection :=
  ⟨dicts.toList.map fun d => ⟨codecZstd, d.1, d.2⟩⟩

/-- Every dictionary is within the reader's limit. -/
def WithinCap (dicts : TrainedDicts) : Prop := ∀ d ∈ dicts.toList, d.2.length ≤ maxDictSize

/-- A dictionary is at most its `u32` target size long. -/
def Fits (dicts : TrainedDicts) : Prop := ∀ d ∈ dicts.toList, d.2.length < u32Limit

end TrainedDicts

section

variable (z : Omnizip) (classify : Bytes → Class)

/-- A shorter form of a drop under its class's dictionary, with the dictionary's id.  A failing
encoder means no candidate. -/
def dictCandidate (dicts : TrainedDicts) (d : PendingDrop) : Option (Bytes × UInt8) :=
  if d.codec ≠ codecZstd then none
  else
    match d.plaintext with
    | none => none
    | some plaintext =>
      match dicts.forClass (classify plaintext) with
      | none => none
      | some (id, content) =>
        match z.zstdCompressWithDict content plaintext with
        | .error _ => none
        | .ok c => if c.length < d.compressed.length then some (c, id) else none

/-- What a candidate saves. -/
def savingOf (dicts : TrainedDicts) (d : PendingDrop) : Int :=
  match dictCandidate z classify dicts d with
  | none => 0
  | some (c, _) => (d.compressed.length : Int) - c.length

/-- Do the dictionaries save more than they cost? -/
def dictionariesPay (dicts : TrainedDicts) (drops : List PendingDrop) : Prop :=
  (dicts.totalBytes : Int) < (drops.map (savingOf z classify dicts)).sum

instance (dicts : TrainedDicts) (drops : List PendingDrop) :
    Decidable (dictionariesPay z classify dicts drops) :=
  inferInstanceAs (Decidable ((dicts.totalBytes : Int) < _))

/-- Put a candidate in place of the drop's bytes. -/
def swapDrop (dicts : TrainedDicts) (d : PendingDrop) : PendingDrop :=
  match dictCandidate z classify dicts d with
  | none => d
  | some (c, id) => { d with compressed := c, dictId := id }

/-- Let go of the kept plaintext. -/
def releaseSample (d : PendingDrop) : PendingDrop := { d with plaintext := none }

def applyTrainedDictionaries (dicts : TrainedDicts) (drops : List PendingDrop) :
    List PendingDrop × TrainedDicts :=
  if dictionariesPay z classify dicts drops then
    ((drops.map (swapDrop z classify dicts)).map releaseSample, dicts)
  else (drops.map releaseSample, .none)

end

/-! ### The image's own dictionary table -/

/-- What a reader finds behind the history: the dictionaries, if any, and `trailer`. -/
def imageDictTable (dicts : TrainedDicts) (trailer : Bytes) : DictTable :=
  let behindHistory := (if dicts.toList = [] then [] else encodeDictionarySection dicts.section_)
    ++ trailer
  match parseDictionarySection behindHistory with
  | (.ok section_, _) => installDicts section_
  | (.error _, _) => fun _ => none

/-- One dictionary, as it is written. -/
def dictionaryBytes (d : Dictionary) : Bytes :=
  [d.codecId, d.classId]
    ++ leBytes 4 (if d.data.length < u32Limit then d.data.length else maxDictSize) ++ d.data

theorem reads_parseDictionary {index : Nat} {done : List Dictionary} {d : Dictionary}
    (h : d.data.length ≤ maxDictSize) :
    Reads (parseDictionary index done) (dictionaryBytes d) (done ++ [d]) := by
  have hlt : d.data.length < u32Limit := Nat.lt_of_le_of_lt h (by decide)
  have hbytes : dictionaryBytes d
      = [d.codecId] ++ ([d.classId] ++ (leBytes 4 d.data.length ++ d.data)) := by
    rw [dictionaryBytes, if_pos hlt]
    simp
  rw [hbytes]
  refine (reads_readU8 _).bind ?_
  refine (reads_readU8 _).bind ?_
  refine (reads_readU32Le hlt).bind ?_
  refine (reads_ensure h).bind_nil ?_
  exact (reads_readN rfl).map fun data => done ++ [(⟨d.codecId, d.classId, data⟩ : Dictionary)]

theorem encodeDictionarySection_eq {s : DictionarySection} (hcount : s.dicts.length < 256) :
    encodeDictionarySection s = [dictionarySectionVersion]
      ++ ([UInt8.ofNat s.dicts.length] ++ s.dicts.flatMap dictionaryBytes)
    ∧ (UInt8.ofNat s.dicts.length).toNat = s.dicts.length := by
  constructor
  · unfold encodeDictionarySection
    rw [if_pos hcount]
    rfl
  · rw [UInt8.toNat_ofNat']
    omega

theorem reads_parseDictionarySection {s : DictionarySection} (hcount : s.dicts.length < 256)
    (h : ∀ d ∈ s.dicts, d.data.length ≤ maxDictSize) :
    Reads parseDictionarySection (encodeDictionarySection s) s := by
  obtain ⟨hbytes, hnat⟩ := encodeDictionarySection_eq hcount
  rw [hbytes]
  refine (reads_readU8 _).bind ?_
  refine (reads_ensure rfl).bind_nil ?_
  refine (reads_readU8 _).bind ?_
  rw [hnat]
  have hloop : Reads (loop parseDictionary s.dicts.length 0 [])
      (s.dicts.flatMap dictionaryBytes) ([] ++ s.dicts) :=
    reads_loop s.dicts [] 0 fun before d after heq =>
      reads_parseDictionary (h d (by rw [heq]; simp))
  rw [List.nil_append] at hloop
  exact hloop.map fun dicts => (⟨dicts⟩ : DictionarySection)

/-- A dictionary above the limit makes the loop fail, whatever was read before. -/
theorem loop_parseDictionary_error :
    ∀ (dicts done : List Dictionary) (index : Nat) (rest : Bytes),
      (∀ d ∈ dicts, d.data.length < u32Limit) → (∃ d ∈ dicts, maxDictSize < d.data.length) →
      ∃ e, (loop parseDictionary dicts.length index done (dicts.flatMap dictionaryBytes ++ rest)).1
        = .error e := by
  intro dicts
  induction dicts with
  | nil => rintro _ _ _ _ ⟨d, hd, -⟩; cases hd
  | cons d tail ih =>
      intro done index rest hfits hlong
      have hlt := hfits d List.mem_cons_self
      rw [List.flatMap_cons, List.append_assoc]
      show ∃ e, ((parseDictionary index done >>= fun s => loop parseDictionary tail.length
        (index + 1) s) _).1 = _
      by_cases hcap : d.data.length ≤ maxDictSize
      · rw [bind_apply, reads_parseDictionary hcap]
        refine ih _ _ rest (fun d' h' => hfits d' (List.mem_cons_of_mem _ h')) ?_
        obtain ⟨d', hmem, hd'⟩ := hlong
        rcases List.mem_cons.mp hmem with rfl | hmem
        · omega
        · exact ⟨d', hmem, hd'⟩
      · have hbytes : dictionaryBytes d ++ (tail.flatMap dictionaryBytes ++ rest)
            = [d.codecId] ++ ([d.classId] ++ (leBytes 4 d.data.length
              ++ (d.data ++ (tail.flatMap dictionaryBytes ++ rest)))) := by
          rw [dictionaryBytes, if_pos hlt]
          simp
        rw [hbytes]
        simp only [parseDictionary, bind_apply, reads_readU8 _ _, reads_readU32Le hlt _, ensure,
          if_neg hcap]
        exact ⟨_, rfl⟩

theorem parseDictionarySection_error {s : DictionarySection} (hcount : s.dicts.length < 256)
    (hfits : ∀ d ∈ s.dicts, d.data.length < u32Limit)
    (hlong : ∃ d ∈ s.dicts, maxDictSize < d.data.length) (rest : Bytes) :
    ∃ e, (parseDictionarySection (encodeDictionarySection s ++ rest)).1 = .error e := by
  obtain ⟨hbytes, hnat⟩ := encodeDictionarySection_eq hcount
  obtain ⟨e, he⟩ := loop_parseDictionary_error s.dicts [] 0 rest hfits hlong
  rw [hbytes, List.append_assoc, List.append_assoc]
  simp only [parseDictionarySection, bind_apply, reads_readU8 _ _, ensure, if_true, hnat]
  rcases hl : loop parseDictionary s.dicts.length 0 [] (s.dicts.flatMap dictionaryBytes ++ rest)
    with ⟨e' | x, mid⟩
  · exact ⟨e', rfl⟩
  · rw [hl] at he
    cases he

namespace TrainedDicts

theorem length_toList_lt (dicts : TrainedDicts) : dicts.section_.dicts.length < 256 := by
  obtain ⟨text, binary⟩ := dicts
  cases text <;> cases binary <;> simp [section_, toList]

theorem forClass_mem {dicts : TrainedDicts} {c : Class} {id : UInt8} {content : Bytes}
    (h : dicts.forClass c = some (id, content)) :
    (id, content) ∈ dicts.toList ∧ id ≠ noDict ∧ installDicts dicts.section_ id = some content := by
  obtain ⟨text, binary⟩ := dicts
  cases c <;> cases text <;> cases binary <;>
    simp_all [forClass, toList, noDict, installDicts, section_] <;>
    (obtain ⟨rfl, rfl⟩ := h; simp)

end TrainedDicts

theorem imageDictTable_withinCap {dicts : TrainedDicts} (hcap : dicts.WithinCap) {c : Class}
    {id : UInt8} {content : Bytes} (h : dicts.forClass c = some (id, content)) (trailer : Bytes) :
    imageDictTable dicts trailer id = some content := by
  obtain ⟨hmem, -, hinstall⟩ := TrainedDicts.forClass_mem h
  have hread := reads_parseDictionarySection dicts.length_toList_lt (by
    intro d hd
    obtain ⟨d', hd', rfl⟩ := List.mem_map.mp hd
    exact hcap d' hd') trailer
  unfold imageDictTable
  simp only [if_neg (List.ne_nil_of_mem hmem), hread, hinstall]

theorem imageDictTable_tooLong {dicts : TrainedDicts} (hfits : dicts.Fits)
    (hcap : ¬ dicts.WithinCap) (trailer : Bytes) (id : UInt8) :
    imageDictTable dicts trailer id = none := by
  unfold TrainedDicts.WithinCap at hcap
  push Not at hcap
  obtain ⟨d, hd, hlong⟩ := hcap
  obtain ⟨e, he⟩ := parseDictionarySection_error (s := dicts.section_) dicts.length_toList_lt
    (by
      intro d hd
      obtain ⟨d', hd', rfl⟩ := List.mem_map.mp hd
      exact hfits d' hd')
    ⟨_, List.mem_map.mpr ⟨d, hd, rfl⟩, hlong⟩ trailer
  unfold imageDictTable
  simp only [if_neg (List.ne_nil_of_mem hd)]
  rcases hp : parseDictionarySection (encodeDictionarySection dicts.section_ ++ trailer)
    with ⟨e' | x, mid⟩
  · rfl
  · rw [hp] at he
    cases he

/-! ### Which drops still decode -/

section

variable {z : Omnizip} {classify : Bytes → Class} {H : Hash}

/-- `d` is a drop of the plaintext `p`, stored without a dictionary. -/
structure PendingDrop.Holds (z : Omnizip) (H : Hash) (d : PendingDrop) (p : Bytes) : Prop where
  id : d.id = H p
  len : d.plaintextLen = p.length
  dict : d.dictId = noDict
  kept : d.plaintext = none ∨ d.plaintext = some p
  decodes : decodeStored z d.codec d.flags d.compressed d.plaintextLen = .ok p

/-- The pass gives `d` a dictionary. -/
def Swapped (z : Omnizip) (classify : Bytes → Class) (dicts : TrainedDicts)
    (drops : List PendingDrop) (d : PendingDrop) : Prop :=
  dictionariesPay z classify dicts drops ∧ (dictCandidate z classify dicts d).isSome = true

/-- The record of `d` under a table decodes to what `d` is called after. -/
def DecodesToId (z : Omnizip) (H : Hash) (table : DictTable) (d : PendingDrop) : Prop :=
  ∃ p, decodeDrop z (d.record 0) d.compressed table = .ok p ∧ H p = d.id

theorem dictCandidate_some {dicts : TrainedDicts} {d : PendingDrop} {c : Bytes} {id : UInt8}
    (h : dictCandidate z classify dicts d = some (c, id)) :
    ∃ plaintext content, d.plaintext = some plaintext ∧
      dicts.forClass (classify plaintext) = some (id, content) ∧
      z.zstdCompressWithDict content plaintext = .ok c := by
  unfold dictCandidate at h
  split at h
  · cases h
  · split at h
    · cases h
    · next plaintext hplain =>
        split at h
        · cases h
        · next id' content hclass =>
            split at h
            · cases h
            · next c' hc =>
                split at h
                · cases h
                  exact ⟨plaintext, content, hplain, hclass, hc⟩
                · cases h

theorem decodesToId_of_holds {d : PendingDrop} {p : Bytes} (hd : d.Holds z H p)
    (table : DictTable) : DecodesToId z H table (releaseSample d) := by
  refine ⟨p, ?_, hd.id.symm⟩
  rw [decodeDrop_plain (show ((releaseSample d).record 0).dictId = noDict from hd.dict) rfl rfl]
  exact hd.decodes

theorem decodesToId_of_swapped (hz : z.Lawful) {dicts : TrainedDicts} (hfits : dicts.Fits)
    {d : PendingDrop} {p : Bytes} (hd : d.Holds z H p) {c : Bytes} {id : UInt8}
    (hcand : dictCandidate z classify dicts d = some (c, id)) (trailer : Bytes) :
    DecodesToId z H (imageDictTable dicts trailer)
        (releaseSample { d with compressed := c, dictId := id })
      ↔ d.flags &&& dropFlagSeekable = 0 ∧ dicts.WithinCap := by
  obtain ⟨plaintext, content, hplain, hclass, hc⟩ := dictCandidate_some hcand
  obtain ⟨hmem, hid, -⟩ := TrainedDicts.forClass_mem hclass
  have hp : plaintext = p := by
    rcases hd.kept with hkept | hkept
    · rw [hkept] at hplain; cases hplain
    · rw [hkept] at hplain; exact (Option.some.inj hplain).symm
  subst hp
  unfold DecodesToId
  generalize hrec : (releaseSample { d with compressed := c, dictId := id }).record 0 = r
  have hflags : r.flags = d.flags := by rw [← hrec]; rfl
  have hdict : r.dictId = id := by rw [← hrec]; rfl
  have hne : r.dictId ≠ noDict := by rw [hdict]; exact hid
  by_cases hseek : d.flags &&& dropFlagSeekable = 0
  · have hdecode := decodeDrop_dict (z := z) c (imageDictTable dicts trailer)
      (by rw [hflags]; exact hseek) hne (by rw [← hrec]; rfl) (by rw [← hrec]; rfl)
    rw [hdict] at hdecode
    by_cases hcap : dicts.WithinCap
    · refine iff_of_true ⟨plaintext, ?_, hd.id.symm⟩ ⟨hseek, hcap⟩
      have hlen : r.plaintextLen = plaintext.length := by rw [← hrec]; exact hd.len
      rw [imageDictTable_withinCap hcap hclass] at hdecode
      refine hdecode.trans ?_
      simp only [decompressWithDict, hlen, hz.zstdDict _ _ _ hc]
    · refine iff_of_false ?_ fun h => hcap h.2
      rintro ⟨q, hq, -⟩
      rw [imageDictTable_tooLong hfits hcap] at hdecode
      cases hdecode.symm.trans hq
  · refine iff_of_false ?_ fun h => hseek h.1
    rintro ⟨q, hq, -⟩
    have hdecode := decodeDrop_seekable_dict (z := z) c (imageDictTable dicts trailer)
      (by rw [hflags]; exact hseek) hne
    cases hdecode.symm.trans hq

/-- A pass that does not pay changes nothing; one that does swaps where it can. -/
theorem applyTrainedDictionaries_decodes_iff (hz : z.Lawful) {dicts : TrainedDicts}
    (hfits : dicts.Fits) {drops : List PendingDrop} (trailer : Bytes) {d : PendingDrop}
    {p : Bytes} (hd : d.Holds z H p) :
    DecodesToId z H
        (imageDictTable (applyTrainedDictionaries z classify dicts drops).2 trailer)
        (releaseSample (if dictionariesPay z classify dicts drops then swapDrop z classify dicts d
          else d))
      ↔ (Swapped z classify dicts drops d →
          d.flags &&& dropFlagSeekable = 0 ∧ dicts.WithinCap) := by
  unfold applyTrainedDictionaries Swapped
  by_cases hpay : dictionariesPay z classify dicts drops
  · simp only [hpay, true_and]
    unfold swapDrop
    rcases hcand : dictCandidate z classify dicts d with _ | ⟨c, id⟩
    · simp only [Option.isSome_none, Bool.false_eq_true, false_imp_iff, iff_true]
      exact decodesToId_of_holds hd _
    · simp only [Option.isSome_some, true_imp_iff]
      exact decodesToId_of_swapped hz hfits hd hcand trailer
  · simp only [hpay, false_and, false_imp_iff, iff_true]
    exact decodesToId_of_holds hd _

/-- The pass, drop by drop. -/
theorem applyTrainedDictionaries_drops (dicts : TrainedDicts) (drops : List PendingDrop) :
    (applyTrainedDictionaries z classify dicts drops).1 = drops.map fun d => releaseSample
      (if dictionariesPay z classify dicts drops then swapDrop z classify dicts d else d) := by
  unfold applyTrainedDictionaries
  split
  · rw [List.map_map]
    rfl
  · rfl

theorem swapDrop_codec (dicts : TrainedDicts) (d : PendingDrop) :
    (swapDrop z classify dicts d).codec = d.codec := by
  unfold swapDrop
  split <;> rfl

theorem localDrops_map {f : PendingDrop → PendingDrop} (h : ∀ d, (f d).codec = d.codec)
    (drops : List PendingDrop) : localDrops (drops.map f) = (localDrops drops).map f := by
  unfold localDrops
  rw [List.filter_map]
  congr 1
  refine List.filter_congr fun d _ => ?_
  show ((f d).codec != codecReferenced) = _
  rw [h d]

theorem not_swapped_of_referenced {dicts : TrainedDicts} {drops : List PendingDrop}
    {d : PendingDrop} (h : d.codec = codecReferenced) : ¬ Swapped z classify dicts drops d := by
  rintro ⟨-, hcand⟩
  unfold dictCandidate at hcand
  rw [if_pos (by rw [h]; decide)] at hcand
  cases hcand

/--
**The dictionary pass keeps every drop readable exactly when no container is given a
dictionary and no dictionary is above the reader's limit.**  Whatever the drops, as
long as each decodes to its plaintext before the pass, and whatever follows the
dictionaries in the manifest: all records of all slabs decode under the image's own
table to a plaintext with their id if and only if every drop that is given a
dictionary is no seekable container and every dictionary is within the limit.
-/
theorem dictionaryPass_readable_iff (hz : z.Lawful) {dicts : TrainedDicts} (hfits : dicts.Fits)
    {drops : List PendingDrop} {slabs : List SlabArtifact} (trailer : Bytes)
    (hdrops : ∀ d ∈ drops, d.codec = codecReferenced ∨ ∃ p, d.Holds z H p)
    (hpack : packSlabs H (applyTrainedDictionaries z classify dicts drops).1 = some slabs) :
    (∀ s ∈ storedDrops (applyTrainedDictionaries z classify dicts drops).1,
      ∃ p, decodeDrop z s.1 s.2
        (imageDictTable (applyTrainedDictionaries z classify dicts drops).2 trailer) = .ok p ∧
        H p = s.1.dropId)
    ↔ ∀ d ∈ drops, Swapped z classify dicts drops d →
        d.flags &&& dropFlagSeekable = 0 ∧ dicts.WithinCap := by
  have hstored := storedDrops_localDrops hpack
  rw [forall_mem_iff_of_forall₂ hstored (Q := DecodesToId z H
    (imageDictTable (applyTrainedDictionaries z classify dicts drops).2 trailer))]
  · rw [applyTrainedDictionaries_drops, localDrops_map]
    · rw [List.forall_mem_map]
      have hlocal : ∀ d ∈ localDrops drops, ∃ p, d.Holds z H p := by
        intro d hd
        obtain ⟨hmem, hcodec⟩ := List.mem_filter.mp hd
        rcases hdrops d hmem with href | hholds
        · rw [href] at hcodec
          exact absurd hcodec (by decide)
        · exact hholds
      constructor
      · intro hall d hd hswap
        by_cases href : d.codec = codecReferenced
        · exact absurd hswap (not_swapped_of_referenced href)
        · have hd : d ∈ localDrops drops := List.mem_filter.mpr ⟨hd, by simpa using href⟩
          obtain ⟨p, hp⟩ := hlocal d hd
          exact (applyTrainedDictionaries_decodes_iff hz hfits trailer hp).mp (hall d hd) hswap
      · intro hall d hd
        obtain ⟨p, hp⟩ := hlocal d hd
        exact (applyTrainedDictionaries_decodes_iff hz hfits trailer hp).mpr
          (hall d (List.mem_filter.mp hd).1)
    · intro d
      show (if _ then swapDrop z classify dicts d else d).codec = d.codec
      split
      · exact swapDrop_codec dicts d
      · rfl
  · rintro ⟨r, w⟩ d ⟨hr, rfl⟩
    -- where a record lies does not change how it decodes
    have hdecode : ∀ table, decodeDrop z r d.compressed table
        = decodeDrop z (d.record 0) d.compressed table := by
      intro table
      rw [show r = d.record r.offsetInWindow from hr]
      rfl
    have hid : r.dropId = d.id := by
      rw [show r = d.record r.offsetInWindow from hr]
      rfl
    simp only [hdecode, hid]
    rfl

end

namespace Stored

/-- A text of four bytes, as a plain stream or as a container. -/
def zstdDrop (seekable : Bool) : PendingDrop where
  id := digest (ascii "abcd")
  plaintextLen := 4
  compressed :=
    if seekable then ((encodeSeekable omnizip codecZstd (ascii "abcd") tunables).toOption).getD []
    else ascii "abcd"
  codec := codecZstd
  dictId := noDict
  plaintext := some (ascii "abcd")
  flags := if seekable then dropFlagSeekable else 0

def textDict : TrainedDicts := ⟨some (ascii "abc"), none⟩

theorem zstdDrop_holds (seekable : Bool) :
    (zstdDrop seekable).Holds omnizip digest (ascii "abcd") := by
  refine ⟨rfl, rfl, rfl, .inr rfl, ?_⟩
  cases seekable <;> decide +kernel

theorem textDict_fits : textDict.Fits := by
  intro d hd
  cases List.mem_singleton.mp hd
  decide

end Stored

open LimniFS.Stored

/-- A container that a dictionary shortens is written so that no reader takes it. -/
theorem container_with_dictionary_unreadable :
    (zstdDrop true).Holds omnizip digest (ascii "abcd") ∧
    ∃ s ∈ storedDrops (applyTrainedDictionaries omnizip (fun _ => .text) textDict
        [zstdDrop true]).1,
      decodeDrop omnizip s.1 s.2 (imageDictTable (applyTrainedDictionaries omnizip
          (fun _ => .text) textDict [zstdDrop true]).2 [])
        = .error (.unsupportedFeature "seekable drop with trained dictionary (not combinable)") := by
  refine ⟨zstdDrop_holds true, ?_⟩
  decide +kernel

/-- A plain stream next to a container, under no dictionary that pays. -/
theorem dictionaryPass_readable_iff_plain :
    ∃ slabs, packSlabs digest (applyTrainedDictionaries omnizip (fun _ => .binary)
        textDict [zstdDrop false, zstdDrop true]).1 = some slabs ∧
      ((∀ s ∈ storedDrops (applyTrainedDictionaries omnizip (fun _ => .binary)
          textDict [zstdDrop false, zstdDrop true]).1,
        ∃ p, decodeDrop omnizip s.1 s.2 (imageDictTable (applyTrainedDictionaries
            omnizip (fun _ => .binary) textDict
            [zstdDrop false, zstdDrop true]).2 []) = .ok p ∧
          digest p = s.1.dropId)
      ↔ ∀ d ∈ [zstdDrop false, zstdDrop true],
          Swapped omnizip (fun _ => .binary) textDict
            [zstdDrop false, zstdDrop true] d →
          d.flags &&& dropFlagSeekable = 0 ∧ textDict.WithinCap) := by
  have hdrops : ∀ d ∈ [zstdDrop false, zstdDrop true],
      d.codec = codecReferenced ∨ ∃ p, d.Holds omnizip digest p := by
    intro d hd
    simp only [List.mem_cons, List.not_mem_nil, or_false] at hd
    rcases hd with rfl | rfl
    · exact .inr ⟨_, zstdDrop_holds false⟩
    · exact .inr ⟨_, zstdDrop_holds true⟩
  obtain ⟨slabs, hslabs⟩ := Option.isSome_iff_exists.mp (show (packSlabs digest
    (applyTrainedDictionaries omnizip (fun _ => .binary) textDict
      [zstdDrop false, zstdDrop true]).1).isSome = true by decide +kernel)
  exact ⟨slabs, hslabs,
    dictionaryPass_readable_iff omnizip_lawful textDict_fits [] hdrops hslabs⟩

end LimniFS
