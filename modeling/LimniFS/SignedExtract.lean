/-
What a signature says about extracted files.

The signed root commits to the manifest and through it to the hash of the metadata; the
metadata names drops by hash.  Extraction follows this chain but compares nothing: the
metadata it loads is not hashed, nor is a drop it decodes.  So the files of a signed
image are what was signed exactly when the files next to the manifest are honest by
themselves (`signed_extract_integrity_iff`); what the chain does give is that two honest
directories under one signature have the same files.
-/
import LimniFS.Extract
import LimniFS.CompactedImage

namespace LimniFS

open Lib Lib.Parser

/-! ### The bytes of an extracted file -/

/-- The inline content of a file. -/
def Inode.inlineBytes (inode : Inode) : Bytes :=
  match inode.contentHandle with
  | .inlineData data => data
  | _ => []

/-- What the source holds under the drop id of the slice, if it decodes. -/
def decodedDrop (store : Option SlabSource) (slice : SliceRef) : Option Bytes :=
  match store.bind fun source => source slice.dropId with
  | some (.ok plaintext) => some plaintext
  | _ => none

def Decodes (store : Option SlabSource) (slice : SliceRef) (plaintext : Bytes) : Prop :=
  decodedDrop store slice = some plaintext

/-- The slices of a file, each cut out of its drop, one after another. -/
def sliceBytes (slices : List SliceRef) (plaintexts : List Bytes) : Bytes :=
  (List.zipWith SliceRef.window slices plaintexts).flatten

section

variable {H : Hash} {z : Omnizip} {ed : Ed25519} {io : Destination} {sched : Schedule}

theorem decodes_of_map {source : SlabSource} :
    ∀ (slices : List SliceRef) (written : List Bytes),
      slices.map (decodeSlice source) = written.map .ok →
      ∃ plaintexts, List.Forall₂ (Decodes (some source)) slices plaintexts ∧
        written.flatten = sliceBytes slices plaintexts := by
  intro slices
  induction slices with
  | nil =>
      intro written h
      rw [List.map_eq_nil_iff.mp h.symm]
      exact ⟨[], .nil, rfl⟩
  | cons slice rest ih =>
      intro written h
      rcases written with _ | ⟨chunk, written⟩
      · cases h
      · rw [List.map_cons, List.map_cons, List.cons.injEq] at h
        obtain ⟨plaintext, hdrop, rfl⟩ := decodeSlice_ok h.1
        obtain ⟨plaintexts, hall, hbytes⟩ := ih written h.2
        have hdec : Decodes (some source) slice plaintext := by
          unfold Decodes decodedDrop
          rw [Option.bind_some, hdrop]
        refine ⟨plaintext :: plaintexts, .cons hdec hall, ?_⟩
        rw [List.flatten_cons, hbytes]
        rfl

theorem decodes_of_fileChunks {inode : Inode} {store : Option SlabSource} {written : List Bytes}
    (h : fileChunks inode store = written.map .ok) :
    ∃ plaintexts, List.Forall₂ (Decodes store) inode.slices plaintexts ∧
      written.flatten = inode.inlineBytes ++ sliceBytes inode.slices plaintexts := by
  unfold fileChunks at h
  unfold Inode.slices Inode.inlineBytes
  split at h
  · next data hdata =>
      rcases written with _ | ⟨chunk, _ | ⟨_, _⟩⟩ <;> cases h
      exact ⟨[], by rw [hdata]; exact .nil, by rw [hdata]; rfl⟩
  · next map hmap =>
      rw [hmap]
      simp only
      split at h
      · next hslices =>
          rw [List.map_eq_nil_iff.mp h.symm, hslices]
          exact ⟨[], .nil, rfl⟩
      · rcases written with _ | ⟨chunk, _ | ⟨_, _⟩⟩ <;> cases h
      · obtain ⟨plaintexts, hall, hbytes⟩ := decodes_of_map _ _ h
        exact ⟨plaintexts, hall, hbytes⟩
  · next hinline hmap =>
      rw [List.map_eq_nil_iff.mp h.symm]
      refine ⟨[], ?_, ?_⟩
      · split
        · next map hm => exact absurd hm (hmap map)
        · exact .nil
      · split
        · next data hd => exact absurd hd (hinline data)
        · simp [sliceBytes]

/-- **An extracted file is its inline bytes, or its slices cut out of the drops they name.** -/
theorem extractFile_decodes {store : Option SlabSource} {path : Path} {inode : Inode}
    {written : List Bytes} (h : extractFile io store path inode = .ok written) :
    ∃ plaintexts, List.Forall₂ (Decodes store) inode.slices plaintexts ∧
      written.flatten = inode.inlineBytes ++ sliceBytes inode.slices plaintexts := by
  by_cases hfile : inode.isRegular = true ∨ 0 < inode.fileLen
  · exact decodes_of_fileChunks (extractFile_ok h hfile)
  · -- nothing was created, and there was nothing to write
    have hempty : inode.fileLen = 0 := by
      push Not at hfile
      exact Nat.le_zero.mp hfile.2
    unfold extractFile at h
    rw [if_neg hfile] at h
    cases h
    have hslices : inode.slices = [] := by
      unfold Inode.slices
      split
      · next map hmap =>
          by_contra hne
          have := fileLen_pos hmap hne
          omega
      · rfl
    have hinline : inode.inlineBytes = [] := by
      unfold Inode.inlineBytes
      split
      · next data hdata =>
          unfold Inode.fileLen at hempty
          rw [hdata] at hempty
          exact List.length_eq_zero_iff.mp hempty
      · rfl
    rw [hslices, hinline]
    exact ⟨[], .nil, rfl⟩

/-! ### From the signature to the files -/

/-- The root a signature sidecar carries. -/
def signedRoot (key : VerifyKey) : Option Digest :=
  key.limsig.bind fun sig =>
    match SignatureBundle.fromLimsig sig with
    | .ok bundle => some bundle.manifestRoot
    | .error _ => none

/-- What was written for a task is all of the file, every slice of it from a drop whose plaintext
hashes to the id in the metadata. -/
def WrittenFrom (H : Hash) (store : Option SlabSource) (task : Path × Inode)
    (file : Path × Except CliError (List Bytes)) : Prop :=
  file.1 = task.1 ∧ ∃ written plaintexts, file.2 = .ok written ∧
    List.Forall₂ (fun slice p => Decodes store slice p ∧ H p = slice.dropId) task.2.slices
      plaintexts ∧
    written.flatten = task.2.inlineBytes ++ sliceBytes task.2.slices plaintexts

/-- The metadata hashes to what the signed root commits to, and the files are what the metadata
says. -/
structure SignedIntegrity (H : Hash) (z : Omnizip) (key : VerifyKey) (image : ImageFile)
    (plan : ExtractPlan) (tree : StagedTree) : Prop where
  metadata : ∃ s rest bytes blobRest, parseSections z image.manifest = (.ok s, rest) ∧
    signedRoot key = some (s.root H) ∧
    metadataBytes z image.dir s.metadataReference = .ok bytes ∧
    parseMetadataBlob bytes = (.ok plan.blob, blobRest) ∧
    hashSection H bytes = s.metadataReference.metadataHash
  files : List.Forall₂ (WrittenFrom H plan.store) plan.sink.tasks tree.files

/-- The files next to the manifest hold what their names say: the metadata has the hash of the
manifest's reference, and a drop of a live file has its id for a hash. -/
structure HonestFiles (H : Hash) (z : Omnizip) (image : ImageFile) (plan : ExtractPlan) : Prop where
  metadata : ∀ front rest bytes, parseManifestFront z image.manifest = (.ok front, rest) →
    metadataBytes z image.dir front.metadataReference = .ok bytes →
    hashSection H bytes = front.metadataReference.metadataHash
  drops : ∀ task ∈ plan.sink.tasks, ∀ slice ∈ task.2.slices, ∀ p, Decodes plan.store slice p →
    H p = slice.dropId

theorem parseManifestFront_of_sections {bs rest : Bytes} {s : Sections}
    (h : parseSections z bs = (.ok s, rest)) :
    ∃ rest', parseManifestFront z bs = (.ok ⟨s.headerBytes, s.flagsBytes, s.metadataReference,
      s.metadataReferenceBytes⟩, rest') := by
  simp only [parseSections, bind_eq_ok, pure_eq_ok] at h
  obtain ⟨hd, r₁, hhd, fl, r₂, hfl, mr, r₃, hmr, _, _, _, _, _, _, _, _, _, _, _, _, rfl, -⟩ := h
  refine ⟨r₃, ?_⟩
  simp only [parseManifestFront, bind_eq_ok, pure_eq_ok]
  exact ⟨hd, r₁, hhd, fl, r₂, hfl, mr, r₃, hmr, rfl, rfl⟩

theorem sections_of_checkSignature {image : ImageFile} {key : VerifyKey}
    (h : checkSignature H z ed (some image.manifest) key.limsig key.pem = .ok ()) :
    ∃ s rest, parseSections z image.manifest = (.ok s, rest) ∧ signedRoot key = some (s.root H) ∧
      hashedStrings H z image.manifest = s.hashed H := by
  obtain ⟨sig, bundle, view, hsig, hbundle, hview, hroot, -⟩ := checkSignature_ok h
  obtain ⟨s, rest, hs, hview', hstrings, trailer, himage⟩ := readManifest_ok hview
  refine ⟨s, trailer, ?_, ?_, hstrings⟩
  · rw [himage]
    exact parseSections_append hs trailer
  · unfold signedRoot
    rw [hsig, Option.bind_some, hbundle]
    exact congrArg some (hroot.trans hview')

theorem Decodes.unique {store : Option SlabSource} {slice : SliceRef} {p q : Bytes}
    (hp : Decodes store slice p) (hq : Decodes store slice q) : p = q :=
  Option.some.inj (hp.symm.trans hq)

theorem written_of_honest {image : ImageFile} {plan : ExtractPlan}
    (honest : HonestFiles H z image plan)
    (hok : ∀ task ∈ plan.sink.tasks, (extractFile io plan.store task.1 task.2).isOk = true) :
    List.Forall₂ (WrittenFrom H plan.store) plan.sink.tasks (plan.staged io sched).files := by
  rw [staged_files, List.forall₂_map_right_iff, List.forall₂_same]
  intro task htask
  obtain ⟨written, hwritten⟩ := exists_eq_ok (hok task htask)
  obtain ⟨plaintexts, hall, hbytes⟩ := extractFile_decodes hwritten
  refine ⟨rfl, written, plaintexts, hwritten, ?_, hbytes⟩
  refine ((List.forall₂_and_left _ _).mpr ⟨fun slice hslice => hslice, hall⟩).imp ?_
  rintro slice p ⟨hslice, hdec⟩
  exact ⟨hdec, honest.drops task htask slice hslice p hdec⟩

theorem honest_of_integrity {key : VerifyKey} {image : ImageFile} {plan : ExtractPlan}
    (h : SignedIntegrity H z key image plan (plan.staged io sched)) :
    HonestFiles H z image plan ∧
      ∀ task ∈ plan.sink.tasks, (extractFile io plan.store task.1 task.2).isOk = true := by
  have hfiles := h.files
  rw [staged_files, List.forall₂_map_right_iff, List.forall₂_same] at hfiles
  refine ⟨⟨?_, ?_⟩, ?_⟩
  · intro front rest bytes hfront hbytes
    obtain ⟨s, rest', bytes', blobRest, hs, -, hbytes', -, hhash⟩ := h.metadata
    obtain ⟨rest'', hfront'⟩ := parseManifestFront_of_sections hs
    rw [hfront] at hfront'
    obtain ⟨hf, -⟩ := Prod.mk.inj hfront'
    cases hf
    simp only at hbytes
    rw [hbytes'] at hbytes
    cases hbytes
    exact hhash
  · intro task htask slice hslice p hp
    obtain ⟨-, written, plaintexts, -, hall, -⟩ := hfiles task htask
    have hslices := forall_mem_of_forall₂ (P := fun slice => ∃ q, Decodes plan.store slice q ∧
      H q = slice.dropId) (Q := fun _ => True) hall (fun _ _ => trivial)
      (fun slice q hq _ => ⟨q, hq⟩)
    obtain ⟨q, hq, hhash⟩ := hslices slice hslice
    rw [hp.unique hq]
    exact hhash
  · intro task htask
    obtain ⟨-, written, _, hwritten, -⟩ := hfiles task htask
    rw [show extractFile io plan.store task.1 task.2 = .ok written from hwritten]
    rfl

/-- The metadata half, for an extraction that checked the signature. -/
theorem metadata_of_honest {key : VerifyKey} {image : ImageFile} {bases : List ImageFile}
    {plan : ExtractPlan}
    (hcheck : checkSignature H z ed (some image.manifest) key.limsig key.pem = .ok ())
    (hplan : planExtract H z io image bases = .ok plan) (honest : HonestFiles H z image plan) :
    ∃ s rest bytes blobRest, parseSections z image.manifest = (.ok s, rest) ∧
      signedRoot key = some (s.root H) ∧
      metadataBytes z image.dir s.metadataReference = .ok bytes ∧
      parseMetadataBlob bytes = (.ok plan.blob, blobRest) ∧
      hashSection H bytes = s.metadataReference.metadataHash := by
  obtain ⟨s, rest, hs, hroot, -⟩ := sections_of_checkSignature hcheck
  obtain ⟨loaded, stores, hload, -, -, -, hblob, -⟩ := planExtract_eq_ok hplan
  obtain ⟨front, rest', bytes, blobRest, -, hfront, hbytes, hparse, -⟩ := loadImage_eq_ok.mp hload
  have hhash := honest.metadata front rest' bytes hfront hbytes
  obtain ⟨rest'', hfront'⟩ := parseManifestFront_of_sections hs
  rw [hfront] at hfront'
  obtain ⟨hf, -⟩ := Prod.mk.inj hfront'
  cases hf
  exact ⟨s, rest, bytes, blobRest, hs, hroot, hbytes, by rw [hblob]; exact hparse, hhash⟩

/-! ### Two directories under one signature -/

/-- The metadata an image is loaded from. -/
def loadedMetadata (z : Omnizip) (image : ImageFile) : Option Bytes :=
  match parseManifestFront z image.manifest with
  | (.ok front, _) => (metadataBytes z image.dir front.metadataReference).toOption
  | (.error _, _) => none

/-- Every string whose hash stands between the root and the files. -/
def chainStrings (H : Hash) (z : Omnizip) (image : ImageFile) (plan : ExtractPlan) : List Bytes :=
  hashedStrings H z image.manifest ++ ((loadedMetadata z image).toList
    ++ plan.sink.tasks.flatMap fun task => task.2.slices.filterMap (decodedDrop plan.store))

/-- Paths and bytes of what was extracted. -/
def StagedTree.contents (tree : StagedTree) : List (Path × Except CliError Bytes) :=
  tree.files.map fun file => (file.1, file.2.map List.flatten)

theorem mem_chainStrings_metadata {image : ImageFile} {plan : ExtractPlan} {front : ManifestFront}
    {rest bytes : Bytes} (hfront : parseManifestFront z image.manifest = (.ok front, rest))
    (hbytes : metadataBytes z image.dir front.metadataReference = .ok bytes) :
    bytes ∈ chainStrings H z image plan := by
  unfold chainStrings loadedMetadata
  rw [hfront]
  simp only [hbytes]
  exact List.mem_append_right _ (List.mem_append_left _ (List.mem_singleton.mpr rfl))

theorem mem_chainStrings_drop {image : ImageFile} {plan : ExtractPlan} {task : Path × Inode}
    (htask : task ∈ plan.sink.tasks) {slice : SliceRef} (hslice : slice ∈ task.2.slices)
    {plaintext : Bytes} (hdec : Decodes plan.store slice plaintext) :
    plaintext ∈ chainStrings H z image plan :=
  List.mem_append_right _ (List.mem_append_right _ (List.mem_flatMap.mpr
    ⟨task, htask, List.mem_filterMap.mpr ⟨slice, hslice, hdec⟩⟩))

/-- One signed root is one tree of tasks. -/
theorem sink_eq_of_signedRoot {key : VerifyKey} {image image' : ImageFile}
    {bases bases' : List ImageFile} {plan plan' : ExtractPlan} {tree tree' : StagedTree}
    (hplan : planExtract H z io image bases = .ok plan)
    (hplan' : planExtract H z io image' bases' = .ok plan')
    (hcheck : checkSignature H z ed (some image.manifest) key.limsig key.pem = .ok ())
    (hcheck' : checkSignature H z ed (some image'.manifest) key.limsig key.pem = .ok ())
    (hint : SignedIntegrity H z key image plan tree)
    (hint' : SignedIntegrity H z key image' plan' tree')
    (hcol : NoCollision H (chainStrings H z image plan ++ chainStrings H z image' plan')) :
    plan.sink = plan'.sink := by
  obtain ⟨s, rest, bytes, blobRest, hs, hroot, hbytes, hparse, hhash⟩ := hint.metadata
  obtain ⟨s', rest', bytes', blobRest', hs', hroot', hbytes', hparse', hhash'⟩ := hint'.metadata
  obtain ⟨t, _, ht, -, hstrings⟩ := sections_of_checkSignature hcheck
  obtain ⟨t', _, ht', -, hstrings'⟩ := sections_of_checkSignature hcheck'
  rw [hs] at ht
  rw [hs'] at ht'
  cases ht
  cases ht'
  have hsections : s = s' := by
    have hsub : NoCollision H (s.hashed H ++ s'.hashed H) := by
      intro a ha b hb
      refine hcol a ?_ b ?_
      · exact List.mem_append.mpr ((List.mem_append.mp ha).imp
          (fun h => List.mem_append_left _ (hstrings ▸ h))
          (fun h => List.mem_append_left _ (hstrings' ▸ h)))
      · exact List.mem_append.mpr ((List.mem_append.mp hb).imp
          (fun h => List.mem_append_left _ (hstrings ▸ h))
          (fun h => List.mem_append_left _ (hstrings' ▸ h)))
    rw [hroot] at hroot'
    have heq := sections_eq_of_root_eq hsub (Option.some.inj hroot')
    have hread := parseSections_append hs []
    rw [heq, parseSections_append hs' []] at hread
    obtain ⟨hok, -⟩ := Prod.mk.inj hread
    exact (Except.ok.inj hok).symm
  subst hsections
  obtain ⟨_, hfront⟩ := parseManifestFront_of_sections hs
  obtain ⟨_, hfront'⟩ := parseManifestFront_of_sections hs'
  have hsame : bytes = bytes' :=
    hcol _ (List.mem_append_left _ (mem_chainStrings_metadata hfront hbytes)) _
      (List.mem_append_right _ (mem_chainStrings_metadata hfront' hbytes'))
      (hhash.trans hhash'.symm)
  subst hsame
  rw [hparse] at hparse'
  obtain ⟨hblob, -⟩ := Prod.mk.inj hparse'
  -- one blob has one root, and so one walk
  obtain ⟨loaded, _, hload, -, hwalk, -, hloaded, -⟩ := planExtract_eq_ok hplan
  obtain ⟨loaded', _, hload', -, hwalk', -, hloaded', -⟩ := planExtract_eq_ok hplan'
  obtain ⟨_, _, _, _, _, -, -, -, -, hrootInode, -⟩ := loadImage_eq_ok.mp hload
  obtain ⟨_, _, _, _, _, -, -, -, -, hrootInode', -⟩ := loadImage_eq_ok.mp hload'
  have hblobs : loaded.blob = loaded'.blob := by
    rw [← hloaded, ← hloaded']
    exact Except.ok.inj hblob
  rw [hblobs, hrootInode'] at hrootInode
  rw [hblobs, ← Option.some.inj hrootInode, hwalk'] at hwalk
  exact (Except.ok.inj hwalk).symm

/-- **Two extractions under one signature that both have integrity give the same files.** -/
theorem contents_eq_of_integrity {key : VerifyKey} {image image' : ImageFile}
    {bases bases' : List ImageFile} {plan plan' : ExtractPlan}
    (hplan : planExtract H z io image bases = .ok plan)
    (hplan' : planExtract H z io image' bases' = .ok plan')
    (hcheck : checkSignature H z ed (some image.manifest) key.limsig key.pem = .ok ())
    (hcheck' : checkSignature H z ed (some image'.manifest) key.limsig key.pem = .ok ())
    (hint : SignedIntegrity H z key image plan (plan.staged io sched))
    (hint' : SignedIntegrity H z key image' plan' (plan'.staged io sched))
    (hcol : NoCollision H (chainStrings H z image plan ++ chainStrings H z image' plan')) :
    (plan'.staged io sched).contents = (plan.staged io sched).contents := by
  have hsink := sink_eq_of_signedRoot hplan hplan' hcheck hcheck' hint hint' hcol
  have hfiles := hint.files
  have hfiles' := hint'.files
  rw [staged_files, List.forall₂_map_right_iff, List.forall₂_same] at hfiles hfiles'
  unfold StagedTree.contents
  rw [staged_files, staged_files, List.map_map, List.map_map, ← hsink]
  refine List.map_congr_left fun task htask => ?_
  have htask' : task ∈ plan'.sink.tasks := hsink ▸ htask
  obtain ⟨-, written, plaintexts, hok, hall, hbytes⟩ := hfiles task htask
  obtain ⟨-, written', plaintexts', hok', hall', hbytes'⟩ := hfiles' task htask'
  have hsame : plaintexts = plaintexts' := by
    refine eq_of_forall₂ hall hall' ?_
    rintro slice hslice p q ⟨hp, hhash⟩ ⟨hq, hhash'⟩
    exact hcol p (List.mem_append_left _ (mem_chainStrings_drop htask hslice hp)) q
      (List.mem_append_right _ (mem_chainStrings_drop htask' hslice hq))
      (hhash.trans hhash'.symm)
  simp only [Function.comp] at hok hok' ⊢
  rw [hok, hok']
  show (task.1, Except.ok written'.flatten) = (task.1, Except.ok written.flatten)
  rw [hbytes, hbytes', hsame]

/--
**When a signed image extracts to what was signed.**  After a check of the signature and an
extraction that both succeeded, the files have integrity exactly when the files next to the
manifest are honest and no task failed; and of two such directories under one signature the
files are the same.
-/
theorem signed_extract_integrity_iff {key : VerifyKey} {image : ImageFile}
    {bases : List ImageFile} {plan : ExtractPlan} {tree : StagedTree}
    (hplan : planExtract H z io image bases = .ok plan)
    (h : extract H z ed io sched image bases (some key) = .ok tree) :
    (SignedIntegrity H z key image plan tree ↔ HonestFiles H z image plan ∧
      ∀ task ∈ plan.sink.tasks, (extractFile io plan.store task.1 task.2).isOk = true) ∧
    ∀ image' bases' plan' tree', planExtract H z io image' bases' = .ok plan' →
      extract H z ed io sched image' bases' (some key) = .ok tree' →
      SignedIntegrity H z key image plan tree → SignedIntegrity H z key image' plan' tree' →
      NoCollision H (chainStrings H z image plan ++ chainStrings H z image' plan') →
      tree'.contents = tree.contents := by
  obtain ⟨hcheck, plan₀, hplan₀, rfl, -⟩ := extract_eq_ok.mp h
  rw [hplan] at hplan₀
  cases hplan₀
  refine ⟨⟨honest_of_integrity, ?_⟩, ?_⟩
  · rintro ⟨honest, hok⟩
    exact ⟨metadata_of_honest hcheck hplan honest, written_of_honest honest hok⟩
  · intro image' bases' plan' tree' hplan' h' hint hint' hcol
    obtain ⟨hcheck', plan₀, hplan₀, rfl, -⟩ := extract_eq_ok.mp h'
    rw [hplan'] at hplan₀
    cases hplan₀
    exact contents_eq_of_integrity hplan hplan' hcheck hcheck' hint hint' hcol

end

namespace Stored

/-- Accepts one signature for each key and message. -/
def ed25519 : Ed25519 where
  parseKey _ := .ok ()
  verify key msg sig :=
    if sig.val = (foldDigest (key.val ++ msg)).val ++ (foldDigest (msg ++ key.val)).val then .ok ()
    else .error "signature error"

def publicKeyPem : List Char :=
  ("-----BEGIN PUBLIC KEY-----\nMCowBQYDK2VwAyEAAAAAAAAAAAAAAAAAAAAAAAAAAAAAAAAAAAAAAAAAAAA=\n"
    ++ "-----END PUBLIC KEY-----\n").toList

def sign (root : Digest) : SignatureBundle where
  manifestRoot := root
  signature := ⟨(foldDigest (zeroDigest.val ++ root.val)).val
    ++ (foldDigest (root.val ++ zeroDigest.val)).val, by
      rw [List.length_append, (foldDigest _).2, (foldDigest _).2]⟩
  publicKey := zeroDigest
  mode := .keypair

def verifyKey (a : WriteArtifact) : VerifyKey :=
  ⟨some (sign a.merkleRoot).toLimsig, some publicKeyPem⟩

/-- The image of one file, with the files in `dir` next to it. -/
def signedImage (dir : Directory) : ImageFile := ⟨(thresholdImage 4096).bytes, dir⟩

/-- The image's slab with its last byte changed. -/
def tamperedFiles : Directory := fun name =>
  (filesOf (thresholdImage 4096) name).map fun bytes => bytes.dropLast ++ [5]

def planOf (dir : Directory) : Except CliError ExtractPlan :=
  planExtract foldDigest omnizip .sound (signedImage dir) []

def extractSigned (dir : Directory) : Except CliError StagedTree :=
  extract foldDigest omnizip ed25519 .sound .sequential (signedImage dir) []
    (some (verifyKey (thresholdImage 4096)))

/-- Is there a drop in the plan that does not hash to its id? -/
def ExtractPlan.hasForgedDrop (plan : ExtractPlan) : Bool :=
  plan.sink.tasks.any fun task => task.2.slices.any fun slice =>
    (decodedDrop plan.store slice).any fun p => foldDigest p != slice.dropId

end Stored

open LimniFS.Stored

/-- A slab changed after signing: the check and the extraction succeed, with other bytes. -/
theorem tampered_slab_extracts :
    ∃ plan tree original, planOf tamperedFiles = .ok plan ∧
      extractSigned tamperedFiles = .ok tree ∧
      extractSigned (filesOf (thresholdImage 4096)) = .ok original ∧
      ¬ SignedIntegrity foldDigest omnizip
        (verifyKey (thresholdImage 4096)) (signedImage tamperedFiles)
        plan tree ∧
      tree.contents ≠ original.contents := by
  obtain ⟨plan, -, hplan, -, hforged⟩ := exists_both_ok (x := planOf tamperedFiles)
    (y := pure ()) (P := fun plan _ => Stored.ExtractPlan.hasForgedDrop plan) (by decide +kernel)
  obtain ⟨tree, original, htree, horiginal, hbytes⟩ := exists_both_ok
    (x := extractSigned tamperedFiles)
    (y := extractSigned (filesOf (thresholdImage 4096)))
    (P := fun tree original => tree.contents != original.contents) (by decide +kernel)
  refine ⟨plan, tree, original, hplan, htree, horiginal, fun hint => ?_, ?_⟩
  · obtain ⟨task, htask, hslices⟩ := List.any_eq_true.mp hforged
    obtain ⟨slice, hslice, hdrop⟩ := List.any_eq_true.mp hslices
    obtain ⟨p, hp, hne⟩ := (Option.any_eq_true _ _).mp hdrop
    obtain ⟨-, plan₀, hplan₀, rfl, -⟩ := extract_eq_ok.mp htree
    rw [show planExtract _ _ _ _ _ = .ok plan from hplan] at hplan₀
    cases hplan₀
    exact bne_iff_ne.mp hne ((honest_of_integrity hint).1.drops task htask slice hslice p hp)
  · exact bne_iff_ne.mp hbytes

/-- The image as it was signed. -/
theorem signed_extract_integrity_iff_untouched :
    ∃ plan tree, planOf (filesOf (thresholdImage 4096)) = .ok plan ∧
      extractSigned (filesOf (thresholdImage 4096)) = .ok tree ∧
      (SignedIntegrity foldDigest omnizip
          (verifyKey (thresholdImage 4096))
          (signedImage (filesOf (thresholdImage 4096))) plan tree ↔
        HonestFiles foldDigest omnizip
          (signedImage (filesOf (thresholdImage 4096))) plan ∧
        ∀ task ∈ plan.sink.tasks,
          (extractFile .sound plan.store task.1 task.2).isOk = true) := by
  obtain ⟨plan, hplan⟩ := exists_eq_ok
    (x := planOf (filesOf (thresholdImage 4096))) (by decide +kernel)
  obtain ⟨tree, htree⟩ := exists_eq_ok
    (x := extractSigned (filesOf (thresholdImage 4096))) (by decide +kernel)
  exact ⟨plan, tree, hplan, htree, (signed_extract_integrity_iff hplan htree).1⟩

end LimniFS
