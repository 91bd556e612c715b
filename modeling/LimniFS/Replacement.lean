/-
Putting a new image over an old one.

The library stages every file of the new image, moves the sidecar and the slabs into
place and moves the manifest last.  The commands write the manifest first and the files
it names after it.  Names are made from contents, so neither ever changes a file that is
there; but a manifest that comes first names files that are not there yet.

An image is the manifest and the files it was built with.  `crash_safe_iff` looks at every
point at which a replacement can stop, and says for each procedure when the image on disk
is the old one or the new one there.
-/
import LimniFS.RebuildCommands
import LimniFS.RwImage

namespace LimniFS

open Lib Lib.Parser

/-! ### Images as they were built -/

/-- A manifest and, under their names, the slabs and the sidecar that belong to it. -/
structure BuiltImage where
  manifest : Bytes
  files : List (Bytes × Bytes)

/-- The files next to the manifest when nothing else is there. -/
def BuiltImage.dir (i : BuiltImage) : Directory := fun name => i.files.lookup name

/-- One name stands for one content. -/
def OneContent (files : List (Bytes × Bytes)) : Prop :=
  ∀ f ∈ files, ∀ g ∈ files, f.1 = g.1 → f.2 = g.2

section
variable (z : Omnizip)

/-- The name a reader opens for a list of locators. -/
def firstName (locators : List LocatorEntry) : Option Bytes :=
  locators.head?.bind fun l => (localSidecarName l.uri).toOption

/-- The files a reader opens next to a manifest. -/
def namedFiles (manifest : Bytes) : List Bytes :=
  match parseManifestFront z manifest with
  | (.error _, _) => []
  | (.ok front, rest) =>
    (if front.metadataReference.inlineMetadata.isSome then []
      else (firstName front.metadataReference.locators).toList)
    ++ match parseSlabIndex rest with
      | (.error _, _) => []
      | (.ok index, _) => index.entries.filterMap fun e => firstName e.locators

/-- Every file a reader opens is one the image was built with. -/
def BuiltImage.Complete (i : BuiltImage) : Prop :=
  ∀ name ∈ namedFiles z i.manifest, ∃ f ∈ i.files, f.1 = name

/-- The image that is opened is `i`: its manifest, its files with their contents, its tree and
the bytes of every file in it. -/
structure BuiltImage.Shown (i : BuiltImage) (disk : ImageDisk) : Prop where
  manifest : disk.manifest = some i.manifest
  files : ∀ f ∈ i.files, disk.files f.1 = some f.2
  tree : loadImage z ⟨i.manifest, disk.files⟩ = loadImage z ⟨i.manifest, i.dir⟩
  contents : ∀ bases number, readInode z ⟨i.manifest, disk.files⟩ bases number =
    readInode z ⟨i.manifest, i.dir⟩ bases number

end

namespace WriteArtifact

def slabFiles (a : WriteArtifact) : List (Bytes × Bytes) := a.slabs.map fun s => (s.locator, s.bytes)

def sidecarFiles (a : WriteArtifact) : List (Bytes × Bytes) :=
  a.metadataSidecar.toList.map fun m => (m.locator, m.bytes)

/-- A locator resolved to its file. -/
def namedFile (f : Bytes × Bytes) : Option (Bytes × Bytes) :=
  (localSidecarName f.1).toOption.map fun name => (name, f.2)

def built (a : WriteArtifact) : BuiltImage :=
  ⟨a.bytes, (a.slabFiles ++ a.sidecarFiles).filterMap namedFile⟩

end WriteArtifact

/-! ### Steps on the file system -/

/-- The image file, or a file next to it; the image's own name is none of theirs. -/
inductive Place where
  | manifest
  | file (name : Bytes)

def ImageDisk.get (disk : ImageDisk) : Place → Option Bytes
  | .manifest => disk.manifest
  | .file name => disk.files name

def ImageDisk.put (disk : ImageDisk) (content : Option Bytes) : Place → ImageDisk
  | .manifest => { disk with manifest := content }
  | .file name => { disk with files := fun n => if n = name then content else disk.files n }

def ImageDisk.empty : ImageDisk := ⟨none, fun _ => none⟩

/-- The image, the staging directory next to it, and the log. -/
structure SwapDisk where
  image : ImageDisk
  staging : ImageDisk
  log : Option Bytes

/-- A step is done as a whole or not at all. -/
inductive FsStep where
  | write (place : Place) (bytes : Bytes)
  | stage (place : Place) (bytes : Bytes)
  /-- A rename out of the staging directory. -/
  | move (place : Place)
  | writeLog (bytes : Bytes)
  | removeLog

/-- A rename fails if there is nothing to rename. -/
def FsStep.apply (s : SwapDisk) : FsStep → Option SwapDisk
  | .write place bytes => some { s with image := s.image.put (some bytes) place }
  | .stage place bytes => some { s with staging := s.staging.put (some bytes) place }
  | .move place => (s.staging.get place).map fun bytes =>
      { s with image := s.image.put (some bytes) place, staging := s.staging.put none place }
  | .writeLog bytes => some { s with log := some bytes }
  | .removeLog => some { s with log := none }

def runSteps (s : SwapDisk) (steps : List FsStep) : Option SwapDisk :=
  steps.foldlM FsStep.apply s

/-- Files staged one after another until a name is refused; whether none was. -/
def stageFiles : List (Bytes × Bytes) → List FsStep × Bool
  | [] => ([], true)
  | (locator, bytes) :: rest =>
    match localSidecarName locator with
    | .error _ => ([], false)
    | .ok name => (.stage (.file name) bytes :: (stageFiles rest).1, (stageFiles rest).2)

def moveFiles (files : List (Bytes × Bytes)) : List FsStep :=
  (files.filterMap WriteArtifact.namedFile).map fun f => .move (.file f.1)

/-- `RwImage::write_artifact`: everything is staged, then the sidecar, the slabs and the manifest
are moved. -/
def writeArtifact (a : WriteArtifact) : List FsStep :=
  .stage .manifest a.bytes :: ((stageFiles a.slabFiles).1
    ++ if (stageFiles a.slabFiles).2 then
        (stageFiles a.sidecarFiles).1
          ++ if (stageFiles a.sidecarFiles).2 then
              moveFiles a.sidecarFiles ++ moveFiles a.slabFiles ++ [.move .manifest]
            else []
      else [])

/-- No name of the image is refused. -/
def WriteArtifact.namesTaken (a : WriteArtifact) : Bool :=
  (stageFiles a.slabFiles).2 && (stageFiles a.sidecarFiles).2

/-- Files written one after another until a name is refused. -/
def writeFiles : List (Bytes × Bytes) → List FsStep
  | [] => []
  | (locator, bytes) :: rest =>
    match localSidecarName locator with
    | .error _ => []
    | .ok name => .write (.file name) bytes :: writeFiles rest

/-- What the three commands do with the image they made. -/
def installArtifact (a : WriteArtifact) : List FsStep :=
  .write .manifest a.bytes :: writeFiles (a.slabFiles ++ a.sidecarFiles)

/-- The procedures that replace an image. -/
inductive Replacer where
  /-- With the handle and the order in which its pending files are logged. -/
  | commit (image : Rw.RwImage) (files : List (Σ _ : Bytes, Bytes))
  | turnover
  | turnoverCmd
  | rwAdd
  | rwDelete

def Replacer.steps (a : WriteArtifact) : Replacer → List FsStep
  | .commit image files =>
    .writeLog (Rw.writeWal image files)
      :: (writeArtifact a ++ if a.namesTaken then [.removeLog] else [])
  | .turnover => writeArtifact a
  | .turnoverCmd => installArtifact a
  | .rwAdd => installArtifact a
  | .rwDelete => installArtifact a

/-- The procedure goes through `RwImage::write_artifact`. -/
def Replacer.inLibrary : Replacer → Bool
  | .commit _ _ => true
  | .turnover => true
  | _ => false

/-! ### What crash safety means -/

/-- The image before a replacement, if there is one, is whole. -/
structure Before (z : Omnizip) (disk : ImageDisk) (old : Option BuiltImage) : Prop where
  manifest : disk.manifest = old.map (·.manifest)
  files : ∀ i ∈ old, ∀ f ∈ i.files, disk.files f.1 = some f.2
  oneContent : ∀ i ∈ old, OneContent i.files
  complete : ∀ i ∈ old, i.Complete z

/-- Distinct contents have distinct names: within the new image, and between it and what is in
the directory already. -/
structure NamesTell (disk : ImageDisk) (new : BuiltImage) : Prop where
  oneContent : OneContent new.files
  present : ∀ f ∈ new.files, ∀ c, disk.files f.1 = some c → c = f.2

/-- What is opened is the old image, or nothing where there was none, or the new image. -/
def OldOrNew (z : Omnizip) (old : Option BuiltImage) (new : BuiltImage) (disk : ImageDisk) : Prop :=
  (old = none ∧ disk.manifest = none) ∨ (∃ i ∈ old, i.Shown z disk) ∨ new.Shown z disk

/-- At every point the old image or the new one is on disk, and no step changes a file that is
there. -/
def CrashSafe (z : Omnizip) (disk : ImageDisk) (log : Option Bytes) (old : Option BuiltImage)
    (new : BuiltImage) (steps : List FsStep) : Prop :=
  ∀ done rest s, steps = done ++ rest → runSteps ⟨disk, .empty, log⟩ done = some s →
    OldOrNew z old new s.image ∧
      ∀ step ∈ rest.head?, ∀ s', step.apply s = some s' →
        ∀ name c, s.image.files name = some c → s'.image.files name = some c

/-! ### What a reader opens -/

section
variable {z : Omnizip}

theorem ok_of_mem_toOption {x : Except CoreError Bytes} {name : Bytes} (h : x.toOption = some name) :
    x = .ok name := by
  cases x with
  | error e => cases h
  | ok n => exact congrArg Except.ok (Option.some.inj h)

theorem lookup_of_oneContent {files : List (Bytes × Bytes)} (h : OneContent files)
    {f : Bytes × Bytes} (hf : f ∈ files) : files.lookup f.1 = some f.2 := by
  induction files with
  | nil => cases hf
  | cons g rest ih =>
      rw [List.lookup_cons]
      by_cases hname : f.1 = g.1
      · rw [beq_iff_eq.mpr hname]
        exact congrArg some (h g List.mem_cons_self f hf hname.symm)
      · rw [beq_eq_false_iff_ne.mpr hname]
        refine ih (fun a ha b hb => ?_) ((List.mem_cons.mp hf).resolve_left ?_)
        · exact h a (List.mem_cons_of_mem _ ha) b (List.mem_cons_of_mem _ hb)
        · rintro rfl
          exact hname rfl

theorem loadSlab_congr {dir dir' : Directory} (ordinal : Nat) (entry : SlabIndexEntry)
    (h : ∀ name ∈ firstName entry.locators, dir name = dir' name) :
    loadSlab dir ordinal entry = loadSlab dir' ordinal entry := by
  unfold loadSlab
  cases hl : entry.locators with
  | nil => rfl
  | cons locator rest =>
      simp only
      cases hname : localSidecarName locator.uri with
      | error e => rfl
      | ok name =>
          simp only
          rw [h name (by rw [hl, firstName, List.head?_cons, Option.bind_some, hname]; rfl)]

theorem loadSlabs_congr {dir dir' : Directory} :
    ∀ (entries : List SlabIndexEntry) (ordinal : Nat),
      (∀ name ∈ entries.filterMap fun e => firstName e.locators, dir name = dir' name) →
      loadSlabs dir ordinal entries = loadSlabs dir' ordinal entries := by
  intro entries
  induction entries with
  | nil =>
      intro ordinal _
      rfl
  | cons entry rest ih =>
      intro ordinal h
      have hentry := loadSlab_congr ordinal entry fun name hname =>
        h name (List.mem_filterMap.mpr ⟨entry, List.mem_cons_self, hname⟩)
      have hrest := ih (ordinal + 1) fun name hname => by
        obtain ⟨e, he, hn⟩ := List.mem_filterMap.mp hname
        exact h name (List.mem_filterMap.mpr ⟨e, List.mem_cons_of_mem _ he, hn⟩)
      unfold loadSlabs
      rw [hentry, hrest]

theorem metadataBytes_congr {dir dir' : Directory} {ref : MetadataReference}
    (h : ref.inlineMetadata.isSome = false →
      ∀ name ∈ firstName ref.locators, dir name = dir' name) :
    metadataBytes z dir ref = metadataBytes z dir' ref := by
  unfold metadataBytes
  cases hinline : ref.inlineMetadata with
  | some inline => rfl
  | none =>
      simp only
      unfold readExternalMetadata
      cases hl : ref.locators with
      | nil => rfl
      | cons locator rest =>
          simp only
          cases hname : localSidecarName locator.uri with
          | error e => rfl
          | ok name =>
              simp only
              rw [h (by rw [hinline]; rfl) name
                (by rw [hl, firstName, List.head?_cons, Option.bind_some, hname]; rfl)]

theorem loadImage_congr {manifest : Bytes} {dir dir' : Directory}
    (h : ∀ name ∈ namedFiles z manifest, dir name = dir' name) :
    loadImage z ⟨manifest, dir⟩ = loadImage z ⟨manifest, dir'⟩ := by
  unfold loadImage
  unfold namedFiles at h
  rcases hfront : parseManifestFront z manifest with ⟨e | front, rest⟩
  · simp [Parser.run, hfront, bind, Except.bind]
  · rw [hfront] at h
    simp only [List.mem_append] at h
    have hbytes : metadataBytes z dir front.metadataReference =
        metadataBytes z dir' front.metadataReference := by
      refine metadataBytes_congr fun hinline name hname => h name (Or.inl ?_)
      rw [hinline, if_neg Bool.false_ne_true]
      exact Option.mem_toList.mpr hname
    simp only [Parser.run, hfront, bind, Except.bind, hbytes]

theorem loadSlabChain_congr {manifest : Bytes} {dir dir' : Directory} {loaded : LoadedImage}
    (h : ∀ name ∈ namedFiles z manifest, dir name = dir' name)
    (hload : loadImage z ⟨manifest, dir⟩ = .ok loaded) (bases : List ImageFile) :
    loadSlabChain z ⟨manifest, dir⟩ loaded bases = loadSlabChain z ⟨manifest, dir'⟩ loaded bases := by
  obtain ⟨front, rest, -, -, rest', hfront, -, -, hindex, -, -, -⟩ := loadImage_eq_ok.mp hload
  unfold namedFiles at h
  simp only at hfront
  rw [hfront] at h
  simp only [hindex, List.mem_append] at h
  have hslabs : loadSlabs dir 0 loaded.slabIndex.entries = loadSlabs dir' 0 loaded.slabIndex.entries :=
    loadSlabs_congr _ 0 fun name hname => h name (Or.inr hname)
  unfold loadSlabChain loadStore SlabStore.load
  rw [hslabs]

theorem readInode_congr {manifest : Bytes} {dir dir' : Directory}
    (h : ∀ name ∈ namedFiles z manifest, dir name = dir' name) (bases : List ImageFile)
    (number : Nat) :
    readInode z ⟨manifest, dir⟩ bases number = readInode z ⟨manifest, dir'⟩ bases number := by
  unfold readInode
  rw [← loadImage_congr h]
  cases hload : loadImage z ⟨manifest, dir⟩ with
  | error e => rfl
  | ok loaded =>
      simp only [bind, Except.bind]
      rw [loadSlabChain_congr h hload]

/-- **A complete image is read from its own files**, whatever else is in the directory. -/
theorem BuiltImage.shown {i : BuiltImage} (hcomplete : i.Complete z) (hone : OneContent i.files)
    {disk : ImageDisk} (hmanifest : disk.manifest = some i.manifest)
    (hfiles : ∀ f ∈ i.files, disk.files f.1 = some f.2) : i.Shown z disk := by
  have hsame : ∀ name ∈ namedFiles z i.manifest, disk.files name = i.dir name := by
    intro name hname
    obtain ⟨f, hf, rfl⟩ := hcomplete name hname
    rw [hfiles f hf, BuiltImage.dir, lookup_of_oneContent hone hf]
  exact ⟨hmanifest, hfiles, loadImage_congr hsame, readInode_congr hsame⟩

end

/-! ### The image the writer made is complete -/

section
variable {H : Hash} {z : Omnizip} {ctx : WriteContext} {a : WriteArtifact}

theorem mem_built {f : Bytes × Bytes} {name : Bytes} (hf : f ∈ a.slabFiles ++ a.sidecarFiles)
    (hname : localSidecarName f.1 = .ok name) : (name, f.2) ∈ a.built.files :=
  List.mem_filterMap.mpr ⟨f, hf, by rw [WriteArtifact.namedFile, hname]; rfl⟩

theorem complete_built (ha : assemble H z ctx = some a) : a.built.Complete z := by
  obtain ⟨blob, hblob, hsidecar⟩ := assemble_metadata ha
  obtain ⟨hbytes, -, hslabs, hlen, hcount⟩ := assemble_some hblob ha
  intro name hname
  change name ∈ namedFiles z a.bytes at hname
  unfold namedFiles at hname
  rcases hfront : parseManifestFront z a.bytes with ⟨e | front, rest⟩
  · rw [hfront] at hname
    cases hname
  · rw [hfront] at hname
    rw [hbytes] at hfront
    obtain ⟨hrefers, -, -, -, -, rfl⟩ := parseManifestFront_assembled hlen hfront
    rw [List.mem_append, reads_parseSlabIndex (writable_slabIndexOf hslabs hcount)] at hname
    rcases hname with hname | hname
    · split at hname
      · cases hname
      · next hinline =>
          have hsome : (metadataSidecarFor H ctx.metadataExternalizeThreshold
              (metadataOnWire z ctx.metadataCodec blob).2).isSome = true := by
            rw [← Option.not_isNone, ← hrefers.inlined, Bool.eq_false_of_not_eq_true hinline]
            rfl
          obtain ⟨m, hm⟩ := Option.isSome_iff_exists.mp hsome
          rw [hrefers.locator m hm] at hname
          have hok : localSidecarName m.locator = .ok name := by
            rw [firstName, List.head?_cons, Option.bind_some, Option.mem_toList] at hname
            exact ok_of_mem_toOption hname
          have hmem : (m.locator, m.bytes) ∈ a.sidecarFiles := by
            rw [WriteArtifact.sidecarFiles, hsidecar, hm]
            exact List.mem_singleton.mpr rfl
          exact ⟨_, mem_built (List.mem_append_right _ hmem) hok, rfl⟩
    · obtain ⟨e, he, hn⟩ := List.mem_filterMap.mp hname
      obtain ⟨s, hs, rfl⟩ := List.mem_map.mp he
      have hok : localSidecarName s.locator = .ok name := ok_of_mem_toOption hn
      have hmem : (s.locator, s.bytes) ∈ a.slabFiles := List.mem_map_of_mem hs
      exact ⟨_, mem_built (List.mem_append_left _ hmem) hok, rfl⟩

end

end LimniFS
