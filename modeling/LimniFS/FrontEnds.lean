/-
Three ways into an image.

The library's `ImageReader`, the virtual filesystem and the CLI each open an image by a sequence of
their own: which sections are parsed, where the metadata may be, which slabs are looked for and
whether the dictionaries are put in.  Behind that all three read windows of a file by one function,
the first two from the frames and drops of a cached store, the CLI from whole drops of its chain.

`OpensAs` is the sequence that leaves nothing out.  An image that the writer put on disk is opened by
the library and by the CLI exactly when it is opened so, and by the virtual filesystem exactly when
its metadata is inlined as well.
-/
import LimniFS.CompactedImage
import LimniFS.ExtractModes
import LimniFS.FuseVfs
import LimniFS.ExactPacking

namespace LimniFS

open Lib Lib.Parser Cursor

/-! ### Windows of a cached store -/

/-- `read_window_into` on a cached store; `none` is a panic. -/
def CachedSlabStore.readWindowInto (H : Hash) (z : Omnizip) (s : CachedSlabStore) (inode : Inode)
    (offset n : Nat) : Option (CachedSlabStore × Except CoreError Bytes) :=
  if n = 0 then some (s, .ok [])
  else
    match inode.contentHandle with
    | .inlineData data =>
      if data.length ≤ offset then some (s, .ok [])
      else some (s, .ok ((data.drop offset).take (min (offset + n) data.length - offset)))
    | .sliceMap map =>
      CachedSlabStore.fillWindow H z offset n (windowEnd offset n) map.slices s []
    | _ => some (s, .ok [])

def defaultCacheCapacity : Nat := 1024
def defaultCacheBytes : Nat := 64 * 1024 * 1024
def defaultFrameCacheBytes : Nat := 32 * 1024 * 1024

/-- `CachedSlabStore::with_default_capacity`. -/
def CachedSlabStore.withDefaultCapacity (inner : SlabStore) : CachedSlabStore :=
  .withFrameBudget inner defaultCacheCapacity defaultCacheBytes defaultFrameCacheBytes

/-! ### The virtual filesystem -/

inductive VfsError where
  | core (e : CoreError)
  | notFound

/-- The store of a filesystem before the first read. -/
def Vfs.cached (vfs : Vfs) : CachedSlabStore := .withDefaultCapacity vfs.store

/-- `Vfs::read`, with the state of its store. -/
def Vfs.read (H : Hash) (z : Omnizip) (vfs : Vfs) (s : CachedSlabStore) (ino offset len : Nat) :
    Option (CachedSlabStore × Except VfsError Bytes) :=
  match vfs.metadataBlob.inodeByNumber ino with
  | none => some (s, .error .notFound)
  | some inode =>
    match inode.contentHandle with
    | .inlineData _ | .sliceMap _ =>
      (s.readWindowInto H z inode offset len).map fun (s, r) => (s, r.mapError .core)
    | _ => some (s, .error .notFound)

/-! ### What each of them reads -/

/-- The window lies in the regular file with this number. -/
structure MetadataBlob.FileWindow (blob : MetadataBlob) (number offset n : Nat) (inode : Inode) :
    Prop where
  found : blob.inodeByNumber number = some inode
  regular : inode.isRegular = true
  inside : offset + n ≤ inode.fileLen

section

variable (H : Hash) (z : Omnizip) (image : ImageFile)

/-- The library reads `out` from the window, whatever it was asked before. -/
def LibraryReads (config : ReadConfig) (number offset n : Nat) (out : Bytes) : Prop :=
  ∃ reader inode, ImageReader.fromParts z image.manifest image.dir config = some (.ok reader) ∧
    reader.blob.FileWindow number offset n inode ∧
    ∀ calls s, reader.store.run H z calls = some s →
      ∃ s', s.readWindowInto H z inode offset n = some (s', .ok out)

/-- The virtual filesystem reads `out` from the window, whatever it was asked before. -/
def VfsReads (number offset n : Nat) (out : Bytes) : Prop :=
  ∃ vfs inode, Vfs.fromBytes z image.manifest image.dir = .ok vfs ∧
    vfs.metadataBlob.FileWindow number offset n inode ∧
    ∀ calls s, vfs.cached.run H z calls = some s →
      ∃ s', vfs.read H z s number offset n = some (s', .ok out)

/-- The CLI has the image and its slabs. -/
def CliOpens : Prop :=
  ∃ loaded stores, loadImage z image = .ok loaded ∧ loadSlabChain z image loaded [] = .ok stores

/-- The CLI reads `out` from the window. -/
def CliReads (number offset n : Nat) (out : Bytes) : Prop :=
  ∃ loaded stores inode, loadImage z image = .ok loaded ∧
    loadSlabChain z image loaded [] = .ok stores ∧ loaded.blob.FileWindow number offset n inode ∧
    readWindowInto inode (chainSource z stores) offset n = some (.ok out)

/-- None of the three fails where another does not, and they read the same. -/
structure FrontEndsAgree (config : ReadConfig) : Prop where
  libraryOpens : (∃ reader, ImageReader.fromParts z image.manifest image.dir config = some (.ok reader)) ↔
    CliOpens z image
  vfsOpens : (∃ vfs, Vfs.fromBytes z image.manifest image.dir = .ok vfs) ↔ CliOpens z image
  libraryReads : ∀ number offset n out,
    LibraryReads H z image config number offset n out ↔ CliReads z image number offset n out
  vfsReads : ∀ number offset n out,
    VfsReads H z image number offset n out ↔ CliReads z image number offset n out

end

/-! ### An image that is opened -/

/-- The image opened with nothing left out: its metadata, its slabs and what follows its history. -/
structure OpensAs (z : Omnizip) (image : ImageFile) (front : ManifestFront) (blob : MetadataBlob)
    (root : Nat) (views : List SlabView) (dicts : Option DictionarySection) : Prop where
  parses : ∃ rest blobBytes blobRest index rest',
    parseManifestFront z image.manifest = (.ok front, rest) ∧
    metadataBytes z image.dir front.metadataReference = .ok blobBytes ∧
    parseMetadataBlob blobBytes = (.ok blob, blobRest) ∧
    parseSlabIndex rest = (.ok index, rest') ∧ loadSlabs image.dir 0 index.entries = .ok views ∧
    dicts = trailingDictionaries rest'
  root : blob.rootInodeNumber = some root

section

variable {z : Omnizip} {image : ImageFile} {front : ManifestFront} {blob : MetadataBlob} {root : Nat}
  {views : List SlabView} {dicts : Option DictionarySection}

theorem loadSlabs_length {dir : Directory} : ∀ (entries : List SlabIndexEntry) (ordinal : Nat)
    (views : List SlabView), loadSlabs dir ordinal entries = .ok views →
      views.length = entries.length := by
  intro entries
  induction entries with
  | nil =>
      intro ordinal views h
      cases h
      rfl
  | cons entry rest ih =>
      intro ordinal views h
      rw [loadSlabs] at h
      split at h
      · cases h
      · split at h
        · cases h
        · next more hmore =>
            cases h
            rw [List.length_cons, List.length_cons, ih _ _ hmore]

/-- The store of the CLI, with the dictionaries that were found put in. -/
def cliStore (views : List SlabView) (dicts : Option DictionarySection) : SlabStore :=
  ⟨views, dicts.elim (fun _ => none) installDicts⟩

/-- The chain of an image alone: nothing without slabs, else its own store. -/
def cliSource (z : Omnizip) (views : List SlabView) (dicts : Option DictionarySection) :
    Option SlabSource :=
  if views = [] then none else some ((cliStore views dicts).plaintextFor z)

theorem OpensAs.cli (h : OpensAs z image front blob root views dicts) :
    ∃ loaded stores, loadImage z image = .ok loaded ∧
      loadSlabChain z image loaded [] = .ok stores ∧ loaded.blob = blob ∧
      chainSource z stores = cliSource z views dicts := by
  obtain ⟨rest, blobBytes, blobRest, index, rest', hfront, hbytes, hblob, hindex, hviews, hdicts⟩ :=
    h.parses
  obtain ⟨inode, hinode⟩ := inode_of_root h.root
  have hload : loadImage z image = .ok ⟨blob, root, index, dicts⟩ :=
    loadImage_eq_ok.mpr ⟨front, rest, blobBytes, blobRest, rest', hfront, hbytes, hblob, hindex,
      h.root, by rw [hinode]; rfl, hdicts⟩
  have hlen := loadSlabs_length _ _ _ hviews
  by_cases hnone : index.entries = []
  · have hnil : views = [] := by
      rw [hnone] at hlen
      exact List.eq_nil_of_length_eq_zero hlen
    refine ⟨_, [], hload, ?_, rfl, ?_⟩
    · unfold loadSlabChain
      rw [if_pos hnone]
      rfl
    · rw [cliSource, if_pos hnil]
      rfl
  · have hne : views ≠ [] := by
      intro hnil
      rw [hnil] at hlen
      exact hnone (List.eq_nil_of_length_eq_zero hlen.symm)
    have hstore : loadStore image.dir index dicts = .ok (cliStore views dicts) := by
      unfold loadStore SlabStore.load
      rw [hviews]
      cases dicts with
      | none => rfl
      | some d => rfl
    refine ⟨_, [cliStore views dicts], hload, ?_, rfl, ?_⟩
    · unfold loadSlabChain
      rw [if_neg hnone]
      simp only [hstore]
      rfl
    · rw [cliSource, if_neg hne]
      exact chainSource_singleton _

/-- **The CLI opens what can be opened.** -/
theorem cliOpens_iff : CliOpens z image ↔
    ∃ front blob root views dicts, OpensAs z image front blob root views dicts := by
  constructor
  · rintro ⟨loaded, stores, hload, hstores⟩
    obtain ⟨front, rest, blobBytes, blobRest, rest', hfront, hbytes, hblob, hindex, hroot, -, hdict⟩ :=
      loadImage_eq_ok.mp hload
    have hviews : ∃ views, loadSlabs image.dir 0 loaded.slabIndex.entries = .ok views := by
      by_cases hnone : loaded.slabIndex.entries = []
      · exact ⟨[], by rw [hnone]; rfl⟩
      · unfold loadSlabChain at hstores
        rw [if_neg hnone] at hstores
        obtain ⟨own, hown, -⟩ := except_bind_eq_ok.mp hstores
        obtain ⟨store, hstore, -⟩ := map_eq_ok hown
        unfold loadStore SlabStore.load at hstore
        cases hviews : loadSlabs image.dir 0 loaded.slabIndex.entries with
        | error e =>
            rw [hviews] at hstore
            cases hstore
        | ok views => exact ⟨views, rfl⟩
    obtain ⟨views, hviews⟩ := hviews
    exact ⟨front, loaded.blob, _, views, _, ⟨⟨rest, blobBytes, blobRest, _, rest', hfront, hbytes,
      hblob, hindex, hviews, rfl⟩, hroot⟩⟩
  · rintro ⟨front, blob, root, views, dicts, h⟩
    obtain ⟨loaded, stores, hload, hstores, -⟩ := h.cli
    exact ⟨loaded, stores, hload, hstores⟩

theorem OpensAs.cliReads_iff (h : OpensAs z image front blob root views dicts)
    {number offset n : Nat} {out : Bytes} : CliReads z image number offset n out ↔
      ∃ inode, blob.FileWindow number offset n inode ∧
        LimniFS.readWindowInto inode (cliSource z views dicts) offset n = some (.ok out) := by
  obtain ⟨loaded, stores, hload, hstores, rfl, hsource⟩ := h.cli
  constructor
  · rintro ⟨loaded', stores', inode, hload', hstores', hfile, hread⟩
    rw [hload] at hload'
    cases hload'
    rw [hstores] at hstores'
    cases hstores'
    exact ⟨inode, hfile, hsource ▸ hread⟩
  · rintro ⟨inode, hfile, hread⟩
    exact ⟨loaded, stores, inode, hload, hstores, hfile, hsource ▸ hread⟩

/-! ### The virtual filesystem and the library -/

/-- **The virtual filesystem opens what can be opened**, if its metadata is inlined. -/
theorem fromBytes_eq_ok {vfs : Vfs} : Vfs.fromBytes z image.manifest image.dir = .ok vfs ↔
    ∃ front blob root views dicts, OpensAs z image front blob root views dicts ∧
      front.metadataReference.inlineMetadata.isSome = true ∧
      vfs = ⟨blob, ⟨views, fun _ => none⟩, root⟩ := by
  unfold Vfs.fromBytes
  simp only [except_bind_eq_ok, run_eq_ok, Prod.exists]
  constructor
  · rintro ⟨front, rest, hfront, h⟩
    split at h
    · cases h
    · next blobBytes hinline =>
        simp only [except_bind_eq_ok, run_eq_ok, Prod.exists] at h
        obtain ⟨blob, blobRest, hblob, index, rest', hindex, h⟩ := h
        split at h
        · cases h
        · next root hroot =>
            obtain ⟨store, hstore, h⟩ := except_bind_eq_ok.mp h
            cases h
            unfold SlabStore.load at hstore
            split at hstore
            · cases hstore
            · next views hviews =>
                cases hstore
                exact ⟨front, blob, root, views, _, ⟨⟨rest, blobBytes, blobRest, index, rest', hfront,
                  by rw [metadataBytes, hinline], hblob, hindex, hviews, rfl⟩, hroot⟩,
                  by rw [hinline]; rfl, rfl⟩
  · rintro ⟨front, blob, root, views, dicts, ⟨⟨rest, blobBytes, blobRest, index, rest', hfront,
      hbytes, hblob, hindex, hviews, -⟩, hroot⟩, hinline, rfl⟩
    obtain ⟨inline, hinline⟩ := Option.isSome_iff_exists.mp hinline
    rw [metadataBytes, hinline] at hbytes
    cases hbytes
    refine ⟨front, rest, hfront, ?_⟩
    rw [hinline]
    simp only [except_bind_eq_ok, run_eq_ok, Prod.exists]
    refine ⟨blob, blobRest, hblob, index, rest', hindex, ?_⟩
    rw [hroot]
    refine except_bind_eq_ok.mpr ⟨⟨views, fun _ => none⟩, ?_, rfl⟩
    rw [SlabStore.load, hviews]

/-- What is found at the places of the ordinals. -/
theorem placeSources_onDisk {dir : Directory} : ∀ (slabs : List SlabArtifact)
    (first : List (Option Bytes)),
    (∀ s ∈ slabs, ∃ name, localSidecarName s.locator = .ok name ∧ dir name = some s.bytes) →
    (∀ i s, slabs[i]? = some s → s.id.ordinal = first.length + i) →
    placeSources dir (slabIndexOf slabs).entries (first ++ List.replicate slabs.length none)
      = some (.ok (first ++ slabs.map fun s => some s.bytes)) := by
  intro slabs
  induction slabs with
  | nil =>
      intro first _ _
      rfl
  | cons slab rest ih =>
      intro first hdisk hord
      obtain ⟨name, hname, hfile⟩ := hdisk slab List.mem_cons_self
      have hsource : slabSource dir [⟨slab.locator⟩] = .ok (some slab.bytes) := by
        rw [slabSource]
        simp only [hname, hfile]
      have hplace : slab.id.ordinal = first.length := hord 0 slab rfl
      have hset : (first ++ List.replicate (slab :: rest).length none).set slab.id.ordinal
          (some slab.bytes) = (first ++ [some slab.bytes]) ++ List.replicate rest.length none := by
        rw [hplace, List.set_append_right _ _ (Nat.le_refl _), Nat.sub_self, List.length_cons,
          List.replicate_succ, List.set_cons_zero, List.append_assoc, List.singleton_append]
      have hnext := ih (first ++ [some slab.bytes])
        (fun s hs => hdisk s (List.mem_cons_of_mem _ hs)) fun i s hs => by
          rw [List.length_append, List.length_singleton, hord (i + 1) s hs]
          omega
      simp only [slabIndexOf] at hnext ⊢
      rw [List.map_cons, placeSources]
      simp only [hsource, hset]
      rw [if_pos (by rw [hplace, List.length_append, List.length_replicate, List.length_cons]; omega),
        hnext, List.map_cons, List.append_assoc, List.singleton_append]

theorem sourceCount_onDisk : ∀ (slabs : List SlabArtifact) (count : Nat),
    count + slabs.length < 2 ^ 64 →
    (∀ i s, slabs[i]? = some s → s.id.ordinal = count + i) →
    (slabIndexOf slabs).entries.foldlM countSlab count = some (count + slabs.length) := by
  intro slabs
  induction slabs with
  | nil =>
      intro count _ _
      rfl
  | cons slab rest ih =>
      intro count hfits hord
      rw [List.length_cons] at hfits ⊢
      have hfirst : slab.id.ordinal = count := hord 0 slab rfl
      have hnext := ih (count + 1) (by omega) fun i s hs => by
        rw [hord (i + 1) s hs]
        omega
      have hstep : countSlab count ⟨slab.id, [⟨slab.locator⟩]⟩ = some (count + 1) := by
        unfold countSlab
        rw [hfirst, if_pos (by omega), Nat.max_eq_right (Nat.le_succ count)]
      simp only [slabIndexOf, List.map_cons, List.foldlM_cons] at hnext ⊢
      rw [hstep, show count + (rest.length + 1) = count + 1 + rest.length by omega, ← hnext]
      rfl

theorem loadSlabs_mapM {dir : Directory} : ∀ (slabs : List SlabArtifact) (ordinal : Nat),
    (∀ s ∈ slabs, ∃ name, localSidecarName s.locator = .ok name ∧ dir name = some s.bytes) →
    loadSlabs dir ordinal (slabIndexOf slabs).entries
      = (slabs.map SlabArtifact.bytes).mapM parseSlab := by
  intro slabs
  induction slabs with
  | nil =>
      intro ordinal _
      rfl
  | cons slab rest ih =>
      intro ordinal hdisk
      obtain ⟨name, hname, hfile⟩ := hdisk slab List.mem_cons_self
      have hslab : loadSlab dir ordinal ⟨slab.id, [⟨slab.locator⟩]⟩ = parseSlab slab.bytes := by
        unfold loadSlab
        simp only [hname, hfile]
      have hnext := ih (ordinal + 1) fun s hs => hdisk s (List.mem_cons_of_mem _ hs)
      simp only [slabIndexOf] at hnext ⊢
      rw [List.map_cons, loadSlabs, hslab, hnext, List.map_cons, List.mapM_cons]
      cases parseSlab slab.bytes with
      | error e => rfl
      | ok view =>
          cases (rest.map SlabArtifact.bytes).mapM parseSlab with
          | error e => rfl
          | ok more => rfl

theorem ordinal_of_packSlabs {H : Hash} {drops : List PendingDrop} {slabs : List SlabArtifact}
    (h : packSlabs H drops = some slabs) {i : Nat} {s : SlabArtifact} (hs : slabs[i]? = some s) :
    s.id.ordinal = i := by
  obtain ⟨hlen, hall⟩ := encodeSlabs_getElem? _ _ _ h
  have hi := (List.getElem?_eq_some_iff.mp hs).1
  obtain ⟨records, -, hslab⟩ := Option.map_eq_some_iff.mp
    (hall i s _ hs (List.getElem?_eq_getElem (hlen ▸ hi)))
  rw [← hslab]
  exact Nat.zero_add i

/-- **The library opens what can be opened** of what the writer put on disk. -/
theorem fromParts_eq_ok {H : Hash} {ctx : WriteContext} {a : WriteArtifact} {dir : Directory}
    {config : ReadConfig} {reader : ImageReader} (ha : assemble H z ctx = some a)
    (hdisk : a.OnDisk dir) : ImageReader.fromParts z a.bytes dir config = some (.ok reader) ↔
      ∃ front blob root views dicts, OpensAs z ⟨a.bytes, dir⟩ front blob root views dicts ∧
        reader = ⟨blob, root, .withFrameBudget ⟨views, fun _ => none⟩ config.cacheEntries
          config.cacheBytes config.frameCacheBytes⟩ := by
  obtain ⟨blobBytes, hblobBytes, -⟩ := assemble_metadata ha
  obtain ⟨hbytes, -, hslabs, hlen, hcount⟩ := assemble_some hblobBytes ha
  have hwritable := writable_slabIndexOf hslabs hcount
  -- the index behind the front is that of the slabs
  have hown : ∀ {front rest index rest'}, parseManifestFront z a.bytes = (.ok front, rest) →
      parseSlabIndex rest = (.ok index, rest') → index = slabIndexOf a.slabs := by
    intro front rest index rest' hfront hindex
    rw [hbytes] at hfront
    obtain ⟨-, -, -, -, -, rfl⟩ := parseManifestFront_assembled hlen hfront
    rw [reads_parseSlabIndex hwritable] at hindex
    exact (Except.ok.inj (Prod.mk.inj hindex).1).symm
  have hcounted : sourceCount (slabIndexOf a.slabs).entries = some a.slabs.length := by
    have hfits : 0 + a.slabs.length < 2 ^ 64 :=
      Nat.lt_of_lt_of_le (show 0 + a.slabs.length < u32Limit by rw [Nat.zero_add]; exact hcount)
        (by decide)
    rw [sourceCount, sourceCount_onDisk a.slabs 0 hfits fun i s hs => by
      rw [ordinal_of_packSlabs hslabs hs, Nat.zero_add], Nat.zero_add]
  have hplaced := placeSources_onDisk a.slabs [] hdisk.slab fun i s hs => by
    rw [ordinal_of_packSlabs hslabs hs, List.length_nil, Nat.zero_add]
  have hsources : slabSources dir (slabIndexOf a.slabs).entries
      = some (.ok (a.slabs.map SlabArtifact.bytes)) := by
    unfold slabSources
    rw [hcounted, Option.bind_some]
    rw [List.nil_append, List.nil_append] at hplaced
    rw [hplaced, Option.map_some, Except.map, List.map_map]
    rfl
  rw [fromParts_eq_some_ok]
  constructor
  · rintro ⟨blob, index, sources, hparts, hplaces, hreader⟩
    obtain ⟨front, rest, blobWire, blobRest, rest', hfront, hwire, hblob, hindex⟩ :=
      openParts_eq_ok.mp hparts
    obtain rfl := hown hfront hindex
    rw [hsources] at hplaces
    obtain rfl := Except.ok.inj (Option.some.inj hplaces)
    obtain ⟨views, root, hviews, hroot, rfl⟩ := ofSources_eq_ok.mp hreader
    exact ⟨front, blob, root, views, _, ⟨⟨rest, blobWire, blobRest, _, rest', hfront, hwire, hblob,
      hindex, (loadSlabs_mapM a.slabs 0 hdisk.slab).trans hviews, rfl⟩, hroot⟩, rfl⟩
  · rintro ⟨front, blob, root, views, dicts, ⟨⟨rest, blobWire, blobRest, index, rest', hfront,
      hwire, hblob, hindex, hviews, -⟩, hroot⟩, rfl⟩
    obtain rfl := hown hfront hindex
    exact ⟨blob, _, _, openParts_eq_ok.mpr ⟨front, rest, blobWire, blobRest, rest', hfront, hwire,
      hblob, hindex⟩, hsources, ofSources_eq_ok.mpr ⟨views, root,
      (loadSlabs_mapM a.slabs 0 hdisk.slab).symm.trans hviews, hroot, rfl⟩⟩

end

end LimniFS
