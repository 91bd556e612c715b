/-
When the two commands that print files agree.

Both print the drops of a file from their beginnings.  `cat` shows as much of each as its slice covers,
and the other command all of it; neither looks at where in its drop a slice starts.  So they agree, and
print the file, exactly where every slice is a whole drop (`cats_agree_iff`).

Where a drop cannot be read one of them fails, and the other does unless its windows end before they
come to it.  A path has to be spelled as the index spells it, and its number may have no other record
behind the first.
-/
import LimniFS.CatFiles
import LimniFS.IntegrityExact

namespace LimniFS.Cat

open Lib

/-! ### What it means to agree -/

section
variable (H : Hash) (z : Omnizip) (image : ImageFile) (loaded : LoadedImage) (bases : List ImageFile)
  (path : Bytes)

/-- The commands come to one inode and print the same, which are the ranges the slices name; or neither
prints anything. -/
structure CatsAgree : Prop where
  returns : cat H z image path none none bases ≠ none ∧
    ∃ fuel, catMulti H z fuel image [path] bases ≠ none
  resolve : ∀ fuel index rootInode, Rw.buildPathIndex H loaded.blob fuel = some index →
    loaded.blob.inodeByNumber loaded.rootInodeNumber = some rootInode →
    (index.lookup (normalised path)).bind (lastInode loaded.blob)
      = resolvePath H loaded.blob rootInode path
  same : ∀ body, cat H z image path none none bases = some (.ok body) ↔
    ∃ fuel, catMulti H z fuel image [path] bases = some (.ok (sectionText path body))
  honours : ∀ rootInode target map stores store body,
    loaded.blob.inodeByNumber loaded.rootInodeNumber = some rootInode →
    resolvePath H loaded.blob rootInode path = some target → target.contentHandle = .sliceMap map →
    loadSlabChain z image loaded bases = .ok stores → chainSource z stores = some store →
    cat H z image path none none bases = some (.ok body) → Honours store map.slices body

/-- If the path leads to a record, it is spelled as in the index, the number has no other last record,
and what the record's slices show is the same from their beginning as by their range. -/
structure CatsAlike : Prop where
  spelled : ∀ number target, Leads H loaded.blob loaded.rootInodeNumber path number →
    loaded.blob.inodeByNumber number = some target →
    Spelled path ∧ lastInode loaded.blob number = some target
  slices : ∀ number target map stores, Leads H loaded.blob loaded.rootInodeNumber path number →
    loaded.blob.inodeByNumber number = some target → target.contentHandle = .sliceMap map →
    loadSlabChain z image loaded bases = .ok stores → SlicesAlike (chainSource z stores) map.slices

end

/-! ### What the commands print -/

section
variable {H : Hash} {z : Omnizip} {image : ImageFile} {loaded : LoadedImage} {bases : List ImageFile}
  {path : Bytes} {rootInode : Inode}

/-- **`cat` prints the file that the path leads to**, and fails where there is none. -/
theorem cat_loaded (hload : loadImage z image = .ok loaded)
    (hroot : loaded.blob.inodeByNumber loaded.rootInodeNumber = some rootInode) :
    (∃ target stores, resolvePath H loaded.blob rootInode path = some target ∧
      debugOther target.contentHandle = none ∧ loadSlabChain z image loaded bases = .ok stores ∧
      cat H z image path none none bases = printed target (chainSource z stores) []) ∨
    (∃ e, cat H z image path none none bases = some (.error e)) ∧
      ¬ ∃ target stores, resolvePath H loaded.blob rootInode path = some target ∧
        debugOther target.contentHandle = none ∧ loadSlabChain z image loaded bases = .ok stores := by
  unfold cat
  rw [hload]
  simp only [hroot]
  cases hresolve : resolvePath H loaded.blob rootInode path with
  | none => exact Or.inr ⟨⟨_, rfl⟩, by simp⟩
  | some target =>
      simp only
      cases hother : debugOther target.contentHandle with
      | some other => exact Or.inr ⟨⟨_, rfl⟩, by simp [hother]⟩
      | none =>
          simp only
          cases hchain : loadSlabChain z image loaded bases with
          | error e => exact Or.inr ⟨⟨_, rfl⟩, by simp⟩
          | ok stores =>
              refine Or.inl ⟨target, stores, rfl, hother, rfl, ?_⟩
              simp [printed]

theorem cat_eq_printed (hload : loadImage z image = .ok loaded)
    (hroot : loaded.blob.inodeByNumber loaded.rootInodeNumber = some rootInode) {target : Inode}
    {stores : List SlabStore} (htarget : resolvePath H loaded.blob rootInode path = some target)
    (hfile : debugOther target.contentHandle = none)
    (hchain : loadSlabChain z image loaded bases = .ok stores) :
    cat H z image path none none bases = printed target (chainSource z stores) [] := by
  rcases cat_loaded hload hroot with ⟨target', stores', htarget', -, hchain', hcat⟩ | ⟨-, hnone⟩
  · rw [htarget] at htarget'
    rw [hchain] at hchain'
    cases htarget'
    cases hchain'
    exact hcat
  · exact absurd ⟨target, stores, htarget, hfile, hchain⟩ hnone

/-- **What `cat_multi` prints** are the sections of its paths. -/
theorem catMulti_eq_ok (hload : loadImage z image = .ok loaded) {fuel : Nat} {paths : List Bytes}
    {out : Bytes} : catMulti H z fuel image paths bases = some (.ok out) ↔
      ∃ index stores sections, Rw.buildPathIndex H loaded.blob fuel = some index ∧
        loadSlabChain z image loaded bases = .ok stores ∧
        List.Forall₂ (fun path text =>
          catSection loaded.blob index (chainSource z stores) path = .ok text) paths sections ∧
        out = sections.flatten := by
  unfold catMulti
  rw [hload]
  simp only [Option.map_eq_some_iff]
  constructor
  · rintro ⟨index, hindex, h⟩
    cases hchain : loadSlabChain z image loaded bases with
    | error e => simp [hchain] at h
    | ok stores =>
        rw [hchain] at h
        simp only at h
        obtain ⟨sections, hsections, rfl⟩ := map_eq_ok h
        exact ⟨index, stores, sections, hindex, rfl, mapM_ok_iff.mp hsections, rfl⟩
  · rintro ⟨index, stores, sections, hindex, hchain, hsections, rfl⟩
    refine ⟨index, hindex, ?_⟩
    rw [hchain]
    simp only
    rw [mapM_ok_iff.mpr hsections]
    rfl

theorem sectionText_inj {body body' : Bytes} (h : sectionText path body = sectionText path body') :
    body = body' := by
  unfold sectionText at h
  exact List.append_cancel_left (List.append_cancel_right h)

theorem catSection_eq_ok {blob : MetadataBlob} {index : PathMap Nat} {source : Option SlabSource}
    {body : Bytes} : catSection blob index source path = .ok (sectionText path body) ↔
      ∃ target, (index.lookup (normalised path)).bind (lastInode blob) = some target ∧
        sectionBody source path target = .ok body := by
  unfold catSection
  cases hnumber : index.lookup (normalised path) with
  | none => simp
  | some number =>
      simp only [Option.bind_some]
      cases htarget : lastInode blob number with
      | none => simp
      | some target =>
          simp only [Option.some.injEq, exists_eq_left']
          constructor
          · intro h
            obtain ⟨body', hbody, htext⟩ := map_eq_ok h
            rwa [sectionText_inj htext] at hbody
          · intro h
            rw [h]
            rfl

/-- The section of one path. -/
theorem catMulti_single (hload : loadImage z image = .ok loaded) {fuel : Nat} {body : Bytes} :
    catMulti H z fuel image [path] bases = some (.ok (sectionText path body)) ↔
      ∃ index stores target, Rw.buildPathIndex H loaded.blob fuel = some index ∧
        loadSlabChain z image loaded bases = .ok stores ∧
        (index.lookup (normalised path)).bind (lastInode loaded.blob) = some target ∧
        sectionBody (chainSource z stores) path target = .ok body := by
  rw [catMulti_eq_ok hload]
  constructor
  · rintro ⟨index, stores, sections, hindex, hchain, hsections, htext⟩
    cases hsections with
    | cons hfirst hrest =>
        cases hrest
        rw [List.flatten_cons, List.flatten_nil, List.append_nil] at htext
        rw [← htext] at hfirst
        obtain ⟨target, htarget, hbody⟩ := catSection_eq_ok.mp hfirst
        exact ⟨index, stores, target, hindex, hchain, htarget, hbody⟩
  · rintro ⟨index, stores, target, hindex, hchain, htarget, hbody⟩
    exact ⟨index, stores, [sectionText path body], hindex, hchain,
      .cons (catSection_eq_ok.mpr ⟨target, htarget, hbody⟩) .nil, by simp⟩

end

/-! ### When the commands agree -/

/-- What is known of an image that was loaded and whose directories are a tree. -/
structure LoadedTree (H : Hash) (z : Omnizip) (image : ImageFile) (loaded : LoadedImage)
    (rootInode : Inode) : Prop where
  wellFormed : loaded.blob.WellFormed
  parsed : ∀ node ∈ loaded.blob.dirNodes, ∀ e ∈ node.entries, DeltaBuilder.ParsedEntry e
  bounded : ∀ inode ∈ loaded.blob.inodes, inode.Bounded defaultInlineDataMaxBytes
  root : loaded.blob.inodeByNumber loaded.rootInodeNumber = some rootInode
  indexed : ∃ fuel index, Rw.buildPathIndex H loaded.blob fuel = some index
  exactIndex : ∀ fuel index, Rw.buildPathIndex H loaded.blob fuel = some index →
    Rw.ExactIndex H loaded.blob loaded.rootInodeNumber index

section
variable {H : Hash} {z : Omnizip} {image : ImageFile} {loaded : LoadedImage} {bases : List ImageFile}
  {path : Bytes} {rootInode : Inode}

theorem loadedTree (hload : loadImage z image = .ok loaded)
    (htree : Rw.DirTree H loaded.blob loaded.rootInodeNumber) :
    ∃ rootInode, LoadedTree H z image loaded rootInode := by
  obtain ⟨_, _, _, _, _, -, -, hparse, -, hnumber, hsome, -⟩ := loadImage_eq_ok.mp hload
  obtain ⟨rootInode, hroot⟩ := Option.isSome_iff_exists.mp hsome
  have hwf := parseMetadataBlob_wellFormed hparse
  obtain ⟨-, -, hbounded, -⟩ := parseMetadataBlob_bounded hparse
  exact ⟨rootInode, hwf, DeltaBuilder.parseMetadataBlob_parsed hparse, hbounded, hroot,
    (Rw.built_iff hnumber).mpr htree.acyclic, fun _ _ h => Rw.exactIndex_of_built hwf hnumber h⟩

/-- **Both commands resolve a path alike** exactly if what it leads to is spelled as in the index and has
no later record. -/
theorem LoadedTree.resolve_iff (h : LoadedTree H z image loaded rootInode) {fuel : Nat}
    {index : PathMap Nat} (hindex : Rw.buildPathIndex H loaded.blob fuel = some index) :
    (index.lookup (normalised path)).bind (lastInode loaded.blob)
        = resolvePath H loaded.blob rootInode path ↔
      ∀ number target, Leads H loaded.blob loaded.rootInodeNumber path number →
        loaded.blob.inodeByNumber number = some target →
        Spelled path ∧ lastInode loaded.blob number = some target := by
  have hresolve := fun target => @resolvePath_eq_some H loaded.blob loaded.rootInodeNumber h.wellFormed
    h.parsed rootInode h.root path target
  have hlookup := fun number => @lookup_normalised H loaded.blob loaded.rootInodeNumber h.wellFormed index
    (h.exactIndex fuel index hindex) path number
  constructor
  · intro hsame number target hleads hfound
    have hcat := (hresolve target).mpr ⟨number, hleads, hfound⟩
    rw [← hsame, Option.bind_eq_some_iff] at hcat
    obtain ⟨number', hnumber', hlast⟩ := hcat
    obtain ⟨hspelled, hleads'⟩ := (hlookup number').mp hnumber'
    rw [hleads'.unique h.wellFormed hleads] at hlast
    exact ⟨hspelled, hlast⟩
  · intro hall
    refine Option.ext fun target => ?_
    rw [hresolve, Option.bind_eq_some_iff]
    constructor
    · rintro ⟨number, hnumber, hlast⟩
      obtain ⟨-, hleads⟩ := (hlookup number).mp hnumber
      have hsome : (loaded.blob.inodeByNumber number).isSome := by
        rw [← lastInode_isSome, hlast]
        rfl
      obtain ⟨first, hfirst⟩ := Option.isSome_iff_exists.mp hsome
      have hsame := (hall number first hleads hfirst).2
      rw [hlast] at hsame
      exact ⟨number, hleads, hsame ▸ hfirst⟩
    · rintro ⟨number, hleads, hfound⟩
      obtain ⟨hspelled, hlast⟩ := hall number target hleads hfound
      exact ⟨number, (hlookup number).mpr ⟨hspelled, hleads⟩, hlast⟩

/-- Where the commands agree, what `cat` prints of a file stands in its section. -/
theorem LoadedTree.sectionBody_of_printed (h : LoadedTree H z image loaded rootInode)
    (hload : loadImage z image = .ok loaded) (hagree : CatsAgree H z image loaded bases path)
    {target : Inode} {stores : List SlabStore}
    (htarget : resolvePath H loaded.blob rootInode path = some target)
    (hfile : debugOther target.contentHandle = none)
    (hchain : loadSlabChain z image loaded bases = .ok stores) {body : Bytes}
    (hprinted : printed target (chainSource z stores) [] = some (.ok body)) :
    sectionBody (chainSource z stores) path target = .ok body := by
  have hcat := cat_eq_printed hload h.root htarget hfile hchain
  obtain ⟨fuel, hmulti⟩ := (hagree.same body).mp (hcat.trans hprinted)
  obtain ⟨index, stores', target', hindex, hchain', htarget', hbody⟩ := (catMulti_single hload).mp hmulti
  rw [hagree.resolve fuel index rootInode hindex h.root, htarget] at htarget'
  rw [hchain] at hchain'
  cases htarget'
  cases hchain'
  exact hbody

theorem LoadedTree.alike_of_agree (h : LoadedTree H z image loaded rootInode)
    (hload : loadImage z image = .ok loaded) (hagree : CatsAgree H z image loaded bases path) :
    CatsAlike H z image loaded bases path := by
  obtain ⟨fuel, index, hindex⟩ := h.indexed
  have hsame := hagree.resolve fuel index rootInode hindex h.root
  refine ⟨(h.resolve_iff hindex).mp hsame, fun number target map stores hleads hfound hmap hchain => ?_⟩
  have htarget : resolvePath H loaded.blob rootInode path = some target :=
    (resolvePath_eq_some h.wellFormed h.parsed h.root).mpr ⟨number, hleads, hfound⟩
  have hfile : debugOther target.contentHandle = none := debugOther_eq_none.mpr (Or.inr ⟨map, hmap⟩)
  have hbounded := h.bounded target (inodeByNumber_mem hfound).1
  have hcat := cat_eq_printed hload h.root htarget hfile hchain
  have hbody : ∀ {body}, printed target (chainSource z stores) [] = some (.ok body) →
      sectionBody (chainSource z stores) path target = .ok body :=
    fun hprinted => h.sectionBody_of_printed hload hagree htarget hfile hchain hprinted
  refine ⟨fun hnone hnil => ?_, fun store hsource hread => ?_, fun store hsource hread => ?_⟩
  · have hprinted : printed target (chainSource z stores) [] = some (.ok []) :=
      catLoop_done (by rw [fileLen_slices hmap, hnil]; exact Nat.le_refl _)
    have hmulti := hbody hprinted
    unfold sectionBody at hmulti
    rw [hmap, hnone] at hmulti
    cases hmulti
  · obtain ⟨body, hprinted, -⟩ : ∃ p, printed target (some store) [] = some (.ok p) ∧
        p.length ≤ target.fileLen :=
      printed_readable hmap (fileLen_lt hbounded hmap) hread (Nat.zero_le _)
    rw [← hsource] at hprinted
    have hmulti := hbody hprinted
    rw [hsource] at hmulti
    obtain ⟨-, rfl⟩ := (sectionBody_slices hmap).mp hmulti
    exact honours_iff.mp (hagree.honours rootInode target map stores store _ h.root htarget hmap hchain
      hsource (hcat.trans hprinted))
  · rw [← printed_fails_iff hmap (fileLen_lt hbounded hmap) (slices_le_fileLen hmap) hread, ← hsource]
    rcases hprinted : printed target (chainSource z stores) [] with _ | e | body
    · exact absurd (hcat.trans hprinted) hagree.returns.1
    · exact ⟨e, rfl⟩
    · have hmulti := hbody hprinted
      rw [hsource] at hmulti
      exact absurd ((sectionBody_slices hmap).mp hmulti).1 hread

/-- What is printed of the file that the path leads to, where slices are alike. -/
theorem LoadedTree.prints (h : LoadedTree H z image loaded rootInode)
    (halike : CatsAlike H z image loaded bases path) {target : Inode} {stores : List SlabStore}
    (htarget : resolvePath H loaded.blob rootInode path = some target)
    (hfile : debugOther target.contentHandle = none)
    (hchain : loadSlabChain z image loaded bases = .ok stores) :
    ∃ r, printed target (chainSource z stores) [] = some r ∧
      (∀ body, r = .ok body ↔ sectionBody (chainSource z stores) path target = .ok body) ∧
      ∀ map store body, target.contentHandle = .sliceMap map → chainSource z stores = some store →
        r = .ok body → Honours store map.slices body := by
  obtain ⟨number, hleads, hfound⟩ :=
    (resolvePath_eq_some h.wellFormed h.parsed h.root).mp htarget
  exact printed_alike (h.bounded target (inodeByNumber_mem hfound).1) hfile fun map hmap =>
    halike.slices number target map stores hleads hfound hmap hchain

theorem LoadedTree.agree_of_alike (h : LoadedTree H z image loaded rootInode)
    (hload : loadImage z image = .ok loaded) (halike : CatsAlike H z image loaded bases path) :
    CatsAgree H z image loaded bases path := by
  obtain ⟨fuel, index, hindex⟩ := h.indexed
  have hsame : ∀ fuel index, Rw.buildPathIndex H loaded.blob fuel = some index →
      (index.lookup (normalised path)).bind (lastInode loaded.blob)
        = resolvePath H loaded.blob rootInode path := fun fuel index hindex =>
    (h.resolve_iff hindex).mpr halike.spelled
  refine ⟨⟨?_, fuel, ?_⟩, ?_, ?_, ?_⟩
  · rcases cat_loaded hload h.root with ⟨target, stores, htarget, hfile, hchain, hcat⟩ | ⟨⟨e, herror⟩, -⟩
    · obtain ⟨r, hr, -⟩ := h.prints halike htarget hfile hchain
      simp [hcat, hr]
    · simp [herror]
  · unfold catMulti
    rw [hload]
    simp [hindex]
  · intro fuel index rootInode' hindex hroot
    rw [h.root] at hroot
    cases hroot
    exact hsame fuel index hindex
  · intro body
    constructor
    · intro hprinted
      rcases cat_loaded hload h.root with ⟨target, stores, htarget, hfile, hchain, hcat⟩ | ⟨⟨e, herror⟩, -⟩
      swap
      · rw [herror] at hprinted
        cases hprinted
      obtain ⟨r, hr, hbody, -⟩ := h.prints halike htarget hfile hchain
      rw [hcat, hr] at hprinted
      exact ⟨fuel, (catMulti_single hload).mpr ⟨index, stores, target, hindex, hchain,
        (hsame fuel index hindex).trans htarget, (hbody body).mp (Option.some.inj hprinted)⟩⟩
    · rintro ⟨fuel', hmulti⟩
      obtain ⟨index', stores, target, hindex', hchain, htarget, hbody⟩ :=
        (catMulti_single hload).mp hmulti
      rw [hsame fuel' index' hindex'] at htarget
      have hfile := debugOther_of_sectionBody hbody
      obtain ⟨r, hr, hsection, -⟩ := h.prints halike htarget hfile hchain
      rw [cat_eq_printed hload h.root htarget hfile hchain, hr, (hsection body).mpr hbody]
  · intro rootInode' target map stores store body hroot htarget hmap hchain hsource hcat
    rw [h.root] at hroot
    cases hroot
    have hfile : debugOther target.contentHandle = none :=
      debugOther_eq_none.mpr (Or.inr ⟨map, hmap⟩)
    obtain ⟨r, hr, -, hhonours⟩ := h.prints halike htarget hfile hchain
    rw [cat_eq_printed hload h.root htarget hfile hchain, hr] at hcat
    exact hhonours map store body hmap hsource (Option.some.inj hcat)

/-- **The commands agree exactly where the path and the slices are alike for both.**  For an image whose
directories are a tree, any bases and any path: if the path leads to a record it is spelled as in the
index and the number has no other last record; and of a file in slices whose drops can be read every
drop is as long as its slice and taken whole (one may be shorter if all behind it are empty), while a
drop that cannot be read has no gap of a window's length before it.
-/
theorem cats_agree_iff (H : Hash) (z : Omnizip) (image : ImageFile) (bases : List ImageFile)
    (path : Bytes) (loaded : LoadedImage) (hload : loadImage z image = .ok loaded)
    (htree : Rw.DirTree H loaded.blob loaded.rootInodeNumber) :
    CatsAgree H z image loaded bases path ↔ CatsAlike H z image loaded bases path := by
  obtain ⟨rootInode, h⟩ := loadedTree hload htree
  exact ⟨h.alike_of_agree hload, h.agree_of_alike hload⟩

end

/-! ### A slice inside its drop -/

namespace Stored

open LimniFS.Stored

def slicedEntries : List DirEntry := [⟨ascii "a", 2, EntryType.file⟩]

def slicedRoot : Inode :=
  { rootInode with contentHandle := .directory (dirNodeHash foldDigest slicedEntries) }

def slicedMap : SliceMap := ⟨[⟨0, 1, digest (ascii "drop"), 1, 1, by decide⟩], rfl⟩

/-- A file of one byte, the second of its drop. -/
def slicedFile : Inode := ⟨2, 0x81A4, 0, 0, 0, 0, 1, none, [], .sliceMap slicedMap⟩

def slicedBlob : MetadataBlob := ⟨[slicedRoot, slicedFile], [⟨1, slicedEntries⟩]⟩

def slicedBlobBytes : Bytes :=
  leBytes 4 2 ++ (inodeHeadBytes slicedRoot ++ (dirNodeHash foldDigest slicedEntries).val)
    ++ (inodeHeadBytes slicedFile ++ leBytes 4 1 ++ leBytes 8 0 ++ leBytes 8 1
      ++ (digest (ascii "drop")).val ++ leBytes 4 1 ++ leBytes 4 1)
    ++ leBytes 4 1 ++ dirNodeBytes slicedEntries

/-- A slab with one drop of two bytes. -/
def slicedView : SlabView :=
  let drop := { sharedDrop with plaintextLen := 2, lenInWindow := 2 }
  let header := { sharedHeader with totalLength := 108 }
  ⟨slabBytes header [drop] [1, 2], header, [drop], 106⟩

def slicedImage : ImageFile :=
  ⟨inlineFront slicedBlobBytes ++ slabIndexBytes (flatIndex [0]), fun name =>
    if name = ascii "slab-0" then some slicedView.bytes else none⟩

def slicedLoaded : LoadedImage := ⟨slicedBlob, 1, flatIndex [0], none⟩

def slicedStore : SlabStore := ⟨[slicedView], fun _ => none⟩

end Stored

open LimniFS.Stored LimniFS.Cat.Stored

theorem loadImage_sliced (z : Omnizip) : loadImage z slicedImage = .ok slicedLoaded := by
  obtain ⟨front, hinline, hfront⟩ := @parseManifestFront_inlineFront z slicedBlobBytes
    (by decide +kernel) (by decide +kernel)
  have hindex : parseSlabIndex (slabIndexBytes (flatIndex [0]))
      = (.ok (flatIndex [0]), []) := by decide +kernel
  exact loadImage_eq_ok.mpr ⟨front, _, slicedBlobBytes, [], [], hfront _,
    by rw [metadataBytes, hinline], by decide +kernel, hindex, by decide +kernel, by decide +kernel,
    by decide +kernel⟩

theorem loadSlabChain_sliced (z : Omnizip) :
    loadSlabChain z slicedImage slicedLoaded [] = .ok [slicedStore] := by
  have hparse : parseSlab slicedView.bytes = .ok slicedView :=
    parseSlab_slabBytes ⟨by decide, by decide, by decide, by decide, by decide⟩
      (fun r hr => by
        rw [List.mem_singleton.mp hr]
        exact ⟨by decide, Or.inr rfl, Or.inr rfl, by decide⟩) rfl rfl
  have hload : SlabStore.load slicedImage.dir (flatIndex [0])
      = .ok slicedStore := by
    refine load_eq_ok.mpr ⟨[ascii "slab-0"], _, by decide +kernel, ?_, rfl⟩
    rw [mapM_some_iff]
    refine .cons ?_ .nil
    have hdir : slicedImage.dir (ascii "slab-0") = some slicedView.bytes := by
      simp only [slicedImage, if_true]
    unfold slabNamed
    rw [hdir, Option.bind_some, hparse]
    rfl
  have hstore : loadStore slicedImage.dir slicedLoaded.slabIndex
      slicedLoaded.dictSection = .ok slicedStore := by
    unfold loadStore
    rw [show slicedLoaded.slabIndex = flatIndex [0] from rfl, hload]
    rfl
  unfold loadSlabChain
  rw [if_neg (by decide), hstore]
  rfl

theorem dirTree_sliced : Rw.DirTree foldDigest slicedBlob 1 := by
  have hroot : Rw.dirEntries foldDigest slicedBlob 1 = slicedEntries := by
    decide +kernel
  have hfile : Rw.dirEntries foldDigest slicedBlob 2 = [] := by decide +kernel
  -- the root is at the empty path, and everything else is the file
  have hat : ∀ {p number}, Rw.EntryAt foldDigest slicedBlob 1 p number →
      p = [] ∧ number = 1 ∨ number = 2 := by
    intro p number h
    induction h with
    | root => exact Or.inl ⟨rfl, rfl⟩
    | entry dir listed ih =>
        rcases ih with ⟨-, rfl⟩ | rfl
        · rw [hroot, slicedEntries, List.mem_singleton] at listed
          exact Or.inr (by rw [listed])
        · rw [hfile] at listed
          exact absurd listed List.not_mem_nil
  intro p q number hp hq hne
  rcases hat hp with ⟨rfl, rfl⟩ | rfl
  · rcases hat hq with ⟨rfl, -⟩ | hnumber
    · rfl
    · exact absurd hnumber (by decide)
  · exact absurd hfile hne

/-- **A slice that starts inside its drop**: one command prints the drop's first byte, the other both, and
the file is the second. -/
theorem slice_inside_drop_disagrees :
    loadImage omnizip slicedImage = .ok slicedLoaded ∧
      Rw.DirTree foldDigest slicedLoaded.blob
        slicedLoaded.rootInodeNumber ∧
      cat foldDigest omnizip slicedImage (ascii "a") none none []
        = some (.ok [1]) ∧
      (∃ fuel, catMulti foldDigest omnizip fuel slicedImage
        [ascii "a"] [] = some (.ok (sectionText (ascii "a") [1, 2]))) ∧
      ¬ CatsAgree foldDigest omnizip slicedImage
        slicedLoaded [] (ascii "a") := by
  have hload := loadImage_sliced omnizip
  have hroot : slicedLoaded.blob.inodeByNumber slicedLoaded.rootInodeNumber
      = some slicedRoot := by decide +kernel
  have hchain := loadSlabChain_sliced omnizip
  have hsource := @chainSource_singleton omnizip slicedStore
  have htarget : resolvePath foldDigest slicedLoaded.blob slicedRoot
      (ascii "a") = some slicedFile := by decide +kernel
  have hwindow : readWindowInto slicedFile
      (some (slicedStore.plaintextFor omnizip)) 0 1 = some (.ok [1]) := by
    decide +kernel
  have hcat : cat foldDigest omnizip slicedImage (ascii "a") none
      none [] = some (.ok [1]) := by
    rw [cat_eq_printed hload hroot htarget rfl hchain, hsource, printed,
      catLoop_ok (by decide) hwindow, if_neg (by decide), catLoop_done (by decide)]
    rfl
  have hbody : sectionBody (chainSource omnizip [slicedStore]) (ascii "a")
      slicedFile = .ok [1, 2] := by
    rw [hsource]
    decide +kernel
  have hindex : ((Rw.buildPathIndex foldDigest slicedLoaded.blob 2).bind
      fun index => (index.lookup (normalised (ascii "a"))).bind (lastInode slicedLoaded.blob))
        = some slicedFile := by decide +kernel
  obtain ⟨index, hbuilt, hlast⟩ := Option.bind_eq_some_iff.mp hindex
  refine ⟨hload, dirTree_sliced, hcat, ⟨2, (catMulti_single hload).mpr ⟨index, _, _, hbuilt, hchain,
    hlast, hbody⟩⟩, fun hagree => ?_⟩
  have hranges := (hagree.honours slicedRoot slicedFile slicedMap _ _ [1] hroot htarget
    rfl hchain hsource hcat).ranges
  exact absurd hranges (by decide +kernel)

theorem cats_agree_iff_sliced :
    CatsAgree foldDigest omnizip slicedImage slicedLoaded []
        (ascii "a") ↔
      CatsAlike foldDigest omnizip slicedImage slicedLoaded
        [] (ascii "a") :=
  cats_agree_iff _ _ _ _ _ _ (loadImage_sliced _) dirTree_sliced

end LimniFS.Cat
