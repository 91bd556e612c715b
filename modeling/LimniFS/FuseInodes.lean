/-
The numbers the kernel knows, and what they stand for.

Lookups and listings hand out the inode numbers of the image unchanged, and the number
1 that comes back is taken for the root.  An object numbered 1 that is not the root is
therefore out of reach: what the kernel asks of it is answered by the root.  Images
written from a stream number their root after their files, so they have such an object
whenever they are not empty.

`Handed` is every number the kernel can come by, with the object it was given for;
`mapping_faithful_iff` says when the numbers lead back.
-/
import LimniFS.DeltaTrees

namespace LimniFS.FuseVfs

open Lib Lib.Parser DeltaBuilder

/-! ### What the kernel can know -/

section
variable (H : Hash) (vfs : Vfs)

/-- The inode at a path of the image. -/
def resolvePath (path : Path) : Option Inode :=
  (vfs.metadataBlob.inodeByNumber vfs.rootInodeNumber).bind fun root =>
    resolve H vfs.metadataBlob root path

/-- The numbers handed to the kernel, each with the number of the object it was handed for.
The entries `.` and `..` of a listing repeat the number the kernel asked with. -/
inductive Handed : Nat → Nat → Prop where
  | root : Handed fuseRoot vfs.rootInodeNumber
  | lookup {parent object : Nat} {name : Bytes} {child : Nat} {attr : FileAttr} :
      Handed parent object → vfs.lookup H (mapInode vfs parent) name = some child →
      FuseVfs.lookup H vfs parent name = some attr → Handed attr.ino child
  | readdir {ino object : Nat} {fits : ReplyBuffer} {offset : Nat} {entry : ReplyEntry}
      {child : Nat} : Handed ino object → entry ∈ FuseVfs.readdir H vfs fits ino offset →
      2 < entry.cookie → vfs.lookup H (mapInode vfs ino) entry.name = some child →
      (vfs.metadataBlob.inodeByNumber child).isSome = true → Handed entry.ino child
  | getattr {ino object : Nat} {attr : FileAttr} : Handed ino object →
      FuseVfs.getattr vfs ino = some attr → Handed attr.ino (mapInode vfs ino)

/-- The number a chain of lookups ends at. -/
def lookupPath : Nat → Path → Option Nat
  | ino, [] => some ino
  | ino, name :: rest => (FuseVfs.lookup H vfs ino name).bind fun attr => lookupPath attr.ino rest

/-- Every number leads back to its object, no number stands for two, only the root is the
kernel's root, and chains of lookups end where paths do. -/
structure MappingFaithful : Prop where
  back : ∀ ino object, Handed H vfs ino object → mapInode vfs ino = object
  distinct : ∀ ino object object', Handed H vfs ino object → Handed H vfs ino object' →
    object = object'
  rootOnly : ∀ object, Handed H vfs fuseRoot object → object = vfs.rootInodeNumber
  paths : ∀ path, ((lookupPath H vfs fuseRoot path).bind fun ino =>
    vfs.metadataBlob.inodeByNumber (mapInode vfs ino)) = resolvePath H vfs path

/-- No object but the root has the number the kernel keeps for the root. -/
def OneIsRoot : Prop :=
  ∀ path inode, resolvePath H vfs path = some inode → inode.number = fuseRoot →
    vfs.rootInodeNumber = fuseRoot

end

/-! ### Lookups -/

section
variable {H : Hash} {vfs : Vfs}

theorem lookup_eq_entryOf {ino : Nat} {inode : Inode}
    (h : vfs.metadataBlob.inodeByNumber ino = some inode) (name : Bytes) :
    vfs.lookup H ino name = (entryOf H vfs.metadataBlob inode name).map DirEntry.inodeNumber := by
  unfold Vfs.lookup Vfs.dirNode entryOf
  rw [h]
  cases hc : inode.contentHandle with
  | directory hash =>
      cases hnode : vfs.metadataBlob.dirNodeByHash H hash with
      | none => simp [hc, hnode]
      | some node => simp [hc, hnode]
  | _ => simp [hc]

theorem children_eq_entriesOf {ino : Nat} {inode : Inode}
    (h : vfs.metadataBlob.inodeByNumber (mapInode vfs ino) = some inode) :
    children H vfs ino = entriesOf H vfs.metadataBlob inode := by
  unfold children Vfs.dirNode entriesOf
  rw [h]
  cases hc : inode.contentHandle with
  | directory hash =>
      cases hnode : vfs.metadataBlob.dirNodeByHash H hash with
      | none => simp [hc, hnode]
      | some node => simp [hc, hnode]
  | _ => simp [hc]

theorem inode_of_lookup {ino child : Nat} {name : Bytes} (h : vfs.lookup H ino name = some child) :
    ∃ inode, vfs.metadataBlob.inodeByNumber ino = some inode := by
  cases hino : vfs.metadataBlob.inodeByNumber ino with
  | none =>
      unfold Vfs.lookup Vfs.dirNode at h
      rw [hino] at h
      cases h
  | some inode => exact ⟨inode, rfl⟩

theorem lookup_some {parent : Nat} {name : Bytes} {attr : FileAttr}
    (h : FuseVfs.lookup H vfs parent name = some attr) :
    ∃ inode, vfs.lookup H (mapInode vfs parent) name = some attr.ino ∧
      vfs.metadataBlob.inodeByNumber attr.ino = some inode := by
  unfold FuseVfs.lookup at h
  split at h
  · obtain ⟨child, hchild, h⟩ := Option.bind_eq_some_iff.mp h
    obtain ⟨a, ha, rfl⟩ := Option.map_eq_some_iff.mp h
    obtain ⟨inode, hinode, -⟩ := Option.map_eq_some_iff.mp ha
    exact ⟨inode, hchild, hinode⟩
  · cases h

theorem inodeByNumber_of_resolvePath : ∀ {path : Path} {inode : Inode},
    resolvePath H vfs path = some inode →
      vfs.metadataBlob.inodeByNumber inode.number = some inode := by
  have hfound : ∀ {number : Nat} {inode : Inode},
      vfs.metadataBlob.inodeByNumber number = some inode →
        vfs.metadataBlob.inodeByNumber inode.number = some inode := by
    intro number inode h
    rw [(inodeByNumber_mem h).2, h]
  intro path inode h
  obtain ⟨root, hroot, h⟩ := Option.bind_eq_some_iff.mp h
  rcases List.eq_nil_or_concat path with rfl | ⟨init, name, rfl⟩
  · cases h
    exact hfound hroot
  · rw [List.concat_eq_append, resolve_append] at h
    obtain ⟨mid, -, h⟩ := Option.bind_eq_some_iff.mp h
    rw [resolve_cons] at h
    obtain ⟨next, hnext, h⟩ := Option.bind_eq_some_iff.mp h
    cases h
    obtain ⟨e, -, he⟩ := Option.bind_eq_some_iff.mp hnext
    exact hfound he

theorem resolvePath_snoc {path : Path} {inode : Inode} (h : resolvePath H vfs path = some inode)
    (name : Bytes) : resolvePath H vfs (path ++ [name]) =
      (vfs.lookup H inode.number name).bind vfs.metadataBlob.inodeByNumber := by
  rw [lookup_eq_entryOf (inodeByNumber_of_resolvePath h)]
  unfold resolvePath at h ⊢
  obtain ⟨root, hroot, h⟩ := Option.bind_eq_some_iff.mp h
  rw [hroot, Option.bind_some, resolve_append, h, Option.bind_some, resolve_cons]
  cases entryOf H vfs.metadataBlob inode name with
  | none => rfl
  | some e => simp [resolve]

/-- What opening an image has checked. -/
structure Opened (vfs : Vfs) : Prop where
  wellFormed : vfs.metadataBlob.WellFormed
  root : ∃ inode, vfs.metadataBlob.inodeByNumber vfs.rootInodeNumber = some inode

theorem opened_of_fromBytes {z : Omnizip} {bytes : Bytes} {dir : Directory}
    (h : Vfs.fromBytes z bytes dir = .ok vfs) : Opened vfs := by
  unfold Vfs.fromBytes at h
  simp only [except_bind_eq_ok, run_eq_ok, Prod.exists] at h
  obtain ⟨front, _, _, h⟩ := h
  split at h
  · cases h
  · simp only [except_bind_eq_ok, run_eq_ok, Prod.exists] at h
    obtain ⟨blob, _, hblob, _, _, _, h⟩ := h
    split at h
    · cases h
    · next root hroot =>
        obtain ⟨store, -, h⟩ := except_bind_eq_ok.mp h
        cases h
        exact ⟨parseMetadataBlob_wellFormed hblob, inode_of_root hroot⟩

theorem resolvePath_nil (h : Opened vfs) : ∃ inode, resolvePath H vfs [] = some inode ∧
    inode.number = vfs.rootInodeNumber := by
  obtain ⟨inode, hroot⟩ := h.root
  refine ⟨inode, ?_, (inodeByNumber_mem hroot).2⟩
  unfold resolvePath
  rw [hroot]
  rfl

theorem child_of_readdir (hwf : vfs.metadataBlob.WellFormed) {fits : ReplyBuffer} {ino offset : Nat}
    {entry : ReplyEntry} {child : Nat} (h : entry ∈ FuseVfs.readdir H vfs fits ino offset)
    (hcookie : 2 < entry.cookie)
    (hchild : vfs.lookup H (mapInode vfs ino) entry.name = some child) : entry.ino = child := by
  obtain ⟨inode, hinode⟩ := inode_of_lookup hchild
  rw [readdir_eq_fill] at h
  obtain ⟨m, -, hfill⟩ := fill_eq_take fits (offered H vfs ino offset) []
  rw [hfill, List.nil_append] at h
  have hmem := List.mem_of_mem_take h
  unfold offered at hmem
  rcases List.mem_append.mp hmem with hdots | hin
  · -- `.` and `..` have the cookies 1 and 2
    exfalso
    rcases List.mem_append.mp hdots with hdot | hdot
    · split at hdot
      · rw [List.mem_singleton.mp hdot] at hcookie
        exact absurd hcookie (Nat.not_lt_of_le (by simp))
      · cases hdot
    · split at hdot
      · rw [List.mem_singleton.mp hdot] at hcookie
        exact absurd hcookie (Nat.not_lt_of_le (by simp))
      · cases hdot
  · obtain ⟨e, he, hino, hname⟩ : ∃ e ∈ children H vfs ino, entry.ino = e.inodeNumber ∧
        entry.name = e.name := by
      obtain ⟨i, hi, hentry⟩ := List.mem_mapIdx.mp hin
      exact ⟨_, List.mem_of_mem_drop (List.getElem_mem hi), hentry ▸ rfl, hentry ▸ rfl⟩
    rw [children_eq_entriesOf hinode] at he
    rw [lookup_eq_entryOf hinode, hname, entryOf_of_mem hwf he] at hchild
    exact hino.trans (Option.some.inj hchild)

/-! ### The numbers lead back -/

theorem mapInode_of_one (h : OneIsRoot H vfs) {path : Path} {inode : Inode}
    (hpath : resolvePath H vfs path = some inode) : mapInode vfs inode.number = inode.number := by
  unfold mapInode
  by_cases hone : inode.number = fuseRoot
  · rw [if_pos hone, h path inode hpath hone, hone]
  · rw [if_neg hone]

theorem handed_back (hopen : Opened vfs) (h : OneIsRoot H vfs) {ino object : Nat}
    (hhanded : Handed H vfs ino object) : mapInode vfs ino = object ∧
      ∃ path inode, resolvePath H vfs path = some inode ∧ inode.number = object := by
  induction hhanded with
  | root =>
      obtain ⟨inode, hroot, hnumber⟩ := resolvePath_nil (H := H) hopen
      exact ⟨if_pos rfl, [], inode, hroot, hnumber⟩
  | lookup _ hchild hlookup ih =>
      obtain ⟨hback, path, inode, hpath, rfl⟩ := ih
      obtain ⟨next, hino, hnext⟩ := lookup_some hlookup
      obtain rfl := Option.some.inj (hchild.symm.trans hino)
      have hat := resolvePath_snoc hpath ‹_›
      rw [← hback, hchild, Option.bind_some, hnext] at hat
      have hnumber := (inodeByNumber_mem hnext).2
      refine ⟨?_, _, next, hat, hnumber⟩
      rw [← hnumber]
      exact mapInode_of_one h hat
  | readdir _ hentry hcookie hchild hsome ih =>
      obtain ⟨hback, path, inode, hpath, rfl⟩ := ih
      obtain rfl := child_of_readdir hopen.wellFormed hentry hcookie hchild
      obtain ⟨next, hnext⟩ := Option.isSome_iff_exists.mp hsome
      have hat := resolvePath_snoc hpath ‹ReplyEntry›.name
      rw [← hback, hchild, Option.bind_some, hnext] at hat
      have hnumber := (inodeByNumber_mem hnext).2
      refine ⟨?_, _, next, hat, hnumber⟩
      rw [← hnumber]
      exact mapInode_of_one h hat
  | getattr _ hattr ih =>
      obtain ⟨hback, path, inode, hpath, rfl⟩ := ih
      obtain ⟨a, -, rfl⟩ := Option.map_eq_some_iff.mp hattr
      refine ⟨?_, path, inode, hpath, hback.symm⟩
      show mapInode vfs (mapInode vfs _) = mapInode vfs _
      rw [hback]
      exact mapInode_of_one h hpath

/-- A child that is there is looked up under its number, if its name is text. -/
theorem lookup_child (hwf : vfs.metadataBlob.WellFormed) {ino child : Nat} {name : Bytes}
    {next : Inode} (hchild : vfs.lookup H (mapInode vfs ino) name = some child)
    (hnext : vfs.metadataBlob.inodeByNumber child = some next) :
    FuseVfs.lookup H vfs ino name = some (makeAttr child (vfsAttr child next)) := by
  have htext : utf8Valid name = true := by
    obtain ⟨inode, hinode⟩ := inode_of_lookup hchild
    rw [lookup_eq_entryOf hinode] at hchild
    obtain ⟨e, hentry, -⟩ := Option.map_eq_some_iff.mp hchild
    obtain ⟨hmem, rfl⟩ := entryOf_some hentry
    exact (namesOK_entriesOf hwf inode).text e hmem
  unfold FuseVfs.lookup Vfs.getattr
  rw [if_pos htext, hchild, Option.bind_some, hnext]
  rfl

theorem lookupPath_eq (hopen : Opened vfs) (h : OneIsRoot H vfs) : ∀ (rest path : Path) (ino : Nat)
    (inode : Inode), resolvePath H vfs path = some inode → mapInode vfs ino = inode.number →
    ((lookupPath H vfs ino rest).bind fun ino =>
      vfs.metadataBlob.inodeByNumber (mapInode vfs ino)) = resolvePath H vfs (path ++ rest) := by
  intro rest
  induction rest with
  | nil =>
      intro path ino inode hpath hino
      rw [lookupPath, Option.bind_some, hino, inodeByNumber_of_resolvePath hpath, List.append_nil,
        hpath]
  | cons name rest ih =>
      intro path ino inode hpath hino
      have hat := resolvePath_snoc hpath name
      rw [← hino] at hat
      rw [lookupPath, ← List.singleton_append, ← List.append_assoc]
      have hdead : resolvePath H vfs (path ++ [name]) = none →
          resolvePath H vfs (path ++ [name] ++ rest) = none := by
        intro hnone
        unfold resolvePath at hnone ⊢
        cases hroot : vfs.metadataBlob.inodeByNumber vfs.rootInodeNumber with
        | none => rfl
        | some root =>
            rw [hroot, Option.bind_some] at hnone
            rw [Option.bind_some, resolve_append, hnone]
            rfl
      cases hchild : vfs.lookup H (mapInode vfs ino) name with
      | none =>
          rw [hchild] at hat
          rw [hdead hat]
          have hlookup : FuseVfs.lookup H vfs ino name = none := by
            simp [FuseVfs.lookup, hchild]
          rw [hlookup]
          rfl
      | some child =>
          rw [hchild, Option.bind_some] at hat
          cases hnext : vfs.metadataBlob.inodeByNumber child with
          | none =>
              rw [hnext] at hat
              rw [hdead hat]
              have hlookup : FuseVfs.lookup H vfs ino name = none := by
                simp [FuseVfs.lookup, hchild, Vfs.getattr, hnext]
              rw [hlookup]
              rfl
          | some next =>
              rw [hnext] at hat
              have hnumber := (inodeByNumber_mem hnext).2
              rw [lookup_child hopen.wellFormed hchild hnext, Option.bind_some]
              refine ih _ _ next hat ?_
              show mapInode vfs child = next.number
              rw [← hnumber]
              exact mapInode_of_one h hat

/-! ### An object in the root's place -/

/-- Along a path the numbers lead back, unless the kernel's root was handed out for another
object. -/
theorem handed_along (hopen : Opened vfs) :
    ∀ (path : Path) (inode : Inode), resolvePath H vfs path = some inode →
      (∃ ino, Handed H vfs ino inode.number ∧ mapInode vfs ino = inode.number) ∨
        Handed H vfs fuseRoot fuseRoot := by
  intro path
  induction path using List.reverseRecOn with
  | nil =>
      intro inode hpath
      obtain ⟨root, hroot', hnumber⟩ := resolvePath_nil (H := H) hopen
      obtain rfl := Option.some.inj (hpath.symm.trans hroot')
      left
      rw [hnumber]
      exact ⟨fuseRoot, Handed.root, if_pos rfl⟩
  | append_singleton path name ih =>
      intro inode hpath
      obtain ⟨mid, hmid⟩ : ∃ mid, resolvePath H vfs path = some mid := by
        unfold resolvePath at hpath ⊢
        obtain ⟨root, hroot', hres⟩ := Option.bind_eq_some_iff.mp hpath
        rw [resolve_append] at hres
        obtain ⟨mid, hmid, -⟩ := Option.bind_eq_some_iff.mp hres
        exact ⟨mid, by rw [hroot', Option.bind_some, hmid]⟩
      rcases ih mid hmid with ⟨ino, hhanded, hback⟩ | hone
      · rw [resolvePath_snoc hmid, ← hback] at hpath
        obtain ⟨child, hchild, hnext⟩ := Option.bind_eq_some_iff.mp hpath
        obtain rfl := (inodeByNumber_mem hnext).2
        have hnew : Handed H vfs inode.number inode.number :=
          Handed.lookup hhanded hchild (lookup_child hopen.wellFormed hchild hnext)
        by_cases hone : inode.number = fuseRoot
        · right
          rw [hone] at hnew
          exact hnew
        · exact Or.inl ⟨inode.number, hnew, if_neg hone⟩
      · exact Or.inr hone

theorem handed_one (hopen : Opened vfs) (h : ¬ OneIsRoot H vfs) :
    vfs.rootInodeNumber ≠ fuseRoot ∧ Handed H vfs fuseRoot fuseRoot := by
  unfold OneIsRoot at h
  simp only [not_forall] at h
  obtain ⟨path, inode, hpath, hone, hroot⟩ := h
  refine ⟨hroot, ?_⟩
  rcases handed_along hopen path inode hpath with ⟨ino, hhanded, hback⟩ | hhanded
  · exfalso
    rw [hone] at hback
    unfold mapInode at hback
    by_cases hino : ino = fuseRoot
    · rw [if_pos hino] at hback
      exact hroot hback
    · rw [if_neg hino] at hback
      exact hino hback
  · exact hhanded

/-- **The mapping is faithful exactly when no object but the root has the number 1.** -/
theorem mapping_faithful_iff : ∀ (H : Hash) (z : Omnizip) (bytes : Bytes) (dir : Directory) (vfs : Vfs),
    Vfs.fromBytes z bytes dir = .ok vfs → (MappingFaithful H vfs ↔ OneIsRoot H vfs) := by
  intro H z bytes dir vfs hopen
  have hopened := opened_of_fromBytes hopen
  constructor
  · intro hfaithful
    by_contra hone
    obtain ⟨hroot, hhanded⟩ := handed_one hopened hone
    exact hroot (hfaithful.rootOnly fuseRoot hhanded).symm
  · intro hone
    refine ⟨fun ino object hh => (handed_back hopened hone hh).1, fun ino object object' hh hh' => ?_,
      fun object hh => ?_, fun path => ?_⟩
    · exact (handed_back hopened hone hh).1.symm.trans (handed_back hopened hone hh').1
    · exact (handed_back hopened hone hh).1.symm.trans (if_pos rfl)
    · obtain ⟨root, hroot, hnumber⟩ := resolvePath_nil (H := H) hopened
      exact lookupPath_eq hopened hone path [] fuseRoot root hroot ((if_pos rfl).trans hnumber.symm)

end

open LimniFS.FuseVfs.Stored

/-- The first file written from a stream has the number 1, and the root a later one. -/
theorem first_file_is_taken_for_root :
    openPaged = .ok pagedVfs ∧ pagedVfs.rootInodeNumber = 7 ∧
      (resolvePath LimniFS.Stored.foldDigest pagedVfs [ascii "a"]).map Inode.number = some 1 ∧
      (FuseVfs.lookup LimniFS.Stored.foldDigest pagedVfs fuseRoot (ascii "a")).map
        FileAttr.ino = some fuseRoot ∧
      mapInode pagedVfs fuseRoot = 7 ∧
      ¬ MappingFaithful LimniFS.Stored.foldDigest pagedVfs := by
  refine ⟨openPaged_eq, by decide +kernel, by decide +kernel, by decide +kernel,
    by decide +kernel, fun h => ?_⟩
  have hpath := h.paths [ascii "a"]
  exact absurd (congrArg (Option.map Inode.number) hpath) (by decide +kernel)

theorem mapping_faithful_iff_paged :
    openPaged = .ok pagedVfs ∧
      (MappingFaithful LimniFS.Stored.foldDigest pagedVfs ↔
        OneIsRoot LimniFS.Stored.foldDigest pagedVfs) :=
  ⟨openPaged_eq, mapping_faithful_iff _ _ _ _ _ openPaged_eq⟩

end LimniFS.FuseVfs
