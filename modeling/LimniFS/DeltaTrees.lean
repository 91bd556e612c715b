/-
The two images of a delta, and what an operation does to the parent's tree.

An image that is a tree has one root, and no path in it is longer than it has inodes,
so the walk over two trees ends.  The text of an operation is the path of its
difference, and its patch is what the child has there.

`diff_directory` goes down into every pair of directories that both images have under one
name, and remembers none of them.  A pair that is met again below itself is walked for
ever, and nothing but such a pair keeps the walk from ending.  Root detection does not
help: it only sees to it that no directory holds the root.
-/
import LimniFS.DeltaDifferences
import LimniFS.PathIndex

namespace LimniFS.DeltaBuilder

open Lib Lib.Parser

/-! ### Loaded images -/

section
variable {H : Hash} {z : Omnizip} {bytes : Bytes} {image : Loaded}

/-- The blob of a loaded image was parsed, and its root is there. -/
theorem loadImage_blob (h : loadImage H z bytes = .ok image) :
    (∃ blobBytes rest, parseMetadataBlob blobBytes = (.ok image.blob, rest)) ∧
      image.blob.rootInodeNumber = some image.rootNumber ∧
      ∃ root, image.blob.inodeByNumber image.rootNumber = some root := by
  unfold loadImage at h
  simp only [except_bind_eq_ok, run_eq_ok, Prod.exists] at h
  obtain ⟨_, _, _, _, _, _, ref, _, _, h⟩ := h
  split at h
  · cases h
  · next blobBytes _ =>
      simp only [except_bind_eq_ok, run_eq_ok, Prod.exists] at h
      obtain ⟨blob, rest, hblob, h⟩ := h
      split at h
      · cases h
      · next rootNumber hroot =>
          split at h
          · cases h
          · next hsome =>
              cases h
              exact ⟨⟨blobBytes, rest, hblob⟩, hroot,
                Option.ne_none_iff_exists'.mp (by simpa using hsome)⟩

theorem loadImage_wellFormed (h : loadImage H z bytes = .ok image) :
    image.blob.WellFormed ∧ image.blob.rootInodeNumber = some image.rootNumber := by
  obtain ⟨⟨_, _, hblob⟩, hroot, -⟩ := loadImage_blob h
  exact ⟨parseMetadataBlob_wellFormed hblob, hroot⟩

theorem IsTree.byNumber (htree : IsTree H image) {inode : Inode} (hmem : inode ∈ image.blob.inodes) :
    image.blob.inodeByNumber inode.number = some inode := by
  obtain ⟨path, root, hroot, hres⟩ := htree.reached inode hmem
  have hrootNumber : image.blob.inodeByNumber root.number = some root := by
    rw [(inodeByNumber_mem hroot).2]
    exact hroot
  clear hroot hmem
  induction path generalizing root with
  | nil =>
      cases hres
      exact hrootNumber
  | cons name path ih =>
      rw [resolve_cons] at hres
      obtain ⟨mid, hmid, hrest⟩ := Option.bind_eq_some_iff.mp hres
      obtain ⟨e, -, he⟩ := Option.bind_eq_some_iff.mp hmid
      refine ih mid hrest ?_
      rw [(inodeByNumber_mem he).2]
      exact he

theorem IsTree.root (htree : IsTree H image)
    (hroot : image.blob.rootInodeNumber = some image.rootNumber) :
    ∃ root, image.blob.inodeByNumber image.rootNumber = some root ∧ root ∈ image.blob.inodes ∧
      root.isDirectory = true := by
  obtain ⟨root, hroots, hnumber⟩ := rootInodeNumber_eq_some.mp hroot
  obtain ⟨hmem, hdir, -⟩ := mem_roots.mp (hroots ▸ List.mem_singleton_self root)
  rw [← hnumber]
  exact ⟨root, htree.byNumber hmem, hmem, hdir⟩

theorem IsTree.length_lt (htree : IsTree H image) {path : Path} {inode : Inode}
    (h : InodeAt H image path inode) : path.length < image.blob.inodes.length := by
  obtain ⟨root, hroot, hres⟩ := h
  have hrootMem := (inodeByNumber_mem hroot).1
  -- every beginning of the path is at an inode of its own
  have hprefix : ∀ k ≤ path.length, ∃ next, resolve H image.blob root (path.take k) = some next := by
    intro k _
    have happ : resolve H image.blob root (path.take k ++ path.drop k) = _ :=
      resolve_append root (path.take k) (path.drop k)
    rw [List.take_append_drop, hres] at happ
    obtain ⟨next, hnext, -⟩ := Option.bind_eq_some_iff.mp happ.symm
    exact ⟨next, hnext⟩
  let at_ : Nat → Inode := fun k => (resolve H image.blob root (path.take k)).getD root
  have hat : ∀ k ≤ path.length, resolve H image.blob root (path.take k) = some (at_ k) := by
    intro k hk
    obtain ⟨next, hnext⟩ := hprefix k hk
    simp [at_, hnext]
  have hnodup : ((List.range (path.length + 1)).map fun k => (at_ k).number).Nodup := by
    refine List.Nodup.map_on (fun i hi j hj heq => ?_) List.nodup_range
    have hi' := Nat.le_of_lt_succ (List.mem_range.mp hi)
    have hj' := Nat.le_of_lt_succ (List.mem_range.mp hj)
    have hsame := htree.once _ _ _ _ ⟨root, hroot, hat i hi'⟩ ⟨root, hroot, hat j hj'⟩ heq
    have hlen := congrArg List.length hsame
    simpa [Nat.min_eq_left hi', Nat.min_eq_left hj'] using hlen
  have hsubset : ((List.range (path.length + 1)).map fun k => (at_ k).number) ⊆
      image.blob.inodes.map Inode.number := by
    intro n hn
    obtain ⟨k, hk, rfl⟩ := List.mem_map.mp hn
    exact List.mem_map_of_mem
      (resolve_mem hrootMem (hat k (Nat.le_of_lt_succ (List.mem_range.mp hk))))
  have hle := (List.subperm_of_subset hnodup hsubset).length_le
  rw [List.length_map, List.length_range, List.length_map] at hle
  exact hle

end

/-! ### Texts of paths -/

theorem foldl_childPathOf {path : Path} (h : ∀ name ∈ path, PathText.IsName slash name) :
    path.foldl childPathOf [] = PathText.join slash path := by
  induction path using List.reverseRecOn with
  | nil => rfl
  | append_singleton init name ih =>
      have hinit : ∀ n ∈ init, PathText.IsName slash n :=
        fun n hn => h n (List.mem_append_left _ hn)
      rw [List.foldl_append, ih hinit, List.foldl_cons, List.foldl_nil, childPathOf]
      by_cases hnil : init = []
      · subst hnil
        rfl
      · have hne : PathText.join slash _ ≠ [] :=
          PathText.join_ne_nil hnil fun n hn => (hinit n hn).1
        rw [if_neg (by simpa using hne), PathText.join_append_name hnil]

section
variable {H : Hash} {blob : MetadataBlob}

theorem names_of_resolve (hwf : blob.WellFormed) {inode next : Inode} {path : Path}
    (h : resolve H blob inode path = some next) : ∀ name ∈ path, PathText.IsName slash name := by
  induction path generalizing inode with
  | nil => nofun
  | cons name path ih =>
      rw [resolve_cons] at h
      obtain ⟨mid, hmid, hrest⟩ := Option.bind_eq_some_iff.mp h
      obtain ⟨e, hentry, -⟩ := Option.bind_eq_some_iff.mp hmid
      obtain ⟨hmem, hname⟩ := entryOf_some hentry
      intro n hn
      rcases List.mem_cons.mp hn with rfl | hn
      · exact hname ▸ (namesOK_entriesOf (H := H) hwf inode).names e hmem
      · exact ih hrest n hn

end

section
variable {H : Hash} {parent child : MetadataBlob} (hp : parent.WellFormed) (hc : child.WellFormed)
include hp hc

theorem Difference.Sound.names {p c : Inode} {d : Difference} (h : d.Sound H parent child p c) :
    ∀ name ∈ d.path, PathText.IsName slash name := by
  unfold Difference.Sound at h
  split at h
  · obtain ⟨-, _, _, -, -, hres⟩ := h
    exact names_of_resolve hc hres
  · obtain ⟨⟨_, hres⟩, -, -⟩ := h
    exact names_of_resolve hp hres
  · obtain ⟨_, _, _, hres, -⟩ := h
    exact names_of_resolve hp hres

theorem Difference.Sound.op_path {p c : Inode} {d : Difference} (h : d.Sound H parent child p c) :
    (d.op []).path = PathText.join slash d.path ∧
      PathText.components slash (d.op []).path = d.path := by
  have hnames := h.names hp hc
  have htext : (d.op []).path = PathText.join slash d.path := foldl_childPathOf hnames
  exact ⟨htext, by rw [htext, PathText.components_join hnames]⟩

end

/-- The tree that an operation puts at its path is what the child has there. -/
theorem Difference.Sound.effect {H : Hash} {parent child : MetadataBlob} {p c : Inode}
    {d : Difference} (h : d.Sound H parent child p c) (store : SlabSource) (rest : Path) :
    ((d.op []).patch H child store).tree rest =
      (resolve H child c (d.path ++ rest)).map (contentOf store) := by
  rw [resolve_append]
  unfold Difference.Sound at h
  simp only [Difference.op, TreeOp.patch]
  split at h
  · obtain ⟨-, number, ci, hnum, hci, hres⟩ := h
    simp only [hnum, treeOf, hci, hres, Option.bind_some]
  · obtain ⟨-, hnum, hres⟩ := h
    simp only [hnum, hres, Option.bind_none, Option.map_none]
  · obtain ⟨_, number, ci, -, hnum, hci, hres, -⟩ := h
    simp only [hnum, treeOf, hci, hres, Option.bind_some]

/-! ### Contents -/

/-- The drops of two slice maps, in order. -/
def sameDrops (a b : SliceMap) : Prop := a.slices.map SliceRef.dropId = b.slices.map SliceRef.dropId

theorem zip_all_dropId : ∀ {a b : List SliceRef}, a.length = b.length →
    ((a.zip b).all fun (x, y) => x.dropId == y.dropId) =
      decide (a.map SliceRef.dropId = b.map SliceRef.dropId)
  | [], [], _ => rfl
  | x :: a, y :: b, h => by
      rw [List.zip_cons_cons, List.all_cons, zip_all_dropId (Nat.succ.inj h)]
      simp
      rfl

theorem inodesEqual_sliceMap {a b : Inode} {ma mb : SliceMap} (ha : a.contentHandle = .sliceMap ma)
    (hb : b.contentHandle = .sliceMap mb) (htype : a.fileType = b.fileType) :
    inodesEqual a b = true ↔ sameDrops ma mb := by
  unfold inodesEqual sameDrops
  rw [if_neg fun hne => hne htype, ha, hb]
  simp only
  by_cases hlen : ma.slices.length = mb.slices.length
  · rw [if_neg fun hne => hne hlen, zip_all_dropId hlen, decide_eq_true_iff]
  · rw [if_pos hlen]
    refine ⟨nofun, fun h => absurd ?_ hlen⟩
    simpa using congrArg List.length h

theorem contentOf_eq_of_inodesEqual {a b : Inode} (ha : a.KindFits) (hb : b.KindFits)
    (hdirs : (a.isDirectory && b.isDirectory) = false) (h : inodesEqual a b = true)
    (ps cs : SlabSource)
    (hslices : ∀ ma mb, a.contentHandle = .sliceMap ma → b.contentHandle = .sliceMap mb →
      sameDrops ma mb → contentOf ps a = contentOf cs b) : contentOf ps a = contentOf cs b := by
  have htype : a.fileType = b.fileType := by
    by_contra hne
    rw [inodesEqual, if_pos hne] at h
    cases h
  have hequal := h
  unfold inodesEqual at h
  rw [if_neg fun hne => hne htype] at h
  split at h
  · next da db hda hdb =>
      have heq : da = db := by simpa using h
      simp only [contentOf, hda, hdb, filePlaintext, heq]
  · next ma mb hma hmb =>
      exact hslices ma mb hma hmb ((inodesEqual_sliceMap hma hmb htype).mp hequal)
  · next hha hhb heqa heqb =>
      rw [ha.isDirectory_iff.mpr ⟨_, heqa⟩, hb.isDirectory_iff.mpr ⟨_, heqb⟩] at hdirs
      cases hdirs
  · next ta tb hta htb =>
      have heq : ta = tb := by simpa using h
      simp only [contentOf, hta, htb, heq]
  · next da db hda hdb =>
      have heq : da = db := by simpa using h
      simp only [contentOf, hda, hdb, htype, heq]
  · next pa pb hpa hpb => simp only [contentOf, hpa, hpb, htype]
  · cases h

theorem contentOf_directory {inode : Inode} (h : inode.KindFits) (store : SlabSource) :
    contentOf store inode = .directory ↔ inode.isDirectory = true := by
  rw [h.isDirectory_iff]
  unfold contentOf
  cases inode.contentHandle <;> simp

/-! ### The pairs the walk goes down to -/

section
variable (H : Hash) (parent child : MetadataBlob)

/-- The directories that both sides of a pair have under the name of an entry. -/
def commonDir (p : Inode) (e : DirEntry) : Option (Inode × Inode) :=
  (entryOf H parent p e.name).bind fun pe =>
    match parent.inodeByNumber pe.inodeNumber, child.inodeByNumber e.inodeNumber with
    | some pi, some ci => if pi.isDirectory && ci.isDirectory then some (pi, ci) else none
    | _, _ => none

/-- The pairs of directories that both sides of a pair have under one name. -/
def commonDirs (pair : Inode × Inode) : List (Inode × Inode) :=
  (entriesOf H child pair.2).filterMap (commonDir H parent child pair.1)

end

section
variable {H : Hash} {parent child : MetadataBlob}

theorem commonDir_mem {p : Inode} {e : DirEntry} {pair : Inode × Inode}
    (h : commonDir H parent child p e = some pair) :
    pair.1 ∈ parent.inodes ∧ pair.2 ∈ child.inodes := by
  obtain ⟨pe, -, h⟩ := Option.bind_eq_some_iff.mp h
  split at h
  · next pi ci hpi hci =>
      split at h
      · rw [← Option.some.inj h]
        exact ⟨(inodeByNumber_mem hpi).1, (inodeByNumber_mem hci).1⟩
      · cases h
  · cases h

theorem commonDirs_mem {pair below : Inode × Inode} (h : below ∈ commonDirs H parent child pair) :
    below ∈ parent.inodes ×ˢ child.inodes := by
  obtain ⟨e, -, he⟩ := List.mem_filterMap.mp h
  exact List.mem_product.mpr (commonDir_mem he)

theorem isSome_bind_some {α β : Type} (o : Option α) (f : α → β) :
    (o.bind fun a => some (f a)).isSome = o.isSome := by
  cases o <;> rfl

theorem isSome_mapM {α β : Type} (f : α → Option β) (l : List α) :
    (l.mapM f).isSome = l.all fun a => (f a).isSome := by
  induction l with
  | nil => rfl
  | cons a rest ih =>
      rw [List.mapM_cons, List.all_cons, ← ih]
      cases f a with
      | none => rfl
      | some b => cases rest.mapM f <;> rfl

/-- What is below an entry is walked to its end when the pair under its name is. -/
theorem isSome_diffEntry (descend : Inode → Inode → Bytes → Option (List TreeOp))
    (ends : Inode × Inode → Bool) (hends : ∀ p c text, (descend p c text).isSome = ends (p, c))
    (p : Inode) (text : Bytes) (e : DirEntry) :
    (diffEntry parent child descend ((entriesOf H parent p).map fun e => (e.name, e.inodeNumber))
        text (e.name, e.inodeNumber)).isSome =
      (commonDir H parent child p e).all ends := by
  unfold diffEntry commonDir
  simp only [mapGet_map, ← entryOf_eq_find]
  cases entryOf H parent p e.name with
  | none => rfl
  | some pe =>
      simp only [Option.map_some, Option.bind_some]
      cases parent.inodeByNumber pe.inodeNumber with
      | none => rfl
      | some pi =>
          cases child.inodeByNumber e.inodeNumber with
          | none => rfl
          | some ci =>
              simp only
              by_cases hdirs : (pi.isDirectory && ci.isDirectory) = true
              · rw [if_pos hdirs, if_pos hdirs, hends, Option.all_some]
              · rw [if_neg hdirs, if_neg hdirs]
                split <;> rfl

end

section
variable {H : Hash} {parent child : MetadataBlob} (hp : parent.WellFormed) (hc : child.WellFormed)
include hp hc

theorem isSome_diffDirectory : ∀ (fuel : Nat) (p c : Inode) (text : Bytes),
    (diffDirectory H parent child fuel p c text).isSome =
      Worklist.descends (commonDirs H parent child) fuel (p, c) := by
  intro fuel
  induction fuel with
  | zero => exact fun _ _ _ => rfl
  | succ fuel ih =>
      intro p c text
      have hbelow : Worklist.descends (commonDirs H parent child) (fuel + 1) (p, c) =
          (entriesOf H child c).all fun e => (commonDir H parent child p e).all
            (Worklist.descends (commonDirs H parent child) fuel) := by
        rw [Worklist.descends, commonDirs, List.all_filterMap]
        refine congrArg _ (funext fun e => ?_)
        cases commonDir H parent child p e <;> rfl
      -- a side without entries has nothing in common with the other
      have hempty : entriesOf H parent p = [] ∨ entriesOf H child c = [] →
          Worklist.descends (commonDirs H parent child) (fuel + 1) (p, c) = true := by
        intro hnone
        rw [hbelow, List.all_eq_true]
        intro e he
        rcases hnone with hpn | hcn
        · simp [commonDir, entryOf_eq_find, hpn]
        · exact absurd (hcn ▸ he) List.not_mem_nil
      unfold diffDirectory
      cases hpc : p.contentHandle with
      | directory pHash =>
          cases hcc : c.contentHandle with
          | directory cHash =>
              simp only
              cases hpNode : parent.dirNodeByHash H pHash with
              | none => exact (hempty (.inl (by simp [entriesOf, hpc, hpNode]))).symm
              | some pNode =>
                  cases hcNode : child.dirNodeByHash H cHash with
                  | none => exact (hempty (.inr (by simp [entriesOf, hcc, hcNode]))).symm
                  | some cNode =>
                      have hpe : entriesOf H parent p = pNode.entries := by
                        simp [entriesOf, hpc, hpNode]
                      have hce : entriesOf H child c = cNode.entries := by
                        simp [entriesOf, hcc, hcNode]
                      simp only [Option.bind_eq_bind,
                        entryMap_eq (hp.names pNode (dirNodeByHash_mem hpNode)),
                        entryMap_eq (hc.names cNode (dirNodeByHash_mem hcNode)), ← hpe, ← hce]
                      rw [isSome_bind_some, isSome_mapM, List.all_map, hbelow]
                      refine congrArg _ (funext fun e => ?_)
                      exact isSome_diffEntry _ _ ih p text e
          | _ => exact (hempty (.inr (by simp [entriesOf, hcc]))).symm
      | _ => exact (hempty (.inl (by simp [entriesOf, hpc]))).symm

end

/-! ### Two images -/

section
variable (H : Hash) (parent child : Loaded)

/-- The walk from the roots, with as much depth as it takes. -/
def Ends : Prop :=
  ∃ p c, parent.blob.inodeByNumber parent.rootNumber = some p ∧
    child.blob.inodeByNumber child.rootNumber = some c ∧
    ∃ fuel ops, diffDirectory H parent.blob child.blob fuel p c [] = some ops

/-- No pair of directories that the two images have at one path is there again further down. -/
def NoCommonLoop : Prop :=
  ∀ p c, parent.blob.inodeByNumber parent.rootNumber = some p →
    child.blob.inodeByNumber child.rootNumber = some c →
    Worklist.Acyclic (commonDirs H parent.blob child.blob) (p, c)

end

/-- **The delta of two images is computed exactly when no pair of directories at one path of
both is there again below itself**: the walk then goes no deeper than there are pairs. -/
theorem delta_ends_iff : ∀ (H : Hash) (z : Omnizip) (parentBytes childBytes : Bytes)
    (parent child : Loaded), loadImage H z parentBytes = .ok parent →
    loadImage H z childBytes = .ok child →
    (Ends H parent child ↔ NoCommonLoop H parent child) ∧
      (NoCommonLoop H parent child →
        ∃ delta, computeDeltaFromBytes H z parentBytes childBytes = .ok (some delta)) := by
  intro H z parentBytes childBytes parent child hparent hchild
  obtain ⟨-, -, p, hproot⟩ := loadImage_blob hparent
  obtain ⟨-, -, c, hcroot⟩ := loadImage_blob hchild
  have hp := (loadImage_wellFormed hparent).1
  have hc := (loadImage_wellFormed hchild).1
  have hloop : NoCommonLoop H parent child ↔
      Worklist.Acyclic (commonDirs H parent.blob child.blob) (p, c) := by
    unfold NoCommonLoop
    simp [hproot, hcroot]
  obtain ⟨hiff, hbound⟩ := Worklist.descends_iff (parent.blob.inodes ×ˢ child.blob.inodes)
    (List.mem_product.mpr ⟨(inodeByNumber_mem hproot).1, (inodeByNumber_mem hcroot).1⟩)
    (fun _ _ => commonDirs_mem (H := H))
  refine ⟨?_, fun hno => ?_⟩
  · rw [hloop, ← hiff]
    unfold Ends
    simp only [hproot, hcroot, Option.some.injEq, exists_and_left, exists_eq_left']
    exact exists_congr fun fuel => by
      rw [← isSome_diffDirectory hp hc fuel p c [], Option.isSome_iff_exists]
  · have hends := hbound (hloop.mp hno)
    rw [List.length_product, ← isSome_diffDirectory hp hc _ p c [], Option.isSome_iff_exists] at hends
    obtain ⟨ops, hops⟩ := hends
    refine ⟨⟨sortOps ops, parent.merkleRoot⟩, ?_⟩
    have hdelta : deltaOf H parent child = some ⟨sortOps ops, parent.merkleRoot⟩ := by
      simp [deltaOf, hproot, hcroot, pairsOf, hops]
    simp only [computeDeltaFromBytes, hparent, hchild, ← hdelta]
    rfl

namespace Stored

open LimniFS.Stored

/-- An image of a directory that holds itself. -/
def loopManifest : Bytes := LimniFS.Stored.manifest Rw.Stored.loopBlobBytes 0

def loopLoaded : Loaded := ⟨Rw.Stored.loopBlob, 1, hashSection foldDigest loopManifest⟩

/-- The directory that holds itself. -/
def loopDir : Inode := loopLoaded.blob.inodes[1]

theorem loadImage_loop : loadImage foldDigest omnizip loopManifest = .ok loopLoaded := by
  decide +kernel

end Stored

open LimniFS.Stored LimniFS.DeltaBuilder.Stored

/-- The delta of such an image to itself never comes to an end. -/
theorem delta_of_loop_never_ends :
    loadImage foldDigest omnizip loopManifest =
        .ok loopLoaded ∧
      ¬ Ends foldDigest loopLoaded loopLoaded ∧
      computeDeltaFromBytes foldDigest omnizip loopManifest
        loopManifest = .ok none := by
  refine ⟨loadImage_loop, ?_, by decide +kernel⟩
  rintro ⟨p, c, hp, hc, fuel, ops, hops⟩
  have hwf := (loadImage_wellFormed loadImage_loop).1
  have hends := isSome_diffDirectory (H := foldDigest) hwf hwf fuel p c []
  rw [hops, Option.isSome_some] at hends
  have hacyclic := Worklist.acyclic_of_acc (Worklist.acc_of_descends fuel (p, c) hends.symm)
  -- the directory in itself is under the name in both, below the roots and below itself
  have hbelow : ∀ pair ∈ loopLoaded.blob.inodes ×ˢ loopLoaded.blob.inodes,
      (loopDir, loopDir) ∈
        commonDirs foldDigest loopLoaded.blob loopLoaded.blob pair := by
    decide +kernel
  have hroots := List.mem_product.mpr ⟨(inodeByNumber_mem hp).1, (inodeByNumber_mem hc).1⟩
  exact hacyclic (loopDir, loopDir) (Relation.ReflTransGen.single (hbelow _ hroots))
    (Relation.TransGen.single (hbelow _ (by decide +kernel)))

theorem delta_ends_iff_loop :
    (Ends foldDigest loopLoaded loopLoaded ↔
        NoCommonLoop foldDigest loopLoaded loopLoaded) ∧
      (NoCommonLoop foldDigest loopLoaded loopLoaded →
        ∃ delta, computeDeltaFromBytes foldDigest omnizip
          loopManifest loopManifest = .ok (some delta)) :=
  delta_ends_iff _ _ _ _ _ _ loadImage_loop loadImage_loop

end LimniFS.DeltaBuilder
