/-
When applying a delta gives the child's tree.

The operations lie at paths none of which is at or below another, so what stands at a
path after they are applied is decided by the one operation that covers it, or by the
parent's tree.  A covered path is right by construction.  At the others the builder
has found nothing to tell the two sides apart, and that is right where `inodes_equal`
is: for slice maps it compares the drops and leaves out which bytes of them are used.
-/
import LimniFS.DeltaTrees

namespace LimniFS.DeltaBuilder

open Lib Lib.Parser LimniFS.Stored

/-! ### The delta of two trees -/

/-- What is asked of the operations: their paths are distinct and in order, applying them
to the parent's tree gives the child's, and there are none exactly when the trees are one. -/
structure DeltaCorrect (H : Hash) (parent child : Loaded) (ps cs : SlabSource) (ops : List TreeOp) :
    Prop where
  sorted : ops.Pairwise fun a b => a.path < b.path
  applied : TreePatch.applyAll (ops.map fun op => op.patch H child.blob cs)
    (treeOf H parent.blob ps parent.rootNumber) = treeOf H child.blob cs child.rootNumber
  none_iff : ops = [] ↔
    treeOf H parent.blob ps parent.rootNumber = treeOf H child.blob cs child.rootNumber

/-- Files at one path that are slices of the same drops in the same order have the same bytes. -/
def SameDropsSameBytes (H : Hash) (parent child : Loaded) (ps cs : SlabSource) : Prop :=
  ∀ path pi ci pm cm, InodeAt H parent path pi → InodeAt H child path ci →
    pi.contentHandle = .sliceMap pm → ci.contentHandle = .sliceMap cm → sameDrops pm cm →
    contentOf ps pi = contentOf cs ci

/-- Trees of the same content are stored alike: two inodes at one path that are not
directories are equal to the builder. -/
def StoredAlike (H : Hash) (parent child : Loaded) (ps cs : SlabSource) : Prop :=
  treeOf H parent.blob ps parent.rootNumber = treeOf H child.blob cs child.rootNumber →
    ∀ path pi ci, InodeAt H parent path pi → InodeAt H child path ci →
      (pi.isDirectory && ci.isDirectory) = false → inodesEqual pi ci = true

/-- Two trees, what the walk over them found, and that it ended. -/
structure Walked (H : Hash) (parent child : Loaded) (p c : Inode) (ds : List Difference) : Prop where
  parentOK : parent.blob.WellFormed
  childOK : child.blob.WellFormed
  parentRoot : parent.blob.inodeByNumber parent.rootNumber = some p
  childRoot : child.blob.inodeByNumber child.rootNumber = some c
  sound : ∀ d ∈ ds, d.Sound H parent.blob child.blob p c
  cover : ∀ path, (∃ d ∈ ds, d.path <+: path) ∨ Unreported H parent.blob child.blob p c path
  apart : ds.Pairwise fun a b => ¬ a.path <+: b.path ∧ ¬ b.path <+: a.path

/-- The walk over two trees ends. -/
theorem walked_of_trees {H : Hash} {z : Omnizip} {parentBytes childBytes : Bytes}
    {parent child : Loaded} (hparent : loadImage H z parentBytes = .ok parent)
    (hchild : loadImage H z childBytes = .ok child) (ptree : IsTree H parent)
    (ctree : IsTree H child) :
    ∃ p c ds, Walked H parent child p c ds ∧
      deltaOf H parent child = some ⟨sortOps (ds.map (Difference.op [])), parent.merkleRoot⟩ := by
  obtain ⟨hp, hproot⟩ := loadImage_wellFormed hparent
  obtain ⟨hc, hcroot⟩ := loadImage_wellFormed hchild
  obtain ⟨p, hpn, hpm, hpd⟩ := ptree.root hproot
  obtain ⟨c, hcn, hcm, hcd⟩ := ctree.root hcroot
  cases hds : differences H parent.blob child.blob (pairsOf parent child) p c with
  | none =>
      obtain ⟨path, next, hlen, hres⟩ := differences_fuel hp hc ptree.present ctree.present _ p c
        hpm hcm hpd hcd hds
      have hlt := ptree.length_lt ⟨p, hpn, hres⟩
      have hpos : 0 < child.blob.inodes.length := List.length_pos_of_mem hcm
      have hle := Nat.le_mul_of_pos_right parent.blob.inodes.length hpos
      rw [hlen, pairsOf] at hlt
      omega
  | some ds =>
      refine ⟨p, c, ds, ⟨hp, hc, hpn, hcn, ?_, ?_, ?_⟩, ?_⟩
      · exact difference_sound hp hc ptree.present ctree.present _ p c ds hpm hcm hpd hcd hds
      · exact differences_cover hp hc ptree.present ctree.present _ p c ds hpm hcm hpd hcd hds
      · exact differences_apart hp hc ptree.present ctree.present _ p c ds hpm hcm hpd hcd hds
      · unfold deltaOf
        rw [hpn, hcn]
        simp only [Option.bind_eq_bind, Option.bind_some,
          diffDirectory_eq hp hc ptree.present ctree.present _ p c [] hpm hcm hpd hcd, hds,
          Option.map_some]

/-! ### The operations in order -/

theorem mem_sortOps {ds : List Difference} {op : TreeOp} :
    op ∈ sortOps (ds.map (Difference.op [])) ↔ ∃ d ∈ ds, d.op [] = op := by
  rw [sortOps, List.mem_mergeSort, List.mem_map]

theorem sortOps_sorted (ops : List TreeOp) : (sortOps ops).Pairwise fun a b => a.path ≤ b.path := by
  refine (List.pairwise_mergeSort (fun a b c hab hbc => ?_) (fun a b => ?_) ops).imp fun h => by
    simpa using h
  · simp only [decide_eq_true_eq] at *
    exact List.le_trans hab hbc
  · simp only [Bool.or_eq_true, decide_eq_true_eq]
    exact List.le_total a.path b.path

section
variable {H : Hash} {parent child : Loaded} {p c : Inode} {ds : List Difference}
  (w : Walked H parent child p c ds)
include w

theorem Walked.op_path {d : Difference} (hd : d ∈ ds) :
    PathText.components slash (d.op []).path = d.path :=
  ((w.sound d hd).op_path w.parentOK w.childOK).2

theorem Walked.patches_apart (cs : SlabSource) :
    ((sortOps (ds.map (Difference.op []))).map fun op => op.patch H child.blob cs).Pairwise
      TreePatch.Apart := by
  have hsymm : ∀ {a b : TreeOp}, TreePatch.Apart (a.patch H child.blob cs) (b.patch H child.blob cs) →
      TreePatch.Apart (b.patch H child.blob cs) (a.patch H child.blob cs) := fun h => ⟨h.2, h.1⟩
  rw [List.pairwise_map, sortOps,
    List.Perm.pairwise_iff hsymm (List.mergeSort_perm (ds.map (Difference.op [])) _),
    List.pairwise_map]
  refine w.apart.imp_of_mem fun {a b} ha hb hab => ?_
  simpa [TreePatch.Apart, TreeOp.patch, w.op_path ha, w.op_path hb] using hab

theorem Walked.sorted : (sortOps (ds.map (Difference.op []))).Pairwise fun a b => a.path < b.path := by
  have hsymm : ∀ {a b : TreeOp}, a.path ≠ b.path → b.path ≠ a.path := fun h => h.symm
  have hdistinct : (sortOps (ds.map (Difference.op []))).Pairwise fun a b => a.path ≠ b.path := by
    rw [sortOps, List.Perm.pairwise_iff hsymm (List.mergeSort_perm (ds.map (Difference.op [])) _),
      List.pairwise_map]
    refine w.apart.imp_of_mem fun {a b} ha hb hab heq => ?_
    have hpath : a.path = b.path := by rw [← w.op_path ha, ← w.op_path hb, heq]
    exact hab.1 (hpath ▸ List.prefix_refl _)
  refine ((sortOps_sorted _).and hdistinct).imp fun ⟨hle, hne⟩ => ?_
  exact (List.le_iff_lt_or_eq.mp hle).resolve_right hne

theorem Walked.applied_of_mem (ps cs : SlabSource) {d : Difference} (hd : d ∈ ds) {path : Path}
    (hpre : d.path <+: path) :
    TreePatch.applyAll ((sortOps (ds.map (Difference.op []))).map fun op => op.patch H child.blob cs)
        (treeOf H parent.blob ps parent.rootNumber) path =
      treeOf H child.blob cs child.rootNumber path := by
  obtain ⟨rest, rfl⟩ := hpre
  have hpath : ((d.op []).patch H child.blob cs).path = d.path := w.op_path hd
  have hmem : (d.op []).patch H child.blob cs ∈
      (sortOps (ds.map (Difference.op []))).map fun op => op.patch H child.blob cs :=
    List.mem_map_of_mem (mem_sortOps.mpr ⟨d, hd, rfl⟩)
  rw [TreePatch.applyAll_of_mem (w.patches_apart cs) hmem (hpath ▸ List.prefix_append ..), hpath,
    List.drop_left, (w.sound d hd).effect, treeOf, w.childRoot]
  rfl

theorem Walked.applied_of_none (ps cs : SlabSource) {path : Path}
    (h : ∀ d ∈ ds, ¬ d.path <+: path) :
    TreePatch.applyAll ((sortOps (ds.map (Difference.op []))).map fun op => op.patch H child.blob cs)
        (treeOf H parent.blob ps parent.rootNumber) path =
      treeOf H parent.blob ps parent.rootNumber path := by
  refine TreePatch.applyAll_of_none (fun patch hpatch => ?_) _
  obtain ⟨op, hop, rfl⟩ := List.mem_map.mp hpatch
  obtain ⟨d, hd, rfl⟩ := mem_sortOps.mp hop
  rw [show ((d.op []).patch H child.blob cs).path = d.path from w.op_path hd]
  exact h d hd

theorem Walked.parentAt {path : Path} {pi : Inode} :
    InodeAt H parent path pi ↔ resolve H parent.blob p path = some pi := by
  constructor
  · rintro ⟨root, hroot, hres⟩
    rw [w.parentRoot] at hroot
    cases hroot
    exact hres
  · exact fun h => ⟨p, w.parentRoot, h⟩

theorem Walked.childAt {path : Path} {ci : Inode} :
    InodeAt H child path ci ↔ resolve H child.blob c path = some ci := by
  constructor
  · rintro ⟨root, hroot, hres⟩
    rw [w.childRoot] at hroot
    cases hroot
    exact hres
  · exact fun h => ⟨c, w.childRoot, h⟩

theorem Walked.treeOf_parent (ps : SlabSource) (path : Path) :
    treeOf H parent.blob ps parent.rootNumber path =
      (resolve H parent.blob p path).map (contentOf ps) := by
  rw [treeOf, w.parentRoot]
  rfl

theorem Walked.treeOf_child (cs : SlabSource) (path : Path) :
    treeOf H child.blob cs child.rootNumber path =
      (resolve H child.blob c path).map (contentOf cs) := by
  rw [treeOf, w.childRoot]
  rfl

theorem Walked.parent_mem : p ∈ parent.blob.inodes := (inodeByNumber_mem w.parentRoot).1

theorem Walked.child_mem : c ∈ child.blob.inodes := (inodeByNumber_mem w.childRoot).1

theorem Walked.not_covered {path : Path} {pi ci : Inode}
    (hpi : resolve H parent.blob p path = some pi) (hci : resolve H child.blob c path = some ci)
    (heq : inodesEqual pi ci = true) : ∀ d ∈ ds, ¬ d.path <+: path := by
  rintro d hd ⟨rest, rfl⟩
  have hsound := w.sound d hd
  rw [resolve_append] at hpi hci
  obtain ⟨pm, hpm, hpr⟩ := Option.bind_eq_some_iff.mp hpi
  obtain ⟨cm, hcm, hcr⟩ := Option.bind_eq_some_iff.mp hci
  unfold Difference.Sound at hsound
  split at hsound
  · rw [hpm] at hsound
    cases hsound.1
  · rw [hcm] at hsound
    cases hsound.2.2
  · obtain ⟨pi', number, ci', hpi', -, -, hci', hdirs, hne⟩ := hsound
    obtain rfl : pm = pi' := Option.some.inj (hpm.symm.trans hpi')
    obtain rfl : cm = ci' := Option.some.inj (hcm.symm.trans hci')
    cases rest with
    | nil =>
        cases hpr
        cases hcr
        rw [heq] at hne
        cases hne
    | cons name rest =>
        rw [isDirectory_of_resolve_cons w.parentOK (resolve_mem w.parent_mem hpm) hpr,
          isDirectory_of_resolve_cons w.childOK (resolve_mem w.child_mem hcm) hcr] at hdirs
        cases hdirs

/-- Where equal drops mean equal bytes, the operations give the child's tree. -/
theorem Walked.applied {ps cs : SlabSource} (h : SameDropsSameBytes H parent child ps cs) :
    TreePatch.applyAll ((sortOps (ds.map (Difference.op []))).map fun op => op.patch H child.blob cs)
      (treeOf H parent.blob ps parent.rootNumber) = treeOf H child.blob cs child.rootNumber := by
  funext path
  by_cases hcovered : ∃ d ∈ ds, d.path <+: path
  · obtain ⟨d, hd, hpre⟩ := hcovered
    exact w.applied_of_mem ps cs hd hpre
  · rw [w.applied_of_none ps cs fun d hd hpre => hcovered ⟨d, hd, hpre⟩, w.treeOf_parent,
      w.treeOf_child]
    rcases (w.cover path).resolve_left hcovered with ⟨hpi, hci⟩ | ⟨pi, ci, hpi, hci, hsame⟩
    · rw [hpi, hci]
      rfl
    · have hpk := w.parentOK.kinds pi (resolve_mem w.parent_mem hpi)
      have hck := w.childOK.kinds ci (resolve_mem w.child_mem hci)
      rw [hpi, hci, Option.map_some, Option.map_some]
      by_cases hdirs : (pi.isDirectory && ci.isDirectory) = true
      · obtain ⟨hpd, hcd⟩ := Bool.and_eq_true_iff.mp hdirs
        rw [(contentOf_directory hpk ps).mpr hpd, (contentOf_directory hck cs).mpr hcd]
      · have heq := hsame.resolve_left hdirs
        refine congrArg some (contentOf_eq_of_inodesEqual hpk hck (Bool.eq_false_iff.mpr hdirs) heq
          ps cs fun pm cm hpm hcm hdrops => ?_)
        exact h path pi ci pm cm (w.parentAt.mpr hpi) (w.childAt.mpr hci) hpm hcm hdrops

theorem Walked.no_differences {ps cs : SlabSource} (h : StoredAlike H parent child ps cs)
    (hsame : treeOf H parent.blob ps parent.rootNumber = treeOf H child.blob cs child.rootNumber) :
    ds = [] := by
  refine List.eq_nil_iff_forall_not_mem.mpr fun d hd => ?_
  have hsound := w.sound d hd
  have hat := congrFun hsame d.path
  rw [w.treeOf_parent, w.treeOf_child] at hat
  unfold Difference.Sound at hsound
  split at hsound
  · obtain ⟨hnone, _, _, -, -, hci⟩ := hsound
    rw [hnone, hci] at hat
    cases hat
  · obtain ⟨⟨_, hpi⟩, -, hnone⟩ := hsound
    rw [hpi, hnone] at hat
    cases hat
  · obtain ⟨pi, _, ci, hpi, -, -, hci, hdirs, hne⟩ := hsound
    rw [h hsame d.path pi ci (w.parentAt.mpr hpi) (w.childAt.mpr hci) hdirs] at hne
    cases hne

end

/-! ### Correctness -/

/-- **A delta is right exactly when equal drops mean equal bytes and equal trees are stored
alike.** -/
theorem delta_correct_iff : ∀ (H : Hash) (z : Omnizip) (parentBytes childBytes : Bytes)
    (parent child : Loaded), loadImage H z parentBytes = .ok parent →
    loadImage H z childBytes = .ok child → IsTree H parent → IsTree H child →
    ∀ ps cs : SlabSource, ∃ artifact,
      computeDeltaFromBytes H z parentBytes childBytes = .ok (some artifact) ∧
      (DeltaCorrect H parent child ps cs artifact.treeOps ↔
        SameDropsSameBytes H parent child ps cs ∧ StoredAlike H parent child ps cs) := by
  intro H z parentBytes childBytes parent child hparent hchild ptree ctree ps cs
  obtain ⟨p, c, ds, w, hdelta⟩ := walked_of_trees hparent hchild ptree ctree
  have hcompute : computeDeltaFromBytes H z parentBytes childBytes =
      .ok (some ⟨sortOps (ds.map (Difference.op [])), parent.merkleRoot⟩) := by
    rw [computeDeltaFromBytes, hparent, hchild, ← hdelta]
    rfl
  refine ⟨_, hcompute, ?_⟩
  have hempty : sortOps (ds.map (Difference.op [])) = [] ↔ ds = [] := by
    rw [sortOps, ← List.length_eq_zero_iff, List.length_mergeSort, List.length_map,
      List.length_eq_zero_iff]
  constructor
  · intro hcorrect
    refine ⟨fun path pi ci pm cm hpi hci hpm hcm hdrops => ?_,
      fun hsame path pi ci hpi hci hdirs => ?_⟩
    · rw [w.parentAt] at hpi
      rw [w.childAt] at hci
      have hpk := w.parentOK.kinds pi (resolve_mem w.parent_mem hpi)
      have hck := w.childOK.kinds ci (resolve_mem w.child_mem hci)
      unfold Inode.KindFits at hpk hck
      rw [hpm] at hpk
      rw [hcm] at hck
      have heq := (inodesEqual_sliceMap hpm hcm (hpk.trans hck.symm)).mpr hdrops
      have hat := congrFun hcorrect.applied path
      rw [w.applied_of_none ps cs (w.not_covered hpi hci heq), w.treeOf_parent, w.treeOf_child, hpi,
        hci] at hat
      exact Option.some.inj hat
    · rw [w.parentAt] at hpi
      rw [w.childAt] at hci
      have hnil := hempty.mp (hcorrect.none_iff.mpr hsame)
      rcases w.cover path with ⟨d, hd, -⟩ | hun
      · rw [hnil] at hd
        cases hd
      · rcases hun with ⟨hnone, -⟩ | ⟨pi', ci', hpi', hci', hor⟩
        · rw [hpi] at hnone
          cases hnone
        · obtain rfl : pi = pi' := Option.some.inj (hpi.symm.trans hpi')
          obtain rfl : ci = ci' := Option.some.inj (hci.symm.trans hci')
          exact hor.resolve_left (by rw [hdirs]; exact Bool.false_ne_true)
  · rintro ⟨hbytes, halike⟩
    refine ⟨w.sorted, w.applied hbytes, ?_⟩
    constructor
    · intro hnil
      have happlied := w.applied hbytes
      rw [show sortOps (ds.map (Difference.op [])) = [] from hnil] at happlied
      exact happlied
    · exact fun hsame => hempty.mpr (w.no_differences halike hsame)

namespace Stored

def windowEntries : List DirEntry := [⟨ascii "a", 1, EntryType.file⟩]

def windowRoot : Inode :=
  ⟨2, 0x41ED, 0, 0, 0, 0, 1, none, [], .directory (dirNodeHash foldDigest windowEntries)⟩

def windowBlobBytes (start : Nat) : Bytes :=
  leBytes 4 2
    ++ windowFileBytes start
    ++ (inodeHeadBytes windowRoot ++ (dirNodeHash foldDigest windowEntries).val)
    ++ leBytes 4 1 ++ dirNodeBytes windowEntries

def windowImage (start : Nat) : Bytes := manifest (windowBlobBytes start) 0

def windowLoaded (start : Nat) : Loaded :=
  ⟨⟨[windowFile start, windowRoot], [⟨1, windowEntries⟩]⟩, 2,
    hashSection foldDigest (windowImage start)⟩

theorem loadImage_window (start : Nat) (h : start = 0 ∨ start = 4) :
    loadImage foldDigest omnizip (windowImage start) = .ok (windowLoaded start) := by
  rcases h with rfl | rfl
  · decide +kernel
  · decide +kernel

theorem resolve_window (start : Nat) : ∀ path : Path,
    resolve foldDigest (windowLoaded start).blob windowRoot path =
      if path = [] then some windowRoot
      else if path = [ascii "a"] then some (windowFile start) else none := by
  intro path
  match path with
  | [] => rfl
  | name :: rest =>
      have hentry : entryOf foldDigest (windowLoaded start).blob windowRoot name =
          windowEntries.find? fun e => e.name == name := by
        have hnode : (windowLoaded start).blob.dirNodeByHash foldDigest
            (dirNodeHash foldDigest windowEntries) = some ⟨1, windowEntries⟩ := by
          simp [MetadataBlob.dirNodeByHash, windowLoaded]
        simp [entryOf, windowRoot, hnode]
      rw [resolve, hentry, if_neg (by simp)]
      by_cases hname : ascii "a" = name
      · subst hname
        have hnext : (windowLoaded start).blob.inodeByNumber 1 = some (windowFile start) := rfl
        cases rest with
        | nil => simp [windowEntries, hnext, resolve]
        | cons next rest => simp [windowEntries, hnext, resolve, entryOf, windowFile]
      · simp [windowEntries, hname, Ne.symm hname]

theorem isTree_window (start : Nat) : IsTree foldDigest (windowLoaded start) := by
  have hroot : (windowLoaded start).blob.inodeByNumber (windowLoaded start).rootNumber =
      some windowRoot := rfl
  have hat : ∀ path inode, InodeAt foldDigest (windowLoaded start) path inode ↔
      (path = [] ∧ inode = windowRoot) ∨ (path = [ascii "a"] ∧ inode = windowFile start) := by
    intro path inode
    simp only [InodeAt, hroot, Option.some.injEq, exists_eq_left', resolve_window]
    by_cases hnil : path = []
    · simp [hnil, eq_comm]
    · by_cases ha : path = [ascii "a"]
      · simp [ha, eq_comm]
      · simp [hnil, ha]
  refine ⟨fun inode hmem => ?_, fun path path' inode inode' hp hp' hnum => ?_,
    fun inode hmem hash hdir => ?_⟩
  · rcases List.mem_pair.mp hmem with rfl | rfl
    · exact ⟨[ascii "a"], (hat _ _).mpr (Or.inr ⟨rfl, rfl⟩)⟩
    · exact ⟨[], (hat _ _).mpr (Or.inl ⟨rfl, rfl⟩)⟩
  · rcases (hat _ _).mp hp with ⟨rfl, rfl⟩ | ⟨rfl, rfl⟩ <;>
      rcases (hat _ _).mp hp' with ⟨rfl, rfl⟩ | ⟨rfl, rfl⟩
    · rfl
    · exact absurd hnum (by simp [windowRoot, windowFile])
    · exact absurd hnum (by simp [windowRoot, windowFile])
    · rfl
  · rcases List.mem_pair.mp hmem with rfl | rfl
    · cases hdir
    · refine ⟨⟨1, windowEntries⟩, ?_, fun entry hentry => ⟨windowFile start, ?_⟩⟩
      · cases hdir
        simp [MetadataBlob.dirNodeByHash, windowLoaded]
      · obtain rfl : entry = ⟨ascii "a", 1, EntryType.file⟩ := List.mem_singleton.mp hentry
        rfl

end Stored

open LimniFS.DeltaBuilder.Stored

/-- The same drop, another window of it: other bytes, and no operation. -/
theorem other_window_is_not_reported :
    loadImage foldDigest omnizip (windowImage 0) =
        .ok (windowLoaded 0) ∧
      loadImage foldDigest omnizip (windowImage 4) =
        .ok (windowLoaded 4) ∧
      IsTree foldDigest (windowLoaded 0) ∧
      IsTree foldDigest (windowLoaded 4) ∧
      ∃ artifact, computeDeltaFromBytes foldDigest omnizip (windowImage 0)
          (windowImage 4) = .ok (some artifact) ∧ artifact.treeOps = [] ∧
        ¬ DeltaCorrect foldDigest (windowLoaded 0) (windowLoaded 4)
          windowStore windowStore artifact.treeOps := by
  have hcompute : computeDeltaFromBytes foldDigest omnizip (windowImage 0)
      (windowImage 4) = .ok (some ⟨[], (windowLoaded 0).merkleRoot⟩) := by
    decide +kernel
  refine ⟨loadImage_window 0 (by decide), loadImage_window 4 (by decide),
    isTree_window 0, isTree_window 4, _, hcompute, rfl, fun hcorrect => ?_⟩
  have hsame := congrFun (hcorrect.none_iff.mp rfl) [ascii "a"]
  exact absurd hsame (by decide +kernel)

theorem delta_correct_iff_windows :
    ∃ artifact, computeDeltaFromBytes foldDigest omnizip (windowImage 0)
          (windowImage 0) = .ok (some artifact) ∧
        (DeltaCorrect foldDigest (windowLoaded 0) (windowLoaded 0)
            windowStore windowStore artifact.treeOps ↔
          SameDropsSameBytes foldDigest (windowLoaded 0) (windowLoaded 0)
            windowStore windowStore ∧
          StoredAlike foldDigest (windowLoaded 0) (windowLoaded 0)
            windowStore windowStore) :=
  delta_correct_iff _ _ _ _ _ _ (loadImage_window 0 (by decide))
    (loadImage_window 0 (by decide)) (isTree_window 0) (isTree_window 0) _ _

end LimniFS.DeltaBuilder
