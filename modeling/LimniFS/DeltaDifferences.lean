/-
What the differences of two trees say about them.

Three facts about the differences carry everything else: what stands on both sides at
a difference (`difference_sound`), what stands on both sides where there is none
(`differences_cover`), and that no difference lies at or below another
(`differences_apart`).
-/
import LimniFS.DeltaBuilder

namespace LimniFS.DeltaBuilder

open Lib Lib.Parser

/-! ### What stands at a difference, and where there is none -/

section
variable (H : Hash) (parent child : MetadataBlob)

/-- What the two sides have at a difference. -/
def Difference.Sound (p c : Inode) (d : Difference) : Prop :=
  match d.kind with
  | .add => resolve H parent p d.path = none ∧
      ∃ number ci, d.inodeNumber = some number ∧ child.inodeByNumber number = some ci ∧
        resolve H child c d.path = some ci
  | .remove => (∃ pi, resolve H parent p d.path = some pi) ∧ d.inodeNumber = none ∧
      resolve H child c d.path = none
  | .replace => ∃ pi number ci, resolve H parent p d.path = some pi ∧ d.inodeNumber = some number ∧
      child.inodeByNumber number = some ci ∧ resolve H child c d.path = some ci ∧
      (pi.isDirectory && ci.isDirectory) = false ∧ inodesEqual pi ci = false

/-- What the two sides have at a path that is not reported. -/
def Unreported (p c : Inode) (path : Path) : Prop :=
  (resolve H parent p path = none ∧ resolve H child c path = none) ∨
    ∃ pi ci, resolve H parent p path = some pi ∧ resolve H child c path = some ci ∧
      ((pi.isDirectory && ci.isDirectory) = true ∨ inodesEqual pi ci = true)

end

section
variable {H : Hash} {parent child : MetadataBlob} {p c : Inode}

/-- A difference below an entry is one of the directory. -/
theorem Difference.Sound.below {pi ci : Inode} {name : Bytes} {pe ce : DirEntry} {d : Difference}
    (hpe : entryOf H parent p name = some pe) (hpi : parent.inodeByNumber pe.inodeNumber = some pi)
    (hce : entryOf H child c name = some ce) (hci : child.inodeByNumber ce.inodeNumber = some ci)
    (h : d.Sound H parent child pi ci) : (d.below name).Sound H parent child p c := by
  have hp := resolve_of_entry hpe hpi d.path
  have hc := resolve_of_entry hce hci d.path
  unfold Difference.Sound at h ⊢
  simp only [Difference.below, hp, hc]
  exact h

theorem Unreported.below {pi ci : Inode} {name : Bytes} {pe ce : DirEntry} {path : Path}
    (hpe : entryOf H parent p name = some pe) (hpi : parent.inodeByNumber pe.inodeNumber = some pi)
    (hce : entryOf H child c name = some ce) (hci : child.inodeByNumber ce.inodeNumber = some ci)
    (h : Unreported H parent child pi ci path) : Unreported H parent child p c (name :: path) := by
  unfold Unreported at h ⊢
  rw [resolve_of_entry hpe hpi, resolve_of_entry hce hci]
  exact h

end

/-! ### One entry -/

section
variable {H : Hash} {parent child : MetadataBlob}

/-- What one entry of the child's directory can come to. -/
inductive AtEntry (H : Hash) (parent child : MetadataBlob)
    (descend : Inode → Inode → Option (List Difference)) (p : Inode) (e : DirEntry) :
    List Difference → Prop
  | added {ci : Inode} (hpe : entryOf H parent p e.name = none)
      (hci : child.inodeByNumber e.inodeNumber = some ci) :
      AtEntry H parent child descend p e [⟨[e.name], .add, some e.inodeNumber⟩]
  | descended {pe : DirEntry} {pi ci : Inode} {ds : List Difference}
      (hpe : entryOf H parent p e.name = some pe)
      (hpi : parent.inodeByNumber pe.inodeNumber = some pi)
      (hci : child.inodeByNumber e.inodeNumber = some ci) (hpd : pi.isDirectory = true)
      (hcd : ci.isDirectory = true) (hds : descend pi ci = some ds) :
      AtEntry H parent child descend p e (ds.map (Difference.below e.name))
  | replaced {pe : DirEntry} {pi ci : Inode} (hpe : entryOf H parent p e.name = some pe)
      (hpi : parent.inodeByNumber pe.inodeNumber = some pi)
      (hci : child.inodeByNumber e.inodeNumber = some ci)
      (hdirs : (pi.isDirectory && ci.isDirectory) = false) (hne : inodesEqual pi ci = false) :
      AtEntry H parent child descend p e [⟨[e.name], .replace, some e.inodeNumber⟩]
  | kept {pe : DirEntry} {pi ci : Inode} (hpe : entryOf H parent p e.name = some pe)
      (hpi : parent.inodeByNumber pe.inodeNumber = some pi)
      (hci : child.inodeByNumber e.inodeNumber = some ci)
      (hdirs : (pi.isDirectory && ci.isDirectory) = false) (heq : inodesEqual pi ci = true) :
      AtEntry H parent child descend p e []

theorem atEntry_of_differencesAt (hp : parent.WellFormed) (pp : Present H parent)
    {descend : Inode → Inode → Option (List Difference)} {p ci : Inode} {e : DirEntry}
    {part : List Difference} (hpm : p ∈ parent.inodes) (hpd : p.isDirectory = true)
    (hci : child.inodeByNumber e.inodeNumber = some ci)
    (h : differencesAt H parent child descend p e = some part) :
    AtEntry H parent child descend p e part := by
  unfold differencesAt at h
  cases hpe : entryOf H parent p e.name with
  | none =>
      rw [hpe] at h
      cases h
      exact .added hpe hci
  | some pe =>
      obtain ⟨pi, hpi⟩ := inode_of_entry hp pp hpm hpd hpe
      simp only [hpe, hpi, hci] at h
      by_cases hdirs : (pi.isDirectory && ci.isDirectory) = true
      · rw [if_pos hdirs, Option.map_eq_some_iff] at h
        obtain ⟨ds, hds, rfl⟩ := h
        obtain ⟨hpdir, hcdir⟩ := Bool.and_eq_true_iff.mp hdirs
        exact .descended hpe hpi hci hpdir hcdir hds
      · have hdirs' := Bool.eq_false_iff.mpr hdirs
        rw [if_neg hdirs] at h
        cases heq : inodesEqual pi ci with
        | true =>
            simp only [heq] at h
            cases h
            exact .kept hpe hpi hci hdirs' heq
        | false =>
            simp only [heq] at h
            cases h
            exact .replaced hpe hpi hci hdirs' heq

theorem AtEntry.path_eq {descend : Inode → Inode → Option (List Difference)} {p : Inode}
    {e : DirEntry} {part : List Difference} (h : AtEntry H parent child descend p e part) :
    ∀ d ∈ part, ∃ rest, d.path = e.name :: rest := by
  intro d hd
  cases h with
  | added hpe hci => exact ⟨[], by rw [List.mem_singleton.mp hd]⟩
  | @descended pe pi ci ds hpe hpi hci hpd hcd hds =>
      obtain ⟨d', -, rfl⟩ := List.mem_map.mp hd
      exact ⟨d'.path, rfl⟩
  | replaced hpe hpi hci hdirs hne => exact ⟨[], by rw [List.mem_singleton.mp hd]⟩
  | kept hpe hpi hci hdirs heq => cases hd

/-- The difference of a name that only the parent has. -/
def removal (e : DirEntry) : Difference := ⟨[e.name], .remove, none⟩

/-- The differences of two directories: those of the child's entries, and the removals. -/
theorem differences_cases (hp : parent.WellFormed) (hc : child.WellFormed) (pp : Present H parent)
    (pc : Present H child) {fuel : Nat} {p c : Inode} {ds : List Difference}
    (hpm : p ∈ parent.inodes) (hcm : c ∈ child.inodes) (hpd : p.isDirectory = true)
    (hcd : c.isDirectory = true) (h : differences H parent child (fuel + 1) p c = some ds) :
    ∃ parts, List.Forall₂ (AtEntry H parent child (differences H parent child fuel) p)
        (entriesOf H child c) parts ∧
      ds = parts.flatten ++
        ((entriesOf H parent p).filter fun e => (entryOf H child c e.name).isNone).map removal := by
  unfold differences at h
  obtain ⟨parts, hparts, hds⟩ := Option.bind_eq_some_iff.mp h
  refine ⟨parts, ?_, (Option.some.inj hds).symm⟩
  refine (forall₂_and_mem_left (mapM_some_iff.mp hparts)).imp fun e part he => ?_
  have hentry := entryOf_of_mem hc he.2
  obtain ⟨ci, hci⟩ := inode_of_entry hc pc hcm hcd hentry
  exact atEntry_of_differencesAt hp pp hpm hpd hci he.1

end

/-! ### All differences -/

theorem isDirectory_eq_of_inodesEqual {a b : Inode} (h : inodesEqual a b = true) :
    a.isDirectory = b.isDirectory := by
  unfold inodesEqual at h
  by_cases hne : a.fileType ≠ b.fileType
  · rw [if_pos hne] at h
    cases h
  · unfold Inode.isDirectory
    rw [Decidable.not_not.mp hne]

theorem unreported_of_equal {H : Hash} {parent child : MetadataBlob} (hp : parent.WellFormed)
    (hc : child.WellFormed) {pi ci : Inode} (hpm : pi ∈ parent.inodes) (hcm : ci ∈ child.inodes)
    (hdirs : (pi.isDirectory && ci.isDirectory) = false) (heq : inodesEqual pi ci = true) :
    ∀ path, Unreported H parent child pi ci path := by
  have hsame := isDirectory_eq_of_inodesEqual heq
  rw [hsame, Bool.and_self] at hdirs
  intro path
  cases path with
  | nil => exact .inr ⟨pi, ci, rfl, rfl, .inr heq⟩
  | cons name path =>
      refine .inl ⟨?_, ?_⟩
      · cases hres : resolve H parent pi (name :: path) with
        | none => rfl
        | some next =>
            have hdir := isDirectory_of_resolve_cons hp hpm hres
            rw [hsame, hdirs] at hdir
            cases hdir
      · cases hres : resolve H child ci (name :: path) with
        | none => rfl
        | some next =>
            have hdir := isDirectory_of_resolve_cons hc hcm hres
            rw [hdirs] at hdir
            cases hdir

theorem ne_of_name_lt {a b : Bytes} (h : a < b) : a ≠ b := fun heq => List.lt_irrefl _ (heq ▸ h)

theorem apart_of_heads {a b : Path} {m n : Bytes} (ha : ∃ rest, a = m :: rest)
    (hb : ∃ rest, b = n :: rest) (h : m ≠ n) : ¬ a <+: b ∧ ¬ b <+: a := by
  obtain ⟨r, rfl⟩ := ha
  obtain ⟨t, rfl⟩ := hb
  exact ⟨fun hpre => h (List.cons_prefix_cons.mp hpre).1,
    fun hpre => h (List.cons_prefix_cons.mp hpre).1.symm⟩

section
variable {H : Hash} {parent child : MetadataBlob} (hp : parent.WellFormed) (hc : child.WellFormed)
  (pp : Present H parent) (pc : Present H child)
include hp hc pp pc

theorem difference_sound : ∀ (fuel : Nat) (p c : Inode) (ds : List Difference), p ∈ parent.inodes →
    c ∈ child.inodes → p.isDirectory = true → c.isDirectory = true →
    differences H parent child fuel p c = some ds → ∀ d ∈ ds, d.Sound H parent child p c := by
  intro fuel
  induction fuel with
  | zero =>
      intro p c ds _ _ _ _ h
      cases h
  | succ fuel ih =>
      intro p c ds hpm hcm hpd hcd h d hd
      obtain ⟨parts, hparts, rfl⟩ := differences_cases hp hc pp pc hpm hcm hpd hcd h
      rcases List.mem_append.mp hd with hin | hin
      · obtain ⟨part, hpart, hdpart⟩ := List.mem_flatten.mp hin
        obtain ⟨e, he, hat⟩ := exists_mem_of_forall₂ hparts part hpart
        have hce := entryOf_of_mem hc he
        cases hat with
        | @added ci hpe hci =>
            obtain rfl := List.mem_singleton.mp hdpart
            exact ⟨resolve_of_no_entry hpe [], e.inodeNumber, ci, rfl, hci, resolve_of_entry hce hci []⟩
        | @descended pe pi ci ds hpe hpi hci hpdir hcdir hds =>
            obtain ⟨d', hd', rfl⟩ := List.mem_map.mp hdpart
            exact (ih pi ci ds (inodeByNumber_mem hpi).1 (inodeByNumber_mem hci).1 hpdir hcdir hds
              d' hd').below hpe hpi hce hci
        | @replaced pe pi ci hpe hpi hci hdirs hne =>
            obtain rfl := List.mem_singleton.mp hdpart
            exact ⟨pi, e.inodeNumber, ci, resolve_of_entry hpe hpi [], rfl, hci,
              resolve_of_entry hce hci [], hdirs, hne⟩
        | kept hpe hpi hci hdirs heq => cases hdpart
      · obtain ⟨e, he, rfl⟩ := List.mem_map.mp hin
        obtain ⟨hmem, hnone⟩ := List.mem_filter.mp he
        have hpe := entryOf_of_mem hp hmem
        obtain ⟨pi, hpi⟩ := inode_of_entry hp pp hpm hpd hpe
        exact ⟨⟨pi, resolve_of_entry hpe hpi []⟩, rfl,
          resolve_of_no_entry (Option.isNone_iff_eq_none.mp hnone) []⟩

/-- Every path is at or below a difference, or the two sides are not told apart there. -/
theorem differences_cover : ∀ (fuel : Nat) (p c : Inode) (ds : List Difference), p ∈ parent.inodes →
    c ∈ child.inodes → p.isDirectory = true → c.isDirectory = true →
    differences H parent child fuel p c = some ds →
    ∀ path, (∃ d ∈ ds, d.path <+: path) ∨ Unreported H parent child p c path := by
  intro fuel
  induction fuel with
  | zero =>
      intro p c ds _ _ _ _ h
      cases h
  | succ fuel ih =>
      intro p c ds hpm hcm hpd hcd h path
      obtain ⟨parts, hparts, rfl⟩ := differences_cases hp hc pp pc hpm hcm hpd hcd h
      cases path with
      | nil => exact .inr (.inr ⟨p, c, rfl, rfl, .inl (by rw [hpd, hcd]; rfl)⟩)
      | cons name path =>
          cases hce : entryOf H child c name with
          | none =>
              cases hpe : entryOf H parent p name with
              | none => exact .inr (.inl ⟨resolve_of_no_entry hpe path, resolve_of_no_entry hce path⟩)
              | some pe =>
                  obtain ⟨hmem, rfl⟩ := entryOf_some hpe
                  refine .inl ⟨removal pe, List.mem_append_right _ (List.mem_map_of_mem ?_),
                    path, rfl⟩
                  exact List.mem_filter.mpr ⟨hmem, by rw [hce]; rfl⟩
          | some e =>
              obtain ⟨hmem, rfl⟩ := entryOf_some hce
              obtain ⟨part, hpart, hat⟩ := exists_mem_of_forall₂ hparts.flip e hmem
              have hin : ∀ d ∈ part, d ∈ parts.flatten ++
                  ((entriesOf H parent p).filter fun e => (entryOf H child c e.name).isNone).map
                    removal :=
                fun d hd => List.mem_append_left _ (List.mem_flatten.mpr ⟨part, hpart, hd⟩)
              cases hat with
              | @added ci hpe hci =>
                  exact .inl ⟨_, hin _ List.mem_cons_self, path, rfl⟩
              | @descended pe pi ci ds hpe hpi hci hpdir hcdir hds =>
                  rcases ih pi ci ds (inodeByNumber_mem hpi).1 (inodeByNumber_mem hci).1 hpdir hcdir
                    hds path with ⟨d, hd, hpre⟩ | hun
                  · exact .inl ⟨d.below e.name, hin _ (List.mem_map_of_mem hd),
                      List.cons_prefix_cons.mpr ⟨rfl, hpre⟩⟩
                  · exact .inr (hun.below hpe hpi hce hci)
              | @replaced pe pi ci hpe hpi hci hdirs hne =>
                  exact .inl ⟨_, hin _ List.mem_cons_self, path, rfl⟩
              | @kept pe pi ci hpe hpi hci hdirs heq =>
                  exact .inr ((unreported_of_equal hp hc (inodeByNumber_mem hpi).1
                    (inodeByNumber_mem hci).1 hdirs heq path).below hpe hpi hce hci)

/-- No difference lies at or below another. -/
theorem differences_apart : ∀ (fuel : Nat) (p c : Inode) (ds : List Difference), p ∈ parent.inodes →
    c ∈ child.inodes → p.isDirectory = true → c.isDirectory = true →
    differences H parent child fuel p c = some ds →
    ds.Pairwise fun a b => ¬ a.path <+: b.path ∧ ¬ b.path <+: a.path := by
  intro fuel
  induction fuel with
  | zero =>
      intro p c ds _ _ _ _ h
      cases h
  | succ fuel ih =>
      intro p c ds hpm hcm hpd hcd h
      obtain ⟨parts, hparts, rfl⟩ := differences_cases hp hc pp pc hpm hcm hpd hcd h
      have hcnames := namesOK_entriesOf (H := H) hc c
      have hpnames := namesOK_entriesOf (H := H) hp p
      refine List.pairwise_append.mpr ⟨List.pairwise_flatten.mpr ⟨fun part hpart => ?_, ?_⟩, ?_, ?_⟩
      · obtain ⟨e, he, hat⟩ := exists_mem_of_forall₂ hparts part hpart
        cases hat with
        | added hpe hci => exact List.pairwise_singleton ..
        | @descended pe pi ci ds hpe hpi hci hpdir hcdir hds =>
            have hbelow := ih pi ci ds (inodeByNumber_mem hpi).1 (inodeByNumber_mem hci).1 hpdir hcdir hds
            refine List.pairwise_map.mpr (hbelow.imp fun hab => ?_)
            exact ⟨fun hpre => hab.1 (List.cons_prefix_cons.mp hpre).2,
              fun hpre => hab.2 (List.cons_prefix_cons.mp hpre).2⟩
        | replaced hpe hpi hci hdirs hne => exact List.pairwise_singleton ..
        | kept hpe hpi hci hdirs heq => exact List.Pairwise.nil
      · refine pairwise_of_forall₂ (fun e e' part part' hat hat' hlt d hd d' hd' => ?_) hparts
          hcnames.sorted
        exact apart_of_heads (hat.path_eq d hd) (hat'.path_eq d' hd') (ne_of_name_lt hlt)
      · refine List.pairwise_map.mpr ((hpnames.sorted.filter _).imp fun hlt => ?_)
        exact apart_of_heads ⟨[], rfl⟩ ⟨[], rfl⟩ (ne_of_name_lt hlt)
      · intro d hd d' hd'
        obtain ⟨part, hpart, hdpart⟩ := List.mem_flatten.mp hd
        obtain ⟨e, he, hat⟩ := exists_mem_of_forall₂ hparts part hpart
        obtain ⟨e', he', rfl⟩ := List.mem_map.mp hd'
        -- the child has the one name and not the other
        have hnone := entryOf_none (Option.isNone_iff_eq_none.mp (List.mem_filter.mp he').2) e he
        exact apart_of_heads (hat.path_eq d hdpart) ⟨[], rfl⟩ hnone

/-- A walk that runs out of fuel has followed a path as long as that in the parent. -/
theorem differences_fuel : ∀ (fuel : Nat) (p c : Inode), p ∈ parent.inodes → c ∈ child.inodes →
    p.isDirectory = true → c.isDirectory = true → differences H parent child fuel p c = none →
    ∃ path next, path.length = fuel ∧ resolve H parent p path = some next := by
  intro fuel
  induction fuel with
  | zero => exact fun p c _ _ _ _ _ => ⟨[], p, rfl, rfl⟩
  | succ fuel ih =>
      intro p c hpm hcm hpd hcd h
      have hmap : (entriesOf H child c).mapM
          (differencesAt H parent child (differences H parent child fuel) p) = none := by
        unfold differences at h
        cases hmap : (entriesOf H child c).mapM
            (differencesAt H parent child (differences H parent child fuel) p) with
        | none => rfl
        | some parts =>
            rw [hmap] at h
            cases h
      obtain ⟨e, he, hnone⟩ := exists_none_of_mapM hmap
      obtain ⟨ci, hci⟩ := inode_of_entry hc pc hcm hcd (entryOf_of_mem hc he)
      unfold differencesAt at hnone
      cases hpe : entryOf H parent p e.name with
      | none =>
          rw [hpe] at hnone
          cases hnone
      | some pe =>
          obtain ⟨pi, hpi⟩ := inode_of_entry hp pp hpm hpd hpe
          simp only [hpe, hpi, hci] at hnone
          by_cases hdirs : (pi.isDirectory && ci.isDirectory) = true
          · obtain ⟨hpdir, hcdir⟩ := Bool.and_eq_true_iff.mp hdirs
            rw [if_pos hdirs, Option.map_eq_none_iff] at hnone
            obtain ⟨path, next, hlen, hres⟩ := ih pi ci (inodeByNumber_mem hpi).1
              (inodeByNumber_mem hci).1 hpdir hcdir hnone
            exact ⟨e.name :: path, next, by rw [List.length_cons, hlen],
              (resolve_of_entry hpe hpi path).trans hres⟩
          · rw [if_neg hdirs] at hnone
            split at hnone <;> cases hnone

end

end LimniFS.DeltaBuilder
