/-
Trees as maps from paths, and patches that put a subtree at a path.

A tree is a partial map from paths, and a patch replaces everything at and below one
path.  Patches whose paths are pairwise incomparable do not meet: at every path at most
one of them has a say, so a list of them can be applied in any order
(`applyAll_of_mem`, `applyAll_of_none`).

The second half is about the text of a path: its components with a separator between
them.  Components that are not empty and do not hold the separator are read back by
splitting, so such paths have different texts when they are different.
-/
import Mathlib.Data.List.Basic
import Mathlib.Data.List.Infix

namespace Lib

namespace TreePatch

variable {κ α : Type} [DecidableEq κ]

/-- What stands at each path. -/
abbrev TreeMap (κ α : Type) := List κ → Option α

/-- A path and the tree to put there. -/
structure Patch (κ α : Type) where
  path : List κ
  tree : TreeMap κ α

/-- Everything at and below the patch's path comes from its tree. -/
def Patch.apply (p : Patch κ α) (m : TreeMap κ α) : TreeMap κ α := fun q =>
  if p.path <+: q then p.tree (q.drop p.path.length) else m q

def applyAll (patches : List (Patch κ α)) (m : TreeMap κ α) : TreeMap κ α :=
  patches.foldl (fun m p => p.apply m) m

/-- Neither path is at or below the other. -/
def Apart (a b : Patch κ α) : Prop := ¬ a.path <+: b.path ∧ ¬ b.path <+: a.path

theorem applyAll_of_none {patches : List (Patch κ α)} {q : List κ}
    (h : ∀ p ∈ patches, ¬ p.path <+: q) (m : TreeMap κ α) : applyAll patches m q = m q := by
  induction patches generalizing m with
  | nil => rfl
  | cons p rest ih =>
      have hp : ¬ p.path <+: q := h p List.mem_cons_self
      rw [applyAll, List.foldl_cons, ← applyAll, ih fun p hp => h p (List.mem_cons_of_mem _ hp),
        Patch.apply, if_neg hp]

theorem applyAll_of_mem {patches : List (Patch κ α)} (hapart : patches.Pairwise Apart)
    {p : Patch κ α} (hp : p ∈ patches) {q : List κ} (hq : p.path <+: q) (m : TreeMap κ α) :
    applyAll patches m q = p.tree (q.drop p.path.length) := by
  induction patches generalizing m with
  | nil => cases hp
  | cons first rest ih =>
      obtain ⟨hfirst, hrest⟩ := List.pairwise_cons.mp hapart
      rw [applyAll, List.foldl_cons, ← applyAll]
      rcases List.mem_cons.mp hp with rfl | hmem
      · -- a later patch that covers `q` too would be comparable to this one
        rw [applyAll_of_none, Patch.apply, if_pos hq]
        intro later hlater hcovers
        obtain ⟨hle, hge⟩ := hfirst later hlater
        rcases List.prefix_or_prefix_of_prefix hq hcovers with hpre | hpre
        · exact hle hpre
        · exact hge hpre
      · exact ih hrest hmem _

end TreePatch

/-! ### The text of a path -/

namespace PathText

variable {κ : Type} (sep : κ)

/-- The components with the separator between them. -/
def join : List (List κ) → List κ
  | [] => []
  | [name] => name
  | name :: second :: rest => name ++ sep :: join (second :: rest)

/-- The parts between the separators. -/
def split [DecidableEq κ] : List κ → List (List κ)
  | [] => [[]]
  | c :: rest =>
      if c = sep then [] :: split rest
      else
        match split rest with
        | [] => [[c]]
        | first :: more => (c :: first) :: more

/-- The components of a text; the empty text has none. -/
def components [DecidableEq κ] (text : List κ) : List (List κ) := if text = [] then [] else split sep text

variable {sep}

theorem split_name [DecidableEq κ] {name : List κ} (h : sep ∉ name) : split sep name = [name] := by
  induction name with
  | nil => rfl
  | cons c rest ih =>
      have hc : c ≠ sep := fun hc => h (hc ▸ List.mem_cons_self)
      rw [split, if_neg hc, ih fun hr => h (List.mem_cons_of_mem _ hr)]

theorem split_name_append [DecidableEq κ] {name : List κ} (h : sep ∉ name) (text : List κ) :
    split sep (name ++ sep :: text) = name :: split sep text := by
  induction name with
  | nil => rw [List.nil_append, split, if_pos rfl]
  | cons c rest ih =>
      have hc : c ≠ sep := fun hc => h (hc ▸ List.mem_cons_self)
      rw [List.cons_append, split, if_neg hc, ih fun hr => h (List.mem_cons_of_mem _ hr)]

theorem split_join [DecidableEq κ] : ∀ {path : List (List κ)}, path ≠ [] → (∀ name ∈ path, sep ∉ name) →
    split sep (join sep path) = path
  | [name], _, h => split_name (h name List.mem_cons_self)
  | name :: second :: rest, _, h => by
      rw [join, split_name_append (h name List.mem_cons_self),
        split_join (List.cons_ne_nil _ _) fun n hn => h n (List.mem_cons_of_mem _ hn)]

theorem split_ne_nil [DecidableEq κ] (text : List κ) : split sep text ≠ [] := by
  cases text with
  | nil => exact List.cons_ne_nil _ _
  | cons c rest =>
      rw [split]
      split
      · exact List.cons_ne_nil _ _
      · split <;> exact List.cons_ne_nil _ _

theorem join_split [DecidableEq κ] (text : List κ) : join sep (split sep text) = text := by
  induction text with
  | nil => rfl
  | cons c rest ih =>
      obtain ⟨first, more, hrest⟩ := List.exists_cons_of_ne_nil (@split_ne_nil κ sep _ rest)
      rw [split]
      rw [hrest] at ih ⊢
      by_cases hc : c = sep
      · rw [if_pos hc, join, ih, hc, List.nil_append]
      · rw [if_neg hc, ← ih]
        cases more with
        | nil => rfl
        | cons second more => rfl

theorem join_ne_nil : ∀ {path : List (List κ)}, path ≠ [] → (∀ name ∈ path, name ≠ []) →
    join sep path ≠ []
  | [name], _, h => h name List.mem_cons_self
  | name :: second :: rest, _, h => by
      rw [join]
      exact List.append_ne_nil_of_left_ne_nil (h name List.mem_cons_self) _

/-- A name that can be a component. -/
def IsName (sep : κ) (name : List κ) : Prop := name ≠ [] ∧ sep ∉ name

theorem components_join [DecidableEq κ] {path : List (List κ)} (h : ∀ name ∈ path, IsName sep name) :
    components sep (join sep path) = path := by
  by_cases hpath : path = []
  · subst hpath
    rfl
  · rw [components, if_neg (join_ne_nil hpath fun n hn => (h n hn).1),
      split_join hpath fun n hn => (h n hn).2]

theorem join_append_name {path : List (List κ)} (hpath : path ≠ []) (name : List κ) :
    join sep (path ++ [name]) = join sep path ++ sep :: name := by
  induction path with
  | nil => exact absurd rfl hpath
  | cons first rest ih =>
      cases rest with
      | nil => rfl
      | cons second rest =>
          rw [List.cons_append, List.cons_append, join, ← List.cons_append,
            ih (List.cons_ne_nil _ _), join, List.append_assoc, List.cons_append]

/-- What is in a joined path is in one of its components, or stands between two. -/
theorem mem_join {c : κ} : ∀ {path : List (List κ)}, c ∈ join sep path →
    c = sep ∨ ∃ name ∈ path, c ∈ name
  | [], h => absurd h List.not_mem_nil
  | [name], h => .inr ⟨name, List.mem_cons_self, h⟩
  | name :: second :: rest, h => by
      rw [join, List.mem_append, List.mem_cons] at h
      rcases h with hname | hsep | hrest
      · exact .inr ⟨name, List.mem_cons_self, hname⟩
      · exact .inl hsep
      · rcases mem_join hrest with hsep | ⟨n, hn, hc⟩
        · exact .inl hsep
        · exact .inr ⟨n, List.mem_cons_of_mem _ hn, hc⟩

/-- No component of a joined path is empty. -/
theorem join_no_double : ∀ {path : List (List κ)}, (∀ name ∈ path, IsName sep name) →
    ¬ [sep, sep] <:+: join sep path
  | [], _, h => by simpa [join] using h.length_le
  | [name], hnames, h => (hnames name List.mem_cons_self).2 (h.subset List.mem_cons_self)
  | name :: second :: rest, hnames, h => by
      obtain ⟨hname, hrest⟩ := List.forall_mem_cons.mp hnames
      have hfirst : ∀ after, join sep (second :: rest) ≠ sep :: after := by
        intro after heq
        obtain ⟨c, cs, rfl⟩ := List.exists_cons_of_ne_nil (hrest second List.mem_cons_self).1
        have hc : c = sep := by
          cases rest with
          | nil => exact (List.cons.inj heq).1
          | cons third rest => exact (List.cons.inj heq).1
        exact (hrest (c :: cs) List.mem_cons_self).2 (hc ▸ List.mem_cons_self)
      obtain ⟨before, after, heq⟩ := h
      rw [join, List.append_assoc, List.append_eq_append_iff] at heq
      rcases heq with ⟨mid, hmid, heq⟩ | ⟨mid, hmid, heq⟩
      · -- the pair begins inside the first component, or where it ends
        cases mid with
        | nil =>
            have htail := (List.cons.inj heq).2
            exact hfirst after htail.symm
        | cons c mid =>
            have hc : sep = c := (List.cons.inj heq).1
            exact hname.2 (hmid ▸ List.mem_append_right _ (hc ▸ List.mem_cons_self))
      · cases mid with
        | nil =>
            have htail := (List.cons.inj heq).2
            exact hfirst after htail
        | cons c mid =>
            have htail := (List.cons.inj heq).2
            exact join_no_double hrest ⟨mid, after, (List.append_assoc ..).trans htail.symm⟩

end PathText

end Lib
