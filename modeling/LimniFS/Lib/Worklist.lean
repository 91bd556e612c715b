/-
Emptying a worklist that remembers nothing, and following leads that are remembered.

An item is taken from the front of a worklist and its children are put in at the back.  No item is
marked, so one that is reached twice is taken twice, and the list need not ever be empty.

It is emptied exactly when no item in it starts an endless descent (`drains_iff`), and where
there are only so many items, when none of them leads back to one it came through
(`acc_iff_acyclic`).  A recursion into all the children comes back under the same condition
(`descends_iff`).

What is found at a place ends a chase, leads on to another place, or is a dead end.  `follow`
keeps the places it has been to and gives up at one that it meets again.  Where the leads stay
within a list of places, one call for each of them and one more are enough (`follow_stable`): the
chase then ends as the leads do (`follow_eq_ok_iff`), unless they run into a dead end or into a
circle (`follow_error_iff`).
-/
import Mathlib.Algebra.GroupWithZero.Nat
import Mathlib.Data.Set.Finite.List
import Mathlib.Logic.Relation
import Mathlib.Order.WellFounded
import Mathlib.Data.List.Perm.Subperm

namespace Lib.Worklist

variable {ν : Type} (children : ν → List ν)

/-- Is the list empty after so many items? -/
def drains : Nat → List ν → Bool
  | _, [] => true
  | 0, _ :: _ => false
  | fuel + 1, item :: rest => drains fuel (rest ++ children item)

/-- One item is a child of the other. -/
def ChildOf (child item : ν) : Prop := child ∈ children item

variable {children}

theorem acc_of_drains : ∀ (fuel : Nat) (items : List ν), drains children fuel items = true →
    ∀ item ∈ items, Acc (ChildOf children) item := by
  intro fuel
  induction fuel with
  | zero =>
      intro items h item hitem
      cases items with
      | nil => exact absurd hitem List.not_mem_nil
      | cons first rest => exact absurd h Bool.false_ne_true
  | succ fuel ih =>
      intro items h item hitem
      cases items with
      | nil => exact absurd hitem List.not_mem_nil
      | cons first rest =>
          have hlater := ih (rest ++ children first) h
          rcases List.mem_cons.mp hitem with rfl | hrest
          · exact Acc.intro item fun child hchild =>
              hlater child (List.mem_append_right _ hchild)
          · exact hlater item (List.mem_append_left _ hrest)

variable (children) in
/-- How many items are taken for one of the list: itself, and those taken for its children. -/
inductive Cost : ν → Nat → Prop
  | item {item : ν} {costs : List Nat} (below : List.Forall₂ Cost (children item) costs) :
      Cost item (costs.sum + 1)

theorem exists_cost {item : ν} (h : Acc (ChildOf children) item) : ∃ n, Cost children item n := by
  induction h with
  | intro item _ ih =>
      have hall : ∀ items : List ν, (∀ child ∈ items, ∃ n, Cost children child n) →
          ∃ costs, List.Forall₂ (Cost children) items costs := by
        intro items
        induction items with
        | nil => exact fun _ => ⟨[], List.Forall₂.nil⟩
        | cons first rest ihrest =>
            intro h
            obtain ⟨hfirst, hrest⟩ := List.forall_mem_cons.mp h
            obtain ⟨n, hn⟩ := hfirst
            obtain ⟨costs, hcosts⟩ := ihrest hrest
            exact ⟨n :: costs, List.Forall₂.cons hn hcosts⟩
      obtain ⟨costs, hcosts⟩ := hall (children item) ih
      exact ⟨costs.sum + 1, Cost.item hcosts⟩

theorem drains_of_costs : ∀ (fuel : Nat) (items : List ν) (costs : List Nat),
    List.Forall₂ (Cost children) items costs → costs.sum ≤ fuel → drains children fuel items = true := by
  intro fuel
  induction fuel with
  | zero =>
      intro items costs h hsum
      cases h with
      | nil => rfl
      | cons hfirst hrest =>
          cases hfirst with
          | item below =>
              rw [List.sum_cons] at hsum
              omega
  | succ fuel ih =>
      intro items costs h hsum
      cases h with
      | nil => rfl
      | cons hfirst hrest =>
          cases hfirst with
          | item below =>
              refine ih _ _ (List.rel_append hrest below) ?_
              rw [List.sum_cons] at hsum
              rw [List.sum_append]
              omega

/-- **The list is emptied exactly when nothing in it starts an endless descent.** -/
theorem drains_iff {items : List ν} :
    (∃ fuel, drains children fuel items = true) ↔ ∀ item ∈ items, Acc (ChildOf children) item := by
  constructor
  · rintro ⟨fuel, h⟩
    exact acc_of_drains fuel items h
  · intro h
    have hcosts : ∃ costs, List.Forall₂ (Cost children) items costs := by
      induction items with
      | nil => exact ⟨[], List.Forall₂.nil⟩
      | cons first rest ih =>
          obtain ⟨hfirst, hrest⟩ := List.forall_mem_cons.mp h
          obtain ⟨n, hn⟩ := exists_cost hfirst
          obtain ⟨costs, hcosts⟩ := ih hrest
          exact ⟨n :: costs, List.Forall₂.cons hn hcosts⟩
    obtain ⟨costs, hcosts⟩ := hcosts
    exact ⟨costs.sum, drains_of_costs _ items costs hcosts (Nat.le_refl _)⟩

/-! ### Cycles -/

open Relation

variable (children) in
/-- No item that is reached from this one leads back to itself. -/
def Acyclic (start : ν) : Prop :=
  ∀ item, ReflTransGen (ChildOf children) item start → ¬ TransGen (ChildOf children) item item

theorem acyclic_of_acc {start : ν} (h : Acc (ChildOf children) start) : Acyclic children start := by
  intro item hreach hcycle
  have hitem : Acc (ChildOf children) item := by
    rcases reflTransGen_iff_eq_or_transGen.mp hreach with heq | hbelow
    · rwa [← heq]
    · exact h.inv_of_transGen hbelow
  have hpaths := hitem.transGen
  induction hpaths with
  | intro item _ ih => exact ih item hcycle (hreach) hcycle hitem

/-- **With finitely many items, only a cycle makes a descent endless.** -/
theorem acc_iff_acyclic {start : ν} (known : List ν)
    (hknown : ∀ item, ∀ child ∈ children item, child ∈ known) :
    Acc (ChildOf children) start ↔ Acyclic children start := by
  refine ⟨acyclic_of_acc, fun hacyclic => ?_⟩
  let Item := { item // item ∈ start :: known }
  have hfinite : Finite Item := (List.finite_toSet (start :: known)).to_subtype
  -- below one another, as far as the start reaches
  let Below (a b : Item) : Prop :=
    TransGen (ChildOf children) a.1 b.1 ∧ ReflTransGen (ChildOf children) b.1 start
  have htrans : IsTrans Item Below := ⟨fun a b c hab hbc => ⟨hab.1.trans hbc.1, hbc.2⟩⟩
  have hirrefl : Std.Irrefl Below := ⟨fun a haa => hacyclic a.1 haa.2 haa.1⟩
  have hwf : WellFounded Below := Finite.wellFounded_of_trans_of_irrefl Below
  have hall : ∀ item : Item, ReflTransGen (ChildOf children) item.1 start →
      Acc (ChildOf children) item.1 := by
    intro item
    induction item using hwf.induction with
    | h item ih =>
        intro hreach
        refine Acc.intro item.1 fun child hchild => ?_
        have hmem : child ∈ start :: known := List.mem_cons_of_mem _ (hknown item.1 child hchild)
        exact ih ⟨child, hmem⟩ ⟨TransGen.single hchild, hreach⟩ (ReflTransGen.head hchild hreach)
  exact hall ⟨start, List.mem_cons_self⟩ ReflTransGen.refl

/-! ### Going down by recursion -/

variable (children) in
/-- Does a recursion into all the children come back, if it may go so deep? -/
def descends : Nat → ν → Bool
  | 0, _ => false
  | depth + 1, item => (children item).all (descends depth)

theorem acc_of_descends : ∀ (depth : Nat) (item : ν), descends children depth item = true →
    Acc (ChildOf children) item := by
  intro depth
  induction depth with
  | zero => exact fun _ h => absurd h Bool.false_ne_true
  | succ depth ih =>
      intro item h
      rw [descends, List.all_eq_true] at h
      exact Acc.intro item fun child hchild => ih child (h child hchild)

/-- Without a cycle the items come one after another on the way down, and each once. -/
theorem descends_below {start : ν} (known : List ν) (hacyclic : Acyclic children start)
    (hknown : ∀ item, ∀ child ∈ children item, child ∈ known) :
    ∀ (depth : Nat) (above : List ν) (item : ν), above.Nodup →
      (∀ a ∈ above, TransGen (ChildOf children) item a ∧ a ∈ known) → item ∈ known →
      ReflTransGen (ChildOf children) item start → known.length < depth + above.length →
      descends children depth item = true := by
  intro depth
  induction depth with
  | zero =>
      intro above item hnodup habove _ _ hdeep
      have hle := (List.subperm_of_subset hnodup fun a ha => (habove a ha).2).length_le
      omega
  | succ depth ih =>
      intro above item hnodup habove hitem hreach hdeep
      rw [descends, List.all_eq_true]
      intro child hchild
      have hnew : item ∉ above := fun hmem => hacyclic item hreach (habove item hmem).1
      refine ih (item :: above) child (List.nodup_cons.mpr ⟨hnew, hnodup⟩) ?_
        (hknown item child hchild) (ReflTransGen.head hchild hreach) ?_
      · intro a ha
        rcases List.mem_cons.mp ha with heq | ha
        · rw [heq]
          exact ⟨TransGen.single hchild, hitem⟩
        · exact ⟨TransGen.head hchild (habove a ha).1, (habove a ha).2⟩
      · rw [List.length_cons]
        omega

/-- **The recursion comes back exactly when no item it reaches leads back to itself**, and then
it goes no deeper than there are items. -/
theorem descends_iff {start : ν} (known : List ν) (hstart : start ∈ known)
    (hknown : ∀ item, ∀ child ∈ children item, child ∈ known) :
    ((∃ depth, descends children depth start = true) ↔ Acyclic children start) ∧
      (Acyclic children start → descends children (known.length + 1) start = true) := by
  have hbound : Acyclic children start → descends children (known.length + 1) start = true := by
    intro hacyclic
    exact descends_below known hacyclic hknown (known.length + 1) [] start List.nodup_nil
      (fun _ ha => absurd ha List.not_mem_nil) hstart ReflTransGen.refl (by simp)
  refine ⟨⟨fun ⟨depth, h⟩ => acyclic_of_acc (acc_of_descends depth start h), fun h => ?_⟩, hbound⟩
  exact ⟨_, hbound h⟩

end Lib.Worklist

namespace Lib.Chase

variable {α β : Type}

/-- What is found at a place. -/
inductive Found (α β : Type) where
  | ends (b : β)
  | leads (next : α)
  | dead

/-! ### Where the leads go -/

section
variable (look : α → Found α β)

def Leads (a next : α) : Prop := look a = .leads next

/-- Along any number of leads. -/
abbrev LeadsTo : α → α → Prop := Relation.ReflTransGen (Leads look)

/-- The leads from a place end with `b`. -/
def EndsWith (a : α) (b : β) : Prop := ∃ t, LeadsTo look a t ∧ look t = .ends b

/-- The leads come back to the place. -/
def Circular (a : α) : Prop := Relation.TransGen (Leads look) a a

/-- The leads from a place run into a dead end or into a circle. -/
def Fails (a : α) : Prop := ∃ t, LeadsTo look a t ∧ (look t = .dead ∨ Circular look t)

end

section
variable {look : α → Found α β} {a next t : α} {b c : β}

theorem Leads.unique {other : α} (h : Leads look a next) (h' : Leads look a other) :
    next = other := by
  have heq : Found.leads (β := β) next = .leads other := h.symm.trans h'
  exact Found.leads.inj heq

theorem EndsWith.step (h : EndsWith look a b) (hnext : Leads look a next) :
    EndsWith look next b := by
  obtain ⟨t, hto, hends⟩ := h
  rcases Relation.ReflTransGen.cases_head hto with rfl | ⟨other, hother, hto⟩
  · cases hends.symm.trans hnext
  · exact ⟨t, hnext.unique hother ▸ hto, hends⟩

theorem EndsWith.along (h : EndsWith look a b) (hto : LeadsTo look a t) : EndsWith look t b := by
  induction hto with
  | refl => exact h
  | tail _ hnext ih => exact ih.step hnext

theorem EndsWith.unique (h : EndsWith look a b) (h' : EndsWith look a c) : b = c := by
  obtain ⟨t, hto, hends⟩ := h
  obtain ⟨u, htou, hendsu⟩ := h'.along hto
  rcases Relation.ReflTransGen.cases_head htou with rfl | ⟨_, hnext, -⟩
  · exact Found.ends.inj (hends.symm.trans hendsu)
  · cases hends.symm.trans hnext

theorem Circular.along (h : Circular look a) (hto : LeadsTo look a t) : Circular look t := by
  induction hto with
  | refl => exact h
  | tail _ hnext ih =>
      obtain ⟨other, hother, hback⟩ := Relation.TransGen.head'_iff.mp ih
      exact Relation.TransGen.tail' (hother.unique hnext ▸ hback) hnext

theorem EndsWith.not_fails (h : EndsWith look a b) : ¬ Fails look a := by
  rintro ⟨t, hto, hbad⟩
  obtain ⟨u, htou, hends⟩ := h.along hto
  rcases hbad with hdead | hcircle
  · rcases Relation.ReflTransGen.cases_head htou with rfl | ⟨_, hnext, -⟩
    · cases hdead.symm.trans hends
    · cases hdead.symm.trans hnext
  · obtain ⟨_, hnext, -⟩ := Relation.TransGen.head'_iff.mp (hcircle.along htou)
    cases hends.symm.trans hnext

end

/-! ### The chase -/

section
variable [DecidableEq α] (look : α → Found α β)

/-- Follow the leads; an error is the place where the chase gave up. -/
def follow : Nat → α → List α → Except α β
  | 0, a, _ => .error a
  | fuel + 1, a, seen =>
    if a ∈ seen then .error a
    else
      match look a with
      | .ends b => .ok b
      | .leads next => follow fuel next (seen ++ [a])
      | .dead => .error a

end

/-- The calls left are enough for the places that were not seen yet. -/
structure Enough (known seen : List α) (fuel : Nat) : Prop where
  nodup : seen.Nodup
  subset : seen ⊆ known
  left : known.length < fuel + seen.length

section
variable {known seen : List α} {fuel fuel' : Nat} {a : α}

theorem enough_nil (known : List α) (h : known.length < fuel) : Enough known [] fuel :=
  ⟨List.nodup_nil, List.nil_subset _, by simpa using h⟩

theorem Enough.pos (h : Enough known seen fuel) : ∃ n, fuel = n + 1 := by
  have hle := (h.nodup.subperm h.subset).length_le
  have hleft := h.left
  exact ⟨fuel - 1, by omega⟩

theorem Enough.step (h : Enough known seen (fuel + 1)) (ha : a ∈ known) (hnew : a ∉ seen) :
    Enough known (seen ++ [a]) fuel := by
  refine ⟨?_, ?_, ?_⟩
  · refine List.nodup_append.mpr ⟨h.nodup, by simp, fun x hx y hy => ?_⟩
    rw [List.mem_singleton.mp hy]
    exact fun heq => hnew (heq ▸ hx)
  · exact List.append_subset.mpr ⟨h.subset, by simpa using ha⟩
  · have hleft := h.left
    rw [List.length_append, List.length_singleton]
    omega

variable [DecidableEq α] {look : α → Found α β}
  (hclosed : ∀ a next, Leads look a next → next ∈ known)

include hclosed

theorem follow_stable (h : Enough known seen fuel) (h' : Enough known seen fuel')
    (ha : a ∈ known) : follow look fuel a seen = follow look fuel' a seen := by
  induction fuel generalizing fuel' a seen with
  | zero =>
      obtain ⟨n, hn⟩ := h.pos
      cases hn
  | succ fuel ih =>
      obtain ⟨n, rfl⟩ := h'.pos
      unfold follow
      by_cases hseen : a ∈ seen
      · rw [if_pos hseen, if_pos hseen]
      · rw [if_neg hseen, if_neg hseen]
        cases hlook : look a with
        | ends b => rfl
        | leads next => exact ih (h.step ha hseen) (h'.step ha hseen) (hclosed a next hlook)
        | dead => rfl

theorem follow_spec (h : Enough known seen fuel) (ha : a ∈ known)
    (hseen : ∀ x ∈ seen, Relation.TransGen (Leads look) x a) :
    (∃ b, follow look fuel a seen = .ok b ∧ EndsWith look a b) ∨
      ∃ t, follow look fuel a seen = .error t ∧ LeadsTo look a t ∧
        (look t = .dead ∨ Circular look t) := by
  induction fuel generalizing a seen with
  | zero =>
      obtain ⟨n, hn⟩ := h.pos
      cases hn
  | succ fuel ih =>
      unfold follow
      by_cases hmem : a ∈ seen
      · rw [if_pos hmem]
        exact .inr ⟨a, rfl, .refl, .inr (hseen a hmem)⟩
      · rw [if_neg hmem]
        cases hlook : look a with
        | ends b => exact .inl ⟨b, rfl, a, .refl, hlook⟩
        | dead => exact .inr ⟨a, rfl, .refl, .inl hlook⟩
        | leads next =>
            have hnext : Leads look a next := hlook
            have hbehind : ∀ x ∈ seen ++ [a], Relation.TransGen (Leads look) x next := by
              intro x hx
              rcases List.mem_append.mp hx with hx | hx
              · exact (hseen x hx).tail hnext
              · rw [List.mem_singleton.mp hx]
                exact .single hnext
            rcases ih (h.step ha hmem) (hclosed a next hnext) hbehind with
              ⟨b, hok, t, hto, hends⟩ | ⟨t, herr, hto, hbad⟩
            · exact .inl ⟨b, hok, t, .head hnext hto, hends⟩
            · exact .inr ⟨t, herr, .head hnext hto, hbad⟩

theorem follow_eq_ok_iff (hfuel : known.length < fuel) (ha : a ∈ known) {b : β} :
    follow look fuel a [] = .ok b ↔ EndsWith look a b := by
  rcases follow_spec hclosed (enough_nil known hfuel) ha (by simp) with
    ⟨c, hok, hends⟩ | ⟨t, herr, hto, hbad⟩
  · rw [hok]
    exact ⟨fun h => Except.ok.inj h ▸ hends, fun h => congrArg Except.ok (hends.unique h)⟩
  · rw [herr]
    exact ⟨fun h => absurd h (by simp), fun h => absurd ⟨t, hto, hbad⟩ h.not_fails⟩

theorem follow_error_iff (hfuel : known.length < fuel) (ha : a ∈ known) :
    (∃ t, follow look fuel a [] = .error t) ↔ Fails look a := by
  rcases follow_spec hclosed (enough_nil known hfuel) ha (by simp) with
    ⟨c, hok, hends⟩ | ⟨t, herr, hto, hbad⟩
  · rw [hok]
    exact ⟨fun ⟨_, h⟩ => absurd h (by simp), fun h => absurd h hends.not_fails⟩
  · rw [herr]
    exact ⟨fun _ => ⟨t, hto, hbad⟩, fun _ => ⟨t, rfl⟩⟩

end

end Lib.Chase
