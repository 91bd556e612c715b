/-
Lists related element by element.

`List.Forall₂ R as bs` says that two lists have one length and that `R` holds at every
place.  These are the ways such facts are put together here: a property moves across
the relation, two relations to a common list join, and a `filterMap` that drops
nothing is related to its source.  Lists that are related in some order are related
when they are sorted.
-/
import Mathlib.Data.List.Forall2
import Mathlib.Data.List.Nodup
import Mathlib.Data.List.Perm.Basic
import Mathlib.Data.List.Sort

namespace Lib

variable {α β γ : Type}

theorem forall_mem_iff_of_forall₂ {R : α → β → Prop} {P : α → Prop} {Q : β → Prop}
    {as : List α} {bs : List β} (h : List.Forall₂ R as bs) (hPQ : ∀ a b, R a b → (P a ↔ Q b)) :
    (∀ a ∈ as, P a) ↔ ∀ b ∈ bs, Q b := by
  induction h with
  | nil => simp
  | cons hab _ ih => simp [hPQ _ _ hab, ih]

theorem forall_mem_of_forall₂ {R : α → β → Prop} {P : α → Prop} {Q : β → Prop} {as : List α}
    {bs : List β} (h : List.Forall₂ R as bs) (hQ : ∀ b ∈ bs, Q b)
    (hP : ∀ a b, R a b → Q b → P a) : ∀ a ∈ as, P a := by
  induction h with
  | nil => intro a ha; cases ha
  | cons hab _ ih =>
      intro a ha
      rcases List.mem_cons.mp ha with rfl | ha
      · exact hP _ _ hab (hQ _ List.mem_cons_self)
      · exact ih (fun b hb => hQ b (List.mem_cons_of_mem _ hb)) a ha

theorem exists_mem_of_forall₂ {R : α → β → Prop} {as : List α} {bs : List β}
    (h : List.Forall₂ R as bs) : ∀ b ∈ bs, ∃ a ∈ as, R a b := by
  induction h with
  | nil => intro b hb; cases hb
  | @cons a b _ _ hab _ ih =>
      intro b' hb'
      rcases List.mem_cons.mp hb' with rfl | hb'
      · exact ⟨a, List.mem_cons_self, hab⟩
      · obtain ⟨a', ha', hR⟩ := ih b' hb'
        exact ⟨a', List.mem_cons_of_mem _ ha', hR⟩

theorem forall₂_and_mem_right {R : α → β → Prop} {as : List α} {bs : List β}
    (h : List.Forall₂ R as bs) : List.Forall₂ (fun a b => R a b ∧ b ∈ bs) as bs := by
  induction h with
  | nil => exact .nil
  | cons hab _ ih =>
      exact .cons ⟨hab, List.mem_cons_self⟩
        (ih.imp fun _ _ hb => ⟨hb.1, List.mem_cons_of_mem _ hb.2⟩)

theorem forall₂_and_mem_left {R : α → β → Prop} {as : List α} {bs : List β}
    (h : List.Forall₂ R as bs) : List.Forall₂ (fun a b => R a b ∧ a ∈ as) as bs :=
  (forall₂_and_mem_right h.flip).flip

theorem map_eq_map_of_forall₂ {R : α → β → Prop} {f : α → γ} {g : β → γ} {as : List α}
    {bs : List β} (h : List.Forall₂ R as bs) (hfg : ∀ a b, R a b → f a = g b) :
    as.map f = bs.map g := by
  induction h with
  | nil => rfl
  | cons hab _ ih => rw [List.map_cons, List.map_cons, hfg _ _ hab, ih]

theorem getElem?_of_forall₂ {R : α → β → Prop} {as : List α} {bs : List β}
    (h : List.Forall₂ R as bs) : ∀ {n : Nat} {a : α}, as[n]? = some a →
      ∃ b, bs[n]? = some b ∧ R a b := by
  induction h with
  | nil => intro n a ha; cases ha
  | @cons a b as bs hab _ ih =>
      intro n a' ha
      cases n with
      | zero =>
          cases ha
          exact ⟨b, rfl, hab⟩
      | succ n => exact ih ha

theorem forall₂_set {R : α → β → Prop} {as : List α} {bs : List β} (h : List.Forall₂ R as bs) :
    ∀ {n : Nat} {a : α} {b : β}, as[n]? = some a → R a b → List.Forall₂ R as (bs.set n b) := by
  induction h with
  | nil => intro n a b ha; cases ha
  | @cons a b as bs hab hrest ih =>
      intro n a' b' ha hab'
      cases n with
      | zero =>
          cases ha
          exact .cons hab' hrest
      | succ n => exact .cons hab (ih ha hab')

/-- Two lists related to a third are related to each other. -/
theorem forall₂_join {R : α → γ → Prop} {S : β → γ → Prop} {T : α → β → Prop}
    (hT : ∀ a b c, R a c → S b c → T a b) :
    ∀ {as : List α} {bs : List β} {cs : List γ}, List.Forall₂ R as cs → List.Forall₂ S bs cs →
      List.Forall₂ T as bs
  | _, _, _, .nil, .nil => .nil
  | _, _, _, .cons hR hRs, .cons hS hSs => .cons (hT _ _ _ hR hS) (forall₂_join hT hRs hSs)

theorem exists_forall₂_of_forall₂ {R : α → β → Prop} {S : β → γ → Prop} {T : α → γ → Prop}
    {as : List α} {bs : List β} (h : List.Forall₂ R as bs)
    (hstep : ∀ a b, R a b → ∃ c, S b c ∧ T a c) :
    ∃ cs, List.Forall₂ S bs cs ∧ List.Forall₂ T as cs := by
  induction h with
  | nil => exact ⟨[], .nil, .nil⟩
  | cons hab _ ih =>
      obtain ⟨cs, hS, hT⟩ := ih
      obtain ⟨c, hbc, hac⟩ := hstep _ _ hab
      exact ⟨c :: cs, .cons hbc hS, .cons hac hT⟩

theorem eq_of_forall₂ {R S : α → β → Prop} {as : List α} {bs cs : List β}
    (hR : List.Forall₂ R as bs) (hS : List.Forall₂ S as cs)
    (h : ∀ a ∈ as, ∀ b c, R a b → S a c → b = c) : bs = cs := by
  induction hR generalizing cs with
  | nil => cases hS; rfl
  | cons hab _ ih =>
      rcases hS with _ | ⟨hac, hS⟩
      rw [h _ List.mem_cons_self _ _ hab hac,
        ih hS fun a ha => h a (List.mem_cons_of_mem _ ha)]

theorem forall₂_filterMap {f : α → Option β} {as : List α} (h : ∀ a ∈ as, (f a).isSome = true) :
    List.Forall₂ (fun a b => f a = some b) as (as.filterMap f) := by
  induction as with
  | nil => exact .nil
  | cons a rest ih =>
      obtain ⟨b, hb⟩ := Option.isSome_iff_exists.mp (h a List.mem_cons_self)
      rw [List.filterMap_cons_some hb]
      exact .cons hb (ih fun a' ha' => h a' (List.mem_cons_of_mem _ ha'))

theorem find?_of_nodup_map [DecidableEq β] {f : α → β} {as : List α} (h : (as.map f).Nodup)
    {a : α} (ha : a ∈ as) : as.find? (fun x => f x = f a) = some a := by
  induction as with
  | nil => cases ha
  | cons b rest ih =>
      rw [List.map_cons, List.nodup_cons] at h
      rcases List.mem_cons.mp ha with rfl | ha
      · exact List.find?_cons_of_pos (by simp)
      · have hne : f b ≠ f a := fun heq => h.1 (heq ▸ List.mem_map_of_mem ha)
        rw [List.find?_cons_of_neg (by simpa using hne), ih h.2 ha]

theorem countP_mem_of_nodup_flatMap [DecidableEq β] {f : α → List β} {as : List α}
    (h : (as.flatMap f).Nodup) {b : β} (hb : b ∈ as.flatMap f) :
    as.countP (fun a => b ∈ f a) = 1 := by
  induction as with
  | nil => cases hb
  | cons a rest ih =>
      rw [List.flatMap_cons, List.nodup_append] at h
      obtain ⟨-, hrest, hdisjoint⟩ := h
      rw [List.flatMap_cons, List.mem_append] at hb
      rw [List.countP_cons]
      by_cases hab : b ∈ f a
      · have hnone : rest.countP (fun a => b ∈ f a) = 0 := by
          rw [List.countP_eq_zero]
          intro a' ha' hmem
          exact hdisjoint b hab b (List.mem_flatMap.mpr ⟨a', ha', by simpa using hmem⟩) rfl
        rw [hnone, if_pos (by simpa using hab)]
      · rw [ih hrest (hb.resolve_left hab), if_neg (by simpa using hab)]

theorem forall_eq_of_neighbours :
    ∀ (as : List α), (∀ before a b rest, as = before ++ a :: b :: rest → a = b) →
      ∀ x ∈ as, ∀ y ∈ as, x = y := by
  intro as
  induction as with
  | nil => intro _ x hx; cases hx
  | cons a rest ih =>
      intro h x hx y hy
      have hrest := ih fun before b c later heq => h (a :: before) b c later (by rw [heq]; rfl)
      have hfirst : ∀ z ∈ rest, a = z := by
        intro z hz
        cases rest with
        | nil => cases hz
        | cons b later => rw [h [] a b later rfl, hrest b List.mem_cons_self z hz]
      rcases List.mem_cons.mp hx with hxa | hxrest
      · rcases List.mem_cons.mp hy with hya | hyrest
        · rw [hxa, hya]
        · rw [hxa, hfirst y hyrest]
      · rcases List.mem_cons.mp hy with hya | hyrest
        · rw [hya, hfirst x hxrest]
        · exact hrest x hxrest y hyrest

theorem eq_of_perm_constant {as bs : List α} (h : as.Perm bs)
    (hbs : ∀ x ∈ bs, ∀ y ∈ bs, x = y) : as = bs := by
  cases bs with
  | nil => exact h.eq_nil
  | cons b rest =>
      have hleft : as = List.replicate (b :: rest).length b :=
        List.eq_replicate_iff.mpr ⟨h.length_eq, fun x hx =>
          hbs x (h.mem_iff.mp hx) b List.mem_cons_self⟩
      have hright : b :: rest = List.replicate (b :: rest).length b :=
        List.eq_replicate_iff.mpr ⟨rfl, fun x hx => hbs x hx b List.mem_cons_self⟩
      rw [hleft, ← hright]

theorem pairwise_of_forall₂ {R : α → β → Prop} {S : α → α → Prop} {T : β → β → Prop}
    (hT : ∀ a a' b b', R a b → R a' b' → S a a' → T b b') {as : List α} {bs : List β}
    (h : List.Forall₂ R as bs) (hS : as.Pairwise S) : bs.Pairwise T := by
  induction h with
  | nil => exact .nil
  | @cons a b as bs hab hrest ih =>
      obtain ⟨hhead, htail⟩ := List.pairwise_cons.mp hS
      refine List.pairwise_cons.mpr ⟨fun b' hb' => ?_, ih htail⟩
      obtain ⟨a', ha', hab'⟩ := exists_mem_of_forall₂ hrest b' hb'
      exact hT a a' b b' hab hab' (hhead a' ha')

theorem mapM_some_iff {f : α → Option β} :
    ∀ {as : List α} {bs : List β},
      as.mapM f = some bs ↔ List.Forall₂ (fun a b => f a = some b) as bs := by
  intro as
  induction as with
  | nil =>
      intro bs
      rw [List.mapM_nil, List.forall₂_nil_left_iff]
      exact ⟨fun h => (Option.some.inj h).symm, fun h => congrArg some h.symm⟩
  | cons a rest ih =>
      intro bs
      rw [List.mapM_cons, List.forall₂_cons_left_iff]
      simp only [Option.bind_eq_bind, Option.bind_eq_some_iff, Option.pure_def,
        Option.some.injEq]
      constructor
      · rintro ⟨b, hb, bs', hrest, rfl⟩
        exact ⟨b, bs', hb, ih.mp hrest, rfl⟩
      · rintro ⟨b, bs', hb, hrest, rfl⟩
        exact ⟨b, hb, bs', ih.mpr hrest, rfl⟩

theorem mapM_isSome_iff {f : α → Option β} {as : List α} :
    (as.mapM f).isSome ↔ ∀ a ∈ as, (f a).isSome := by
  induction as with
  | nil => simp
  | cons a rest ih =>
      rw [List.mapM_cons, List.forall_mem_cons, ← ih]
      cases f a with
      | none => simp
      | some b =>
          cases rest.mapM f with
          | none => simp
          | some bs => simp

theorem exists_none_of_mapM {f : α → Option β} :
    ∀ {as : List α}, as.mapM f = none → ∃ a ∈ as, f a = none := by
  intro as
  induction as with
  | nil => intro h; cases h
  | cons a rest ih =>
      intro h
      cases hfa : f a with
      | none => exact ⟨a, List.mem_cons_self, hfa⟩
      | some b =>
          cases hrest : rest.mapM f with
          | none =>
              obtain ⟨a', ha', hnone⟩ := ih hrest
              exact ⟨a', List.mem_cons_of_mem _ ha', hnone⟩
          | some bs =>
              rw [List.mapM_cons, hfa, hrest] at h
              cases h

theorem mapM_eq_map {γ : Type} {f : α → Option γ} {g : α → Option β} {k : β → γ} :
    ∀ {as : List α}, (∀ a ∈ as, f a = (g a).map k) → as.mapM f = (as.mapM g).map (List.map k) := by
  intro as
  induction as with
  | nil => intro _; rfl
  | cons a rest ih =>
      intro h
      rw [List.mapM_cons, List.mapM_cons, h a List.mem_cons_self,
        ih fun x hx => h x (List.mem_cons_of_mem _ hx)]
      cases g a with
      | none => rfl
      | some b =>
          cases rest.mapM g with
          | none => rfl
          | some bs => rfl

theorem forall_mem_snoc {α : Type} {P : α → Prop} {l : List α} {a : α} (hl : ∀ x ∈ l, P x) (ha : P a) :
    ∀ x ∈ l ++ [a], P x := by
  intro x hx
  rcases List.mem_append.mp hx with hin | hin
  · exact hl x hin
  · exact List.mem_singleton.mp hin ▸ ha

/-! ### Sorted by a key -/

section

variable {κ : Type} [LE κ] [DecidableLE κ] [Std.IsLinearOrder κ]

theorem pairwise_insertionSort_key (f : α → κ) (as : List α) :
    (as.insertionSort fun x y => f x ≤ f y).Pairwise fun x y => f x ≤ f y := by
  have htotal : Std.Total (fun x y : α => f x ≤ f y) := ⟨fun _ _ => Std.le_total⟩
  have htrans : IsTrans α (fun x y => f x ≤ f y) := ⟨fun _ _ _ => Std.le_trans⟩
  exact List.pairwise_insertionSort _ as

theorem eq_insertionSort_key {f : α → κ} {as bs : List α} (hnodup : (as.map f).Nodup)
    (hsorted : as.Pairwise fun x y => f x ≤ f y) (hperm : as.Perm bs) :
    as = bs.insertionSort fun x y => f x ≤ f y := by
  have hsort := List.perm_insertionSort (fun x y => f x ≤ f y) bs
  refine List.Perm.eq_of_pairwise ?_ hsorted (pairwise_insertionSort_key f bs)
    (hperm.trans hsort.symm)
  intro a b ha hb hab hba
  exact List.inj_on_of_nodup_map hnodup ha (hperm.mem_iff.mpr (hsort.mem_iff.mp hb))
    (Std.le_antisymm hab hba)

/-- Lists that are related in some order are related when they are sorted. -/
theorem forall₂_insertionSort {R : α → β → Prop} {f : α → κ} {g : β → κ}
    (hkey : ∀ a b, R a b → f a = g b) {as : List α} {bs cs : List β} (h : List.Forall₂ R as cs)
    (hperm : cs.Perm bs) (hnodup : (as.map f).Nodup) :
    List.Forall₂ R (as.insertionSort fun x y => f x ≤ f y)
      (bs.insertionSort fun x y => g x ≤ g y) := by
  have hsort := List.perm_insertionSort (fun x y => f x ≤ f y) as
  obtain ⟨ds, hR, hds⟩ := List.perm_comp_forall₂ hsort h
  have hkeys : (as.insertionSort fun x y => f x ≤ f y).map f = ds.map g :=
    map_eq_map_of_forall₂ hR hkey
  have hapart : (ds.map g).Nodup := by
    rw [← hkeys]
    exact (hsort.map f).nodup_iff.mpr hnodup
  have hsorted : ds.Pairwise fun x y => g x ≤ g y := by
    have hf := pairwise_insertionSort_key f as
    rw [← List.pairwise_map (R := (· ≤ ·)), hkeys] at hf
    exact List.pairwise_map.mp hf
  rw [← eq_insertionSort_key hapart hsorted (hds.trans hperm)]
  exact hR

end

end Lib
