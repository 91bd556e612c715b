/-
Finite maps, what their values add up to, and tables filled from a list or from results.

A map is an association list without repeated keys.  Each value has a weight; erasing a
key takes its value's weight off the total, and inserting a value puts its weight on and
takes the weight of the value it replaces off.

Where the values hold their keys, a list of values put in one after another leaves the last one of
every key.  In general a table that is filled from a list answers with the last element that has an
answer, so it depends on the list only through the order in which its elements come last, which is
what `List.dedup` keeps; and two lists whose elements come last in different orders are told apart by
two of them.

A table may also hold results worked out before, each under a key of the argument.  An answer is
right for an argument if the table has nothing under its key or the function's own result; adding a
result keeps that as long as no other argument has the key of the new one.
-/
import Mathlib.Algebra.GroupWithZero.Nat
import Mathlib.Data.List.AList
import Mathlib.Data.List.Dedup
import Mathlib.Data.List.Basic

namespace Lib

section

variable {α β : Type}

/-! ### The total weight -/

/-- The weights of the values, added up. -/
def totalWeight (weight : β → Nat) (m : AList fun _ : α => β) : Nat :=
  (m.entries.map fun e => weight e.2).sum

theorem totalWeight_of_keys_nil (weight : β → Nat) {m : AList fun _ : α => β} (h : m.keys = []) :
    totalWeight weight m = 0 := by
  unfold totalWeight
  rw [List.map_eq_nil_iff.mp h]
  rfl

variable [DecidableEq α]

theorem totalWeight_erase (weight : β → Nat) {m : AList fun _ : α => β} {a : α} {b : β} (h : m.lookup a = some b) :
    totalWeight weight (m.erase a) + weight b = totalWeight weight m := by
  have hmem : a ∈ m.entries.keys := AList.lookup_isSome.mp (by rw [h]; rfl)
  obtain ⟨b', left, right, hleft, hentries, herase⟩ := List.exists_of_kerase hmem
  have hvalue : m.lookup a = some b' := by
    refine AList.mem_lookup_iff.mpr ?_
    rw [hentries]
    simp
  rw [h] at hvalue
  cases hvalue
  show ((List.kerase a m.entries).map fun e => weight e.2).sum + weight b = _
  rw [totalWeight, herase, hentries]
  simp only [List.map_append, List.sum_append, List.map_cons, List.sum_cons]
  omega

theorem erase_of_lookup_none {m : AList fun _ : α => β} {a : α} (h : m.lookup a = none) :
    m.erase a = m :=
  AList.ext (List.kerase_of_notMem_keys (AList.lookup_eq_none.mp h))

theorem totalWeight_insert (weight : β → Nat) (m : AList fun _ : α => β) (a : α) (b : β) :
    totalWeight weight (m.insert a b) = weight b + totalWeight weight (m.erase a) := by
  unfold totalWeight
  rw [AList.entries_insert, List.map_cons, List.sum_cons]
  rfl

/-! ### Lookups -/

theorem lookup_of_lookup_erase {m : AList fun _ : α => β} {a other : α} {b : β}
    (h : (m.erase a).lookup other = some b) : m.lookup other = some b := by
  by_cases heq : other = a
  · rw [heq, AList.lookup_erase] at h
    cases h
  · rwa [AList.lookup_erase_ne heq] at h

/-! ### The number of keys -/

theorem keys_length_erase (m : AList fun _ : α => β) (a : α) :
    (m.erase a).keys.length ≤ m.keys.length := by
  rw [AList.keys_erase]
  exact List.length_erase_le

theorem keys_length_insert (m : AList fun _ : α => β) (a : α) (b : β) :
    (m.insert a b).keys.length ≤ m.keys.length + 1 := by
  rw [AList.keys_insert, List.length_cons]
  exact Nat.succ_le_succ List.length_erase_le

/-! ### Values that hold their keys -/

/-- The values put in one after another, the later over the earlier. -/
def insertAll (key : β → α) (m : AList fun _ : α => β) (l : List β) : AList fun _ : α => β :=
  l.foldl (fun m b => m.insert (key b) b) m

/-- The last value of every key. -/
def latest (key : β → α) : List β → List β
  | [] => []
  | b :: rest => if key b ∈ rest.map key then latest key rest else b :: latest key rest

/-- Every value is under its own key. -/
def SelfKeyed (key : β → α) (m : AList fun _ : α => β) : Prop := ∀ e ∈ m.entries, key e.2 = e.1

/-- The values of a map. -/
def values (m : AList fun _ : α => β) : List β := m.entries.map Sigma.snd

variable {key : β → α}

theorem insertAll_append (m : AList fun _ : α => β) (l l' : List β) :
    insertAll key m (l ++ l') = insertAll key (insertAll key m l) l' :=
  List.foldl_append

theorem lookup_insertAll (m : AList fun _ : α => β) (l : List β) (a : α) :
    (insertAll key m l).lookup a = (l.reverse.find? fun b => key b = a).or (m.lookup a) := by
  induction l generalizing m with
  | nil => rfl
  | cons b rest ih =>
      show (insertAll key (m.insert (key b) b) rest).lookup a = _
      rw [ih, List.reverse_cons, List.find?_append, Option.or_assoc]
      by_cases heq : key b = a
      · subst heq
        simp
      · rw [AList.lookup_insert_ne (fun h => heq h.symm)]
        simp [heq]

theorem SelfKeyed.insertAll {m : AList fun _ : α => β} (h : SelfKeyed key m) (l : List β) :
    SelfKeyed key (insertAll key m l) := by
  induction l generalizing m with
  | nil => exact h
  | cons b rest ih =>
      refine ih fun e he => ?_
      rw [AList.entries_insert] at he
      rcases List.mem_cons.mp he with rfl | he
      · rfl
      · exact h e ((List.kerase_sublist _ _).subset he)

theorem SelfKeyed.mem_values {m : AList fun _ : α => β} (h : SelfKeyed key m) {b : β} :
    b ∈ values m ↔ m.lookup (key b) = some b := by
  rw [← Option.mem_def, AList.mem_lookup_iff]
  constructor
  · intro hb
    obtain ⟨e, he, rfl⟩ := List.mem_map.mp hb
    rw [h e he]
    exact he
  · exact fun hb => List.mem_map_of_mem hb

omit [DecidableEq α] in
theorem SelfKeyed.nodup_keys {m : AList fun _ : α => β} (h : SelfKeyed key m) :
    ((values m).map key).Nodup := by
  have hkeys : (values m).map key = m.keys := by
    unfold values
    rw [List.map_map]
    exact List.map_congr_left fun e he => h e he
  rw [hkeys]
  exact m.keys_nodup

theorem latest_subset (l : List β) : latest key l ⊆ l := by
  induction l with
  | nil => exact fun _ h => h
  | cons b rest ih =>
      rw [latest]
      split
      · exact fun x hx => List.mem_cons_of_mem _ (ih hx)
      · exact List.cons_subset_cons b ih

theorem latest_nodup_keys (l : List β) : ((latest key l).map key).Nodup := by
  induction l with
  | nil => exact List.nodup_nil
  | cons b rest ih =>
      rw [latest]
      split
      · exact ih
      · next hnew =>
          rw [List.map_cons, List.nodup_cons]
          exact ⟨fun hmem => hnew (List.map_subset key (latest_subset rest) hmem), ih⟩

theorem mem_latest {l : List β} {b : β} :
    b ∈ latest key l ↔ l.reverse.find? (fun c => key c = key b) = some b := by
  induction l with
  | nil => simp [latest]
  | cons c rest ih =>
      rw [latest, List.reverse_cons, List.find?_append]
      cases hfind : rest.reverse.find? fun c => key c = key b with
      | some x =>
          have hx : x ∈ rest := by simpa using List.mem_of_find?_eq_some hfind
          have hkey : key x = key b := by simpa using List.find?_some hfind
          rw [hfind] at ih
          split
          · exact ih
          · next hnew =>
              rw [List.mem_cons, ih]
              refine ⟨fun h => h.resolve_left ?_, .inr⟩
              rintro rfl
              exact hnew (List.mem_map.mpr ⟨x, hx, hkey⟩)
      | none =>
          have hnone : key b ∉ rest.map key := by
            rintro hmem
            obtain ⟨x, hx, hkey⟩ := List.mem_map.mp hmem
            simpa [hkey] using List.find?_eq_none.mp hfind x (by simpa using hx)
          have hb : b ∉ latest key rest := fun hmem =>
            hnone (List.mem_map_of_mem (latest_subset rest hmem))
          by_cases heq : key c = key b
          · rw [heq, if_neg hnone, List.mem_cons]
            simp [heq, hb, eq_comm]
          · simp only [heq, decide_false, List.find?_cons_of_neg, Bool.false_eq_true, not_false_eq_true,
              List.find?_nil, Option.none_or, reduceCtorEq, iff_false]
            split
            · exact hb
            · rw [List.mem_cons, not_or]
              exact ⟨fun h => heq (by rw [h]), hb⟩

theorem values_insertAll_perm (l : List β) :
    List.Perm (values (insertAll key (∅ : AList fun _ : α => β) l)) (latest key l) := by
  have hkeyed : SelfKeyed key (insertAll key (∅ : AList fun _ : α => β) l) :=
    SelfKeyed.insertAll (fun _ hin => absurd hin List.not_mem_nil) l
  refine (List.perm_ext_iff_of_nodup hkeyed.nodup_keys.of_map (latest_nodup_keys l).of_map).mpr ?_
  intro b
  rw [hkeyed.mem_values, lookup_insertAll, AList.lookup_empty, Option.or_none, mem_latest]

end

section

variable {α β : Type} {f : α → Option β} {l l₁ l₂ : List α}

/-- What the last element that has an answer answers. -/
def lastSome (f : α → Option β) (l : List α) : Option β := l.reverse.findSome? f

@[simp] theorem lastSome_nil : lastSome f [] = none := rfl

theorem lastSome_cons (a : α) : lastSome f (a :: l) = (lastSome f l).or (f a) := by
  simp [lastSome, List.findSome?_append]

theorem lastSome_eq_none : lastSome f l = none ↔ ∀ a ∈ l, f a = none := by
  simp [lastSome]

theorem find?_reverse_flatMap (g : α → List β) (p : β → Bool) (l : List α) :
    (l.flatMap g).reverse.find? p = lastSome (fun a => (g a).reverse.find? p) l := by
  induction l with
  | nil => rfl
  | cons a l ih => simp [lastSome_cons, ih]

theorem lastSome_optionMap {γ : Type} (g : β → γ) (f : α → Option β) (l : List α) :
    lastSome (fun a => (f a).map g) l = (lastSome f l).map g := by
  induction l with
  | nil => rfl
  | cons a l ih =>
      rw [lastSome_cons, lastSome_cons, ih]
      cases lastSome f l <;> rfl

theorem lastSome_mapM {γ : Type} {g : γ → Option α} : ∀ {cs : List γ} {as : List α},
    cs.mapM g = some as → lastSome f as = lastSome (fun c => (g c).bind f) cs := by
  intro cs
  induction cs with
  | nil =>
      intro as h
      cases h
      rfl
  | cons c cs ih =>
      intro as h
      simp only [List.mapM_cons, Option.bind_eq_bind, Option.bind_eq_some_iff] at h
      obtain ⟨a, ha, as', has, h⟩ := h
      cases h
      rw [lastSome_cons, lastSome_cons, ih has, ha, Option.bind_some]

section

variable [DecidableEq α]

theorem lastSome_dedup (f : α → Option β) (l : List α) : lastSome f l.dedup = lastSome f l := by
  induction l with
  | nil => rfl
  | cons a l ih =>
      by_cases ha : a ∈ l
      · rw [List.dedup_cons_of_mem ha, ih, lastSome_cons]
        cases hlast : lastSome f l with
        | none => simp [lastSome_eq_none.mp hlast a ha]
        | some b => rfl
      · rw [List.dedup_cons_of_notMem ha, lastSome_cons, lastSome_cons, ih]

/-- Of the two, the one that is mentioned last. -/
def lastOfTwo (x y : α) (l : List α) : Option α :=
  lastSome (fun a => if a = x ∨ a = y then some a else none) l

theorem lastOfTwo_mem {x y a : α} (h : lastOfTwo x y l = some a) : a = x ∨ a = y := by
  obtain ⟨b, -, hb⟩ := List.exists_of_findSome?_eq_some h
  split at hb
  · next hpair => exact Option.some.inj hb ▸ hpair
  · cases hb

/-- Of the two, the one that comes first. -/
def firstOfTwo (x y : α) (r : List α) : Option α :=
  r.findSome? fun a => if a = x ∨ a = y then some a else none

theorem firstOfTwo_cons (x y a : α) (r : List α) :
    firstOfTwo x y (a :: r) = if a = x ∨ a = y then some a else firstOfTwo x y r := by
  unfold firstOfTwo
  rw [List.findSome?_cons]
  by_cases h : a = x ∨ a = y
  · rw [if_pos h, if_pos h]
  · rw [if_neg h, if_neg h]

theorem firstOfTwo_comm (x y : α) (r : List α) : firstOfTwo x y r = firstOfTwo y x r := by
  unfold firstOfTwo
  simp only [or_comm]

theorem firstOfTwo_skip {a : α} (y : α) : ∀ {r : List α}, a ∉ r →
    firstOfTwo a y r = firstOfTwo y y r := by
  intro r
  induction r with
  | nil =>
      intro _
      rfl
  | cons b r ih =>
      intro h
      have hb : b ≠ a := fun heq => h (heq ▸ List.mem_cons_self)
      rw [firstOfTwo_cons, firstOfTwo_cons, ih fun hmem => h (List.mem_cons_of_mem _ hmem)]
      simp only [hb, false_or, or_self]

theorem firstOfTwo_eq_none {a : α} {r : List α} (h : a ∉ r) : firstOfTwo a a r = none := by
  refine List.findSome?_eq_none_iff.mpr fun b hb => ?_
  have hne : b ≠ a := fun heq => h (heq ▸ hb)
  simp [hne]

theorem eq_of_firstOfTwo : ∀ r₁ r₂ : List α, r₁.Nodup → r₂.Nodup →
    (∀ x y, firstOfTwo x y r₁ = firstOfTwo x y r₂) → r₁ = r₂ := by
  intro r₁
  induction r₁ with
  | nil =>
      intro r₂ _ _ h
      cases r₂ with
      | nil => rfl
      | cons b r₂ => simpa [firstOfTwo] using h b b
  | cons a r₁ ih =>
      intro r₂ h₁ h₂ h
      cases r₂ with
      | nil => simpa [firstOfTwo] using h a a
      | cons b r₂ =>
          -- of the two heads each list has its own first
          obtain rfl : a = b := by
            have hpair := h a b
            rw [firstOfTwo_cons, firstOfTwo_cons, if_pos (Or.inl rfl), if_pos (Or.inr rfl)] at hpair
            exact Option.some.inj hpair
          obtain ⟨ha₁, h₁⟩ := List.nodup_cons.mp h₁
          obtain ⟨ha₂, h₂⟩ := List.nodup_cons.mp h₂
          have haway : ∀ x y, x ≠ a → y ≠ a → firstOfTwo x y r₁ = firstOfTwo x y r₂ := by
            intro x y hx hy
            have hpair := h x y
            have hno : ¬(a = x ∨ a = y) := fun heq => heq.elim (fun e => hx e.symm) fun e => hy e.symm
            rw [firstOfTwo_cons, firstOfTwo_cons, if_neg hno, if_neg hno] at hpair
            exact hpair
          have hwith : ∀ y, firstOfTwo a y r₁ = firstOfTwo a y r₂ := by
            intro y
            rw [firstOfTwo_skip y ha₁, firstOfTwo_skip y ha₂]
            by_cases hy : y = a
            · rw [hy, firstOfTwo_eq_none ha₁, firstOfTwo_eq_none ha₂]
            · exact haway y y hy hy
          rw [ih r₂ h₁ h₂ fun x y => ?_]
          by_cases hx : x = a
          · rw [hx]
            exact hwith y
          · by_cases hy : y = a
            · rw [hy, firstOfTwo_comm, firstOfTwo_comm x]
              exact hwith x
            · exact haway x y hx hy

/-- **Two lists are told apart by two elements**, unless their elements come last in one order. -/
theorem dedup_eq_of_lastOfTwo (h : ∀ x y, lastOfTwo x y l₁ = lastOfTwo x y l₂) :
    l₁.dedup = l₂.dedup := by
  refine List.reverse_injective (eq_of_firstOfTwo _ _ (List.nodup_reverse.mpr (List.nodup_dedup l₁))
    (List.nodup_reverse.mpr (List.nodup_dedup l₂)) fun x y => ?_)
  have hpair := h x y
  unfold lastOfTwo at hpair
  rw [← lastSome_dedup _ l₁, ← lastSome_dedup _ l₂] at hpair
  exact hpair

end

end

section

variable {α κ β : Type} [DecidableEq κ]

def memoLookup (entries : List (κ × β)) (k : κ) : Option β :=
  (entries.find? fun e => e.1 = k).map (·.2)

/-- For the arguments of `xs` the table answers nothing or what `f` would. -/
def MemoAgrees (key : α → κ) (f : α → β) (xs : List α) (entries : List (κ × β)) : Prop :=
  ∀ x ∈ xs, ∀ b, memoLookup entries (key x) = some b → b = f x

theorem memoAgrees_nil (key : α → κ) (f : α → β) (xs : List α) : MemoAgrees key f xs [] := by
  intro x _ b h
  cases h

theorem memoLookup_cons (k k' : κ) (b : β) (entries : List (κ × β)) :
    memoLookup ((k', b) :: entries) k = if k' = k then some b else memoLookup entries k := by
  unfold memoLookup
  rw [List.find?_cons]
  by_cases hk : k' = k
  · rw [if_pos hk]
    simp [hk]
  · rw [if_neg hk]
    simp [hk]

/-- **A new result does not disturb the others**, unless an argument with its key has another. -/
theorem memoAgrees_cons {key : α → κ} {f : α → β} {xs : List α} {entries : List (κ × β)} {k : κ}
    {b : β} (h : MemoAgrees key f xs entries) (hnew : ∀ x ∈ xs, key x = k → b = f x) :
    MemoAgrees key f xs ((k, b) :: entries) := by
  intro x hx b' hlookup
  rw [memoLookup_cons] at hlookup
  by_cases hk : k = key x
  · rw [if_pos hk] at hlookup
    cases hlookup
    exact hnew x hx hk.symm
  · rw [if_neg hk] at hlookup
    exact h x hx b' hlookup

end

end Lib
