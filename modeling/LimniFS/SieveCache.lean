/-
The SIEVE cache.

One queue in the order of arrival with a visited bit per key, and a map from the keys to
their values.  A hit sets the bit and moves nothing; an eviction takes the oldest key,
which goes to the newest end with its bit cleared if it was visited and out of the cache
if it was not.

Queue, map and byte count are three records of one thing, and nothing but the code keeps
them in step.  `Valid` says what that means, every operation preserves it, and from it
follow the bounds, that no subtraction underflows and that the eviction loop ends: each
round clears a bit or takes a key off the queue.
-/
import LimniFS.Core
import LimniFS.Lib.FiniteMap

namespace LimniFS

open Lib

structure SieveCache where
  entries : AList fun _ : Digest => Bytes
  /-- Front is oldest; the `Bool` is the visited bit. -/
  order : List (Digest × Bool)
  entryCapacity : Nat
  byteBudget : Nat
  bytes : Nat
  hits : Nat
  misses : Nat
  evictions : Nat
  bypassed : Nat

namespace SieveCache

/-! ### Operations -/

def new (entryCapacity byteBudget : Nat) : SieveCache :=
  { entries := ∅, order := [], entryCapacity := max entryCapacity 1, byteBudget, bytes := 0,
    hits := 0, misses := 0, evictions := 0, bypassed := 0 }

/-- Set the bit of the first slot of a key. -/
def markFirst (key : Digest) : List (Digest × Bool) → List (Digest × Bool)
  | [] => []
  | slot :: rest => if slot.1 = key then (slot.1, true) :: rest else slot :: markFirst key rest

/-- Set the bit of a key, scanning from the newest end. -/
def markVisited (key : Digest) (order : List (Digest × Bool)) : List (Digest × Bool) :=
  (markFirst key order.reverse).reverse

def get (s : SieveCache) (key : Digest) : SieveCache × Option Bytes :=
  match s.entries.lookup key with
  | some v => ({ s with hits := s.hits + 1, order := markVisited key s.order }, some v)
  | none => ({ s with misses := s.misses + 1 }, none)

/-- The condition on which `evict_until_fits` stops. -/
def Fits (s : SieveCache) : Prop :=
  s.bytes ≤ s.byteBudget ∧ s.entries.keys.length ≤ s.entryCapacity

instance (s : SieveCache) : Decidable s.Fits := inferInstanceAs (Decidable (_ ∧ _))

/-- The rounds of `evict_until_fits`; `none` is an underflow, or rounds left to do. -/
def evictLoop : Nat → SieveCache → Option SieveCache
  | 0, s => if s.Fits ∨ s.order = [] then some s else none
  | rounds + 1, s =>
    if s.Fits then some s
    else
      match s.order with
      | [] => some s
      | (key, true) :: rest => evictLoop rounds { s with order := rest ++ [(key, false)] }
      | (key, false) :: rest =>
        match s.entries.lookup key with
        | none => evictLoop rounds { s with order := rest }
        | some v =>
          if s.bytes < v.length then none
          else evictLoop rounds
            { s with
              order := rest, entries := s.entries.erase key, bytes := s.bytes - v.length,
              evictions := s.evictions + 1 }

/-- Keys in the queue, and visited keys once more. -/
def roundsLeft (s : SieveCache) : Nat := s.order.length + s.order.countP (·.2)

def evictUntilFits (s : SieveCache) : Option SieveCache := evictLoop s.roundsLeft s

def insertEntry (s : SieveCache) (key : Digest) (value : Bytes) : SieveCache × Option Bytes :=
  let prev := s.entries.lookup key
  let s := { s with entries := s.entries.insert key value }
  if prev.isSome then ({ s with order := markVisited key s.order }, prev) else (s, prev)

/-- `none` is an underflow of the byte count, or an eviction that does not end. -/
def insert (s : SieveCache) (key : Digest) (value : Bytes) : Option (SieveCache × Bool) :=
  if s.byteBudget < value.length then some ({ s with bypassed := s.bypassed + 1 }, false)
  else
    match s.insertEntry key value with
    | (s, some old) =>
      if s.bytes < old.length then none
      else
        (evictUntilFits { s with bytes := s.bytes - old.length + value.length }).map (·, true)
    | (s, none) =>
      (evictUntilFits { s with
        order := s.order ++ [(key, false)], bytes := s.bytes + value.length }).map (·, true)

/-! ### The queue -/

theorem markFirst_keys (key : Digest) (order : List (Digest × Bool)) :
    (markFirst key order).map Prod.fst = order.map Prod.fst := by
  induction order with
  | nil => rfl
  | cons slot rest ih =>
      unfold markFirst
      by_cases h : slot.1 = key
      · rw [if_pos h]
        rfl
      · rw [if_neg h, List.map_cons, ih]
        rfl

theorem markVisited_keys (key : Digest) (order : List (Digest × Bool)) :
    (markVisited key order).map Prod.fst = order.map Prod.fst := by
  unfold markVisited
  rw [List.map_reverse, markFirst_keys, List.map_reverse, List.reverse_reverse]

/-! ### What the three records agree on -/

/-- Queue, map and byte count are in step. -/
structure Valid (s : SieveCache) : Prop where
  nodup : (s.order.map Prod.fst).Nodup
  keys : ∀ key, key ∈ s.order.map Prod.fst ↔ key ∈ s.entries
  bytes : s.bytes = totalWeight List.length s.entries

theorem valid_new (entryCapacity byteBudget : Nat) : (new entryCapacity byteBudget).Valid :=
  ⟨List.nodup_nil, fun key => by simp [new], rfl⟩

theorem fits_new (entryCapacity byteBudget : Nat) : (new entryCapacity byteBudget).Fits :=
  ⟨Nat.zero_le _, Nat.zero_le _⟩

theorem Valid.of_keys {s s' : SieveCache} (h : s.Valid)
    (horder : s'.order.map Prod.fst = s.order.map Prod.fst) (hentries : s'.entries = s.entries)
    (hbytes : s'.bytes = s.bytes) : s'.Valid := by
  refine ⟨?_, ?_, ?_⟩
  · rw [horder]
    exact h.nodup
  · intro key
    rw [horder, hentries]
    exact h.keys key
  · rw [hentries, hbytes]
    exact h.bytes

theorem get_entries (s : SieveCache) (key : Digest) : (s.get key).1.entries = s.entries := by
  unfold get
  cases s.entries.lookup key <;> rfl

theorem get_value (s : SieveCache) (key : Digest) : (s.get key).2 = s.entries.lookup key := by
  unfold get
  cases s.entries.lookup key <;> rfl

theorem get_byteBudget (s : SieveCache) (key : Digest) :
    (s.get key).1.byteBudget = s.byteBudget := by
  unfold get
  cases s.entries.lookup key <;> rfl

theorem get_entryCapacity (s : SieveCache) (key : Digest) :
    (s.get key).1.entryCapacity = s.entryCapacity := by
  unfold get
  cases s.entries.lookup key <;> rfl

theorem valid_get {s : SieveCache} (h : s.Valid) (key : Digest) : (s.get key).1.Valid := by
  unfold get
  cases s.entries.lookup key with
  | none => exact h.of_keys rfl rfl rfl
  | some v => exact h.of_keys (markVisited_keys key s.order) rfl rfl

theorem fits_get {s : SieveCache} (h : s.Fits) (key : Digest) : (s.get key).1.Fits := by
  unfold get
  cases s.entries.lookup key with
  | none => exact h
  | some v => exact h

/-! ### Eviction -/

/-- What an eviction leaves: the bounds are the same, and no value is new. -/
structure Shrunk (s s' : SieveCache) : Prop where
  byteBudget : s'.byteBudget = s.byteBudget
  entryCapacity : s'.entryCapacity = s.entryCapacity
  kept : ∀ key v, s'.entries.lookup key = some v → s.entries.lookup key = some v

theorem Shrunk.refl (s : SieveCache) : Shrunk s s := ⟨rfl, rfl, fun _ _ h => h⟩

theorem Valid.fits_of_order_nil {s : SieveCache} (h : s.Valid) (horder : s.order = []) :
    s.Fits := by
  have hkeys : s.entries.keys = [] := by
    refine List.eq_nil_iff_forall_not_mem.mpr fun key hkey => ?_
    have hmem := (h.keys key).mpr (AList.mem_keys.mpr hkey)
    rw [horder] at hmem
    cases hmem
  refine ⟨?_, ?_⟩
  · rw [h.bytes, totalWeight_of_keys_nil List.length hkeys]
    exact Nat.zero_le _
  · rw [hkeys]
    exact Nat.zero_le _

theorem Valid.rotate {s : SieveCache} (h : s.Valid) {key : Digest} {visited : Bool}
    {rest : List (Digest × Bool)} (horder : s.order = (key, visited) :: rest) :
    Valid { s with order := rest ++ [(key, false)] } := by
  have hperm : ((rest ++ [(key, false)]).map Prod.fst).Perm (s.order.map Prod.fst) := by
    rw [horder, List.map_append, List.map_cons]
    exact List.perm_append_comm
  refine ⟨hperm.nodup_iff.mpr h.nodup, ?_, h.bytes⟩
  intro other
  exact hperm.mem_iff.trans (h.keys other)

/-- The oldest key has a value, and its bytes are counted. -/
theorem Valid.oldest {s : SieveCache} (h : s.Valid) {key : Digest} {visited : Bool}
    {rest : List (Digest × Bool)} (horder : s.order = (key, visited) :: rest) :
    ∃ v, s.entries.lookup key = some v ∧
      totalWeight List.length (s.entries.erase key) + v.length = s.bytes := by
  have hmem : key ∈ s.entries := (h.keys key).mp (by rw [horder]; exact List.mem_cons_self)
  obtain ⟨v, hv⟩ := Option.isSome_iff_exists.mp (AList.lookup_isSome.mpr hmem)
  refine ⟨v, hv, ?_⟩
  rw [h.bytes]
  exact totalWeight_erase List.length hv

/-- An unvisited key leaves the cache. -/
theorem Valid.evict {s : SieveCache} (h : s.Valid) {key : Digest} {visited : Bool}
    {rest : List (Digest × Bool)} (horder : s.order = (key, visited) :: rest) {v : Bytes}
    (hbytes : totalWeight List.length (s.entries.erase key) + v.length = s.bytes) :
    Valid { s with
      order := rest, entries := s.entries.erase key, bytes := s.bytes - v.length,
      evictions := s.evictions + 1 } := by
  have hnodup := h.nodup
  rw [horder, List.map_cons, List.nodup_cons] at hnodup
  refine ⟨hnodup.2, ?_, ?_⟩
  · intro other
    have hkeys := h.keys other
    rw [horder, List.map_cons, List.mem_cons] at hkeys
    show other ∈ rest.map Prod.fst ↔ other ∈ s.entries.erase key
    rw [AList.mem_erase, ← hkeys]
    constructor
    · intro hother
      exact ⟨fun heq => hnodup.1 (heq ▸ hother), Or.inr hother⟩
    · rintro ⟨hne, heq | hother⟩
      · exact absurd heq hne
      · exact hother
  · show s.bytes - v.length = totalWeight List.length (s.entries.erase key)
    omega

/-- **The eviction loop ends with a cache that fits, and no subtraction underflows.** -/
theorem evictLoop_spec : ∀ (rounds : Nat) (s : SieveCache), s.Valid → s.roundsLeft ≤ rounds →
    ∃ s', evictLoop rounds s = some s' ∧ s'.Valid ∧ s'.Fits ∧ Shrunk s s' := by
  intro rounds
  induction rounds with
  | zero =>
      intro s h hleft
      have horder : s.order = [] := List.length_eq_zero_iff.mp (by unfold roundsLeft at hleft; omega)
      refine ⟨s, ?_, h, h.fits_of_order_nil horder, .refl s⟩
      unfold evictLoop
      rw [if_pos (Or.inr horder)]
  | succ rounds ih =>
      intro s h hleft
      unfold evictLoop
      by_cases hfits : s.Fits
      · rw [if_pos hfits]
        exact ⟨s, rfl, h, hfits, .refl s⟩
      · rw [if_neg hfits]
        unfold roundsLeft at hleft
        cases horder : s.order with
        | nil => exact ⟨s, rfl, h, h.fits_of_order_nil horder, .refl s⟩
        | cons slot rest =>
            obtain ⟨key, visited⟩ := slot
            rw [horder] at hleft
            cases visited with
            | true =>
                -- the round clears a bit
                obtain ⟨s', hs', hvalid, hfits', hshrunk⟩ := ih _ (h.rotate horder) (by
                  simp only [roundsLeft, List.length_append, List.countP_append] at hleft ⊢
                  simp at hleft ⊢
                  omega)
                exact ⟨s', hs', hvalid, hfits',
                  ⟨hshrunk.byteBudget, hshrunk.entryCapacity, hshrunk.kept⟩⟩
            | false =>
                obtain ⟨v, hv, hbytes⟩ := h.oldest horder
                obtain ⟨s', hs', hvalid, hfits', hshrunk⟩ := ih _ (h.evict horder hbytes) (by
                  simp only [roundsLeft] at hleft ⊢
                  simp at hleft
                  omega)
                have hroom : ¬ s.bytes < v.length := by omega
                simp only [hv]
                rw [if_neg hroom]
                exact ⟨s', hs', hvalid, hfits',
                  ⟨hshrunk.byteBudget, hshrunk.entryCapacity, fun other w hw =>
                    lookup_of_lookup_erase (hshrunk.kept other w hw)⟩⟩

theorem evictUntilFits_spec {s : SieveCache} (h : s.Valid) :
    ∃ s', s.evictUntilFits = some s' ∧ s'.Valid ∧ s'.Fits ∧ Shrunk s s' :=
  evictLoop_spec _ s h (Nat.le_refl _)

/-! ### Insertion -/

/-- What an insertion leaves: the bounds are the same, and no value is new but its own. -/
structure Taken (key : Digest) (value : Bytes) (s s' : SieveCache) : Prop where
  byteBudget : s'.byteBudget = s.byteBudget
  entryCapacity : s'.entryCapacity = s.entryCapacity
  values : ∀ other v, s'.entries.lookup other = some v →
    (other = key ∧ v = value) ∨ s.entries.lookup other = some v

theorem lookup_insert_cases {m : AList fun _ : Digest => Bytes} {key other : Digest}
    {value v : Bytes} (h : (m.insert key value).lookup other = some v) :
    (other = key ∧ v = value) ∨ m.lookup other = some v := by
  by_cases heq : other = key
  · rw [heq, AList.lookup_insert] at h
    exact Or.inl ⟨heq, (Option.some.inj h).symm⟩
  · rw [AList.lookup_insert_ne heq] at h
    exact Or.inr h

theorem Valid.push {s : SieveCache} (h : s.Valid) {key : Digest} {value : Bytes}
    (hprev : s.entries.lookup key = none) :
    Valid { s with
      entries := s.entries.insert key value, order := s.order ++ [(key, false)],
      bytes := s.bytes + value.length } := by
  have hnew : key ∉ s.order.map Prod.fst := by
    rw [h.keys key]
    exact AList.lookup_eq_none.mp hprev
  refine ⟨?_, ?_, ?_⟩
  · rw [List.map_append]
    refine List.nodup_append.mpr ⟨h.nodup, List.nodup_singleton _, ?_⟩
    intro a ha b hb hab
    rw [hab, List.mem_singleton.mp hb] at ha
    exact hnew ha
  · intro other
    show other ∈ (s.order ++ [(key, false)]).map Prod.fst ↔ other ∈ s.entries.insert key value
    rw [List.map_append, List.mem_append, AList.mem_insert, h.keys other]
    simp [or_comm]
  · show s.bytes + value.length = totalWeight List.length (s.entries.insert key value)
    rw [totalWeight_insert, erase_of_lookup_none hprev, h.bytes, Nat.add_comm]

theorem Valid.replace {s : SieveCache} (h : s.Valid) {key : Digest} {value old : Bytes}
    (hprev : s.entries.lookup key = some old) :
    old.length ≤ s.bytes ∧ Valid { s with
      entries := s.entries.insert key value, order := markVisited key s.order,
      bytes := s.bytes - old.length + value.length } := by
  have hold := totalWeight_erase List.length hprev
  have hbytes := h.bytes
  refine ⟨by omega, ?_, ?_, ?_⟩
  · rw [markVisited_keys]
    exact h.nodup
  · intro other
    show other ∈ (markVisited key s.order).map Prod.fst ↔ other ∈ s.entries.insert key value
    have hmem : key ∈ s.entries := AList.lookup_isSome.mp (by rw [hprev]; rfl)
    rw [markVisited_keys, h.keys other, AList.mem_insert]
    constructor
    · exact Or.inr
    · rintro (rfl | hother)
      · exact hmem
      · exact hother
  · show s.bytes - old.length + value.length = totalWeight List.length (s.entries.insert key value)
    rw [totalWeight_insert]
    omega

/-- **An insertion keeps the records in step, within the bounds, and does not underflow.** -/
theorem insert_spec {s : SieveCache} (h : s.Valid) (hfits : s.Fits) (key : Digest)
    (value : Bytes) :
    ∃ s', s.insert key value = some (s', decide (value.length ≤ s.byteBudget)) ∧ s'.Valid ∧
      s'.Fits ∧ Taken key value s s' := by
  unfold insert
  by_cases hbig : s.byteBudget < value.length
  · rw [if_pos hbig, decide_eq_false (by omega)]
    exact ⟨_, rfl, h.of_keys rfl rfl rfl, hfits, rfl, rfl, fun _ _ hv => Or.inr hv⟩
  · rw [if_neg hbig, decide_eq_true (by omega)]
    unfold insertEntry
    cases hprev : s.entries.lookup key with
    | none =>
        have hpushed := @Valid.push s h key value hprev
        obtain ⟨s', hs', hvalid, hfits', hshrunk⟩ := evictUntilFits_spec hpushed
        refine ⟨s', ?_, hvalid, hfits', hshrunk.byteBudget, hshrunk.entryCapacity, ?_⟩
        · simp only [Option.isSome_none]
          rw [if_neg (by simp)]
          simp only [hs', Option.map_some]
        · intro other v hv
          exact lookup_insert_cases (hshrunk.kept other v hv)
    | some old =>
        obtain ⟨hold, hreplaced⟩ := @Valid.replace s h key value old hprev
        obtain ⟨s', hs', hvalid, hfits', hshrunk⟩ := evictUntilFits_spec hreplaced
        refine ⟨s', ?_, hvalid, hfits', hshrunk.byteBudget, hshrunk.entryCapacity, ?_⟩
        · simp only [Option.isSome_some, if_true]
          rw [if_neg (by omega)]
          simp only [hs', Option.map_some]
        · intro other v hv
          exact lookup_insert_cases (hshrunk.kept other v hv)

/-! ### Runs -/

inductive Op where
  | get (key : Digest)
  | insert (key : Digest) (value : Bytes)

def Op.apply (s : SieveCache) : Op → Option SieveCache
  | .get key => some (s.get key).1
  | .insert key value => (s.insert key value).map Prod.fst

def run (s : SieveCache) (ops : List Op) : Option SieveCache := ops.foldlM Op.apply s

/-- Every value of the cache is the one of its key. -/
def Holds (values : Digest → Bytes) (s : SieveCache) : Prop :=
  ∀ key v, s.entries.lookup key = some v → v = values key

theorem Taken.holds {values : Digest → Bytes} {key : Digest} {value : Bytes} {s s' : SieveCache}
    (h : Taken key value s s') (hs : s.Holds values) (hvalue : value = values key) :
    s'.Holds values := by
  intro other v hv
  rcases h.values other v hv with ⟨rfl, rfl⟩ | hold
  · exact hvalue
  · exact hs other v hold

theorem Op.apply_spec {s : SieveCache} (h : s.Valid) (hfits : s.Fits) (op : Op) :
    ∃ s', op.apply s = some s' ∧ s'.Valid ∧ s'.Fits ∧ s'.byteBudget = s.byteBudget ∧
      s'.entryCapacity = s.entryCapacity ∧
      ∀ values, s.Holds values → (∀ key value, op = .insert key value → value = values key) →
        s'.Holds values := by
  cases op with
  | get key =>
      refine ⟨_, rfl, valid_get h key, fits_get hfits key, ?_, ?_, ?_⟩
      · exact get_byteBudget s key
      · exact get_entryCapacity s key
      · intro values hs _ other v hv
        rw [get_entries] at hv
        exact hs other v hv
  | insert key value =>
      obtain ⟨s', hs', hvalid, hfits', htaken⟩ := insert_spec h hfits key value
      refine ⟨s', ?_, hvalid, hfits', htaken.byteBudget, htaken.entryCapacity, ?_⟩
      · rw [Op.apply, hs']
        rfl
      · intro values hs hvalue
        exact htaken.holds hs (hvalue key value rfl)

theorem run_spec : ∀ (ops : List Op) {s : SieveCache}, s.Valid → s.Fits →
    ∃ s', s.run ops = some s' ∧ s'.Valid ∧ s'.Fits ∧ s'.byteBudget = s.byteBudget ∧
      s'.entryCapacity = s.entryCapacity ∧
      ∀ values, s.Holds values → (∀ key value, .insert key value ∈ ops → value = values key) →
        s'.Holds values := by
  intro ops
  induction ops with
  | nil =>
      intro s h hfits
      exact ⟨s, rfl, h, hfits, rfl, rfl, fun _ hs _ => hs⟩
  | cons op ops ih =>
      intro s h hfits
      obtain ⟨mid, hmid, hvalid, hfits', hbudget, hcapacity, hholds⟩ := op.apply_spec h hfits
      obtain ⟨s', hs', hvalid', hfits'', hbudget', hcapacity', hholds'⟩ := ih hvalid hfits'
      refine ⟨s', ?_, hvalid', hfits'', hbudget'.trans hbudget, hcapacity'.trans hcapacity, ?_⟩
      · rw [run, List.foldlM_cons, hmid]
        exact hs'
      · intro values hs hvalues
        refine hholds' values (hholds values hs ?_) ?_
        · rintro key value rfl
          exact hvalues key value List.mem_cons_self
        · intro key value hmem
          exact hvalues key value (List.mem_cons_of_mem _ hmem)

/-- **Whatever is looked up and inserted, the cache keeps its queue, its map and its byte count
in step and within its bounds, and returns nothing but what was inserted.** -/
theorem sieve_stays_valid (entryCapacity byteBudget : Nat) (ops : List Op) :
    ∃ s, (new entryCapacity byteBudget).run ops = some s ∧
      ((s.order.map Prod.fst).Nodup ∧ ∀ key, key ∈ s.order.map Prod.fst ↔ key ∈ s.entries) ∧
      s.bytes = totalWeight List.length s.entries ∧
      (s.bytes ≤ s.byteBudget ∧ s.entries.keys.length ≤ s.entryCapacity) ∧
      s.byteBudget = byteBudget ∧ s.entryCapacity = max entryCapacity 1 ∧
      ∀ values : Digest → Bytes, (∀ key value, .insert key value ∈ ops → value = values key) →
        ∀ key, (s.get key).2 = none ∨ (s.get key).2 = some (values key) := by
  obtain ⟨s, hrun, hvalid, hfits, hbudget, hcapacity, hholds⟩ :=
    run_spec ops (valid_new entryCapacity byteBudget) (fits_new entryCapacity byteBudget)
  refine ⟨s, hrun, ⟨hvalid.nodup, hvalid.keys⟩, hvalid.bytes, hfits, hbudget, hcapacity, ?_⟩
  intro values hvalues key
  rw [get_value]
  have hs := hholds values (fun _ _ hv => by cases hv) hvalues key
  cases hlookup : s.entries.lookup key with
  | none => exact Or.inl rfl
  | some v => exact Or.inr (congrArg some (hs v hlookup))

end SieveCache

end LimniFS
