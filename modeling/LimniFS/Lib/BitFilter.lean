/-
Bits in bytes, and a filter over them.

Bit `i` is bit `i % 8` of byte `i / 8`.  A key marks the bits of its probes, and a look at the
filter asks whether all of them are marked.  Marking clears nothing, so a key that was put in is
found whatever was put in after it (`query_of_inserted`); a key that was not may be found too.
-/
import Mathlib.Data.UInt

namespace Lib.BitFilter

/-! ### Bits -/

def bitMask (i : Nat) : UInt8 := 1 <<< UInt8.ofNat (i % 8)

/-- Set a bit; one that is not there is left alone. -/
def mark (bits : List UInt8) (i : Nat) : List UInt8 := bits.modify (i / 8) (· ||| bitMask i)

def isSet (bits : List UInt8) (i : Nat) : Bool := bits.getD (i / 8) 0 &&& bitMask i != 0

@[simp] theorem mark_length (bits : List UInt8) (i : Nat) : (mark bits i).length = bits.length :=
  List.length_modify _ _ _

theorem bitMask_ne_zero (i : Nat) : bitMask i ≠ 0 := by
  have hall : ∀ k < 8, (1 : UInt8) <<< UInt8.ofNat k ≠ 0 := by decide
  exact hall (i % 8) (Nat.mod_lt i (by decide))

theorem or_and_eq (x y z : UInt8) : (x ||| y) &&& z = (x &&& z) ||| (y &&& z) :=
  UInt8.toBitVec_inj.mp BitVec.and_or_distrib_right

theorem isSet_iff {bits : List UInt8} {i : Nat} :
    isSet bits i = true ↔ ∃ byte, bits[i / 8]? = some byte ∧ byte &&& bitMask i ≠ 0 := by
  unfold isSet
  rw [List.getD_eq_getElem?_getD, bne_iff_ne]
  cases bits[i / 8]? with
  | none => simp
  | some byte => simp

theorem getElem?_mark (bits : List UInt8) (i j : Nat) :
    (mark bits i)[j]? = bits[j]?.map fun byte => if i / 8 = j then byte ||| bitMask i else byte :=
  List.getElem?_modify _ _ _ _

theorem isSet_mark_self {bits : List UInt8} {i : Nat} (h : i / 8 < bits.length) :
    isSet (mark bits i) i = true := by
  rw [isSet_iff]
  refine ⟨bits[i / 8] ||| bitMask i, ?_, ?_⟩
  · rw [getElem?_mark, List.getElem?_eq_getElem h, Option.map_some, if_pos rfl]
  · rw [or_and_eq, UInt8.and_self]
    intro hzero
    exact bitMask_ne_zero i (UInt8.or_eq_zero_iff.mp hzero).2

theorem isSet_mark {bits : List UInt8} {j : Nat} (h : isSet bits j = true) (i : Nat) :
    isSet (mark bits i) j = true := by
  obtain ⟨byte, hbyte, hset⟩ := isSet_iff.mp h
  rw [isSet_iff, getElem?_mark, hbyte, Option.map_some]
  by_cases hij : i / 8 = j / 8
  · refine ⟨byte ||| bitMask i, by rw [if_pos hij], ?_⟩
    rw [or_and_eq]
    intro hzero
    exact hset (UInt8.or_eq_zero_iff.mp hzero).1
  · exact ⟨byte, by rw [if_neg hij], hset⟩

/-! ### Filters -/

section
variable {κ : Type} (probes : κ → List Nat)

/-- Mark all the bits of a key. -/
def insert (bits : List UInt8) (key : κ) : List UInt8 := (probes key).foldl mark bits

/-- Are all the bits of a key marked? -/
def query (bits : List UInt8) (key : κ) : Bool := (probes key).all (isSet bits)

variable {probes}

theorem foldl_mark_length (marks : List Nat) (bits : List UInt8) :
    (marks.foldl mark bits).length = bits.length := by
  induction marks generalizing bits with
  | nil => rfl
  | cons i rest ih => rw [List.foldl_cons, ih, mark_length]

@[simp] theorem insert_length (bits : List UInt8) (key : κ) :
    (insert probes bits key).length = bits.length := foldl_mark_length _ _

theorem isSet_foldl_mark {marks : List Nat} {bits : List UInt8} {j : Nat}
    (h : isSet bits j = true) : isSet (marks.foldl mark bits) j = true := by
  induction marks generalizing bits with
  | nil => exact h
  | cons i rest ih => exact ih (isSet_mark h i)

theorem isSet_foldl_mark_of_mem {marks : List Nat} {bits : List UInt8} {j : Nat} (hj : j ∈ marks)
    (hlen : j / 8 < bits.length) : isSet (marks.foldl mark bits) j = true := by
  induction marks generalizing bits with
  | nil => exact absurd hj List.not_mem_nil
  | cons i rest ih =>
      rcases List.mem_cons.mp hj with heq | hrest
      · rw [List.foldl_cons, ← heq]
        exact isSet_foldl_mark (isSet_mark_self hlen)
      · exact ih hrest (by rwa [mark_length])

theorem query_insert {bits : List UInt8} {key : κ} (h : query probes bits key = true) (other : κ) :
    query probes (insert probes bits other) key = true := by
  unfold query at h ⊢
  rw [List.all_eq_true] at h ⊢
  exact fun i hi => isSet_foldl_mark (h i hi)

theorem query_insert_self {bits : List UInt8} {key : κ}
    (hlen : ∀ i ∈ probes key, i / 8 < bits.length) :
    query probes (insert probes bits key) key = true := by
  unfold query
  rw [List.all_eq_true]
  exact fun i hi => isSet_foldl_mark_of_mem hi (hlen i hi)

theorem query_foldl_insert (keys : List κ) {bits : List UInt8} {key : κ}
    (h : query probes bits key = true) :
    query probes (keys.foldl (insert probes) bits) key = true := by
  induction keys generalizing bits with
  | nil => exact h
  | cons other rest ih => exact ih (query_insert h other)

/-- **Every key that was put in is found**, if the filter has a bit for each of its probes. -/
theorem query_of_inserted {keys : List κ} {bits : List UInt8}
    (hlen : ∀ key ∈ keys, ∀ i ∈ probes key, i / 8 < bits.length) :
    ∀ key ∈ keys, query probes (keys.foldl (insert probes) bits) key = true := by
  induction keys generalizing bits with
  | nil => exact fun _ h => absurd h List.not_mem_nil
  | cons first rest ih =>
      intro key hkey
      rw [List.foldl_cons]
      rcases List.mem_cons.mp hkey with heq | hrest
      · rw [heq]
        exact query_foldl_insert rest (query_insert_self (hlen first List.mem_cons_self))
      · refine ih (fun k hk i hi => ?_) key hrest
        rw [insert_length]
        exact hlen k (List.mem_cons_of_mem _ hk) i hi

theorem query_of_subset {fewer : κ → List Nat} {bits : List UInt8} {key : κ}
    (hsub : fewer key ⊆ probes key) (h : query probes bits key = true) :
    query fewer bits key = true := by
  unfold query at h ⊢
  rw [List.all_eq_true] at h ⊢
  exact fun i hi => h i (hsub hi)

end

end Lib.BitFilter
