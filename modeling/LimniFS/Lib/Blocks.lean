/-
A string cut into pieces of one width: blocks and pages.

A pass that rewrites a buffer in place, one block after another, has rewritten the
first `i` blocks after `i` steps and left the rest alone: `rewritten` is that buffer.
Each step moves it on by one block (`rewritten_succ`), and the block a step reads is
still the one the pass started with (`blockOf_rewritten`).

The pages of an object are numbered from zero and the last one may be short.  A slot holds a page,
or nothing where the object has ended (`slot`); a run of slots is what a reader has in hand after it
fetched a range.  `window` is a range of the object, empty or short where the object ends; ranges next
to each other join (`window_join`).
-/
import Mathlib.Data.List.Basic
import Mathlib.Data.List.Range
import LimniFS.Lib.Parser

namespace Lib

variable {n : Nat}

/-- Block `j` of a byte string, filled up with zeros where the string ends. -/
def blockOf (n : Nat) (bytes : List UInt8) (j : Nat) : Fixed n :=
  ⟨(bytes.drop (n * j) ++ List.replicate n 0).take n, by simp⟩

theorem blockOf_val {bytes : List UInt8} {j : Nat} (h : n * (j + 1) ≤ bytes.length) :
    (blockOf n bytes j).val = (bytes.drop (n * j)).take n := by
  have hlen : n ≤ (bytes.drop (n * j)).length := by
    rw [List.length_drop]
    rw [Nat.mul_succ] at h
    omega
  simp only [blockOf, List.take_append_of_le_length hlen]

/-- The first `i` blocks of a family, end to end. -/
def joined (f : Nat → Fixed n) (i : Nat) : List UInt8 := (List.range i).flatMap fun j => (f j).val

theorem joined_succ (f : Nat → Fixed n) (i : Nat) : joined f (i + 1) = joined f i ++ (f i).val := by
  simp [joined, List.range_succ]

@[simp] theorem length_joined (f : Nat → Fixed n) (i : Nat) : (joined f i).length = n * i := by
  induction i with
  | zero => rfl
  | succ i ih => rw [joined_succ, List.length_append, ih, (f i).property, Nat.mul_succ]

theorem joined_congr {f g : Nat → Fixed n} {i : Nat} (h : ∀ j < i, f j = g j) :
    joined f i = joined g i := by
  induction i with
  | zero => rfl
  | succ i ih =>
      rw [joined_succ, joined_succ, ih fun j hj => h j (Nat.lt_succ_of_lt hj), h i (Nat.lt_succ_self i)]

theorem joined_blockOf {bytes : List UInt8} {i : Nat} (h : n * i ≤ bytes.length) :
    joined (blockOf n bytes) i = bytes.take (n * i) := by
  induction i with
  | zero => simp [joined]
  | succ i ih =>
      have hi : n * i ≤ bytes.length := Nat.le_trans (Nat.mul_le_mul_left n (Nat.le_succ i)) h
      rw [joined_succ, ih hi, blockOf_val h, Nat.mul_succ, List.take_add]

theorem joined_block (f : Nat → Fixed n) (rest : List UInt8) {i j : Nat} (h : j < i) :
    ((joined f i ++ rest).drop (n * j)).take n = (f j).val := by
  induction i with
  | zero => exact absurd h (Nat.not_lt_zero j)
  | succ i ih =>
      rw [joined_succ]
      by_cases hj : j = i
      · subst hj
        rw [List.append_assoc, List.drop_left' (length_joined f j), List.take_left' (f j).property]
      · have hlt : j < i := by omega
        have hle : n * j + n ≤ (joined f i).length := by
          rw [length_joined, ← Nat.mul_succ]
          exact Nat.mul_le_mul_left n hlt
        have hdrop : n * j ≤ (joined f i).length := Nat.le_trans (Nat.le_add_right ..) hle
        rw [← ih hlt, List.append_assoc, List.drop_append_of_le_length hdrop,
          List.drop_append_of_le_length hdrop, List.take_append_of_le_length,
          List.take_append_of_le_length]
        · rw [List.length_drop]
          omega
        · rw [List.length_drop]
          omega

/-! ### Loops over the numbers of the blocks -/

theorem foldlM_range_eq {σ : Type} {step : σ → Nat → Option σ} (states : Nat → σ) {m : Nat}
    (h : ∀ i < m, step (states i) i = some (states (i + 1))) :
    (List.range m).foldlM step (states 0) = some (states m) := by
  induction m with
  | zero => rfl
  | succ m ih =>
      rw [List.range_succ, List.foldlM_append, ih fun i hi => h i (Nat.lt_succ_of_lt hi)]
      simp [h m (Nat.lt_succ_self m)]

theorem foldlM_eq_none {σ α : Type} {step : σ → α → Option σ} {x : α} (h : ∀ s, step s x = none) :
    ∀ {l : List α}, x ∈ l → ∀ s, l.foldlM step s = none
  | y :: rest, hx, s => by
      rw [List.foldlM_cons]
      rcases List.mem_cons.mp hx with rfl | hrest
      · rw [h s]
        rfl
      · cases step s y with
        | none => rfl
        | some t => exact foldlM_eq_none h hrest t

/-! ### A pass in place -/

/-- The buffer with its first `i` blocks rewritten. -/
def rewritten (f : Nat → Fixed n) (bytes : List UInt8) (i : Nat) : List UInt8 :=
  joined f i ++ bytes.drop (n * i)

theorem rewritten_zero (f : Nat → Fixed n) (bytes : List UInt8) : rewritten f bytes 0 = bytes := by
  simp [rewritten, joined]

theorem length_rewritten (f : Nat → Fixed n) {bytes : List UInt8} {i : Nat}
    (h : n * i ≤ bytes.length) : (rewritten f bytes i).length = bytes.length := by
  rw [rewritten, List.length_append, length_joined, List.length_drop]
  omega

theorem drop_rewritten (f : Nat → Fixed n) (bytes : List UInt8) (i : Nat) :
    (rewritten f bytes i).drop (n * i) = bytes.drop (n * i) := by
  rw [rewritten, List.drop_left' (length_joined f i)]

theorem blockOf_rewritten (f : Nat → Fixed n) (bytes : List UInt8) (i : Nat) :
    blockOf n (rewritten f bytes i) i = blockOf n bytes i :=
  Subtype.ext (by simp only [blockOf, drop_rewritten])

theorem rewritten_succ (f : Nat → Fixed n) (bytes : List UInt8) (i : Nat) :
    (rewritten f bytes i).take (n * i) ++ (f i).val ++ (rewritten f bytes i).drop (n * i + n) =
      rewritten f bytes (i + 1) := by
  rw [← List.drop_drop, drop_rewritten, List.drop_drop, rewritten,
    List.take_left' (length_joined f i), rewritten, joined_succ, Nat.mul_succ]

/-! ### Pages -/

variable {α : Type}

/-! ### Ranges -/

/-- The elements from `start` up to `stop`, as far as there are any. -/
def window (object : List α) (start stop : Nat) : List α := (object.drop start).take (stop - start)

theorem window_join (object : List α) {start mid stop : Nat} (hstart : start ≤ mid)
    (hstop : mid ≤ stop) :
    window object start mid ++ window object mid stop = window object start stop := by
  unfold window
  rw [show stop - start = (mid - start) + (stop - mid) by omega, List.take_add, List.drop_drop,
    show start + (mid - start) = mid by omega]

theorem window_past {object : List α} {start : Nat} (h : object.length ≤ start) (stop : Nat) :
    window object start stop = [] := by
  unfold window
  rw [List.drop_eq_nil_of_le h, List.take_nil]

theorem window_clamp {object : List α} {stop : Nat} (h : object.length ≤ stop) (start : Nat) :
    window object start stop = object.drop start :=
  List.take_of_length_le (by rw [List.length_drop]; omega)

theorem window_empty {start stop : Nat} (h : stop ≤ start) (object : List α) :
    window object start stop = [] := by
  unfold window
  rw [show stop - start = 0 by omega, List.take_zero]

theorem window_cut (object : List α) {start n a b : Nat} (h : b ≤ n) :
    (((object.drop start).take n).take b).drop a = window object (start + a) (start + b) := by
  unfold window
  rw [List.take_take, Nat.min_eq_left h, List.drop_take, List.drop_drop,
    show start + b - (start + a) = b - a by omega]

/-! ### Pages -/

variable {size : Nat}

def page (size : Nat) (object : List α) (k : Nat) : List α := (object.drop (k * size)).take size

theorem page_length (object : List α) (k : Nat) :
    (page size object k).length = min size (object.length - k * size) := by
  rw [page, List.length_take, List.length_drop]

theorem page_eq_nil_iff (hsize : 0 < size) (object : List α) (k : Nat) :
    page size object k = [] ↔ object.length ≤ k * size := by
  rw [← List.length_eq_zero_iff, page_length]
  omega

/-- A page, or nothing behind the end of the object. -/
def slot (size : Nat) (object : List α) (k : Nat) : Option (List α) :=
  if object.length ≤ k * size then none else some (page size object k)

/-- The slots from `k` on. -/
def slots (size : Nat) (object : List α) : Nat → Nat → List (Option (List α))
  | _, 0 => []
  | k, n + 1 => slot size object k :: slots size object (k + 1) n

theorem slots_add (object : List α) (n m : Nat) : ∀ k,
    slots size object k (n + m) = slots size object k n ++ slots size object (k + n) m := by
  induction n with
  | zero =>
      intro k
      rw [Nat.zero_add]
      rfl
  | succ n ih =>
      intro k
      rw [Nat.succ_add, slots, slots, ih, List.cons_append,
        show k + 1 + n = k + (n + 1) by omega]

theorem slots_past (object : List α) (n : Nat) : ∀ {k}, object.length ≤ k * size →
    slots size object k n = List.replicate n none := by
  induction n with
  | zero =>
      intro k _
      rfl
  | succ n ih =>
      intro k h
      have hnext : object.length ≤ (k + 1) * size :=
        Nat.le_trans h (Nat.mul_le_mul_right size (Nat.le_succ k))
      rw [slots, ih hnext, slot, if_pos h]
      rfl

end Lib
