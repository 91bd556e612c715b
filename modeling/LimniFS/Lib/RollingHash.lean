/-
A shift-and-add rolling hash, and the window it forgets beyond.

The hash of a byte string is `fp ← (fp <<< 1) + g b`, byte after byte, in `w`
bits.  Every step shifts the older bytes one place to the left, so after `w`
steps nothing of what was there before is left: the value over a string of at
least `w` bytes is the value over its last `w` bytes, whatever the hash held when
the string began.  `hashOver_window` says so for two windows of one string that end
at the same place, which is the form a scan needs that starts rolling at a place
of its own choosing.

The second half is about looking for the first position of an interval at which
something holds.  `firstIn` is that search; it splits at any point of the
interval, and it does not see positions that are filtered out beforehand as long
as none of them is a hit.
-/
import Mathlib.Data.List.Basic
import Mathlib.Data.List.Range

namespace Lib

namespace RollingHash

variable {α : Type} {w : Nat} (g : α → BitVec w)

/-- One step: everything older moves up one bit, the new byte's word is added. -/
def roll (fp : BitVec w) (b : α) : BitVec w := (fp <<< 1) + g b

theorem foldl_roll (l : List α) (fp : BitVec w) :
    l.foldl (roll g) fp = (fp <<< l.length) + l.foldl (roll g) 0 := by
  induction l generalizing fp with
  | nil => simp
  | cons b rest ih =>
      rw [List.foldl_cons, List.foldl_cons, ih (roll g fp b), ih (roll g 0 b)]
      unfold roll
      rw [BitVec.shiftLeft_add_distrib, List.length_cons, Nat.add_comm rest.length 1,
        BitVec.shiftLeft_add]
      simp [BitVec.add_assoc]

theorem foldl_roll_forget (l : List α) (fp : BitVec w) (h : w ≤ l.length) :
    l.foldl (roll g) fp = l.foldl (roll g) 0 := by
  rw [foldl_roll, BitVec.shiftLeft_eq_zero h, BitVec.zero_add]

/-- The hash over positions `lo, …, hi - 1` of `data`, started at zero. -/
def hashOver (data : List α) (lo hi : Nat) : BitVec w :=
  ((data.take hi).drop lo).foldl (roll g) 0

@[simp] theorem hashOver_self (data : List α) (lo : Nat) : hashOver g data lo lo = 0 := by
  simp [hashOver]

theorem hashOver_succ {data : List α} {lo i : Nat} (hlo : lo ≤ i) (hi : i < data.length) :
    hashOver g data lo (i + 1) = roll g (hashOver g data lo i) data[i] := by
  unfold hashOver
  rw [List.take_succ_eq_append_getElem hi, List.drop_append_of_le_length (by simp; omega),
    List.foldl_append]
  rfl

theorem hashOver_window {data : List α} {lo lo' hi : Nat} (h : lo + w ≤ hi) (h' : lo' + w ≤ hi)
    (hhi : hi ≤ data.length) : hashOver g data lo hi = hashOver g data lo' hi := by
  have key : ∀ a b, a ≤ b → b + w ≤ hi → hashOver g data a hi = hashOver g data b hi := by
    intro a b hab hb
    unfold hashOver
    have hsplit : (data.take hi).drop a
        = ((data.take hi).drop a).take (b - a) ++ (data.take hi).drop b := by
      conv_lhs => rw [← List.take_append_drop (b - a) ((data.take hi).drop a)]
      rw [List.drop_drop, Nat.add_sub_cancel' hab]
    rw [hsplit, List.foldl_append]
    exact foldl_roll_forget g _ _ (by simp; omega)
  rcases Nat.le_total lo lo' with hle | hle
  · exact key lo lo' hle h'
  · exact (key lo' lo hle h).symm

end RollingHash

/-! ### The first hit of an interval -/

/-- The least position of `lo, …, hi - 1` at which `p` holds. -/
def firstIn (p : Nat → Bool) (lo hi : Nat) : Option Nat :=
  (List.range' lo (hi - lo)).find? p

theorem firstIn_empty {p : Nat → Bool} {lo hi : Nat} (h : hi ≤ lo) : firstIn p lo hi = none := by
  simp [firstIn, Nat.sub_eq_zero_of_le h]

theorem firstIn_step {p : Nat → Bool} {lo hi : Nat} (h : lo < hi) :
    firstIn p lo hi = if p lo then some lo else firstIn p (lo + 1) hi := by
  unfold firstIn
  have hlen : hi - lo = (hi - (lo + 1)) + 1 := by omega
  rw [hlen, List.range'_succ, List.find?_cons]
  cases p lo <;> simp

theorem firstIn_split {p : Nat → Bool} {lo mid hi : Nat} (h1 : lo ≤ mid) (h2 : mid ≤ hi) :
    firstIn p lo hi = (firstIn p lo mid).or (firstIn p mid hi) := by
  unfold firstIn
  have hrange : List.range' lo (hi - lo)
      = List.range' lo (mid - lo) ++ List.range' mid (hi - mid) := by
    have happ := List.range'_append_1 (s := lo) (m := mid - lo) (n := hi - mid)
    rw [Nat.add_sub_cancel' h1] at happ
    rw [happ]
    congr 1
    omega
  rw [hrange, List.find?_append]

theorem firstIn_congr {p q : Nat → Bool} {lo hi : Nat}
    (h : ∀ i, lo ≤ i → i < hi → p i = q i) : firstIn p lo hi = firstIn q lo hi := by
  by_cases hlt : lo < hi
  · rw [firstIn_step hlt, firstIn_step hlt, h lo (Nat.le_refl _) hlt]
    split
    · rfl
    · exact firstIn_congr fun i hi1 hi2 => h i (by omega) hi2
  · rw [firstIn_empty (by omega), firstIn_empty (by omega)]
termination_by hi - lo

theorem firstIn_bounds {p : Nat → Bool} {lo hi i : Nat} (h : firstIn p lo hi = some i) :
    lo ≤ i ∧ i < hi := by
  have hmem := List.mem_of_find?_eq_some h
  rw [List.mem_range'_1] at hmem
  omega

end Lib
