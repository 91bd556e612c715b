/-
Taking blanks off the ends of a text.

A blank is a word of a table, so a blank character may take more than one element.  Words are taken off
the front until none fits; the end is the front of the text read backwards.  An element that stands in
no word is never taken off, and nothing behind it is when the front is trimmed (`trimStart_keeps`).
-/
import Mathlib.Data.List.Infix

namespace Lib

namespace Trim

variable {α : Type} [DecidableEq α]

/-- A word of the table that the text starts with. -/
def leading (blanks : List (List α)) (s : List α) : Option (List α) :=
  blanks.find? fun w => !w.isEmpty && w.isPrefixOf s

theorem leading_eq_some {blanks : List (List α)} {s w : List α} (h : leading blanks s = some w) :
    w ∈ blanks ∧ w ≠ [] ∧ w <+: s := by
  have hfound := List.find?_some h
  simp only [Bool.and_eq_true, Bool.not_eq_true', List.isEmpty_eq_false_iff,
    List.isPrefixOf_iff_prefix] at hfound
  exact ⟨List.mem_of_find?_eq_some h, hfound.1, hfound.2⟩

def trimStart (blanks : List (List α)) (s : List α) : List α :=
  match _h : leading blanks s with
  | none => s
  | some w => trimStart blanks (s.drop w.length)
termination_by s.length
decreasing_by
  obtain ⟨-, hne, hfits⟩ := leading_eq_some _h
  have hpos := List.length_pos_iff.mpr hne
  have hle := hfits.length_le
  rw [List.length_drop]
  omega

def trimEnd (blanks : List (List α)) (s : List α) : List α :=
  (trimStart (blanks.map List.reverse) s.reverse).reverse

def trim (blanks : List (List α)) (s : List α) : List α := trimEnd blanks (trimStart blanks s)

/-- The element stands in no blank. -/
def Solid (blanks : List (List α)) (c : α) : Prop := ∀ w ∈ blanks, c ∉ w

variable {blanks : List (List α)} {c : α}

omit [DecidableEq α] in
theorem Solid.reverse (h : Solid blanks c) : Solid (blanks.map List.reverse) c := by
  intro w hw
  obtain ⟨v, hv, rfl⟩ := List.mem_map.mp hw
  rw [List.mem_reverse]
  exact h v hv

theorem trimStart_of_none {s : List α} (h : leading blanks s = none) : trimStart blanks s = s := by
  rw [trimStart]
  split
  · rfl
  · next w hw =>
    rw [h] at hw
    cases hw

theorem trimStart_of_some {s w : List α} (h : leading blanks s = some w) :
    trimStart blanks s = trimStart blanks (s.drop w.length) := by
  rw [trimStart]
  split
  · next hw =>
    rw [h] at hw
    cases hw
  · next w' hw =>
    rw [h] at hw
    cases hw
    rfl

theorem leading_trimStart (s : List α) : leading blanks (trimStart blanks s) = none := by
  induction hlen : s.length using Nat.strongRecOn generalizing s with
  | ind n ih =>
      rcases hw : leading blanks s with _ | w
      · rw [trimStart_of_none hw]
        exact hw
      · obtain ⟨-, hne, hfits⟩ := leading_eq_some hw
        have hpos := List.length_pos_iff.mpr hne
        have hle := hfits.length_le
        rw [trimStart_of_some hw]
        exact ih _ (by rw [List.length_drop]; omega) _ rfl

/-- **Trimming stops at what is solid.** -/
theorem trimStart_keeps (hc : Solid blanks c) (front back : List α) :
    ∃ left, left <:+ front ∧ trimStart blanks (front ++ c :: back) = left ++ c :: back := by
  induction hlen : front.length using Nat.strongRecOn generalizing front with
  | ind n ih =>
      rcases hw : leading blanks (front ++ c :: back) with _ | w
      · exact ⟨front, List.suffix_rfl, trimStart_of_none hw⟩
      · obtain ⟨hmem, hne, rest, hfits⟩ := leading_eq_some hw
        have hpos := List.length_pos_iff.mpr hne
        have hle : w.length ≤ front.length := by
          by_contra hlong
          -- the word would reach over the element
          have hat := congrArg (fun l => l[front.length]?) hfits
          rw [List.getElem?_append_left (by omega)] at hat
          simp only [List.getElem?_append_right (Nat.le_refl _), Nat.sub_self,
            List.getElem?_cons_zero] at hat
          exact hc w hmem (List.mem_of_getElem? hat)
        obtain ⟨left, hleft, htrim⟩ := ih _ (by rw [List.length_drop]; omega) (front.drop w.length) rfl
        refine ⟨left, hleft.trans (List.drop_suffix _ _), ?_⟩
        rw [trimStart_of_some hw, List.drop_append_of_le_length hle]
        exact htrim

theorem trimStart_solid (hc : Solid blanks c) (back : List α) :
    trimStart blanks (c :: back) = c :: back := by
  obtain ⟨left, hleft, htrim⟩ := trimStart_keeps hc [] back
  rw [List.suffix_nil.mp hleft] at htrim
  exact htrim

theorem trimEnd_keeps (hc : Solid blanks c) (front back : List α) :
    ∃ left, left <+: back ∧ trimEnd blanks (front ++ c :: back) = front ++ c :: left := by
  obtain ⟨left, hleft, htrim⟩ := trimStart_keeps hc.reverse back.reverse front.reverse
  refine ⟨left.reverse, ?_, ?_⟩
  · rw [← List.reverse_suffix, List.reverse_reverse]
    exact hleft
  · have hback : (front ++ c :: back).reverse = back.reverse ++ c :: front.reverse := by simp
    unfold trimEnd
    rw [hback, htrim]
    simp

theorem trimEnd_blank (hc : Solid blanks c) (front : List α) {back : List α}
    (hback : ∀ b ∈ back, [b] ∈ blanks) : trimEnd blanks (front ++ c :: back) = front ++ [c] := by
  obtain ⟨left, hleft, htrim⟩ := trimEnd_keeps hc front back
  have hdone := @leading_trimStart α _ (blanks.map List.reverse) (front ++ c :: back).reverse
  have hrev : trimStart (blanks.map List.reverse) (front ++ c :: back).reverse
      = (front ++ c :: left).reverse := by
    rw [← htrim, trimEnd, List.reverse_reverse]
  rcases List.eq_nil_or_concat left with rfl | ⟨init, b, rfl⟩
  · exact htrim
  · -- the last of them would fit
    have hb : [b] ∈ blanks := hback b (hleft.subset (by simp))
    rw [hrev] at hdone
    have hnone := List.find?_eq_none.mp hdone [b] (List.mem_map.mpr ⟨[b], hb, rfl⟩)
    simp at hnone

/-- A text that nothing is taken off, at its front or its end. -/
structure Core (blanks : List (List α)) (core : List α) : Prop where
  first : ∃ c rest, core = c :: rest ∧ Solid blanks c
  last : ∃ front c, core = front ++ [c] ∧ Solid blanks c

theorem Core.trimStart {core : List α} (h : Core blanks core) (back : List α) :
    trimStart blanks (core ++ back) = core ++ back := by
  obtain ⟨c, rest, rfl, hc⟩ := h.first
  exact trimStart_solid hc (rest ++ back)

theorem Core.trim_append {core : List α} (h : Core blanks core) (back : List α) :
    ∃ left, left <+: back ∧ trim blanks (core ++ back) = core ++ left := by
  obtain ⟨front, c, hcore, hc⟩ := h.last
  obtain ⟨left, hleft, htrim⟩ := trimEnd_keeps hc front back
  refine ⟨left, hleft, ?_⟩
  unfold trim
  rw [h.trimStart, hcore]
  simp only [List.append_assoc, List.singleton_append]
  exact htrim

theorem Core.trim_blank {core : List α} (h : Core blanks core) {back : List α}
    (hback : ∀ b ∈ back, [b] ∈ blanks) : trim blanks (core ++ back) = core := by
  obtain ⟨front, c, hcore, hc⟩ := h.last
  unfold trim
  rw [h.trimStart, hcore]
  simp only [List.append_assoc, List.singleton_append]
  exact trimEnd_blank hc front hback

end Trim

end Lib
