/-
Text from bytes that may not be text.

`String::from_utf8_lossy` leaves valid UTF-8 alone and puts the replacement character in the place of
every stretch that is not.  What comes out is always text, so bytes that are not text do not come back.
-/
import LimniFS.EpochSections

namespace LimniFS

theorem utf8Valid_of_append {x y : Bytes} {c : UInt8} (hc : c < 0x80)
    (h : utf8Valid (x ++ c :: y) = true) : utf8Valid x = true := by
  have hcont : isContinuation c = false := by
    unfold isContinuation
    rw [Bool.and_eq_false_iff]
    exact Or.inl (by simpa using hc)
  fun_induction utf8Valid x with
  | case1 => rfl
  | case2 b rest hb ih =>
      rw [List.cons_append, utf8Valid.eq_def] at h
      simp only [if_pos hb] at h
      exact ih h
  | case3 b hb =>
      -- the character that follows does not continue the one that was begun
      rcases y with _ | ⟨y1, _ | ⟨y2, y⟩⟩ <;> simp [utf8Valid, hb, hcont] at h
  | case4 b hb b1 rest1 hb1 ih =>
      simp only [List.cons_append] at h
      rw [utf8Valid.eq_def] at h
      simp only [if_neg hb, if_pos hb1] at h
      rw [Bool.and_eq_true] at h ⊢
      exact ⟨h.1, ih h.2⟩
  | case5 b hb b1 hb1 =>
      rcases y with _ | ⟨y1, y⟩ <;> simp [utf8Valid, hb, hb1, hcont] at h
  | case6 b hb b1 hb1 b2 rest2 hb2 ih =>
      simp only [List.cons_append] at h
      rw [utf8Valid.eq_def] at h
      simp only [if_neg hb, if_neg hb1, if_pos hb2] at h
      rw [Bool.and_eq_true] at h ⊢
      exact ⟨h.1, ih h.2⟩
  | case7 b hb b1 hb1 b2 hb2 =>
      simp [utf8Valid, hb, hb1, hb2, hcont] at h
  | case8 b hb b1 hb1 b2 hb2 b3 rest3 ih =>
      simp only [List.cons_append] at h
      rw [utf8Valid.eq_def] at h
      simp only [if_neg hb, if_neg hb1, if_neg hb2] at h
      rw [Bool.and_eq_true] at h ⊢
      exact ⟨h.1, ih h.2⟩

/-- U+FFFD. -/
def replacementCharacter : Bytes := [0xEF, 0xBF, 0xBD]

theorem utf8Error_step {char rest : Bytes} {index : Nat} (hchar : utf8Valid char = true)
    (h : ∃ k, (utf8Error (index + char.length) rest).1 = index + char.length + k ∧
      utf8Valid (rest.take k) = true) :
    ∃ k, (utf8Error (index + char.length) rest).1 = index + k ∧
      utf8Valid ((char ++ rest).take k) = true := by
  obtain ⟨k, hk, hvalid⟩ := h
  refine ⟨char.length + k, by omega, ?_⟩
  rw [List.take_length_add_append, utf8Valid_append hchar]
  exact hvalid

theorem utf8Error_take : ∀ (index : Nat) (bytes : Bytes),
    ∃ k, (utf8Error index bytes).1 = index + k ∧ utf8Valid (bytes.take k) = true := by
  intro index bytes
  fun_induction utf8Error index bytes with
  | case2 index b rest hb ih =>
      exact @utf8Error_step [b] rest index (by rw [utf8Valid, if_pos hb]; rfl) ih
  | case4 index b hb b1 rest1 h1 h2 ih =>
      exact @utf8Error_step [b, b1] rest1 index (by simp_all [utf8Valid]) ih
  | case9 index b hb b1 h1 h2 b2 rest2 h3 h4 ih =>
      exact @utf8Error_step [b, b1, b2] rest2 index (by simp_all [utf8Valid]) ih
  | case11 index b hb b1 h1 h2 b2 h3 h4 b3 rest3 h5 ih =>
      refine @utf8Error_step [b, b1, b2, b3] rest3 index ?_ ih
      have hfour : ¬ b ≤ 0xEF := h4
      have hlow : 0xF0 ≤ b := by
        rw [UInt8.not_le, UInt8.lt_iff_toNat_lt] at hfour
        rw [UInt8.le_iff_toNat_le]
        exact hfour
      have hthree : ¬ ((0xE0 ≤ b && b ≤ 0xEF) = true) := by simp [hfour]
      rw [utf8Valid, if_neg hb]
      rw [if_neg (by simpa using h1), if_neg hthree]
      simp_all [utf8Valid]
      obtain ⟨-, -, -, -, -, -, hlast⟩ := h2
      by_cases h244 : b = 0xF4
      · exact Or.inr (hlast h244)
      · exact Or.inl h244
  | _ => exact ⟨0, rfl, rfl⟩

theorem utf8Error_pos : ∀ (index : Nat) (bytes : Bytes) {wrong : Nat},
    (utf8Error index bytes).2 = some wrong → 0 < wrong := by
  intro index bytes
  fun_induction utf8Error index bytes <;> intro wrong h <;> simp_all <;> omega

/-- `String::from_utf8_lossy`. -/
def fromUtf8Lossy (bytes : Bytes) : Bytes :=
  if _h : utf8Valid bytes = true then bytes
  else
    match _herror : utf8Error 0 bytes with
    | (upTo, none) => bytes.take upTo ++ replacementCharacter
    | (upTo, some wrong) =>
      bytes.take upTo ++ (replacementCharacter ++ fromUtf8Lossy (bytes.drop (upTo + wrong)))
termination_by bytes.length
decreasing_by
  have hpos := @utf8Error_pos 0 bytes wrong (by rw [_herror])
  have hne : bytes ≠ [] := by
    rintro rfl
    exact _h rfl
  have := List.length_pos_iff.mpr hne
  rw [List.length_drop]
  omega

theorem fromUtf8Lossy_of_valid {bytes : Bytes} (h : utf8Valid bytes = true) :
    fromUtf8Lossy bytes = bytes := by
  rw [fromUtf8Lossy, dif_pos h]

theorem utf8Valid_fromUtf8Lossy (bytes : Bytes) : utf8Valid (fromUtf8Lossy bytes) = true := by
  induction hlen : bytes.length using Nat.strongRecOn generalizing bytes with
  | ind n ih =>
      by_cases h : utf8Valid bytes = true
      · rw [fromUtf8Lossy_of_valid h]
        exact h
      · have hfront : ∀ upTo, (utf8Error 0 bytes).1 = upTo → utf8Valid (bytes.take upTo) = true := by
          intro upTo hup
          obtain ⟨k, hk, hvalid⟩ := utf8Error_take 0 bytes
          rw [← hup, hk, Nat.zero_add]
          exact hvalid
        rw [fromUtf8Lossy, dif_neg h]
        split
        · next upTo herror =>
          rw [utf8Valid_append (hfront upTo (by rw [herror]))]
          rfl
        · next upTo wrong herror =>
          have hpos := @utf8Error_pos 0 bytes wrong (by rw [herror])
          have hne : bytes ≠ [] := by
            rintro rfl
            exact h rfl
          have := List.length_pos_iff.mpr hne
          rw [utf8Valid_append (hfront upTo (by rw [herror])),
            utf8Valid_append (show utf8Valid replacementCharacter = true from rfl)]
          exact ih _ (by rw [List.length_drop]; omega) _ rfl

/-- **Only text comes back.** -/
theorem fromUtf8Lossy_eq_iff {bytes : Bytes} :
    fromUtf8Lossy bytes = bytes ↔ utf8Valid bytes = true := by
  constructor
  · intro h
    rw [← h]
    exact utf8Valid_fromUtf8Lossy bytes
  · exact fromUtf8Lossy_of_valid

end LimniFS
