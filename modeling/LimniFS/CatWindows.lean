/-
The windows of a printed file.

A window starts where the bytes that were printed end.  A drop that is shorter than its slice leaves
bytes out, so the next window then starts inside the last one; the printing ends at the end of the file,
at a window with nothing in it, or at a drop that cannot be read.

If every drop can be read something is printed (`printed_readable`), and it is what every window shows a
part of, if there is such a text (`catLoop_shows`).  A drop that cannot be read stops the printing exactly when no stretch of the
file as long as a window is empty before it (`printed_fails_iff`).
-/
import LimniFS.CatCommands
import LimniFS.ExtractAgree
import LimniFS.RangedGates

namespace LimniFS.Cat

open Lib

/-! ### Slices and windows -/

/-- The slice's drop can be read. -/
def Decodes (store : SlabSource) (slice : SliceRef) : Prop :=
  store slice.dropId = some (.ok (plainOf store slice))

/-- The slice covers a part of the window. -/
def Meets (lo hi : Nat) (slice : SliceRef) : Prop :=
  slice.fileByteStart < hi ∧ lo < slice.fileByteEnd

/-- The first bytes of the drop, put where the slice starts, reach into the window. -/
def Shows (store : SlabSource) (lo hi : Nat) (slice : SliceRef) : Prop :=
  max lo slice.fileByteStart < min hi (slice.fileByteStart + (headOf store slice).length)

/-- Every stretch of a window's length that ends before all drops that cannot be read shows a byte of
some drop. -/
def NoGap (store : SlabSource) (slices : List SliceRef) : Prop :=
  ∀ x, (∀ s ∈ slices, ¬ Decodes store s → x + catWindow ≤ s.fileByteStart) →
    ∃ s ∈ slices, Shows store x (x + catWindow) s

/-- What the slices put into a window. -/
def windowBytes (store : SlabSource) (lo hi : Nat) (slices : List SliceRef) : Bytes :=
  (slices.map (windowOf store lo hi)).flatten

section
variable {store : SlabSource} {lo hi : Nat}

@[simp] theorem windowBytes_nil : windowBytes store lo hi [] = [] := rfl

@[simp] theorem windowBytes_cons (slice : SliceRef) (rest : List SliceRef) :
    windowBytes store lo hi (slice :: rest)
      = windowOf store lo hi slice ++ windowBytes store lo hi rest := rfl

theorem windowOf_eq_nil_iff {slice : SliceRef} :
    windowOf store lo hi slice = [] ↔ ¬ Shows store lo hi slice := by
  rw [← List.length_eq_zero_iff, windowOf, List.length_take, List.length_drop, Shows]
  omega

theorem windowBytes_eq_nil_iff {slices : List SliceRef} :
    windowBytes store lo hi slices = [] ↔ ∀ s ∈ slices, ¬ Shows store lo hi s := by
  simp [windowBytes, List.flatten_eq_nil_iff, windowOf_eq_nil_iff]

theorem windowOf_of_not_meets {slice : SliceRef} (h : ¬ Meets lo hi slice) :
    windowOf store lo hi slice = [] := by
  have hlen := @windowOf_length store lo hi slice
  have hlt := slice.start_lt_end
  unfold Meets at h
  exact List.length_eq_zero_iff.mp (by omega)

theorem windowBytes_length : ∀ (slices : List SliceRef) (index start : Nat),
    sliceMapGap index start slices = none →
    (windowBytes store lo hi slices).length ≤ hi - max lo start := by
  intro slices
  induction slices with
  | nil => simp
  | cons slice rest ih =>
      intro index start hgap
      obtain ⟨rfl, hnext⟩ := sliceMapGap_cons hgap
      have hrest := ih (index + 1) slice.fileByteEnd hnext
      have hlen := @windowOf_length store lo hi slice
      have hlt := slice.start_lt_end
      rw [windowBytes_cons, List.length_append]
      omega

theorem windowBytes_before_gap {x hi' : Nat} {slices : List SliceRef}
    (hnone : ∀ s ∈ slices, ¬ Shows store x hi' s) (hlo : lo ≤ x) (hhi : hi ≤ hi') :
    windowBytes store lo hi slices = windowBytes store lo (min hi x) slices := by
  unfold windowBytes
  refine congrArg List.flatten (List.map_congr_left fun s hs => ?_)
  have hdark := hnone s hs
  unfold Shows at hdark
  rw [windowOf, windowOf, List.take_eq_take_iff, List.length_drop]
  omega

/-! ### Filling a window -/

/-- **A window whose drops can be read** holds what its slices put into it. -/
theorem fillWindow_met {n : Nat} (hn : hi - lo ≤ n) :
    ∀ (slices : List SliceRef) (index start : Nat) (filled : Bytes),
      sliceMapGap index start slices = none →
      (∀ s ∈ slices, Meets lo hi s → Decodes store s) → filled.length ≤ start - lo →
      fillWindow store lo n hi slices filled
        = some (.ok (filled ++ windowBytes store lo hi slices)) := by
  intro slices
  induction slices with
  | nil =>
      intro index start filled _ _ _
      simp [fillWindow]
  | cons slice rest ih =>
      intro index start filled hgap hread hfilled
      obtain ⟨rfl, hnext⟩ := sliceMapGap_cons hgap
      obtain ⟨hslice, hrest⟩ := List.forall_mem_cons.mp hread
      have hlt := slice.start_lt_end
      have hlen := @windowOf_length store lo hi slice
      rw [windowBytes_cons, ← List.append_assoc]
      by_cases hmeets : Meets lo hi slice
      · rcases fillWindow_cons (hslice hmeets) hn hfilled rest with hgo | ⟨hend, hstop⟩
        · rw [hgo]
          refine ih (index + 1) slice.fileByteEnd _ hnext hrest ?_
          rw [List.length_append]
          omega
        · -- the slices behind the end of the window put nothing into it
          have hnil : windowBytes store lo hi rest = [] := by
            have hlen := @windowBytes_length store lo hi rest (index + 1) slice.fileByteEnd hnext
            exact List.length_eq_zero_iff.mp (by omega)
          rw [hstop, hnil, List.append_nil]
      · rw [fillWindow.eq_2, if_pos (by unfold Meets at hmeets; omega),
          windowOf_of_not_meets hmeets, List.append_nil]
        exact ih (index + 1) slice.fileByteEnd _ hnext hrest (by omega)

/-- **A drop in the window that cannot be read** is an error. -/
theorem fillWindow_unread {n : Nat} (hlo : lo < hi) (hn : hi - lo ≤ n) :
    ∀ (slices : List SliceRef) (index start : Nat) (filled : Bytes),
      sliceMapGap index start slices = none →
      (∃ s ∈ slices, Meets lo hi s ∧ ¬ Decodes store s) → filled.length ≤ start - lo →
      ∃ e, fillWindow store lo n hi slices filled = some (.error e) := by
  intro slices
  induction slices with
  | nil =>
      intro index start filled _ hbad _
      obtain ⟨s, hs, -⟩ := hbad
      exact absurd hs List.not_mem_nil
  | cons slice rest ih =>
      intro index start filled hgap hbad hfilled
      obtain ⟨rfl, hnext⟩ := sliceMapGap_cons hgap
      obtain ⟨s, hs, hmet, hunread⟩ := hbad
      have hlt := slice.start_lt_end
      have hlen := @windowOf_length store lo hi slice
      by_cases hread : Decodes store slice
      · -- it is a later one
        have hin : s ∈ rest := (List.mem_cons.mp hs).resolve_left fun heq => hunread (heq ▸ hread)
        rcases fillWindow_cons hread hn hfilled rest with hgo | ⟨hend, -⟩
        · rw [hgo]
          refine ih (index + 1) slice.fileByteEnd _ hnext ⟨s, hin, hmet, hunread⟩ ?_
          rw [List.length_append]
          omega
        · have hstart := sliceMapGap_le hnext s hin
          exact absurd hmet.1 (by omega)
      · rw [fillWindow.eq_2]
        by_cases hmeets : Meets lo hi slice
        · unfold Meets at hmeets
          rw [if_neg (by omega)]
          simp only
          rw [if_neg (by omega), if_neg (by omega), decodedRangeInto, if_neg (by omega)]
          rcases hdrop : store slice.dropId with _ | _ | plaintext
          · exact ⟨_, rfl⟩
          · exact ⟨_, rfl⟩
          · exact absurd (by rw [Decodes, hdrop, plainOf_eq hdrop]) hread
        · have hin : s ∈ rest := (List.mem_cons.mp hs).resolve_left fun heq => hmeets (heq ▸ hmet)
          unfold Meets at hmeets
          rw [if_pos (by omega)]
          exact ih (index + 1) slice.fileByteEnd _ hnext ⟨s, hin, hmet, hunread⟩ (by omega)

end

/-! ### The loop -/

section
variable {read : Nat → Nat → Option (Except CoreError Bytes)} {windowLen start take : Nat} {out : Bytes}

theorem catLoop_done (h : take ≤ out.length) :
    catLoop read windowLen start take out = some (.ok out) := by
  rw [catLoop, dif_neg (Nat.not_lt.mpr h)]

theorem catLoop_error {e : CoreError} (h : out.length < take)
    (hread : read (start + out.length) (min windowLen (take - out.length)) = some (.error e)) :
    catLoop read windowLen start take out = some (.error e) := by
  rw [catLoop, dif_pos h, hread]

theorem catLoop_ok {got : Bytes} (h : out.length < take)
    (hread : read (start + out.length) (min windowLen (take - out.length)) = some (.ok got)) :
    catLoop read windowLen start take out =
      if got = [] then some (.ok out) else catLoop read windowLen start take (out ++ got) := by
  rw [catLoop, dif_pos h, hread]
  cases got with
  | nil => rfl
  | cons b got => rw [if_neg (List.cons_ne_nil _ _)]

/-- **Windows that show a text are printed as that text.** -/
theorem catLoop_shows {p : Bytes} (hwindow : 0 < windowLen) (hfits : p.length ≤ take)
    (hread : ∀ pos < take, ∀ n, read pos n = some (.ok ((p.drop pos).take n))) : ∀ {out : Bytes},
    out <+: p → catLoop read windowLen 0 take out = some (.ok p) := by
  intro out
  induction hleft : p.length - out.length using Nat.strongRecOn generalizing out with
  | ind n ih =>
      rintro ⟨rest, rfl⟩
      rw [List.length_append] at hfits hleft
      rcases Nat.eq_or_lt_of_le (Nat.le_trans (Nat.le_add_right _ _) hfits) with hdone | hpos
      · have hnil : rest = [] := List.eq_nil_of_length_eq_zero (by omega)
        rw [hnil, List.append_nil]
        exact catLoop_done (Nat.le_of_eq hdone.symm)
      · have hshown := hread (0 + out.length) (by omega) (min windowLen (take - out.length))
        rw [Nat.zero_add, List.drop_left] at hshown
        rw [catLoop_ok hpos (by rwa [Nat.zero_add])]
        by_cases hnil : rest.take (min windowLen (take - out.length)) = []
        · have hlast : rest = [] := (List.take_eq_nil_iff.mp hnil).resolve_left (by omega)
          rw [if_pos hnil, hlast, List.append_nil]
        · have hpos := List.length_pos_iff.mpr hnil
          have hle := (List.take_prefix (min windowLen (take - out.length)) rest).length_le
          rw [if_neg hnil]
          refine ih _ ?_ rfl ?_
          · simp only [List.length_append] at hleft ⊢
            omega
          · exact List.prefix_append_right_inj _ |>.mpr (List.take_prefix _ _)

end

/-- What `cat` prints of a file without an offset and a length, behind `out`. -/
def printed (inode : Inode) (store : Option SlabSource) (out : Bytes) :
    Option (Except CoreError Bytes) :=
  catLoop (readWindowInto inode store) (max (min catWindow inode.fileLen) 1) 0 inode.fileLen out

/-- Where the window ends that starts at `pos`. -/
def windowStop (inode : Inode) (pos : Nat) : Nat := min (pos + catWindow) inode.fileLen

section
variable {store : SlabSource} {inode : Inode} {map : SliceMap} {out : Bytes}
  (hmap : inode.contentHandle = .sliceMap map) (hlen : inode.fileLen < 2 ^ 64)

include hmap hlen

theorem readWindowInto_printed (hpos : out.length < inode.fileLen) :
    readWindowInto inode (some store) (0 + out.length)
        (min (max (min catWindow inode.fileLen) 1) (inode.fileLen - out.length)) =
      fillWindow store out.length (windowStop inode out.length - out.length)
        (windowStop inode out.length) map.slices [] := by
  have hwant : min (max (min catWindow inode.fileLen) 1) (inode.fileLen - out.length)
      = windowStop inode out.length - out.length := by
    unfold windowStop catWindow
    omega
  have hsome : windowStop inode out.length - out.length ≠ 0 := by
    unfold windowStop catWindow
    omega
  have hend : windowEnd out.length (windowStop inode out.length - out.length)
      = windowStop inode out.length := by
    unfold windowEnd windowStop
    omega
  rw [hwant, Nat.zero_add, readWindowInto, if_neg hsome, hmap]
  simp only
  rw [hend]

/-- One window whose drops can be read: it is printed, and the rest of the file behind it. -/
theorem printed_step (hpos : out.length < inode.fileLen)
    (hread : ∀ s ∈ map.slices, Meets out.length (windowStop inode out.length) s → Decodes store s) :
    printed inode (some store) out =
      if windowBytes store out.length (windowStop inode out.length) map.slices = [] then
        some (.ok out)
      else printed inode (some store)
        (out ++ windowBytes store out.length (windowStop inode out.length) map.slices) := by
  refine catLoop_ok hpos ?_
  rw [readWindowInto_printed hmap hlen hpos, fillWindow_met (Nat.le_refl _) map.slices 0 0 []
    map.contiguous hread (Nat.zero_le _), List.nil_append]

theorem printed_unread (hpos : out.length < inode.fileLen)
    (hbad : ∃ s ∈ map.slices, Meets out.length (windowStop inode out.length) s ∧ ¬ Decodes store s) :
    ∃ e, printed inode (some store) out = some (.error e) := by
  have hstop : out.length < windowStop inode out.length := by
    unfold windowStop catWindow
    omega
  obtain ⟨e, he⟩ := fillWindow_unread hstop (Nat.le_refl _) map.slices 0 0 [] map.contiguous hbad
    (Nat.zero_le _)
  exact ⟨e, catLoop_error hpos (by rw [readWindowInto_printed hmap hlen hpos, he])⟩

omit hlen hmap in
theorem windowBytes_stop (pos : Nat) :
    (windowBytes store pos (windowStop inode pos) map.slices).length ≤ windowStop inode pos - pos := by
  have hle := @windowBytes_length store pos (windowStop inode pos) map.slices 0 0 map.contiguous
  rwa [Nat.max_eq_left (Nat.zero_le pos)] at hle

/-! ### Drops that can be read -/

/-- **If all drops can be read, the file is printed**, no longer than it is. -/
theorem printed_readable (hread : Readable store map.slices) : ∀ {out : Bytes},
    out.length ≤ inode.fileLen →
    ∃ p, printed inode (some store) out = some (.ok p) ∧ p.length ≤ inode.fileLen := by
  intro out
  induction hleft : inode.fileLen - out.length using Nat.strongRecOn generalizing out with
  | ind n ih =>
      intro hpos
      rcases Nat.eq_or_lt_of_le hpos with hdone | hpos
      · exact ⟨out, catLoop_done (Nat.le_of_eq hdone.symm), Nat.le_of_eq hdone⟩
      · rw [printed_step hmap hlen hpos fun s hs _ => hread s hs]
        by_cases hnil : windowBytes store out.length (windowStop inode out.length) map.slices = []
        · rw [if_pos hnil]
          exact ⟨out, rfl, Nat.le_of_lt hpos⟩
        · have hshown := List.length_pos_iff.mpr hnil
          have hle := @windowBytes_stop store inode map out.length
          unfold windowStop at hle
          rw [if_neg hnil]
          refine ih _ ?_ rfl ?_
          · rw [List.length_append]
            omega
          · rw [List.length_append, windowStop]
            omega

/-! ### Drops that cannot be read -/

/-- Where no stretch of a window's length is empty, the windows come to a drop that cannot be read. -/
theorem printed_error (hend : ∀ s ∈ map.slices, s.fileByteEnd ≤ inode.fileLen)
    (hbad : ¬ Readable store map.slices) (hgap : NoGap store map.slices) : ∀ {out : Bytes},
    (∀ s ∈ map.slices, ¬ Decodes store s → out.length ≤ s.fileByteStart) →
    ∃ e, printed inode (some store) out = some (.error e) := by
  obtain ⟨bad, hin, hunread⟩ : ∃ s ∈ map.slices, ¬ Decodes store s := by
    by_contra hall
    push Not at hall
    exact hbad hall
  have hbadEnd := hend bad hin
  have hbadLt := bad.start_lt_end
  intro out
  induction hleft : inode.fileLen - out.length using Nat.strongRecOn generalizing out with
  | ind n ih =>
      intro hbefore
      have hpos : out.length < inode.fileLen := by
        have hle := hbefore bad hin hunread
        omega
      by_cases hmet : ∃ s ∈ map.slices, Meets out.length (windowStop inode out.length) s ∧
          ¬ Decodes store s
      · exact printed_unread hmap hlen hpos hmet
      · push Not at hmet
        -- the window ends before every such drop
        have hstop : ∀ s ∈ map.slices, ¬ Decodes store s →
            windowStop inode out.length ≤ s.fileByteStart := by
          intro s hs hno
          have hle := hbefore s hs hno
          have hlt := s.start_lt_end
          by_contra hlate
          exact hno (hmet s hs ⟨by omega, by omega⟩)
        have hfull : windowStop inode out.length = out.length + catWindow := by
          have hle := hstop bad hin hunread
          unfold windowStop at hle ⊢
          omega
        obtain ⟨s, hs, hshows⟩ := hgap out.length fun s hs hno => hfull ▸ hstop s hs hno
        have hne : windowBytes store out.length (windowStop inode out.length) map.slices ≠ [] := by
          rw [hfull, Ne, windowBytes_eq_nil_iff]
          exact fun hnone => hnone s hs hshows
        have hshown := List.length_pos_iff.mpr hne
        have hle := @windowBytes_stop store inode map out.length
        rw [printed_step hmap hlen hpos hmet, if_neg hne]
        refine ih _ ?_ rfl fun s hs hno => ?_
        · rw [List.length_append]
          omega
        · have hstart := hstop s hs hno
          rw [List.length_append]
          omega

/-- An empty stretch of a window's length is not passed. -/
theorem printed_before_gap {x : Nat}
    (hbefore : ∀ s ∈ map.slices, ¬ Decodes store s → x + catWindow ≤ s.fileByteStart)
    (hnone : ∀ s ∈ map.slices, ¬ Shows store x (x + catWindow) s) : ∀ {out : Bytes},
    out.length ≤ x → ∃ p, printed inode (some store) out = some (.ok p) := by
  intro out
  induction hleft : x - out.length using Nat.strongRecOn generalizing out with
  | ind n ih =>
      intro hx
      by_cases hdone : inode.fileLen ≤ out.length
      · exact ⟨out, catLoop_done hdone⟩
      · have hread : ∀ s ∈ map.slices, Meets out.length (windowStop inode out.length) s →
            Decodes store s := by
          intro s hs hmet
          by_contra hno
          have hstart := hbefore s hs hno
          unfold Meets windowStop at hmet
          omega
        rw [printed_step hmap hlen (Nat.lt_of_not_le hdone) hread]
        by_cases hnil : windowBytes store out.length (windowStop inode out.length) map.slices = []
        · rw [if_pos hnil]
          exact ⟨out, rfl⟩
        · have hshown := List.length_pos_iff.mpr hnil
          have hshort : (windowBytes store out.length (windowStop inode out.length)
              map.slices).length ≤ x - out.length := by
            rw [windowBytes_before_gap hnone hx (by unfold windowStop; omega)]
            have hle := @windowBytes_length store out.length
              (min (windowStop inode out.length) x) map.slices 0 0 map.contiguous
            omega
          rw [if_neg hnil]
          refine ih _ ?_ rfl ?_
          · rw [List.length_append]
            omega
          · rw [List.length_append]
            omega

/-- **A drop that cannot be read stops the printing** exactly when no stretch of the file as long as a
window is empty before it. -/
theorem printed_fails_iff (hend : ∀ s ∈ map.slices, s.fileByteEnd ≤ inode.fileLen)
    (hbad : ¬ Readable store map.slices) :
    (∃ e, printed inode (some store) [] = some (.error e)) ↔ NoGap store map.slices := by
  constructor
  · rintro ⟨e, herror⟩ x hbefore
    by_contra hnone
    push Not at hnone
    obtain ⟨p, hp⟩ : ∃ p, printed inode (some store) [] = some (.ok p) :=
      printed_before_gap hmap hlen hbefore hnone (Nat.zero_le x)
    rw [herror] at hp
    cases hp
  · intro hgap
    exact printed_error hmap hlen hend hbad hgap fun s _ _ => Nat.zero_le _

end

end LimniFS.Cat
