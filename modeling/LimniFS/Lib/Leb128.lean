/-
Numbers and items whose first bytes tell their length: LEB128 and CBOR.

In LEB128 every byte but the last has its high bit set, so a spelling ends by itself and no spelling is
the beginning of another one (`spelling_append_inj`).  A number has many spellings, which differ in
zeros behind its last digit; the shortest one is what `encode` gives, and being shortest is a matter of
the last byte alone (`encode_value`).  A reader that goes through a spelling byte by byte sees its
digits from below: what it has put together is the value of the bytes read so far.

A CBOR item is a head and what the head announces.  The head's first byte holds the kind of the item in
its high three bits, and in the low five its argument, or how many bytes the argument takes (RFC 8949):
up to 23 the argument stands in the byte itself, and from 24 to 27 it follows in one, two, four or eight
bytes.  Parsing is a relation between a list of items and the bytes they are read from, and the bytes
that are left.  The items inside an item come next, so the list serves as the stack of what is still
announced.  Heads say everything that is not in the items' own bytes, so bytes are parsed in one way
only (`Parses.det`).
-/
import Mathlib.Data.Nat.Bitwise
import Mathlib.Data.List.Flatten

namespace Lib

namespace Leb128

/-- The shortest spelling of a number. -/
def encode (n : Nat) : List UInt8 :=
  if n < 128 then [UInt8.ofNat n] else UInt8.ofNat (n % 128 + 128) :: encode (n / 128)
termination_by n
decreasing_by omega

/-- The number that the low seven bits of the bytes spell. -/
def value : List UInt8 → Nat
  | [] => 0
  | b :: bytes => b.toNat % 128 + 128 * value bytes

/-- The high bit is set on every byte but the last. -/
inductive Spelling : List UInt8 → Prop
  | last {b : UInt8} (h : b.toNat < 128) : Spelling [b]
  | more {b : UInt8} {bytes : List UInt8} (h : 128 ≤ b.toNat) (hs : Spelling bytes) :
      Spelling (b :: bytes)

/-- The last byte of more than one is not zero. -/
def Shortest (bytes : List UInt8) : Prop := bytes.length = 1 ∨ bytes.getLast? ≠ some 0

instance (bytes : List UInt8) : Decidable (Shortest bytes) :=
  inferInstanceAs (Decidable (_ ∨ _))

/-- What a reader takes from the front. -/
def front : List UInt8 → List UInt8
  | [] => []
  | b :: bytes => if b.toNat < 128 then [b] else b :: front bytes

/-! ### Spellings -/

theorem encode_of_lt {n : Nat} (h : n < 128) : encode n = [UInt8.ofNat n] := by
  rw [encode, if_pos h]

theorem encode_of_le {n : Nat} (h : 128 ≤ n) :
    encode n = UInt8.ofNat (n % 128 + 128) :: encode (n / 128) := by
  rw [encode, if_neg (Nat.not_lt.mpr h)]

theorem toNat_ofNat_of_lt {n : Nat} (h : n < 256) : (UInt8.ofNat n).toNat = n := by
  rw [UInt8.toNat_ofNat']
  omega

theorem spelling_encode (n : Nat) : Spelling (encode n) := by
  induction n using Nat.strongRecOn with
  | ind n ih =>
      by_cases h : n < 128
      · rw [encode_of_lt h]
        exact .last (by rw [toNat_ofNat_of_lt (by omega)]; exact h)
      · rw [encode_of_le (by omega)]
        exact .more (by rw [toNat_ofNat_of_lt (by omega)]; omega) (ih (n / 128) (by omega))

theorem value_encode (n : Nat) : value (encode n) = n := by
  induction n using Nat.strongRecOn with
  | ind n ih =>
      by_cases h : n < 128
      · rw [encode_of_lt h, value, value, toNat_ofNat_of_lt (by omega)]
        omega
      · rw [encode_of_le (by omega), value, ih (n / 128) (by omega), toNat_ofNat_of_lt (by omega)]
        omega

theorem Spelling.ne_nil {bytes : List UInt8} (h : Spelling bytes) : bytes ≠ [] := by
  cases h with
  | last => simp
  | more => simp

theorem Spelling.length_pos {bytes : List UInt8} (h : Spelling bytes) : 0 < bytes.length :=
  List.length_pos_iff.mpr h.ne_nil

theorem length_encode_le : ∀ {k n : Nat}, n < 128 ^ (k + 1) → (encode n).length ≤ k + 1 := by
  intro k
  induction k with
  | zero =>
      intro n h
      rw [encode_of_lt (by omega)]
      simp
  | succ k ih =>
      intro n h
      by_cases hn : n < 128
      · rw [encode_of_lt hn]
        simp
      · rw [encode_of_le (by omega), List.length_cons]
        have hdiv : n / 128 < 128 ^ (k + 1) := by
          rw [Nat.div_lt_iff_lt_mul (by omega), ← Nat.pow_succ]
          exact h
        have := ih hdiv
        omega

/-! ### The shortest one -/

theorem Shortest.of_more {b : UInt8} {bytes : List UInt8} (h : Shortest (b :: bytes))
    (hs : Spelling bytes) : Shortest bytes ∧ value bytes ≠ 0 := by
  have hlast : bytes.getLast? ≠ some 0 := by
    rcases h with hone | hlast
    · have := hs.length_pos
      rw [List.length_cons] at hone
      omega
    · rwa [List.getLast?_cons_of_ne_nil hs.ne_nil] at hlast
  refine ⟨Or.inr hlast, ?_⟩
  induction hs with
  | @last b hb =>
      intro hzero
      have hbyte : b.toNat = (0 : UInt8).toNat := by
        simp only [value] at hzero
        show b.toNat = 0
        omega
      rw [UInt8.toNat_inj.mp hbyte] at hlast
      exact hlast rfl
  | @more b bytes hb hs ih =>
      intro hzero
      rw [List.getLast?_cons_of_ne_nil hs.ne_nil] at hlast
      refine ih (Or.inr ?_) hlast ?_
      · rwa [List.getLast?_cons_of_ne_nil hs.ne_nil]
      · rw [value] at hzero
        omega

theorem encode_value {bytes : List UInt8} (hs : Spelling bytes) (h : Shortest bytes) :
    encode (value bytes) = bytes := by
  induction hs with
  | @last b hb =>
      have hval : value [b] = b.toNat := by
        simp only [value]
        omega
      rw [hval, encode_of_lt hb, UInt8.ofNat_toNat]
  | @more b bytes hb hs ih =>
      obtain ⟨hshort, hne⟩ := h.of_more hs
      have hbyte := b.toNat_lt
      have hlow : (b.toNat % 128 + 128 * value bytes) % 128 + 128 = b.toNat := by omega
      have hhigh : (b.toNat % 128 + 128 * value bytes) / 128 = value bytes := by omega
      rw [value, encode_of_le (by omega), hlow, hhigh, ih hshort, UInt8.ofNat_toNat]

theorem shortest_encode (n : Nat) : Shortest (encode n) := by
  induction n using Nat.strongRecOn with
  | ind n ih =>
      by_cases h : n < 128
      · rw [encode_of_lt h]
        exact Or.inl rfl
      · have hs := spelling_encode (n / 128)
        rw [encode_of_le (by omega)]
        refine Or.inr ?_
        rw [List.getLast?_cons_of_ne_nil hs.ne_nil]
        rcases ih (n / 128) (by omega) with hone | hlast
        · -- one digit is left, and it is not zero
          have hlt : n / 128 < 128 := by
            by_contra hge
            rw [encode_of_le (by omega), List.length_cons] at hone
            have := (spelling_encode (n / 128 / 128)).length_pos
            omega
          rw [encode_of_lt hlt]
          intro hzero
          have hbyte : UInt8.ofNat (n / 128) = 0 := by simpa using hzero
          have := congrArg UInt8.toNat hbyte
          rw [toNat_ofNat_of_lt (by omega)] at this
          have : n / 128 = 0 := this
          omega
        · exact hlast

/-! ### Taking one from the front -/

theorem front_append {bytes : List UInt8} (h : Spelling bytes) (rest : List UInt8) :
    front (bytes ++ rest) = bytes := by
  induction h with
  | last hb => rw [List.singleton_append, front, if_pos hb]
  | more hb _ ih => rw [List.cons_append, front, if_neg (Nat.not_lt.mpr hb), ih]

/-- **Spellings end by themselves.** -/
theorem spelling_append_inj {a b x y : List UInt8} (ha : Spelling a) (hb : Spelling b)
    (h : a ++ x = b ++ y) : a = b ∧ x = y := by
  have hsame : a = b := by rw [← front_append ha x, h, front_append hb y]
  subst hsame
  exact ⟨rfl, List.append_cancel_left h⟩

end Leb128

end Lib

namespace Lib

namespace Cbor

inductive Item where
  | unsigned (n : Nat)
  | negative (n : Nat)
  | bytes (s : List UInt8)
  | text (s : List UInt8)
  | array (items : List Item)
  | map (entries : List (Item × Item))
  | tag (number : Nat) (item : Item)

/-- The major type. -/
def Item.major : Item → Nat
  | .unsigned _ => 0
  | .negative _ => 1
  | .bytes _ => 2
  | .text _ => 3
  | .array _ => 4
  | .map _ => 5
  | .tag _ _ => 6

/-- What the head says besides the major type: a number, or a length. -/
def Item.argument : Item → Nat
  | .unsigned n => n
  | .negative n => n
  | .bytes s => s.length
  | .text s => s.length
  | .array items => items.length
  | .map entries => entries.length
  | .tag number _ => number

/-- The bytes behind the head that belong to the item itself. -/
def Item.payload : Item → List UInt8
  | .bytes s => s
  | .text s => s
  | _ => []

/-- The keys and the values of a map, by turns. -/
def entryItems (entries : List (Item × Item)) : List Item :=
  entries.flatMap fun entry => [entry.1, entry.2]

/-- The items inside the item, in the order of their bytes. -/
def Item.children : Item → List Item
  | .array items => items
  | .map entries => entryItems entries
  | .tag _ item => [item]
  | _ => []

/-- A number in big-endian bytes. -/
def bigEndian (bytes : List UInt8) : Nat := bytes.foldl (fun n b => 256 * n + b.toNat) 0

/-- The head at the front: major type, argument, and what follows. -/
def readHead : List UInt8 → Option (Nat × Nat × List UInt8)
  | [] => none
  | b :: bytes =>
    let info := b.toNat % 32
    if info < 24 then some (b.toNat / 32, info, bytes)
    else if info < 28 then
      let width := 2 ^ (info - 24)
      if bytes.length < width then none
      else some (b.toNat / 32, bigEndian (bytes.take width), bytes.drop width)
    else none

/-- The items stand at the front of the bytes, one after another. -/
inductive Parses : List Item → List UInt8 → List UInt8 → Prop
  | nil {rest : List UInt8} : Parses [] rest rest
  | cons {item : Item} {items : List Item} {bytes tail rest : List UInt8}
      (hhead : readHead bytes = some (item.major, item.argument, item.payload ++ tail))
      (h : Parses (item.children ++ items) tail rest) : Parses (item :: items) bytes rest

/-! ### One way to read -/

theorem payload_length_eq {i j : Item} (hm : i.major = j.major) (ha : i.argument = j.argument) :
    i.payload.length = j.payload.length := by
  cases i <;> cases j <;> simp_all [Item.major, Item.argument, Item.payload]

theorem entryItems_length (entries : List (Item × Item)) :
    (entryItems entries).length = 2 * entries.length := by
  induction entries with
  | nil => rfl
  | cons entry entries ih =>
      unfold entryItems at ih ⊢
      rw [List.flatMap_cons, List.length_append, ih, List.length_cons]
      simp
      omega

theorem children_length_eq {i j : Item} (hm : i.major = j.major) (ha : i.argument = j.argument) :
    i.children.length = j.children.length := by
  cases i <;> cases j <;> simp_all [Item.major, Item.argument, Item.children, entryItems_length]

theorem entryItems_inj : ∀ {a b : List (Item × Item)}, entryItems a = entryItems b → a = b := by
  intro a
  induction a with
  | nil =>
      intro b h
      cases b with
      | nil => rfl
      | cons entry b => simp [entryItems] at h
  | cons entry a ih =>
      intro b h
      cases b with
      | nil => simp [entryItems] at h
      | cons entry' b =>
          simp only [entryItems, List.flatMap_cons, List.cons_append, List.nil_append,
            List.cons.injEq] at h
          rw [Prod.ext h.1 h.2.1, ih h.2.2]

theorem Item.ext_parts {i j : Item} (hm : i.major = j.major) (ha : i.argument = j.argument)
    (hp : i.payload = j.payload) (hc : i.children = j.children) : i = j := by
  cases i <;> cases j <;> simp_all [Item.major, Item.argument, Item.payload, Item.children]
  exact entryItems_inj hc

theorem parses_cons {item : Item} {items : List Item} {bytes rest : List UInt8} :
    Parses (item :: items) bytes rest ↔
      ∃ tail, readHead bytes = some (item.major, item.argument, item.payload ++ tail) ∧
        Parses (item.children ++ items) tail rest := by
  constructor
  · intro h
    cases h with
    | cons hhead h => exact ⟨_, hhead, h⟩
  · rintro ⟨tail, hhead, h⟩
    exact .cons hhead h

/-- **Bytes are parsed in one way.** -/
theorem Parses.det {items items' : List Item} {bytes rest rest' : List UInt8}
    (h : Parses items bytes rest) (h' : Parses items' bytes rest')
    (hlen : items.length = items'.length) : items = items' ∧ rest = rest' := by
  induction h generalizing items' with
  | nil =>
      obtain rfl := List.length_eq_zero_iff.mp hlen.symm
      cases h'
      exact ⟨rfl, rfl⟩
  | @cons item items bytes tail rest hhead _ ih =>
      cases items' with
      | nil => simp at hlen
      | cons item' items' =>
          obtain ⟨tail', hhead', h'⟩ := parses_cons.mp h'
          rw [hhead] at hhead'
          simp only [Option.some.injEq, Prod.mk.injEq] at hhead'
          obtain ⟨hm, ha, hbytes⟩ := hhead'
          obtain ⟨hp, rfl⟩ := List.append_inj hbytes (payload_length_eq hm ha)
          have hclen := children_length_eq hm ha
          obtain ⟨hall, rfl⟩ := ih h' (by
            simp only [List.length_append, List.length_cons] at hlen ⊢
            omega)
          obtain ⟨hc, rfl⟩ := List.append_inj hall hclen
          rw [Item.ext_parts hm ha hp hc]
          exact ⟨rfl, rfl⟩

end Cbor

end Lib
