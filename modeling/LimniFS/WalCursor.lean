/-
The cursor of the write-ahead log, with its machine arithmetic.

A length of the log is a field of up to 64 bits, and the cursor adds it to its position
without a check.  So a read of the log has three ends: a value, a failure, and a sum that
leaves `usize`, which stops the program: as an overflow where those are checked, and
where they wrap as a slice that ends before it starts.

Apart from that third end the cursor does what the parsers do on the bytes that are left
(`Follows`), and only the length of a file's content can lead to it (`Overlong`).
-/
import LimniFS.WalRecovery

namespace LimniFS.Rw

open Lib Lib.Parser

structure WalCursor where
  bytes : Bytes
  pos : Nat

/-- What a read of the log does to its cursor; nothing where a sum leaves `usize`. -/
abbrev WalRead := ExceptT Unit (StateT WalCursor Option)

/-- `a + b` in 64 bits, as positions and inode numbers have them. -/
def add64 (a b : Nat) : Option Nat := if a + b < usizeLimit then some (a + b) else none

theorem add64_of_lt {a b : Nat} (h : a + b < usizeLimit) : add64 a b = some (a + b) := if_pos h

theorem add64_eq_some {a b c : Nat} : add64 a b = some c ↔ a + b < usizeLimit ∧ a + b = c := by
  unfold add64
  by_cases h : a + b < usizeLimit
  · simp [h]
  · simp [h]

namespace WalCursor

def readU8 : WalRead UInt8 := fun c =>
  match c.bytes[c.pos]? with
  | none => some (.error (), c)
  | some b => (add64 c.pos 1).map fun pos => (.ok b, { c with pos })

def readBytes (len : Nat) : WalRead Bytes := fun c =>
  (add64 c.pos len).map fun stop =>
    if c.bytes.length < stop then (.error (), c)
    else (.ok ((c.bytes.drop c.pos).take len), { c with pos := stop })

def readU32Le : WalRead Nat := do
  let arr ← readBytes 4
  pure (leNat arr)

def readU64Le : WalRead Nat := do
  let arr ← readBytes 8
  pure (leNat arr)

def readPathStr : WalRead Bytes := do
  let len ← readU32Le
  let bytes ← readBytes len
  if utf8Valid bytes = true then pure bytes else throw ()

/-- A file of the log: its path, its length and its content. -/
def replayFile (files : PathMap Bytes) : WalRead (PathMap Bytes) := do
  let path ← readPathStr
  let len ← readU64Le
  let data ← readBytes len
  pure (files.insert path data)

/-- An operation of the log; one that puts a path in takes the next inode number. -/
def replayEntry (image : RwImage) : WalRead RwImage := do
  let op ← readU8
  let path ← readPathStr
  if op = 1 ∨ op = 2 then
    let _ ← liftM (add64 image.nextInode 1)
    pure (replayOp image op path)
  else if op = 3 then pure (replayOp image op path)
  else throw ()

/-- A counted loop of the replay, which a failed round ends. -/
def rounds {σ : Type} (body : σ → WalRead σ) : Nat → σ → WalCursor → Option (σ × WalCursor)
  | 0, s, c => some (s, c)
  | n + 1, s, c =>
    match body s c with
    | none => none
    | some (.ok s', c') => rounds body n s' c'
    | some (.error _, c') => some (s, c')

/-! ### Steps of a read -/

section
variable {α β : Type} {m : WalRead α} {f : α → WalRead β} {c c' : WalCursor}

theorem bind_none (h : m c = none) : (m >>= f) c = none := by
  show (m c >>= _) = none
  rw [h]
  rfl

theorem bind_ok {a : α} (h : m c = some (.ok a, c')) : (m >>= f) c = f a c' := by
  show (m c >>= _) = _
  rw [h]
  rfl

theorem bind_error {u : Unit} (h : m c = some (.error u, c')) :
    (m >>= f) c = some (.error u, c') := by
  show (m c >>= _) = _
  rw [h]
  rfl

/-- The bytes the cursor has before it. -/
def left (c : WalCursor) : Bytes := c.bytes.drop c.pos

/-- A cursor in a vector: that is never longer than `isize::MAX`. -/
structure Inside (c : WalCursor) : Prop where
  pos : c.pos ≤ c.bytes.length
  vec : c.bytes.length < 2 ^ 63

theorem left_length (h : c.Inside) : c.pos + c.left.length = c.bytes.length := by
  have hpos := h.pos
  rw [left, List.length_drop]
  omega

/-- The cursor `n` bytes on. -/
def skip (c : WalCursor) (n : Nat) : WalCursor := { c with pos := c.pos + n }

theorem left_skip (c : WalCursor) (n : Nat) : (c.skip n).left = c.left.drop n := by
  rw [left, left, List.drop_drop]
  rfl

theorem Inside.skip (h : c.Inside) {n : Nat} (hn : n ≤ c.left.length) : (c.skip n).Inside := by
  have hlen := left_length h
  exact ⟨show c.pos + n ≤ c.bytes.length by omega, h.vec⟩

theorem left_skip_append {enc rest : Bytes} (h : c.left = enc ++ rest) :
    (c.skip enc.length).left = rest := by
  rw [left_skip, h, List.drop_left]

theorem Inside.skip_append (hin : c.Inside) {enc rest : Bytes} (h : c.left = enc ++ rest) :
    (c.skip enc.length).Inside := by
  refine hin.skip ?_
  rw [h, List.length_append]
  exact Nat.le_add_right _ _

/-! ### The cursor does what the parsers do -/

/-- The same value or a failure as well, and the cursor stands where the parser does. -/
structure Agrees (c : WalCursor) (out : Except Unit α × WalCursor)
    (told : Except CoreError α × Bytes) : Prop where
  value : out.1.toOption = told.1.toOption
  left : out.2.left = told.2
  inside : out.2.Inside
  bytes : out.2.bytes = c.bytes

/-- Where no sum leaves `usize`, the read does what the parser does. -/
def Follows (m : WalRead α) (p : CoreParser α) : Prop :=
  ∀ c, c.Inside → ∀ out, m c = some out → Agrees c out (p c.left)

/-- No sum of the read leaves `usize`. -/
def Total (m : WalRead α) : Prop := ∀ c, c.Inside → ∃ out, m c = some out

theorem agrees_ok {a : α} {told : Except CoreError α × Bytes} (h : Agrees c (.ok a, c') told) :
    told = (.ok a, c'.left) := by
  obtain ⟨value, rest⟩ := told
  have hrest : c'.left = rest := h.left
  cases value with
  | error e => exact absurd h.value (by simp [Except.toOption])
  | ok b =>
      have hab : some a = some b := h.value
      rw [hrest, Option.some.inj hab]

theorem agrees_error {u : Unit} {told : Except CoreError α × Bytes}
    (h : Agrees c (.error u, c') told) : ∃ e, told = (.error e, c'.left) := by
  obtain ⟨value, rest⟩ := told
  have hrest : c'.left = rest := h.left
  cases value with
  | error e => exact ⟨e, by rw [hrest]⟩
  | ok b => exact absurd h.value (by simp [Except.toOption])

/-- A run that does not stop the program, with what the parser does there. -/
theorem Follows.cases {p : CoreParser α} (h : Follows m p) (hc : c.Inside)
    {out : Except Unit α × WalCursor} (hrun : m c = some out) :
    (∃ a c', m c = some (.ok a, c') ∧ p c.left = (.ok a, c'.left) ∧ c'.Inside ∧
        c'.bytes = c.bytes) ∨
      ∃ e c', m c = some (.error (), c') ∧ p c.left = (.error e, c'.left) ∧ c'.Inside ∧
        c'.bytes = c.bytes := by
  obtain ⟨value, after⟩ := out
  have hagrees := h c hc _ hrun
  cases value with
  | ok a => exact Or.inl ⟨a, after, hrun, agrees_ok hagrees, hagrees.inside, hagrees.bytes⟩
  | error u =>
      obtain ⟨e, he⟩ := agrees_error hagrees
      exact Or.inr ⟨e, after, hrun, he, hagrees.inside, hagrees.bytes⟩

theorem Follows.bind {p : CoreParser α} {g : α → CoreParser β} (hm : Follows m p)
    (hf : ∀ a, Follows (f a) (g a)) : Follows (m >>= f) (p >>= g) := by
  intro c hc out hout
  rw [bind_apply]
  cases hrun : m c with
  | none =>
      rw [bind_none hrun] at hout
      cases hout
  | some ran =>
      rcases hm.cases hc hrun with ⟨a, after, hok, hread, hin, hbytes⟩
        | ⟨e, after, hbad, hread, hin, hbytes⟩
      · rw [bind_ok hok] at hout
        rw [hread]
        have hrest := hf a after hin out hout
        exact ⟨hrest.value, hrest.left, hrest.inside, hrest.bytes.trans hbytes⟩
      · rw [bind_error hbad] at hout
        rw [hread]
        cases hout
        exact ⟨rfl, rfl, hin, hbytes⟩

theorem Total.cases {p : CoreParser α} (hm : Total m) (hp : Follows m p) (hc : c.Inside) :
    (∃ a c', m c = some (.ok a, c') ∧ p c.left = (.ok a, c'.left) ∧ c'.Inside ∧
        c'.bytes = c.bytes) ∨
      ∃ e c', m c = some (.error (), c') ∧ p c.left = (.error e, c'.left) ∧ c'.Inside ∧
        c'.bytes = c.bytes := by
  obtain ⟨out, hout⟩ := hm c hc
  exact hp.cases hc hout

theorem Total.bind (hm : Total m) {p : CoreParser α} (hp : Follows m p)
    (hf : ∀ a, Total (f a)) : Total (m >>= f) := by
  intro c hc
  rcases hm.cases hp hc with ⟨a, after, hok, -, hin, -⟩ | ⟨e, after, hbad, -⟩
  · rw [bind_ok hok]
    exact hf a after hin
  · exact ⟨_, bind_error hbad⟩

theorem follows_pure (a : α) : Follows (pure a : WalRead α) (pure a) := by
  intro c hc out hout
  cases hout
  exact ⟨rfl, rfl, hc, rfl⟩

theorem total_pure (a : α) : Total (pure a : WalRead α) := fun c _ => ⟨(.ok a, c), rfl⟩

theorem follows_check {q : Prop} [Decidable q] (a : α) :
    Follows (if q then pure a else throw () : WalRead α) (do ensure q walError; pure a) := by
  intro c hc out hout
  by_cases hq : q
  · rw [if_pos hq] at hout
    cases hout
    rw [(reads_ensure hq).bind_nil_apply]
    exact ⟨rfl, rfl, hc, rfl⟩
  · rw [if_neg hq] at hout
    cases hout
    rw [bind_apply, ensure, if_neg hq]
    exact ⟨rfl, rfl, hc, rfl⟩

theorem total_check {q : Prop} [Decidable q] (a : α) :
    Total (if q then pure a else throw () : WalRead α) := by
  intro c _
  by_cases hq : q
  · rw [if_pos hq]
    exact ⟨(.ok a, c), rfl⟩
  · rw [if_neg hq]
    exact ⟨(.error (), c), rfl⟩

end

/-! ### The reads of the log -/

theorem readN_short {n : Nat} {bs : Bytes} (h : bs.length < n) :
    Cursor.readN n bs = (.error (.tooShort bs.length n), bs) := by
  unfold Cursor.readN Cursor.readFixed
  rw [bind_apply, Parser.take, dif_neg (Nat.not_le.mpr h)]

theorem readN_long {n : Nat} {bs : Bytes} (h : n ≤ bs.length) :
    Cursor.readN n bs = (.ok (bs.take n), bs.drop n) :=
  Cursor.readN_eq_ok.mpr ⟨by simp [h], (List.take_append_drop n bs).symm⟩

theorem follows_readBytes (len : Nat) : Follows (readBytes len) (Cursor.readN len) := by
  intro c hc out hout
  obtain ⟨stop, hstop, rfl⟩ := Option.map_eq_some_iff.mp hout
  obtain ⟨-, rfl⟩ := add64_eq_some.mp hstop
  have hlen := left_length hc
  by_cases hshort : c.bytes.length < c.pos + len
  · rw [if_pos hshort, readN_short (by omega)]
    exact ⟨rfl, rfl, hc, rfl⟩
  · rw [if_neg hshort, readN_long (by omega)]
    exact ⟨rfl, left_skip c len, hc.skip (by omega), rfl⟩

theorem total_readBytes {len : Nat} (h : len < u32Limit) : Total (readBytes len) := by
  intro c hc
  have hpos := hc.pos
  have hvec := hc.vec
  have hlimit : c.pos + len < usizeLimit := by
    unfold usizeLimit
    unfold u32Limit at h
    omega
  exact ⟨_, by rw [readBytes, add64_of_lt hlimit]; rfl⟩

theorem readFixed_leNat (w : Nat) :
    (do let b ← Cursor.readFixed w; pure (leNat b.val) : CoreParser Nat) =
      Cursor.readN w >>= fun l => pure (leNat l) := by
  funext bs
  unfold Cursor.readN
  rw [bind_apply, bind_apply, bind_apply]
  rcases Cursor.readFixed w bs with ⟨e | b, rest⟩
  · rfl
  · rfl

theorem follows_readU32Le : Follows readU32Le Cursor.readU32Le := by
  rw [Cursor.readU32Le, readFixed_leNat]
  exact (follows_readBytes 4).bind fun _ => follows_pure _

theorem total_readU32Le : Total readU32Le :=
  (total_readBytes (by decide)).bind (follows_readBytes 4) fun _ => total_pure _

theorem follows_readU64Le : Follows readU64Le Cursor.readU64Le := by
  rw [Cursor.readU64Le, readFixed_leNat]
  exact (follows_readBytes 8).bind fun _ => follows_pure _

theorem total_readU64Le : Total readU64Le :=
  (total_readBytes (by decide)).bind (follows_readBytes 8) fun _ => total_pure _

theorem follows_readU8 : Follows readU8 Cursor.readU8 := by
  intro c hc out hout
  have hlen := left_length hc
  unfold readU8 at hout
  cases hget : c.bytes[c.pos]? with
  | none =>
      have hend : c.bytes.length ≤ c.pos := List.getElem?_eq_none_iff.mp hget
      have hnil : c.left = [] := List.drop_eq_nil_of_le hend
      rw [hget] at hout
      cases hout
      rw [hnil]
      exact ⟨rfl, hnil, hc, rfl⟩
  | some b =>
      rw [hget] at hout
      obtain ⟨pos, hpos, rfl⟩ := Option.map_eq_some_iff.mp hout
      obtain ⟨-, rfl⟩ := add64_eq_some.mp hpos
      have hleft : c.left = [b] ++ (c.skip 1).left := by
        obtain ⟨hlt, hb⟩ := List.getElem?_eq_some_iff.mp hget
        rw [left_skip, left, List.drop_drop, List.drop_eq_getElem_cons hlt, hb]
        rfl
      rw [Cursor.readU8_eq_ok.mpr hleft]
      exact ⟨rfl, rfl, hc.skip_append hleft, rfl⟩

theorem total_readU8 : Total readU8 := by
  intro c hc
  unfold readU8
  cases hget : c.bytes[c.pos]? with
  | none => exact ⟨_, rfl⟩
  | some b =>
      have hvec := hc.vec
      obtain ⟨hlt, -⟩ := List.getElem?_eq_some_iff.mp hget
      have hlimit : c.pos + 1 < usizeLimit := by
        unfold usizeLimit
        omega
      exact ⟨_, by rw [add64_of_lt hlimit]; rfl⟩

theorem follows_readPathStr : Follows readPathStr Rw.readPathStr :=
  follows_readU32Le.bind fun len => (follows_readBytes len).bind fun _ => follows_check _

theorem total_readPathStr : Total readPathStr := by
  intro c hc
  rcases total_readU32Le.cases follows_readU32Le hc with ⟨len, after, hok, hread, hin, -⟩
    | ⟨e, after, hbad, -⟩
  · rw [readPathStr, bind_ok hok]
    exact (total_readBytes (Cursor.readU32Le_lt hread)).bind (follows_readBytes len)
      (fun _ => total_check _) after hin
  · exact ⟨_, bind_error hbad⟩

theorem follows_replayFile (files : PathMap Bytes) : Follows (replayFile files) (Rw.replayFile files) :=
  follows_readPathStr.bind fun _ => follows_readU64Le.bind fun len =>
    (follows_readBytes len).bind fun _ => follows_pure _

/-- The content of the file these bytes start with is said to end behind the largest `usize`, in a
log of `size` bytes. -/
def Overlong (size : Nat) (record : Bytes) : Prop :=
  ∃ path len rest content, Rw.readPathStr record = (.ok path, rest) ∧
    Cursor.readU64Le rest = (.ok len, content) ∧ usizeLimit ≤ size - content.length + len

theorem readBytes_eq_none {len : Nat} {c : WalCursor} :
    readBytes len c = none ↔ usizeLimit ≤ c.pos + len := by
  unfold readBytes add64
  rw [Option.map_eq_none_iff, ite_eq_right_iff, ← Nat.not_lt]
  exact ⟨fun h hlt => absurd (h hlt) (Option.some_ne_none _), fun h hlt => absurd hlt h⟩

theorem bind_eq_none {α β : Type} {m : WalRead α} {p : CoreParser α} {f : α → WalRead β}
    (hm : Follows m p) (hf : ∀ a, Total (f a)) {c : WalCursor} (hc : c.Inside) :
    (m >>= f) c = none ↔ m c = none := by
  cases hrun : m c with
  | none => exact ⟨fun _ => rfl, fun _ => bind_none hrun⟩
  | some out =>
      refine ⟨fun h => ?_, fun h => absurd h (Option.some_ne_none _)⟩
      rcases hm.cases hc hrun with ⟨a, after, hok, -, hin, -⟩ | ⟨e, after, hbad, -⟩
      · obtain ⟨out, hout⟩ := hf a after hin
        rw [bind_ok hok, hout] at h
        cases h
      · rw [bind_error hbad] at h
        cases h

theorem replayFile_eq_none {c : WalCursor} (hc : c.Inside) (files : PathMap Bytes) :
    replayFile files c = none ↔ Overlong c.bytes.length c.left := by
  unfold Overlong
  rw [replayFile]
  rcases total_readPathStr.cases follows_readPathStr hc with ⟨path, c1, hok, hpath, hin, hbytes⟩
    | ⟨e, c1, hbad, hpath, -⟩
  · rw [bind_ok hok]
    rcases total_readU64Le.cases follows_readU64Le hin with ⟨len, c2, hok', hlen, hin', hbytes'⟩
      | ⟨e, c2, hbad, hlen, -⟩
    · have hpos : c2.pos + c2.left.length = c.bytes.length := by
        rw [left_length hin', hbytes', hbytes]
      have hstands : c2.pos = c.bytes.length - c2.left.length := by omega
      rw [bind_ok hok', bind_eq_none (follows_readBytes len) (fun _ => total_pure _) hin',
        readBytes_eq_none, hstands]
      constructor
      · intro h
        exact ⟨path, len, _, _, hpath, hlen, h⟩
      · rintro ⟨path', len', rest, content, hread, hread', h⟩
        rw [hpath] at hread
        cases hread
        rw [hlen] at hread'
        cases hread'
        exact h
    · rw [bind_error hbad]
      refine ⟨fun h => absurd h (Option.some_ne_none _), ?_⟩
      rintro ⟨path', len, rest, content, hread, hread', -⟩
      rw [hpath] at hread
      cases hread
      rw [hlen] at hread'
      cases hread'
  · rw [bind_error hbad]
    refine ⟨fun h => absurd h (Option.some_ne_none _), ?_⟩
    rintro ⟨path, len, rest, content, hread, -⟩
    rw [hpath] at hread
    cases hread

theorem follows_replayEntry (image : RwImage) :
    Follows (replayEntry image) (Rw.replayEntry image) := by
  refine follows_readU8.bind fun op => follows_readPathStr.bind fun path => ?_
  intro c hc out hout
  by_cases hput : op = 1 ∨ op = 2
  · have hop : op = 1 ∨ op = 2 ∨ op = 3 := hput.elim Or.inl fun h => Or.inr (Or.inl h)
    rw [if_pos hput] at hout
    rw [(reads_ensure hop).bind_nil_apply]
    cases hnext : add64 image.nextInode 1 with
    | none =>
        rw [hnext] at hout
        cases hout
    | some next =>
        rw [hnext] at hout
        cases hout
        exact ⟨rfl, rfl, hc, rfl⟩
  · rw [if_neg hput] at hout
    have hthree : (op = 1 ∨ op = 2 ∨ op = 3) = (op = 3) := by
      rw [← or_assoc]
      exact propext ⟨fun h => h.resolve_left hput, Or.inr⟩
    exact follows_check (q := op = 1 ∨ op = 2 ∨ op = 3) (replayOp image op path) c hc out (by
      simp only [hthree]
      exact hout)

theorem replayEntry_error {c : WalCursor} (hc : c.Inside) {image : RwImage} {e : CoreError}
    {rest : Bytes} (h : Rw.replayEntry image c.left = (.error e, rest)) :
    ∃ c', replayEntry image c = some (.error (), c') := by
  rw [replayEntry]
  rw [Rw.replayEntry, bind_apply] at h
  rcases total_readU8.cases follows_readU8 hc with ⟨op, c1, hok, hop, hin, -⟩ | ⟨e, c1, hbad, -⟩
  · rw [bind_ok hok]
    rw [hop] at h
    simp only [bind_apply] at h
    rcases total_readPathStr.cases follows_readPathStr hin with ⟨path, c2, hok', hpath, -⟩
      | ⟨e, c2, hbad, -⟩
    · rw [bind_ok hok']
      rw [hpath] at h
      have hunknown : ¬ (op = 1 ∨ op = 2 ∨ op = 3) := by
        intro hknown
        simp only [ensure, if_pos hknown] at h
        cases h
      rw [← or_assoc, not_or] at hunknown
      rw [if_neg hunknown.1, if_neg hunknown.2]
      exact ⟨c2, rfl⟩
    · exact ⟨c2, bind_error hbad⟩
  · exact ⟨c1, bind_error hbad⟩

end WalCursor

end LimniFS.Rw
