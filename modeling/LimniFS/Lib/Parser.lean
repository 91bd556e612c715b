/-
Reading a byte string from the front: parsers, and the two things to know of one.

A parser takes the bytes that are left and returns a value or an error, and in either
case where the cursor stands afterwards.  `Reads p enc x` says that `p` reads `x` off the encoding `enc`
whatever follows it, which is one half of a round trip.  `Framed n p` says that
every success is of that kind and uses at least `n` bytes: whatever `p` accepts, it
accepts because of a front part of the input, and would have accepted that part in
front of anything else.  A format whose sections are read one after another is
understood through these two, and both compose along `bind`.

The one primitive that is not framed by itself is `demand`, the check that enough
bytes are left before a loop starts: it looks past the bytes its parser uses.  It
is framed together with a parser that goes on to use as many bytes as were demanded.

Integers are little-endian.  `leBytes w n` writes the `w` low bytes of `n` and
`leNat` reads them back.
-/
import Mathlib.Data.List.Basic
import Mathlib.Tactic.Ring

namespace Lib

/-! ### Little-endian integers -/

/-- The natural number with these little-endian bytes. -/
def leNat : List UInt8 → Nat
  | [] => 0
  | b :: rest => b.toNat + 256 * leNat rest

/-- The `w` low bytes of `n`, least significant first. -/
def leBytes : Nat → Nat → List UInt8
  | 0, _ => []
  | w + 1, n => UInt8.ofNat (n % 256) :: leBytes w (n / 256)

@[simp] theorem leBytes_length (w n : Nat) : (leBytes w n).length = w := by
  induction w generalizing n with
  | zero => rfl
  | succ w ih => simp only [leBytes, List.length_cons, ih]

theorem leNat_leBytes {w n : Nat} (h : n < 256 ^ w) : leNat (leBytes w n) = n := by
  induction w generalizing n with
  | zero => simp only [Nat.pow_zero] at h; simp only [leBytes, leNat]; omega
  | succ w ih =>
      have hdiv : n / 256 < 256 ^ w := by
        rw [Nat.pow_succ] at h
        omega
      have hbyte : (UInt8.ofNat (n % 256)).toNat = n % 256 := by
        rw [UInt8.toNat_ofNat']
        omega
      simp only [leBytes, leNat, ih hdiv, hbyte]
      omega

theorem leNat_lt (l : List UInt8) : leNat l < 256 ^ l.length := by
  induction l with
  | nil => simp [leNat]
  | cons b rest ih =>
      have hb := b.toNat_lt
      rw [List.length_cons, Nat.pow_succ]
      simp only [leNat]
      omega

theorem leBytes_leNat (l : List UInt8) : leBytes l.length (leNat l) = l := by
  induction l with
  | nil => rfl
  | cons b rest ih =>
      have hb := b.toNat_lt
      have hmod : (b.toNat + 256 * leNat rest) % 256 = b.toNat := by omega
      have hdiv : (b.toNat + 256 * leNat rest) / 256 = leNat rest := by omega
      simp only [List.length_cons, leBytes, leNat, hmod, hdiv, ih, UInt8.ofNat_toNat]

/-- A byte string of a fixed length. -/
def Fixed (n : Nat) : Type := { l : List UInt8 // l.length = n }

instance (n : Nat) : DecidableEq (Fixed n) :=
  inferInstanceAs (DecidableEq { l : List UInt8 // l.length = n })

theorem except_bind_eq_ok {ε α β : Type} {x : Except ε α} {f : α → Except ε β} {b : β} :
    (x >>= f) = .ok b ↔ ∃ a, x = .ok a ∧ f a = .ok b := by
  rcases x with e | a
  · constructor
    · intro h
      cases h
    · rintro ⟨a, ha, -⟩
      cases ha
  · constructor
    · intro h
      exact ⟨a, rfl, h⟩
    · rintro ⟨a', ha, h⟩
      cases ha
      exact h

theorem eq_ok_get {ε α : Type} {x : Except ε α} (h : x.toOption.isSome = true) :
    x = .ok (x.toOption.get h) := by
  cases x with
  | error e => cases h
  | ok a => rfl

theorem except_bind_congr {ε α β : Type} {x : Except ε α} {f g : α → Except ε β}
    (h : ∀ a, x = .ok a → f a = g a) : x >>= f = x >>= g := by
  cases x with
  | error e => rfl
  | ok a => exact h a rfl

theorem toOption_bind_congr {ε α β : Type} {x y : Except ε α} {f g : α → Except ε β}
    (hxy : x.toOption = y.toOption)
    (h : ∀ a, x = .ok a → (f a).toOption = (g a).toOption) :
    (x >>= f).toOption = (y >>= g).toOption := by
  cases x with
  | error e =>
      cases y with
      | error e' => rfl
      | ok b => cases hxy
  | ok a =>
      cases y with
      | error e' => cases hxy
      | ok b =>
          cases hxy
          exact h a rfl

theorem toOption_eq_iff {ε α : Type} {x y : Except ε α} :
    x.toOption = y.toOption ↔ ∀ a, x = .ok a ↔ y = .ok a := by
  cases x with
  | error e =>
      cases y with
      | error e' => exact ⟨fun _ a => ⟨fun h => (by cases h), fun h => (by cases h)⟩, fun _ => rfl⟩
      | ok b => exact ⟨fun h => (by cases h), fun h => (by cases (h b).mpr rfl)⟩
  | ok a =>
      cases y with
      | error e' => exact ⟨fun h => (by cases h), fun h => (by cases (h a).mp rfl)⟩
      | ok b =>
          refine ⟨fun h a => ?_, fun h => ?_⟩
          · rw [Option.some.inj h]
          · rw [(h a).mp rfl]

/-! ### Parsers -/

/-- A parser that fails with an `ε`.  It says where the cursor stands in either case. -/
def Parser (ε α : Type) : Type := List UInt8 → Except ε α × List UInt8

namespace Parser

variable {ε α β σ : Type}

instance : Monad (Parser ε) where
  pure x := fun bs => (.ok x, bs)
  bind p f := fun bs =>
    match p bs with
    | (.error e, rest) => (.error e, rest)
    | (.ok x, rest) => f x rest

/-- Give up. -/
def fail (e : ε) : Parser ε α := fun bs => (.error e, bs)

/-- Go on only if `c` holds. -/
def ensure (c : Prop) [Decidable c] (e : ε) : Parser ε Unit :=
  fun bs => (if c then .ok () else .error e, bs)

/-- The next `n` bytes; `short` makes the error from the bytes left and the bytes needed. -/
def take (short : Nat → Nat → ε) (n : Nat) : Parser ε (Fixed n) := fun bs =>
  if h : n ≤ bs.length then (.ok ⟨bs.take n, by simp [h]⟩, bs.drop n)
  else (.error (short bs.length n), bs)

/-- Are `n` bytes left? -/
def demand (short : Nat → Nat → ε) (n : Nat) : Parser ε Unit := fun bs =>
  (if bs.length < n then .error (short bs.length n) else .ok (), bs)

/-- Change the error. -/
def mapError (f : ε → ε) (p : Parser ε α) : Parser ε α := fun bs =>
  match p bs with
  | (.error e, rest) => (.error (f e), rest)
  | (.ok x, rest) => (.ok x, rest)

/-- Run `body` for `n` successive indices, threading a state. -/
def loop (body : Nat → σ → Parser ε σ) : Nat → Nat → σ → Parser ε σ
  | 0, _, s => pure s
  | n + 1, i, s => do
    let s ← body i s
    loop body n (i + 1) s

/-- Also return the bytes the parser used. -/
def withSpan (p : Parser ε α) : Parser ε (α × List UInt8) := fun bs =>
  match p bs with
  | (.error e, rest) => (.error e, rest)
  | (.ok x, rest) => (.ok (x, bs.take (bs.length - rest.length)), rest)

/-- The result and what is left, or the error alone. -/
def run (p : Parser ε α) (bs : List UInt8) : Except ε (α × List UInt8) :=
  match p bs with
  | (.error e, _) => .error e
  | (.ok x, rest) => .ok (x, rest)

theorem run_eq_ok {p : Parser ε α} {bs : List UInt8} {x : α × List UInt8} :
    p.run bs = .ok x ↔ p bs = (.ok x.1, x.2) := by
  unfold run
  rcases p bs with ⟨e | y, rest⟩
  · constructor <;> intro h <;> cases h
  · constructor
    · intro h
      cases h
      rfl
    · intro h
      cases h
      rfl

theorem bind_apply (p : Parser ε α) (f : α → Parser ε β) (bs : List UInt8) :
    (p >>= f) bs = match p bs with
      | (.error e, rest) => (.error e, rest)
      | (.ok x, rest) => f x rest := rfl

theorem bind_eq_ok {p : Parser ε α} {f : α → Parser ε β} {bs rest : List UInt8} {y : β} :
    (p >>= f) bs = (.ok y, rest) ↔ ∃ x mid, p bs = (.ok x, mid) ∧ f x mid = (.ok y, rest) := by
  rw [bind_apply]
  constructor
  · intro h
    rcases hp : p bs with ⟨e | x, mid⟩
    · rw [hp] at h
      cases h
    · rw [hp] at h
      exact ⟨x, mid, rfl, h⟩
  · rintro ⟨x, mid, hp, hf⟩
    rw [hp]
    exact hf

theorem pure_eq_ok {x y : α} {bs rest : List UInt8} :
    (pure x : Parser ε α) bs = (.ok y, rest) ↔ x = y ∧ bs = rest := by
  constructor
  · intro h
    cases h
    exact ⟨rfl, rfl⟩
  · rintro ⟨rfl, rfl⟩
    rfl

theorem ensure_eq_ok {c : Prop} [Decidable c] {e : ε} {u : Unit} {bs rest : List UInt8} :
    ensure c e bs = (.ok u, rest) ↔ c ∧ bs = rest := by
  unfold ensure
  by_cases hc : c
  · rw [if_pos hc]
    simp [hc]
  · rw [if_neg hc]
    simp [hc]

/-! ### Reading an encoding back -/

/-- `p` reads `x` off `enc`, whatever follows. -/
def Reads (p : Parser ε α) (enc : List UInt8) (x : α) : Prop :=
  ∀ rest, p (enc ++ rest) = (.ok x, rest)

theorem reads_pure (x : α) : Reads (pure x : Parser ε α) [] x := fun _ => rfl

theorem Reads.bind {p : Parser ε α} {f : α → Parser ε β} {e₁ e₂ : List UInt8} {x : α} {y : β}
    (hp : Reads p e₁ x) (hf : Reads (f x) e₂ y) : Reads (p >>= f) (e₁ ++ e₂) y := by
  intro rest
  rw [bind_apply, List.append_assoc, hp]
  exact hf rest

theorem Reads.bind_nil {p : Parser ε α} {f : α → Parser ε β} {enc : List UInt8} {x : α} {y : β}
    (hp : Reads p [] x) (hf : Reads (f x) enc y) : Reads (p >>= f) enc y := hp.bind hf

theorem Reads.bind_last {p : Parser ε α} {f : α → Parser ε β} {enc : List UInt8} {x : α} {y : β}
    (hp : Reads p enc x) (hf : Reads (f x) [] y) : Reads (p >>= f) enc y := by
  have hboth := hp.bind hf
  rwa [List.append_nil] at hboth

theorem Reads.bind_append {p : Parser ε α} {f : α → Parser ε β} {enc : List UInt8} {x : α}
    (h : Reads p enc x) (rest : List UInt8) : (p >>= f) (enc ++ rest) = f x rest := by
  rw [bind_apply, h rest]

theorem Reads.bind_nil_apply {p : Parser ε α} {f : α → Parser ε β} {x : α} (h : Reads p [] x)
    (rest : List UInt8) : (p >>= f) rest = f x rest := h.bind_append rest

theorem Reads.map {p : Parser ε α} {enc : List UInt8} {x : α} (h : Reads p enc x) (f : α → β) :
    Reads (p >>= fun a => pure (f a)) enc (f x) := by
  intro rest
  rw [bind_apply, h]
  rfl

theorem reads_ensure {c : Prop} [Decidable c] {e : ε} (h : c) :
    Reads (ensure c e) [] () := by
  intro rest
  simp [ensure, h]

theorem reads_take {short : Nat → Nat → ε} {n : Nat} (l : Fixed n) :
    Reads (take short n) l.val l := by
  intro rest
  obtain ⟨l, rfl⟩ := l
  unfold take
  rw [dif_pos (by simp)]
  congr 2
  · congr 1
    exact List.take_left
  · exact List.drop_left

theorem take_eq_ok {short : Nat → Nat → ε} {n : Nat} {l : Fixed n} {bs rest : List UInt8} :
    take short n bs = (.ok l, rest) ↔ bs = l.val ++ rest := by
  constructor
  · intro h
    unfold take at h
    split at h
    · cases h
      exact (List.take_append_drop n bs).symm
    · cases h
  · rintro rfl
    exact reads_take l rest

theorem Reads.demand {short : Nat → Nat → ε} {n : Nat} {q : Parser ε β} {enc : List UInt8} {y : β}
    (hq : Reads q enc y) (h : n ≤ enc.length) :
    Reads (Parser.demand short n >>= fun _ => q) enc y := by
  intro rest
  have hlen : ¬ (enc ++ rest).length < n := by simp; omega
  simp only [bind_apply, Parser.demand, if_neg hlen, hq rest]

theorem demand_bind {short : Nat → Nat → ε} {n : Nat} {q : Parser ε β} {bs : List UInt8}
    (h : n ≤ bs.length) : (Parser.demand short n >>= fun _ => q) bs = q bs := by
  simp only [bind_apply, Parser.demand, if_neg (Nat.not_lt.mpr h)]

theorem Reads.mapError {f : ε → ε} {p : Parser ε α} {enc : List UInt8} {x : α}
    (h : Reads p enc x) : Reads (p.mapError f) enc x := by
  intro rest
  simp only [Parser.mapError, h rest]

theorem Reads.withSpan {p : Parser ε α} {enc : List UInt8} {x : α} (h : Reads p enc x) :
    Reads p.withSpan enc (x, enc) := by
  intro rest
  have hlen : (enc ++ rest).length - rest.length = enc.length := by simp
  simp only [Parser.withSpan, h rest, hlen, List.take_left']

/-- A loop that appends one element a round reads the elements' encodings one after another.
The body may look at what was read before. -/
theorem reads_loop {body : Nat → List α → Parser ε (List α)} {enc : α → List UInt8} :
    ∀ (todo done : List α) (i : Nat),
      (∀ (before : List α) (x : α) (after : List α), todo = before ++ x :: after →
        Reads (body (i + before.length) (done ++ before)) (enc x) (done ++ before ++ [x])) →
      Reads (loop body todo.length i done) (todo.flatMap enc) (done ++ todo) := by
  intro todo
  induction todo with
  | nil =>
      intro done i _
      rw [List.append_nil]
      exact reads_pure done
  | cons x rest ih =>
      intro done i h
      have hfirst := h [] x rest rfl
      rw [List.append_nil] at hfirst
      rw [List.flatMap_cons]
      refine hfirst.bind ?_
      have hrest := ih (done ++ [x]) (i + 1) (by
        intro before y after heq
        have hy := h (x :: before) y after (by rw [heq]; rfl)
        rw [List.length_cons] at hy
        rwa [List.append_assoc, List.singleton_append, Nat.add_assoc, Nat.add_comm 1])
      rwa [List.append_assoc, List.singleton_append] at hrest

/-- The same for elements that are encoded one by one and whose reading does not depend on what was
read before. -/
theorem reads_loop_each {body : Nat → List α → Parser ε (List α)} {encs : List (List UInt8)}
    {out : List α}
    (h : List.Forall₂ (fun enc x => ∀ i done, Reads (body i done) enc (done ++ [x])) encs out) :
    ∀ (i : Nat) (done : List α),
      Reads (loop body out.length i done) encs.flatten (done ++ out) := by
  induction h with
  | nil =>
      intro i done
      rw [List.append_nil]
      exact reads_pure done
  | @cons enc x encs out hfirst _ ih =>
      intro i done
      rw [List.flatten_cons]
      refine (hfirst i done).bind ?_
      have hrest := ih (i + 1) (done ++ [x])
      rwa [List.append_assoc, List.singleton_append] at hrest

theorem Reads.det {p : Parser ε α} {e₁ e₂ r₁ r₂ : List UInt8} {x y : α}
    (h₁ : Reads p e₁ x) (h₂ : Reads p e₂ y) (heq : e₁ ++ r₁ = e₂ ++ r₂) :
    e₁ = e₂ ∧ x = y ∧ r₁ = r₂ := by
  have hboth := h₁ r₁
  rw [heq, h₂ r₂] at hboth
  cases hboth
  exact ⟨List.append_cancel_right heq, rfl, rfl⟩

/-! ### Accepting because of a front part -/

/-- Every success reads at least `n` bytes off the front, and depends on nothing else. -/
def Framed (n : Nat) (p : Parser ε α) : Prop :=
  ∀ bs x rest, p bs = (.ok x, rest) → ∃ used, bs = used ++ rest ∧ n ≤ used.length ∧ Reads p used x

theorem framed_pure (x : α) : Framed 0 (pure x : Parser ε α) := by
  intro bs y rest h
  cases h
  exact ⟨[], rfl, Nat.zero_le _, reads_pure x⟩

theorem framed_fail {n : Nat} {e : ε} : Framed n (fail e : Parser ε α) := by
  intro bs y rest h
  cases h

theorem framed_ensure {c : Prop} [Decidable c] {e : ε} : Framed 0 (ensure c e) := by
  intro bs y rest h
  obtain ⟨hc, rfl⟩ := ensure_eq_ok.mp h
  exact ⟨[], rfl, Nat.zero_le _, reads_ensure hc⟩

theorem framed_take (short : Nat → Nat → ε) (n : Nat) : Framed n (take short n) := by
  intro bs y rest h
  unfold take at h
  split at h
  · next hn =>
      cases h
      exact ⟨bs.take n, (List.take_append_drop n bs).symm, by simp [hn], reads_take ⟨_, _⟩⟩
  · cases h

theorem Framed.weaken {m n : Nat} {p : Parser ε α} (h : Framed m p) (hn : n ≤ m) :
    Framed n p := by
  intro bs x rest hp
  obtain ⟨used, hbs, hlen, hreads⟩ := h bs x rest hp
  exact ⟨used, hbs, Nat.le_trans hn hlen, hreads⟩

theorem Framed.bind {m n : Nat} {p : Parser ε α} {f : α → Parser ε β}
    (hp : Framed m p) (hf : ∀ x, Framed n (f x)) : Framed (m + n) (p >>= f) := by
  intro bs y rest h
  obtain ⟨x, mid, hpb, hfm⟩ := bind_eq_ok.mp h
  obtain ⟨u₁, hbs, hl₁, hr₁⟩ := hp bs x mid hpb
  obtain ⟨u₂, hmid, hl₂, hr₂⟩ := hf x mid y rest hfm
  refine ⟨u₁ ++ u₂, ?_, ?_, hr₁.bind hr₂⟩
  · rw [hbs, hmid, List.append_assoc]
  · rw [List.length_append]
    omega

theorem Framed.bind_zero {m : Nat} {p : Parser ε α} {f : α → Parser ε β} (hp : Framed m p)
    (hf : ∀ x, Framed 0 (f x)) : Framed 0 (p >>= f) :=
  (hp.bind hf).weaken (Nat.zero_le _)

theorem Framed.ensure {n : Nat} {c : Prop} [Decidable c] {e : ε} {q : Parser ε β}
    (hq : c → Framed n q) : Framed n (Parser.ensure c e >>= fun _ => q) := by
  intro bs y rest h
  obtain ⟨u, mid, hens, hqm⟩ := bind_eq_ok.mp h
  obtain ⟨hc, rfl⟩ := ensure_eq_ok.mp hens
  obtain ⟨used, hbs, hlen, hreads⟩ := hq hc bs y rest hqm
  exact ⟨used, hbs, hlen, (reads_ensure hc).bind_nil hreads⟩

theorem Framed.demand {n k : Nat} {short : Nat → Nat → ε} {q : Parser ε β}
    (hq : Framed n q) (h : k ≤ n) : Framed n (Parser.demand short k >>= fun _ => q) := by
  intro bs y rest hok
  obtain ⟨u, mid, hdem, hqm⟩ := bind_eq_ok.mp hok
  have hmid : bs = mid := (Prod.mk.inj hdem).2
  subst hmid
  obtain ⟨used, hbs, hlen, hreads⟩ := hq bs y rest hqm
  exact ⟨used, hbs, hlen, hreads.demand (Nat.le_trans h hlen)⟩

theorem mapError_eq_ok {f : ε → ε} {p : Parser ε α} {bs rest : List UInt8} {x : α} :
    p.mapError f bs = (.ok x, rest) ↔ p bs = (.ok x, rest) := by
  unfold Parser.mapError
  rcases p bs with ⟨e | y, mid⟩ <;> simp

theorem Framed.mapError {n : Nat} {f : ε → ε} {p : Parser ε α} (h : Framed n p) :
    Framed n (p.mapError f) := by
  intro bs x rest hp
  obtain ⟨used, hbs, hlen, hreads⟩ := h bs x rest (mapError_eq_ok.mp hp)
  exact ⟨used, hbs, hlen, hreads.mapError⟩

theorem Framed.ite {n : Nat} {c : Prop} [Decidable c] {p q : Parser ε α}
    (hp : Framed n p) (hq : Framed n q) : Framed n (if c then p else q) := by
  split
  · exact hp
  · exact hq

theorem Framed.loop {m : Nat} {body : Nat → σ → Parser ε σ} (h : ∀ i s, Framed m (body i s)) :
    ∀ (n i : Nat) (s : σ), Framed (n * m) (Parser.loop body n i s) := by
  intro n
  induction n with
  | zero => intro i s; rw [Nat.zero_mul]; exact framed_pure s
  | succ n ih =>
      intro i s
      rw [Nat.succ_mul, Nat.add_comm]
      exact (h i s).bind fun s' => ih (i + 1) s'

/-- What every round of a loop that succeeds preserves, the loop preserves. -/
theorem loop_invariant {I : σ → Prop} {body : Nat → σ → Parser ε σ}
    (hstep : ∀ i s bs s' rest, I s → body i s bs = (.ok s', rest) → I s') :
    ∀ {n i : Nat} {s : σ} {bs : List UInt8} {s' : σ} {rest : List UInt8}, I s →
      Parser.loop body n i s bs = (.ok s', rest) → I s' := by
  intro n
  induction n with
  | zero =>
      intro i s bs s' rest hs h
      obtain ⟨rfl, -⟩ := pure_eq_ok.mp h
      exact hs
  | succ n ih =>
      intro i s bs s' rest hs h
      obtain ⟨mid, bs', hbody, hrest⟩ := bind_eq_ok.mp h
      exact ih (hstep i s bs mid bs' hs hbody) hrest

theorem loop_add (body : Nat → σ → Parser ε σ) : ∀ (m n i : Nat) (s : σ),
    loop body (m + n) i s = loop body m i s >>= fun s' => loop body n (i + m) s' := by
  intro m
  induction m with
  | zero =>
      intro n i s
      rw [Nat.zero_add]
      rfl
  | succ m ih =>
      intro n i s
      funext bs
      rw [Nat.succ_add, loop, loop, bind_apply, bind_apply, bind_apply]
      rcases body i s bs with ⟨e | s', mid⟩
      · rfl
      · simp only
        rw [ih, bind_apply, Nat.add_right_comm i 1 m]
        rfl

theorem loop_length {body : Nat → List α → Parser ε (List α)}
    (hstep : ∀ i l bs l' rest, body i l bs = (.ok l', rest) → l'.length = l.length + 1) :
    ∀ {n i : Nat} {l : List α} {bs : List UInt8} {l' : List α} {rest : List UInt8},
      loop body n i l bs = (.ok l', rest) → l'.length = l.length + n := by
  intro n
  induction n with
  | zero =>
      intro i l bs l' rest h
      obtain ⟨rfl, -⟩ := pure_eq_ok.mp h
      rfl
  | succ n ih =>
      intro i l bs l' rest h
      obtain ⟨mid, bs', hbody, hrest⟩ := bind_eq_ok.mp h
      rw [ih hrest, hstep i l bs mid bs' hbody]
      omega

theorem withSpan_eq_ok {p : Parser ε α} {bs rest span : List UInt8} {x : α} :
    p.withSpan bs = (.ok (x, span), rest)
      ↔ p bs = (.ok x, rest) ∧ span = bs.take (bs.length - rest.length) := by
  unfold Parser.withSpan
  rcases p bs with ⟨e | y, mid⟩
  · simp
  · simp only [Prod.mk.injEq, Except.ok.injEq]
    constructor
    · rintro ⟨⟨rfl, rfl⟩, rfl⟩
      exact ⟨⟨rfl, rfl⟩, rfl⟩
    · rintro ⟨⟨rfl, rfl⟩, rfl⟩
      exact ⟨⟨rfl, rfl⟩, rfl⟩

theorem Framed.withSpan_eq {n : Nat} {p : Parser ε α} (h : Framed n p) {bs rest span : List UInt8}
    {x : α} (hok : p.withSpan bs = (.ok (x, span), rest)) :
    bs = span ++ rest ∧ n ≤ span.length ∧ Reads p span x := by
  obtain ⟨hp, hspan⟩ := withSpan_eq_ok.mp hok
  obtain ⟨used, hbs, hlen, hreads⟩ := h bs x rest hp
  have hused : span = used := by
    rw [hspan, hbs, List.length_append, Nat.add_sub_cancel, List.take_left']
    rfl
  rw [hused]
  exact ⟨hbs, hlen, hreads⟩

theorem Framed.withSpan {n : Nat} {p : Parser ε α} (h : Framed n p) : Framed n p.withSpan := by
  rintro bs ⟨x, span⟩ rest hok
  obtain ⟨hbs, hlen, hreads⟩ := h.withSpan_eq hok
  exact ⟨span, hbs, hlen, hreads.withSpan⟩

/-! ### One encoding for each value -/

/-- What was decoded is written in front of what is left. -/
def Stands (write : α → Option (List UInt8)) (x : α) (bs rest : List UInt8) : Prop :=
  ∃ enc, write x = some enc ∧ bs = enc ++ rest

/-- `p` accepts the encodings of valid values, in front of anything, and nothing else. -/
def Decodes (p : Parser ε α) (valid : α → Prop) (write : α → Option (List UInt8)) : Prop :=
  ∀ bs x rest, p bs = (.ok x, rest) ↔ valid x ∧ Stands write x bs rest

theorem Decodes.reads {p : Parser ε α} {valid : α → Prop} {write : α → Option (List UInt8)}
    (h : Decodes p valid write) {x : α} (hx : valid x) {enc : List UInt8} (henc : write x = some enc) :
    Reads p enc x := fun rest => (h _ x rest).mpr ⟨hx, enc, henc, rfl⟩

/-- One round of a loop that decodes an element and appends it. -/
def DecodesRound (body : Nat → List α → Parser ε (List α)) (valid : α → Prop)
    (write : α → Option (List UInt8)) : Prop :=
  ∀ i done bs out rest, body i done bs = (.ok out, rest) ↔
    ∃ x, out = done ++ [x] ∧ valid x ∧ Stands write x bs rest

theorem decodesRound_of {p : Nat → Parser ε α} {valid : α → Prop}
    {write : α → Option (List UInt8)} (h : ∀ i, Decodes (p i) valid write) :
    DecodesRound (fun i done => do let x ← p i; pure (done ++ [x])) valid write := by
  intro i done bs out rest
  simp only [bind_eq_ok, pure_eq_ok]
  constructor
  · rintro ⟨x, mid, hp, rfl, rfl⟩
    exact ⟨x, rfl, (h i _ _ _).mp hp⟩
  · rintro ⟨x, rfl, hx⟩
    exact ⟨x, rest, (h i _ _ _).mpr hx, rfl, rfl⟩

/-- **A loop of such rounds decodes a list**, its elements one behind the other. -/
theorem loop_decodes {body : Nat → List α → Parser ε (List α)} {valid : α → Prop}
    {write : α → Option (List UInt8)} (h : DecodesRound body valid write) :
    ∀ (n i : Nat) (done : List α) (bs : List UInt8) (out : List α) (rest : List UInt8),
      loop body n i done bs = (.ok out, rest) ↔ ∃ items, out = done ++ items ∧ items.length = n ∧
        (∀ x ∈ items, valid x) ∧ Stands (fun l => (l.mapM write).map List.flatten) items bs rest := by
  intro n
  induction n with
  | zero =>
      intro i done bs out rest
      rw [loop, pure_eq_ok]
      constructor
      · rintro ⟨rfl, rfl⟩
        exact ⟨[], (List.append_nil _).symm, rfl, by simp, [], rfl, rfl⟩
      · rintro ⟨items, rfl, hlen, -, enc, henc, rfl⟩
        rw [List.length_eq_zero_iff] at hlen
        subst hlen
        cases henc
        exact ⟨(List.append_nil _).symm, rfl⟩
  | succ n ih =>
      intro i done bs out rest
      rw [loop]
      simp only [bind_eq_ok, h i done, ih]
      constructor
      · rintro ⟨next, mid, ⟨x, rfl, hx, enc, henc, rfl⟩, items, rfl, rfl, hall, encs, hencs, rfl⟩
        refine ⟨x :: items, List.append_assoc .., rfl, List.forall_mem_cons.mpr ⟨hx, hall⟩,
          enc ++ encs, ?_, (List.append_assoc ..).symm⟩
        obtain ⟨parts, hparts, rfl⟩ := Option.map_eq_some_iff.mp hencs
        simp [henc, hparts]
      · rintro ⟨items, rfl, hlen, hall, encs, hencs, rfl⟩
        obtain ⟨x, items, rfl⟩ := List.exists_cons_of_length_eq_add_one hlen
        obtain ⟨hx, hall⟩ := List.forall_mem_cons.mp hall
        obtain ⟨parts, hparts, rfl⟩ := Option.map_eq_some_iff.mp hencs
        simp only [List.mapM_cons, Option.bind_eq_bind, Option.bind_eq_some_iff, Option.pure_def,
          Option.some.injEq] at hparts
        obtain ⟨enc, henc, more, hmore, rfl⟩ := hparts
        refine ⟨_, more.flatten ++ rest, ⟨x, rfl, hx, enc, henc, ?_⟩, items, ?_,
          Nat.succ.inj hlen, hall, more.flatten, ?_, rfl⟩
        · rw [List.flatten_cons, List.append_assoc]
        · rw [List.append_assoc, List.singleton_append]
        · show (items.mapM write).map List.flatten = _
          rw [hmore]
          rfl

/-! ### Using a fixed number of bytes -/

/-- Every success uses exactly `n` bytes. -/
def Exact (n : Nat) (p : Parser ε α) : Prop :=
  ∀ bs x rest, p bs = (.ok x, rest) → bs.length = n + rest.length

theorem exact_pure (x : α) : Exact 0 (pure x : Parser ε α) := by
  intro bs y rest h
  cases h
  rw [Nat.zero_add]

theorem exact_ensure {c : Prop} [Decidable c] {e : ε} : Exact 0 (ensure c e) := by
  intro bs y rest h
  obtain ⟨-, rfl⟩ := ensure_eq_ok.mp h
  rw [Nat.zero_add]

theorem exact_take (short : Nat → Nat → ε) (n : Nat) : Exact n (take short n) := by
  intro bs y rest h
  unfold take at h
  split at h
  · next hn =>
      cases h
      rw [List.length_drop]
      omega
  · cases h

theorem Exact.bind {m n : Nat} {p : Parser ε α} {f : α → Parser ε β}
    (hp : Exact m p) (hf : ∀ x, Exact n (f x)) : Exact (m + n) (p >>= f) := by
  intro bs y rest h
  obtain ⟨x, mid, hx, hy⟩ := bind_eq_ok.mp h
  have hmid := hp bs x mid hx
  have hrest := hf x mid y rest hy
  omega

end Parser

end Lib
