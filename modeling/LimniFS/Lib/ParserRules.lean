/-
Two rules about parsers: refusing less, and stopping at the first failure.

Two readers of one format often differ in their limits alone.  `Lenient p q` says that
`q` accepts whatever `p` accepts, with the same value and the cursor in the same place.
The relation composes along `bind`, so two parsers that are built alike from a limit
are related as soon as their checks are.

`rounds body n` runs a parser up to `n` times on a state.  A round that fails ends the
loop: its state is dropped, the one before it is kept, and the cursor stays where the
round stopped.
-/
import LimniFS.Lib.Parser

namespace Lib

namespace Parser

variable {ε α β σ : Type}

/-- `q` reads what `p` reads. -/
def Lenient (p q : Parser ε α) : Prop :=
  ∀ bs x rest, p bs = (.ok x, rest) → q bs = (.ok x, rest)

theorem Lenient.refl (p : Parser ε α) : Lenient p p := fun _ _ _ h => h

theorem Lenient.bind {p q : Parser ε α} {f g : α → Parser ε β} (h : Lenient p q)
    (hf : ∀ x, Lenient (f x) (g x)) : Lenient (p >>= f) (q >>= g) := by
  intro bs y rest hy
  obtain ⟨x, mid, hp, hx⟩ := bind_eq_ok.mp hy
  exact bind_eq_ok.mpr ⟨x, mid, h _ _ _ hp, hf x _ _ _ hx⟩

theorem Lenient.after (p : Parser ε α) {f g : α → Parser ε β} (hf : ∀ x, Lenient (f x) (g x)) :
    Lenient (p >>= f) (p >>= g) := (Lenient.refl p).bind hf

theorem Lenient.ite {c : Prop} [Decidable c] {p p' q q' : Parser ε α} (hp : Lenient p q)
    (hq : Lenient p' q') : Lenient (if c then p else p') (if c then q else q') := by
  by_cases hc : c
  · rw [if_pos hc, if_pos hc]
    exact hp
  · rw [if_neg hc, if_neg hc]
    exact hq

theorem lenient_ensure {c d : Prop} [Decidable c] [Decidable d] {e e' : ε} (h : c → d) :
    Lenient (ensure c e) (ensure d e') := by
  intro bs x rest hx
  obtain ⟨hc, rfl⟩ := ensure_eq_ok.mp hx
  exact ensure_eq_ok.mpr ⟨h hc, rfl⟩

theorem Lenient.loop {body body' : Nat → σ → Parser ε σ}
    (h : ∀ i s, Lenient (body i s) (body' i s)) :
    ∀ (n i : Nat) (s : σ), Lenient (Parser.loop body n i s) (Parser.loop body' n i s) := by
  intro n
  induction n with
  | zero =>
      intro i s
      exact Lenient.refl _
  | succ n ih =>
      intro i s
      exact (h i s).bind fun s' => ih (i + 1) s'

end Parser

end Lib

namespace Lib.Parser

variable {ε σ α : Type}

def rounds (body : σ → Parser ε σ) : Nat → σ → List UInt8 → σ × List UInt8
  | 0, s, bs => (s, bs)
  | n + 1, s, bs =>
    match body s bs with
    | (.ok s', rest) => rounds body n s' rest
    | (.error _, rest) => (s, rest)

/-- As many rounds as there are encoded items take them all. -/
theorem rounds_reads (body : σ → Parser ε σ) (enc : α → List UInt8) (step : σ → α → σ) :
    ∀ (xs : List α) (s : σ) (rest : List UInt8),
      (∀ x ∈ xs, ∀ s, Reads (body s) (enc x) (step s x)) →
      rounds body xs.length s (xs.flatMap enc ++ rest) = (xs.foldl step s, rest) := by
  intro xs
  induction xs with
  | nil =>
      intro s rest _
      rfl
  | cons x xs ih =>
      intro s rest h
      obtain ⟨hx, hxs⟩ := List.forall_mem_cons.mp h
      rw [List.flatMap_cons, List.append_assoc, List.length_cons, rounds, hx s]
      exact ih _ _ hxs

/-- What holds at first and is carried from one count to the next by a round that succeeds
holds at the end, for some count. -/
theorem rounds_induct (body : σ → Parser ε σ) {I : Nat → σ → Prop}
    (hstep : ∀ k s bs s' rest, I k s → body s bs = (.ok s', rest) → I (k + 1) s') :
    ∀ (n k : Nat) (s : σ) (bs : List UInt8), I k s → ∃ m ≤ n, I (k + m) (rounds body n s bs).1 := by
  intro n
  induction n with
  | zero =>
      intro k s bs h
      exact ⟨0, Nat.le_refl 0, h⟩
  | succ n ih =>
      intro k s bs h
      unfold rounds
      split
      · next s' rest hbody =>
          obtain ⟨m, hm, hI⟩ := ih (k + 1) s' rest (hstep k s bs s' rest h hbody)
          refine ⟨m + 1, Nat.succ_le_succ hm, ?_⟩
          rwa [Nat.add_comm m 1, ← Nat.add_assoc]
      · exact ⟨0, Nat.zero_le _, h⟩

/-- Rounds that grow what a successful one grows, and did not, have done nothing. -/
theorem rounds_unchanged (body : σ → Parser ε σ) (size : σ → Nat)
    (hgrow : ∀ s bs s' rest, body s bs = (.ok s', rest) → size s ≤ size s')
    {n : Nat} {s : σ} {bs : List UInt8}
    (hfirst : ∀ s' rest, body s bs = (.ok s', rest) → size s < size s')
    (h : size (rounds body n s bs).1 ≤ size s) :
    (n = 0 ∧ rounds body n s bs = (s, bs)) ∨
      (n ≠ 0 ∧ ∃ e rest, body s bs = (.error e, rest) ∧ rounds body n s bs = (s, rest)) := by
  cases n with
  | zero => exact Or.inl ⟨rfl, rfl⟩
  | succ n =>
      refine Or.inr ⟨Nat.succ_ne_zero n, ?_⟩
      unfold rounds at h ⊢
      split at h
      · next s' rest hbody =>
          obtain ⟨m, -, hle⟩ := rounds_induct body (I := fun _ t => size s' ≤ size t)
            (fun _ t bs t' rest ht hb => Nat.le_trans ht (hgrow t bs t' rest hb)) n 0 s' rest
            (Nat.le_refl _)
          have hlt := hfirst s' rest hbody
          omega
      · next e rest hbody => exact ⟨e, rest, hbody, rfl⟩

end Lib.Parser
