/-
Several readers, one queue.

The items of a list are dealt out to some readers, reader `t` taking every `threads`th
from `t` on, in order.  An item gives a message or, if it cannot be read, nothing.
Messages go into one bounded queue and carry no mark of where they come from; a single
consumer takes them out, until it has one for every item or the readers are done and the
queue is empty.

`delivered_perm` is what such a queue promises: a consumer that got a message for every
item got the messages of all items, in some order.  `delivered_swapped` is what it does
not promise: any two neighbours may change places.
-/
import Mathlib.Data.List.Nodup
import Mathlib.Data.List.Perm.Basic
import Mathlib.Logic.Relation

namespace Lib.SharedQueue

variable {α : Type}

/-- Where each reader is, what is in the queue, and what the consumer has. -/
structure State (α : Type) where
  next : Nat → Nat
  queue : List α
  received : List α

def State.start : State α := ⟨id, [], []⟩

/-- Reader `t` goes on to its next item. -/
def advance (threads t : Nat) (next : Nat → Nat) : Nat → Nat :=
  fun u => if u = t then next t + threads else next u

variable (threads capacity : Nat) (items : List (Option α))

inductive Step : State α → State α → Prop where
  | skip {s : State α} (t : Nat) (ht : t < threads) (hitem : items[s.next t]? = some none) :
      Step s { s with next := advance threads t s.next }
  | send {s : State α} (t : Nat) {a : α} (ht : t < threads)
      (hitem : items[s.next t]? = some (some a)) (hroom : s.queue.length < capacity) :
      Step s ⟨advance threads t s.next, s.queue ++ [a], s.received⟩
  | receive {s : State α} {a : α} {rest : List α} (hqueue : s.queue = a :: rest)
      (hmore : s.received.length < items.length) :
      Step s { s with queue := rest, received := s.received ++ [a] }

/-- Nothing will come any more. -/
def State.Closed (s : State α) : Prop :=
  s.queue = [] ∧ ∀ t < threads, items.length ≤ s.next t

/-- What the consumer may have in the end. -/
def Delivered (received : List α) : Prop :=
  ∃ s, Relation.ReflTransGen (Step threads capacity items) .start s ∧ s.received = received ∧
    (received.length = items.length ∨ s.Closed threads items)

/-! ### Nothing is lost -/

/-- The items that were read, by whichever reader. -/
def handled (next : Nat → Nat) : List Nat :=
  (List.range items.length).filter fun i => i < next (i % threads)

/-- Every reader is at one of its own items, and what was sent are the messages of the items
read. -/
structure Dealt (s : State α) : Prop where
  own : ∀ t < threads, s.next t % threads = t
  sent : (s.received ++ s.queue).Perm
    ((handled threads items s.next).filterMap fun i => items[i]?.join)

variable {threads capacity : Nat} {items : List (Option α)}

theorem dealt_start : Dealt threads items State.start where
  own := fun t ht => Nat.mod_eq_of_lt ht
  sent := by
    have hnone : handled threads items (State.start : State α).next = [] := by
      unfold handled
      rw [List.filter_eq_nil_iff]
      intro i _
      have hle : i % threads ≤ i := Nat.mod_le i threads
      rw [decide_eq_true_eq]
      exact Nat.not_lt.mpr hle
    rw [hnone]
    exact .refl _

theorem eq_of_same_reader {i j : Nat} (hmod : i % threads = j % threads) (hle : j ≤ i)
    (hlt : i < j + threads) : i = j := by
  have hi := Nat.div_add_mod i threads
  have hj := Nat.div_add_mod j threads
  rcases Nat.lt_trichotomy (i / threads) (j / threads) with hdiv | hdiv | hdiv
  · have := Nat.mul_le_mul_left threads (Nat.succ_le_of_lt hdiv)
    rw [Nat.mul_succ] at this
    omega
  · rw [hdiv] at hi
    omega
  · have := Nat.mul_le_mul_left threads (Nat.succ_le_of_lt hdiv)
    rw [Nat.mul_succ] at this
    omega

theorem handled_advance {next : Nat → Nat} {t : Nat} (ht : t < threads)
    (hown : next t % threads = t) (hlt : next t < items.length) :
    (handled threads items (advance threads t next)).Perm
      (next t :: handled threads items next) := by
  refine (List.perm_ext_iff_of_nodup (List.nodup_range.filter _) ?_).mpr ?_
  · refine List.nodup_cons.mpr ⟨?_, List.nodup_range.filter _⟩
    unfold handled
    simp [hown]
  · intro i
    unfold handled advance
    simp only [List.mem_filter, List.mem_range, List.mem_cons, decide_eq_true_eq]
    by_cases hreader : i % threads = t
    · rw [if_pos hreader, hreader]
      constructor
      · rintro ⟨hi, hbefore⟩
        by_cases hle : next t ≤ i
        · exact .inl (eq_of_same_reader (hreader.trans hown.symm) hle hbefore)
        · exact .inr ⟨hi, by omega⟩
      · rintro (rfl | ⟨hi, hbefore⟩)
        · exact ⟨hlt, by omega⟩
        · exact ⟨hi, by omega⟩
    · rw [if_neg hreader]
      constructor
      · rintro ⟨hi, hbefore⟩
        exact .inr ⟨hi, hbefore⟩
      · rintro (rfl | ⟨hi, hbefore⟩)
        · exact absurd hown hreader
        · exact ⟨hi, hbefore⟩

theorem dealt_advance {s : State α} {t : Nat} {queue : List α} {message : Option α}
    (h : Dealt threads items s) (ht : t < threads) (hitem : items[s.next t]? = some message)
    (hqueue : queue = s.queue ++ message.toList) :
    Dealt threads items ⟨advance threads t s.next, queue, s.received⟩ where
  own := by
    intro u hu
    show (if u = t then s.next t + threads else s.next u) % threads = u
    by_cases hut : u = t
    · rw [if_pos hut, Nat.add_mod_right, h.own t ht, hut]
    · rw [if_neg hut]
      exact h.own u hu
  sent := by
    have hlt : s.next t < items.length := (List.getElem?_eq_some_iff.mp hitem).1
    have hread := (handled_advance ht (h.own t ht) hlt).filterMap fun i => items[i]?.join
    refine List.Perm.trans ?_ hread.symm
    subst hqueue
    rw [← List.append_assoc, List.filterMap_cons, hitem]
    cases message with
    | none => simpa using h.sent
    | some a =>
        refine List.Perm.trans List.perm_append_comm ?_
        exact h.sent.cons a

theorem dealt_step {s s' : State α} (h : Dealt threads items s)
    (hstep : Step threads capacity items s s') : Dealt threads items s' := by
  cases hstep with
  | skip t ht hitem => exact dealt_advance h ht hitem (by simp)
  | send t ht hitem hroom => exact dealt_advance h ht hitem rfl
  | receive hqueue hmore =>
      refine ⟨h.own, ?_⟩
      have hsent := h.sent
      rw [hqueue] at hsent
      simpa using hsent

theorem dealt_of_reaches {s : State α}
    (h : Relation.ReflTransGen (Step threads capacity items) .start s) :
    Dealt threads items s := by
  induction h with
  | refl => exact dealt_start
  | tail _ hstep ih => exact dealt_step ih hstep

theorem filterMap_range_join : ∀ items : List (Option α),
    (List.range items.length).filterMap (fun i => items[i]?.join) = items.filterMap id := by
  intro items
  have hitems : items = (List.range items.length).map fun i => items[i]?.join := by
    refine List.ext_getElem (by simp) ?_
    intro i hi _
    rw [List.getElem_map, List.getElem_range, List.getElem?_eq_getElem hi]
    rfl
  conv => rhs; rw [hitems]
  rw [List.filterMap_map]
  rfl

theorem sent_sublist (threads : Nat) (items : List (Option α)) (next : Nat → Nat) :
    ((handled threads items next).filterMap fun i => items[i]?.join).Sublist
      (items.filterMap id) := by
  rw [← filterMap_range_join]
  exact List.Sublist.filterMap _ List.filter_sublist

theorem delivered_length_le {received : List α}
    (h : Delivered threads capacity items received) : received.length ≤ items.length := by
  obtain ⟨s, hreach, hreceived, -⟩ := h
  have hsent := (dealt_of_reaches hreach).sent.length_eq
  have hsub := (sent_sublist threads items s.next).length_le
  have hle : (items.filterMap id).length ≤ items.length := List.length_filterMap_le _ _
  rw [List.length_append, hreceived] at hsent
  omega

/-- **A consumer that got a message for every item got those of all items**, in some order; so
none was unreadable. -/
theorem delivered_perm {received : List α} (h : Delivered threads capacity items received)
    (hall : received.length = items.length) :
    ∃ messages, items = messages.map some ∧ received.Perm messages := by
  obtain ⟨s, hreach, hreceived, -⟩ := h
  have hsent := (dealt_of_reaches hreach).sent
  rw [hreceived] at hsent
  have hsub := sent_sublist threads items s.next
  have hlen := hsub.length_le
  have hle : (items.filterMap id).length ≤ items.length := List.length_filterMap_le _ _
  have heq := hsent.length_eq
  rw [List.length_append] at heq
  have hqueue : s.queue = [] := List.length_eq_zero_iff.mp (by omega)
  have hmessages := hsub.eq_of_length (by omega)
  refine ⟨items.filterMap id, ?_, ?_⟩
  · have hsome : ∀ a ∈ items, (id a).isSome = true :=
      List.filterMap_length_eq_length.mp (by omega)
    rw [List.map_filterMap_some_eq_filter_map_isSome, List.map_id]
    exact (List.filter_eq_self.mpr hsome).symm
  · rw [← hmessages]
    rw [hqueue, List.append_nil] at hsent
    exact hsent

/-! ### What order the messages come in -/

/-- The items up to `m` were read and no other. -/
def AtItem (threads m : Nat) (next : Nat → Nat) : Prop :=
  ∀ t < threads, next t % threads = t ∧ m ≤ next t ∧ next t < m + threads

theorem atItem_start : AtItem threads 0 (State.start : State α).next := by
  intro t ht
  exact ⟨Nat.mod_eq_of_lt ht, Nat.zero_le _, by simpa [State.start] using ht⟩

theorem AtItem.next_eq {m i : Nat} {next : Nat → Nat} (h : AtItem threads m next)
    (hpos : 0 < threads) (hle : m ≤ i) (hlt : i < m + threads) : next (i % threads) = i := by
  obtain ⟨hmod, hlow, hhigh⟩ := h (i % threads) (Nat.mod_lt _ hpos)
  rcases Nat.le_total (next (i % threads)) i with hless | hmore
  · exact (eq_of_same_reader hmod.symm hless (by omega)).symm
  · exact eq_of_same_reader hmod hmore (by omega)

/-- A message is sent and taken out at once. -/
theorem reaches_send_receive (items : List (Option α)) {s : State α} {i : Nat} {a : α}
    (hpos : 0 < threads) (hcapacity : 0 < capacity) (hitem : items[i]? = some (some a))
    (hnext : s.next (i % threads) = i) (hqueue : s.queue = [])
    (hmore : s.received.length < items.length) :
    Relation.ReflTransGen (Step threads capacity items) s
      ⟨advance threads (i % threads) s.next, [], s.received ++ [a]⟩ := by
  have hsend : Step threads capacity items s
      ⟨advance threads (i % threads) s.next, s.queue ++ [a], s.received⟩ :=
    .send (i % threads) (Nat.mod_lt _ hpos) (by rw [hnext]; exact hitem)
      (by rw [hqueue]; exact hcapacity)
  refine .tail (.single hsend) ?_
  refine .receive (s := ⟨_, s.queue ++ [a], _⟩) ?_ hmore
  show s.queue ++ [a] = [a]
  rw [hqueue]
  rfl

theorem AtItem.advance {m : Nat} {next : Nat → Nat} (h : AtItem threads m next)
    (hpos : 0 < threads) : AtItem threads (m + 1) (advance threads (m % threads) next) := by
  intro t ht
  have hm := h.next_eq hpos (Nat.le_refl m) (by omega)
  obtain ⟨hmod, hlow, hhigh⟩ := h t ht
  unfold SharedQueue.advance
  by_cases htm : t = m % threads
  · rw [if_pos htm, hm, Nat.add_mod_right]
    exact ⟨htm.symm, by omega, by omega⟩
  · rw [if_neg htm]
    have hne : next t ≠ m := by
      intro heq
      rw [heq] at hmod
      exact htm hmod.symm
    exact ⟨hmod, by omega, by omega⟩

theorem advance_comm {t u : Nat} (hne : t ≠ u) (next : Nat → Nat) :
    advance threads t (advance threads u next) = advance threads u (advance threads t next) := by
  funext v
  unfold SharedQueue.advance
  by_cases hvt : v = t
  · subst hvt
    simp [hne]
  · simp [hvt, hne.symm]

/-- Some messages, one after another. -/
theorem reaches_part (items : List (Option α)) (hpos : 0 < threads) (hcapacity : 0 < capacity) :
    ∀ (part : List α) (m : Nat) (s : State α) (later : List (Option α)),
      items.drop m = part.map some ++ later → AtItem threads m s.next → s.queue = [] →
      s.received.length = m →
      ∃ s', Relation.ReflTransGen (Step threads capacity items) s s' ∧
        AtItem threads (m + part.length) s'.next ∧ s'.queue = [] ∧
        s'.received = s.received ++ part := by
  intro part
  induction part with
  | nil => intro m s _ _ hat hqueue _; exact ⟨s, .refl, hat, hqueue, (List.append_nil _).symm⟩
  | cons a part ih =>
      intro m s later hdrop hat hqueue hlen
      have hitem : items[m]? = some (some a) := by
        rw [← List.head?_drop, hdrop]
        rfl
      have hlt : m < items.length := (List.getElem?_eq_some_iff.mp hitem).1
      have hstep := reaches_send_receive items hpos hcapacity hitem
        (hat.next_eq hpos (Nat.le_refl m) (by omega)) hqueue (by omega)
      have hdrop' : items.drop (m + 1) = part.map some ++ later := by
        rw [← List.tail_drop, hdrop]
        rfl
      obtain ⟨s', hreach, hat', hqueue', hreceived⟩ := ih (m + 1)
        ⟨SharedQueue.advance threads (m % threads) s.next, [], s.received ++ [a]⟩ later hdrop'
        (hat.advance hpos) rfl (by simp [hlen])
      refine ⟨s', hstep.trans hreach, ?_, hqueue', ?_⟩
      · rw [List.length_cons, Nat.add_comm part.length, ← Nat.add_assoc]
        exact hat'
      · rw [hreceived, List.append_assoc]
        rfl

/-- **Not in order**: with two readers or more, any two neighbours may change places. -/
theorem delivered_swapped (hthreads : 1 < threads) (hcapacity : 0 < capacity)
    (before rest : List α) (a b : α) :
    Delivered threads capacity ((before ++ a :: b :: rest).map some)
      (before ++ b :: a :: rest) := by
  have hpos : 0 < threads := by omega
  have hitems : (before ++ a :: b :: rest).map some
      = before.map some ++ some a :: some b :: rest.map some := by simp
  rw [hitems]
  -- up to the two, in order
  obtain ⟨s, hreach, hat, hqueue, hreceived⟩ := reaches_part
    (before.map some ++ some a :: some b :: rest.map some) hpos hcapacity before 0
    .start (some a :: some b :: rest.map some) rfl atItem_start rfl rfl
  rw [Nat.zero_add] at hat
  have hreceived : s.received = before := hreceived
  have hne : before.length % threads ≠ (before.length + 1) % threads := by
    intro heq
    have hfirst := hat.next_eq hpos (Nat.le_refl before.length) (by omega)
    have hsecond := hat.next_eq hpos (Nat.le_succ before.length) (by omega)
    rw [heq, hsecond] at hfirst
    omega
  -- the reader of the second is faster
  have hb := reaches_send_receive (before.map some ++ some a :: some b :: rest.map some)
    (s := s) (a := b) (i := before.length + 1) hpos hcapacity
    (by simp) (hat.next_eq hpos (Nat.le_succ _) (by omega)) hqueue (by simp [hreceived])
  have ha := reaches_send_receive (before.map some ++ some a :: some b :: rest.map some)
    (a := a) (i := before.length)
    (s := ⟨advance threads ((before.length + 1) % threads) s.next, [], s.received ++ [b]⟩)
    hpos hcapacity
    (by simp)
    (by
      show advance threads _ s.next (before.length % threads) = before.length
      unfold SharedQueue.advance
      rw [if_neg hne]
      exact hat.next_eq hpos (Nat.le_refl _) (by omega))
    rfl (by simp [hreceived])
  have hat' : AtItem threads (before.length + 1 + 1)
      (advance threads (before.length % threads)
        (advance threads ((before.length + 1) % threads) s.next)) := by
    rw [advance_comm hne]
    exact (hat.advance hpos).advance hpos
  have hdrop : (before.map some ++ some a :: some b :: rest.map some).drop (before.length + 1 + 1)
      = rest.map some ++ [] := by
    have hlen : before.length = (before.map (some : α → Option α)).length := by simp
    rw [Nat.add_assoc, hlen, List.drop_length_add_append]
    simp
  -- and the rest in order again
  obtain ⟨s', hreach', -, -, hreceived'⟩ := reaches_part
    (before.map some ++ some a :: some b :: rest.map some) hpos hcapacity rest
    (before.length + 1 + 1)
    ⟨_, [], s.received ++ [b] ++ [a]⟩ [] hdrop hat' rfl (by simp [hreceived])
  refine ⟨s', hreach.trans (hb.trans (ha.trans hreach')), ?_, .inl (by simp)⟩
  rw [hreceived', hreceived]
  simp

end Lib.SharedQueue
