/-
A map whose tasks are run by workers in any order.

Each worker that finishes puts its result into the slot of its task.  Which worker
finishes when is a `Schedule`; `parallelMap_eq_map` says that the collected results do
not depend on it.  Where tasks can fail, the error that is reported is that of the task
that failed first, and so is up to the schedule; the results of a run without a failure
are not.
-/
import LimniFS.Lib.ListRel
import Mathlib.Data.List.Perm.Basic

namespace Lib

/-- For every number of tasks, the order in which they are finished. -/
structure Schedule where
  order : Nat → List Nat
  perm : ∀ n, (order n).Perm (List.range n)

/-- One task after another, in order. -/
def Schedule.sequential : Schedule := ⟨List.range, fun _ => .refl _⟩

variable {α β : Type}

/-- Put the result of task `i` into its slot. -/
def fillSlot (run : α → β) (tasks : List α) (slots : List (Option β)) (i : Nat) :
    List (Option β) :=
  slots.set i (tasks[i]?.map run)

def parallelMap (sched : Schedule) (run : α → β) (tasks : List α) : List β :=
  ((sched.order tasks.length).foldl (fillSlot run tasks)
    (List.replicate tasks.length none)).filterMap id

theorem getElem?_foldl_fillSlot (run : α → β) (tasks : List α) :
    ∀ (order : List Nat) (slots : List (Option β)) (i : Nat),
      (order.foldl (fillSlot run tasks) slots)[i]?
        = if i ∈ order then slots[i]?.map fun _ => tasks[i]?.map run else slots[i]? := by
  intro order
  induction order with
  | nil => intro slots i; simp
  | cons j rest ih =>
      intro slots i
      rw [List.foldl_cons, ih]
      unfold fillSlot
      by_cases hij : j = i
      · subst hij
        rw [List.getElem?_set]
        by_cases hlen : j < slots.length
        · simp [hlen]
        · simp [hlen]
      · rw [List.getElem?_set_ne hij]
        simp [Ne.symm hij]

/-- **The results are in the order of the tasks**, whatever the workers did. -/
theorem parallelMap_eq_map (sched : Schedule) (run : α → β) (tasks : List α) :
    parallelMap sched run tasks = tasks.map run := by
  have hslots : (sched.order tasks.length).foldl (fillSlot run tasks)
      (List.replicate tasks.length none) = tasks.map fun t => some (run t) := by
    refine List.ext_getElem? fun i => ?_
    rw [getElem?_foldl_fillSlot, List.getElem?_map, List.getElem?_replicate]
    by_cases hi : i < tasks.length
    · have hmem : i ∈ sched.order tasks.length :=
        (sched.perm _).mem_iff.mpr (List.mem_range.mpr hi)
      rw [if_pos hmem, if_pos hi, List.getElem?_eq_getElem hi]
      rfl
    · have hmem : i ∉ sched.order tasks.length := fun h =>
        hi (List.mem_range.mp ((sched.perm _).mem_iff.mp h))
      rw [if_neg hmem, if_neg hi, List.getElem?_eq_none (Nat.le_of_not_lt hi)]
      rfl
  unfold parallelMap
  rw [hslots, List.filterMap_map]
  exact congrFun List.filterMap_eq_map tasks

section

variable {ε : Type}

/-- The error of the task that failed first. -/
def firstFailure (sched : Schedule) (run : α → Except ε β) (tasks : List α) : Option ε :=
  (sched.order tasks.length).findSome? fun i =>
    match tasks[i]?.map run with
    | some (.error e) => some e
    | _ => none

/-- Either every task succeeds, or one failure is reported. -/
def parallelCollect (sched : Schedule) (run : α → Except ε β) (tasks : List α) :
    Except ε (List β) :=
  match firstFailure sched run tasks with
  | some e => .error e
  | none => .ok ((parallelMap sched run tasks).filterMap Except.toOption)

theorem ok_of_firstFailure_none {sched : Schedule} {run : α → Except ε β} {tasks : List α}
    (h : firstFailure sched run tasks = none) : ∀ a ∈ tasks, ∃ b, run a = .ok b := by
  intro a ha
  obtain ⟨i, hi, rfl⟩ := List.getElem_of_mem ha
  have hmem : i ∈ sched.order tasks.length :=
    (sched.perm _).mem_iff.mpr (List.mem_range.mpr hi)
  have hnone := List.findSome?_eq_none_iff.mp h i hmem
  rw [List.getElem?_eq_getElem hi] at hnone
  cases hrun : run tasks[i] with
  | ok b => exact ⟨b, rfl⟩
  | error e =>
      rw [Option.map_some, hrun] at hnone
      cases hnone

/-- **A collection that succeeds has the result of every task, in order.** -/
theorem parallelCollect_ok {sched : Schedule} {run : α → Except ε β} {tasks : List α}
    {bs : List β} (h : parallelCollect sched run tasks = .ok bs) :
    List.Forall₂ (fun a b => run a = .ok b) tasks bs := by
  unfold parallelCollect at h
  split at h
  · cases h
  · next hnone =>
      cases h
      have hok := ok_of_firstFailure_none hnone
      rw [parallelMap_eq_map, List.filterMap_map]
      refine (forall₂_filterMap ?_).imp ?_
      · intro a ha
        obtain ⟨b, hb⟩ := hok a ha
        rw [Function.comp_apply, hb]
        rfl
      · intro a b hab
        rw [Function.comp_apply] at hab
        cases hrun : run a with
        | ok b' => rw [hrun] at hab; cases hab; rfl
        | error e => rw [hrun] at hab; cases hab

theorem parallelCollect_ok_iff (sched : Schedule) {run : α → Except ε β} {tasks : List α}
    {bs : List β} :
    parallelCollect sched run tasks = .ok bs ↔
      List.Forall₂ (fun a b => run a = .ok b) tasks bs := by
  refine ⟨parallelCollect_ok, ?_⟩
  intro hall
  have hnone : firstFailure sched run tasks = none := by
    refine List.findSome?_eq_none_iff.mpr ?_
    intro i _
    cases htask : tasks[i]? with
    | none => rfl
    | some a =>
        obtain ⟨b, -, hb⟩ := exists_mem_of_forall₂ hall.flip a (List.mem_of_getElem? htask)
        simp only [Option.map_some, hb]
  have hrun : ∃ bs', parallelCollect sched run tasks = .ok bs' := by
    unfold parallelCollect
    rw [hnone]
    exact ⟨_, rfl⟩
  obtain ⟨bs', hbs'⟩ := hrun
  rw [hbs']
  refine congrArg Except.ok (eq_of_forall₂ (parallelCollect_ok hbs') hall ?_)
  intro a _ b b' hb hb'
  exact Except.ok.inj (hb.symm.trans hb')

theorem parallelCollect_toOption (sched sched' : Schedule) (run : α → Except ε β)
    (tasks : List α) :
    (parallelCollect sched run tasks).toOption = (parallelCollect sched' run tasks).toOption := by
  refine Option.ext fun bs => ?_
  have hok : ∀ s : Schedule, (parallelCollect s run tasks).toOption = some bs ↔
      List.Forall₂ (fun a b => run a = .ok b) tasks bs := by
    intro s
    rw [← parallelCollect_ok_iff s]
    cases parallelCollect s run tasks with
    | error e => exact ⟨nofun, nofun⟩
    | ok bs' => exact ⟨fun h => congrArg _ (Option.some.inj h), fun h => congrArg _ (Except.ok.inj h)⟩
  rw [hok sched, hok sched']

theorem parallelCollect_congr (sched : Schedule) {run run' : α → Except ε β} {tasks : List α}
    (h : ∀ a ∈ tasks, run a = run' a) :
    parallelCollect sched run tasks = parallelCollect sched run' tasks := by
  have hmap : tasks.map run = tasks.map run' := List.map_congr_left h
  have hget : ∀ i : Nat, tasks[i]?.map run = tasks[i]?.map run' := by
    intro i
    rw [← List.getElem?_map, ← List.getElem?_map, hmap]
  have hfirst : firstFailure sched run tasks = firstFailure sched run' tasks := by
    unfold firstFailure
    simp only [hget]
  unfold parallelCollect
  rw [hfirst, parallelMap_eq_map, parallelMap_eq_map, hmap]

/-! ### Which failure is reported -/

theorem mapM_ok_iff {run : α → Except ε β} :
    ∀ {tasks : List α} {bs : List β},
      tasks.mapM run = .ok bs ↔ List.Forall₂ (fun a b => run a = .ok b) tasks bs := by
  intro tasks
  induction tasks with
  | nil =>
      intro bs
      rw [List.mapM_nil, List.forall₂_nil_left_iff]
      exact ⟨fun h => (Except.ok.inj h).symm, fun h => h ▸ rfl⟩
  | cons a rest ih =>
      intro bs
      rw [List.mapM_cons, List.forall₂_cons_left_iff]
      cases hrun : run a with
      | error e =>
          refine ⟨nofun, ?_⟩
          rintro ⟨b, bs', hb, -⟩
          cases hb
      | ok b =>
          cases hrest : rest.mapM run with
          | error e =>
              refine ⟨nofun, ?_⟩
              rintro ⟨b', bs', -, hbs', -⟩
              rw [ih.mpr hbs'] at hrest
              cases hrest
          | ok bs' =>
              constructor
              · intro h
                cases h
                exact ⟨b, bs', rfl, ih.mp hrest, rfl⟩
              · rintro ⟨b', bs'', hb', hbs'', rfl⟩
                cases hb'
                rw [ih.mpr hbs''] at hrest
                cases hrest
                rfl

theorem mapM_congr {run run' : α → Except ε β} :
    ∀ {tasks : List α}, (∀ a ∈ tasks, run a = run' a) → tasks.mapM run = tasks.mapM run' := by
  intro tasks
  induction tasks with
  | nil => intro _; rfl
  | cons a rest ih =>
      intro h
      rw [List.mapM_cons, List.mapM_cons, h a List.mem_cons_self,
        ih fun b hb => h b (List.mem_cons_of_mem _ hb)]

theorem exists_of_mapM_error {run : α → Except ε β} {e : ε} :
    ∀ {tasks : List α}, tasks.mapM run = .error e → ∃ a ∈ tasks, run a = .error e := by
  intro tasks
  induction tasks with
  | nil => intro h; cases h
  | cons a rest ih =>
      intro h
      rw [List.mapM_cons] at h
      cases hrun : run a with
      | error e' =>
          rw [hrun] at h
          cases h
          exact ⟨a, List.mem_cons_self, hrun⟩
      | ok b =>
          rw [hrun] at h
          cases hrest : rest.mapM run with
          | error e' =>
              rw [hrest] at h
              cases h
              obtain ⟨a', ha', hrun'⟩ := ih hrest
              exact ⟨a', List.mem_cons_of_mem _ ha', hrun'⟩
          | ok bs =>
              rw [hrest] at h
              cases h

theorem exists_mapM_error_iff {run : α → Except ε β} {tasks : List α} :
    (∃ e, tasks.mapM run = .error e) ↔ ∃ a ∈ tasks, ∃ e, run a = .error e := by
  constructor
  · rintro ⟨e, h⟩
    obtain ⟨a, ha, hrun⟩ := exists_of_mapM_error h
    exact ⟨a, ha, e, hrun⟩
  · rintro ⟨a, ha, e, hrun⟩
    cases hmap : tasks.mapM run with
    | error e' => exact ⟨e', rfl⟩
    | ok bs =>
        obtain ⟨b, -, hb⟩ := exists_mem_of_forall₂ (mapM_ok_iff.mp hmap).flip a ha
        cases hrun.symm.trans hb

/-- One after the other, the first failure is the result. -/
theorem mapM_error_iff {run : α → Except ε β} {failure : α → Option ε} {e : ε} :
    ∀ {tasks : List α}, (∀ a ∈ tasks, ∀ e, run a = .error e ↔ failure a = some e) →
      (tasks.mapM run = .error e ↔ tasks.findSome? failure = some e) := by
  intro tasks
  induction tasks with
  | nil =>
      intro _
      exact ⟨fun h => (by cases h), fun h => (by cases h)⟩
  | cons a rest ih =>
      intro h
      have hrest := ih fun b hb => h b (List.mem_cons_of_mem _ hb)
      have ha := h a List.mem_cons_self
      rw [List.mapM_cons, List.findSome?_cons]
      cases hrun : run a with
      | error e' =>
          rw [(ha e').mp hrun]
          exact ⟨fun h => (by cases h; rfl), fun h => (by cases h; rfl)⟩
      | ok b =>
          have hnone : failure a = none := by
            refine Option.eq_none_iff_forall_ne_some.mpr fun e' he' => ?_
            rw [(ha e').mpr he'] at hrun
            cases hrun
          rw [hnone]
          show _ ↔ rest.findSome? failure = some e
          rw [← hrest]
          cases rest.mapM run with
          | error e' => exact Iff.rfl
          | ok bs => exact ⟨fun h => (by cases h), fun h => (by cases h)⟩

theorem exists_of_firstFailure {sched : Schedule} {run : α → Except ε β} {tasks : List α} {e : ε}
    (h : firstFailure sched run tasks = some e) : ∃ a ∈ tasks, run a = .error e := by
  obtain ⟨i, -, hi⟩ := List.exists_of_findSome?_eq_some h
  cases htask : tasks[i]? with
  | none =>
      rw [htask] at hi
      cases hi
  | some a =>
      rw [htask, Option.map_some] at hi
      refine ⟨a, List.mem_of_getElem? htask, ?_⟩
      cases hrun : run a with
      | ok b => rw [hrun] at hi; cases hi
      | error e' => rw [hrun] at hi; cases hi; rfl

/-- What is reported is what some task failed with. -/
theorem exists_of_parallelCollect_error {sched : Schedule} {run : α → Except ε β} {tasks : List α}
    {e : ε} (h : parallelCollect sched run tasks = .error e) : ∃ a ∈ tasks, run a = .error e := by
  unfold parallelCollect at h
  cases hfirst : firstFailure sched run tasks with
  | none =>
      rw [hfirst] at h
      cases h
  | some e' =>
      rw [hfirst] at h
      cases h
      exact exists_of_firstFailure hfirst

/-- **Where all failures are one, it does not matter which is reported.** -/
theorem parallelCollect_eq_mapM (sched : Schedule) {run : α → Except ε β} {tasks : List α}
    (hone : ∀ a ∈ tasks, ∀ b ∈ tasks, ∀ e e', run a = .error e → run b = .error e' → e = e') :
    parallelCollect sched run tasks = tasks.mapM run := by
  cases hseq : tasks.mapM run with
  | ok bs => exact (parallelCollect_ok_iff _).mpr (mapM_ok_iff.mp hseq)
  | error e =>
      obtain ⟨a, ha, hrun⟩ := exists_of_mapM_error hseq
      cases hcollect : parallelCollect sched run tasks with
      | ok bs =>
          obtain ⟨b, -, hb⟩ := exists_mem_of_forall₂ (parallelCollect_ok hcollect).flip a ha
          rw [hb] at hrun
          cases hrun
      | error e' =>
          obtain ⟨a', ha', hrun'⟩ := exists_of_parallelCollect_error hcollect
          exact congrArg Except.error (hone a' ha' a ha e' e hrun' hrun)

/-- The schedule in which task `k` is done first. -/
def Schedule.startingWith (k : Nat) : Schedule where
  order := fun n => if k < n then k :: (List.range n).erase k else List.range n
  perm := by
    intro n
    split
    · next hk => exact (List.perm_cons_erase (List.mem_range.mpr hk)).symm
    · exact .refl _

theorem parallelCollect_startingWith {run : α → Except ε β} {tasks : List α} {k : Nat} {a : α}
    {e : ε} (hk : tasks[k]? = some a) (hrun : run a = .error e) :
    parallelCollect (.startingWith k) run tasks = .error e := by
  have hlt : k < tasks.length := (List.getElem?_eq_some_iff.mp hk).1
  have hfirst : firstFailure (.startingWith k) run tasks = some e := by
    unfold firstFailure Schedule.startingWith
    simp only [if_pos hlt, List.findSome?_cons, hk, Option.map_some, hrun]
  unfold parallelCollect
  rw [hfirst]

end

end Lib
