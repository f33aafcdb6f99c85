import Mathlib.Algebra.BigOperators.Group.Finset.Piecewise
import Mathlib.Data.Int.Basic
import Mathlib.Logic.Relation
import Mathlib.Tactic.Common

/-!
This module contains programs of several threads. `step s a` is the state after the action `a`, or
`none` where the thread that `a` belongs to is blocked or has returned. A run takes any actions in any
order, as long as `P` admits each of them in the state it is taken in. A semaphore is its value, and
threads that share a mutex and a condition variable have a place each.
-/

namespace Threads

variable {σ α : Type} {step : σ → α → Option σ} {P Q : σ → α → Prop} {s t u : σ} {a : α}

def Next (step : σ → α → Option σ) (P : σ → α → Prop) (s t : σ) : Prop :=
  ∃ a, P s a ∧ step s a = some t

def Reachable (step : σ → α → Option σ) (P : σ → α → Prop) : σ → σ → Prop :=
  Relation.ReflTransGen (Next step P)

def Anything (_ : σ) (_ : α) : Prop := True

def schedule (step : σ → α → Option σ) : List α → σ → Option σ
  | [], s => some s
  | a :: as, s => (step s a).bind (schedule step as)

theorem Reachable.invariant {I : σ → Prop} (h : Reachable step P s t) (h0 : I s)
    (hstep : ∀ s a t, I s → P s a → step s a = some t → I t) : I t := by
  induction h with
  | refl => exact h0
  | tail _ hnext ih =>
    obtain ⟨a, hP, ha⟩ := hnext
    exact hstep _ _ _ ih hP ha

theorem Reachable.mono (h : Reachable step P s t)
    (hPQ : ∀ u a, Reachable step P s u → P u a → Q u a) : Reachable step Q s t := by
  induction h with
  | refl => exact .refl
  | tail hrun hnext ih =>
    obtain ⟨a, hP, ha⟩ := hnext
    exact ih.tail ⟨a, hPQ _ a hrun hP, ha⟩

theorem reachable_of_schedule (as : List α) (hP : ∀ s, ∀ a ∈ as, P s a)
    (h : schedule step as s = some t) : Reachable step P s t := by
  induction as generalizing s with
  | nil =>
    cases h
    exact .refl
  | cons a as ih =>
    obtain ⟨u, ha, hu⟩ := Option.bind_eq_some_iff.mp h
    exact .head ⟨a, hP s a (by simp), ha⟩ (ih (fun s b hb => hP s b (by simp [hb])) hu)

section Schedule

variable {A : α → Prop} {as bs : List α}

def Halted (step : σ → α → Option σ) (A : α → Prop) (s : σ) : Prop :=
  ∀ a, A a → step s a = none

theorem schedule_append
    : schedule step (as ++ bs) s = (schedule step as s).bind (schedule step bs) := by
  induction as generalizing s with
  | nil => rfl
  | cons a as ih =>
    rw [List.cons_append, schedule, schedule, Option.bind_assoc]
    congr 1
    funext u
    exact ih

theorem schedule_concat_eq_some_iff
    : schedule step (as ++ [a]) s = some t ↔ ∃ u, schedule step as s = some u ∧ step u a = some t := by
  rw [schedule_append, Option.bind_eq_some_iff]
  simp [schedule]

/--
An invariant that relates the state to the actions taken so far.
-/
theorem schedule_invariant {R : List α → σ → Prop} (h0 : R [] s)
    (hstep : ∀ as u a t, R as u → A a → step u a = some t → R (as ++ [a]) t)
    (hA : ∀ a ∈ as, A a) (h : schedule step as s = some t) : R as t := by
  induction as using List.reverseRecOn generalizing t with
  | nil =>
    cases h
    exact h0
  | append_singleton as a ih =>
    obtain ⟨u, hu, ha⟩ := schedule_concat_eq_some_iff.mp h
    have hbefore := ih (fun b hb => hA b (List.mem_append_left _ hb)) hu
    exact hstep as u a t hbefore (hA a (by simp)) ha

/--
Where every step raises `m`, which is bounded, a run can only be continued until nothing more can happen.
-/
theorem exists_halted {I : σ → Prop} {m : σ → Nat} {n : Nat} (hI : I s) (hbound : ∀ u, I u → m u ≤ n)
    (hstep : ∀ u a t, I u → A a → step u a = some t → I t ∧ m u < m t)
    : ∃ bs t, (∀ b ∈ bs, A b) ∧ schedule step bs s = some t ∧ Halted step A t := by
  induction hroom : n - m s using Nat.strongRecOn generalizing s with
  | _ k ih =>
    by_cases hhalted : Halted step A s
    . exact ⟨[], s, by simp, rfl, hhalted⟩
    . simp only [Halted, not_forall] at hhalted
      obtain ⟨a, ha, hsome⟩ := hhalted
      obtain ⟨u, hu⟩ := Option.ne_none_iff_exists'.mp hsome
      obtain ⟨hIu, hlt⟩ := hstep s a u hI ha hu
      have hle := hbound u hIu
      obtain ⟨bs, t, hbs, ht, hdone⟩ := ih (n - m u) (by omega) hIu rfl
      refine ⟨a :: bs, t, List.forall_mem_cons.mpr ⟨ha, hbs⟩, ?_, hdone⟩
      rw [schedule, hu]
      exact ht

end Schedule

section Semaphore

def semWait : Nat → Option Nat
  | 0 => none
  | n + 1 => some n

def semPost (n : Nat) : Nat := n + 1

theorem semWait_eq_some_iff {m n : Nat} : semWait n = some m ↔ n = m + 1 := by
  cases n <;> simp [semWait, eq_comm]

theorem semWait_eq_none_iff {n : Nat} : semWait n = none ↔ n = 0 := by
  cases n <;> simp [semWait]

end Semaphore

section Update

variable {ι β M : Type} [DecidableEq ι]

theorem forall_update {R : β → Prop} {f : ι → β} {i : ι} {v : β} (h : ∀ j, R (f j)) (hv : R v)
    : ∀ j, R (Function.update f i v j) := by
  intro j
  rw [Function.update_apply]
  split
  . exact hv
  . exact h j

variable [Fintype ι] [AddCommMonoid M]

/--
How a sum over all threads changes when the thread `i` moves on to `v`.
-/
theorem sum_update (g : β → M) (f : ι → β) (i : ι) (v : β)
    : ∑ j, g (Function.update f i v j) + g (f i) = ∑ j, g (f j) + g v := by
  have hupdate : ∑ j, g (Function.update f i v j) = g v + ∑ j ∈ Finset.univ \ {i}, g (f j) := by
    rw [← Finset.sum_update_of_mem (Finset.mem_univ i), ← Function.comp_def g f,
      ← Function.comp_update]
    rfl
  rw [hupdate, Finset.sum_eq_add_sum_sdiff_singleton_of_mem (Finset.mem_univ i) (fun j => g (f j))]
  ac_rfl

end Update

section CondVar

/--
Where a thread stands that does not hold the mutex: before it locks it, blocked in
`pthread_cond_wait`, woken there but without the mutex yet, or returned.
-/
inductive Place where
  | start
  | waiting
  | woken
  | returned
  deriving DecidableEq, Repr

variable {ι : Type} {place place' : ι → Place} {i j : ι}

def wakeAll (place : ι → Place) (i : ι) : Place :=
  if place i = .waiting then .woken else place i

@[simp]
theorem wakeAll_ne_waiting : wakeAll place i ≠ .waiting := by
  unfold wakeAll
  split
  . simp
  . assumption

@[simp]
theorem wakeAll_eq_start_iff : wakeAll place i = .start ↔ place i = .start := by
  unfold wakeAll
  split
  . next h => simp [h]
  . rfl

@[simp]
theorem wakeAll_eq_returned_iff : wakeAll place i = .returned ↔ place i = .returned := by
  unfold wakeAll
  split
  . next h => simp [h]
  . rfl

@[simp]
theorem wakeAll_eq_woken_iff : wakeAll place i = .woken ↔ place i = .waiting ∨ place i = .woken := by
  unfold wakeAll
  split
  . next h => simp [h]
  . next h => simp [h]

variable [DecidableEq ι]

def wakeOne (place : ι → Place) (i : ι) : Option (ι → Place) :=
  if place i = .waiting then some (Function.update place i .woken) else none

theorem wakeOne_eq_some_iff
    : wakeOne place i = some place' ↔ place i = .waiting ∧ place' = Function.update place i .woken := by
  unfold wakeOne
  split
  . next h => simp [h, eq_comm]
  . next h => simp [h]

end CondVar

end Threads
