import Mathlib.Algebra.BigOperators.Fin
import Mathlib.Algebra.Order.BigOperators.Group.Finset
import Padhai.Threads.Impl.ProdConsumer

/-!
This module contains what the semaphores of the producer/consumer program count: how often the
threads have waited for them and posted them. From it follows that the program cannot get stuck.
-/

namespace ProdConsumer

open Threads

variable {np nc : Nat} {s t : State np nc} {p : Fin np} {c : Fin nc}

section Cases

theorem produce_cases (h : produce s p = some t)
    : (∃ i n, s.producer p = ⟨i, .wait⟩ ∧ i ≤ 5 ∧ s.bufEmpty = n + 1
        ∧ t = { s with bufEmpty := n, producer := Function.update s.producer p ⟨i, .critical⟩ })
      ∨ (∃ i, s.producer p = ⟨i, .critical⟩
        ∧ t = { s with
          buffer := Function.update s.buffer i i
          producer := Function.update s.producer p ⟨i, .post⟩
          log := s.log ++ [.produced p i i] })
      ∨ (∃ i, s.producer p = ⟨i, .post⟩
        ∧ t = { s with
          bufFull := s.bufFull + 1
          producer := Function.update s.producer p ⟨i + 1, .wait⟩ }) := by
  rcases hp : s.producer p with ⟨i, point⟩
  simp only [produce, hp] at h
  cases point with
  | wait =>
    dsimp only at h
    split at h
    . next hi =>
      obtain ⟨n, hn, h⟩ := Option.bind_eq_some_iff.mp h
      cases h
      exact .inl ⟨i, n, rfl, hi, semWait_eq_some_iff.mp hn, rfl⟩
    . contradiction
  | critical =>
    simp only [Function.update_self, Option.some.injEq] at h
    exact .inr (.inl ⟨i, rfl, h.symm⟩)
  | post =>
    simp only [semPost, Option.some.injEq] at h
    exact .inr (.inr ⟨i, rfl, h.symm⟩)

theorem consume_cases (h : consume s c = some t)
    : (∃ i n, s.consumer c = ⟨i, .wait⟩ ∧ 0 ≤ i ∧ s.bufFull = n + 1
        ∧ t = { s with bufFull := n, consumer := Function.update s.consumer c ⟨i, .critical⟩ })
      ∨ (∃ i, s.consumer c = ⟨i, .critical⟩
        ∧ t = { s with
          buffer := Function.update s.buffer i i
          consumer := Function.update s.consumer c ⟨i, .post⟩
          log := s.log ++ [.consumed c i i] })
      ∨ (∃ i, s.consumer c = ⟨i, .post⟩
        ∧ t = { s with
          bufEmpty := s.bufEmpty + 1
          consumer := Function.update s.consumer c ⟨i - 1, .wait⟩ }) := by
  rcases hc : s.consumer c with ⟨i, point⟩
  simp only [consume, hc] at h
  cases point with
  | wait =>
    dsimp only at h
    split at h
    . next hi =>
      obtain ⟨n, hn, h⟩ := Option.bind_eq_some_iff.mp h
      cases h
      exact .inl ⟨i, n, rfl, hi, semWait_eq_some_iff.mp hn, rfl⟩
    . contradiction
  | critical =>
    simp only [Function.update_self, Option.some.injEq] at h
    exact .inr (.inl ⟨i, rfl, h.symm⟩)
  | post =>
    simp only [semPost, Option.some.injEq] at h
    exact .inr (.inr ⟨i, rfl, h.symm⟩)

end Cases

section Count

def Thread.inside (t : Thread) : Int :=
  if t.point = .wait then 0 else 1

@[simp]
theorem inside_wait {i : Int} : (⟨i, .wait⟩ : Thread).inside = 0 := rfl

@[simp]
theorem inside_critical {i : Int} : (⟨i, .critical⟩ : Thread).inside = 1 := rfl

@[simp]
theorem inside_post {i : Int} : (⟨i, .post⟩ : Thread).inside = 1 := rfl

def Thread.Producing (t : Thread) : Prop :=
  0 ≤ t.i ∧ t.i + t.inside ≤ 6

def Thread.Consuming (t : Thread) : Prop :=
  t.i ≤ 5 ∧ t.inside ≤ t.i + 1

/--
A thread has waited as often as it has posted, and once more while it is inside an iteration. Its
index tells how often it has posted.
-/
structure Counts (s : State np nc) : Prop where
  empty : s.bufEmpty + ∑ p, ((s.producer p).i + (s.producer p).inside)
    = 5 + ∑ c, (5 - (s.consumer c).i)
  full : s.bufFull + ∑ c, (5 - (s.consumer c).i + (s.consumer c).inside)
    = 1 + ∑ p, (s.producer p).i
  producer : ∀ p, (s.producer p).Producing
  consumer : ∀ c, (s.consumer c).Consuming

theorem counts_main : Counts (main np nc) := by
  refine ⟨?_, ?_, fun p => ?_, fun c => ?_⟩
  . simp [main, Thread.inside]
  . simp [main, Thread.inside]
  . simp [main, Thread.Producing]
  . simp [main, Thread.Consuming]

theorem Counts.of_producer {v : Thread} (hs : Counts s) (hp : t.producer = Function.update s.producer p v)
    (hc : t.consumer = s.consumer) (hv : v.Producing)
    (hempty : t.bufEmpty + (v.i + v.inside)
      = s.bufEmpty + ((s.producer p).i + (s.producer p).inside))
    (hfull : t.bufFull + (s.producer p).i = s.bufFull + v.i) : Counts t := by
  obtain ⟨hempty', hfull', hproducer, hconsumer⟩ := hs
  have hwaits := sum_update (fun t : Thread => t.i + t.inside) s.producer p v
  have hposts := sum_update Thread.i s.producer p v
  refine ⟨?_, ?_, ?_, ?_⟩
  . rw [hp, hc]
    omega
  . rw [hp, hc]
    omega
  . rw [hp]
    exact forall_update hproducer hv
  . rwa [hc]

theorem Counts.of_consumer {v : Thread} (hs : Counts s) (hp : t.producer = s.producer)
    (hc : t.consumer = Function.update s.consumer c v) (hv : v.Consuming)
    (hempty : t.bufEmpty + v.i = s.bufEmpty + (s.consumer c).i)
    (hfull : t.bufFull + (s.consumer c).i + v.inside
      = s.bufFull + v.i + (s.consumer c).inside) : Counts t := by
  obtain ⟨hempty', hfull', hproducer, hconsumer⟩ := hs
  have hwaits := sum_update (fun t : Thread => 5 - t.i + t.inside) s.consumer c v
  have hposts := sum_update (fun t : Thread => 5 - t.i) s.consumer c v
  refine ⟨?_, ?_, ?_, ?_⟩
  . rw [hp, hc]
    omega
  . rw [hp, hc]
    omega
  . rwa [hp]
  . rw [hc]
    exact forall_update hconsumer hv

theorem Counts.produce (hs : Counts s) (h : produce s p = some t) : Counts t := by
  have hp := hs.producer p
  rcases produce_cases h with ⟨i, n, hi, hle, hn, rfl⟩ | ⟨i, hi, rfl⟩ | ⟨i, hi, rfl⟩
  . refine hs.of_producer (p := p) (v := ⟨i, .critical⟩) rfl rfl ?_ ?_ ?_
    all_goals simp only [hi, Thread.Producing, inside_wait, inside_critical] at hp ⊢
    . omega
    . omega
  . refine hs.of_producer (p := p) (v := ⟨i, .post⟩) rfl rfl ?_ ?_ ?_
    all_goals simp only [hi, Thread.Producing, inside_critical, inside_post] at hp ⊢
    . omega
  . refine hs.of_producer (p := p) (v := ⟨i + 1, .wait⟩) rfl rfl ?_ ?_ ?_
    all_goals simp only [hi, Thread.Producing, inside_post, inside_wait] at hp ⊢
    . omega
    . omega
    . omega

theorem Counts.consume (hs : Counts s) (h : consume s c = some t) : Counts t := by
  have hc := hs.consumer c
  rcases consume_cases h with ⟨i, n, hi, hle, hn, rfl⟩ | ⟨i, hi, rfl⟩ | ⟨i, hi, rfl⟩
  . refine hs.of_consumer (c := c) (v := ⟨i, .critical⟩) rfl rfl ?_ ?_ ?_
    all_goals simp only [hi, Thread.Consuming, inside_wait, inside_critical] at hc ⊢
    . omega
    . omega
  . refine hs.of_consumer (c := c) (v := ⟨i, .post⟩) rfl rfl ?_ ?_ ?_
    all_goals simp only [hi, Thread.Consuming, inside_critical, inside_post] at hc ⊢
    . omega
  . refine hs.of_consumer (c := c) (v := ⟨i - 1, .wait⟩) rfl rfl ?_ ?_ ?_
    all_goals simp only [hi, Thread.Consuming, inside_post, inside_wait] at hc ⊢
    . omega
    . omega
    . omega

theorem counts_of_reachable (h : Reachable step Anything (main np nc) s) : Counts s := by
  apply h.invariant counts_main
  intro s a t hs _ ha
  cases a with
  | producer p => exact hs.produce ha
  | consumer c => exact hs.consume ha

end Count

section Progress

def Finished (s : State np nc) : Prop :=
  (∀ p, s.producer p = ⟨6, .wait⟩) ∧ ∀ c, s.consumer c = ⟨-1, .wait⟩

def Stuck (s : State np nc) : Prop :=
  ∀ a, step s a = none

theorem producer_of_stuck (hs : Stuck s) (p : Fin np)
    : (s.producer p).point = .wait ∧ (5 < (s.producer p).i ∨ s.bufEmpty = 0) := by
  have h := hs (.producer p)
  rcases hp : s.producer p with ⟨i, point⟩
  simp only [step, produce, hp] at h
  cases point with
  | wait =>
    dsimp only at h
    split at h
    . refine ⟨rfl, .inr ?_⟩
      cases hwait : semWait s.bufEmpty with
      | none => exact semWait_eq_none_iff.mp hwait
      | some n =>
        rw [hwait] at h
        cases h
    . next hi => exact ⟨rfl, .inl (Int.not_le.mp hi)⟩
  | critical => contradiction
  | post => contradiction

theorem consumer_of_stuck (hs : Stuck s) (c : Fin nc)
    : (s.consumer c).point = .wait ∧ ((s.consumer c).i < 0 ∨ s.bufFull = 0) := by
  have h := hs (.consumer c)
  rcases hc : s.consumer c with ⟨i, point⟩
  simp only [step, consume, hc] at h
  cases point with
  | wait =>
    dsimp only at h
    split at h
    . refine ⟨rfl, .inr ?_⟩
      cases hwait : semWait s.bufFull with
      | none => exact semWait_eq_none_iff.mp hwait
      | some n =>
        rw [hwait] at h
        cases h
    . next hi => exact ⟨rfl, .inl (Int.not_le.mp hi)⟩
  | critical => contradiction
  | post => contradiction

variable {P : Nat} {s : State P P}

theorem sum_le (f : Fin P → Int) (h : ∀ j, f j ≤ 6) : ∑ j, f j ≤ 6 * P := by
  have := Finset.sum_le_sum fun j (_ : j ∈ Finset.univ) => h j
  simp at this
  omega

theorem sum_eq (f : Fin P → Int) (h : ∀ j, f j = 6) : ∑ j, f j = 6 * P := by
  simp [h, Int.mul_comm]

section Stuck

variable (hs : Counts s) (h : Stuck s)
include hs h

theorem empty_of_stuck : s.bufEmpty + ∑ p, (s.producer p).i = 5 + ∑ c, (5 - (s.consumer c).i) := by
  rw [← hs.empty]
  congr 1
  exact Finset.sum_congr rfl fun p _ => by simp [Thread.inside, (producer_of_stuck h p).1]

theorem full_of_stuck : s.bufFull + ∑ c, (5 - (s.consumer c).i) = 1 + ∑ p, (s.producer p).i := by
  rw [← hs.full]
  congr 1
  exact Finset.sum_congr rfl fun c _ => by simp [Thread.inside, (consumer_of_stuck h c).1]

theorem producer_le_of_stuck (p : Fin P) : (s.producer p).i ≤ 6 := by
  have := (hs.producer p).2
  simp [Thread.inside, (producer_of_stuck h p).1] at this
  exact this

theorem consumer_le_of_stuck (c : Fin P) : 5 - (s.consumer c).i ≤ 6 := by
  have := (hs.consumer c).2
  simp [Thread.inside, (consumer_of_stuck h c).1] at this
  omega

theorem producer_done_of_stuck (hempty : s.bufEmpty ≠ 0) (p : Fin P) : (s.producer p).i = 6 := by
  have := producer_le_of_stuck hs h p
  have := (producer_of_stuck h p).2.resolve_right hempty
  omega

theorem consumer_done_of_stuck (hfull : s.bufFull ≠ 0) (c : Fin P) : 5 - (s.consumer c).i = 6 := by
  have := consumer_le_of_stuck hs h c
  have := (consumer_of_stuck h c).2.resolve_right hfull
  omega

/--
The semaphores add up to 6, so one of them is not 0 and one side has returned. That side has not run
out of partners, so the other semaphore is not 0 either.
-/
theorem finished_of_stuck : Finished s := by
  have hempty := empty_of_stuck hs h
  have hfull := full_of_stuck hs h
  have hle := sum_le _ (producer_le_of_stuck hs h)
  have hle' := sum_le _ (consumer_le_of_stuck hs h)
  have hne : s.bufEmpty ≠ 0 := by
    intro h0
    have := sum_eq _ (consumer_done_of_stuck hs h (by omega))
    omega
  have hne' : s.bufFull ≠ 0 := by
    intro h0
    have := sum_eq _ (producer_done_of_stuck hs h hne)
    omega
  constructor
  . intro p
    rw [← producer_done_of_stuck hs h hne p, ← (producer_of_stuck h p).1]
  . intro c
    have := consumer_done_of_stuck hs h hne' c
    have hi : (s.consumer c).i = -1 := by
      omega
    rw [← hi, ← (consumer_of_stuck h c).1]

end Stuck

theorem finished_or_step (P : Nat) (s : State P P) (h : Reachable step Anything (main P P) s)
    : Finished s ∨ ∃ a t, step s a = some t := by
  by_cases hstuck : Stuck s
  . exact .inl (finished_of_stuck (counts_of_reachable h) hstuck)
  . right
    simp only [Stuck, not_forall] at hstuck
    obtain ⟨a, ha⟩ := hstuck
    exact ⟨a, Option.ne_none_iff_exists'.mp ha⟩

theorem finished_or_step_main
    : Finished (main 1 1) ∨ ∃ a t, step (main 1 1) a = some t :=
  finished_or_step 1 (main 1 1) .refl

end Progress

end ProdConsumer
