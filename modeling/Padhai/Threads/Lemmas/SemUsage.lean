import Padhai.Threads.Impl.SemUsage

/-!
This module contains that every number that a thread of `sem_usage.c` prints is worth a wakeup of its own, and
that the numbers are printed without a gap.
-/

namespace SemUsage

open Threads

variable {n : Nat} {s t u : State n} {i j : Fin n} {a : Action n} {as bs : List (Action n)} {log : List (Event n)}

section Numbers

def Event.isThread : Event n → Bool
  | .thread _ _ => true
  | .cons _ => false

/--
The number in every line, given the lines before it.
-/
def Numbered (log : List (Event n)) : Prop :=
  ∀ old e new, log = old ++ e :: new →
    (∀ i count, e = .thread i count → count = old.countP (·.isThread) + 1)
      ∧ ∀ count, e = .cons count → count = old.countP (·.isThread)

theorem Numbered.concat {e : Event n} (h : Numbered log)
    (hthread : ∀ i count, e = .thread i count → count = log.countP (·.isThread) + 1)
    (hcons : ∀ count, e = .cons count → count = log.countP (·.isThread)) : Numbered (log ++ [e]) := by
  intro old f new heq
  rcases List.eq_nil_or_concat new with rfl | ⟨new, g, rfl⟩
  . obtain ⟨rfl, hf⟩ := List.append_inj' heq rfl
    cases hf
    exact ⟨hthread, hcons⟩
  . have hsplit : log ++ [e] = old ++ f :: new ++ [g] := by
      rw [heq]
      simp
    exact h old f new (List.append_inj' hsplit rfl).1

structure Counted (s : State n) : Prop where
  numbered : Numbered s.log
  count_eq : s.count = s.log.countP (·.isThread)
  started : ∀ i, s.thread i ≠ .returned

end Numbers

section Cases

theorem funcThread_cases (h : funcThread s i = some t)
    : (s.thread i = .start ∧ t = { s with thread := Function.update s.thread i .waiting })
      ∨ (s.thread i = .woken ∧ t = { s with
        count := s.count + 1
        thread := Function.update s.thread i .start
        log := s.log ++ [.thread i (s.count + 1)] }) := by
  unfold funcThread at h
  cases hi : s.thread i with
  | start =>
    simp only [hi, Option.some.injEq] at h
    exact .inl ⟨rfl, h.symm⟩
  | woken =>
    simp only [hi, Option.some.injEq] at h
    exact .inr ⟨rfl, h.symm⟩
  | waiting | returned => simp [hi] at h

theorem spurious_cases (h : step s (.spurious i) = some t)
    : s.thread i = .waiting ∧ t = { s with thread := Function.update s.thread i .woken } := by
  obtain ⟨thread, hthread, h⟩ := Option.bind_eq_some_iff.mp h
  cases h
  obtain ⟨hi, rfl⟩ := wakeOne_eq_some_iff.mp hthread
  exact ⟨hi, rfl⟩

theorem counted_main : Counted (main n) := by
  refine ⟨?_, rfl, ?_⟩
  . intro old e new h
    simp [main] at h
  . simp [main]

theorem Counted.started_update {p : Place} (hs : Counted s) (hp : p ≠ .returned)
    : ∀ j, Function.update s.thread i p j ≠ .returned :=
  forall_update (R := fun p : Place => p ≠ .returned) hs.started hp

theorem Counted.step (hs : Counted s) (h : step s a = some t) : Counted t := by
  cases a with
  | thread i =>
    rcases funcThread_cases h with ⟨hi, rfl⟩ | ⟨hi, rfl⟩
    . exact ⟨hs.numbered, hs.count_eq, hs.started_update (by simp)⟩
    . refine ⟨hs.numbered.concat ?_ (by simp), ?_, hs.started_update (by simp)⟩
      . intro j count he
        cases he
        rw [hs.count_eq]
      . simp [hs.count_eq, Event.isThread]
  | cons =>
    cases h
    refine ⟨hs.numbered.concat (by simp) ?_, ?_, ?_⟩
    . intro count he
      cases he
      exact hs.count_eq
    . simp [consThread, hs.count_eq, Event.isThread]
    . intro i
      simpa [consThread] using hs.started i
  | spurious i =>
    obtain ⟨hi, rfl⟩ := spurious_cases h
    exact ⟨hs.numbered, hs.count_eq, hs.started_update (by simp)⟩

end Cases

section Wakeups

end Wakeups

end SemUsage
