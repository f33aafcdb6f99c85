import Mathlib.Data.List.Range
import Padhai.Threads.Impl.AlternatePrint

/-!
This module contains that the threads of `alternate_print.c` take turns, whatever wakes them up.
-/

namespace AlternatePrint

open Threads

variable {limit v w : Nat} {s t : State} {i j : Thread} {a : Action}

section Turn

def turn (v : Nat) : Thread :=
  if v % 2 = 0 then .odd else .even

theorem eq_turn_succ_iff : i = turn (v + 1) ↔ i ≠ turn v := by
  unfold turn
  cases i
  all_goals
    split
    . split
      . omega
      . simp
    . split
      . simp
      . omega

theorem turn_succ_ne : turn (v + 1) ≠ turn v :=
  eq_turn_succ_iff.mp rfl

theorem turn_add_two : turn (v + 2) = turn v := by
  simp [turn]

theorem eq_of_turn_ne (h : i ≠ turn v) (h' : j ≠ turn v) : i = j := by
  rw [eq_turn_succ_iff.mpr h, eq_turn_succ_iff.mpr h']

end Turn

section Cases

def shown (s : State) (i : Thread) : List Event :=
  if s.place i = .woken then [.printed i s.globalCount] else []

def State.waits (s : State) (i : Thread) : State :=
  { s with
    place := Function.update s.place i .waiting
    log := s.log ++ shown s i ++ [.waited i s.globalCount] }

def State.counts (limit : Nat) (s : State) (i : Thread) : State where
  globalCount := s.globalCount + 1
  place := Function.update (wakeAll s.place) i (if s.globalCount + 1 > limit then .returned else .start)
  log := s.log ++ shown s i ++ [.incremented i s.globalCount]

def State.woken (s : State) (i : Thread) : State :=
  { s with place := Function.update s.place i .woken }

section Projections

@[simp]
theorem waits_globalCount : (s.waits i).globalCount = s.globalCount := rfl

@[simp]
theorem waits_place : (s.waits i).place = Function.update s.place i .waiting := rfl

@[simp]
theorem waits_log : (s.waits i).log = s.log ++ shown s i ++ [.waited i s.globalCount] := rfl

@[simp]
theorem counts_globalCount : (s.counts limit i).globalCount = s.globalCount + 1 := rfl

@[simp]
theorem counts_place : (s.counts limit i).place = Function.update (wakeAll s.place) i
    (if s.globalCount + 1 > limit then .returned else .start) := rfl

@[simp]
theorem counts_log : (s.counts limit i).log = s.log ++ shown s i ++ [.incremented i s.globalCount] := rfl

@[simp]
theorem woken_globalCount : (s.woken i).globalCount = s.globalCount := rfl

@[simp]
theorem woken_place : (s.woken i).place = Function.update s.place i .woken := rfl

end Projections

theorem step_run : step limit s (.run i) = alternate (fun v => decide (i ≠ turn v)) limit i s := by
  cases i with
  | odd =>
    simp only [step, oddThread]
    congr 1
    funext v
    rw [Bool.eq_iff_iff]
    simp [turn]
  | even =>
    simp only [step, evenThread]
    congr 1
    funext v
    rw [Bool.eq_iff_iff]
    simp [turn]

theorem alternate_eq_some_iff {mustWait : Nat → Bool}
    : alternate mustWait limit i s = some t ↔ (s.place i = .start ∨ s.place i = .woken)
      ∧ t = work mustWait limit i { s with log := s.log ++ shown s i } := by
  unfold alternate shown
  cases hi : s.place i
  all_goals simp [eq_comm]

theorem step_cases (h : step limit s a = some t)
    : (∃ i, (s.place i = .start ∨ s.place i = .woken) ∧ i ≠ turn s.globalCount ∧ t = s.waits i)
      ∨ (∃ i, (s.place i = .start ∨ s.place i = .woken) ∧ i = turn s.globalCount
        ∧ t = s.counts limit i)
      ∨ (∃ i, a = .spurious i ∧ s.place i = .waiting ∧ t = s.woken i) := by
  cases a with
  | run i =>
    rw [step_run, alternate_eq_some_iff] at h
    obtain ⟨hi, rfl⟩ := h
    by_cases hturn : i = turn s.globalCount
    . exact .inr (.inl ⟨i, hi, hturn, by simp [work, hturn, State.counts]⟩)
    . exact .inl ⟨i, hi, hturn, by simp [work, hturn, State.waits]⟩
  | spurious i =>
    obtain ⟨place, hplace, h⟩ := Option.bind_eq_some_iff.mp h
    cases h
    obtain ⟨hi, rfl⟩ := wakeOne_eq_some_iff.mp hplace
    exact .inr (.inr ⟨i, rfl, hi, rfl⟩)

end Cases

section Alternation

def Event.increment? : Event → Option (Thread × Nat)
  | .incremented i v => some (i, v)
  | _ => none

def increments (log : List Event) : List (Thread × Nat) :=
  log.filterMap Event.increment?

structure StrictAlternation (limit : Nat) (s : State) : Prop where
  alternating : (increments s.log).IsChain fun e e' => e.1 ≠ e'.1
  even_of_odd : ∀ v, (.odd, v) ∈ increments s.log → v % 2 = 0
  odd_of_even : ∀ v, (.even, v) ∈ increments s.log → v % 2 = 1
  notBothBlocked : ¬(s.place .odd = .waiting ∧ s.place .even = .waiting)
  notLeft : ∀ i j, i ≠ j → s.place i = .waiting → s.place j ≠ .returned
  count_le : s.globalCount ≤ limit + 2
  count_eq : (∀ i, s.place i = .returned) → s.globalCount = limit + 2

/--
The thread whose turn it is is not blocked, and a thread has returned once it has counted from `limit`
or more.
-/
structure Turns (limit : Nat) (s : State) : Prop where
  increments : increments s.log = (List.range s.globalCount).map fun v => (turn v, v)
  waiting : ∀ i, s.place i = .waiting → i ≠ turn s.globalCount
  returned : ∀ i, s.place i = .returned ↔ ∃ v, limit ≤ v ∧ v < s.globalCount ∧ i = turn v
  count_le : s.globalCount ≤ limit + 2

theorem turns_main : Turns limit main := by
  refine ⟨rfl, ?_, ?_, ?_⟩
  . simp [main]
  . simp [main]
  . simp [main]

@[simp]
theorem increments_append {old new : List Event}
    : increments (old ++ new) = increments old ++ increments new :=
  List.filterMap_append

@[simp]
theorem increments_shown : increments (shown s i) = [] := by
  unfold shown
  split
  . rfl
  . rfl

@[simp]
theorem increments_waited : increments [.waited i v] = [] := rfl

@[simp]
theorem increments_incremented : increments [.incremented i v] = [(i, v)] := rfl

theorem Turns.waits (hs : Turns limit s) (hi : s.place i = .start ∨ s.place i = .woken)
    (hturn : i ≠ turn s.globalCount) : Turns limit (s.waits i) := by
  refine ⟨?_, ?_, ?_, hs.count_le⟩
  . simp [hs.increments]
  . intro j hj
    by_cases hji : j = i
    . rwa [hji]
    . exact hs.waiting j (by simpa [hji] using hj)
  . intro j
    rw [waits_globalCount, ← hs.returned]
    by_cases hji : j = i
    . rcases hi with hi | hi
      . simp [hji, hi]
      . simp [hji, hi]
    . simp [hji]

theorem Turns.woken (hs : Turns limit s) (hi : s.place i = .waiting) : Turns limit (s.woken i) := by
  refine ⟨hs.increments, ?_, ?_, hs.count_le⟩
  . intro j hj
    by_cases hji : j = i
    . simp [hji] at hj
    . exact hs.waiting j (by simpa [hji] using hj)
  . intro j
    rw [woken_globalCount, ← hs.returned]
    by_cases hji : j = i
    . simp [hji, hi]
    . simp [hji]

theorem Turns.counts_returned (hs : Turns limit s) (hturn : i = turn s.globalCount) (j : Thread)
    : (s.counts limit i).place j = .returned
      ↔ ∃ v, limit ≤ v ∧ v < s.globalCount + 1 ∧ j = turn v := by
  rw [counts_place]
  by_cases hji : j = i
  . rw [hji, Function.update_self]
    constructor
    . intro h
      split at h
      . next hlimit => exact ⟨s.globalCount, by omega, by omega, hturn⟩
      . contradiction
    . rintro ⟨v, hle, hlt, -⟩
      rw [if_pos (by omega)]
  . rw [Function.update_of_ne hji, wakeAll_eq_returned_iff, hs.returned]
    constructor
    . rintro ⟨v, hle, hlt, hj⟩
      exact ⟨v, hle, by omega, hj⟩
    . rintro ⟨v, hle, hlt, hj⟩
      have hne : v ≠ s.globalCount := by
        intro hv
        exact hji (by rw [hj, hturn, hv])
      exact ⟨v, hle, by omega, hj⟩

theorem counts_not_waiting (j : Thread) : (s.counts limit i).place j ≠ .waiting := by
  rw [counts_place]
  by_cases hji : j = i
  . rw [hji, Function.update_self]
    split
    . simp
    . simp
  . simp [hji]

theorem Turns.counts (hs : Turns limit s) (hi : s.place i = .start ∨ s.place i = .woken)
    (hturn : i = turn s.globalCount) : Turns limit (s.counts limit i) := by
  refine ⟨?_, fun j hj => absurd hj (counts_not_waiting j), hs.counts_returned hturn, ?_⟩
  . simp [hs.increments, List.range_succ, hturn]
  . -- At `limit + 2` the thread would have returned already.
    have hne : s.globalCount ≠ limit + 2 := by
      intro hcount
      have hreturned : s.place i = .returned := by
        rw [hs.returned]
        exact ⟨limit, by omega, by omega, by rw [hturn, hcount, turn_add_two]⟩
      simp [hreturned] at hi
    have := hs.count_le
    rw [counts_globalCount]
    omega

theorem turns_of_reachable (h : Reachable (step limit) Anything main s) : Turns limit s := by
  apply h.invariant turns_main
  intro s a t hs _ ha
  rcases step_cases ha with ⟨i, hi, hturn, rfl⟩ | ⟨i, hi, hturn, rfl⟩ | ⟨i, -, hi, rfl⟩
  . exact hs.waits hi hturn
  . exact hs.counts hi hturn
  . exact hs.woken hi

theorem Turns.mem_increments (hs : Turns limit s) (h : (i, v) ∈ AlternatePrint.increments s.log) : i = turn v := by
  rw [hs.increments, List.mem_map] at h
  obtain ⟨w, -, heq⟩ := h
  cases heq
  rfl

theorem Turns.eq_of_waiting (hs : Turns limit s) (hi : s.place i = .waiting) (hj : s.place j = .waiting)
    : i = j :=
  eq_of_turn_ne (hs.waiting i hi) (hs.waiting j hj)

/--
One thread counts from `limit`, the other one from `limit + 1`.
-/
theorem Turns.count_eq (hs : Turns limit s) (h : s.place (turn (limit + 1)) = .returned)
    : s.globalCount = limit + 2 := by
  obtain ⟨v, hle, hlt, hv⟩ := (hs.returned _).mp h
  have := hs.count_le
  rcases Nat.eq_or_lt_of_le hle with rfl | hlt'
  . exact absurd hv turn_succ_ne
  . omega

theorem Turns.not_returned_of_waiting (hs : Turns limit s) (hij : i ≠ j) (hi : s.place i = .waiting)
    : s.place j ≠ .returned := by
  intro hj
  obtain ⟨v, hle, hlt, hv⟩ := (hs.returned j).mp hj
  have hturn : j = turn s.globalCount := by
    by_contra hne
    exact hij (eq_of_turn_ne (hs.waiting i hi) hne)
  have hne : s.globalCount ≠ v + 1 := by
    intro heq
    exact turn_succ_ne (by rw [← hv, ← heq, hturn])
  -- It is the turn of `j` again, so `i` has counted from `v + 1` and returned.
  have hreturned : s.place i = .returned := by
    rw [hs.returned]
    refine ⟨v + 1, by omega, by omega, ?_⟩
    rw [eq_turn_succ_iff, ← hv]
    exact hij
  rw [hi] at hreturned
  contradiction

theorem strictAlternation (limit : Nat) (s : State) (h : Reachable (step limit) Anything main s)
    : StrictAlternation limit s := by
  have hs := turns_of_reachable h
  refine ⟨?_, ?_, ?_, ?_, fun i j => hs.not_returned_of_waiting, hs.count_le,
    fun hreturned => hs.count_eq (hreturned _)⟩
  . rw [hs.increments, List.isChain_map, List.isChain_range]
    intro v _
    exact turn_succ_ne.symm
  . intro v hv
    have := hs.mem_increments hv
    simpa [turn] using this
  . intro v hv
    have := hs.mem_increments hv
    simpa [turn] using this
  . rintro ⟨hodd, heven⟩
    exact absurd (hs.eq_of_waiting hodd heven) (by simp)

theorem strictAlternation_allReturned
    : ∃ s, schedule (step 1) [.run .odd, .run .odd, .spurious .odd, .run .even, .run .odd] main = some s
      ∧ StrictAlternation 1 s :=
  ⟨_, rfl, strictAlternation 1 _ (reachable_of_schedule
    [.run .odd, .run .odd, .spurious .odd, .run .even, .run .odd] (fun _ _ _ => trivial) rfl)⟩

end Alternation

end AlternatePrint
