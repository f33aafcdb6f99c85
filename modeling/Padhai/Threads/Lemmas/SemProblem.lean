import Mathlib.Algebra.BigOperators.Fin
import Mathlib.Algebra.Order.BigOperators.Group.Finset
import Padhai.Threads.Impl.SemProblem

/-!
This module contains when the producers of `sem_problem.c` meet: as long as none of them leaves its
wait before the broadcast. Then the rounds cannot stall either.
-/

namespace SemProblem

open Threads

variable {s t u : State} {i j : Fin 6} {a : Action} {log : List Event}

section Cases

theorem producerThread_cases (h : producerThread s i = some t)
    : (s.producer i = .start
        ∧ t = { s with
          cSem := if s.count + 1 = 6 then s.cSem + 1 else s.cSem
          count := s.count + 1
          producer := Function.update s.producer i .waiting
          log := s.log ++ [.arrived i] })
      ∨ (s.producer i = .woken
        ∧ t = { s with producer := Function.update s.producer i .start }) := by
  unfold producerThread at h
  split at h
  . next hi => exact .inl ⟨hi, (Option.some.inj h).symm⟩
  . contradiction
  . next hi => exact .inr ⟨hi, (Option.some.inj h).symm⟩
  . contradiction

theorem consumerThread_cases (h : consumerThread s = some t)
    : (s.consumer = .semWait ∧ ∃ n, s.cSem = n + 1 ∧ t = { s with cSem := n, consumer := .reset })
      ∨ (s.consumer = .reset
        ∧ t = { s with
          count := 0
          producer := wakeAll s.producer
          consumer := .semWait
          log := s.log ++ [.reset] }) := by
  unfold consumerThread at h
  split at h
  . next hc =>
    obtain ⟨n, hn, h⟩ := Option.bind_eq_some_iff.mp h
    exact .inl ⟨hc, n, semWait_eq_some_iff.mp hn, (Option.some.inj h).symm⟩
  . next hc => exact .inr ⟨hc, (Option.some.inj h).symm⟩

theorem spurious_cases (h : step s (.spurious i) = some t)
    : s.producer i = .waiting ∧ t = { s with producer := Function.update s.producer i .woken } := by
  obtain ⟨producer, hproducer, h⟩ := Option.bind_eq_some_iff.mp h
  obtain ⟨hi, rfl⟩ := wakeOne_eq_some_iff.mp hproducer
  exact ⟨hi, (Option.some.inj h).symm⟩

end Cases

section Arrivals

/--
How often the producer has incremented `count` since the last reset.
-/
def arrivals (log : List Event) (i : Fin 6) : Nat :=
  (log.reverse.takeWhile (· ≠ .reset)).count (.arrived i)

@[simp]
theorem arrivals_nil : arrivals [] i = 0 := rfl

@[simp]
theorem arrivals_append_reset : arrivals (log ++ [.reset]) i = 0 := by
  simp [arrivals]

theorem arrivals_append_arrived
    : arrivals (log ++ [.arrived j]) i = arrivals log i + if i = j then 1 else 0 := by
  simp [arrivals, List.count_cons, eq_comm (a := j)]

@[simp]
theorem arrivals_append_self : arrivals (log ++ [.arrived i]) i = arrivals log i + 1 := by
  simp [arrivals_append_arrived]

theorem arrivals_append_of_ne (h : i ≠ j) : arrivals (log ++ [.arrived j]) i = arrivals log i := by
  simp [arrivals_append_arrived, h]

theorem sum_arrivals_append : ∑ i, arrivals (log ++ [.arrived j]) i = ∑ i, arrivals log i + 1 := by
  simp [arrivals_append_arrived, Finset.sum_add_distrib]

end Arrivals

section Counted

/--
The consumer gets to its reset once in a round, after `count` has become 6.
-/
structure Counted (s : State) : Prop where
  count : s.count = ∑ i, arrivals s.log i
  cSem : s.cSem + (if s.consumer = .reset then 1 else 0) = if 6 ≤ s.count then 1 else 0

theorem counted_main : Counted main := by
  constructor
  . simp [main]
  . simp [main]

theorem Counted.step (hs : Counted s) (h : step s a = some t) : Counted t := by
  obtain ⟨hcount, hcSem⟩ := hs
  cases a with
  | producer i =>
    rcases producerThread_cases h with ⟨hi, rfl⟩ | ⟨hi, rfl⟩
    . constructor
      . rw [sum_arrivals_append, ← hcount]
      . dsimp only
        grind
    . exact ⟨hcount, hcSem⟩
  | consumer =>
    rcases consumerThread_cases h with ⟨hc, n, hn, rfl⟩ | ⟨hc, rfl⟩
    . refine ⟨hcount, ?_⟩
      simp only [hc, hn, reduceCtorEq, ↓reduceIte] at hcSem ⊢
      omega
    . constructor
      . simp
      . simp only [hc, reduceCtorEq, ↓reduceIte] at hcSem ⊢
        split at hcSem
        . simp
          omega
        . omega
  | spurious i =>
    obtain ⟨-, rfl⟩ := spurious_cases h
    exact ⟨hcount, hcSem⟩

theorem Counted.cSem_cases (hs : Counted s)
    : (s.cSem = 1 ∧ s.consumer = .semWait ∧ 6 ≤ s.count)
      ∨ (s.cSem = 0 ∧ s.consumer = .reset ∧ 6 ≤ s.count)
      ∨ (s.cSem = 0 ∧ s.consumer = .semWait ∧ s.count < 6) := by
  have hcSem := hs.cSem
  cases hc : s.consumer with
  | semWait =>
    rw [hc, if_neg (by simp)] at hcSem
    split at hcSem
    . next hcount => exact .inl ⟨hcSem, rfl, hcount⟩
    . next hcount => exact .inr (.inr ⟨hcSem, rfl, Nat.not_le.mp hcount⟩)
  | reset =>
    rw [hc, if_pos rfl] at hcSem
    split at hcSem
    . next hcount => exact .inr (.inl ⟨by omega, rfl, hcount⟩)
    . contradiction

end Counted

section Rendezvous

def Awaited (s : State) : Action → Prop
  | .producer i => s.producer i = .woken → arrivals s.log i = 0
  | _ => True

def NoSpurious (_ : State) (a : Action) : Prop :=
  ∀ i, a ≠ .spurious i

def NotReset (s : State) (a : Action) : Prop :=
  a = .consumer → s.consumer ≠ .reset

def Rendezvous (s : State) : Prop :=
  ∀ i, arrivals s.log i = 1 ∧ (s.producer i = .waiting ∨ s.producer i = .woken)

/--
How often a producer at the given place has arrived in the round.
-/
def InRound : Place → Nat → Prop
  | .start, n => n = 0
  | .waiting, n => n = 1
  | .woken, n => n ≤ 1
  | .returned, _ => False

def Rounds (s : State) : Prop :=
  ∀ i, InRound (s.producer i) (arrivals s.log i)

theorem InRound.le_one {p : Place} {n : Nat} (h : InRound p n) : n ≤ 1 := by
  cases p with
  | start => exact h.trans_le (Nat.zero_le 1)
  | waiting => exact h.le
  | woken => exact h
  | returned => contradiction

theorem InRound.waiting_or_woken {p : Place} (h : InRound p 1) : p = .waiting ∨ p = .woken := by
  cases p with
  | start => contradiction
  | waiting => exact .inl rfl
  | woken => exact .inr rfl
  | returned => contradiction

theorem InRound.wakeAll {place : Fin 6 → Place} {n : Nat} (h : InRound (place i) n)
    : InRound (wakeAll place i) 0 := by
  unfold Threads.wakeAll
  split
  . exact Nat.zero_le 1
  . next hne =>
    cases hplace : place i with
    | start => rfl
    | waiting => contradiction
    | woken => exact Nat.zero_le 1
    | returned =>
      rw [hplace] at h
      contradiction

theorem rounds_main : Rounds main := fun _ => rfl

theorem Rounds.step (hs : Rounds s) (ha : Awaited s a) (h : step s a = some t) : Rounds t := by
  intro j
  have hj := hs j
  cases a with
  | producer i =>
    rcases producerThread_cases h with ⟨hi, rfl⟩ | ⟨hi, rfl⟩
    . by_cases hji : j = i
      . subst hji
        rw [hi] at hj
        have hj : arrivals s.log j = 0 := hj
        simp [InRound, hj]
      . simpa [hji, arrivals_append_of_ne hji] using hj
    . by_cases hji : j = i
      . subst hji
        simp [InRound, ha hi]
      . simpa [hji] using hj
  | consumer =>
    rcases consumerThread_cases h with ⟨hc, n, hn, rfl⟩ | ⟨hc, rfl⟩
    . exact hj
    . rw [arrivals_append_reset]
      exact hj.wakeAll
  | spurious i =>
    obtain ⟨hi, rfl⟩ := spurious_cases h
    by_cases hji : j = i
    . subst hji
      simpa [InRound] using hj.le_one
    . simpa [hji] using hj

theorem counted_of_reachable {P : State → Action → Prop} (h : Reachable step P main s) : Counted s := by
  apply h.invariant counted_main
  intro s a t hs _ ha
  exact hs.step ha

theorem rounds_of_reachable (h : Reachable step Awaited main s) : Rounds s := by
  apply h.invariant rounds_main
  intro s a t hs ha hstep
  exact hs.step ha hstep

theorem arrivals_of_woken (h : Reachable step NoSpurious main s)
    : ∀ i, s.producer i = .woken → arrivals s.log i = 0 := by
  apply h.invariant (I := fun s => ∀ i, s.producer i = .woken → arrivals s.log i = 0)
  . simp [main]
  . intro s a t hs hP hstep j
    cases a with
    | producer i =>
      rcases producerThread_cases hstep with ⟨hi, rfl⟩ | ⟨hi, rfl⟩
      . by_cases hji : j = i
        . simp [hji]
        . simpa [hji, arrivals_append_of_ne hji] using hs j
      . by_cases hji : j = i
        . simp [hji]
        . simpa [hji] using hs j
    | consumer =>
      rcases consumerThread_cases hstep with ⟨hc, n, hn, rfl⟩ | ⟨hc, rfl⟩
      . exact hs j
      . simp
    | spurious i => exact absurd rfl (hP i)

theorem awaited_of_noSpurious (h : Reachable step NoSpurious main s) : Reachable step Awaited main s := by
  apply h.mono
  intro s a h _
  cases a with
  | producer i => exact arrivals_of_woken h i
  | consumer => trivial
  | spurious i => trivial

theorem Rounds.count_le (hs : Rounds s) (hcounted : Counted s) : s.count ≤ 6 := by
  have := Finset.sum_le_sum fun i (_ : i ∈ Finset.univ) => (hs i).le_one
  rw [hcounted.count]
  simpa using this

/--
Once all have arrived, each of them has arrived once and is still in its wait.
-/
theorem Rounds.rendezvous (hs : Rounds s) (hcounted : Counted s) (hcount : s.count = 6) : Rendezvous s := by
  have hle : ∀ i ∈ Finset.univ, arrivals s.log i ≤ 1 := fun i _ => (hs i).le_one
  have hsum : ∑ i, arrivals s.log i = ∑ i : Fin 6, 1 := by
    rw [← hcounted.count, hcount]
    rfl
  intro i
  have harrived : arrivals s.log i = 1 := (Finset.sum_eq_sum_iff_of_le hle).mp hsum i (Finset.mem_univ i)
  exact ⟨harrived, (harrived ▸ hs i).waiting_or_woken⟩

theorem Counted.count_eq (hs : Counted s) (hle : s.count ≤ 6)
    (hposted : s.cSem ≠ 0 ∨ s.consumer = .reset) : s.count = 6 := by
  rcases hs.cSem_cases with ⟨-, -, hcount⟩ | ⟨-, -, hcount⟩ | ⟨h0, hc, -⟩
  . omega
  . omega
  . simp [h0, hc] at hposted

/--
A producer that has left its wait early spoils the round for good.
-/
def Spoiled (s : State) (i : Fin 6) : Prop :=
  (s.producer i = .start ∧ 1 ≤ arrivals s.log i) ∨ 2 ≤ arrivals s.log i

theorem Spoiled.not_rendezvous (hs : Spoiled s i) : ¬Rendezvous s := by
  intro h
  obtain ⟨harrived, hplace⟩ := h i
  rcases hs with ⟨hstart, -⟩ | hs
  . simp [hstart] at hplace
  . omega

theorem spoiled_of_not_awaited (ha : ¬Awaited s a) (h : step s a = some t) : ∃ i, Spoiled t i := by
  cases a with
  | producer i =>
    simp only [Awaited, Classical.not_imp] at ha
    obtain ⟨hwoken, hne⟩ := ha
    rcases producerThread_cases h with ⟨hi, rfl⟩ | ⟨hi, rfl⟩
    . rw [hwoken] at hi
      contradiction
    . refine ⟨i, .inl ⟨Function.update_self .., ?_⟩⟩
      dsimp only
      omega
  | consumer => exact absurd trivial ha
  | spurious i => exact absurd trivial ha

theorem Spoiled.step (hs : Spoiled s j) (ha : NotReset s a) (h : step s a = some t) : Spoiled t j := by
  cases a with
  | producer i =>
    by_cases hji : j = i
    . subst hji
      rcases producerThread_cases h with ⟨hi, rfl⟩ | ⟨hi, rfl⟩
      . refine .inr ?_
        rw [arrivals_append_self]
        rcases hs with ⟨-, hs⟩ | hs
        . omega
        . omega
      . rcases hs with ⟨hstart, -⟩ | hs
        . rw [hi] at hstart
          contradiction
        . exact .inr hs
    . rcases producerThread_cases h with ⟨hi, rfl⟩ | ⟨hi, rfl⟩
      . simpa [Spoiled, hji, arrivals_append_of_ne hji] using hs
      . simpa [Spoiled, hji] using hs
  | consumer =>
    rcases consumerThread_cases h with ⟨hc, n, hn, rfl⟩ | ⟨hc, rfl⟩
    . exact hs
    . exact absurd hc (ha rfl)
  | spurious i =>
    obtain ⟨hi, rfl⟩ := spurious_cases h
    by_cases hji : j = i
    . subst hji
      rcases hs with ⟨hstart, -⟩ | hs
      . rw [hi] at hstart
        contradiction
      . exact .inr hs
    . simpa [Spoiled, hji] using hs

theorem rendezvous_of_awaited (s : State)
    : (Reachable step Awaited main s → s.consumer = .reset → Rendezvous s)
      ∧ ∀ a t u, ¬Awaited s a → step s a = some t → Reachable step NotReset t u → ¬Rendezvous u := by
  constructor
  . intro h hreset
    have hs := rounds_of_reachable h
    have hcounted := counted_of_reachable h
    exact hs.rendezvous hcounted (hcounted.count_eq (hs.count_le hcounted) (.inr hreset))
  . intro a t u ha hstep h
    obtain ⟨i, hi⟩ := spoiled_of_not_awaited ha hstep
    have hu : Spoiled u i := by
      apply h.invariant hi
      intro s a t hs ha hstep
      exact hs.step ha hstep
    exact hu.not_rendezvous

theorem rendezvous_of_awaited_firstRound
    : ∃ s, schedule step [.producer 3, .producer 1, .producer 0, .producer 5, .producer 4, .producer 2,
        .consumer] main = some s ∧ Rendezvous s :=
  ⟨_, rfl, (rendezvous_of_awaited _).1 (awaited_of_noSpurious (reachable_of_schedule
    [.producer 3, .producer 1, .producer 0, .producer 5, .producer 4, .producer 2, .consumer]
    (by simp [NoSpurious]) rfl)) rfl⟩

theorem not_rendezvous_spurious
    : ∃ s, Reachable step Anything main s ∧ s.consumer = .reset ∧ arrivals s.log 0 = 2
      ∧ arrivals s.log 5 = 0 ∧ ¬Rendezvous s :=
  ⟨_, reachable_of_schedule
    [.producer 0, .spurious 0, .producer 0, .producer 0, .producer 1, .producer 2, .producer 3,
      .producer 4, .consumer] (fun _ _ _ => trivial) rfl,
    rfl, rfl, rfl, fun h => absurd (h 5).1 (by decide)⟩

end Rendezvous

section NeverStalls

structure NeverStalls (s : State) : Prop where
  cSem_le : s.cSem ≤ 1
  count_le : s.count ≤ 6
  count_eq : s.cSem = 1 → s.count = 6
  notStalled : ¬((∀ i, s.producer i = .waiting) ∧ s.consumer = .semWait ∧ s.cSem = 0)

theorem neverStalls (s : State) (h : Reachable step NoSpurious main s) : NeverStalls s := by
  have hcounted := counted_of_reachable h
  have hs := rounds_of_reachable (awaited_of_noSpurious h)
  have hle := hs.count_le hcounted
  refine ⟨?_, hle, fun hposted => hcounted.count_eq hle (.inl (by omega)), ?_⟩
  . rcases hcounted.cSem_cases with ⟨hcSem, -, -⟩ | ⟨hcSem, -, -⟩ | ⟨hcSem, -, -⟩
    . omega
    . omega
    . omega
  . rintro ⟨hwaiting, hc, h0⟩
    -- All six have arrived, so the last one of them has posted.
    have hcount : s.count = 6 := by
      have harrived : ∀ i, arrivals s.log i = 1 := fun i => by
        have hi := hs i
        rwa [hwaiting i] at hi
      rw [hcounted.count]
      simp [harrived]
    have hcSem := hcounted.cSem
    simp [hc, h0, hcount] at hcSem

theorem neverStalls_twoRounds
    : ∃ s, schedule step [.producer 0, .producer 1, .producer 2, .producer 3, .producer 4, .producer 5,
        .consumer, .consumer, .producer 0, .producer 0] main = some s ∧ NeverStalls s :=
  ⟨_, rfl, neverStalls _ (reachable_of_schedule
    [.producer 0, .producer 1, .producer 2, .producer 3, .producer 4, .producer 5, .consumer, .consumer,
      .producer 0, .producer 0] (by simp [NoSpurious]) rfl)⟩

end NeverStalls

end SemProblem
