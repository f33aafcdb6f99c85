import Mathlib.Data.List.FinRange
import Padhai.Threads.Lemmas.SemProblem

/-!
This module contains that a run of `sem_problem.c` without spurious wakeups goes round by round, each of
which all six producers take part in once, and that it always gets to the next round.
-/

namespace SemProblem

open Threads

variable {s t : State} {i : Fin 6} {a : Action} {as : List Action} {rounds : List (List (Fin 6))}
  {current : List (Fin 6)} {place : Fin 6 → Place}

section Log

/--
A round in which the producers arrive in this order.
-/
def completed (arrivals : List (Fin 6)) : List Event :=
  arrivals.map .arrived ++ [.reset]

def inRounds (rounds : List (List (Fin 6))) (current : List (Fin 6)) : List Event :=
  rounds.flatMap completed ++ current.map .arrived

theorem inRounds_arrived : inRounds rounds current ++ [.arrived i] = inRounds rounds (current ++ [i]) := by
  rw [inRounds, inRounds, List.append_assoc, List.map_append]
  rfl

theorem inRounds_reset : inRounds rounds current ++ [.reset] = inRounds (rounds ++ [current]) [] := by
  rw [inRounds, inRounds, List.flatMap_append, List.flatMap_singleton, completed, List.append_assoc,
    List.map_nil, List.append_nil]

theorem arrivals_inRounds_nil (rounds : List (List (Fin 6))) (i : Fin 6)
    : arrivals (inRounds rounds []) i = 0 := by
  rcases List.eq_nil_or_concat' rounds with rfl | ⟨rounds, last, rfl⟩
  . rfl
  . rw [← inRounds_reset, arrivals_append_reset]

theorem arrivals_inRounds (rounds : List (List (Fin 6))) (current : List (Fin 6)) (i : Fin 6)
    : arrivals (inRounds rounds current) i = current.count i := by
  induction current using List.reverseRecOn with
  | nil => rw [arrivals_inRounds_nil, List.count_nil]
  | append_singleton current j ih =>
    rw [← inRounds_arrived, arrivals_append_arrived, ih, List.count_append, List.count_singleton]
    simp only [beq_iff_eq, eq_comm (a := j)]

theorem perm_of_count_eq_one (h : ∀ i, current.count i = 1) : current.Perm (List.finRange 6) := by
  have hnodup : current.Nodup := List.nodup_iff_count_le_one.mpr fun i => (h i).le
  rw [List.perm_ext_iff_of_nodup hnodup (List.nodup_finRange 6)]
  intro i
  have hmem : i ∈ current := List.count_pos_iff.mp (by rw [h i]; decide)
  exact iff_of_true hmem (List.mem_finRange i)

end Log

section Woken

def isWoken (p : Place) : Nat :=
  if p = .woken then 1 else 0

/--
The producers that were woken and are not yet in their next round.
-/
def woken (producer : Fin 6 → Place) : Nat :=
  ∑ i, isWoken (producer i)

theorem woken_eq_zero (h : ∀ i, place i ≠ .woken) : woken place = 0 :=
  Finset.sum_eq_zero fun i _ => if_neg (h i)

theorem woken_wakeAll (h : ∀ i, place i = .waiting) : woken (wakeAll place) = 6 := by
  have hone : ∀ i, isWoken (wakeAll place i) = 1 := by
    intro i
    rw [isWoken, wakeAll, if_pos (h i), if_pos rfl]
  simp [woken, hone]

theorem woken_update (place : Fin 6 → Place) (i : Fin 6) (v : Place)
    : woken (Function.update place i v) + isWoken (place i) = woken place + isWoken v :=
  sum_update isWoken place i v

end Woken

section Run

/--
What a run has done after the given steps.
-/
structure Meeting (as : List Action) (s : State) (rounds : List (List (Fin 6))) (current : List (Fin 6)) : Prop
    where
  log : s.log = inRounds rounds current
  count : s.count = current.length
  all : ∀ arrivals ∈ rounds, arrivals.Perm (List.finRange 6)
  steps : as.length + woken s.producer
    = 14 * rounds.length + current.length + if s.consumer = .reset then 1 else 0

theorem meeting_main : Meeting [] main [] [] := by
  refine ⟨rfl, rfl, by simp, ?_⟩
  rw [woken_eq_zero (by simp [main])]
  rfl

theorem Meeting.nodup (h : Meeting as s rounds current) (hs : Rounds s) : current.Nodup := by
  rw [List.nodup_iff_count_le_one]
  intro i
  rw [← arrivals_inRounds rounds, ← h.log]
  exact (hs i).le_one

theorem Meeting.producer (h : Meeting as s rounds current) (hstep : producerThread s i = some t)
    : ∃ current', Meeting (as ++ [.producer i]) t rounds current' := by
  have hsteps := h.steps
  rcases producerThread_cases hstep with ⟨hi, rfl⟩ | ⟨hi, rfl⟩
  . refine ⟨current ++ [i], ?_, ?_, h.all, ?_⟩
    . dsimp only
      rw [h.log, inRounds_arrived]
    . rw [List.length_append, ← h.count]
      rfl
    . have hwoken := woken_update s.producer i .waiting
      rw [hi] at hwoken
      simp only [isWoken, reduceCtorEq, ↓reduceIte] at hwoken
      simp only [List.length_append, List.length_singleton]
      omega
  . refine ⟨current, h.log, h.count, h.all, ?_⟩
    have hwoken := woken_update s.producer i .start
    rw [hi] at hwoken
    simp only [isWoken, reduceCtorEq, ↓reduceIte] at hwoken
    simp only [List.length_append, List.length_singleton]
    omega

/--
The consumer resets the count only when all producers have arrived and none has been woken.
-/
theorem Meeting.consumer (h : Meeting as s rounds current) (hreachable : Reachable step NoSpurious main s)
    (hstep : consumerThread s = some t) : ∃ rounds' current', Meeting (as ++ [.consumer]) t rounds' current' := by
  have hsteps := h.steps
  rcases consumerThread_cases hstep with ⟨hc, n, hn, rfl⟩ | ⟨hc, rfl⟩
  . refine ⟨rounds, current, h.log, h.count, h.all, ?_⟩
    rw [hc] at hsteps
    simp only [List.length_append, List.length_singleton, reduceCtorEq, ↓reduceIte] at hsteps ⊢
    omega
  . have hs := rounds_of_reachable (awaited_of_noSpurious hreachable)
    have hcounted := counted_of_reachable hreachable
    have hcount : s.count = 6 := hcounted.count_eq (hs.count_le hcounted) (.inr hc)
    have hmeet := hs.rendezvous hcounted hcount
    have hwaiting : ∀ i, s.producer i = .waiting := by
      intro i
      obtain ⟨harrived, hplace⟩ := hmeet i
      apply hplace.resolve_right
      intro hwoken
      rw [arrivals_of_woken hreachable i hwoken] at harrived
      contradiction
    refine ⟨rounds ++ [current], [], ?_, rfl, ?_, ?_⟩
    . dsimp only
      rw [h.log, inRounds_reset]
    . rw [List.forall_mem_append, List.forall_mem_singleton]
      refine ⟨h.all, perm_of_count_eq_one fun i => ?_⟩
      rw [← arrivals_inRounds rounds, ← h.log]
      exact (hmeet i).1
    . rw [hc, woken_eq_zero (by simp [hwaiting]), ← h.count, hcount] at hsteps
      simp only [woken_wakeAll hwaiting, List.length_append, List.length_singleton, List.length_nil,
        reduceCtorEq, ↓reduceIte] at hsteps ⊢
      omega

theorem exists_meeting (hA : ∀ a ∈ as, ∀ i, a ≠ .spurious i) (h : schedule step as main = some s)
    : Reachable step NoSpurious main s ∧ ∃ rounds current, Meeting as s rounds current := by
  refine schedule_invariant (A := fun a => ∀ i, a ≠ .spurious i) (R := fun as s =>
    Reachable step NoSpurious main s ∧ ∃ rounds current, Meeting as s rounds current)
    ⟨.refl, [], [], meeting_main⟩ ?_ hA h
  rintro as s a t ⟨hreachable, rounds, current, hmeeting⟩ ha hstep
  refine ⟨hreachable.tail ⟨a, ha, hstep⟩, ?_⟩
  cases a with
  | producer i => exact ⟨rounds, hmeeting.producer hstep⟩
  | consumer => exact hmeeting.consumer hreachable hstep
  | spurious i => exact absurd rfl (ha i)

theorem exists_not_waiting (hcounted : Counted s) (hs : Rounds s) (hlt : s.count < 6)
    : ∃ i, s.producer i ≠ .waiting := by
  by_contra! hwaiting
  have harrived : ∀ i, arrivals s.log i = 1 := by
    intro i
    have hi := hs i
    rwa [hwaiting i] at hi
  rw [hcounted.count] at hlt
  simp [harrived] at hlt

theorem producer_isSome (hs : Rounds s) (hi : s.producer i ≠ .waiting)
    : (step s (.producer i)).isSome := by
  have hround := hs i
  cases hplace : s.producer i with
  | start => simp [step, producerThread, hplace]
  | waiting => contradiction
  | woken => simp [step, producerThread, hplace]
  | returned =>
    rw [hplace] at hround
    contradiction

theorem exists_step (hcounted : Counted s) (hs : Rounds s)
    : ∃ a, (∀ i, a ≠ .spurious i) ∧ (step s a).isSome := by
  rcases hcounted.cSem_cases with ⟨hcSem, hc, -⟩ | ⟨-, hc, -⟩ | ⟨-, -, hlt⟩
  . exact ⟨.consumer, by simp, by simp [step, consumerThread, hc, hcSem, semWait]⟩
  . exact ⟨.consumer, by simp, by simp [step, consumerThread, hc]⟩
  . obtain ⟨i, hi⟩ := exists_not_waiting hcounted hs hlt
    exact ⟨.producer i, by simp, producer_isSome hs hi⟩

/--
A run consists of rounds that each producer takes part in once, in any order, and counts how many have
arrived in the last one. It can always be continued, and is through with a round after 14 steps and no more
than 7 behind that.
-/
theorem schedule_meets (as : List Action) (s : State) (hA : ∀ a ∈ as, ∀ i, a ≠ .spurious i)
    (h : schedule step as main = some s)
    : ∃ rounds current, s.log = inRounds rounds current
      ∧ (∀ arrivals ∈ rounds, arrivals.Perm (List.finRange 6)) ∧ current.Nodup ∧ s.count = current.length
      ∧ as.length ≤ 14 * rounds.length + 7 ∧ ∃ a, (∀ i, a ≠ .spurious i) ∧ (step s a).isSome := by
  obtain ⟨hreachable, rounds, current, hmeeting⟩ := exists_meeting hA h
  have hs := rounds_of_reachable (awaited_of_noSpurious hreachable)
  have hcounted := counted_of_reachable hreachable
  refine ⟨rounds, current, hmeeting.log, hmeeting.all, hmeeting.nodup hs, hmeeting.count, ?_,
    exists_step hcounted hs⟩
  have hsteps := hmeeting.steps
  have hle := hs.count_le hcounted
  rw [hmeeting.count] at hle
  split at hsteps
  . omega
  . omega

theorem schedule_meets_secondRound
    : ∃ s, schedule step [.producer 0, .producer 1, .producer 2, .producer 3, .producer 4, .producer 5,
        .consumer, .consumer, .producer 0, .producer 0] main = some s
      ∧ ∃ rounds current, s.log = inRounds rounds current
      ∧ (∀ arrivals ∈ rounds, arrivals.Perm (List.finRange 6)) ∧ current.Nodup ∧ s.count = current.length
      ∧ 10 ≤ 14 * rounds.length + 7 ∧ ∃ a, (∀ i, a ≠ .spurious i) ∧ (step s a).isSome :=
  ⟨_, rfl, schedule_meets [.producer 0, .producer 1, .producer 2, .producer 3, .producer 4, .producer 5,
    .consumer, .consumer, .producer 0, .producer 0] _ (by simp) rfl⟩

end Run

end SemProblem
