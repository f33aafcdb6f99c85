import Padhai.Threads.Lemmas.BoundedBuffer
import Padhai.Threads.Lemmas.PrintedNumbers

/-!
This module contains how the runs of `prod_consumer.c` and of `alternate_print.c` end: as many produce threads
as consume threads come to their end in every order of steps, after a number of steps that does not depend on
the order, and the two threads that take turns return whatever the order, after a number of steps that only
depends on how often they wake up without a signal.
-/

namespace ProdConsumer

open Threads

variable {np nc P : Nat} {s t : State np nc} {p : Fin np} {c : Fin nc} {a : Action np nc}

section Steps

def Point.steps : Point → Int
  | .wait => 0
  | .critical => 1
  | .post => 2

def Thread.produceSteps (t : Thread) : Int :=
  3 * t.i + t.point.steps

def Thread.consumeSteps (t : Thread) : Int :=
  3 * (5 - t.i) + t.point.steps

/--
How many steps all threads have taken.
-/
def State.steps (s : State np nc) : Int :=
  ∑ p, (s.producer p).produceSteps + ∑ c, (s.consumer c).consumeSteps

theorem steps_main : (main np nc).steps = 0 := by
  simp [State.steps, main, Thread.produceSteps, Thread.consumeSteps, Point.steps]

theorem steps_of_producer {v : Thread} (hp : t.producer = Function.update s.producer p v)
    (hc : t.consumer = s.consumer) (hv : v.produceSteps = (s.producer p).produceSteps + 1)
    : t.steps = s.steps + 1 := by
  have hsum := sum_update Thread.produceSteps s.producer p v
  rw [State.steps, State.steps, hp, hc]
  omega

theorem steps_of_consumer {v : Thread} (hp : t.producer = s.producer)
    (hc : t.consumer = Function.update s.consumer c v) (hv : v.consumeSteps = (s.consumer c).consumeSteps + 1)
    : t.steps = s.steps + 1 := by
  have hsum := sum_update Thread.consumeSteps s.consumer c v
  rw [State.steps, State.steps, hp, hc]
  omega

theorem steps_produce (h : produce s p = some t) : t.steps = s.steps + 1 := by
  rcases produce_cases h with ⟨i, n, hi, -, -, rfl⟩ | ⟨i, hi, rfl⟩ | ⟨i, hi, rfl⟩
  . refine steps_of_producer (p := p) (v := ⟨i, .critical⟩) rfl rfl ?_
    simp [hi, Thread.produceSteps, Point.steps]
  . refine steps_of_producer (p := p) (v := ⟨i, .post⟩) rfl rfl ?_
    simp only [hi, Thread.produceSteps, Point.steps]
    omega
  . refine steps_of_producer (p := p) (v := ⟨i + 1, .wait⟩) rfl rfl ?_
    simp only [hi, Thread.produceSteps, Point.steps]
    omega

theorem steps_consume (h : consume s c = some t) : t.steps = s.steps + 1 := by
  rcases consume_cases h with ⟨i, n, hi, -, -, rfl⟩ | ⟨i, hi, rfl⟩ | ⟨i, hi, rfl⟩
  . refine steps_of_consumer (c := c) (v := ⟨i, .critical⟩) rfl rfl ?_
    simp [hi, Thread.consumeSteps, Point.steps]
  . refine steps_of_consumer (c := c) (v := ⟨i, .post⟩) rfl rfl ?_
    simp only [hi, Thread.consumeSteps, Point.steps]
    omega
  . refine steps_of_consumer (c := c) (v := ⟨i - 1, .wait⟩) rfl rfl ?_
    simp only [hi, Thread.consumeSteps, Point.steps]
    omega

theorem steps_step (h : step s a = some t) : t.steps = s.steps + 1 := by
  cases a with
  | producer p => exact steps_produce h
  | consumer c => exact steps_consume h

theorem length_eq_steps {as : List (Action np nc)} (h : schedule step as (main np nc) = some s)
    : (as.length : Int) = s.steps := by
  apply schedule_invariant (A := fun _ => True) (R := fun as s => (as.length : Int) = s.steps) steps_main.symm ?_
    (fun _ _ => trivial) h
  intro as u a t hu _ ha
  rw [steps_step ha, ← hu, List.length_append, List.length_singleton, Int.natCast_add, Int.natCast_one]

theorem Counts.produceSteps_le (hs : Counts s) (p : Fin np) : (s.producer p).produceSteps ≤ 18 := by
  have hle := (hs.producer p).2
  unfold Thread.inside at hle
  unfold Thread.produceSteps
  cases hpoint : (s.producer p).point
  all_goals
    simp only [hpoint, reduceCtorEq, ↓reduceIte] at hle
    simp only [Point.steps]
    omega

theorem Counts.consumeSteps_le (hs : Counts s) (c : Fin nc) : (s.consumer c).consumeSteps ≤ 18 := by
  have hle := (hs.consumer c).2
  unfold Thread.inside at hle
  unfold Thread.consumeSteps
  cases hpoint : (s.consumer c).point
  all_goals
    simp only [hpoint, reduceCtorEq, ↓reduceIte] at hle
    simp only [Point.steps]
    omega

theorem Counts.steps_le (hs : Counts s) : s.steps ≤ 18 * np + 18 * nc := by
  have hp := Finset.sum_le_sum fun p (_ : p ∈ Finset.univ) => hs.produceSteps_le p
  have hc := Finset.sum_le_sum fun c (_ : c ∈ Finset.univ) => hs.consumeSteps_le c
  simp only [Finset.sum_const, Finset.card_univ, Fintype.card_fin, nsmul_eq_mul] at hp hc
  rw [State.steps]
  omega

end Steps

section Completed

variable {s : State P P}

/--
All threads have returned, each has accessed the slots from 0 to 5 in its direction, and the semaphores have
their first values again.
-/
structure Completed (s : State P P) : Prop where
  finished : Finished s
  produced : ∀ p, s.log.filter (·.thread = .producer p) = (List.range 6).map fun k => .produced p k k
  consumed : ∀ c, s.log.filter (·.thread = .consumer c)
    = (List.range 6).map fun k => .consumed c (5 - k) (5 - k)
  bufEmpty : s.bufEmpty = 5
  bufFull : s.bufFull = 1

theorem Finished.steps_eq (h : Finished s) : s.steps = 36 * P := by
  have hp : ∀ p, (s.producer p).produceSteps = 18 := fun p => by rw [h.1 p]; rfl
  have hc : ∀ c, (s.consumer c).consumeSteps = 18 := fun c => by rw [h.2 c]; rfl
  rw [State.steps]
  simp only [hp, hc, Finset.sum_const, Finset.card_univ, Fintype.card_fin, nsmul_eq_mul]
  omega

theorem completed_of_finished (hs : Records s) (hcounts : Counts s) (h : Finished s) : Completed s := by
  have hempty := hcounts.empty
  have hfull := hcounts.full
  simp only [h.1, h.2, inside_wait, Finset.sum_const, Finset.card_univ, Fintype.card_fin, nsmul_eq_mul]
    at hempty hfull
  refine ⟨h, ?_, ?_, by omega, by omega⟩
  . intro p
    rw [hs.produced, h.1 p]
    rfl
  . intro c
    rw [hs.consumed, h.2 c]
    rfl

theorem reachable_of_run {as : List (Action np nc)} {s : State np nc} (h : schedule step as (main np nc) = some s)
    : Reachable step Anything (main np nc) s :=
  reachable_of_schedule as (fun _ _ _ => trivial) h

theorem halted_iff {as : List (Action P P)} (h : schedule step as (main P P) = some s)
    : Halted step (fun _ => True) s ↔ as.length = 36 * P := by
  obtain ⟨-, hcounts⟩ := records_of_reachable (reachable_of_run h)
  have hlength := length_eq_steps h
  constructor
  . intro hhalted
    have hfinished := finished_of_stuck hcounts fun a => hhalted a trivial
    have := hfinished.steps_eq
    omega
  . intro hfull a _
    rw [Option.eq_none_iff_forall_ne_some]
    intro t ha
    -- One more step would be one too many.
    have hcounts' : Counts t := (records_of_reachable
      ((reachable_of_run h).tail ⟨a, trivial, ha⟩)).2
    have hle := hcounts'.steps_le
    have hnext := steps_step ha
    omega

theorem completed_of_halted {as : List (Action P P)} (h : schedule step as (main P P) = some s)
    (hhalted : Halted step (fun _ => True) s) : Completed s := by
  obtain ⟨hs, hcounts⟩ := records_of_reachable (reachable_of_run h)
  exact completed_of_finished hs hcounts (finished_of_stuck hcounts fun a => hhalted a trivial)

theorem toNat_steps_le {as : List (Action P P)} (h : schedule step as (main P P) = some s)
    : s.steps.toNat ≤ 36 * P := by
  have hle := (records_of_reachable (reachable_of_run h)).2.steps_le
  omega

theorem toNat_steps_lt {as : List (Action P P)} {t : State P P} {a : Action P P}
    (h : schedule step as (main P P) = some s) (ha : step s a = some t) : s.steps.toNat < t.steps.toNat := by
  have hlength := length_eq_steps h
  have hnext := steps_step ha
  omega

theorem exists_completed {as : List (Action P P)} (h : schedule step as (main P P) = some s)
    : ∃ bs t, schedule step (as ++ bs) (main P P) = some t ∧ Completed t := by
  have hnext : ∀ u a t, (∃ as, schedule step as (main P P) = some u) → True → step u a = some t
      → (∃ as, schedule step as (main P P) = some t) ∧ u.steps.toNat < t.steps.toNat := by
    rintro u a t ⟨as, hu⟩ - ha
    exact ⟨⟨as ++ [a], schedule_concat_eq_some_iff.mpr ⟨u, hu, ha⟩⟩, toNat_steps_lt hu ha⟩
  have hbound : ∀ u, (∃ as, schedule step as (main P P) = some u) → u.steps.toNat ≤ 36 * P :=
    fun u ⟨as, hu⟩ => toNat_steps_le hu
  obtain ⟨bs, t, -, ht, hhalted⟩ := exists_halted ⟨as, h⟩ hbound hnext
  have hrun : schedule step (as ++ bs) (main P P) = some t := by
    rw [schedule_append, h]
    exact ht
  exact ⟨bs, t, hrun, completed_of_halted hrun hhalted⟩

theorem schedule_completes (P : Nat) (as : List (Action P P)) (s : State P P)
    (h : schedule step as (main P P) = some s)
    : as.length ≤ 36 * P ∧ (Halted step (fun _ => True) s ↔ as.length = 36 * P)
      ∧ (as.length = 36 * P → Completed s)
      ∧ ∃ bs t, schedule step (as ++ bs) (main P P) = some t ∧ Completed t := by
  have hle := toNat_steps_le h
  have hlength := length_eq_steps h
  refine ⟨by omega, halted_iff h, ?_, exists_completed h⟩
  intro hfull
  exact completed_of_halted h ((halted_iff h).mpr hfull)

def firstItem : List (Action 1 1) :=
  [.producer 0, .producer 0]

theorem schedule_completes_firstItem
    : ∃ s, schedule step firstItem (main 1 1) = some s
      ∧ firstItem.length ≤ 36 * 1 ∧ (Halted step (fun _ => True) s ↔ firstItem.length = 36 * 1)
      ∧ (firstItem.length = 36 * 1 → Completed s)
      ∧ ∃ bs t, schedule step (firstItem ++ bs) (main 1 1) = some t ∧ Completed t :=
  ⟨_, rfl, schedule_completes 1 firstItem _ rfl⟩

end Completed

end ProdConsumer

namespace AlternatePrint

open Threads

variable {limit : Nat} {s t : State} {i j : Thread} {a : Action} {as : List Action}

section Steps

def Action.isSpurious : Action → Bool
  | .run _ => false
  | .spurious _ => true

def State.blocked (s : State) : Nat :=
  if s.place .odd = .waiting ∨ s.place .even = .waiting then 1 else 0

theorem blocked_le : s.blocked ≤ 1 := by
  unfold State.blocked
  split
  . omega
  . omega

theorem blocked_eq_one (hi : s.place i = .waiting) : s.blocked = 1 := by
  cases i with
  | odd => exact if_pos (.inl hi)
  | even => exact if_pos (.inr hi)

theorem blocked_eq_zero (h : ∀ i, s.place i ≠ .waiting) : s.blocked = 0 := by
  rw [State.blocked, if_neg]
  simp [h]

/--
What a run has come to: a thread counts at most once after it has blocked.
-/
def State.progress (s : State) : Nat :=
  2 * s.globalCount + s.blocked

theorem Turns.progress_waits (hs : Turns limit s) (hi : s.place i = .start ∨ s.place i = .woken)
    (hturn : i ≠ turn s.globalCount) : (s.waits i).progress = s.progress + 1 := by
  have hbefore : s.blocked = 0 := by
    apply blocked_eq_zero
    intro j hj
    rw [eq_of_turn_ne (hs.waiting j hj) hturn] at hj
    simp [hj] at hi
  have hafter : (s.waits i).blocked = 1 :=
    blocked_eq_one (i := i) (by simp)
  rw [State.progress, State.progress, hbefore, hafter]
  rfl

theorem progress_counts : s.progress + 1 ≤ (s.counts limit i).progress := by
  have hbefore := blocked_le (s := s)
  rw [State.progress, State.progress, blocked_eq_zero counts_not_waiting, counts_globalCount]
  omega

theorem progress_woken (hi : s.place i = .waiting) : s.progress ≤ (s.woken i).progress + 1 := by
  rw [State.progress, State.progress, blocked_eq_one hi, woken_globalCount]
  omega

theorem step_progress (hs : Turns limit s) (h : step limit s a = some t)
    : s.progress + 1 ≤ t.progress + 2 * [a].countP (·.isSpurious) := by
  rcases step_cases h with ⟨i, hi, hturn, rfl⟩ | ⟨i, -, -, rfl⟩ | ⟨i, rfl, hi, rfl⟩
  . have := hs.progress_waits hi hturn
    omega
  . have : s.progress + 1 ≤ (s.counts limit i).progress := progress_counts
    omega
  . have := progress_woken hi
    simp only [List.countP_singleton, Action.isSpurious, ↓reduceIte]
    omega

theorem turns_of_run (h : schedule (step limit) as main = some s) : Turns limit s :=
  turns_of_reachable (reachable_of_schedule as (fun _ _ _ => trivial) h)

theorem length_le_progress (h : schedule (step limit) as main = some s)
    : as.length ≤ s.progress + 2 * as.countP (·.isSpurious) := by
  have hrun : Turns limit s ∧ as.length ≤ s.progress + 2 * as.countP (·.isSpurious) := by
    apply schedule_invariant (A := fun _ => True)
      (R := fun as s => Turns limit s ∧ as.length ≤ s.progress + 2 * as.countP (·.isSpurious)) ?_ ?_
      (fun _ _ => trivial) h
    . exact ⟨turns_main, Nat.zero_le _⟩
    . rintro as u a t ⟨hu, hle⟩ - ha
      have hnext := step_progress hu ha
      rw [List.length_append, List.countP_append, List.length_singleton]
      refine ⟨?_, by omega⟩
      rcases step_cases ha with ⟨i, hi, hturn, rfl⟩ | ⟨i, hi, hturn, rfl⟩ | ⟨i, -, hi, rfl⟩
      . exact hu.waits hi hturn
      . exact hu.counts hi hturn
      . exact hu.woken hi
  exact hrun.2

theorem Turns.progress_le (hs : Turns limit s) : s.progress ≤ 2 * (limit + 2) := by
  by_cases hblocked : ∃ i, s.place i = .waiting
  . obtain ⟨i, hi⟩ := hblocked
    have hne : s.globalCount ≠ limit + 2 := by
      intro hcount
      -- The thread that could count next has returned already.
      have hreturned : s.place (turn s.globalCount) = .returned := by
        rw [hs.returned]
        exact ⟨limit, by omega, by omega, by rw [hcount, turn_add_two]⟩
      exact hs.not_returned_of_waiting (hs.waiting i hi) hi hreturned
    have := hs.count_le
    have := blocked_le (s := s)
    rw [State.progress]
    omega
  . rw [State.progress, blocked_eq_zero (by simpa using hblocked)]
    have := hs.count_le
    omega

end Steps

section Returned

def Signalled (a : Action) : Prop :=
  a.isSpurious = false

theorem runs_of_place (h : s.place i = .start ∨ s.place i = .woken) : ∃ t, step limit s (.run i) = some t := by
  rw [step_run]
  exact ⟨_, alternate_eq_some_iff.mpr ⟨h, rfl⟩⟩

theorem Turns.halted_iff (hs : Turns limit s)
    : Halted (step limit) Signalled s ↔ ∀ i, s.place i = .returned := by
  constructor
  . intro hhalted
    have hplace : ∀ i, s.place i = .waiting ∨ s.place i = .returned := by
      intro i
      cases hi : s.place i with
      | start | woken =>
        obtain ⟨t, ht⟩ : ∃ t, step limit s (.run i) = some t := runs_of_place (by simp [hi])
        rw [hhalted (.run i) rfl] at ht
        contradiction
      | waiting => exact .inl rfl
      | returned => exact .inr rfl
    intro i
    rcases hplace i with hi | hi
    . -- The other one can neither be blocked as well nor have returned.
      obtain ⟨j, hij⟩ : ∃ j, i ≠ j := by
        cases i
        . exact ⟨.even, by simp⟩
        . exact ⟨.odd, by simp⟩
      rcases hplace j with hj | hj
      . exact absurd (hs.eq_of_waiting hi hj) hij
      . exact absurd hj (hs.not_returned_of_waiting hij hi)
    . exact hi
  . intro hreturned a ha
    cases a with
    | run i =>
      rw [step_run, Option.eq_none_iff_forall_ne_some]
      intro t ht
      simp [alternate_eq_some_iff, hreturned i] at ht
    | spurious i => contradiction

theorem exists_returned (h : schedule (step limit) as main = some s)
    : ∃ bs t, (∀ b ∈ bs, Signalled b) ∧ schedule (step limit) (as ++ bs) main = some t
      ∧ ∀ i, t.place i = .returned := by
  have hnext : ∀ u a t, (∃ as, schedule (step limit) as main = some u) → Signalled a → step limit u a = some t
      → (∃ as, schedule (step limit) as main = some t) ∧ u.progress < t.progress := by
    rintro u a t ⟨as, hu⟩ hsignalled ha
    have hprogress := step_progress (turns_of_run hu) ha
    rw [List.countP_singleton, hsignalled, if_neg (by simp)] at hprogress
    exact ⟨⟨as ++ [a], schedule_concat_eq_some_iff.mpr ⟨u, hu, ha⟩⟩, by omega⟩
  have hbound : ∀ u, (∃ as, schedule (step limit) as main = some u) → u.progress ≤ 2 * (limit + 2) :=
    fun u ⟨as, hu⟩ => (turns_of_run hu).progress_le
  obtain ⟨bs, t, hbs, ht, hhalted⟩ := exists_halted ⟨as, h⟩ hbound hnext
  have hrun : schedule (step limit) (as ++ bs) main = some t := by
    rw [schedule_append, h]
    exact ht
  exact ⟨bs, t, hbs, hrun, (turns_of_run hrun).halted_iff.mp hhalted⟩

theorem schedule_returns (limit : Nat) (as : List Action) (s : State)
    (h : schedule (step limit) as main = some s)
    : as.length ≤ 2 * (limit + 2) + 2 * as.countP (·.isSpurious)
      ∧ (Halted (step limit) Signalled s ↔ ∀ i, s.place i = .returned)
      ∧ ((∀ i, s.place i = .returned)
        → increments s.log = (List.range (limit + 2)).map fun v => (turn v, v))
      ∧ ∃ bs t, (∀ b ∈ bs, Signalled b) ∧ schedule (step limit) (as ++ bs) main = some t
        ∧ ∀ i, t.place i = .returned := by
  have hs := turns_of_run h
  have hlength := length_le_progress h
  have hbound := hs.progress_le
  refine ⟨by omega, hs.halted_iff, ?_, exists_returned h⟩
  intro hreturned
  rw [hs.increments, hs.count_eq (hreturned _)]

def wokenForNothing : List Action :=
  [.run .even, .spurious .even, .run .even]

theorem schedule_returns_wokenForNothing
    : ∃ s, schedule (step 100) wokenForNothing main = some s
      ∧ wokenForNothing.length ≤ 2 * (100 + 2) + 2 * wokenForNothing.countP (·.isSpurious)
      ∧ (Halted (step 100) Signalled s ↔ ∀ i, s.place i = .returned)
      ∧ ((∀ i, s.place i = .returned)
        → increments s.log = (List.range (100 + 2)).map fun v => (turn v, v))
      ∧ ∃ bs t, (∀ b ∈ bs, Signalled b) ∧ schedule (step 100) (wokenForNothing ++ bs) main = some t
        ∧ ∀ i, t.place i = .returned :=
  ⟨_, rfl, schedule_returns 100 wokenForNothing _ rfl⟩

end Returned

end AlternatePrint
