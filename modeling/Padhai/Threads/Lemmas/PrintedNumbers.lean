import Padhai.Threads.Lemmas.AlternatePrint

/-!
This module contains which numbers the threads of `alternate_print.c` print, when nothing but their
signals wakes them up: those that a thread had to wait for.
-/

namespace AlternatePrint

open Threads

variable {limit v w : Nat} {s t : State} {i j : Thread} {log : List Event}

section Printing

def NoSpurious (_ : State) (a : Action) : Prop :=
  ∀ i, a ≠ .spurious i

def Event.print? : Event → Option (Thread × Nat)
  | .printed i v => some (i, v)
  | _ => none

def prints (log : List Event) : List (Thread × Nat) :=
  log.filterMap Event.print?

def Event.isOutput : Event → Bool
  | .printed _ _ => true
  | .waited _ _ => false
  | .incremented _ _ => true

def Event.isAbout (v : Nat) : Event → Bool
  | .printed _ w => w = v
  | .waited _ _ => false
  | .incremented _ w => w = v

def PrintedBefore (log : List Event) (i : Thread) (v : Nat) : Prop :=
  log.filter (·.isAbout v) = [.printed i v, .incremented i v]

structure PrintsEveryNumber (log : List Event) : Prop where
  printedBefore : ∀ i v, .incremented i v ∈ log → PrintedBefore log i v
  ascending : ∃ n, (prints log).map Prod.snd = List.range n
  alternating : (prints log).IsChain fun e e' => e.1 ≠ e'.1

def hadToWait (log : List Event) : Nat → Bool
  | 0 => false
  | v + 1 => .waited (turn (v + 1)) v ∈ log

/--
What the log has about `v` once `v` has been counted.
-/
def turnOutput (log : List Event) (v : Nat) : List Event :=
  if hadToWait log v then
    [.printed (turn v) v, .incremented (turn v) v]
  else
    [.incremented (turn v) v]

/--
Without spurious wakeups a thread has been woken if and only if its turn has come and it had to wait
for it.
-/
structure Prints (s : State) : Prop where
  outputs : s.log.filter (·.isOutput) = (List.range s.globalCount).flatMap (turnOutput s.log)
  waited : ∀ i v, .waited i v ∈ s.log → i = turn (v + 1) ∧ v ≤ s.globalCount
  waiting : ∀ i, s.place i = .waiting ↔ .waited i s.globalCount ∈ s.log
  woken : ∀ i, s.place i = .woken ↔ i = turn s.globalCount ∧ hadToWait s.log s.globalCount

theorem prints_main : Prints main := by
  refine ⟨rfl, ?_, ?_, ?_⟩
  . simp [main]
  . simp [main]
  . simp [main, hadToWait]

theorem hadToWait_succ : hadToWait log (v + 1) ↔ .waited (turn (v + 1)) v ∈ log := by
  simp [hadToWait]

theorem hadToWait_append {new : List Event} (h : ∀ i w, v = w + 1 → .waited i w ∉ new)
    : hadToWait (log ++ new) v = hadToWait log v := by
  cases v with
  | zero => rfl
  | succ v => simp [hadToWait, h _ v rfl]

theorem turnOutput_append {new : List Event} (h : ∀ i w, v = w + 1 → .waited i w ∉ new)
    : turnOutput (log ++ new) v = turnOutput log v := by
  rw [turnOutput, turnOutput, hadToWait_append h]

theorem waited_not_mem_turnOutput : .waited i w ∉ turnOutput log v := by
  unfold turnOutput
  split
  . simp
  . simp

theorem turnOutput_filter_isOutput : (turnOutput log v).filter (·.isOutput) = turnOutput log v := by
  rw [List.filter_eq_self]
  intro e he
  cases e with
  | printed => rfl
  | waited i w => exact absurd he waited_not_mem_turnOutput
  | incremented => rfl

theorem Prints.not_woken (hs : Prints s) (hturn : i ≠ turn s.globalCount) : s.place i ≠ .woken :=
  fun h => hturn ((hs.woken i).mp h).1

theorem Prints.waits_log_eq (hs : Prints s) (hturn : i ≠ turn s.globalCount)
    : (s.waits i).log = s.log ++ [.waited i s.globalCount] := by
  simp [shown, hs.not_woken hturn]

theorem Prints.counts_log_eq (hs : Prints s) (hturn : i = turn s.globalCount)
    : (s.counts limit i).log = s.log ++ turnOutput s.log s.globalCount := by
  have hwoken : s.place i = .woken ↔ hadToWait s.log s.globalCount := by
    rw [hs.woken]
    simp [hturn]
  rw [counts_log, List.append_assoc, hturn, shown, turnOutput, ← hturn]
  by_cases hhad : hadToWait s.log s.globalCount
  . rw [if_pos (hwoken.mpr hhad), if_pos hhad]
    rfl
  . rw [if_neg (mt hwoken.mp hhad), if_neg hhad]
    rfl

theorem Prints.waits (hs : Prints s) (hturn : i ≠ turn s.globalCount) : Prints (s.waits i) := by
  have hlog := hs.waits_log_eq hturn
  -- What a thread waits for now is not due before the next number.
  have hold : ∀ v, v ≤ s.globalCount → ∀ j w, v = w + 1 → .waited j w ∉ [Event.waited i s.globalCount] := by
    intro v hv j w hw hmem
    simp at hmem
    omega
  refine ⟨?_, ?_, ?_, ?_⟩
  . rw [hlog, List.filter_append, hs.outputs, waits_globalCount]
    simp only [List.filter_cons, List.filter_nil, Event.isOutput, Bool.false_eq_true, ↓reduceIte,
      List.append_nil]
    apply List.flatMap_congr
    intro v hv
    rw [turnOutput_append (hold v (List.mem_range.mp hv).le)]
  . intro j v hj
    rw [hlog, List.mem_append, List.mem_singleton] at hj
    rcases hj with hj | hj
    . exact hs.waited j v hj
    . cases hj
      exact ⟨eq_turn_succ_iff.mpr hturn, Nat.le_refl _⟩
  . intro j
    by_cases hji : j = i
    . simp [hji]
    . rw [hlog]
      simp [hji, hs.waiting]
  . intro j
    rw [hlog, waits_globalCount, hadToWait_append (hold _ (Nat.le_refl _)), ← hs.woken]
    by_cases hji : j = i
    . simp [hji, hs.not_woken hturn]
    . simp [hji]

theorem Prints.counts (hs : Prints s) (hturn : i = turn s.globalCount) : Prints (s.counts limit i) := by
  have hlog : (s.counts limit i).log = _ := hs.counts_log_eq hturn
  refine ⟨?_, ?_, ?_, ?_⟩
  . have hturnOutput : turnOutput (s.log ++ turnOutput s.log s.globalCount) = turnOutput s.log := by
      funext v
      exact turnOutput_append fun j w _ => waited_not_mem_turnOutput
    rw [hlog, List.filter_append, hs.outputs, turnOutput_filter_isOutput, hturnOutput, counts_globalCount,
      List.range_succ, List.flatMap_append, List.flatMap_singleton]
  . intro j v hj
    rw [hlog, List.mem_append, or_iff_left waited_not_mem_turnOutput] at hj
    have := hs.waited j v hj
    rw [counts_globalCount]
    exact ⟨this.1, by omega⟩
  . intro j
    have hfresh : .waited j (s.globalCount + 1) ∉ s.log := by
      intro hj
      have := (hs.waited j _ hj).2
      omega
    rw [hlog, counts_globalCount, List.mem_append, or_iff_left waited_not_mem_turnOutput,
      iff_false_right hfresh]
    exact counts_not_waiting j
  . intro j
    rw [hlog, hadToWait_append fun j w _ => waited_not_mem_turnOutput, counts_globalCount, hadToWait_succ,
      counts_place]
    by_cases hji : j = i
    . have hne : i ≠ turn (s.globalCount + 1) := by
        rw [hturn]
        exact turn_succ_ne.symm
      rw [hji, Function.update_self, iff_false_right fun h => hne h.1]
      split
      . simp
      . simp
    . have hne : j ≠ turn s.globalCount := by
        rwa [← hturn]
      rw [Function.update_of_ne hji, wakeAll_eq_woken_iff, or_iff_left (hs.not_woken hne), hs.waiting,
        ← eq_turn_succ_iff.mpr hne, and_iff_right rfl]

theorem prints_of_reachable (h : Reachable (step limit) NoSpurious main s) : Prints s := by
  apply h.invariant prints_main
  intro s a t hs hP ha
  rcases step_cases ha with ⟨i, hi, hturn, rfl⟩ | ⟨i, hi, hturn, rfl⟩ | ⟨i, hspurious, -, rfl⟩
  . exact hs.waits hturn
  . exact hs.counts hturn
  . exact absurd hspurious (hP i)

theorem flatMap_range_ite {n : Nat} {es : List Event} (h : v < n)
    : (List.range n).flatMap (fun w => if w = v then es else []) = es := by
  induction n with
  | zero => contradiction
  | succ n ih =>
    rw [List.range_succ, List.flatMap_append, List.flatMap_singleton]
    by_cases hv : n = v
    . have hbefore : (List.range n).flatMap (fun w => if w = v then es else []) = [] := by
        rw [List.flatMap_eq_nil_iff]
        intro w hw
        rw [List.mem_range] at hw
        rw [if_neg (by omega)]
      rw [hbefore, if_pos hv, List.nil_append]
    . rw [ih (by omega), if_neg hv, List.append_nil]

theorem turnOutput_filter
    : (turnOutput log w).filter (·.isAbout v) = if w = v then turnOutput log v else [] := by
  by_cases hwv : w = v
  . subst hwv
    unfold turnOutput
    split
    . simp [Event.isAbout]
    . simp [Event.isAbout]
  . unfold turnOutput
    split
    . simp [Event.isAbout, hwv]
    . simp [Event.isAbout, hwv]

theorem Prints.filter_isAbout (hs : Prints s) (h : v < s.globalCount)
    : s.log.filter (·.isAbout v) = turnOutput s.log v := by
  have houtput : s.log.filter (·.isAbout v) = (s.log.filter (·.isOutput)).filter (·.isAbout v) := by
    rw [List.filter_filter]
    congr 1
    funext e
    cases e with
    | printed => simp [Event.isOutput]
    | waited => simp [Event.isAbout]
    | incremented => simp [Event.isOutput]
  simp only [houtput, hs.outputs, List.filter_flatMap, turnOutput_filter]
  exact flatMap_range_ite h

theorem Prints.mem_incremented_iff (hs : Prints s)
    : .incremented i v ∈ s.log ↔ v < s.globalCount ∧ i = turn v := by
  have houtput : .incremented i v ∈ s.log ↔ .incremented i v ∈ s.log.filter (·.isOutput) := by
    simp [Event.isOutput]
  have hturnOutput : ∀ w, .incremented i v ∈ turnOutput s.log w ↔ v = w ∧ i = turn v := by
    intro w
    unfold turnOutput
    split
    . simp only [List.mem_cons, List.not_mem_nil, reduceCtorEq, Event.incremented.injEq]
      grind
    . simp only [List.mem_cons, List.not_mem_nil, Event.incremented.injEq]
      grind
  rw [houtput, hs.outputs, List.mem_flatMap]
  constructor
  . rintro ⟨w, hw, hmem⟩
    obtain ⟨rfl, hi⟩ := (hturnOutput w).mp hmem
    exact ⟨List.mem_range.mp hw, hi⟩
  . rintro ⟨hv, hi⟩
    exact ⟨v, List.mem_range.mpr hv, (hturnOutput v).mpr ⟨rfl, hi⟩⟩

theorem Prints.printedBefore_iff (hs : Prints s) (h : .incremented i v ∈ s.log)
    : PrintedBefore s.log i v ↔ ∃ w, v = w + 1 ∧ .waited i w ∈ s.log := by
  obtain ⟨hv, rfl⟩ := hs.mem_incremented_iff.mp h
  rw [PrintedBefore, hs.filter_isAbout hv, turnOutput]
  cases v with
  | zero => simp [hadToWait]
  | succ v => simp [hadToWait]

theorem Prints.nothingCounted_iff (hs : Prints s) : PrintsEveryNumber s.log ↔ s.globalCount = 0 := by
  constructor
  . intro h
    by_contra hcount
    have hmem : .incremented (turn 0) 0 ∈ s.log := hs.mem_incremented_iff.mpr ⟨by omega, rfl⟩
    obtain ⟨w, hw, -⟩ := (hs.printedBefore_iff hmem).mp (h.printedBefore _ _ hmem)
    omega
  . intro hcount
    have houtputs := hs.outputs
    rw [hcount, List.range_zero, List.flatMap_nil, List.filter_eq_nil_iff] at houtputs
    have hprints : prints s.log = [] := by
      rw [prints, List.filterMap_eq_nil_iff]
      intro e he
      cases e with
      | printed => exact absurd rfl (houtputs _ he)
      | waited => rfl
      | incremented => rfl
    refine ⟨?_, ⟨0, by rw [hprints]; rfl⟩, by rw [hprints]; exact .nil⟩
    intro i v he
    exact absurd rfl (houtputs _ he)

theorem printsEveryNumber_iff (limit : Nat) (s : State)
    (h : Reachable (step limit) NoSpurious main s)
    : (PrintsEveryNumber s.log ↔ s.globalCount = 0)
      ∧ ∀ i v, .incremented i v ∈ s.log
        → (PrintedBefore s.log i v ↔ ∃ w, v = w + 1 ∧ .waited i w ∈ s.log) := by
  have hs := prints_of_reachable h
  exact ⟨hs.nothingCounted_iff, fun i v he => hs.printedBefore_iff he⟩

theorem printsEveryNumber_iff_oddWaits
    : ∃ s, schedule (step 100) [.run .odd, .run .odd, .run .even, .run .odd] main = some s
      ∧ ((PrintsEveryNumber s.log ↔ s.globalCount = 0)
      ∧ ∀ i v, .incremented i v ∈ s.log
        → (PrintedBefore s.log i v ↔ ∃ w, v = w + 1 ∧ .waited i w ∈ s.log)) :=
  ⟨_, rfl, printsEveryNumber_iff 100 _ (reachable_of_schedule
    [.run .odd, .run .odd, .run .even, .run .odd] (by simp [NoSpurious]) rfl)⟩

theorem not_printsEveryNumber_oddFirst
    : ∃ s, Reachable (step 100) NoSpurious main s ∧ s.log = [.incremented .odd 0]
      ∧ ¬PrintsEveryNumber s.log :=
  ⟨_, reachable_of_schedule [.run .odd] (by simp [NoSpurious]) rfl, rfl,
    fun h => absurd (h.printedBefore .odd 0 (by decide)) (by unfold PrintedBefore; decide)⟩

end Printing

end AlternatePrint
