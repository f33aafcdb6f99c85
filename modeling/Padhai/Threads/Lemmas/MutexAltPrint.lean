import Mathlib.Data.List.Range
import Padhai.Threads.Impl.MutexAltPrint

/-!
This module contains that the parity of `cnt_g` alone keeps the threads of `mutex_alt_print.c` apart, whatever
becomes of the mutex.
-/

namespace MutexAltPrint

open Threads

variable {limit v m : Nat} {s t : State} {i j : Thread} {p : Point}
variable {unowned : Option Thread → Thread → Option Thread}

section Turn

def turn (v : Nat) : Thread :=
  if v % 2 = 0 then .func1 else .func2

theorem eq_turn_succ_iff : i = turn (v + 1) ↔ i ≠ turn v := by
  unfold turn
  cases i
  all_goals
    rcases Nat.mod_two_eq_zero_or_one v with h | h
    . simp [h, Nat.add_mod]
    . simp [h, Nat.add_mod]

theorem step_eq : step limit unowned s i = run (fun v => decide (i = turn v)) limit unowned i s := by
  cases i with
  | func1 =>
    simp only [step, func1]
    congr 1
    funext v
    rw [Bool.eq_iff_iff]
    simp [turn]
  | func2 =>
    simp only [step, func2]
    congr 1
    funext v
    rw [Bool.eq_iff_iff]
    simp [turn]

end Turn

section Invariant

def Event.print? : Event → Option (Thread × Nat)
  | .printed t v => some (t, v)
  | .unlocking _ _ => none

def prints (log : List Event) : List (Thread × Nat) :=
  log.filterMap Event.print?

/--
Between the test of the parity and the write.
-/
def Point.inside : Point → Bool
  | .print => true
  | .load => true
  | .store _ => true
  | _ => false

def Point.hasPrinted : Point → Bool
  | .load => true
  | .store _ => true
  | _ => false

/--
Before the test the count has not gone past this number.
-/
def Point.entry (limit : Nat) : Point → Option Nat
  | .lock => some 1
  | .test => some limit
  | p => if p.inside then some limit else none

def State.shown (s : State) : Nat :=
  s.cntG + if (s.point (turn s.cntG)).hasPrinted then 1 else 0

/--
Only the thread whose turn it is can get past the test, and the other one does not enter its turn at the limit.
-/
structure Parity (limit : Nat) (s : State) : Prop where
  prints : prints s.log = (List.range s.shown).map fun v => (turn v, v)
  inside : ∀ i, (s.point i).inside → i = turn s.cntG
  stored : ∀ i v, s.point i = .store v → v = s.cntG + 1
  entry : ∀ i m, (s.point i).entry limit = some m → s.cntG ≤ m ∧ (s.cntG = m → i = turn m)
  returned : ∀ i, s.point i = .returned → limit ≤ s.cntG
  count_le : s.cntG ≤ limit + 1

theorem parity_main : Parity limit main := by
  refine ⟨rfl, ?_, ?_, ?_, ?_, ?_⟩
  . simp [main, Point.inside]
  . simp [main]
  . intro i m hm
    cases hm
    simp [main]
  . simp [main]
  . simp [main]

theorem inside_of_hasPrinted (h : p.hasPrinted) : p.inside := by
  cases p
  all_goals simp [Point.hasPrinted, Point.inside] at h ⊢

theorem entry_of_inside (h : p.inside) : p.entry limit = some limit := by
  cases p
  all_goals simp [Point.inside, Point.entry] at h ⊢

theorem shown_eq (hcnt : t.cntG = s.cntG) (hpoint : t.point = Function.update s.point i p)
    (hp : p.hasPrinted = (s.point i).hasPrinted) : t.shown = s.shown := by
  have hprinted : (t.point (turn s.cntG)).hasPrinted = (s.point (turn s.cntG)).hasPrinted := by
    rw [hpoint]
    by_cases hi : turn s.cntG = i
    . rw [hi, Function.update_self, hp]
    . rw [Function.update_of_ne hi]
  rw [State.shown, State.shown, hcnt, hprinted]

/--
A step that does not write.
-/
theorem Parity.move (hs : Parity limit s) (hcnt : t.cntG = s.cntG) (hpoint : t.point = Function.update s.point i p)
    (hprints : MutexAltPrint.prints t.log = (List.range t.shown).map fun v => (turn v, v))
    (hinside : p.inside → i = turn s.cntG) (hstored : ∀ v, p = .store v → v = s.cntG + 1)
    (hentry : ∀ m, p.entry limit = some m → s.cntG ≤ m ∧ (s.cntG = m → i = turn m))
    (hreturned : p = .returned → limit ≤ s.cntG) : Parity limit t := by
  refine ⟨hprints, ?_, ?_, ?_, ?_, by rw [hcnt]; exact hs.count_le⟩
  all_goals
    rw [hpoint, hcnt]
    intro j
    by_cases hji : j = i
  . rw [hji, Function.update_self]
    exact hinside
  . rw [Function.update_of_ne hji]
    exact hs.inside j
  . rw [hji, Function.update_self]
    exact hstored
  . rw [Function.update_of_ne hji]
    exact hs.stored j
  . rw [hji, Function.update_self]
    exact hentry
  . rw [Function.update_of_ne hji]
    exact hs.entry j
  . rw [hji, Function.update_self]
    exact hreturned
  . rw [Function.update_of_ne hji]
    exact hs.returned j

/--
The write of the number behind the one that has been printed.
-/
theorem Parity.store (hs : Parity limit s) (hi : s.point i = .store v) (hcnt : t.cntG = v)
    (hpoint : t.point = Function.update s.point i .loop) (hlog : t.log = s.log) : Parity limit t := by
  have hv := hs.stored i v hi
  have hturn : i = turn s.cntG := hs.inside i (by rw [hi]; rfl)
  have hle := (hs.entry i limit (entry_of_inside (by rw [hi]; rfl))).1
  have hother : ∀ j, j ≠ i → ¬(s.point j).inside := by
    intro j hji hj
    exact hji (by rw [hs.inside j hj, hturn])
  have hnext : turn (s.cntG + 1) ≠ i := by
    rw [hturn]
    exact eq_turn_succ_iff.mp rfl
  have hshown : s.shown = s.cntG + 1 := by
    rw [State.shown, ← hturn, hi]
    rfl
  have hshown' : t.shown = s.cntG + 1 := by
    have hprinted : ¬(s.point (turn (s.cntG + 1))).hasPrinted :=
      fun h => hother _ hnext (inside_of_hasPrinted h)
    rw [State.shown, hcnt, hv, hpoint, Function.update_of_ne hnext, if_neg hprinted]
  refine ⟨?_, ?_, ?_, ?_, ?_, by omega⟩
  . rw [hlog, hs.prints, hshown, hshown']
  all_goals
    rw [hpoint, hcnt, hv]
    intro j
    by_cases hji : j = i
  . rw [hji, Function.update_self]
    intro h
    contradiction
  . rw [Function.update_of_ne hji]
    intro h
    exact absurd h (hother j hji)
  . rw [hji, Function.update_self]
    intro w h
    contradiction
  . rw [Function.update_of_ne hji]
    intro w h
    exact absurd (by rw [h]; rfl) (hother j hji)
  . rw [hji, Function.update_self]
    intro m h
    contradiction
  . rw [Function.update_of_ne hji]
    intro m h
    obtain ⟨hm, heq⟩ := hs.entry j m h
    -- The other thread cannot have been at its own bound, since it was not its turn.
    have hne : s.cntG ≠ m := by
      intro hcount
      exact hji (by rw [heq hcount, hturn, hcount])
    refine ⟨by omega, ?_⟩
    intro hcount
    rw [← hcount, eq_turn_succ_iff, ← hturn]
    exact hji
  . rw [hji, Function.update_self]
    intro h
    contradiction
  . rw [Function.update_of_ne hji]
    intro h
    have := hs.returned j h
    omega

theorem prints_append {old new : List Event} : prints (old ++ new) = prints old ++ prints new :=
  List.filterMap_append

theorem Parity.move_silent (hs : Parity limit s) (hcnt : t.cntG = s.cntG)
    (hpoint : t.point = Function.update s.point i p)
    (hlog : MutexAltPrint.prints t.log = MutexAltPrint.prints s.log)
    (hprinted : p.hasPrinted = (s.point i).hasPrinted)
    (hinside : p.inside → i = turn s.cntG) (hstored : ∀ v, p = .store v → v = s.cntG + 1)
    (hentry : ∀ m, p.entry limit = some m → s.cntG ≤ m ∧ (s.cntG = m → i = turn m))
    (hreturned : p = .returned → limit ≤ s.cntG) : Parity limit t := by
  apply hs.move hcnt hpoint ?_ hinside hstored hentry hreturned
  rw [hlog, shown_eq hcnt hpoint hprinted, hs.prints]

theorem Parity.print (hs : Parity limit s) (hi : s.point i = .print) (hcnt : t.cntG = s.cntG)
    (hpoint : t.point = Function.update s.point i .load) (hlog : t.log = s.log ++ [.printed i s.cntG])
    : Parity limit t := by
  have hturn : i = turn s.cntG := hs.inside i (by rw [hi]; rfl)
  have hshown : s.shown = s.cntG := by
    rw [State.shown, ← hturn, hi]
    rfl
  have hshown' : t.shown = s.cntG + 1 := by
    rw [State.shown, hcnt, hpoint, ← hturn, Function.update_self]
    rfl
  refine hs.move hcnt hpoint ?_ (fun _ => hturn) (by simp) ?_ (by simp)
  . rw [hlog, prints_append, hs.prints, hshown, hshown', List.range_succ, List.map_append]
    simp [MutexAltPrint.prints, Event.print?, hturn]
  . intro m hm
    apply hs.entry i m
    rw [hi]
    exact hm

theorem Parity.step (hlimit : 0 < limit) (hs : Parity limit s) (h : step limit unowned s i = some t)
    : Parity limit t := by
  rw [step_eq, run] at h
  cases hi : s.point i with
  | lock =>
    simp only [hi] at h
    split at h
    . cases h
      obtain ⟨hle, heq⟩ := hs.entry i 1 (by rw [hi]; rfl)
      refine hs.move_silent (i := i) (p := .test) rfl rfl rfl (by rw [hi]; rfl) (by simp [Point.inside]) (by simp)
        ?_ (by simp)
      intro m hm
      cases hm
      refine ⟨by omega, ?_⟩
      intro hcount
      have hone : limit = 1 := by omega
      rw [hone]
      exact heq (by omega)
    . contradiction
  | test =>
    simp only [hi, Option.some.injEq] at h
    obtain hentry := hs.entry i limit (by rw [hi]; rfl)
    by_cases hturn : i = turn s.cntG
    . rw [decide_eq_true hturn, if_pos rfl] at h
      cases h
      refine hs.move_silent (i := i) (p := .print) rfl rfl rfl (by rw [hi]; rfl) (fun _ => hturn) (by simp) ?_
        (by simp)
      intro m hm
      cases hm
      exact hentry
    . rw [decide_eq_false hturn, if_neg (by simp)] at h
      cases h
      exact hs.move_silent (i := i) (p := .printUnlocking) rfl rfl rfl (by rw [hi]; rfl) (by simp [Point.inside])
        (by simp) (by simp [Point.entry, Point.inside]) (by simp)
  | print =>
    simp only [hi, Option.some.injEq] at h
    cases h
    exact hs.print hi rfl rfl rfl
  | load =>
    simp only [hi, Option.some.injEq] at h
    cases h
    have hturn : i = turn s.cntG := hs.inside i (by rw [hi]; rfl)
    refine hs.move_silent (i := i) (p := .store (s.cntG + 1)) rfl rfl rfl (by rw [hi]; rfl) (fun _ => hturn) ?_ ?_
      (by simp)
    . intro v hv
      cases hv
      rfl
    . intro m hm
      apply hs.entry i m
      rw [hi]
      exact hm
  | store v =>
    simp only [hi, Option.some.injEq] at h
    cases h
    exact hs.store hi rfl rfl rfl
  | printUnlocking =>
    simp only [hi, Option.some.injEq] at h
    cases h
    refine hs.move_silent (i := i) (p := .unlock) rfl rfl ?_ (by rw [hi]; rfl) (by simp [Point.inside]) (by simp)
      (by simp [Point.entry, Point.inside]) (by simp)
    rw [prints_append]
    exact List.append_nil _
  | unlock =>
    simp only [hi, Option.some.injEq] at h
    cases h
    exact hs.move_silent (i := i) (p := .loop) rfl rfl rfl (by rw [hi]; rfl) (by simp [Point.inside]) (by simp)
      (by simp [Point.entry, Point.inside]) (by simp)
  | loop =>
    simp only [hi, Option.some.injEq] at h
    split at h
    . next hlt =>
      cases h
      refine hs.move_silent (i := i) (p := .test) rfl rfl rfl (by rw [hi]; rfl) (by simp [Point.inside]) (by simp)
        ?_ (by simp)
      intro m hm
      cases hm
      exact ⟨hlt.le, by omega⟩
    . next hle =>
      cases h
      exact hs.move_silent (i := i) (p := .returned) rfl rfl rfl (by rw [hi]; rfl) (by simp [Point.inside])
        (by simp) (by simp [Point.entry, Point.inside]) (fun _ => Nat.not_lt.mp hle)
  | returned =>
    simp only [hi] at h
    contradiction

end Invariant

section Runs

theorem Parity.shown_le (hs : Parity limit s) : s.shown ≤ limit + 1 := by
  unfold State.shown
  split
  . next h =>
    have := (hs.entry _ limit (entry_of_inside (inside_of_hasPrinted h))).1
    omega
  . exact hs.count_le

theorem parity_of_schedule {as : List Thread} (hlimit : 0 < limit)
    (h : schedule (step limit unowned) as main = some s) : Parity limit s := by
  apply schedule_invariant (A := fun _ => True) (R := fun _ s => Parity limit s) parity_main ?_
    (fun _ _ => trivial) h
  intro as u i t hu _ hi
  exact hu.step hlimit hi

/--
What the threads print besides that they unlock: the numbers up to the limit at most, each once.
-/
theorem schedule_prints (limit : Nat) (unowned : Option Thread → Thread → Option Thread) (as : List Thread)
    (s : State) (hlimit : 0 < limit) (h : schedule (step limit unowned) as main = some s)
    : ∃ n, prints s.log = (List.range n).map (fun v => (turn v, v))
      ∧ s.cntG ≤ n ∧ n ≤ s.cntG + 1 ∧ n ≤ limit + 1
      ∧ (∀ i j, (s.point i).inside → (s.point j).inside → i = j)
      ∧ ((∃ i, s.point i = .returned) → limit ≤ n) := by
  have hs := parity_of_schedule hlimit h
  have hle : s.cntG ≤ s.shown := Nat.le_add_right _ _
  have hlt : s.shown ≤ s.cntG + 1 := by
    unfold State.shown
    split
    . omega
    . omega
  refine ⟨s.shown, hs.prints, hle, hlt, hs.shown_le, ?_, ?_⟩
  . intro i j hi hj
    rw [hs.inside i hi, hs.inside j hj]
  . rintro ⟨i, hi⟩
    have := hs.returned i hi
    omega

/--
The first thread passes the end of its loop at 1 and prints 2 after the second one has written it.
-/
def pastTheLimit : List Thread :=
  List.replicate 9 .func1 ++ List.replicate 4 .func2 ++ [.func1, .func2] ++ List.replicate 2 .func1

theorem schedule_prints_pastTheLimit
    : ∃ s, schedule (step 2 fun owner _ => owner) pastTheLimit main = some s
      ∧ ∃ n, prints s.log = (List.range n).map (fun v => (turn v, v))
        ∧ s.cntG ≤ n ∧ n ≤ s.cntG + 1 ∧ n ≤ 2 + 1
        ∧ (∀ i j, (s.point i).inside → (s.point j).inside → i = j)
        ∧ ((∃ i, s.point i = .returned) → 2 ≤ n) :=
  ⟨_, rfl, schedule_prints 2 (fun owner _ => owner) pastTheLimit _ (by decide) rfl⟩

end Runs

end MutexAltPrint
