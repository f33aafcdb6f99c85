import Mathlib.Logic.Function.Basic
import Padhai.Lib.Threads

/-!
This module contains the threads of `sem_usage.c`: any number of threads that count, where the source has 5, and
the one that broadcasts. A step is what a thread does while it holds `my_mutex`; in addition a thread can wake up
from `pthread_cond_wait` without a broadcast.
-/

namespace SemUsage

open Threads

variable {n : Nat}

inductive Event (n : Nat) where
  | thread (i : Fin n) (count : Nat)
  | cons (count : Nat)
  deriving DecidableEq, Repr

structure State (n : Nat) where
  count : Nat
  thread : Fin n → Place
  log : List (Event n)

inductive Action (n : Nat) where
  | thread (i : Fin n)
  | cons
  | spurious (i : Fin n)
  deriving DecidableEq, Repr

def funcThread (s : State n) (i : Fin n) : Option (State n) :=
  match s.thread i with
  | .start => some { s with thread := Function.update s.thread i .waiting }
  | .waiting => none
  | .woken =>
    let count := s.count + 1
    some { s with
      count
      thread := Function.update s.thread i .start
      log := s.log ++ [.thread i count] }
  | .returned => none

def consThread (s : State n) : State n :=
  { s with
    thread := wakeAll s.thread
    log := s.log ++ [.cons s.count] }

def step (s : State n) : Action n → Option (State n)
  | .thread i => funcThread s i
  | .cons => some (consThread s)
  | .spurious i => do
    let thread ← wakeOne s.thread i
    return { s with thread }

def main (n : Nat) : State n where
  count := 0
  thread _ := .start
  log := []

end SemUsage
