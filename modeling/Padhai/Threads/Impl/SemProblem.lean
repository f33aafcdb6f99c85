import Mathlib.Logic.Function.Basic
import Padhai.Lib.Threads

/-!
This module contains the six producers and the consumer of `sem_problem.c`. A step is what a thread
does while it holds `mutex1`, or the `sem_wait` of the consumer; in addition a producer can wake up from
`pthread_cond_wait` without a broadcast.
-/

namespace SemProblem

open Threads

inductive Consumer where
  | semWait
  | reset
  deriving DecidableEq, Repr

inductive Event where
  | arrived (i : Fin 6)
  | reset
  deriving DecidableEq, Repr

structure State where
  cSem : Nat
  count : Nat
  producer : Fin 6 → Place
  consumer : Consumer
  log : List Event

inductive Action where
  | producer (i : Fin 6)
  | consumer
  | spurious (i : Fin 6)
  deriving DecidableEq, Repr

def producerThread (s : State) (i : Fin 6) : Option State :=
  match s.producer i with
  | .start =>
    let count := s.count + 1
    some { s with
      count
      cSem := if count = 6 then semPost s.cSem else s.cSem
      producer := Function.update s.producer i .waiting
      log := s.log ++ [.arrived i] }
  | .waiting => none
  | .woken =>
    -- There is no loop around the wait, so the producer goes on to its next round.
    some { s with producer := Function.update s.producer i .start }
  | .returned => none

def consumerThread (s : State) : Option State :=
  match s.consumer with
  | .semWait => do
    let cSem ← semWait s.cSem
    return { s with cSem, consumer := .reset }
  | .reset =>
    some { s with
      count := 0
      producer := wakeAll s.producer
      consumer := .semWait
      log := s.log ++ [.reset] }

def step (s : State) : Action → Option State
  | .producer i => producerThread s i
  | .consumer => consumerThread s
  | .spurious i => do
    let producer ← wakeOne s.producer i
    return { s with producer }

def main : State where
  cSem := 0
  count := 0
  producer _ := .start
  consumer := .semWait
  log := []

end SemProblem
