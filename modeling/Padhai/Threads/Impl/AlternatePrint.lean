import Mathlib.Logic.Function.Basic
import Padhai.Lib.Threads

/-!
This module contains the two threads of `alternate_print.c`, which are the same in
`mutex_sempaphores` and in `pthread`, with any number in place of the 100. A step is what a thread does
while it holds `count_lock`, up to the next `pthread_cond_wait` or to the end of an iteration; in
addition a thread can wake up from `pthread_cond_wait` without a signal.
-/

namespace AlternatePrint

open Threads

inductive Thread where
  | odd
  | even
  deriving DecidableEq, Repr

inductive Event where
  | printed (t : Thread) (value : Nat)
  | waited (t : Thread) (value : Nat)
  | incremented (t : Thread) (value : Nat)
  deriving DecidableEq, Repr

structure State where
  globalCount : Nat
  place : Thread → Place
  log : List Event

inductive Action where
  | run (t : Thread)
  | spurious (t : Thread)
  deriving DecidableEq, Repr

def work (mustWait : Nat → Bool) (limit : Nat) (t : Thread) (s : State) : State :=
  if mustWait s.globalCount then
    { s with
      place := Function.update s.place t .waiting
      log := s.log ++ [.waited t s.globalCount] }
  else
    let globalCount := s.globalCount + 1
    -- No more than one thread can be blocked while the other one signals.
    let place := wakeAll s.place
    { globalCount
      place := Function.update place t (if globalCount > limit then .returned else .start)
      log := s.log ++ [.incremented t s.globalCount] }

/--
The body of both threads, which differ in when they wait.
-/
def alternate (mustWait : Nat → Bool) (limit : Nat) (t : Thread) (s : State) : Option State :=
  match s.place t with
  | .start => some (work mustWait limit t s)
  | .woken =>
    some (work mustWait limit t { s with log := s.log ++ [.printed t s.globalCount] })
  | .waiting => none
  | .returned => none

def oddThread (limit : Nat) : State → Option State :=
  alternate (fun globalCount => globalCount % 2 != 0) limit .odd

def evenThread (limit : Nat) : State → Option State :=
  alternate (fun globalCount => globalCount % 2 == 0) limit .even

def step (limit : Nat) (s : State) : Action → Option State
  | .run .odd => oddThread limit s
  | .run .even => evenThread limit s
  | .spurious t => do
    let place ← wakeOne s.place t
    return { s with place }

def main : State where
  globalCount := 0
  place _ := .start
  log := []

end AlternatePrint
