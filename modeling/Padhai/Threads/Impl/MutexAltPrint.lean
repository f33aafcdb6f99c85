import Mathlib.Logic.Function.Basic
import Padhai.Lib.Threads

/-!
This module contains the two threads of `mutex_alt_print.c`, which are the same in `mutex_sempaphores` and in
`pthread`, with any number in place of the 100. A step is a single call or a single read or write of `cnt_g`,
since most of them happen without the mutex. A thread also unlocks the mutex when it does not own it; what that
does to the mutex is `unowned`.
-/

namespace MutexAltPrint

open Threads

inductive Thread where
  | func1
  | func2
  deriving DecidableEq, Repr

inductive Point where
  | lock
  | test
  | print
  | load
  | store (value : Nat)
  | printUnlocking
  | unlock
  | loop
  | returned
  deriving DecidableEq, Repr

inductive Event where
  | printed (t : Thread) (value : Nat)
  | unlocking (t : Thread) (value : Nat)
  deriving DecidableEq, Repr

structure State where
  cntG : Nat
  owner : Option Thread
  point : Thread → Point
  log : List Event

def State.goto (s : State) (t : Thread) (p : Point) : State :=
  { s with point := Function.update s.point t p }

/--
The body of both threads, which differ in the numbers that they print.
-/
def run (mine : Nat → Bool) (limit : Nat) (unowned : Option Thread → Thread → Option Thread) (t : Thread)
    (s : State) : Option State :=
  match s.point t with
  | .lock => if s.owner = none then some { s.goto t .test with owner := some t } else none
  | .test => some (s.goto t (if mine s.cntG then .print else .printUnlocking))
  | .print => some { s.goto t .load with log := s.log ++ [.printed t s.cntG] }
  | .load => some (s.goto t (.store (s.cntG + 1)))
  | .store value => some { s.goto t .loop with cntG := value }
  | .printUnlocking => some { s.goto t .unlock with log := s.log ++ [.unlocking t s.cntG] }
  | .unlock =>
    some { s.goto t .loop with owner := if s.owner = some t then none else unowned s.owner t }
  | .loop => some (s.goto t (if s.cntG < limit then .test else .returned))
  | .returned => none

def func1 (limit : Nat) (unowned : Option Thread → Thread → Option Thread) : State → Option State :=
  run (fun cntG => cntG % 2 == 0) limit unowned .func1

def func2 (limit : Nat) (unowned : Option Thread → Thread → Option Thread) : State → Option State :=
  run (fun cntG => cntG % 2 != 0) limit unowned .func2

def step (limit : Nat) (unowned : Option Thread → Thread → Option Thread) (s : State) : Thread → Option State
  | .func1 => func1 limit unowned s
  | .func2 => func2 limit unowned s

def main : State where
  cntG := 0
  owner := none
  point _ := .lock
  log := []

end MutexAltPrint
