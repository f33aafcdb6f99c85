import Mathlib.Logic.Function.Basic
import Padhai.Lib.Threads

/-!
This module contains the threads of `prod_consumer.c`, `np` that run `produce` and `nc` that run
`consume`. A step is a `sem_wait`, a section under `my_mutex` or a `sem_post`. `buffer` is the memory
from the start of the array on, so that a thread can leave the array, and the log has what is printed.
-/

namespace ProdConsumer

open Threads

@[simp] def bufLen : Int := 5
@[simp] def niters : Int := 5

inductive Point where
  | wait
  | critical
  | post
  deriving DecidableEq, Repr

structure Thread where
  i : Int
  point : Point
  deriving DecidableEq, Repr

inductive Event (np nc : Nat) where
  | produced (p : Fin np) (slot item : Int)
  | consumed (c : Fin nc) (slot item : Int)
  deriving DecidableEq, Repr

structure State (np nc : Nat) where
  buffer : Int → Int
  bufFull : Nat
  bufEmpty : Nat
  producer : Fin np → Thread
  consumer : Fin nc → Thread
  log : List (Event np nc)

inductive Action (np nc : Nat) where
  | producer (p : Fin np)
  | consumer (c : Fin nc)
  deriving DecidableEq, Repr

variable {np nc : Nat}

def produce (s : State np nc) (p : Fin np) : Option (State np nc) :=
  let i := (s.producer p).i
  match (s.producer p).point with
  | .wait =>
    if i ≤ niters then do
      let bufEmpty ← semWait s.bufEmpty
      return { s with bufEmpty, producer := Function.update s.producer p ⟨i, .critical⟩ }
    else
      none
  | .critical =>
    let buffer := Function.update s.buffer i i
    some { s with
      buffer
      producer := Function.update s.producer p ⟨i, .post⟩
      log := s.log ++ [.produced p i (buffer i)] }
  | .post =>
    some { s with
      bufFull := semPost s.bufFull
      producer := Function.update s.producer p ⟨i + 1, .wait⟩ }

def consume (s : State np nc) (c : Fin nc) : Option (State np nc) :=
  let i := (s.consumer c).i
  match (s.consumer c).point with
  | .wait =>
    if 0 ≤ i then do
      let bufFull ← semWait s.bufFull
      return { s with bufFull, consumer := Function.update s.consumer c ⟨i, .critical⟩ }
    else
      none
  | .critical =>
    -- The consumer stores into the slot as well before it prints it.
    let buffer := Function.update s.buffer i i
    some { s with
      buffer
      consumer := Function.update s.consumer c ⟨i, .post⟩
      log := s.log ++ [.consumed c i (buffer i)] }
  | .post =>
    some { s with
      bufEmpty := semPost s.bufEmpty
      consumer := Function.update s.consumer c ⟨i - 1, .wait⟩ }

def step (s : State np nc) : Action np nc → Option (State np nc)
  | .producer p => produce s p
  | .consumer c => consume s c

/--
The threads as `main` starts them, with the values it gives the semaphores.
-/
def main (np nc : Nat) : State np nc where
  buffer _ := 0
  bufFull := 1
  bufEmpty := bufLen.toNat
  producer _ := ⟨0, .wait⟩
  consumer _ := ⟨niters, .wait⟩
  log := []

end ProdConsumer
