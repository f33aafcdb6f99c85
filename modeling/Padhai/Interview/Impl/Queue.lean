import Mathlib.Logic.Function.Basic
import Padhai.Lib.Mem

/-!
This module contains the circular queue of `PS_4.c`. A pointer is an `Option` of what it points to, and
the cells that `createQueue` leaves uninitialised are its argument.
-/

namespace Queue

open Mem

variable {ν : Type}

structure MyQueue (ν : Type) where
  data : Fin 10 → Option ν
  front : Int
  rear : Int
  capacity : Int

theorem toNat_lt {i : Int} (h : 0 ≤ i ∧ i < 10) : i.toNat < 10 := by
  omega

def cell (i : Int) : Checked (Fin 10) :=
  if h : 0 ≤ i ∧ i < 10 then
    .ok ⟨i.toNat, toNat_lt h⟩
  else
    .error (.outOfRange 10 i)

def createQueue (data : Fin 10 → Option ν) : MyQueue ν where
  data
  front := -1
  rear := -1
  capacity := 10

def enqueue (Q : MyQueue ν) (root : Option ν) : Checked (MyQueue ν) := do
  let rear := (Q.rear + 1).tmod Q.capacity
  let c ← cell rear
  let data := Function.update Q.data c root
  let front := if Q.front = -1 then rear else Q.front
  return { Q with data, rear, front }

def isEmptyQueue (Q : MyQueue ν) : Bool :=
  Q.front = -1

def dequeue (Q : MyQueue ν) : Checked (Option ν × MyQueue ν) :=
  if isEmptyQueue Q then
    return (none, Q)
  else do
    let c ← cell Q.front
    let temp := Q.data c
    if Q.front = Q.rear then
      return (temp, { Q with front := -1, rear := -1 })
    else
      -- The remainder is taken of the 1 only.
      return (temp, { Q with front := Q.front + Int.tmod 1 Q.capacity })

inductive Call (ν : Type) where
  | enqueue (root : Option ν)
  | dequeue
  deriving DecidableEq, Repr

inductive Result (ν : Type) where
  | void
  | pointer (p : Option ν)
  deriving DecidableEq, Repr

def call (Q : MyQueue ν) : Call ν → Checked (Result ν × MyQueue ν)
  | .enqueue root => do
    let Q ← enqueue Q root
    return (.void, Q)
  | .dequeue => do
    let (temp, Q) ← dequeue Q
    return (.pointer temp, Q)

end Queue
