import Padhai.Lib.LinkedList

/-!
This module contains the list store of `mylist.c`. The variable `prev` of `deletenode`, which is declared
without a value, is an `Option` of a pointer.
-/

namespace MyList

open Heap LinkedList

def insert (head : LinkedList Int) (data : Int) : Checked (LinkedList Int) :=
  head.append data

/--
The first loop of `deletenode`.
-/
def dropHead (key : Int) : LinkedList Int × Ptr
    → Checked (LinkedList Int × Ptr ⊕ LinkedList Int × Ptr)
  | (l, temp) =>
    if temp = none then
      return .inr (l, temp)
    else do
      let c ← l.heap.load temp
      if c.data = key then
        let heap ← l.heap.free temp
        return .inl (⟨heap, c.next⟩, c.next)
      else
        return .inr (l, temp)

/--
The inner loop of `deletenode`.
-/
def search (key : Int) (h : Heap (Node Int))
    : Option Ptr × Ptr → Checked (Option Ptr × Ptr ⊕ Option Ptr × Ptr)
  | (prev, temp) =>
    if temp = none then
      return .inr (prev, temp)
    else do
      let c ← h.load temp
      if c.data ≠ key then
        return .inl (some temp, c.next)
      else
        return .inr (prev, temp)

/--
The outer loop of `deletenode`.
-/
def unlink (key : Int) : Heap (Node Int) × Option Ptr × Ptr
    → Checked (Heap (Node Int) × Option Ptr × Ptr ⊕ Heap (Node Int))
  | (h, prev, temp) =>
    if temp = none then
      return .inr h
    else do
      let (prev, temp) ← h.loop (search key h) (prev, temp)
      if temp = none then
        return .inr h
      else
        let p ← assigned prev
        let c ← h.load temp
        let h ← h.modify p (fun n => { n with next := c.next })
        let h ← h.free temp
        let n ← h.load p
        return .inl (h, prev, n.next)

def deletenode (headRef : LinkedList Int) (key : Int) : Checked (LinkedList Int) := do
  let (l, temp) ← headRef.heap.loop (dropHead key) (headRef, headRef.head)
  let heap ← l.heap.loop (unlink key) (l.heap, none, temp)
  return { l with heap }

/--
`%d` of a number.
-/
def decimal : Int → List Char
  | .ofNat n => Nat.toDigits 10 n
  | .negSucc n => '-' :: Nat.toDigits 10 (n + 1)

/--
The loop of `printlist`, with what has been printed so far.
-/
def printNode (h : Heap (Node Int))
    : List Char × Ptr → Checked (List Char × Ptr ⊕ List Char)
  | (out, head) =>
    if head = none then
      return .inr (out ++ ['N', 'U', 'L', 'L'])
    else do
      let c ← h.load head
      return .inl (out ++ decimal c.data ++ ['-', '>'], c.next)

def printlist (l : LinkedList Int) : Checked (List Char) :=
  l.heap.loop (printNode l.heap) ([], l.head)

inductive Call where
  | insert (data : Int)
  | deletenode (key : Int)
  deriving DecidableEq, Repr

def call (l : LinkedList Int) : Call → Checked (Unit × LinkedList Int)
  | .insert data => do
    let l ← insert l data
    return ((), l)
  | .deletenode key => do
    let l ← deletenode l key
    return ((), l)

end MyList
