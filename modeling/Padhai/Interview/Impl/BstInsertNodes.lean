import Padhai.Lib.ArrayQueue
import Padhai.Lib.LinkedTree

/-!
This module contains the program of `bst_insert_search.c` with its nodes in memory. `memory` is what an
address holds before it is allocated.
-/

namespace BstInsertNodes

open Heap (Ptr)
open LinkedTree

def getNewNode (memory : Nat → Node Int) (h : Heap (Node Int)) : LinkedTree Int :=
  ⟨h.alloc (memory h.cells.length), some h.cells.length⟩

/--
A call that is nested more than `depth` deep is still running.
-/
def insert (memory : Nat → Node Int) (depth : Nat) (h : Heap (Node Int)) (root : Ptr) (data : Int)
    : Heap.Checked (LinkedTree Int) :=
  match depth with
  | 0 => throw .running
  | depth + 1 =>
    if root = none then do
      let t := getNewNode memory h
      let h ← t.heap.modify t.root (fun n => { n with data := data })
      let h ← h.modify t.root (fun n => { n with left := none, right := none })
      return ⟨h, t.root⟩
    else do
      let n ← h.load root
      if data ≤ n.data then
        let t ← insert memory depth h n.left data
        let h ← t.heap.modify root (fun n => { n with left := t.root })
        return ⟨h, root⟩
      else if data > n.data then
        let t ← insert memory depth h n.right data
        let h ← t.heap.modify root (fun n => { n with right := t.root })
        return ⟨h, root⟩
      else
        return ⟨h, root⟩

/--
There are no more calls at once than nodes.
-/
def insertAll (memory : Nat → Node Int) (t : LinkedTree Int) (vals : List Int)
    : Heap.Checked (LinkedTree Int) :=
  vals.foldlM (fun t data => insert memory (t.heap.cells.length + 1) t.heap t.root data) t

abbrev Queue := ArrayQueue Ptr

def Q : Queue := .cleared 100 none

def enqueue (q : Queue) (data : Ptr) : Mem.Checked Queue :=
  if q.rear < 100 then
    q.push data
  else
    return q

def dequeue (q : Queue) : Mem.Checked (Ptr × Queue) :=
  if q.front ≥ q.rear then
    return (none, q)
  else
    q.pop

def enqueueChild (q : Queue) (child : Ptr) : Mem.Checked Queue :=
  if child ≠ none then
    enqueue q child
  else
    return q

/--
The values that are printed.
-/
def levelOrder (depth : Nat) (h : Heap (Node Int)) (q : Queue) (root : Ptr) : Checked (List Int × Queue) :=
  match depth with
  | 0 => throw (.array .running)
  | depth + 1 =>
    if root = none then
      return ([], q)
    else do
      let n ← onHeap (h.load root)
      let q ← onArray (enqueueChild q n.left)
      let q ← onArray (enqueueChild q n.right)
      let (root, q) ← onArray (dequeue q)
      if root ≠ none then
        let (printed, q) ← levelOrder depth h q root
        return (n.data :: printed, q)
      else
        return ([n.data], q)

/--
It prints the left child only.
-/
def preorder (h : Heap (Node Int)) (root : Ptr) : Checked (List Int) :=
  if root = none then
    return []
  else do
    let n ← onHeap (h.load root)
    if n.left ≠ none then
      let c ← onHeap (h.load n.left)
      return [c.data]
    else
      return []

/--
The program for the values that it inserts.
-/
def main (memory : Nat → Node Int) (depth : Nat) (vals : List Int) : Checked (List Int) := do
  let t ← onHeap (insertAll memory .empty vals)
  let (levels, _) ← levelOrder depth t.heap Q t.root
  let left ← preorder t.heap t.root
  return levels ++ left

end BstInsertNodes
