import Padhai.Interview.Impl.BstMirror
import Padhai.Lib.LinkedTree

/-!
This module contains the program of `bst_mirror.c` with its nodes in memory.
-/

namespace BstMirrorNodes

open Heap (Ptr)
open LinkedTree
open BstMirror (maxQLen)

/--
A call that is nested more than `depth` deep is still running.
-/
def mirror (depth : Nat) (h : Heap (Node Int)) (root : Ptr) : Heap.Checked (Heap (Node Int)) :=
  match depth with
  | 0 => throw .running
  | depth + 1 =>
    if root = none then
      return h
    else do
      let n ← h.load root
      let h ← mirror depth h n.left
      let n ← h.load root
      let h ← mirror depth h n.right
      let n ← h.load root
      let temp := n.left
      let h ← h.modify root (fun n => { n with left := n.right })
      h.modify root (fun n => { n with right := temp })

abbrev Queue := ArrayQueue Ptr

def Q : Queue := .cleared maxQLen none

def enqueue (q : Queue) (root : Ptr) : Mem.Checked Queue :=
  q.push root

def dequeue (q : Queue) : Mem.Checked (Ptr × Queue) :=
  q.pop

def enqueueChild (q : Queue) (child : Ptr) : Mem.Checked Queue :=
  if child ≠ none then
    enqueue q child
  else
    return q

def visit (h : Heap (Node Int)) : Queue × Ptr × List Int
    → Checked (Queue × Ptr × List Int ⊕ Queue × List Int)
  | (q, temp, printed) =>
    if temp = none then
      return .inr (q, printed)
    else do
      let n ← onHeap (h.load temp)
      let q ← onArray (enqueueChild q n.left)
      let q ← onArray (enqueueChild q n.right)
      let (temp, q) ← onArray (dequeue q)
      return .inl (q, temp, printed ++ [n.data])

def levelOrderTraversal (turns : Nat) (h : Heap (Node Int)) (q : Queue) (root : Ptr)
    : Checked (Queue × List Int) :=
  if root = none then
    return (q, [])
  else
    (Loop.run (visit h) turns (q, root, [])).getD (.error (.array .running))

/--
The program after it has built its tree: what the two traversals print, the second one with the queue cleared
again. There are no more calls of `mirror` at once than nodes.
-/
def main (turns : Nat) (t : LinkedTree Int) : Checked (List Int × List Int) := do
  let (_, before) ← levelOrderTraversal turns t.heap Q t.root
  let heap ← onHeap (mirror (t.heap.cells.length + 1) t.heap t.root)
  let (_, after) ← levelOrderTraversal turns heap Q t.root
  return (before, after)

end BstMirrorNodes
