import Mathlib.Data.Tree.Basic
import Padhai.Lib.ArrayQueue

/-!
This module contains the mirror image of a tree and the traversal of `bst_mirror.c`. A pointer to a node is
the tree below it; neither `enqueue` nor `dequeue` checks that there is room or an element.
-/

namespace BstMirror

open Mem

def mirror : BinaryTree Int → BinaryTree Int
  | .nil => .nil
  | .node data left right =>
    let left := mirror left
    let right := mirror right
    let temp := left
    .node data right temp

abbrev Queue := ArrayQueue (BinaryTree Int)

def maxQLen : Nat := 10

def Q : Queue := .cleared maxQLen .nil

def enqueue (q : Queue) (root : BinaryTree Int) : Checked Queue :=
  q.push root

def dequeue (q : Queue) : Checked (BinaryTree Int × Queue) :=
  q.pop

def enqueueChild (q : Queue) (child : BinaryTree Int) : Checked Queue :=
  if child ≠ .nil then
    enqueue q child
  else
    return q

/--
One turn of the loop of `levelOrderTraversal`, with the values that were printed.
-/
def visit : Queue × BinaryTree Int × List Int
    → Checked (Queue × BinaryTree Int × List Int ⊕ Queue × List Int)
  | (q, .nil, printed) => return .inr (q, printed)
  | (q, .node data left right, printed) => do
    let q ← enqueueChild q left
    let q ← enqueueChild q right
    let (temp, q) ← dequeue q
    return .inl (q, temp, printed ++ [data])

/--
The newline that follows the values is left out.
-/
def levelOrderTraversal (turns : Nat) (q : Queue) (root : BinaryTree Int) : Checked (Queue × List Int) :=
  if root = .nil then
    return (q, [])
  else
    loop turns visit (q, root, [])

end BstMirror
