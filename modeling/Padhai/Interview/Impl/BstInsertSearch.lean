import Mathlib.Data.Tree.Basic
import Padhai.Lib.ArrayQueue

/-!
This module contains the search tree and the traversal of `bst_insert_search.c`. A pointer to a node is the
tree below it, and `start` and `end` are the two indices of the global queue `Q`.
-/

namespace BstInsertSearch

open Mem

/--
All three fields of the node that `getNewNode` allocates are set here.
-/
def insert (root : BinaryTree Int) (data : Int) : BinaryTree Int :=
  match root with
  | .nil => .node data .nil .nil
  | .node rootData left right =>
    if data ≤ rootData then
      .node rootData (insert left data) right
    else if data > rootData then
      .node rootData left (insert right data)
    else
      root

def insertAll (vals : List Int) : BinaryTree Int :=
  vals.foldl insert .nil

abbrev Queue := ArrayQueue (BinaryTree Int)

def Q : Queue := .cleared 100 .nil

def enqueue (q : Queue) (data : BinaryTree Int) : Checked Queue :=
  if q.rear < 100 then
    q.push data
  else
    return q

def dequeue (q : Queue) : Checked (BinaryTree Int × Queue) :=
  if q.front ≥ q.rear then
    return (.nil, q)
  else
    q.pop

def enqueueChild (q : Queue) (child : BinaryTree Int) : Checked Queue :=
  if child ≠ .nil then
    enqueue q child
  else
    return q

/--
The values that are printed. A call that is nested more than `depth` deep is still running.
-/
def levelOrder (depth : Nat) (q : Queue) (root : BinaryTree Int) : Checked (List Int × Queue) :=
  match depth, root with
  | 0, _ => throw .running
  | _ + 1, .nil => return ([], q)
  | depth + 1, .node data left right => do
    let q ← enqueueChild q left
    let q ← enqueueChild q right
    let (root, q) ← dequeue q
    if root ≠ .nil then
      let (printed, q) ← levelOrder depth q root
      return (data :: printed, q)
    else
      return ([data], q)

end BstInsertSearch
