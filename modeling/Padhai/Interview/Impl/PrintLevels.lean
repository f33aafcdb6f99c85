import Mathlib.Data.Tree.Basic
import Padhai.Interview.Impl.Queue

/-!
This module contains the traversal of `PS_4.c` through its circular queue. A pointer to a node is the tree below
it, and in the queue it is an `Option` of the fields of the node.
-/

namespace PrintLevels

open Mem Queue

structure Node where
  data : Int
  left : BinaryTree Int
  right : BinaryTree Int

def pointer : BinaryTree Int → Option Node
  | .nil => none
  | .node data left right => some { data, left, right }

structure State where
  Q : MyQueue Node
  printed : List Int

def enqueueChild (Q : MyQueue Node) (child : BinaryTree Int) : Checked (MyQueue Node) :=
  if child ≠ .nil then
    enqueue Q (pointer child)
  else
    return Q

/--
One turn of the loop of `levelorder`.
-/
def visit (s : State) : Checked (State ⊕ List Int) :=
  if isEmptyQueue s.Q then
    return .inr s.printed
  else do
    let (temp, Q) ← dequeue s.Q
    match temp with
    | none => return .inr s.printed
    | some temp =>
      let printed := s.printed ++ [temp.data]
      let Q ← enqueueChild Q temp.left
      let Q ← enqueueChild Q temp.right
      return .inl { Q, printed }

/--
The values that are printed. The cells that `createQueue` does not set are `cells`.
-/
def levelorder (fuel : Nat) (cells : Fin 10 → Option Node) (root : BinaryTree Int) : Checked (List Int) := do
  let Q ← enqueue (createQueue cells) (pointer root)
  loop fuel visit { Q, printed := [] }

end PrintLevels
