import Mathlib.Data.Tree.Basic

/-!
This module contains the search for the path with the maximum sum of `PS_4.c`. The address of a node is what a
pointer to it is compared by, and no two nodes of a tree have the same one. A sum that does not fit in an int
and the use of a pointer that was never assigned end the run.
-/

namespace MaxSumPath

structure Node where
  addr : Nat
  data : Int
  deriving DecidableEq, Repr

def addrs : BinaryTree Node → List Nat
  | .nil => []
  | .node node left right => node.addr :: (addrs left ++ addrs right)

structure Tree where
  root : BinaryTree Node
  distinct : (addrs root).Nodup

inductive Fault where
  | overflow (n : Int)
  | unassigned
  deriving DecidableEq, Repr

abbrev Checked := Except Fault

def intMin : Int := -2147483648

def intMax : Int := 2147483647

def add (m n : Int) : Checked Int :=
  if intMin ≤ m + n ∧ m + n ≤ intMax then
    return m + n
  else
    throw (.overflow (m + n))

/--
Whether the target is below `root`, and the values that are printed.
-/
def printPath (root : BinaryTree Node) (targetLeaf : Nat) : Bool × List Int :=
  match root with
  | .nil => (false, [])
  | .node root left right =>
    if root.addr = targetLeaf then
      (true, [root.data])
    else
      let (found, printed) := printPath left targetLeaf
      if found then
        (true, printed ++ [root.data])
      else
        let (found, printed') := printPath right targetLeaf
        if found then
          (true, printed ++ printed' ++ [root.data])
        else
          (false, printed ++ printed')

/--
`best` is what `max_sum_ref` and `target_leaf_ref` point to.
-/
def getTargetLeaf (node : BinaryTree Node) (best : Int × Option Nat) (currSum : Int)
    : Checked (Int × Option Nat) :=
  match node with
  | .nil => return best
  | .node node left right => do
    let currSum ← add currSum node.data
    let best :=
      if left = .nil ∧ right = .nil then
        if currSum > best.1 then (currSum, some node.addr) else best
      else
        best
    let best ← getTargetLeaf left best currSum
    getTargetLeaf right best currSum

/--
The sum that is returned and the values that are printed.
-/
def maxSumPath (node : BinaryTree Node) : Checked (Int × List Int) :=
  if node = .nil then
    return (0, [])
  else do
    let (maxSum, targetLeaf) ← getTargetLeaf node (intMin, none) 0
    match targetLeaf with
    | none => throw .unassigned
    | some targetLeaf =>
      let (_, printed) := printPath node targetLeaf
      return (maxSum, printed)

end MaxSumPath
