import Padhai.Lib.LinkedTree

/-!
This module contains the tree of `bst.c` with its nodes in memory. A `mytree **` is the link that it points to.
-/

namespace BstNodes

open Heap (Ptr Checked)
open LinkedTree (Node Link)

/--
A call that is nested more than `depth` deep is still running. Every call allocates a node, also where it
passes the value on to the next one.
-/
def insert (depth : Nat) (t : LinkedTree Int) (root : Link) (val : Int) : Checked (LinkedTree Int) :=
  match depth with
  | 0 => throw .running
  | depth + 1 => do
    let newNode := some t.heap.cells.length
    let t := { t with heap := t.heap.alloc ⟨val, none, none⟩ }
    let p ← t.load root
    if p = none then
      t.assign newNode root
    else
      let n ← t.heap.load p
      if n.data < val then
        insert depth t (.right p) val
      else if n.data > val then
        insert depth t (.left p) val
      else
        t.assign newNode root

/--
There are no more calls at once than nodes and one.
-/
def insertAll (t : LinkedTree Int) (vals : List Int) : Checked (LinkedTree Int) :=
  vals.foldlM (fun t val => insert (t.heap.cells.length + 1) t .var val) t

/--
The three traversals, which differ in where the value of a node is printed.
-/
def traverse (join : List Int → Int → List Int → List Int) (depth : Nat) (h : Heap (Node Int)) (root : Ptr)
    : Checked (List Int) :=
  match depth with
  | 0 => throw .running
  | depth + 1 =>
    if root = none then
      return []
    else do
      let n ← h.load root
      let left ← traverse join depth h n.left
      let right ← traverse join depth h n.right
      return join left n.data right

def inorder : Nat → Heap (Node Int) → Ptr → Checked (List Int) :=
  traverse fun left data right => left ++ data :: right

def postorder : Nat → Heap (Node Int) → Ptr → Checked (List Int) :=
  traverse fun left data right => left ++ right ++ [data]

def preorder : Nat → Heap (Node Int) → Ptr → Checked (List Int) :=
  traverse fun left data right => data :: (left ++ right)

/--
It stores the value of the root and prints nothing. Without a root it reads through the null pointer, which
ends the run before it gets to the calls behind that.
-/
def levelorder (h : Heap (Node Int)) (root : Ptr) : Checked Unit := do
  let _ ← h.load root
  return ()

/--
What the program prints of its tree: in preorder, in postorder and in order.
-/
def printAll (t : LinkedTree Int) : Checked (List Int × List Int × List Int) := do
  let depth := t.heap.cells.length + 1
  let pre ← preorder depth t.heap t.root
  let post ← postorder depth t.heap t.root
  let ordered ← inorder depth t.heap t.root
  levelorder t.heap t.root
  return (pre, post, ordered)

/--
The program for the value of the first node and those that it inserts. The links of the first node are what
`memory` holds there.
-/
def main (memory : Node Int) (first : Int) (vals : List Int) : Checked (List Int × List Int × List Int) := do
  let t ← insertAll ⟨Heap.empty.alloc { memory with data := first }, some 0⟩ vals
  printAll t

end BstNodes
