import Mathlib.Data.Tree.Basic

/-!
This module contains the search tree of `bst.c`. The link that `insert` is given a pointer to is its
argument and the value it leaves there is its result; what a traversal prints is a list.
-/

namespace Bst

def inorder : BinaryTree Int → List Int
  | .nil => []
  | .node data leftTree rightTree => inorder leftTree ++ data :: inorder rightTree

def preorder : BinaryTree Int → List Int
  | .nil => []
  | .node data leftTree rightTree => data :: (preorder leftTree ++ preorder rightTree)

def postorder : BinaryTree Int → List Int
  | .nil => []
  | .node data leftTree rightTree => postorder leftTree ++ postorder rightTree ++ [data]

def insert (root : BinaryTree Int) (val : Int) : BinaryTree Int :=
  let newNode := .node val .nil .nil
  match root with
  | .nil => newNode
  | .node data leftTree rightTree =>
    if data < val then
      .node data leftTree (insert rightTree val)
    else if data > val then
      .node data (insert leftTree val) rightTree
    else
      -- The node found goes, and with it the subtrees below it.
      newNode

def insertAll (vals : List Int) : BinaryTree Int :=
  vals.foldl insert .nil

end Bst
