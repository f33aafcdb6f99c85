import Padhai.Lib.LinkedList

/-!
This module contains the addition of two numbers given as lists of their digits of `addList.c`. All lists are
in one heap.
-/

namespace AddList

open Heap LinkedList

def addNode (head : LinkedList Int) (val : Int) : Checked (LinkedList Int) :=
  head.append val

/--
What a list that may have ended adds to the sum, and the rest of that list.
-/
def addVal (h : Heap (Node Int)) (l : Ptr) (sum : Int) : Checked (Int × Ptr) :=
  if l ≠ none then do
    let n ← h.load l
    return (sum + n.data, n.next)
  else
    return (sum, l)

/--
One turn of the loop of `addTwoNumbers`, where `l3` comes with the heap.
-/
def addDigit : LinkedList Int × Ptr × Ptr × Int
    → Checked (LinkedList Int × Ptr × Ptr × Int ⊕ LinkedList Int × Int)
  | (l3, l1, l2, c) =>
    if l1 ≠ none ∨ l2 ≠ none then do
      let (sum, l1) ← addVal l3.heap l1 0
      let (sum, l2) ← addVal l3.heap l2 sum
      let sum := sum + c
      let c := sum.tdiv 10
      let l3 ← addNode l3 (sum.tmod 10)
      return .inl (l3, l1, l2, c)
    else
      return .inr (l3, c)

def addTwoNumbers (heap : Heap (Node Int)) (l1 l2 : Ptr) : Checked (LinkedList Int) := do
  let (l3, c) ← heap.loop addDigit (⟨heap, none⟩, l1, l2, 0)
  if c ≠ 0 then
    addNode l3 c
  else
    return l3

end AddList
