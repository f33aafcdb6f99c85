import Padhai.Lib.LinkedList

/-!
This module contains the sort of a linked list of `PS_3.c`. A pointer to the data of a node is the pointer
to the node.
-/

namespace SortList

open Heap LinkedList

def insert (head : LinkedList Int) (val : Int) : Checked (LinkedList Int) :=
  head.append val

def build (vals : List Int) : Checked (LinkedList Int) :=
  vals.foldlM insert .empty

def swap (h : Heap (Node Int)) (first second : Ptr) : Checked (Heap (Node Int)) := do
  let temp ← h.load first
  let other ← h.load second
  let h ← h.modify first (fun n => { n with data := other.data })
  h.modify second (fun n => { n with data := temp.data })

/--
The inner loop of `sort`.
-/
def scan (rptr : Ptr) : Heap (Node Int) × Ptr × Bool
    → Checked (Heap (Node Int) × Ptr × Bool ⊕ Heap (Node Int) × Ptr × Bool)
  | (h, current, swapped) => do
    let c ← h.load current
    if c.next = rptr then
      return .inr (h, current, swapped)
    else
      let n ← h.load c.next
      if c.data > n.data then
        let h ← swap h current c.next
        let c ← h.load current
        return .inl (h, c.next, true)
      else
        return .inl (h, c.next, swapped)

/--
One pass of the outer loop of `sort`.
-/
def pass (head : Ptr) : Heap (Node Int) × Ptr
    → Checked (Heap (Node Int) × Ptr ⊕ Heap (Node Int))
  | (h, rptr) => do
    let (h, current, swapped) ← h.loop (scan rptr) (h, head, false)
    if swapped then
      return .inl (h, current)
    else
      return .inr h

def sort (l : LinkedList Int) : Checked (LinkedList Int) := do
  let heap ← l.heap.loop (pass l.head) (l.heap, none)
  return { l with heap }

end SortList
