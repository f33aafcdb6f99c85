import Padhai.DataStruct.Impl.MyList

/-!
This module contains the program of `list.c`, which reads a list and a number to delete from it, and prints
the list before and after. Its input is the numbers that `scanf` can read one after the other.
-/

namespace ListMain

open LinkedList MyList

inductive Fault where
  | heap (e : Heap.Fault)
  | overflow
  deriving DecidableEq, Repr

abbrev Checked := Except Fault

def onHeap {α : Type} (x : Heap.Checked α) : Checked α :=
  x.mapError .heap

def intMin : Int := -2147483648

/--
A `scanf` that finds no number leaves the variable as it was.
-/
def scanf (x : Int) : List Int → Int × List Int
  | [] => (x, [])
  | n :: stdin => (n, stdin)

/--
The loop over `count`. The number that was read last stays in `num`.
-/
def readNodes (head : LinkedList Int) (num : Int) (stdin : List Int) (count : Int)
    : Checked (LinkedList Int × Int × List Int) :=
  if count = 0 then
    return (head, num, stdin)
  else do
    let (num, stdin) := scanf num stdin
    let head ← onHeap (insert head num)
    if count ≤ intMin then
      throw .overflow
    else
      readNodes head num stdin (count - 1)
termination_by (count - intMin).toNat

def askCount : List Char := "Enter the number of nodes: ".toList

def askKey : List Char := "Which node to delete: ".toList

/--
What the program prints, where `count` and `num` hold anything at first.
-/
def main (count num : Int) (stdin : List Int) : Checked (List Char) := do
  let (count, stdin) := scanf count stdin
  let (head, num, stdin) ← readNodes .empty num stdin count
  let before ← onHeap (printlist head)
  let (num, _) := scanf num stdin
  let head ← onHeap (deletenode head num)
  let after ← onHeap (printlist head)
  return askCount ++ before ++ '\n' :: askKey ++ after ++ ['\n']

end ListMain
