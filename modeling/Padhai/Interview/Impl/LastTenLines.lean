import Padhai.Lib.Mem

/-!
This module contains the backward scan of `last_ten_lines.c`. The text is the characters of a string, and a
pointer into it is their index, which may go up to the end of the string but not below 0.
-/

namespace LastTenLines

open Mem

def delim : UInt8 := 10

def strrchr (str : Bytes) (c : UInt8) : Option Nat :=
  (str.reverse.idxOf? c).map fun k => str.length - 1 - k

def advance (str : Bytes) (ptr offset : Int) : Checked Int :=
  if 0 ≤ ptr + offset ∧ ptr + offset ≤ str.length then
    return ptr + offset
  else
    throw (.outOfRange str.length (ptr + offset))

/--
One turn of the loop.
-/
def scan (str : Bytes) : Int × Int → Checked (Int × Int ⊕ Int)
  | (n, lastPtr) =>
    if n ≥ 0 then do
      let c ← loadAt str lastPtr
      let (n, lastPtr) ←
        if c = delim then do
          let lastPtr ← advance str lastPtr (-1)
          pure (n - 1, lastPtr)
        else
          pure (n, lastPtr)
      let lastPtr ← advance str lastPtr (-1)
      return .inl (n, lastPtr)
    else
      return .inr lastPtr

/--
The text that is printed from `lastPtr` on.
-/
def main (turns : Nat) (str : Bytes) (n : Int) : Checked Bytes :=
  match strrchr str delim with
  | none => throw (.outOfRange 0 0)
  | some lastPtr => do
    let lastPtr ← loop turns (scan str) (n, lastPtr)
    let lastPtr ← advance str lastPtr 2
    return str.drop lastPtr.toNat

end LastTenLines
