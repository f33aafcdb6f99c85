import Padhai.Lib.Mem
import Padhai.Lib.Traced

/-!
This module contains the program of `reverse_string.c`, which reads a line and prints it turned around. A pointer
into the block `str` is an index, and the run logs the two pointers that every call of `swap` gets.
-/

namespace ReverseString

open Mem

abbrev Run := Traced Fault (Nat × Nat)

def strLen : Nat := 256

/--
The assignment `*d = (*s ^ *c)`.
-/
def assignXor (str : Bytes) (d s c : Nat) : Checked Bytes := do
  let x ← load str s
  let y ← load str c
  store str d (x ^^^ y)

def swap (str : Bytes) (s c : Nat) : Checked Bytes := do
  let str ← assignXor str s s c
  let str ← assignXor str c s c
  assignXor str s s c

/--
The loop of `main`, from the index `i` on.
-/
def swaps (len i : Nat) (str : Bytes) : Run Bytes :=
  if i < len / 2 then do
    Traced.emit (i, len - i - 1)
    let str ← swap str i (len - i - 1)
    swaps len (i + 1) str
  else
    return str
termination_by len / 2 - i

def reverse (str : Bytes) : Run Bytes := do
  let len ← strlen str
  swaps len 0 str

def newline : UInt8 := 10

def line (stdin : Bytes) : Bytes :=
  stdin.takeWhile (· != newline)

/--
At the end of the input nothing is stored, otherwise the line is, however long it is.
-/
def gets (str stdin : Bytes) : Checked Bytes :=
  if stdin = [] then
    return str
  else
    memcpy str 0 (line stdin ++ [0])

/--
The string that is printed, where `malloc` returns the block `str`. The texts printed around it are left out.
-/
def main (str stdin : Bytes) : Run Bytes := do
  let str ← memset str 0 strLen
  let str ← gets str stdin
  let str ← reverse str
  return cstr str

end ReverseString
