import Padhai.Lib.Mem

/-!
This module contains the checksum of `myping.c` and of `myping_synchronous.c`, which is the same code. The
host is little-endian.
-/

namespace Ping

open Mem

def loadShort (b : Bytes) (i : Nat) : Checked UInt16 := do
  let lo ← load b i
  let hi ← load b (i + 1)
  return UInt16.ofNat (lo.toNat + hi.toNat * 256)

def lowByte (x : UInt16) : UInt8 :=
  UInt8.ofNat x.toNat

def highByte (x : UInt16) : UInt8 :=
  UInt8.ofNat (x.toNat / 256)

def storeShort (b : Bytes) (i : Nat) (x : UInt16) : Checked Bytes := do
  let b ← store b i (lowByte x)
  store b (i + 1) (highByte x)

/--
The loop of `checksum`, where `buf` is `i` bytes behind `b`.
-/
def addWords (b : Bytes) : (len i : Nat) → (sum : UInt32) → Checked (Nat × Nat × UInt32)
  | len + 2, i, sum => do
    let w ← loadShort b i
    addWords b len (i + 2) (sum + w.toUInt32)
  | len, i, sum => .ok (len, i, sum)

def addLast (b : Bytes) : Nat × Nat × UInt32 → Checked UInt32
  | (len, i, sum) => do
    if len = 1 then
      let c ← load b i
      return sum + c.toUInt32
    else
      return sum

def accumulate (b : Bytes) (len : Nat) : Checked UInt32 := do
  let s ← addWords b len 0 0
  addLast b s

def foldTwice (sum : UInt32) : UInt32 :=
  let sum := (sum >>> 16) + (sum &&& 0xFFFF)
  sum + (sum >>> 16)

def checksum (b : Bytes) (len : Nat) : Checked UInt16 := do
  let sum ← accumulate b len
  return (~~~foldTwice sum).toUInt16

end Ping

namespace PingSynchronous

def checksum (b : Mem.Bytes) (len : Nat) : Mem.Checked UInt16 :=
  Ping.checksum b len

end PingSynchronous
