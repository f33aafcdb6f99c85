import Padhai.Ping.Impl.Checksum

/-!
This module contains the echo requests of `ping` of `myping.c`: those that it hands to `sendto`, whether it
sends them or not.
-/

namespace Ping

open Mem

def packetSize : Nat := 64

def pingAttempts : Nat := 5

def icmpEcho : UInt8 := 8

namespace Icmphdr

def type : Nat := 0

def code : Nat := 1

def checksum : Nat := 2

def id : Nat := 4

def sequence : Nat := 6

def size : Nat := 8

end Icmphdr

/--
The loop that fills `pckt.msg`, and the zero behind it.
-/
def fillMsg (pckt : Bytes) (i : Nat) : (rounds : Nat) → Checked Bytes
  | 0 => store pckt (Icmphdr.size + i) 0
  | rounds + 1 => do
    let pckt ← store pckt (Icmphdr.size + i) (UInt8.ofNat (i + 48))
    fillMsg pckt (i + 1) rounds

def request (pid : Int) (cnt : Nat) : Checked Bytes := do
  let pckt ← store (zeros packetSize) Icmphdr.type icmpEcho
  let pckt ← storeShort pckt Icmphdr.id (UInt16.ofInt pid)
  let pckt ← fillMsg pckt 0 (packetSize - Icmphdr.size - 1)
  let pckt ← storeShort pckt Icmphdr.sequence (UInt16.ofNat cnt)
  let sum ← checksum pckt packetSize
  storeShort pckt Icmphdr.checksum sum

def requests (pid : Int) (cnt : Nat) : (rounds : Nat) → Checked (List Bytes)
  | 0 => .ok []
  | rounds + 1 => do
    let pckt ← request pid cnt
    let pckts ← requests pid (cnt + 1) rounds
    return pckt :: pckts

def ping (pid : Int) : Checked (List Bytes) :=
  requests pid 1 (pingAttempts - 1)

end Ping
