import Padhai.Ping.Impl.Listener

/-!
This module contains the program of `myping_synchronous.c`, which sends its requests a first time, and then
a second time while a process of its own shows what arrives. Each socket is the list of what the next calls
of `recvfrom` on it come back with, and the calls after that fail.
-/

namespace PingSynchronous

open Mem Ping

def pingAttempts : Nat := 4

section Display

/--
`%02x` of a byte.
-/
def hexByte (c : UInt8) : List Char :=
  [(c.toNat / 16).digitChar, (c.toNat % 16).digitChar]

/--
`%04x` of an offset in the buffer, which has no more than four digits.
-/
def hexOffset (i : Nat) : List Char :=
  [i / 4096 % 16, i / 256 % 16, i / 16 % 16, i % 16].map Nat.digitChar

def rowStart (i : Nat) : List Char :=
  if i % 16 = 0 then ['\n', '0', 'x'] ++ hexOffset i ++ [':', ' ', ' '] else []

/--
The loop of `display` that prints the bytes, from the index `i` on.
-/
def dump (buf : Bytes) : (left i : Nat) → Checked (List Char)
  | 0, _ => .ok ['\n']
  | left + 1, i => do
    let c ← load buf i
    let rest ← dump buf left (i + 1)
    return rowStart i ++ hexByte c ++ ' ' :: rest

structure Shown where
  raw : List Char
  lines : List Line
  deriving DecidableEq

def display (pid : Int) (buf : Bytes) (bytes : Nat) : Checked Shown := do
  let raw ← dump buf bytes 0
  let ip ← displayIp buf
  let icmp ← displayIcmp pid buf
  return ⟨raw, .text "----------------" :: ip :: icmp⟩

end Display

section Listener

/--
One round of the loop of `listener`, with the buffer as the round before left it; `none` is printed by
`perror`.
-/
def receive (pid : Int) (buf : Bytes) (r : Received) : Checked (Bytes × Option Shown) := do
  let buf ← memset buf 0 bufSize
  let (buf, bytes) ← Ping.recvfrom buf r
  if 0 < bytes then
    let shown ← display pid buf bytes.toNat
    return (buf, some shown)
  else
    return (buf, none)

def receiveAll (pid : Int) (buf : Bytes) : (rounds : Nat) → List Received → Checked (List (Option Shown))
  | 0, _ => .ok []
  | rounds + 1, arrivals => do
    let (buf, shown) ← receive pid buf (arrivals.headD .failed)
    let rest ← receiveAll pid buf rounds arrivals.tail
    return shown :: rest

def listener (pid : Int) (buf : Bytes) (arrivals : List Received) : Checked (List (Option Shown)) :=
  receiveAll pid buf pingAttempts arrivals

end Listener

section Ping

inductive Output where
  | gotMessage
  | sent (pckt : Bytes)
  deriving DecidableEq

/--
The `recvfrom` into the packet itself that does not wait.
-/
def recvPacket (pckt : Bytes) : Received → Checked (Bytes × Int)
  | .datagram d => do
    let pckt ← memcpy pckt 0 (d.take packetSize)
    return (pckt, (d.take packetSize).length)
  | .failed => return (pckt, -1)

def request (pid : Int) (cnt : Nat) (pckt : Bytes) : Checked Bytes := do
  let pckt ← memset pckt 0 packetSize
  let pckt ← store pckt Icmphdr.type icmpEcho
  let pckt ← storeShort pckt Icmphdr.id (UInt16.ofInt pid)
  let pckt ← fillMsg pckt 0 (packetSize - Icmphdr.size - 1)
  let pckt ← storeShort pckt Icmphdr.sequence (UInt16.ofNat cnt)
  let sum ← checksum pckt packetSize
  storeShort pckt Icmphdr.checksum sum

def requests (pid : Int) (cnt : Nat) (pckt : Bytes) : (rounds : Nat) → List Received
    → Checked (List Output)
  | 0, _ => .ok []
  | rounds + 1, arrivals => do
    let (pckt, bytes) ← recvPacket pckt (arrivals.headD .failed)
    let pckt ← request pid cnt pckt
    let rest ← requests pid (cnt + 1) pckt rounds arrivals.tail
    return (if 0 < bytes then [.gotMessage] else []) ++ .sent pckt :: rest

def ping (pid : Int) (pckt : Bytes) (arrivals : List Received) : Checked (List Output) :=
  requests pid 1 pckt pingAttempts arrivals

end Ping

/--
What the two processes put out. The memory of the packet in each of the calls of `ping`, and of the buffer
in `listener`, is whatever it was.
-/
def main (pid : Int) (pckt pckt' buf : Bytes) (first second arrivals : List Received)
    : Checked (List Output × List (Option Shown)) := do
  let before ← ping pid pckt first
  let shown ← listener pid buf arrivals
  let after ← ping pid pckt' second
  return (before ++ after, shown)

end PingSynchronous
