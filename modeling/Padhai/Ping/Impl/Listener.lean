import Padhai.Ping.Impl.Request

/-!
This module contains the listener of `myping.c`. Its socket is the list of what the next calls of
`recvfrom` come back with, and the calls after that time out. `_DISPLAY_RAW_` is not defined.
-/

namespace Ping

open Mem

inductive Received where
  | datagram (d : Bytes)
  | failed
  deriving DecidableEq

inductive Line where
  | text (s : String)
  | perror (s : String)
  | ip (version hdrSize pktSize protocol ttl : Nat) (src dst : Bytes)
  | icmp (type code checksum id seq : Nat)
  deriving DecidableEq

def icmpEchoReply : UInt8 := 0

namespace Iphdr

def totLen : Nat := 2

def ttl : Nat := 8

def protocol : Nat := 9

def saddr : Nat := 12

def daddr : Nat := 16

def size : Nat := 20

def version (buf : Bytes) : Checked Nat := do
  let c ← load buf 0
  return c.toNat / 16

def ihl (buf : Bytes) : Checked Nat := do
  let c ← load buf 0
  return c.toNat % 16

end Iphdr

def ntohs (x : UInt16) : Nat :=
  x.toNat % 256 * 256 + x.toNat / 256

def loadAddr (b : Bytes) (i : Nat) : Checked Bytes := do
  let c0 ← load b i
  let c1 ← load b (i + 1)
  let c2 ← load b (i + 2)
  let c3 ← load b (i + 3)
  return [c0, c1, c2, c3]

def verifyEchoReply (buf : Bytes) (_bytes : Int) : Checked Int := do
  let ihl ← Iphdr.ihl buf
  let type ← load buf (ihl * 4 + Icmphdr.type)
  if type = icmpEchoReply then
    return 0
  else
    return -1

def displayIp (buf : Bytes) : Checked Line := do
  let version ← Iphdr.version buf
  let ihl ← Iphdr.ihl buf
  let totLen ← loadShort buf Iphdr.totLen
  let protocol ← load buf Iphdr.protocol
  let ttl ← load buf Iphdr.ttl
  let src ← loadAddr buf Iphdr.saddr
  let dst ← loadAddr buf Iphdr.daddr
  return .ip version (ihl * 4) (ntohs totLen) protocol.toNat ttl.toNat src dst

def displayIcmp (pid : Int) (buf : Bytes) : Checked (List Line) := do
  let ihl ← Iphdr.ihl buf
  let id ← loadShort buf (ihl * 4 + Icmphdr.id)
  if id.toNat = pid then
    let type ← load buf (ihl * 4 + Icmphdr.type)
    let code ← load buf (ihl * 4 + Icmphdr.code)
    let checksum ← loadShort buf (ihl * 4 + Icmphdr.checksum)
    let sequence ← loadShort buf (ihl * 4 + Icmphdr.sequence)
    return [.icmp type.toNat code.toNat (ntohs checksum) id.toNat sequence.toNat]
  else
    return []

def display (pid : Int) (buf : Bytes) (_bytes : Int) : Checked (List Line) := do
  let ip ← displayIp buf
  let icmp ← displayIcmp pid buf
  return .text "----------------" :: ip :: icmp

section Listen

def bufSize : Nat := 1024

/--
What the loop of `listen_ev_thread` does with a message.
-/
inductive Handled where
  | notEchoResponse
  | display (buf : Bytes) (bytes : Int)
  | recvError
  deriving DecidableEq

def recvfrom (buf : Bytes) : Received → Checked (Bytes × Int)
  | .datagram d => do
    let buf ← memcpy buf 0 (d.take bufSize)
    return (buf, (d.take bufSize).length)
  | .failed => return (buf, -1)

def handle (buf : Bytes) (bytes : Int) : Checked Handled := do
  let verified ← verifyEchoReply buf bytes
  if verified < 0 then
    return .notEchoResponse
  else if 0 < bytes ∧ bytes ≤ packetSize + Iphdr.size then
    return .display buf bytes
  else
    return .recvError

def Handled.print (pid : Int) : Handled → Checked (List Line)
  | .notEchoResponse => return [.text "Not an echo response"]
  | .display buf bytes => Ping.display pid buf bytes
  | .recvError => return [.perror "recvfrom"]

/--
One round of the loop, with the buffer as the round before left it.
-/
def receive (buf : Bytes) (r : Received) : Checked (Bytes × Handled) := do
  let buf ← memset buf 0 bufSize
  let (buf, bytes) ← recvfrom buf r
  let handled ← handle buf bytes
  return (buf, handled)

def receiveAll (buf : Bytes) : (rounds : Nat) → List Received → Checked (List Handled)
  | 0, _ => .ok []
  | rounds + 1, arrivals => do
    let (buf, handled) ← receive buf (arrivals.headD .failed)
    let rest ← receiveAll buf rounds arrivals.tail
    return handled :: rest

/--
The messages that `listen_ev_thread` handles before it exits.
-/
def handledMessages (buf : Bytes) (arrivals : List Received) : Checked (List Handled) := do
  let buf ← memset buf 0 bufSize
  receiveAll buf (pingAttempts - 1) arrivals

def listenEvThread (pid : Int) (evTimeout : Bool) (buf : Bytes) (arrivals : List Received)
    : Checked (List Line) := do
  if evTimeout then
    return [.text "Timeout: Destination Host Unreachable"]
  else
    let handled ← handledMessages buf arrivals
    let lines ← handled.mapM (Handled.print pid)
    return lines.flatten

end Listen

end Ping
