import Padhai.Lib.Threads
import Padhai.Ping6.Impl.Frame

/-!
This module contains the send loop and the receive loop of `main` of `ping6_ll.c`. A step is one call of
`sendto` or of `recvfrom` together with what the program does until the next one, and an input is what the call
comes back with. The time that a reply took is left out.
-/

namespace Ping6

open Mem

def timeout : Nat := 2

def trylim : Nat := 3

inductive Input where
  | sendto (bytes : Int)
  | frame (d : Bytes)
  | eagain
  | eintr
  | failed

inductive Line where
  | noReply (seconds : Nat)
  | reply (src : Bytes) (bytes : Nat)
  | gaveUp (tries : Nat)
  | perror (s : String)
  deriving DecidableEq

inductive Phase where
  | send
  | receive
  | closed
  | exited
  | fault (e : Fault)
  deriving DecidableEq

structure State where
  phase : Phase
  trycount : Nat
  output : List Line

/--
Whether the received frame carries an echo reply.
-/
def isEchoReply (recv : Bytes) : Checked Bool := do
  let hi ← load recv 12
  let lo ← load recv 13
  let nxt ← load recv (ethHdrlen + 6)
  let type ← load recv (ethHdrlen + ip6Hdrlen)
  let code ← load recv (ethHdrlen + ip6Hdrlen + 1)
  return hi.toNat * 256 + lo.toNat = ethPIpv6 ∧ nxt = ipprotoIcmpv6 ∧ type = icmp6EchoReply ∧ code = 0

def recvSrc (recv : Bytes) : Bytes :=
  (recv.drop (ethHdrlen + 8)).take 16

/--
What a frame is reported with, if it is an echo reply. The array has been cleared before it is received.
-/
def receive (d : Bytes) : Checked (Option Line) := do
  let bytes := (d.take ipMaxpacket).length
  let recv ← memcpy (zeros ipMaxpacket) 0 (d.take ipMaxpacket)
  let echoReply ← isEchoReply recv
  if echoReply then
    return some (.reply (recvSrc recv) bytes)
  else
    return none

def State.exit (s : State) (message : String) : State :=
  { s with phase := .exited, output := s.output ++ [.perror message] }

/--
The end of the receive loop without a reply.
-/
def State.timedOut (s : State) : State :=
  let output := s.output ++ [.noReply timeout]
  let trycount := s.trycount + 1
  if trycount = trylim then
    { phase := .closed, trycount, output := output ++ [.gaveUp trylim] }
  else
    { phase := .send, trycount, output }

def State.received (s : State) (d : Bytes) : State :=
  match receive d with
  | .ok (some line) => { s with phase := .closed, output := s.output ++ [line] }
  | .ok none => s
  | .error e => { s with phase := .fault e }

def step (s : State) : Input → Option State
  | .sendto bytes =>
    if s.phase ≠ .send then
      none
    else if bytes ≤ 0 then
      some (s.exit "sendto() failed ")
    else
      some { s with phase := .receive }
  | .frame d => if s.phase = .receive then some (s.received d) else none
  | .eagain => if s.phase = .receive then some s.timedOut else none
  | .eintr => if s.phase = .receive then some s else none
  | .failed => if s.phase = .receive then some (s.exit "recvfrom() failed ") else none

def main : State where
  phase := .send
  trycount := 0
  output := []

end Ping6
