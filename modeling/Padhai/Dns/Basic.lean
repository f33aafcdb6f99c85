import Padhai.Lib.Mem
import Padhai.Lib.Traced
import Padhai.Lib.Label

/-!
This module contains the constants and the data of the DNS server, and what it meets in the world.
Pointers are taken to be 8 bytes, `char` to be signed and the host to be little-endian. An `Event` is
a return of `verify_dns_buffer` or `send_data_to_dns`, a header or a response that is printed, or a
call of `sendto` on the upstream or the server's own socket.
-/

namespace Dns

open Mem

@[simp] def tA : Nat := 1
@[simp] def maxNameLen : Nat := 256
@[simp] def maxBufLen : Nat := 512
@[simp] def recordLen : Nat := 20
@[simp] def tidSize : Nat := 16

@[simp] def sizeofDnsHeader : Nat := 12
@[simp] def sizeofQuestion : Nat := 4
@[simp] def sizeofRData : Nat := 10
@[simp] def sizeofPointer : Nat := 8

def ntohsAt (buffer : Bytes) (off : Nat) : Checked Nat := do
  let hi ← load buffer off
  let lo ← load buffer (off + 1)
  return hi.toNat * 256 + lo.toNat

def htonsAt (buffer : Bytes) (off x : Nat) : Checked Bytes := do
  let buffer ← store buffer off (UInt8.ofNat (x / 256))
  store buffer (off + 1) (UInt8.ofNat x)

namespace DnsHeader

def id (buffer : Bytes) : Checked Nat := ntohsAt buffer 0

def qr (buffer : Bytes) : Checked Nat := do
  let flags ← load buffer 2
  return flags.toNat / 128

def qCount (buffer : Bytes) : Checked Nat := ntohsAt buffer 4
def ansCount (buffer : Bytes) : Checked Nat := ntohsAt buffer 6
def authCount (buffer : Bytes) : Checked Nat := ntohsAt buffer 8
def addCount (buffer : Bytes) : Checked Nat := ntohsAt buffer 10

end DnsHeader

inductive QueryType where
  | request
  | response
  deriving DecidableEq, Repr

structure QrData where
  tid : Nat
  domainName : Bytes

structure Counts where
  qCount : Nat
  ansCount : Nat
  authCount : Nat
  addCount : Nat
  deriving DecidableEq, Repr

structure AnswerLine where
  name : Bytes
  addr : Option Bytes
  deriving DecidableEq, Repr

structure Datagram where
  bytes : Bytes
  length_le : bytes.length ≤ maxBufLen

/--
What `malloc` returns for its `k`-th call in the answer section, asked for `n` bytes. The contents
are whatever the memory held.
-/
structure Malloc where
  block : (k n : Nat) → Bytes
  size_le : ∀ k n, n ≤ (block k n).length

/--
What one call of `on_recv` meets: the freshly allocated packet buffer and the outcomes of the
system calls, where `none` is a `recvfrom` that returns -1.
-/
structure Env where
  fresh : Bytes
  fresh_length : fresh.length = maxBufLen
  clientRecv : Option Datagram
  setsockoptReuse : Bool
  setsockoptTimeout : Bool
  upstreamSend : Bool
  upstreamRecv : Option Datagram
  malloc : Malloc
  fuel : Nat

inductive Peer where
  | client
  | upstream
  deriving DecidableEq, Repr

inductive Event where
  | verified (peer : Peer) (rc : Int)
  | header (peer : Peer) (tid : Nat) (domainName : Bytes) (qType : QueryType)
  | sentUpstream (datagram : Bytes)
  | answers (counts : Counts) (lines : List AnswerLine)
  | forwarded (rc : Int)
  | sentClient (datagram : Bytes)
  deriving DecidableEq, Repr

abbrev Run := Traced Fault Event

def recvfrom (buffer : Bytes) : Option Datagram → Bytes × UInt32
  | some d => (d.bytes ++ buffer.drop d.bytes.length, UInt32.ofNat d.bytes.length)
  | none => (buffer, -1)

end Dns
