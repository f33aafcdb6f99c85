import Padhai.Ping.Lemmas.Checksum

/-!
This module contains the checksum of `ping6_ll.c` and `icmp6_checksum`, which builds the pseudo-header of an
ICMPv6 message in front of the message and sums up both. The host is little-endian.
-/

namespace Ping6

open Mem Ping

def ipMaxpacket : Nat := 65535

def icmpHdrlen : Nat := 8

structure In6Addr where
  s6Addr : Bytes
  length_eq : s6Addr.length = 16

structure Ip6Hdr where
  flow : UInt32
  plen : UInt16
  nxt : UInt8
  hops : UInt8
  src : In6Addr
  dst : In6Addr

structure Icmp6Hdr where
  type : UInt8
  code : UInt8
  cksum : UInt16
  id : UInt16
  seq : UInt16

/--
A number of 16 bits as it lies in memory.
-/
def shortBytes (x : UInt16) : Bytes :=
  [lowByte x, highByte x]

section Checksum

theorem toNat_carry (sum : UInt32)
    : ((sum &&& (0xFFFF : UInt32)) + (sum >>> 16)).toNat = sum.toNat / 65536 + sum.toNat % 65536 := by
  have hs := sum.toNat_lt
  rw [UInt32.toNat_add, toNat_shiftRight_sixteen, toNat_and_ffff]
  omega

theorem shiftRight_sixteen_eq_zero_iff {sum : UInt32} : sum >>> 16 = 0 ↔ sum.toNat < 65536 := by
  rw [← UInt32.toNat_inj, toNat_shiftRight_sixteen, UInt32.toNat_zero]
  omega

/--
The loop that folds the sum into 16 bits.
-/
def fold (sum : UInt32) : UInt32 :=
  if sum >>> 16 = 0 then
    sum
  else
    fold ((sum &&& (0xFFFF : UInt32)) + (sum >>> 16))
termination_by sum.toNat
decreasing_by
  rw [toNat_carry]
  apply OnesComplement.fold_lt
  rw [shiftRight_sixteen_eq_zero_iff] at *
  omega

def addLast (addr : Bytes) : Nat × Nat × UInt32 → Checked UInt32
  | (count, i, sum) => do
    if 0 < count then
      let c ← load addr i
      return sum + c.toUInt32
    else
      return sum

/--
The first loop is that of `myping.c`.
-/
def checksum (addr : Bytes) (len : Nat) : Checked UInt16 := do
  let s ← addWords addr len 0 0
  let sum ← addLast addr s
  return (~~~fold sum).toUInt16

end Checksum

section PseudoHeader

structure Copied where
  buf : Bytes
  ptr : Nat
  chksumlen : Nat

def Copied.put (s : Copied) (bs : Bytes) : Checked Copied := do
  let buf ← memcpy s.buf s.ptr bs
  return { buf, ptr := s.ptr + bs.length, chksumlen := s.chksumlen + bs.length }

/--
The loop that pads to the next 16-bit boundary, which advances `ptr` twice a turn.
-/
def Copied.pad (s : Copied) : (rounds : Nat) → Checked Copied
  | 0 => .ok s
  | rounds + 1 => do
    let buf ← store s.buf s.ptr 0
    Copied.pad { buf, ptr := s.ptr + 2, chksumlen := s.chksumlen + 1 } rounds

def icmp6Checksum (buf : Bytes) (iphdr : Ip6Hdr) (icmp6hdr : Icmp6Hdr) (payload : Bytes) (payloadlen : Nat)
    : Checked UInt16 := do
  let s : Copied := { buf, ptr := 0, chksumlen := 0 }
  let s ← s.put iphdr.src.s6Addr
  let s ← s.put iphdr.dst.s6Addr
  let s ← s.put [0, 0]
  let s ← s.put [UInt8.ofNat ((icmpHdrlen + payloadlen) / 256)]
  let s ← s.put [UInt8.ofNat ((icmpHdrlen + payloadlen) % 256)]
  let s ← s.put [0, 0, 0]
  let s ← s.put [iphdr.nxt]
  let s ← s.put [icmp6hdr.type]
  let s ← s.put [icmp6hdr.code]
  let s ← s.put (shortBytes icmp6hdr.id)
  let s ← s.put (shortBytes icmp6hdr.seq)
  let s ← s.put [0, 0]
  let payload ← loadRange payload payloadlen
  let s ← s.put payload
  let s ← s.pad (payloadlen % 2)
  checksum s.buf s.chksumlen

end PseudoHeader

end Ping6
