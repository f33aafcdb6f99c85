import Padhai.Ping6.Impl.Checksum

/-!
This module contains the ethernet frame that `main` of `ping6_ll.c` builds and sends: an echo request with its
IPv6 header and its ethernet header, here with any addresses and any data in place of the 4 bytes of "Test".
-/

namespace Ping6

open Mem Ping

def ethHdrlen : Nat := 14

def ip6Hdrlen : Nat := 40

def ethPIpv6 : Nat := 0x86DD

def ipprotoIcmpv6 : UInt8 := 58

def icmp6EchoRequest : UInt8 := 128

def icmp6EchoReply : UInt8 := 129

def htons (x : UInt16) : UInt16 :=
  x <<< 8 ||| x >>> 8

def htonl (x : UInt32) : UInt32 :=
  x <<< 24 ||| (x &&& (0xFF00 : UInt32)) <<< 8 ||| (x >>> 8 &&& (0xFF00 : UInt32)) ||| x >>> 24

def longBytes (x : UInt32) : Bytes :=
  [UInt8.ofNat x.toNat, UInt8.ofNat (x.toNat / 256), UInt8.ofNat (x.toNat / 65536),
    UInt8.ofNat (x.toNat / 16777216)]

def Ip6Hdr.bytes (h : Ip6Hdr) : Bytes :=
  longBytes h.flow ++ shortBytes h.plen ++ [h.nxt, h.hops] ++ h.src.s6Addr ++ h.dst.s6Addr

def Icmp6Hdr.bytes (h : Icmp6Hdr) : Bytes :=
  [h.type, h.code] ++ shortBytes h.cksum ++ shortBytes h.id ++ shortBytes h.seq

def srcMac : Bytes :=
  [0x77, 0x75, 0x66, 0x27, 0x00, 0x08]

def dstMac : Bytes :=
  [0xFF, 0xFF, 0xFF, 0xFF, 0xFF, 0xFF]

def sendIphdr (src dst : In6Addr) (datalen : Nat) : Ip6Hdr where
  flow := htonl ((6 : UInt32) <<< 28 ||| (0 : UInt32) <<< 20 ||| (0 : UInt32))
  plen := htons (UInt16.ofNat (icmpHdrlen + datalen))
  nxt := ipprotoIcmpv6
  hops := 255
  src
  dst

def sendIcmphdr (cksum : UInt16) : Icmp6Hdr where
  type := icmp6EchoRequest
  code := 0
  cksum
  id := htons 1000
  seq := htons 0

def frameLength (datalen : Nat) : Nat :=
  6 + 6 + 2 + ip6Hdrlen + icmpHdrlen + datalen

/--
The bytes that `main` hands to `sendto`. The array of `icmp6_checksum` is `buf`, with whatever is in it.
-/
def sendEtherFrame (buf : Bytes) (src dst : In6Addr) (data : Bytes) (datalen : Nat) : Checked Bytes := do
  let iphdr := sendIphdr src dst datalen
  let cksum ← icmp6Checksum buf iphdr (sendIcmphdr 0) data datalen
  let frame := zeros ipMaxpacket
  let frame ← memcpy frame 0 dstMac
  let frame ← memcpy frame 6 srcMac
  let frame ← store frame 12 (UInt8.ofNat (ethPIpv6 / 256))
  let frame ← store frame 13 (UInt8.ofNat (ethPIpv6 % 256))
  let frame ← memcpy frame ethHdrlen iphdr.bytes
  let frame ← memcpy frame (ethHdrlen + ip6Hdrlen) (sendIcmphdr cksum).bytes
  let data ← loadRange data datalen
  let frame ← memcpy frame (ethHdrlen + ip6Hdrlen + icmpHdrlen) data
  loadRange frame (frameLength datalen)

end Ping6
