import Padhai.Ping6.Impl.Exchange
import Padhai.Ping6.Lemmas.Checksum

/-!
This module contains the frame that `ping6_ll.c` sends, byte for byte, and which of the frames that it receives
it takes for an echo reply.
-/

namespace Ping6

open Mem Ping

variable {buf data d : Bytes} {src dst : In6Addr} {n k : Nat} {x : UInt16}

section ByteOrder

theorem toNat_htons (x : UInt16) : (htons x).toNat = x.toNat % 256 * 256 + x.toNat / 256 := by
  have hx := x.toNat_lt
  have hlow : (x >>> 8).toNat = x.toNat / 256 := by
    rw [UInt16.toNat_shiftRight]
    exact Nat.shiftRight_eq_div_pow x.toNat 8
  have hhigh : (x <<< 8).toNat = 2 ^ 8 * (x.toNat % 256) := by
    rw [UInt16.toNat_shiftLeft]
    have hshift : x.toNat <<< (UInt16.toNat 8 % 16) = x.toNat * 2 ^ 8 := Nat.shiftLeft_eq x.toNat 8
    rw [hshift]
    omega
  rw [htons, UInt16.toNat_or, hhigh, hlow, ← Nat.two_pow_add_eq_or_of_lt (by omega)]
  omega

theorem shortBytes_htons (x : UInt16) : shortBytes (htons x) = [highByte x, lowByte x] := by
  have hx := x.toNat_lt
  have hhigh : (x.toNat % 256 * 256 + x.toNat / 256) / 256 = x.toNat % 256 := by omega
  have hlow : (x.toNat % 256 * 256 + x.toNat / 256) % 256 = x.toNat / 256 := by omega
  rw [shortBytes, lowByte, highByte, toNat_htons, hhigh, highByte, lowByte]
  congr 1
  . rw [← UInt8.toNat_inj, UInt8.toNat_ofNat', UInt8.toNat_ofNat', hlow]
    omega
  . rw [List.cons.injEq, ← UInt8.toNat_inj, UInt8.toNat_ofNat', UInt8.toNat_ofNat', Nat.mod_mod]
    exact ⟨rfl, rfl⟩

end ByteOrder

section Send

/--
The bytes of a length in the order of the network.
-/
def lengthBytes (len : Nat) : Bytes :=
  [UInt8.ofNat (len / 256), UInt8.ofNat (len % 256)]

theorem shortBytes_length (h : n < 65536) : shortBytes (htons (UInt16.ofNat n)) = lengthBytes n := by
  have hn : (UInt16.ofNat n).toNat = n := UInt16.toNat_ofNat_of_lt' h
  have hlow : UInt8.ofNat n = UInt8.ofNat (n % 256) := by
    rw [← UInt8.toNat_inj, UInt8.toNat_ofNat', UInt8.toNat_ofNat', Nat.mod_mod]
  rw [shortBytes_htons, highByte, lowByte, hn, lengthBytes, hlow]

/--
The frame up to the ICMPv6 message.
-/
def frameHeader (src dst : In6Addr) (len : Nat) : Bytes :=
  dstMac ++ srcMac ++ [0x86, 0xDD] ++ [0x60, 0, 0, 0] ++ lengthBytes len ++ [58, 255] ++ src.s6Addr ++ dst.s6Addr

def echoRequest (cksum : UInt16) (data : Bytes) : Bytes :=
  [128, 0] ++ shortBytes cksum ++ [0x03, 0xE8] ++ [0, 0] ++ data

theorem frameHeader_length : (frameHeader src dst k).length = 54 := by
  simp [frameHeader, lengthBytes, dstMac, srcMac, src.length_eq, dst.length_eq]

theorem echoRequest_length : (echoRequest x data).length = icmpHdrlen + data.length := by
  simp [echoRequest, shortBytes, icmpHdrlen]
  omega

theorem sendIphdr_bytes (h : icmpHdrlen + n < 65536)
    : (sendIphdr src dst n).bytes
      = [0x60, 0, 0, 0] ++ lengthBytes (icmpHdrlen + n) ++ [58, 255] ++ src.s6Addr ++ dst.s6Addr := by
  have hflow : longBytes (htonl ((6 : UInt32) <<< 28 ||| (0 : UInt32) <<< 20 ||| (0 : UInt32)))
      = [0x60, 0, 0, 0] := by
    decide
  simp only [Ip6Hdr.bytes, sendIphdr, hflow, shortBytes_length h]
  rfl

theorem sendIcmphdr_bytes : (sendIcmphdr x).bytes ++ data = echoRequest x data := by
  simp only [Icmp6Hdr.bytes, sendIcmphdr, shortBytes_htons]
  rfl

theorem zeros_eq_padTo : zeros n = padTo n [] :=
  padTo_nil.symm

/--
The frame as it is built, up to the data.
-/
theorem sendEtherFrame_eq (hn : n ≤ data.length) (h : icmpHdrlen + n < 65536)
    (hsum : icmp6Checksum buf (sendIphdr src dst n) (sendIcmphdr 0) data n = .ok x)
    : sendEtherFrame buf src dst data n = (do
      let frame ← memcpy (padTo ipMaxpacket (frameHeader src dst (icmpHdrlen + n) ++ echoRequest x []))
        (frameHeader src dst (icmpHdrlen + n) ++ echoRequest x []).length (data.take n)
      loadRange frame (frameLength n)) := by
  have hhi : UInt8.ofNat (ethPIpv6 / 256) = 0x86 := rfl
  have hlo : UInt8.ofNat (ethPIpv6 % 256) = 0xDD := rfl
  have hmac : memcpy (padTo ipMaxpacket []) 0 dstMac = .ok (padTo ipMaxpacket dstMac) :=
    memcpy_padTo (s := []) (by decide)
  have hmac' : memcpy (padTo ipMaxpacket dstMac) 6 srcMac = .ok (padTo ipMaxpacket (dstMac ++ srcMac)) :=
    memcpy_padTo (s := dstMac) (by decide)
  have htype : store (padTo ipMaxpacket (dstMac ++ srcMac)) 12 0x86
      = .ok (padTo ipMaxpacket (dstMac ++ srcMac ++ [0x86])) :=
    store_padTo (s := dstMac ++ srcMac) (by decide)
  have htype' : store (padTo ipMaxpacket (dstMac ++ srcMac ++ [0x86])) 13 0xDD
      = .ok (padTo ipMaxpacket (dstMac ++ srcMac ++ [0x86] ++ [0xDD])) :=
    store_padTo (s := dstMac ++ srcMac ++ [0x86]) (by decide)
  have hheader : dstMac ++ srcMac ++ [0x86] ++ [0xDD] ++ (sendIphdr src dst n).bytes
      = frameHeader src dst (icmpHdrlen + n) := by
    rw [sendIphdr_bytes h]
    simp [frameHeader]
  have hip : memcpy (padTo ipMaxpacket (dstMac ++ srcMac ++ [0x86] ++ [0xDD])) ethHdrlen (sendIphdr src dst n).bytes
      = .ok (padTo ipMaxpacket (frameHeader src dst (icmpHdrlen + n))) := by
    have hroom : (dstMac ++ srcMac ++ [0x86] ++ [0xDD]).length + (sendIphdr src dst n).bytes.length
        ≤ ipMaxpacket := by
      rw [← List.length_append, hheader, frameHeader_length]
      decide
    rw [← hheader, ← memcpy_padTo hroom]
    rfl
  have hicmp : memcpy (padTo ipMaxpacket (frameHeader src dst (icmpHdrlen + n))) (ethHdrlen + ip6Hdrlen)
        (sendIcmphdr x).bytes
      = .ok (padTo ipMaxpacket (frameHeader src dst (icmpHdrlen + n) ++ echoRequest x [])) := by
    have hbytes : (sendIcmphdr x).bytes = echoRequest x [] := by
      rw [← sendIcmphdr_bytes, List.append_nil]
    have hroom : (frameHeader src dst (icmpHdrlen + n)).length + (echoRequest x []).length ≤ ipMaxpacket := by
      rw [frameHeader_length, echoRequest_length]
      decide
    rw [hbytes, ← memcpy_padTo hroom, frameHeader_length]
    rfl
  have hlength : (frameHeader src dst (icmpHdrlen + n) ++ echoRequest x []).length
      = ethHdrlen + ip6Hdrlen + icmpHdrlen := by
    rw [List.length_append, frameHeader_length, echoRequest_length]
    rfl
  rw [sendEtherFrame, hsum, ok_bind, zeros_eq_padTo]
  dsimp only
  rw [hmac, ok_bind, hmac', ok_bind, hhi, htype, ok_bind, hlo, htype', ok_bind, hip, ok_bind, hicmp, ok_bind,
    loadRange_of_le hn, ok_bind, hlength]

theorem sendEtherFrame_of_le (hbuf : buf.length = ipMaxpacket) (hn : n ≤ data.length) (h : n ≤ 65473)
    : ∃ x, sendEtherFrame buf src dst data n
        = .ok (frameHeader src dst (icmpHdrlen + n) ++ echoRequest x (data.take n))
      ∧ Verifies src.s6Addr dst.s6Addr 58 (echoRequest x (data.take n)) := by
  have hlen : icmpHdrlen = 8 := rfl
  have hlength : (data.take n).length = n := by simpa using hn
  obtain ⟨x, hsum, hverifies⟩ := icmp6Checksum_of_le (sendIphdr src dst n) (sendIcmphdr 0) hbuf hn (by omega)
  refine ⟨x, ?_, ?_⟩
  . have hframe : frameHeader src dst (icmpHdrlen + n) ++ echoRequest x [] ++ data.take n
        = frameHeader src dst (icmpHdrlen + n) ++ echoRequest x (data.take n) := by
      simp [echoRequest]
    have hfit : (frameHeader src dst (icmpHdrlen + n) ++ echoRequest x []).length + (data.take n).length
        ≤ ipMaxpacket := by
      rw [List.length_append, frameHeader_length, echoRequest_length, hlength, List.length_nil, hlen, ipMaxpacket]
      omega
    have hsent : (frameHeader src dst (icmpHdrlen + n) ++ echoRequest x (data.take n)).length = frameLength n := by
      rw [List.length_append, frameHeader_length, echoRequest_length, hlength, hlen, frameLength, ip6Hdrlen, hlen]
      omega
    rw [sendEtherFrame_eq hn (by omega) hsum, memcpy_padTo hfit, ok_bind, hframe, loadRange_of_le]
    . rw [← hsent, take_padTo]
    . rw [padTo_length]
      . rw [frameLength, ip6Hdrlen, hlen, ipMaxpacket]
        omega
      . rw [hsent, frameLength, ip6Hdrlen, hlen, ipMaxpacket]
        omega
  . have hmessage : ({ sendIcmphdr 0 with cksum := x } : Icmp6Hdr).bytes ++ data.take n
        = echoRequest x (data.take n) :=
      sendIcmphdr_bytes
    rw [← hmessage]
    exact hverifies

theorem sendEtherFrame_of_lt (hbuf : buf.length = ipMaxpacket) (hn : n ≤ data.length) (h : 65473 < n)
    : sendEtherFrame buf src dst data n = .error (.outOfRange ipMaxpacket ipMaxpacket) := by
  have hlen : icmpHdrlen = 8 := rfl
  have hlength : (data.take n).length = n := by simpa using hn
  by_cases hsum : n ≤ 65486
  . -- The message fits into the array of the checksum, but not into the frame.
    obtain ⟨x, hsum, -⟩ := icmp6Checksum_of_le (sendIphdr src dst n) (sendIcmphdr 0) hbuf hn hsum
    have hheader : (frameHeader src dst (icmpHdrlen + n) ++ echoRequest x []).length = 62 := by
      rw [List.length_append, frameHeader_length, echoRequest_length]
      rfl
    have hpadded : (padTo ipMaxpacket (frameHeader src dst (icmpHdrlen + n) ++ echoRequest x [])).length
        = ipMaxpacket := by
      rw [padTo_length]
      rw [hheader]
      decide
    have hne : data.take n ≠ [] := by
      rw [← List.length_pos_iff, hlength]
      omega
    rw [sendEtherFrame_eq hn (by omega) hsum, memcpy_eq_error hne, error_bind, hpadded]
    . rw [hheader, hpadded, ipMaxpacket]
      omega
    . rw [hheader, hpadded, hlength, ipMaxpacket]
      omega
  . rw [sendEtherFrame, icmp6Checksum_of_lt hbuf hn (by omega), error_bind]

end Send

section Receive

/--
The bytes of a frame that are looked at. A frame that ends before the code passes for one with the code 0.
-/
def IsEchoReply (d : Bytes) : Prop :=
  d[12]? = some 0x86 ∧ d[13]? = some 0xDD ∧ d[20]? = some 58 ∧ d[54]? = some 129 ∧ d[55]?.getD 0 = 0

instance : Decidable (IsEchoReply d) :=
  inferInstanceAs (Decidable (_ ∧ _))

theorem getD_zero_eq_iff {o : Option UInt8} {c : UInt8} (hc : c ≠ 0) : o.getD 0 = c ↔ o = some c := by
  cases o with
  | none => simp [hc.symm]
  | some e => simp

theorem type_eq_iff {hi lo : UInt8} : hi.toNat * 256 + lo.toNat = ethPIpv6 ↔ hi = 0x86 ∧ lo = 0xDD := by
  have hhi := hi.toNat_lt
  have hlo := lo.toNat_lt
  have h86 : (0x86 : UInt8).toNat = 0x86 := rfl
  have hDD : (0xDD : UInt8).toNat = 0xDD := rfl
  rw [← UInt8.toNat_inj, ← UInt8.toNat_inj, h86, hDD, ethPIpv6]
  omega

theorem isEchoReply_iff
    : IsEchoReply d ↔ (d[12]?.getD 0).toNat * 256 + (d[13]?.getD 0).toNat = ethPIpv6
      ∧ d[20]?.getD 0 = ipprotoIcmpv6 ∧ d[54]?.getD 0 = icmp6EchoReply ∧ d[55]?.getD 0 = 0 := by
  rw [type_eq_iff, getD_zero_eq_iff (by decide), getD_zero_eq_iff (by decide), getD_zero_eq_iff (by decide),
    getD_zero_eq_iff (by decide), and_assoc]
  rfl

theorem isEchoReply_padTo (hn : 56 ≤ n) : isEchoReply (padTo n d) = .ok (decide (IsEchoReply d)) := by
  have hload : ∀ i, i < 56 → load (padTo n d) i = .ok (d[i]?.getD 0) :=
    fun i hi => load_of_getElem? (padTo_getElem? (by omega))
  have hnxt := hload (ethHdrlen + 6) (by decide)
  have htype := hload (ethHdrlen + ip6Hdrlen) (by decide)
  have hcode := hload (ethHdrlen + ip6Hdrlen + 1) (by decide)
  rw [isEchoReply, hload 12 (by omega), ok_bind, hload 13 (by omega), ok_bind, hnxt, ok_bind, htype, ok_bind,
    hcode, ok_bind, pure_eq_ok, Except.ok.injEq, decide_eq_decide, isEchoReply_iff]
  rfl

theorem isEchoReply_take (hn : 56 ≤ n) : IsEchoReply (d.take n) ↔ IsEchoReply d := by
  have htake : ∀ i, i < 56 → (d.take n)[i]? = d[i]? := fun i hi => List.getElem?_take_of_lt (by omega)
  simp only [IsEchoReply, htake 12 (by omega), htake 13 (by omega), htake 20 (by omega), htake 54 (by omega),
    htake 55 (by omega)]

theorem IsEchoReply.lt_length (h : IsEchoReply d) : 54 < d.length :=
  (List.getElem?_eq_some_iff.mp h.2.2.2.1).1

theorem recvSrc_padTo (h : 54 < d.length) (hn : 56 ≤ n)
    : recvSrc (padTo k (d.take n)) = (d.drop 22).take 16 := by
  have hdrop : 22 ≤ (d.take n).length := by
    rw [List.length_take]
    omega
  have htake : 16 ≤ ((d.take n).drop 22).length := by
    rw [List.length_drop, List.length_take]
    omega
  rw [recvSrc, padTo]
  simp only [ethHdrlen, Nat.reduceAdd]
  rw [List.drop_append_of_le_length hdrop, List.take_append_of_le_length htake, List.drop_take, List.take_take]
  congr 1
  omega

theorem receive_eq (d : Bytes)
    : receive d = .ok (if IsEchoReply d then
        some (.reply ((d.drop 22).take 16) (min d.length ipMaxpacket))
      else
        none) := by
  have hcopy : memcpy (zeros ipMaxpacket) 0 (d.take ipMaxpacket)
      = .ok (padTo ipMaxpacket (d.take ipMaxpacket)) := by
    rw [zeros_eq_padTo]
    apply memcpy_padTo (s := [])
    rw [List.length_take, List.length_nil]
    omega
  have hroom : 56 ≤ ipMaxpacket := by decide
  rw [receive, hcopy, ok_bind, isEchoReply_padTo hroom, ok_bind]
  simp only [isEchoReply_take hroom, decide_eq_true_eq, pure_eq_ok]
  split
  . next h => rw [recvSrc_padTo h.lt_length hroom, List.length_take, Nat.min_comm]
  . rfl

theorem receive_echoRequest {h : Bytes} (hlength : h.length = 54)
    : receive (h ++ echoRequest x data) = .ok none := by
  have htype : (h ++ echoRequest x data)[54]? = some 128 := by
    rw [List.getElem?_append_right hlength.le, hlength]
    rfl
  rw [receive_eq, if_neg]
  rintro ⟨-, -, -, hreply, -⟩
  rw [htype] at hreply
  contradiction

end Receive

theorem sendEtherFrame_sends (buf : Bytes) (src dst : In6Addr) (data : Bytes) (n : Nat)
    (hbuf : buf.length = ipMaxpacket) (hn : n ≤ data.length)
    : (n ≤ 65473 → ∃ x, sendEtherFrame buf src dst data n
          = .ok (frameHeader src dst (icmpHdrlen + n) ++ echoRequest x (data.take n))
        ∧ Verifies src.s6Addr dst.s6Addr 58 (echoRequest x (data.take n))
        ∧ receive (frameHeader src dst (icmpHdrlen + n) ++ echoRequest x (data.take n)) = .ok none)
      ∧ (65473 < n → sendEtherFrame buf src dst data n = .error (.outOfRange ipMaxpacket ipMaxpacket)) := by
  refine ⟨?_, sendEtherFrame_of_lt hbuf hn⟩
  intro h
  obtain ⟨x, hsent, hverifies⟩ := sendEtherFrame_of_le hbuf hn h
  exact ⟨x, hsent, hverifies, receive_echoRequest frameHeader_length⟩

def srcIp : In6Addr where
  s6Addr := [0x20, 0x01, 0x0D, 0xB8, 0, 0, 0, 0, 0x02, 0x14, 0x51, 0xFF, 0xFE, 0x2F, 0x15, 0x56]
  length_eq := rfl

theorem sendEtherFrame_sends_test
    : (4 ≤ 65473 → ∃ x, sendEtherFrame (zeros ipMaxpacket) srcIp srcIp [84, 101, 115, 116] 4
          = .ok (frameHeader srcIp srcIp (icmpHdrlen + 4) ++ echoRequest x [84, 101, 115, 116])
        ∧ Verifies srcIp.s6Addr srcIp.s6Addr 58 (echoRequest x [84, 101, 115, 116])
        ∧ receive (frameHeader srcIp srcIp (icmpHdrlen + 4) ++ echoRequest x [84, 101, 115, 116]) = .ok none)
      ∧ (65473 < 4 → sendEtherFrame (zeros ipMaxpacket) srcIp srcIp [84, 101, 115, 116] 4
        = .error (.outOfRange ipMaxpacket ipMaxpacket)) :=
  sendEtherFrame_sends (zeros ipMaxpacket) srcIp srcIp [84, 101, 115, 116] 4 zeros_length (by decide)

end Ping6
