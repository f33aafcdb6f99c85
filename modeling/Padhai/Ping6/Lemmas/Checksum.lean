import Padhai.Ping6.Impl.Frame

/-!
This module contains that the checksum of `ping6_ll.c` is that of `myping.c`, and that a message with the checksum
that `icmp6_checksum` computes verifies over its pseudo-header.
-/

namespace Ping6

open Mem Ping OnesComplement

variable {a b x y bs cs : Bytes} {k n len i : Nat} {sum : UInt32} {w : UInt16} {r : Nat × Nat × UInt32}

section Checksum

theorem toNat_fold (sum : UInt32) : (fold sum).toNat = endAround 65536 sum.toNat := by
  fun_induction fold sum with
  | case1 sum h => rw [endAround_of_lt (shiftRight_sixteen_eq_zero_iff.mp h)]
  | case2 sum h ih =>
    rw [shiftRight_sixteen_eq_zero_iff] at h
    rw [ih, toNat_carry, ← endAround_of_le (by decide) (by omega)]

theorem complement_fold (sum : UInt32) : (~~~fold sum).toUInt16 = (~~~foldTwice sum).toUInt16 := by
  have hlt := endAround_lt (b := 65536) (s := sum.toNat) (by decide)
  rw [← UInt16.toNat_inj, toNat_complement, toNat_complement, toNat_foldTwice, toNat_fold,
    Nat.mod_eq_of_lt hlt]

theorem addWords_le (h : addWords b len i sum = .ok r) : r.1 ≤ 1 := by
  fun_induction addWords b len i sum with
  | case1 i sum len ih =>
    obtain ⟨w, -, h⟩ := bind_eq_ok_iff.mp h
    exact ih w h
  | case2 len i sum hlen =>
    cases h
    by_contra hle
    exact hlen (len - 2) (by simp at hle; omega)

theorem addLast_eq (hr : r.1 ≤ 1) : addLast b r = Ping.addLast b r := by
  obtain ⟨count, i, sum⟩ := r
  have hcount : 0 < count ↔ count = 1 := by
    simp only at hr
    omega
  simp only [addLast, Ping.addLast, hcount]

theorem checksum_eq (b : Bytes) (len : Nat) : checksum b len = Ping.checksum b len := by
  rw [checksum, Ping.checksum, accumulate]
  cases h : addWords b len 0 0 with
  | error e => rfl
  | ok r =>
    rw [ok_bind, ok_bind, addLast_eq (addWords_le h)]
    simp only [complement_fold]

/--
Folding until nothing is left and folding twice come to the same, whatever is summed up.
-/
theorem checksum_agrees (addr : Bytes) (len : Nat)
    : checksum addr len = Ping.checksum addr len ∧ checksum addr len = PingSynchronous.checksum addr len :=
  ⟨checksum_eq addr len, checksum_eq addr len⟩

theorem loadShort_of_prefix (h : a <+: b) (hw : loadShort a i = .ok w) : loadShort b i = .ok w := by
  obtain ⟨lo, hlo, hw⟩ := bind_eq_ok_iff.mp hw
  obtain ⟨hi, hhi, hw⟩ := bind_eq_ok_iff.mp hw
  rw [loadShort, load_of_prefix h hlo, ok_bind, load_of_prefix h hhi, ok_bind]
  exact hw

theorem addWords_of_prefix (h : a <+: b) (hr : addWords a len i sum = .ok r) : addWords b len i sum = .ok r := by
  fun_induction addWords a len i sum with
  | case1 i sum len ih =>
    obtain ⟨w, hw, hr⟩ := bind_eq_ok_iff.mp hr
    rw [addWords, loadShort_of_prefix h hw, ok_bind]
    exact ih w hr
  | case2 len i sum hlen =>
    rw [addWords]
    . exact hr
    . exact hlen

theorem addLast_of_prefix (h : a <+: b) (hsum : Ping.addLast a r = .ok sum) : Ping.addLast b r = .ok sum := by
  obtain ⟨count, i, s⟩ := r
  rw [Ping.addLast] at *
  split at hsum
  . next hcount =>
    obtain ⟨c, hc, hsum⟩ := bind_eq_ok_iff.mp hsum
    rw [if_pos hcount, load_of_prefix h hc, ok_bind]
    exact hsum
  . next hcount =>
    rw [if_neg hcount]
    exact hsum

/--
The checksum of the first bytes of an array does not depend on the others.
-/
theorem checksum_of_prefix (h : a <+: b) (hw : Ping.checksum a len = .ok w) : Ping.checksum b len = .ok w := by
  obtain ⟨sum, hsum, hw⟩ := bind_eq_ok_iff.mp hw
  obtain ⟨r, hr, hsum⟩ := bind_eq_ok_iff.mp hsum
  rw [Ping.checksum, accumulate, addWords_of_prefix h hr, ok_bind, addLast_of_prefix h hsum, ok_bind]
  exact hw

end Checksum

section Copy

variable {s : Copied} {α : Type} {f : Copied → Checked α}

theorem memcpy_append_bytes
    : memcpy a i (bs ++ cs) = (do
      let a ← memcpy a i bs
      memcpy a (i + bs.length) cs) := by
  induction bs generalizing a i with
  | nil => rfl
  | cons c bs ih =>
    rw [List.cons_append, memcpy, memcpy, bind_assoc]
    congr 1
    funext a
    rw [ih, List.length_cons, Nat.add_right_comm, Nat.add_assoc]

/--
Pieces that are copied one after the other are copied as one.
-/
theorem put_put : (s.put bs >>= fun s => s.put cs >>= f) = s.put (bs ++ cs) >>= f := by
  simp only [Copied.put, memcpy_append_bytes, bind_assoc]
  congr 1
  funext a
  simp only [pure_eq_ok, ok_bind, List.length_append, ← Nat.add_assoc]

theorem put_of_le (h : bs.length ≤ a.length)
    : Copied.put { buf := a, ptr := 0, chksumlen := 0 } bs
      = .ok { buf := bs ++ a.drop bs.length, ptr := bs.length, chksumlen := bs.length } := by
  have hcopy := memcpy_append (b := []) (a := a.take bs.length) (t := a.drop bs.length) (s := bs)
    (by simpa using h)
  rw [List.nil_append, List.take_append_drop, List.length_nil] at hcopy
  simp [Copied.put, hcopy]

theorem put_of_lt (h : a.length < bs.length)
    : Copied.put { buf := a, ptr := 0, chksumlen := 0 } bs = .error (.outOfRange a.length a.length) := by
  have hne : bs ≠ [] := by
    rintro rfl
    simp at h
  have hcopy := memcpy_eq_error hne (Nat.zero_le a.length) (by omega)
  simp [Copied.put, hcopy]

/--
The one turn of the padding loop, for a payload of odd length.
-/
theorem pad_of_le (bs : Bytes) (n : Nat) (h : (bs ++ zeros (n % 2)).length ≤ a.length)
    : ∃ s, Copied.pad { buf := bs ++ a.drop bs.length, ptr := bs.length, chksumlen := bs.length } (n % 2) = .ok s
      ∧ bs ++ zeros (n % 2) <+: s.buf ∧ s.chksumlen = (bs ++ zeros (n % 2)).length := by
  rcases Nat.mod_two_eq_zero_or_one n with hn | hn
  . rw [hn]
    refine ⟨_, rfl, ?_, ?_⟩
    . simp [zeros]
    . simp
  . rw [hn] at h ⊢
    have hlt : bs.length < a.length := by
      simp at h
      omega
    rw [List.drop_eq_getElem_cons hlt, Copied.pad, store_append_length, ok_bind]
    refine ⟨_, rfl, ?_, ?_⟩
    . simp [zeros]
    . simp

theorem pad_of_eq (h : bs.length = a.length) (hn : n % 2 = 1)
    : Copied.pad { buf := bs, ptr := bs.length, chksumlen := bs.length } (n % 2)
      = .error (.outOfRange a.length a.length) := by
  rw [hn, Copied.pad, store_of_le (Nat.le_refl _), error_bind, h]

end Copy

section PseudoHeader

variable {buf payload : Bytes} {iphdr : Ip6Hdr} {icmp6hdr : Icmp6Hdr}

/--
The pseudo-header of RFC 2460, with a length of 32 bits.
-/
def pseudoHeader (src dst : Bytes) (len : Nat) (nxt : UInt8) : Bytes :=
  src ++ dst ++ [UInt8.ofNat (len / 16777216), UInt8.ofNat (len / 65536), UInt8.ofNat (len / 256), UInt8.ofNat len]
    ++ [0, 0, 0, nxt]

/--
The check that the receiver of a message makes: with its pseudo-header its sum is all ones.
-/
def Verifies (src dst : Bytes) (nxt : UInt8) (message : Bytes) : Prop :=
  endAround 65536 (wordSum bigEndian (pseudoHeader src dst message.length nxt ++ message)) = 65535

/--
What `icmp6_checksum` copies, where the place of the checksum comes after the identifier and the sequence number.
-/
def copied (iphdr : Ip6Hdr) (icmp6hdr : Icmp6Hdr) (payload : Bytes) : Bytes :=
  iphdr.src.s6Addr ++ iphdr.dst.s6Addr
    ++ [0, 0, UInt8.ofNat ((icmpHdrlen + payload.length) / 256), UInt8.ofNat ((icmpHdrlen + payload.length) % 256)]
    ++ [0, 0, 0, iphdr.nxt] ++ [icmp6hdr.type, icmp6hdr.code] ++ shortBytes icmp6hdr.id ++ shortBytes icmp6hdr.seq
    ++ [0, 0] ++ payload

theorem copied_length : (copied iphdr icmp6hdr payload).length = 48 + payload.length := by
  simp [copied, shortBytes, iphdr.src.length_eq, iphdr.dst.length_eq]
  omega

theorem icmp6Checksum_eq (hn : n ≤ payload.length)
    : icmp6Checksum buf iphdr icmp6hdr payload n = (do
      let s ← Copied.put { buf, ptr := 0, chksumlen := 0 } (copied iphdr icmp6hdr (payload.take n))
      let s ← s.pad (n % 2)
      checksum s.buf s.chksumlen) := by
  have hlength : (payload.take n).length = n := by simpa using hn
  simp only [icmp6Checksum, loadRange_of_le hn, ok_bind, put_put]
  congr 2
  simp [copied, hlength]

theorem pseudoHeader_length {src dst : In6Addr} {nxt : UInt8}
    : (pseudoHeader src.s6Addr dst.s6Addr len nxt).length = 40 := by
  simp [pseudoHeader, src.length_eq, dst.length_eq]

theorem pseudoHeader_of_lt {src dst : Bytes} {nxt : UInt8} (h : len < 65536)
    : pseudoHeader src dst len nxt
      = src ++ dst ++ [0, 0, UInt8.ofNat (len / 256), UInt8.ofNat (len % 256)] ++ [0, 0, 0, nxt] := by
  have hlow : UInt8.ofNat (len % 256) = UInt8.ofNat len := by
    rw [← UInt8.toNat_inj, UInt8.toNat_ofNat', UInt8.toNat_ofNat', Nat.mod_mod]
  rw [pseudoHeader, Nat.div_eq_of_lt (by omega : len < 16777216), Nat.div_eq_of_lt h, hlow]
  rfl

theorem wordSum_copied (h : icmpHdrlen + payload.length < 65536)
    : wordSum littleEndian (pseudoHeader iphdr.src.s6Addr iphdr.dst.s6Addr (icmpHdrlen + payload.length) iphdr.nxt
        ++ ({ icmp6hdr with cksum := w }.bytes ++ payload))
      = wordSum littleEndian (copied iphdr icmp6hdr payload) + w.toNat := by
  have heven : (pseudoHeader iphdr.src.s6Addr iphdr.dst.s6Addr (icmpHdrlen + payload.length) iphdr.nxt).length % 2
      = 0 := by
    rw [pseudoHeader_length]
  have hcopied : copied iphdr icmp6hdr payload
      = pseudoHeader iphdr.src.s6Addr iphdr.dst.s6Addr (icmpHdrlen + payload.length) iphdr.nxt
        ++ ([icmp6hdr.type, icmp6hdr.code] ++ shortBytes icmp6hdr.id ++ shortBytes icmp6hdr.seq ++ [0, 0]
          ++ payload) := by
    rw [pseudoHeader_of_lt h]
    simp [copied]
  have hzero : littleEndian 0 0 = 0 := rfl
  rw [hcopied, wordSum_append heven, wordSum_append heven]
  simp only [Icmp6Hdr.bytes, shortBytes, List.cons_append, List.nil_append, wordSum, hzero, littleEndian_stored]
  omega

theorem verifies_of_complement (h : icmpHdrlen + payload.length < 65536)
    (hw : w.toNat = 65535 - endAround 65536 (wordSum littleEndian (copied iphdr icmp6hdr payload)))
    : Verifies iphdr.src.s6Addr iphdr.dst.s6Addr iphdr.nxt ({ icmp6hdr with cksum := w }.bytes ++ payload) := by
  have hlength : ({ icmp6hdr with cksum := w }.bytes ++ payload).length = icmpHdrlen + payload.length := by
    simp [Icmp6Hdr.bytes, shortBytes, icmpHdrlen]
    omega
  rw [Verifies, hlength, endAround_bigEndian, wordSum_copied h, hw, endAround_add_complement (by decide)]
  rfl

/--
Padding does not change the sum.
-/
theorem wordSum_padded : wordSum littleEndian (bs ++ zeros (bs.length % 2)) = wordSum littleEndian bs := by
  rcases Nat.mod_two_eq_zero_or_one bs.length with h | h
  . simp [h, zeros]
  . rw [h]
    exact wordSum_concat_zero h

theorem icmp6Checksum_of_le (iphdr : Ip6Hdr) (icmp6hdr : Icmp6Hdr) (hbuf : buf.length = ipMaxpacket)
    (hn : n ≤ payload.length) (h : n ≤ 65486)
    : ∃ w, icmp6Checksum buf iphdr icmp6hdr payload n = .ok w
      ∧ Verifies iphdr.src.s6Addr iphdr.dst.s6Addr iphdr.nxt
        ({ icmp6hdr with cksum := w }.bytes ++ payload.take n) := by
  have hlength : (payload.take n).length = n := by simpa using hn
  have hcopied : (copied iphdr icmp6hdr (payload.take n)).length = 48 + n := by
    rw [copied_length, hlength]
  have hparity : n % 2 = (copied iphdr icmp6hdr (payload.take n)).length % 2 := by omega
  have hpadded : (copied iphdr icmp6hdr (payload.take n) ++ zeros (n % 2)).length = 48 + n + n % 2 := by
    rw [List.length_append, hcopied, zeros_length]
  rw [icmp6Checksum_eq hn, put_of_le (by rw [hbuf, ipMaxpacket]; omega), ok_bind]
  obtain ⟨s, hpad, hprefix, hlen⟩ := pad_of_le (copied iphdr icmp6hdr (payload.take n)) n
    (by rw [hbuf, ipMaxpacket]; omega)
  obtain ⟨w, hsum, hw⟩ := Ping.checksum_eq (b := copied iphdr icmp6hdr (payload.take n) ++ zeros (n % 2))
    (by omega)
  refine ⟨w, ?_, ?_⟩
  . rw [hpad, ok_bind, checksum_eq, hlen]
    exact checksum_of_prefix hprefix hsum
  . apply verifies_of_complement
    . rw [hlength, icmpHdrlen]
      omega
    . rw [hw, hparity, wordSum_padded]

theorem icmp6Checksum_of_lt (hbuf : buf.length = ipMaxpacket) (hn : n ≤ payload.length) (h : 65486 < n)
    : icmp6Checksum buf iphdr icmp6hdr payload n = .error (.outOfRange ipMaxpacket ipMaxpacket) := by
  have hlength : (copied iphdr icmp6hdr (payload.take n)).length = 48 + n := by
    rw [copied_length, List.length_take, Nat.min_eq_left hn]
  rw [icmp6Checksum_eq hn]
  by_cases hlast : n = 65487
  . -- The message fits, the zero behind it does not.
    have hfull : (copied iphdr icmp6hdr (payload.take n)).length = buf.length := by
      rw [hbuf, ipMaxpacket]
      omega
    rw [put_of_le hfull.le, ok_bind, List.drop_of_length_le hfull.ge, List.append_nil,
      pad_of_eq hfull (by omega), error_bind, hbuf]
  . rw [put_of_lt (by rw [hbuf, ipMaxpacket]; omega), error_bind, hbuf]

theorem icmp6Checksum_verifies (buf : Bytes) (iphdr : Ip6Hdr) (icmp6hdr : Icmp6Hdr) (payload : Bytes) (n : Nat)
    (hbuf : buf.length = ipMaxpacket) (hn : n ≤ payload.length)
    : (n ≤ 65486 → ∃ w, icmp6Checksum buf iphdr icmp6hdr payload n = .ok w
        ∧ Verifies iphdr.src.s6Addr iphdr.dst.s6Addr iphdr.nxt
          ({ icmp6hdr with cksum := w }.bytes ++ payload.take n))
      ∧ (65486 < n → icmp6Checksum buf iphdr icmp6hdr payload n
        = .error (.outOfRange ipMaxpacket ipMaxpacket)) :=
  ⟨icmp6Checksum_of_le _ _ hbuf hn, icmp6Checksum_of_lt hbuf hn⟩

def loopback : In6Addr where
  s6Addr := zeros 15 ++ [1]
  length_eq := rfl

def loopbackIphdr : Ip6Hdr :=
  sendIphdr loopback loopback 3

theorem icmp6Checksum_verifies_loopback
    : (3 ≤ 65486 → ∃ w, icmp6Checksum (zeros ipMaxpacket) loopbackIphdr (sendIcmphdr 0) [84, 101, 115] 3 = .ok w
        ∧ Verifies loopbackIphdr.src.s6Addr loopbackIphdr.dst.s6Addr loopbackIphdr.nxt
          ({ sendIcmphdr 0 with cksum := w }.bytes ++ [84, 101, 115]))
      ∧ (65486 < 3 → icmp6Checksum (zeros ipMaxpacket) loopbackIphdr (sendIcmphdr 0) [84, 101, 115] 3
        = .error (.outOfRange ipMaxpacket ipMaxpacket)) :=
  icmp6Checksum_verifies (zeros ipMaxpacket) loopbackIphdr (sendIcmphdr 0) [84, 101, 115] 3 zeros_length
    (by decide)

end PseudoHeader

end Ping6
