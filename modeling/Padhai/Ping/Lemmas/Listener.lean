import Padhai.Ping.Impl.Listener
import Padhai.Ping.Lemmas.Request

/-!
This module contains what the listener does with a message and what it prints. The buffer is cleared before
every message, so that nothing of an earlier one is left.
-/

namespace Ping

open Mem OnesComplement

variable {pid : Int} {n i : Nat} {buf d : Bytes} {bytes : Int}

section Header

/--
The byte at an offset, which is a zero behind the end of a datagram.
-/
def byteAt (d : Bytes) (i : Nat) : UInt8 :=
  d[i]?.getD 0

def shortAt (d : Bytes) (i : Nat) : Nat :=
  littleEndian (byteAt d i) (byteAt d (i + 1))

def hdrSize (d : Bytes) : Nat :=
  (byteAt d 0).toNat % 16 * 4

theorem load_byteAt (h : i < buf.length) : load buf i = .ok (byteAt buf i) := by
  rw [byteAt, load_eq_ok_iff, List.getElem?_eq_getElem h, Option.getD_some]

theorem loadShort_shortAt (h : i + 1 < buf.length)
    : loadShort buf i = .ok (UInt16.ofNat (shortAt buf i)) := by
  rw [loadShort, load_byteAt (by omega), ok_bind, load_byteAt h, ok_bind, shortAt, littleEndian,
    pure_eq_ok]

theorem byteAt_padTo : byteAt (padTo n d) i = byteAt d i := by
  unfold byteAt padTo
  by_cases h : i < d.length
  . rw [List.getElem?_append_left h]
  . rw [List.getElem?_append_right (by omega), List.getElem?_eq_none (by omega : d.length ≤ i), zeros,
      List.getElem?_replicate]
    split <;> rfl

theorem byteAt_append_left {x y : Bytes} (h : i < x.length) : byteAt (x ++ y) i = byteAt x i := by
  rw [byteAt, List.getElem?_append_left h, byteAt]

theorem byteAt_append (x y : Bytes) (c : UInt8) : byteAt (x ++ c :: y) x.length = c := by
  simp [byteAt]

theorem shortAt_append (x y : Bytes) (c e : UInt8)
    : shortAt (x ++ c :: e :: y) x.length = littleEndian c e := by
  have he := byteAt_append (x ++ [c]) y e
  rw [List.append_assoc, List.length_append] at he
  rw [shortAt, byteAt_append]
  exact congrArg (littleEndian c) he

theorem shortAt_padTo : shortAt (padTo n d) i = shortAt d i := by
  rw [shortAt, byteAt_padTo, byteAt_padTo, shortAt]

theorem hdrSize_padTo : hdrSize (padTo n d) = hdrSize d := by
  rw [hdrSize, byteAt_padTo, hdrSize]

theorem hdrSize_lt : hdrSize d < 61 := by
  unfold hdrSize
  omega

theorem shortAt_lt : shortAt d i < 65536 :=
  Nat.lt_succ_of_le (littleEndian_le _ _)

end Header

section Loop

/--
What the loop does with a message, whatever was in the buffer before.
-/
def outcome : Received → Handled
  | .datagram d =>
    if byteAt d (hdrSize d) = icmpEchoReply then
      if 0 < d.length ∧ d.length ≤ 84 then
        .display (padTo bufSize d) d.length
      else
        .recvError
    else
      .notEchoResponse
  | .failed => .recvError

theorem ihl_eq (h : buf.length = bufSize) : Iphdr.ihl buf = .ok ((byteAt buf 0).toNat % 16) := by
  rw [Iphdr.ihl, load_byteAt (by rw [h, bufSize]; omega), ok_bind, pure_eq_ok]

theorem verifyEchoReply_eq (h : buf.length = bufSize)
    : verifyEchoReply buf bytes = .ok (if byteAt buf (hdrSize buf) = icmpEchoReply then 0 else -1) := by
  have hlt := hdrSize_lt (d := buf)
  have htype : load buf (hdrSize buf) = .ok (byteAt buf (hdrSize buf)) :=
    load_byteAt (by rw [h, bufSize]; omega)
  rw [hdrSize] at htype
  rw [verifyEchoReply, ihl_eq h, ok_bind, Icmphdr.type, Nat.add_zero, htype, ok_bind, hdrSize]
  split <;> rfl

theorem recvfrom_datagram
    : recvfrom (zeros bufSize) (.datagram d)
      = .ok (padTo bufSize (d.take bufSize), (d.take bufSize).length) := by
  have hlen : (d.take bufSize).length ≤ bufSize := by
    rw [List.length_take]
    omega
  have hcopy : memcpy (zeros bufSize) 0 (d.take bufSize) = .ok (padTo bufSize (d.take bufSize)) := by
    have := memcpy_append (b := []) (a := zeros (d.take bufSize).length)
      (t := zeros (bufSize - (d.take bufSize).length)) (s := d.take bufSize) (by simp)
    rwa [List.nil_append, ← zeros_add, Nat.add_sub_cancel' hlen] at this
  rw [recvfrom, hcopy, ok_bind, pure_eq_ok]

theorem handle_eq (h : buf.length = bufSize)
    : handle buf bytes = .ok (
      if byteAt buf (hdrSize buf) = icmpEchoReply then
        if 0 < bytes ∧ bytes ≤ 84 then .display buf bytes else .recvError
      else .notEchoResponse) := by
  have hmax : (packetSize : Int) + Iphdr.size = 84 := rfl
  rw [handle, verifyEchoReply_eq h, ok_bind, hmax]
  split
  . rw [if_neg (by decide)]
    by_cases hsize : 0 < bytes ∧ bytes ≤ 84
    . rw [if_pos hsize, if_pos hsize, pure_eq_ok]
    . rw [if_neg hsize, if_neg hsize, pure_eq_ok]
  . rw [if_pos (by decide), pure_eq_ok]

theorem handle_datagram (h : d.length ≤ bufSize)
    : handle (padTo bufSize d) d.length = .ok (outcome (.datagram d)) := by
  have hsize : 0 < (d.length : Int) ∧ (d.length : Int) ≤ 84 ↔ 0 < d.length ∧ d.length ≤ 84 := by omega
  rw [handle_eq (padTo_length h), hdrSize_padTo, byteAt_padTo, if_congr hsize rfl rfl, outcome]

/--
What does not fit into the buffer is too long for the listener all the same.
-/
theorem outcome_take : outcome (.datagram (d.take bufSize)) = outcome (.datagram d) := by
  by_cases h : d.length ≤ bufSize
  . rw [List.take_of_length_le h]
  . have hbyte : ∀ i, i < bufSize → byteAt (d.take bufSize) i = byteAt d i := by
      intro i hi
      rw [byteAt, List.getElem?_take_of_lt hi, byteAt]
    have hhdr : hdrSize (d.take bufSize) = hdrSize d := by
      rw [hdrSize, hbyte 0 (by decide), hdrSize]
    have hlt : hdrSize d < bufSize := Nat.lt_trans hdrSize_lt (by decide)
    have hlen : ¬(0 < (d.take bufSize).length ∧ (d.take bufSize).length ≤ 84) := by
      rw [List.length_take, bufSize] at *
      omega
    have hlen' : ¬(0 < d.length ∧ d.length ≤ 84) := by
      rw [bufSize] at h
      omega
    rw [outcome, outcome, hhdr, hbyte _ hlt, if_neg hlen, if_neg hlen']

theorem memset_buf (hbuf : buf.length = bufSize) : memset buf 0 bufSize = .ok (zeros bufSize) := by
  rw [memset_zero_of_le hbuf.ge, ← hbuf, List.drop_length, List.append_nil]

theorem receive_eq (hbuf : buf.length = bufSize) (r : Received)
    : ∃ b, b.length = bufSize ∧ receive buf r = .ok (b, outcome r) := by
  cases r with
  | datagram d =>
    have hlen : (d.take bufSize).length ≤ bufSize := by
      rw [List.length_take]
      omega
    refine ⟨_, padTo_length hlen, ?_⟩
    rw [receive, memset_buf hbuf, ok_bind, recvfrom_datagram, ok_bind]
    simp only [handle_datagram hlen, outcome_take, ok_bind, pure_eq_ok]
  | failed =>
    refine ⟨_, zeros_length, ?_⟩
    rw [receive, memset_buf hbuf, ok_bind]
    rfl

theorem receiveAll_eq (hbuf : buf.length = bufSize) (rounds : Nat) (arrivals : List Received)
    : receiveAll buf rounds arrivals = .ok ((arrivals.take rounds).map outcome
      ++ List.replicate (rounds - arrivals.length) .recvError) := by
  induction rounds generalizing buf arrivals with
  | zero => simp [receiveAll]
  | succ rounds ih =>
    obtain ⟨b, hb, hreceive⟩ := receive_eq hbuf (arrivals.headD .failed)
    rw [receiveAll, hreceive, ok_bind]
    simp only [ih hb, ok_bind, pure_eq_ok]
    cases arrivals with
    | nil => simp [outcome, List.replicate_succ]
    | cons r arrivals => simp

theorem handledMessages_eq (hbuf : buf.length = bufSize) (arrivals : List Received)
    : handledMessages buf arrivals = .ok ((arrivals.take 4).map outcome
      ++ List.replicate (4 - arrivals.length) .recvError) := by
  rw [handledMessages, memset_buf hbuf, ok_bind]
  exact receiveAll_eq zeros_length (pingAttempts - 1) arrivals

end Loop

section Display

def ipLine (d : Bytes) : Line :=
  .ip ((byteAt d 0).toNat / 16) (hdrSize d) (ntohs (UInt16.ofNat (shortAt d 2))) (byteAt d 9).toNat
    (byteAt d 8).toNat [byteAt d 12, byteAt d 13, byteAt d 14, byteAt d 15]
    [byteAt d 16, byteAt d 17, byteAt d 18, byteAt d 19]

def icmpLine (d : Bytes) : Line :=
  .icmp (byteAt d (hdrSize d)).toNat (byteAt d (hdrSize d + 1)).toNat
    (ntohs (UInt16.ofNat (shortAt d (hdrSize d + 2)))) (shortAt d (hdrSize d + 4))
    (shortAt d (hdrSize d + 6))

def printed (pid : Int) : Handled → List Line
  | .notEchoResponse => [.text "Not an echo response"]
  | .display buf _ =>
    .text "----------------" :: ipLine buf
      :: if shortAt buf (hdrSize buf + 4) = pid then [icmpLine buf] else []
  | .recvError => [.perror "recvfrom"]

theorem displayIp_eq (h : buf.length = bufSize) : displayIp buf = .ok (ipLine buf) := by
  have hload : ∀ i, i < 20 → load buf i = .ok (byteAt buf i) := by
    intro i hi
    apply load_byteAt
    rw [h, bufSize]
    omega
  have hshort : loadShort buf 2 = .ok (UInt16.ofNat (shortAt buf 2)) := by
    apply loadShort_shortAt
    rw [h, bufSize]
    omega
  simp [displayIp, Iphdr.version, ihl_eq h, loadAddr, Iphdr.totLen, Iphdr.protocol, Iphdr.ttl, Iphdr.saddr,
    Iphdr.daddr, hload, hshort, ipLine, hdrSize]

theorem toNat_shortAt : (UInt16.ofNat (shortAt d i)).toNat = shortAt d i :=
  UInt16.toNat_ofNat_of_lt' shortAt_lt

theorem displayIcmp_eq (h : buf.length = bufSize)
    : displayIcmp pid buf
      = .ok (if shortAt buf (hdrSize buf + 4) = pid then [icmpLine buf] else []) := by
  have hlt := hdrSize_lt (d := buf)
  have hload : ∀ i, i < 8 → load buf (hdrSize buf + i) = .ok (byteAt buf (hdrSize buf + i)) := by
    intro i hi
    apply load_byteAt
    rw [h, bufSize]
    omega
  have hshort : ∀ i, i < 7 → loadShort buf (hdrSize buf + i)
      = .ok (UInt16.ofNat (shortAt buf (hdrSize buf + i))) := by
    intro i hi
    apply loadShort_shortAt
    rw [h, bufSize]
    omega
  have hihl : (byteAt buf 0).toNat % 16 * 4 = hdrSize buf := rfl
  rw [displayIcmp, ihl_eq h, ok_bind, hihl, Icmphdr.id, hshort 4 (by decide), ok_bind, toNat_shortAt]
  split
  . rw [Icmphdr.type, hload 0 (by decide), ok_bind, Icmphdr.code, hload 1 (by decide), ok_bind,
      Icmphdr.checksum, hshort 2 (by decide), ok_bind, Icmphdr.sequence, hshort 6 (by decide), ok_bind,
      toNat_shortAt, pure_eq_ok, icmpLine, Nat.add_zero]
  . rfl

theorem print_display (h : buf.length = bufSize)
    : (Handled.display buf bytes).print pid = .ok (printed pid (.display buf bytes)) := by
  rw [Handled.print, display, displayIp_eq h, ok_bind, displayIcmp_eq h, ok_bind, printed, pure_eq_ok]

theorem print_outcome (pid : Int) (r : Received) : (outcome r).print pid = .ok (printed pid (outcome r)) := by
  cases r with
  | datagram d =>
    rw [outcome]
    split
    . split
      . next hsize =>
        apply print_display
        apply padTo_length
        rw [bufSize]
        omega
      . rfl
    . rfl
  | failed => rfl

theorem mapM_print (pid : Int) (rs : List Received)
    : (rs.map outcome).mapM (Handled.print pid) = .ok (rs.map fun r => printed pid (outcome r)) := by
  induction rs with
  | nil => rfl
  | cons r rs ih => simp [print_outcome, ih]

/--
What `listen_ev_thread` prints for the first four messages, and an error for each that does not come.
-/
theorem listenEvThread_eq (pid : Int) (hbuf : buf.length = bufSize) (arrivals : List Received)
    : listenEvThread pid false buf arrivals
      = .ok ((arrivals.take 4).flatMap (fun r => printed pid (outcome r))
        ++ List.replicate (4 - arrivals.length) (.perror "recvfrom")) := by
  have hmissing : List.replicate (4 - arrivals.length) Handled.recvError
      = (List.replicate (4 - arrivals.length) Received.failed).map outcome := by
    rw [List.map_replicate, outcome]
  rw [listenEvThread, if_neg (by decide), handledMessages_eq hbuf, ok_bind, hmissing, ← List.map_append,
    mapM_print, ok_bind, pure_eq_ok, List.map_append, List.flatten_append, List.flatMap_def]
  simp [outcome, printed]

end Display

end Ping
