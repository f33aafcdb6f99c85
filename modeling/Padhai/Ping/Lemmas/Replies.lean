import Padhai.Ping.Lemmas.Listener

/-!
This module contains which datagrams the listener reports as replies to its own requests, and that its
loop, which goes round once for every request, shows the replies to all of them only if nothing else comes
in between.
-/

namespace Ping

open Mem OnesComplement

variable {pid : Int} {cnt i : Nat} {buf d p : Bytes} {bytes : Int} {arrivals : List Received}

section Report

/--
The line of `display` about the ICMP header is printed.
-/
def ReportsIcmp (pid : Int) (buf d : Bytes) : Prop :=
  ∃ b handled lines type code checksum id seq, receive buf (.datagram d) = .ok (b, handled)
    ∧ handled.print pid = .ok lines ∧ .icmp type code checksum id seq ∈ lines

structure OwnReply (pid : Int) (d : Bytes) : Prop where
  complete : hdrSize d + Icmphdr.size ≤ d.length
  type : load d (hdrSize d) = .ok icmpEchoReply
  id : ∃ pckts, ping pid = .ok pckts
    ∧ ∀ p ∈ pckts, loadShort d (hdrSize d + Icmphdr.id) = loadShort p Icmphdr.id

/--
The datagram ends in the ICMP header but behind the first byte of the id, the rest of which is zeros in the
buffer.
-/
structure CutReply (pid : Int) (d : Bytes) : Prop where
  cut : d.length < hdrSize d + Icmphdr.size
  idStarts : hdrSize d + Icmphdr.id < d.length
  type : load d (hdrSize d) = .ok icmpEchoReply
  id : shortAt d (hdrSize d + Icmphdr.id) = pid

theorem mem_printed_display_iff
    : (∃ type code checksum id seq,
        Line.icmp type code checksum id seq ∈ printed pid (.display (padTo bufSize d) bytes))
      ↔ shortAt d (hdrSize d + 4) = pid := by
  rw [printed, hdrSize_padTo, shortAt_padTo]
  by_cases hid : shortAt d (hdrSize d + 4) = pid
  . simp [hid, ipLine, icmpLine]
  . simp [hid, ipLine]

theorem mem_printed_outcome_iff
    : (∃ type code checksum id seq,
        Line.icmp type code checksum id seq ∈ printed pid (outcome (.datagram d)))
      ↔ byteAt d (hdrSize d) = icmpEchoReply ∧ (0 < d.length ∧ d.length ≤ 84)
        ∧ shortAt d (hdrSize d + 4) = pid := by
  by_cases htype : byteAt d (hdrSize d) = icmpEchoReply
  . by_cases hsize : 0 < d.length ∧ d.length ≤ 84
    . rw [outcome, if_pos htype, if_pos hsize, mem_printed_display_iff]
      simp [htype, hsize]
    . rw [outcome, if_pos htype, if_neg hsize]
      simp [hsize, printed]
  . rw [outcome, if_neg htype]
    simp [htype, printed]

theorem reportsIcmp_iff (hbuf : buf.length = bufSize)
    : ReportsIcmp pid buf d ↔ byteAt d (hdrSize d) = icmpEchoReply ∧ (0 < d.length ∧ d.length ≤ 84)
      ∧ shortAt d (hdrSize d + 4) = pid := by
  obtain ⟨b, hb, hreceive⟩ := receive_eq hbuf (.datagram d)
  rw [← mem_printed_outcome_iff]
  constructor
  . rintro ⟨b', handled, lines, type, code, checksum, id, seq, hreceive', hprint, hmem⟩
    rw [hreceive, Except.ok.injEq, Prod.mk.injEq] at hreceive'
    rw [← hreceive'.2, print_outcome, Except.ok.injEq] at hprint
    exact ⟨type, code, checksum, id, seq, hprint ▸ hmem⟩
  . rintro ⟨type, code, checksum, id, seq, hmem⟩
    exact ⟨b, _, _, type, code, checksum, id, seq, hreceive, print_outcome pid _, hmem⟩

theorem shortAt_eq_echoId_iff
    : UInt16.ofNat (shortAt d i) = UInt16.ofInt pid ↔ shortAt d i = pid % 65536 := by
  have hlt := shortAt_lt (d := d) (i := i)
  rw [← UInt16.toNat_inj, toNat_shortAt, UInt16.ofInt, UInt16.toNat_ofNat']
  omega

theorem ownReply_iff
    : OwnReply pid d ↔ hdrSize d + 8 ≤ d.length ∧ byteAt d (hdrSize d) = icmpEchoReply
      ∧ shortAt d (hdrSize d + 4) = pid % 65536 := by
  obtain ⟨pckts, hping, hpckts⟩ := ping_eq pid
  rw [← shortAt_eq_echoId_iff]
  constructor
  . rintro ⟨hcomplete, htype, pckts', hping', hid⟩
    rw [Icmphdr.size] at hcomplete
    rw [load_byteAt (by omega), Except.ok.injEq] at htype
    refine ⟨hcomplete, htype, ?_⟩
    rw [hping, Except.ok.injEq] at hping'
    cases hpckts with
    | cons hp _ =>
      have := hid _ (hping' ▸ List.mem_cons_self)
      rwa [loadShort_id_of_isRequest hp, loadShort_shortAt (by rw [Icmphdr.id]; omega), Except.ok.injEq]
        at this
  . rintro ⟨hcomplete, htype, hid⟩
    refine ⟨hcomplete, ?_, pckts, hping, ?_⟩
    . rw [load_byteAt (by omega), htype]
    . intro p hp
      obtain ⟨cnt, hrequest⟩ := exists_of_forall₂ hpckts hp
      rw [loadShort_id_of_isRequest hrequest, loadShort_shortAt (by rw [Icmphdr.id]; omega), Icmphdr.id, hid]

theorem shortAt_of_le (h : d.length ≤ i) : shortAt d i = 0 := by
  have hbyte : ∀ j, d.length ≤ j → byteAt d j = 0 := by
    intro j hj
    rw [byteAt, List.getElem?_eq_none hj, Option.getD_none]
  rw [shortAt, hbyte i h, hbyte (i + 1) (by omega)]
  rfl

theorem cutReply_iff (hpid : 0 < pid)
    : CutReply pid d ↔ d.length < hdrSize d + 8 ∧ byteAt d (hdrSize d) = icmpEchoReply
      ∧ shortAt d (hdrSize d + 4) = pid := by
  constructor
  . rintro ⟨hcut, hstarts, htype, hid⟩
    rw [Icmphdr.id] at hstarts
    rw [load_byteAt (by omega), Except.ok.injEq] at htype
    exact ⟨hcut, htype, hid⟩
  . rintro ⟨hcut, htype, hid⟩
    have hstarts : hdrSize d + 4 < d.length := by
      apply Nat.lt_of_not_le
      intro hle
      rw [shortAt_of_le hle] at hid
      omega
    refine ⟨hcut, hstarts, ?_, hid⟩
    rw [load_byteAt (by omega), htype]

theorem reportsOwnReplies_iff (pid : Int) (buf d : Bytes) (hpid : 0 < pid) (hbuf : buf.length = bufSize)
    (hd : d.length ≤ 84)
    : (ReportsIcmp pid buf d ↔ OwnReply pid d)
      ↔ ¬(65536 ≤ pid ∧ OwnReply pid d) ∧ ¬CutReply pid d := by
  have hid := shortAt_lt (d := d) (i := hdrSize d + 4)
  have hstarts : d.length = 0 → shortAt d (hdrSize d + 4) = 0 := fun h => shortAt_of_le (by omega)
  rw [reportsIcmp_iff hbuf, ownReply_iff, cutReply_iff hpid]
  by_cases htype : byteAt d (hdrSize d) = icmpEchoReply
  . simp only [htype, true_and]
    omega
  . simp [htype]

/--
A reply without data to the process 70000.
-/
def replyToLongPid : Bytes :=
  [0x45, 0, 0, 28, 0, 0, 0, 0, 64, 1, 0x7c, 0xdf, 127, 0, 0, 1, 127, 0, 0, 1,
    0, 0, 0x8e, 0xee, 0x70, 0x11, 1, 0]

/--
A reply to the process 4660 that ends behind the id.
-/
def replyWithoutSequence : Bytes :=
  [0x45, 0, 0, 26, 0, 0, 0, 0, 64, 1, 0x7c, 0xe1, 127, 0, 0, 1, 127, 0, 0, 1,
    0, 0, 0xcb, 0xed, 0x34, 0x12]

theorem reportsOwnReplies_iff_withoutSequence
    : (ReportsIcmp 4660 (zeros bufSize) replyWithoutSequence ↔ OwnReply 4660 replyWithoutSequence)
      ↔ ¬(65536 ≤ (4660 : Int) ∧ OwnReply 4660 replyWithoutSequence)
        ∧ ¬CutReply 4660 replyWithoutSequence :=
  reportsOwnReplies_iff 4660 (zeros bufSize) replyWithoutSequence (by decide) zeros_length (by decide)

theorem not_reportsOwnReplies
    : ¬(ReportsIcmp 70000 (zeros bufSize) replyToLongPid ↔ OwnReply 70000 replyToLongPid)
      ∧ ¬(ReportsIcmp 4660 (zeros bufSize) replyWithoutSequence ↔ OwnReply 4660 replyWithoutSequence) := by
  rw [reportsIcmp_iff zeros_length, ownReply_iff, reportsIcmp_iff zeros_length, ownReply_iff]
  decide

end Report

section Budget

/--
An echo reply to a request: its type and its checksum are others, and there is an IP header before it.
-/
def IsReply (p d : Bytes) : Prop :=
  ∃ ip c e, d = ip ++ icmpEchoReply :: 0 :: c :: e :: p.drop 4 ∧ hdrSize ip = ip.length
    ∧ Iphdr.size ≤ ip.length

/--
The replies to all requests of `ping`, one for each.
-/
def AreReplies (pid : Int) (replies : List Bytes) : Prop :=
  ∃ pckts, ping pid = .ok pckts ∧ List.Forall₂ IsReply pckts replies

def Displays (handled : List Handled) (d : Bytes) : Prop :=
  .display (padTo bufSize d) d.length ∈ handled

def DisplaysAll (buf : Bytes) (arrivals : List Received) (replies : List Bytes) : Prop :=
  ∃ handled, handledMessages buf arrivals = .ok handled ∧ ∀ d ∈ replies, Displays handled d

theorem reply_hdrSize {ip x : Bytes} (hhdr : hdrSize ip = ip.length) (hsize : Iphdr.size ≤ ip.length)
    : hdrSize (ip ++ x) = ip.length := by
  rw [hdrSize, byteAt_append_left (Nat.lt_of_lt_of_le (by decide) hsize), ← hdrSize, hhdr]

theorem reply_type (h : IsReply p d) : byteAt d (hdrSize d) = icmpEchoReply ∧ 0 < d.length := by
  obtain ⟨ip, c, e, rfl, hhdr, hsize⟩ := h
  rw [reply_hdrSize hhdr hsize, byteAt_append, List.length_append]
  exact ⟨rfl, Nat.add_pos_right _ (Nat.succ_pos _)⟩

def sequenceOf (d : Bytes) : Nat :=
  shortAt d (hdrSize d + Icmphdr.sequence)

theorem sequenceOf_reply (hrequest : IsRequest pid cnt p) (hreply : IsReply p d)
    : sequenceOf d = cnt % 65536 := by
  obtain ⟨⟨c', e', rfl⟩, -⟩ := hrequest
  obtain ⟨ip, c, e, rfl, hhdr, hsize⟩ := hreply
  have := shortAt_append
    (ip ++ [icmpEchoReply, 0, c, e, lowByte (UInt16.ofInt pid), highByte (UInt16.ofInt pid)])
    (msgBytes 0 55 ++ [0]) (lowByte (UInt16.ofNat cnt)) (highByte (UInt16.ofNat cnt))
  rw [littleEndian_stored, UInt16.toNat_ofNat', List.append_assoc, List.length_append] at this
  rw [sequenceOf, reply_hdrSize hhdr hsize]
  exact this

theorem map_sequenceOf {cnts : List Nat} {pckts replies : List Bytes}
    (hrequests : List.Forall₂ (IsRequest pid) cnts pckts) (hreplies : List.Forall₂ IsReply pckts replies)
    : replies.map sequenceOf = cnts.map (· % 65536) := by
  induction hrequests generalizing replies with
  | nil =>
    cases hreplies
    rfl
  | cons hrequest _ ih =>
    cases hreplies with
    | cons hreply hreplies =>
      rw [List.map_cons, List.map_cons, sequenceOf_reply hrequest hreply, ih hreplies]

theorem map_sequenceOf_replies {replies : List Bytes} (h : AreReplies pid replies)
    : replies.map sequenceOf = [1, 2, 3, 4] := by
  obtain ⟨pckts, hping, hreplies⟩ := h
  obtain ⟨pckts', hping', hrequests⟩ := ping_eq pid
  rw [hping', Except.ok.injEq] at hping
  exact map_sequenceOf hrequests (hping ▸ hreplies)

theorem outcome_eq_display_iff {r : Received}
    : outcome r = .display (padTo bufSize d) d.length
      ↔ r = .datagram d ∧ byteAt d (hdrSize d) = icmpEchoReply ∧ 0 < d.length ∧ d.length ≤ 84 := by
  constructor
  . intro h
    cases r with
    | datagram d' =>
      rw [outcome] at h
      split at h
      . next htype =>
        split at h
        . next hsize =>
          rw [Handled.display.injEq, Int.natCast_inj] at h
          have hd : d' = d := by
            rw [← take_padTo (n := bufSize) (s := d'), h.1, h.2, take_padTo]
          subst hd
          exact ⟨rfl, htype, hsize⟩
        . contradiction
      . contradiction
    | failed => contradiction
  . rintro ⟨rfl, htype, hsize⟩
    rw [outcome, if_pos htype, if_pos hsize]

theorem displays_iff {handled : List Handled} (hbuf : buf.length = bufSize)
    (h : handledMessages buf arrivals = .ok handled)
    : Displays handled d ↔ .datagram d ∈ arrivals.take 4
      ∧ byteAt d (hdrSize d) = icmpEchoReply ∧ 0 < d.length ∧ d.length ≤ 84 := by
  rw [handledMessages_eq hbuf, Except.ok.injEq] at h
  rw [Displays, ← h, List.mem_append, List.mem_map, List.mem_replicate]
  simp only [outcome_eq_display_iff]
  simp

theorem displaysAll_iff_mem (hbuf : buf.length = bufSize) {replies : List Bytes}
    (hreplies : AreReplies pid replies)
    : DisplaysAll buf arrivals replies
      ↔ ∀ d ∈ replies, .datagram d ∈ arrivals.take 4 ∧ d.length ≤ 84 := by
  obtain ⟨pckts, -, hreplies⟩ := hreplies
  have hdisplays : ∀ d ∈ replies, ∀ handled, handledMessages buf arrivals = .ok handled
      → (Displays handled d ↔ .datagram d ∈ arrivals.take 4 ∧ d.length ≤ 84) := by
    intro d hd handled hhandled
    obtain ⟨p, hreply⟩ := exists_of_forall₂ hreplies hd
    have htype := reply_type hreply
    rw [displays_iff hbuf hhandled]
    simp [htype]
  constructor
  . rintro ⟨handled, hhandled, hall⟩ d hd
    exact (hdisplays d hd handled hhandled).mp (hall d hd)
  . intro hall
    refine ⟨_, handledMessages_eq hbuf arrivals, ?_⟩
    intro d hd
    exact (hdisplays d hd _ (handledMessages_eq hbuf arrivals)).mpr (hall d hd)

theorem take_perm_iff {α : Type} {l r : List α} (h : l.Nodup)
    : (r.take l.length).Perm l ↔ ∀ a ∈ l, a ∈ r.take l.length := by
  constructor
  . intro hperm a ha
    exact hperm.mem_iff.mpr ha
  . intro hmem
    apply List.Perm.symm
    apply (List.subperm_of_subset h hmem).perm_of_length_le
    rw [List.length_take]
    omega

theorem replies_nodup {replies : List Bytes} (h : AreReplies pid replies)
    : (replies.map Received.datagram).Nodup := by
  apply List.Nodup.map
  . intro d d' hd
    exact Received.datagram.inj hd
  . apply List.Nodup.of_map sequenceOf
    rw [map_sequenceOf_replies h]
    decide

theorem displaysAll_iff (pid : Int) (buf : Bytes) (replies : List Bytes) (arrivals : List Received)
    (hbuf : buf.length = bufSize) (hreplies : AreReplies pid replies)
    : DisplaysAll buf arrivals replies
      ↔ (arrivals.take 4).Perm (replies.map .datagram) ∧ ∀ d ∈ replies, d.length ≤ 84 := by
  have hlen : (replies.map Received.datagram).length = 4 := by
    simpa using congrArg List.length (map_sequenceOf_replies hreplies)
  have hperm := take_perm_iff (r := arrivals) (replies_nodup hreplies)
  rw [hlen, List.forall_mem_map] at hperm
  rw [displaysAll_iff_mem hbuf hreplies, hperm, ← forall₂_and]

def loopbackHeader : Bytes :=
  [0x45, 0, 0, 84, 0, 0, 0, 0, 64, 1, 0x7c, 0xa7, 127, 0, 0, 1, 127, 0, 0, 1]

def onLoopback (type : UInt8) (pid : Int) (cnt : Nat) : Bytes :=
  let sum := rfc1071 (type :: 0 :: 0 :: 0 :: echo pid cnt)
  loopbackHeader ++ type :: 0 :: UInt8.ofNat (sum / 256) :: UInt8.ofNat (sum % 256) :: echo pid cnt

def loopbackReplies (pid : Int) : List Bytes :=
  [1, 2, 3, 4].map (onLoopback icmpEchoReply pid)

theorem areReplies_loopback (pid : Int) : AreReplies pid (loopbackReplies pid) := by
  obtain ⟨pckts, hping, hrequests⟩ := ping_eq pid
  refine ⟨pckts, hping, ?_⟩
  rw [loopbackReplies, List.forall₂_map_right_iff]
  apply List.Forall₂.flip
  apply hrequests.imp
  rintro cnt p ⟨⟨c, d, rfl⟩, -⟩
  exact ⟨loopbackHeader, _, _, rfl, rfl, Nat.le_refl _⟩

theorem displaysAll_iff_loopbackReplies
    : DisplaysAll (zeros bufSize) ((loopbackReplies 4660).map .datagram) (loopbackReplies 4660)
      ↔ (((loopbackReplies 4660).map Received.datagram).take 4).Perm ((loopbackReplies 4660).map .datagram)
        ∧ ∀ d ∈ loopbackReplies 4660, d.length ≤ 84 :=
  displaysAll_iff 4660 (zeros bufSize) (loopbackReplies 4660) ((loopbackReplies 4660).map .datagram)
    zeros_length (areReplies_loopback 4660)

/--
The socket sees each request of a `ping` to the own host before the reply to it.
-/
def loopbackArrivals (pid : Int) : List Received :=
  [1, 2, 3, 4].flatMap fun cnt =>
    [.datagram (onLoopback icmpEcho pid cnt), .datagram (onLoopback icmpEchoReply pid cnt)]

theorem not_displaysAll_loopback
    : AreReplies 4660 (loopbackReplies 4660)
      ∧ (∀ d ∈ loopbackReplies 4660, .datagram d ∈ loopbackArrivals 4660)
      ∧ ¬DisplaysAll (zeros bufSize) (loopbackArrivals 4660) (loopbackReplies 4660) := by
  refine ⟨areReplies_loopback 4660, ?_, ?_⟩
  . simp [loopbackReplies, loopbackArrivals]
  . rw [displaysAll_iff_mem zeros_length (areReplies_loopback 4660)]
    intro hall
    have hlast := (hall (onLoopback icmpEchoReply 4660 4) (by simp [loopbackReplies])).1
    simp only [loopbackArrivals, List.flatMap_cons, List.cons_append, List.nil_append, List.take_succ_cons,
      List.take_zero, List.mem_cons, Received.datagram.injEq, List.not_mem_nil, or_false] at hlast
    rcases hlast with h | h | h | h
    all_goals exact absurd (congrArg sequenceOf h) (by decide)

end Budget

end Ping
