import Padhai.Dns.Lemmas.Relay

/-!
This module contains everything that one call of `on_recv` can log, with what is asked of the datagrams
and of the system calls in each case. The packet buffer and the length after a `recvfrom` are `arrived`,
also where the call failed.
-/

namespace Dns

open Mem Label Traced

variable {env : Env} {d : Datagram} {arrival : Option Datagram} {buffer : Bytes} {n : UInt32}

section Arrived

def arrived (buffer : Bytes) : Option Datagram → Bytes × UInt32
  | some d => (received buffer d, .ofNat d.bytes.length)
  | none => (buffer.set 0 0, -1)

theorem arrived_length (hb : buffer.length = 512) : (arrived buffer arrival).1.length = 512 := by
  match arrival with
  | some d => exact received_length hb
  | none => rwa [arrived, List.length_set]

theorem arrived_snd : (recvfrom buffer arrival).2 = (arrived buffer arrival).2 := by
  cases arrival <;> rfl

theorem store_arrived (hb : buffer.length = 512) (h : ∀ d ∈ arrival, d.bytes.length ≤ 510)
    : store (recvfrom buffer arrival).1 ((arrived buffer arrival).2 + 1).toNat 0
        = .ok (arrived buffer arrival).1 := by
  match arrival with
  | some d =>
    have hstore := store_terminator (d := d) hb
    rw [if_pos (h d rfl)] at hstore
    exact hstore
  | none =>
    have hzero : ((-1 : UInt32) + 1).toNat = 0 := rfl
    simp only [recvfrom, arrived, hzero]
    exact store_of_lt (by omega)

theorem loadRange_received (hb : buffer.length = 512) (h : d.bytes.length ≤ 510)
    : loadRange (received buffer d) (UInt32.ofNat d.bytes.length).toNat = .ok d.bytes := by
  have hlen := received_length (d := d) hb
  have htake : (received buffer d).take d.bytes.length = d.bytes := by
    obtain ⟨u, hu⟩ : d.bytes <+: received buffer d := prefix_received
    rw [← hu, List.take_left]
  rw [toNat_ofNat_length, loadRange_of_le (by omega), htake]

theorem loadRange_of_failed (hb : buffer.length = 512)
    : ∃ e, loadRange buffer (-1 : UInt32).toNat = .error e := by
  have hn : (-1 : UInt32).toNat = 4294967295 := rfl
  rw [loadRange, hn, if_neg (by omega)]
  exact ⟨_, rfl⟩

/--
The name runs over the end of its array before `verify_dns_buffer` gives up on it.
-/
def Overruns (buffer : Bytes) (n : UInt32) : Prop :=
  255 ≤ n.toNat ∧ ¬Copied n (questionName buffer)

theorem verifyDnsBuffer_cases (hb : buffer.length = 512)
    : (Accepted buffer n ∧ verifyDnsBuffer buffer n = .ok 0)
      ∨ (¬Accepted buffer n ∧ ¬Overruns buffer n ∧ verifyDnsBuffer buffer n = .ok (-1))
      ∨ (Overruns buffer n ∧ ∃ e, verifyDnsBuffer buffer n = .error e) := by
  by_cases haccepted : Accepted buffer n
  . exact .inl ⟨haccepted, (verifyDnsBuffer_eq_zero_iff hb).mpr haccepted⟩
  . by_cases hover : Overruns buffer n
    . exact .inr (.inr ⟨hover, _, verifyDnsBuffer_of_overrun hb hover.2 hover.1⟩)
    . refine .inr (.inl ⟨haccepted, hover, verifyDnsBuffer_of_rejected hb haccepted fun h255 => ?_⟩)
      exact Decidable.not_not.mp fun hcopied => hover ⟨h255, hcopied⟩

theorem not_overruns_of_accepted (h : Accepted buffer n) : ¬Overruns buffer n :=
  fun hover => hover.2 h.1

end Arrived

section Env

abbrev Env.request (env : Env) : Bytes × UInt32 :=
  arrived (zeros 8 ++ env.fresh.drop 8) env.clientRecv

abbrev Env.name (env : Env) : Bytes := questionName env.request.1

abbrev Env.text (env : Env) : Bytes := questionText env.request.1

/--
The packet buffer with the query in it.
-/
abbrev Env.query (env : Env) : Bytes := outgoing (env.request.1.take 12) env.text

abbrev Env.reply (env : Env) : Bytes × UInt32 := arrived env.query env.upstreamRecv

theorem request_length (env : Env) : env.request.1.length = 512 :=
  arrived_length (cleared_length env)

theorem take_request_length (env : Env) : (env.request.1.take 12).length = 12 := by
  rw [List.length_take, request_length]
  rfl

theorem query_length (h : env.name.length ≤ 254) : env.query.length = 512 := by
  have htext : env.text.length = env.name.length - 1 := questionText_length _
  exact outgoing_length (take_request_length env) (by omega)

theorem reply_length (h : env.name.length ≤ 254) : env.reply.1.length = 512 :=
  arrived_length (query_length h)

end Env

section Logs

structure PrintedHeader (buffer : Bytes) (tid : Nat) (qType : QueryType) : Prop where
  tid : DnsHeader.id buffer = .ok tid
  qType : ∃ qr, DnsHeader.qr buffer = .ok qr ∧ qType = if qr = 0 then .request else .response

/--
What follows the query in the log.
-/
inductive ReplyLog (env : Env) : List Event → Except Fault Unit → Prop where
  | unterminated {r : Datagram} {e : Fault} (hr : env.upstreamRecv = some r)
    (hlen : 510 < r.bytes.length) : ReplyLog env [] (.error e)
  | overrun {e : Fault} (h : Overruns env.reply.1 env.reply.2) : ReplyLog env [] (.error e)
  | rejected (hlen : ∀ r ∈ env.upstreamRecv, r.bytes.length ≤ 510)
    (h : ¬Accepted env.reply.1 env.reply.2) (hover : ¬Overruns env.reply.1 env.reply.2)
    : ReplyLog env [.verified .upstream (-1), .forwarded (-1)] (.ok ())
  | unread {e : Fault} (hlen : ∀ r ∈ env.upstreamRecv, r.bytes.length ≤ 510)
    (h : Accepted env.reply.1 env.reply.2)
    (hread : readResponse env.malloc env.fuel env.reply.1 = .error e)
    : ReplyLog env [.verified .upstream 0] (.error e)
  | unprintable {counts : Counts} {lines : List AnswerLine} {e : Fault}
    (h : Accepted env.reply.1 env.reply.2)
    (hread : readResponse env.malloc env.fuel env.reply.1 = .ok (counts, lines))
    (hp : ¬Printable (questionName env.reply.1))
    : ReplyLog env [.verified .upstream 0, .answers counts lines, .forwarded 0] (.error e)
  | unreceived {counts : Counts} {lines : List AnswerLine} {tid : Nat} {qType : QueryType} {e : Fault}
    (hr : env.upstreamRecv = none) (h : Accepted env.reply.1 env.reply.2)
    (hread : readResponse env.malloc env.fuel env.reply.1 = .ok (counts, lines))
    (hp : Printable (questionName env.reply.1))
    : ReplyLog env [.verified .upstream 0, .answers counts lines, .forwarded 0,
        .header .upstream tid (questionText env.reply.1) qType] (.error e)
  | relayed {r : Datagram} {counts : Counts} {lines : List AnswerLine} {tid : Nat} {qType : QueryType}
    (hr : env.upstreamRecv = some r) (hlen : r.bytes.length ≤ 510)
    (h : Accepted env.reply.1 env.reply.2)
    (hread : readResponse env.malloc env.fuel env.reply.1 = .ok (counts, lines))
    (hp : Printable (questionName env.reply.1)) (hheader : PrintedHeader env.reply.1 tid qType)
    : ReplyLog env [.verified .upstream 0, .answers counts lines, .forwarded 0,
        .header .upstream tid (questionText env.reply.1) qType, .sentClient r.bytes] (.ok ())

/--
A request that is accepted and whose header is printed.
-/
structure Parsed (env : Env) (tid : Nat) (qType : QueryType) : Prop where
  length_le : ∀ d ∈ env.clientRecv, d.bytes.length ≤ 510
  accepted : Accepted env.request.1 env.request.2
  printable : Printable env.name
  header : PrintedHeader env.request.1 tid qType

inductive RequestLog (env : Env) : List Event → Except Fault Unit → Prop where
  | unterminated {d : Datagram} {e : Fault} (hd : env.clientRecv = some d)
    (hlen : 510 < d.bytes.length) : RequestLog env [] (.error e)
  | overrun {e : Fault} (h : Overruns env.request.1 env.request.2) : RequestLog env [] (.error e)
  | rejected (hlen : ∀ d ∈ env.clientRecv, d.bytes.length ≤ 510)
    (h : ¬Accepted env.request.1 env.request.2) (hover : ¬Overruns env.request.1 env.request.2)
    : RequestLog env [.verified .client (-1)] (.ok ())
  | unprintable {e : Fault} (h : Accepted env.request.1 env.request.2) (hp : ¬Printable env.name)
    : RequestLog env [.verified .client 0] (.error e)
  | unset {tid : Nat} {qType : QueryType} (h : Parsed env tid qType)
    (hset : ¬(env.setsockoptReuse ∧ env.setsockoptTimeout))
    : RequestLog env [.verified .client 0, .header .client tid env.text qType, .forwarded (-1)]
      (.ok ())
  | noRoom {tid : Nat} {qType : QueryType} {e : Fault} (h : Parsed env tid qType)
    (hset : env.setsockoptReuse ∧ env.setsockoptTimeout) (hroom : env.name.length = 255)
    : RequestLog env [.verified .client 0, .header .client tid env.text qType] (.error e)
  | unsent {tid : Nat} {qType : QueryType} (h : Parsed env tid qType)
    (hset : env.setsockoptReuse ∧ env.setsockoptTimeout) (hroom : env.name.length ≤ 254)
    (hup : ¬env.upstreamSend)
    : RequestLog env [.verified .client 0, .header .client tid env.text qType,
        .sentUpstream (forwarded (env.request.1.take 12) env.text), .forwarded (-1)] (.ok ())
  | asked {tid : Nat} {qType : QueryType} {log : List Event} {result : Except Fault Unit}
    (h : Parsed env tid qType) (hset : env.setsockoptReuse ∧ env.setsockoptTimeout)
    (hroom : env.name.length ≤ 254) (hup : env.upstreamSend) (hreply : ReplyLog env log result)
    : RequestLog env (.verified .client 0 :: .header .client tid env.text qType ::
        .sentUpstream (forwarded (env.request.1.take 12) env.text) :: log) result

theorem readRequest_arrived (h : ∀ d ∈ env.clientRecv, d.bytes.length ≤ 510)
    : onRecv.readRequest env = onRecv.parseRequest env.request.1 env.request.2 := by
  simp only [onRecv.readRequest, sizeofPointer, memset_fresh, lift_eq, nil_ok_bind,
    UInt32.not_lt_zero, ↓reduceIte, arrived_snd, store_arrived (cleared_length env) h]

theorem readRequest_of_long (hd : env.clientRecv = some d) (h : 510 < d.bytes.length)
    : ∃ e, onRecv.readRequest env = ⟨[], .error e⟩ := by
  rw [readRequest_eq hd, if_neg (by omega)]
  exact ⟨_, rfl⟩

theorem relay_arrived {sent : Bytes} (hsent : sent.length = 512)
    (h : ∀ r ∈ env.upstreamRecv, r.bytes.length ≤ 510)
    : onRecv.relay env sent
        = onRecv.relayReceived env (arrived sent env.upstreamRecv).1
          (arrived sent env.upstreamRecv).2 := by
  rw [relay_eq, arrived_snd, store_arrived hsent h, lift_eq, nil_ok_bind]

theorem relay_of_long {sent : Bytes} (hsent : sent.length = 512) (hr : env.upstreamRecv = some d)
    (h : 510 < d.bytes.length) : ∃ e, onRecv.relay env sent = ⟨[], .error e⟩ := by
  rw [relay_eq, hr, recvfrom_some, store_terminator hsent, if_neg (by omega)]
  exact ⟨_, rfl⟩

/--
What is logged once a reply has been accepted and its answers and its name are read.
-/
theorem relayReceived_of_read {counts : Counts} {lines : List AnswerLine} (hb : buffer.length = 512)
    (h : Accepted buffer n) (hread : readResponse env.malloc env.fuel buffer = .ok (counts, lines))
    (hp : Printable (questionName buffer))
    : ∃ tid qType, PrintedHeader buffer tid qType
        ∧ onRecv.relayReceived env buffer n
          = ⟨[.verified .upstream 0, .answers counts lines, .forwarded 0,
              .header .upstream tid (questionText buffer) qType]
                ++ (loadRange buffer n.toNat).toOption.toList.map .sentClient,
            (loadRange buffer n.toNat).map fun _ => ()⟩ := by
  have hverify := (verifyDnsBuffer_eq_zero_iff hb).mpr h
  obtain ⟨tid, qr, htid, hqr, hheader⟩ := readAndPrintDnsHeader_of_printable hb h.1 hp
  have hlen : (questionText buffer).length < 256 := by
    rw [questionText_length]
    have := h.1.1
    omega
  have hstrlen := strlen_padTo hlen (zero_notMem_questionText buffer)
  refine ⟨tid, if qr = 0 then .request else .response, ⟨htid, qr, hqr, rfl⟩, ?_⟩
  cases hload : loadRange buffer n.toNat with
  | error e =>
    simp [onRecv.relayReceived, hverify, hread, hheader, hstrlen, hload, take_padTo, Except.map,
      Except.toOption]
  | ok datagram =>
    simp [onRecv.relayReceived, hverify, hread, hheader, hstrlen, hload, take_padTo, emit, Except.map,
      Except.toOption]

theorem replyLog_of_read (hroom : env.name.length ≤ 254)
    (hlen : ∀ r ∈ env.upstreamRecv, r.bytes.length ≤ 510) (h : Accepted env.reply.1 env.reply.2)
    {counts : Counts} {lines : List AnswerLine}
    (hread : readResponse env.malloc env.fuel env.reply.1 = .ok (counts, lines))
    (hp : Printable (questionName env.reply.1))
    : ReplyLog env (onRecv.relayReceived env env.reply.1 env.reply.2).trace
        (onRecv.relayReceived env env.reply.1 env.reply.2).result := by
  obtain ⟨tid, qType, hheader, heq⟩ := relayReceived_of_read (reply_length hroom) h hread hp
  rw [heq]
  match hr : env.upstreamRecv with
  | some r =>
    have hload : loadRange env.reply.1 env.reply.2.toNat = .ok r.bytes := by
      rw [Env.reply, hr]
      exact loadRange_received (query_length hroom) (hlen r hr)
    rw [hload]
    exact .relayed hr (hlen r hr) h hread hp hheader
  | none =>
    obtain ⟨e, hload⟩ : ∃ e, loadRange env.reply.1 env.reply.2.toNat = .error e := by
      have hb := reply_length hroom
      rw [Env.reply, hr] at hb ⊢
      exact loadRange_of_failed hb
    rw [hload]
    exact .unreceived hr h hread hp

theorem replyLog_of_accepted (hroom : env.name.length ≤ 254)
    (hlen : ∀ r ∈ env.upstreamRecv, r.bytes.length ≤ 510) (h : Accepted env.reply.1 env.reply.2)
    : ReplyLog env (onRecv.relayReceived env env.reply.1 env.reply.2).trace
        (onRecv.relayReceived env env.reply.1 env.reply.2).result := by
  have hb := reply_length hroom
  have hverify := (verifyDnsBuffer_eq_zero_iff hb).mpr h
  match hread : readResponse env.malloc env.fuel env.reply.1 with
  | .error e =>
    have heq : onRecv.relayReceived env env.reply.1 env.reply.2
        = ⟨[.verified .upstream 0], .error e⟩ := by
      simp [onRecv.relayReceived, hverify, hread]
    rw [heq]
    exact .unread hlen h hread
  | .ok (counts, lines) =>
    by_cases hp : Printable (questionName env.reply.1)
    . exact replyLog_of_read hroom hlen h hread hp
    . obtain ⟨e, he⟩ := readAndPrintDnsHeader_of_not_printable hb h.1 hp
      have heq : onRecv.relayReceived env env.reply.1 env.reply.2
          = ⟨[.verified .upstream 0, .answers counts lines, .forwarded 0], .error e⟩ := by
        simp [onRecv.relayReceived, hverify, hread, he]
      rw [heq]
      exact .unprintable h hread hp

theorem replyLog_relay (hroom : env.name.length ≤ 254)
    : ReplyLog env (onRecv.relay env env.query).trace (onRecv.relay env env.query).result := by
  by_cases hlen : ∀ r ∈ env.upstreamRecv, r.bytes.length ≤ 510
  . rw [relay_arrived (query_length hroom) hlen]
    rcases verifyDnsBuffer_cases (reply_length hroom) with
      ⟨h, -⟩ | ⟨h, hover, hverify⟩ | ⟨hover, e, hverify⟩
    . exact replyLog_of_accepted hroom hlen h
    . have heq : onRecv.relayReceived env env.reply.1 env.reply.2
          = ⟨[.verified .upstream (-1), .forwarded (-1)], .ok ()⟩ := by
        simp [onRecv.relayReceived, hverify, emit]
      rw [heq]
      exact .rejected hlen h hover
    . have heq : onRecv.relayReceived env env.reply.1 env.reply.2 = ⟨[], .error e⟩ := by
        simp [onRecv.relayReceived, hverify]
      rw [heq]
      exact .overrun hover
  . simp only [not_forall, Nat.not_le] at hlen
    obtain ⟨r, hr, hlong⟩ := hlen
    obtain ⟨e, heq⟩ := relay_of_long (query_length hroom) hr hlong
    rw [heq]
    exact .unterminated hr hlong

theorem send_of_parsed {tid : Nat} {qType : QueryType} (h : Parsed env tid qType)
    : ∃ buffer, buffer.length = 512
        ∧ sendDataToDns.send env (textBuffer env.request.1) env.request.2
          =
        if env.setsockoptReuse ∧ env.setsockoptTimeout then
          sendDataToDns.sendQuery env buffer (env.request.1.take 12)
            (env.text ++ dot :: 0 :: zeros (254 - env.text.length))
        else
          ⟨[], .ok none⟩ := by
  have hb := request_length env
  have htext := questionText_length env.request.1
  obtain ⟨⟨h255, hn⟩, -⟩ := h.accepted
  exact send_eq (take_request_length env) (textBuffer_length hb h255) (by omega)
    (zero_notMem_questionText _) (by omega)

theorem requestLog_of_parsed {tid : Nat} {qType : QueryType} (h : Parsed env tid qType)
    (hread : onRecv.readRequest env
      = ⟨[.verified .client 0, .header .client tid env.text qType],
        .ok (some (textBuffer env.request.1, env.request.2))⟩)
    : RequestLog env (onRecv env).trace (onRecv env).result := by
  obtain ⟨buffer, hbuffer, hsend⟩ := send_of_parsed h
  have htext : env.text.length = env.name.length - 1 := questionText_length _
  have h0 : 0 ∉ env.text := zero_notMem_questionText _
  have hheader := take_request_length env
  rw [onRecv_of_some hread, onRecv.forward, hsend]
  by_cases hset : env.setsockoptReuse ∧ env.setsockoptTimeout
  . rw [if_pos hset]
    by_cases hroom : env.name.length ≤ 254
    . rw [sendQuery_eq hheader hbuffer (by omega) h0]
      cases hup : env.upstreamSend
      . simpa [emit] using RequestLog.unsent h hset hroom (by simp [hup])
      . have hreply := replyLog_relay hroom
        simpa using RequestLog.asked h hset hroom hup hreply
    . have h255 : env.name.length ≤ 255 := h.accepted.1.1
      rw [sendQuery_of_length_eq hheader hbuffer (by omega) h0]
      exact .noRoom h hset (by omega)
  . rw [if_neg hset]
    exact .unset h hset

theorem requestLog_onRecv (env : Env) : RequestLog env (onRecv env).trace (onRecv env).result := by
  by_cases hlen : ∀ d ∈ env.clientRecv, d.bytes.length ≤ 510
  . have hb := request_length env
    have hread := readRequest_arrived hlen
    rcases verifyDnsBuffer_cases hb with ⟨h, -⟩ | ⟨h, hover, hverify⟩ | ⟨hover, e, hverify⟩
    . by_cases hp : Printable env.name
      . obtain ⟨tid, qr, htid, hqr, hparse⟩ := parseRequest_of_printable hb h hp
        exact requestLog_of_parsed ⟨hlen, h, hp, htid, qr, hqr, rfl⟩ (hread.trans hparse)
      . obtain ⟨e, he⟩ := readAndPrintDnsHeader_of_not_printable hb h.1 hp
        rw [onRecv_of_error (hread.trans (parseRequest_of_header_error hb h he))]
        exact .unprintable h hp
    . rw [onRecv_of_none (hread.trans (parseRequest_of_rejected hverify))]
      exact .rejected hlen h hover
    . rw [onRecv_of_error (hread.trans (parseRequest_of_error hverify))]
      exact .overrun hover
  . simp only [not_forall, Nat.not_le] at hlen
    obtain ⟨d, hd, hlong⟩ := hlen
    obtain ⟨e, hread⟩ := readRequest_of_long hd hlong
    rw [onRecv_of_error hread]
    exact .unterminated hd hlong

end Logs

end Dns
