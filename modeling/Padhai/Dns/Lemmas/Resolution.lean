import Padhai.Dns.Lemmas.PrintedAddresses
import Padhai.Dns.Lemmas.Dispatch

/-!
This module contains what the server does for well formed messages: it answers every request with the
datagram it receives upstream, and prints a line for each record of it.
-/

namespace Dns

open Mem Label Packet Traced

variable {buffer pkt pkt' : Bytes} {pos next stop i : Nat} {malloc : Malloc}

namespace Answer

variable {a : Answer} {as : List Answer}

section Lines

/--
The line that is printed for a record. An address comes out backwards.
-/
def line (a : Answer) : AnswerLine where
  name := a.owner.text
  addr :=
    match a.data with
    | .addr bytes => some bytes.reverse
    | .name _ => none

theorem HasName.mono {d : Name} {k : Nat} (h : HasName pkt pos d k) (hp : pkt <+: pkt')
    : HasName pkt' pos d k :=
  ⟨h.1.mono hp, h.2⟩

theorem At.mono (h : At pkt pos a next) (hp : pkt <+: pkt') : At pkt' pos a next := by
  cases h with
  | addr howner htype hlen hbytes =>
    exact .addr (howner.mono hp) (ntohsAt_mono hp htype) (ntohsAt_mono hp hlen)
      (hbytes.trans (hp.drop _))
  | name howner htype hne hlen hname =>
    exact .name (howner.mono hp) (ntohsAt_mono hp htype) hne (ntohsAt_mono hp hlen) (hname.mono hp)

theorem SectionAt.mono (h : SectionAt pkt pos as stop) (hp : pkt <+: pkt')
    : SectionAt pkt' pos as stop := by
  induction h with
  | nil => exact .nil
  | cons h _ ih => exact .cons (h.mono hp) ih

theorem strlen_text {d : Name} {k : Nat} (h : HasName pkt pos d k) (u : Bytes)
    : strlen (d.text ++ 0 :: u) = .ok d.text.length :=
  strlen_append_zero (d.zero_notMem_text h.2 (by simp [LabelByte]))

theorem loadLong_of_le {s : Bytes} (h : 8 ≤ s.length) : loadLong s = .ok (longOf (s.take 8)) := by
  rw [loadLong, loadRange_of_le h]
  rfl

/--
Records with an address of four bytes need eight bytes of memory for it.
-/
theorem readAnswer_line (h : At pkt pos a next) (hi : i < 20)
    (haddr : ∀ bytes, a.data = .addr bytes → bytes.length = 4)
    (hroom : ∀ k, 8 ≤ (malloc.block k 4).length)
    : ∃ fuel₀, ∀ fuel, fuel₀ ≤ fuel → ∃ ans, readAnswer malloc fuel pkt i pos = .ok (ans, next)
        ∧ printAnswer pkt ans = .ok a.line := by
  have hcap := fun k => malloc.size_le k maxNameLen
  cases h with
  | @addr owner bytes k howner htype hlen hbytes =>
    have h4 : bytes.length = 4 := haddr bytes rfl
    have h8 := hroom (2 * i + 1)
    obtain ⟨u, v, n, hv, hall⟩ :=
      readAnswer_addr hi (howner.decodes (hcap _)) htype hlen hbytes (by rw [h4]; omega)
    refine ⟨n + 1, fun fuel hfuel => ⟨_, (hall fuel).trans (if_pos (by omega)), ?_⟩⟩
    rw [h4] at hv
    have htake : (bytes ++ 0 :: v).take 8 = bytes ++ (0 :: v).take 4 := by
      rw [List.take_append, h4, List.take_of_length_le (by omega)]
    simp only [printAnswer, decode_wire, strlen_text howner, htype, ok_bind, tA, ↓reduceIte,
      loadLong_of_le (hv ▸ h8), htake, inetNtoa_longOf h4, List.take_left]
    rfl
  | name howner htype hne hlen hname =>
    obtain ⟨u, v, n, hall⟩ :=
      readAnswer_name hi (howner.decodes (hcap _)) htype hne (hname.decodes (hcap _))
    refine ⟨n + 1, fun fuel hfuel => ⟨_, (hall fuel).trans (if_pos (by omega)), ?_⟩⟩
    simp only [printAnswer, decode_wire, strlen_text howner, htype, ok_bind, tA, hne, ↓reduceIte,
      List.take_left]
    rfl

theorem readAnswers_lines (h : SectionAt pkt pos as stop) (hle : i + as.length ≤ 20)
    (haddr : ∀ a ∈ as, ∀ bytes, a.data = .addr bytes → bytes.length = 4)
    (hroom : ∀ k, 8 ≤ (malloc.block k 4).length)
    : ∃ fuel₀, ∀ fuel, fuel₀ ≤ fuel → ∀ answers : List ResRecord, answers.length = i →
        ∃ new, readAnswers malloc fuel pkt as.length pos answers = .ok (stop, answers ++ new)
          ∧ new.mapM (printAnswer pkt) = .ok (as.map line) := by
  induction h generalizing i with
  | nil => exact ⟨0, fun fuel _ answers _ => ⟨[], by simp [readAnswers], rfl⟩⟩
  | @cons pos next stop a as h _ ih =>
    rw [List.length_cons] at hle
    rw [List.forall_mem_cons] at haddr
    obtain ⟨f₁, hone⟩ := readAnswer_line h (show i < 20 by omega) haddr.1 hroom
    obtain ⟨f₂, hall⟩ := ih (show i + 1 + as.length ≤ 20 by omega) haddr.2
    refine ⟨max f₁ f₂, fun fuel hfuel answers hlen => ?_⟩
    obtain ⟨ans, hans, hline⟩ := hone fuel (by omega)
    obtain ⟨new, hread, hlines⟩ := hall fuel (by omega) (answers ++ [ans]) (by simp [hlen])
    refine ⟨ans :: new, ?_, by simp [hline, hlines]⟩
    rw [List.length_cons, readAnswers, hlen, hans, ok_bind]
    simpa using hread

end Lines

end Answer

/--
A message with a question of type A for a legal name, small enough to be terminated in the packet buffer.
-/
structure Message where
  header : Bytes
  name : Name
  trailing : Bytes
  header_length : header.length = 12
  nonzero : name.All (· ≠ 0)
  length_le : (header ++ name.wire ++ [0, 0, 1] ++ trailing).length ≤ 510

namespace Message

variable {m : Message}

def datagram (m : Message) : Datagram where
  bytes := m.header ++ m.name.wire ++ [0, 0, 1] ++ m.trailing
  length_le := m.length_le.trans (by decide)

def field (m : Message) (i : Nat) : Nat :=
  (m.header.getD i 0).toNat * 256 + (m.header.getD (i + 1) 0).toNat

def qType (m : Message) : QueryType :=
  if (m.header.getD 2 0).toNat / 128 = 0 then .request else .response

def counts (m : Message) : Counts := ⟨m.field 4, m.field 6, m.field 8, m.field 10⟩

/--
The packet buffer after the message has been received.
-/
structure Held (m : Message) (buffer : Bytes) : Prop where
  length_eq : buffer.length = 512
  bytes : m.datagram.bytes <+: buffer

theorem held_received (hb : buffer.length = 512) : m.Held (received buffer m.datagram) :=
  ⟨received_length hb, prefix_received⟩

theorem Held.header (h : m.Held buffer) : m.header <+: buffer := by
  refine List.IsPrefix.trans ?_ h.bytes
  simp [datagram]

theorem Held.question (h : m.Held buffer)
    : buffer.take 12 = m.header ∧ questionName buffer = m.name.wire ∧ AsksA buffer :=
  questionName_of_datagram m.header_length (m.name.zero_notMem_wire m.nonzero (by simp)) h.bytes

theorem Held.text (h : m.Held buffer) : questionText buffer = m.name.text := by
  rw [questionText, h.question.2.1]
  exact m.name.decode_wire fun _ hk => charLen_ofNat hk

theorem Held.accepted (h : m.Held buffer) : Accepted buffer (.ofNat m.datagram.bytes.length) := by
  obtain ⟨-, hname, hA⟩ := h.question
  have := m.name.wire_length_le
  refine ⟨?_, hA⟩
  rw [hname, Copied, toNat_ofNat_length]
  simp [datagram]
  omega

theorem Held.printable (h : m.Held buffer) : Printable (questionName buffer) := by
  rw [h.question.2.1]
  exact ⟨m.name.wire_ne_nil, m.name.fits_wire fun _ hk => charLen_ofNat hk⟩

theorem Held.ntohsAt {j : Nat} (h : m.Held buffer) (hj : j + 1 < 12)
    : ntohsAt buffer j = .ok (m.field j) := by
  have hheader := m.header_length
  refine ntohsAt_mono h.header (ntohsAt_of_getElem? ?_ ?_)
  . rw [List.getD_eq_getElem?_getD, List.getElem?_eq_getElem (by omega), Option.getD_some]
  . rw [List.getD_eq_getElem?_getD, List.getElem?_eq_getElem (by omega), Option.getD_some]

theorem Held.printedHeader {tid : Nat} {qType : QueryType} (h : m.Held buffer)
    (hprinted : PrintedHeader buffer tid qType) : tid = m.field 0 ∧ qType = m.qType := by
  obtain ⟨htid, qr, hqr, rfl⟩ := hprinted
  have hheader := m.header_length
  rw [DnsHeader.id, h.ntohsAt (by decide)] at htid
  obtain ⟨c, hc⟩ : ∃ c, m.header[2]? = some c := ⟨_, List.getElem?_eq_getElem (by omega)⟩
  have hflags : load buffer 2 = .ok c := load_of_prefix h.header (load_of_getElem? hc)
  rw [DnsHeader.qr, hflags, ok_bind] at hqr
  cases htid
  cases hqr
  rw [qType, List.getD_eq_getElem?_getD, hc, Option.getD_some]
  exact ⟨rfl, rfl⟩

end Message

/--
A request for a plain name, and a well formed message that arrives on the upstream socket after the query
has gone out: its answer section is within the datagram, its addresses have four bytes, and the allocator
gives at least eight bytes for each of them.
-/
structure Resolution where
  fresh : Bytes
  fresh_length : fresh.length = maxBufLen
  malloc : Malloc
  room : ∀ k, 8 ≤ (malloc.block k 4).length
  request : Message
  plain : request.name.All Plain
  reply : Message
  answers : List Answer
  stop : Nat
  count : reply.field 6 = answers.length
  few : answers.length ≤ 20
  sectionAt : Answer.SectionAt reply.datagram.bytes (12 + reply.name.wire.length + 5) answers stop
  addresses : ∀ a ∈ answers, ∀ bytes, a.data = .addr bytes → bytes.length = 4

namespace Resolution

variable {x : Resolution} {tr : List Event} {result : Except Fault Unit} {fuel : Nat}

def env (x : Resolution) (fuel : Nat) : Env where
  fresh := x.fresh
  fresh_length := x.fresh_length
  clientRecv := some x.request.datagram
  setsockoptReuse := true
  setsockoptTimeout := true
  upstreamSend := true
  upstreamRecv := some x.reply.datagram
  malloc := x.malloc
  fuel := fuel

def log (x : Resolution) : List Event :=
  [.verified .client 0, .header .client (x.request.field 0) x.request.name.text x.request.qType,
    .sentUpstream (x.request.header.take 8 ++ zeros 4 ++ x.request.name.wire ++ [0, 0, 1, 0, 1]),
    .verified .upstream 0, .answers x.reply.counts (x.answers.map Answer.line), .forwarded 0,
    .header .upstream (x.reply.field 0) x.reply.name.text x.reply.qType,
    .sentClient x.reply.datagram.bytes]

theorem held_request : x.request.Held (x.env fuel).request.1 :=
  Message.held_received (cleared_length (x.env fuel))

theorem name_length_le : (x.env fuel).name.length ≤ 254 := by
  rw [Env.name, held_request.question.2.1]
  exact x.request.name.wire_length_le

theorem held_reply : x.reply.Held (x.env fuel).reply.1 :=
  Message.held_received (query_length name_length_le)

theorem readResponse_reply
    : ∃ fuel₀, ∀ fuel, fuel₀ ≤ fuel → readResponse x.malloc fuel (x.env 0).reply.1
        = .ok (x.reply.counts, x.answers.map Answer.line) := by
  have hheld : x.reply.Held (x.env 0).reply.1 := held_reply
  generalize (x.env 0).reply.1 = buffer at hheld ⊢
  have h0 := x.reply.name.zero_notMem_wire x.reply.nonzero (by simp)
  have hstart : answersStart buffer = .ok (12 + x.reply.name.wire.length + 5) := by
    rw [answersStart_eq_ok_iff, hheld.question.2.1]
    refine ⟨?_, rfl⟩
    obtain ⟨u, hu⟩ := hheld.bytes
    rw [← hu]
    simp [Message.datagram, ← x.reply.header_length]
  obtain ⟨fuel₀, hall⟩ := Answer.readAnswers_lines (i := 0) (x.sectionAt.mono hheld.bytes)
    (by have := x.few; omega) x.addresses x.room
  refine ⟨fuel₀, fun fuel hfuel => ?_⟩
  obtain ⟨new, hread, hlines⟩ := hall fuel hfuel [] rfl
  simp only [readResponse, hstart, DnsHeader.qCount, DnsHeader.ansCount, DnsHeader.authCount,
    DnsHeader.addCount, hheld.ntohsAt (show 4 + 1 < 12 by decide),
    hheld.ntohsAt (show 6 + 1 < 12 by decide), hheld.ntohsAt (show 8 + 1 < 12 by decide),
    hheld.ntohsAt (show 10 + 1 < 12 by decide), x.count, hread, List.nil_append, hlines, ok_bind]
  rw [Message.counts, x.count]
  rfl

theorem log_of_replyLog (h : ReplyLog (x.env fuel) tr result)
    (hread : readResponse x.malloc fuel (x.env fuel).reply.1
      = .ok (x.reply.counts, x.answers.map Answer.line))
    : tr = [.verified .upstream 0, .answers x.reply.counts (x.answers.map Answer.line), .forwarded 0,
        .header .upstream (x.reply.field 0) x.reply.name.text x.reply.qType,
        .sentClient x.reply.datagram.bytes] ∧ result = .ok () := by
  have hheld : x.reply.Held (x.env fuel).reply.1 := held_reply
  have haccepted : Accepted (x.env fuel).reply.1 (x.env fuel).reply.2 := hheld.accepted
  cases h with
  | unterminated hr hlen =>
    cases hr
    have := x.reply.length_le
    exact absurd this (Nat.not_le.mpr hlen)
  | overrun h => exact absurd h (not_overruns_of_accepted haccepted)
  | rejected _ h _ => exact absurd haccepted h
  | unread _ _ hread' => cases hread.symm.trans hread'
  | unprintable _ _ hp => exact absurd hheld.printable hp
  | unreceived hr _ _ _ => cases hr
  | relayed hr _ _ hread' _ hheader =>
    cases hr
    cases hread.symm.trans hread'
    obtain ⟨rfl, rfl⟩ := hheld.printedHeader hheader
    rw [hheld.text]
    exact ⟨rfl, rfl⟩

theorem log_of_requestLog (h : RequestLog (x.env fuel) tr result)
    (hread : readResponse x.malloc fuel (x.env fuel).reply.1
      = .ok (x.reply.counts, x.answers.map Answer.line)) : tr = x.log ∧ result = .ok () := by
  have hheld : x.request.Held (x.env fuel).request.1 := held_request
  have haccepted : Accepted (x.env fuel).request.1 (x.env fuel).request.2 := hheld.accepted
  cases h with
  | unterminated hd hlen =>
    cases hd
    have := x.request.length_le
    exact absurd this (Nat.not_le.mpr hlen)
  | overrun h => exact absurd h (not_overruns_of_accepted haccepted)
  | rejected _ h _ => exact absurd haccepted h
  | unprintable _ hp => exact absurd hheld.printable hp
  | unset _ hset => exact absurd ⟨rfl, rfl⟩ hset
  | noRoom _ _ hroom =>
    have : (x.env fuel).name.length ≤ 254 := name_length_le
    omega
  | unsent _ _ _ hup => exact absurd rfl hup
  | asked hparsed _ _ _ hreply =>
    obtain ⟨rfl, rfl⟩ := log_of_replyLog hreply hread
    obtain ⟨rfl, rfl⟩ := hheld.printedHeader hparsed.header
    rw [Env.text, hheld.text, hheld.question.1, forwarded_text x.request.header_length x.plain]
    exact ⟨rfl, rfl⟩

theorem onRecv_resolves (x : Resolution)
    : ∃ fuel₀, ∀ fuel, fuel₀ ≤ fuel → onRecv (x.env fuel) = ⟨x.log, .ok ()⟩ := by
  obtain ⟨fuel₀, hread⟩ := x.readResponse_reply
  refine ⟨fuel₀, fun fuel hfuel => ?_⟩
  obtain ⟨htrace, hresult⟩ := log_of_requestLog (requestLog_onRecv (x.env fuel)) (hread fuel hfuel)
  rw [← htrace, ← hresult]

/--
Well formed exchanges are handled to the end and one after the other, however many there are: each sends
one query and one reply, and prints what the reply says.
-/
theorem eventBaseDispatch_resolves (xs : List Resolution)
    : ∃ fuel₀, ∀ fuel, fuel₀ ≤ fuel →
        eventBaseDispatch (xs.map fun x => x.env fuel) = ⟨xs.flatMap Resolution.log, .ok ()⟩ := by
  induction xs with
  | nil => exact ⟨0, fun _ _ => rfl⟩
  | cons x xs ih =>
    obtain ⟨n, hone⟩ := onRecv_resolves x
    obtain ⟨m, hall⟩ := ih
    refine ⟨max n m, fun fuel hfuel => ?_⟩
    have hfirst := hone fuel (by omega)
    rw [List.map_cons, eventBaseDispatch_cons_of_ok (by rw [hfirst]), hfirst, hall fuel (by omega),
      List.flatMap_cons]

theorem exampleName_nonzero : exampleName.All (· ≠ 0) := by
  decide

def exampleRequest : Message :=
  ⟨[0, 1, 1, 0, 0, 1, 0, 0, 0, 0, 0, 0], exampleName, [0, 1], rfl, exampleName_nonzero, by decide⟩

def exampleReply : Message :=
  ⟨[0, 1, 129, 128, 0, 1, 0, 1, 0, 0, 0, 0], exampleName,
    [0, 1, 192, 12, 0, 1, 0, 1, 0, 0, 0, 60, 0, 4, 1, 2, 3, 4], rfl, exampleName_nonzero, by decide⟩

theorem exampleReply_bytes : exampleReply.datagram.bytes = addrResponse := by
  decide

theorem fresh_zeros : (zeros 512).length = maxBufLen :=
  zeros_length

theorem spacious_room (k : Nat) : 8 ≤ (Answer.spacious.block k 4).length := by
  simp [Answer.spacious]

theorem exampleAnswer_addresses : ∀ a ∈ [Answer.exampleAnswer], ∀ bytes, a.data = .addr bytes
    → bytes.length = 4 := by
  simp [Answer.exampleAnswer]

def exampleResolution : Resolution where
  fresh := zeros 512
  fresh_length := fresh_zeros
  malloc := Answer.spacious
  room := spacious_room
  request := exampleRequest
  plain := exampleName_plain
  reply := exampleReply
  answers := [Answer.exampleAnswer]
  stop := 40
  count := rfl
  few := by decide
  sectionAt := by
    rw [exampleReply_bytes]
    exact Answer.addrResponse_sectionAt
  addresses := exampleAnswer_addresses

theorem eventBaseDispatch_resolves_exampleResolution
    : ∃ fuel₀, ∀ fuel, fuel₀ ≤ fuel →
        eventBaseDispatch [exampleResolution.env fuel, exampleResolution.env fuel]
          = ⟨exampleResolution.log ++ exampleResolution.log, .ok ()⟩ :=
  eventBaseDispatch_resolves [exampleResolution, exampleResolution]

end Resolution

end Dns
