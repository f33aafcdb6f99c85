import Padhai.Dns.Lemmas.Request

/-!
This module contains the ways in which `on_recv` can handle a request, exactly when it stays inside
its arrays up to the `sendto` of the query, and what it sends for a legal name.
-/

namespace Dns

open Mem Label Traced

variable {env : Env} {d : Datagram} {tr : List Event}

def onRecv.relay (env : Env) (sent : Bytes) : Run Unit := do
  let (rc, buffer, nBytes) ← sendDataToDns.receive env sent
  emit (.forwarded rc)
  if rc ≠ 0 then
    return
  let some (clientData, qType) ← readAndPrintDnsHeader buffer nBytes
    | return
  let len ← strlen clientData.domainName
  emit (.header .upstream clientData.tid (clientData.domainName.take len) qType)
  let datagram ← loadRange buffer nBytes.toNat
  emit (.sentClient datagram)

def onRecv.forward (env : Env) (buffer : Bytes) (nBytes : UInt32) : Run Unit := do
  let some sent ← sendDataToDns.send env buffer nBytes
    | emit (.forwarded (-1))
  relay env sent

theorem onRecv_eq (env : Env)
    : onRecv env = onRecv.readRequest env >>= fun request =>
        request.elim (pure ()) fun (p : Bytes × UInt32) => onRecv.forward env p.1 p.2 := by
  unfold onRecv
  refine bind_congr fun request => ?_
  match request with
  | none => rfl
  | some (buffer, nBytes) =>
    rw [Option.elim_some]
    unfold onRecv.forward sendDataToDns
    dsimp only
    rw [bind_assoc]
    refine bind_congr fun sent => ?_
    match sent with
    | none =>
      simp
      rfl
    | some sent => rfl

theorem onRecv_of_error {e : Fault} (h : onRecv.readRequest env = ⟨tr, .error e⟩)
    : onRecv env = ⟨tr, .error e⟩ := by
  rw [onRecv_eq, h, mk_error_bind]

theorem onRecv_of_none (h : onRecv.readRequest env = ⟨tr, .ok none⟩)
    : onRecv env = ⟨tr, .ok ()⟩ := by
  rw [onRecv_eq, h, mk_ok_bind]
  simp

theorem onRecv_of_some {buffer : Bytes} {n : UInt32}
    (h : onRecv.readRequest env = ⟨tr, .ok (some (buffer, n))⟩)
    : onRecv env
        = ⟨tr ++ (onRecv.forward env buffer n).trace, (onRecv.forward env buffer n).result⟩ := by
  rw [onRecv_eq]
  exact bind_of_eq h (Option.elim_some ..)

def Event.IsReply : Event → Prop
  | .verified .upstream _ | .answers _ _ | .forwarded _ | .header .upstream _ _ _ | .sentClient _ =>
    True
  | _ => False

theorem receive_logs {sent : Bytes} : Logs Event.IsReply (sendDataToDns.receive env sent) := by
  simp [-emit_bind, sendDataToDns.receive, Event.IsReply]

theorem relay_logs {sent : Bytes} : Logs Event.IsReply (onRecv.relay env sent) := by
  refine Logs.bind receive_logs fun x => ?_
  simp only [lift_eq, logs_emit_bind, logs_ite, logs_nil_bind]
  refine ⟨trivial, fun _ => by simp, fun _ header _ => ?_⟩
  split
  . simp [-emit_bind, Event.IsReply]
  . simp

section Forward

/--
A client datagram of which a query goes out: `on_recv` accepts it, can print its name, has room for
two dots behind the name's text, and the socket is set up.
-/
structure Forwards (env : Env) (d : Datagram) : Prop where
  length_le : d.bytes.length ≤ 510
  accepted : Accepted (requestBuffer env.fresh d) (.ofNat d.bytes.length)
  printable : Printable (questionName (requestBuffer env.fresh d))
  room : (questionName (requestBuffer env.fresh d)).length ≤ 254
  reuse : env.setsockoptReuse
  timeout : env.setsockoptTimeout

abbrev clientHeader (env : Env) (d : Datagram) : Bytes :=
  (requestBuffer env.fresh d).take 12

abbrev clientText (env : Env) (d : Datagram) : Bytes :=
  questionText (requestBuffer env.fresh d)

abbrev querySent (env : Env) (d : Datagram) : Bytes :=
  outgoing (clientHeader env d) (clientText env d)

def onRecv.afterSend (env : Env) (d : Datagram) : Run Unit :=
  if env.upstreamSend then
    relay env (querySent env d)
  else
    emit (.forwarded (-1))

theorem readRequest_of_printable (hd : env.clientRecv = some d) (hlen : d.bytes.length ≤ 510)
    (haccepted : Accepted (requestBuffer env.fresh d) (.ofNat d.bytes.length))
    (hprintable : Printable (questionName (requestBuffer env.fresh d)))
    : ∃ tid qr, DnsHeader.id (requestBuffer env.fresh d) = .ok tid
        ∧ DnsHeader.qr (requestBuffer env.fresh d) = .ok qr
        ∧ onRecv.readRequest env
          = ⟨[.verified .client 0, .header .client tid (clientText env d)
              (if qr = 0 then .request else .response)],
            .ok (some (textBuffer (requestBuffer env.fresh d), .ofNat d.bytes.length))⟩ := by
  have hb : (requestBuffer env.fresh d).length = 512 := requestBuffer_length env.fresh_length
  rw [readRequest_eq hd, if_pos hlen]
  exact parseRequest_of_printable hb haccepted hprintable

theorem textBuffer_length {buffer : Bytes} (hb : buffer.length = 512)
    (hs : (questionName buffer).length ≤ 255) : (textBuffer buffer).length = 512 := by
  simp [textBuffer, questionText_length]
  omega

theorem clientHeader_length : (clientHeader env d).length = 12 := by
  have := requestBuffer_length (d := d) env.fresh_length
  rw [clientHeader, List.length_take]
  omega

theorem send_textBuffer
    (haccepted : Accepted (requestBuffer env.fresh d) (.ofNat d.bytes.length))
    : ∃ buffer, buffer.length = 512
        ∧ sendDataToDns.send env (textBuffer (requestBuffer env.fresh d)) (.ofNat d.bytes.length)
          =
        if env.setsockoptReuse ∧ env.setsockoptTimeout then
          sendDataToDns.sendQuery env buffer (clientHeader env d)
            (clientText env d ++ dot :: 0 :: zeros (254 - (clientText env d).length))
        else
          ⟨[], .ok none⟩ := by
  have hb := requestBuffer_length (d := d) env.fresh_length
  have htext := questionText_length (requestBuffer env.fresh d)
  obtain ⟨⟨h255, hn⟩, -⟩ := haccepted
  exact send_eq clientHeader_length (textBuffer_length hb h255) (by omega) (zero_notMem_questionText _)
    (by omega)

theorem onRecv_of_forwards (hd : env.clientRecv = some d) (h : Forwards env d)
    : ∃ tid qr, DnsHeader.id (requestBuffer env.fresh d) = .ok tid
        ∧ DnsHeader.qr (requestBuffer env.fresh d) = .ok qr
        ∧ onRecv env
          = ⟨[.verified .client 0, .header .client tid (clientText env d)
              (if qr = 0 then .request else .response),
              .sentUpstream (forwarded (clientHeader env d) (clientText env d))]
                ++ (onRecv.afterSend env d).trace, (onRecv.afterSend env d).result⟩ := by
  obtain ⟨tid, qr, htid, hqr, hread⟩ :=
    readRequest_of_printable hd h.length_le h.accepted h.printable
  obtain ⟨buffer, hb, hsend⟩ := send_textBuffer h.accepted
  have htext := questionText_length (requestBuffer env.fresh d)
  have hroom := h.room
  rw [if_pos ⟨h.reuse, h.timeout⟩, sendQuery_eq clientHeader_length hb (by omega)
    (zero_notMem_questionText _)] at hsend
  refine ⟨tid, qr, htid, hqr, ?_⟩
  rw [onRecv_of_some hread, onRecv.forward, hsend]
  cases hup : env.upstreamSend <;> simp [onRecv.afterSend, hup]

theorem sentUpstream_mem_of_forwards (hd : env.clientRecv = some d) (h : Forwards env d)
    : .sentUpstream (forwarded (clientHeader env d) (clientText env d)) ∈ (onRecv env).trace := by
  obtain ⟨tid, qr, -, -, heq⟩ := onRecv_of_forwards hd h
  rw [heq]
  simp

/--
Exactly the datagrams and packet buffers for which the request path stays inside its arrays: the
terminator is stored inside the packet buffer, the name cannot run over the end of its array, and a
name that is accepted can be printed and leaves room for two dots behind its text.
-/
def RequestInRange (fresh : Bytes) (d : Datagram) : Prop :=
  d.bytes.length ≤ 510
    ∧ (255 ≤ d.bytes.length → (questionName (requestBuffer fresh d)).length ≤ 255)
    ∧ (Accepted (requestBuffer fresh d) (.ofNat d.bytes.length)
      → Printable (questionName (requestBuffer fresh d))
        ∧ (questionName (requestBuffer fresh d)).length ≤ 254)

def Event.IsSent : Event → Prop
  | .sentUpstream _ | .sentClient _ => True
  | _ => False

structure Stops (env : Env) (d : Datagram) : Prop where
  notSent : ∀ e ∈ (onRecv env).trace, ¬e.IsSent
  returns : RequestInRange env.fresh d → (onRecv env).result = .ok ()
  faults : ¬RequestInRange env.fresh d → env.setsockoptReuse → env.setsockoptTimeout
    → ∃ e, (onRecv env).result = .error e

theorem stops_of_error {e : Fault} (h : onRecv env = ⟨tr, .error e⟩) (htr : ∀ e ∈ tr, ¬e.IsSent)
    (hrange : ¬RequestInRange env.fresh d) : Stops env d := by
  exact ⟨by rwa [h], fun hin => absurd hin hrange, fun _ _ _ => ⟨e, by rw [h]⟩⟩

theorem stops_of_ok (h : onRecv env = ⟨tr, .ok ()⟩) (htr : ∀ e ∈ tr, ¬e.IsSent)
    (hrange : env.setsockoptReuse → env.setsockoptTimeout → RequestInRange env.fresh d)
    : Stops env d := by
  refine ⟨by rwa [h], fun _ => by rw [h], ?_⟩
  exact fun hout hreuse htimeout => absurd (hrange hreuse htimeout) hout

theorem stops_of_rejected (hd : env.clientRecv = some d) (hlen : d.bytes.length ≤ 510)
    (haccepted : ¬Accepted (requestBuffer env.fresh d) (.ofNat d.bytes.length)) : Stops env d := by
  have hb := requestBuffer_length (d := d) env.fresh_length
  have hn := toNat_ofNat_length (d := d)
  have hread := readRequest_eq hd
  rw [if_pos hlen] at hread
  by_cases hover : 255 ≤ d.bytes.length → (questionName (requestBuffer env.fresh d)).length ≤ 255
  . have hverify := verifyDnsBuffer_of_rejected hb haccepted (by
      rw [hn]
      exact fun hle => ⟨hover hle, by rw [hn]; have := hover hle; omega⟩)
    apply stops_of_ok (onRecv_of_none (hread.trans (parseRequest_of_rejected hverify)))
    . simp [Event.IsSent]
    . exact fun _ _ => ⟨hlen, hover, fun h => absurd h haccepted⟩
  . have hverify := verifyDnsBuffer_of_overrun hb (n := .ofNat d.bytes.length)
      (fun hcopied => hover fun _ => hcopied.1) (by rw [hn]; omega)
    apply stops_of_error (onRecv_of_error (hread.trans (parseRequest_of_error hverify)))
    . simp
    . exact fun hrange => hover hrange.2.1

theorem stops_of_printable (hd : env.clientRecv = some d) (hlen : d.bytes.length ≤ 510)
    (haccepted : Accepted (requestBuffer env.fresh d) (.ofNat d.bytes.length))
    (hprintable : Printable (questionName (requestBuffer env.fresh d))) (h : ¬Forwards env d)
    : Stops env d := by
  obtain ⟨tid, qr, -, -, hread⟩ := readRequest_of_printable hd hlen haccepted hprintable
  obtain ⟨buffer, hbuffer, hsend⟩ := send_textBuffer haccepted
  by_cases hsockets : env.setsockoptReuse ∧ env.setsockoptTimeout
  . have hroom : ¬(questionName (requestBuffer env.fresh d)).length ≤ 254 := fun hroom =>
      h ⟨hlen, haccepted, hprintable, hroom, hsockets.1, hsockets.2⟩
    have htext := questionText_length (requestBuffer env.fresh d)
    have h255 := haccepted.1.1
    rw [if_pos hsockets, sendQuery_of_length_eq clientHeader_length hbuffer (by omega)
      (zero_notMem_questionText _)] at hsend
    refine stops_of_error ((onRecv_of_some hread).trans (by rw [onRecv.forward, hsend]; rfl)) ?_ ?_
    . simp [Event.IsSent]
    . exact fun hrange => hroom (hrange.2.2 haccepted).2
  . rw [if_neg hsockets] at hsend
    refine stops_of_ok ((onRecv_of_some hread).trans (by rw [onRecv.forward, hsend]; rfl)) ?_ ?_
    . simp [Event.IsSent, emit]
    . exact fun hreuse htimeout => absurd ⟨hreuse, htimeout⟩ hsockets

-- The cases follow the checks of the request path, in the order in which it makes them.
theorem onRecv_of_not_forwards (hd : env.clientRecv = some d) (h : ¬Forwards env d)
    : Stops env d := by
  have hb := requestBuffer_length (d := d) env.fresh_length
  have hread := readRequest_eq hd
  by_cases hlen : d.bytes.length ≤ 510
  . by_cases haccepted : Accepted (requestBuffer env.fresh d) (.ofNat d.bytes.length)
    . by_cases hprintable : Printable (questionName (requestBuffer env.fresh d))
      . exact stops_of_printable hd hlen haccepted hprintable h
      . rw [if_pos hlen] at hread
        obtain ⟨e, he⟩ := readAndPrintDnsHeader_of_not_printable hb haccepted.1 hprintable
        apply stops_of_error
          (onRecv_of_error (hread.trans (parseRequest_of_header_error hb haccepted he)))
        . simp [Event.IsSent]
        . exact fun hrange => hprintable (hrange.2.2 haccepted).1
    . exact stops_of_rejected hd hlen haccepted
  . rw [if_neg hlen] at hread
    apply stops_of_error (onRecv_of_error hread)
    . simp
    . exact fun hrange => hlen hrange.1

theorem afterSend_logs : Logs Event.IsReply (onRecv.afterSend env d) := by
  unfold onRecv.afterSend
  split
  . exact relay_logs
  . simp [Event.IsReply]

theorem forwards_of_sentUpstream {q : Bytes} (hd : env.clientRecv = some d)
    (hq : .sentUpstream q ∈ (onRecv env).trace)
    : Forwards env d ∧ q = forwarded (clientHeader env d) (clientText env d) := by
  by_cases h : Forwards env d
  . obtain ⟨tid, qr, -, -, heq⟩ := onRecv_of_forwards hd h
    rw [heq] at hq
    rcases List.mem_append.mp hq with hq | hq
    . simpa [h] using hq
    . exact absurd (afterSend_logs _ hq) (by simp [Event.IsReply])
  . exact absurd trivial ((onRecv_of_not_forwards hd h).notSent _ hq)

theorem Forwards.requestInRange (h : Forwards env d) : RequestInRange env.fresh d := by
  refine ⟨h.length_le, fun _ => ?_, fun _ => ⟨h.printable, h.room⟩⟩
  have := h.room
  omega

end Forward

def quietEnv (fresh : Bytes) (hfresh : fresh.length = maxBufLen) (d : Datagram) : Env where
  fresh := fresh
  fresh_length := hfresh
  clientRecv := some d
  setsockoptReuse := true
  setsockoptTimeout := true
  upstreamSend := true
  upstreamRecv := none
  malloc := ⟨fun _ n => zeros n, fun _ n => le_zeros_length n⟩
  fuel := 0

def exampleQuery : Datagram where
  bytes := [0, 1, 1, 0, 0, 1, 0, 0, 0, 0, 0, 0, 3, 119, 119, 119, 2, 99, 99, 0, 0, 1, 0, 1]
  length_le := by decide

section Name

variable {name : Name} {hdr trailing : Bytes}

theorem questionName_of_datagram {buffer : Bytes} (hhdr : hdr.length = 12)
    (h0 : 0 ∉ name.wire) (h : hdr ++ name.wire ++ [0, 0, 1] ++ trailing <+: buffer)
    : buffer.take 12 = hdr ∧ questionName buffer = name.wire ∧ AsksA buffer := by
  obtain ⟨u, rfl⟩ := h
  have hquestion : questionName (hdr ++ name.wire ++ [0, 0, 1] ++ trailing ++ u) = name.wire := by
    apply questionName_of_prefix (t := [0, 1] ++ trailing ++ u) _ h0
    simp [← hhdr]
  have hat : ∀ i, (hdr ++ name.wire ++ [0, 0, 1] ++ trailing ++ u)[12 + name.wire.length + i]?
      = ([0, 0, 1] ++ trailing ++ u)[i]? := by
    intro i
    have : 12 + name.wire.length + i = (hdr ++ name.wire).length + i := by
      simp [hhdr]
    rw [this, List.append_assoc, List.append_assoc, List.getElem?_append_right (by omega),
      Nat.add_sub_cancel_left, List.append_assoc]
  refine ⟨by simp [← hhdr], hquestion, ?_⟩
  rw [AsksA, hquestion, Nat.add_assoc _ _ 1, Nat.add_assoc _ _ 2, ← Nat.add_assoc, ← Nat.add_assoc,
    hat, hat]
  simp

theorem forwarded_text (hhdr : hdr.length = 12) (hname : name.All Plain)
    : forwarded hdr name.text = hdr.take 8 ++ zeros 4 ++ name.wire ++ [0, 0, 1, 0, 1] := by
  have hwire := name.wire_splitOn_text hname (by simp [Plain])
  have h0 := name.zero_notMem_wire hname (by simp [Plain])
  rw [forwarded_of_split (t := [0, 1, 0, 1]) hhdr h0 (by decide) (by rw [hwire])]
  rfl

theorem forwards_of_name {p : UInt8 → Prop} (hdr trailing : Bytes) (hhdr : hdr.length = 12)
    (hname : name.All p) (hp : ¬p 0)
    (hbytes : d.bytes = hdr ++ name.wire ++ [0, 0, 1] ++ trailing) (hlen : d.bytes.length ≤ 510)
    (hreuse : env.setsockoptReuse) (htimeout : env.setsockoptTimeout)
    : Forwards env d ∧ clientHeader env d = hdr ∧ clientText env d = name.text := by
  have h0 := name.zero_notMem_wire hname hp
  have hwire := name.wire_length_le
  have hprefix : hdr ++ name.wire ++ [0, 0, 1] ++ trailing <+: requestBuffer env.fresh d := by
    rw [← hbytes]
    exact prefix_received
  obtain ⟨hheader, hquestion, hA⟩ := questionName_of_datagram hhdr h0 hprefix
  refine ⟨⟨hlen, ⟨?_, hA⟩, ?_, ?_, hreuse, htimeout⟩, hheader, ?_⟩
  . rw [hquestion, Copied, toNat_ofNat_length, hbytes]
    simp
    omega
  . rw [hquestion]
    exact ⟨name.wire_ne_nil, name.fits_wire fun k hk => charLen_ofNat hk⟩
  . rw [hquestion]
    exact hwire
  . rw [clientText, questionText, hquestion]
    exact name.decode_wire fun k hk => charLen_ofNat hk

theorem onRecv_forwards_name (env : Env) (d : Datagram) (hdr : Bytes) (name : Name)
    (trailing : Bytes) (hd : env.clientRecv = some d) (hhdr : hdr.length = 12)
    (hname : name.All Plain) (hbytes : d.bytes = hdr ++ name.wire ++ [0, 0, 1] ++ trailing)
    (hlen : d.bytes.length ≤ 510) (hreuse : env.setsockoptReuse) (htimeout : env.setsockoptTimeout)
    : ∃ tid qType,
        [.verified .client 0, .header .client tid name.text qType,
          .sentUpstream (hdr.take 8 ++ zeros 4 ++ name.wire ++ [0, 0, 1, 0, 1])]
            <+: (onRecv env).trace
        ∧ (hdr.take 8 ++ zeros 4 ++ name.wire ++ [0, 0, 1, 0, 1]).length
          = 12 + (name.wire.length + 1) + 4 := by
  obtain ⟨hforwards, hheader, htext⟩ := forwards_of_name hdr trailing hhdr hname
    (by simp [Plain]) hbytes hlen hreuse htimeout
  obtain ⟨tid, qr, -, -, heq⟩ := onRecv_of_forwards hd hforwards
  refine ⟨tid, if qr = 0 then .request else .response, ?_, ?_⟩
  . rw [heq, htext, hheader, forwarded_text hhdr hname]
    apply List.prefix_append
  . simp [hhdr]
    omega

theorem onRecv_forwards_name_exampleQuery
    : ∃ tid qType,
        [.verified .client 0, .header .client tid exampleName.text qType,
          .sentUpstream ([0, 1, 1, 0, 0, 1, 0, 0] ++ zeros 4 ++ exampleName.wire ++ [0, 0, 1, 0, 1])]
            <+: (onRecv (quietEnv (zeros 512) zeros_length exampleQuery)).trace
        ∧ ([0, 1, 1, 0, 0, 1, 0, 0] ++ zeros 4 ++ exampleName.wire ++ [0, 0, 1, 0, 1]).length
          = 12 + (exampleName.wire.length + 1) + 4 :=
  onRecv_forwards_name (quietEnv (zeros 512) zeros_length exampleQuery) exampleQuery
    [0, 1, 1, 0, 0, 1, 0, 0, 0, 0, 0, 0] exampleName [0, 1] rfl rfl exampleName_plain rfl (by decide)
    rfl rfl

end Name

section Safety

theorem onRecv_request_inRange_iff (fresh : Bytes) (hfresh : fresh.length = maxBufLen)
    (d : Datagram)
    : (∀ env : Env, env.fresh = fresh → env.clientRecv = some d →
        ∀ e, (onRecv env).result = .error e → ∃ q, .sentUpstream q ∈ (onRecv env).trace)
      ↔ RequestInRange fresh d := by
  constructor
  . intro h
    by_contra hrange
    have hforwards : ¬Forwards (quietEnv fresh hfresh d) d := fun hf => hrange hf.requestInRange
    have hstops := onRecv_of_not_forwards rfl hforwards
    obtain ⟨e, he⟩ := hstops.faults hrange rfl rfl
    obtain ⟨q, hq⟩ := h _ rfl rfl e he
    exact hstops.notSent _ hq trivial
  . rintro hrange env rfl hd e he
    by_cases hforwards : Forwards env d
    . exact ⟨_, sentUpstream_mem_of_forwards hd hforwards⟩
    . rw [(onRecv_of_not_forwards hd hforwards).returns hrange] at he
      cases he

theorem onRecv_request_inRange_iff_exampleQuery
    : (∀ env : Env, env.fresh = zeros 512 → env.clientRecv = some exampleQuery →
        ∀ e, (onRecv env).result = .error e → ∃ q, .sentUpstream q ∈ (onRecv env).trace)
      ↔ RequestInRange (zeros 512) exampleQuery :=
  onRecv_request_inRange_iff (zeros 512) zeros_length exampleQuery

def rootQuery : Datagram where
  bytes := [0, 1, 1, 0, 0, 1, 0, 0, 0, 0, 0, 0, 0, 0, 1, 0, 1]
  length_le := by decide

theorem onRecv_rootQuery
    : (onRecv (quietEnv (zeros 512) zeros_length rootQuery)).trace = [.verified .client 0]
      ∧ (onRecv (quietEnv (zeros 512) zeros_length rootQuery)).result
        = .error (.outOfRange 256 (-1)) := by
  have hb : (requestBuffer (zeros 512) rootQuery).length = 512 := requestBuffer_length zeros_length
  have hd : (quietEnv (zeros 512) zeros_length rootQuery).clientRecv = some rootQuery := rfl
  have hread := readRequest_eq hd
  rw [if_pos (by decide)] at hread
  have haccepted : Accepted (requestBuffer (zeros 512) rootQuery) (.ofNat rootQuery.bytes.length) := by
    decide +kernel
  have hparse := parseRequest_of_header_error hb haccepted
    (readAndPrintDnsHeader_of_root hb (by decide +kernel))
  rw [onRecv_of_error (hread.trans hparse)]
  exact ⟨rfl, rfl⟩

end Safety

end Dns
