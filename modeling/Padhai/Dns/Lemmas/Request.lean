import Padhai.Dns.Impl.Server
import Padhai.Dns.Lemmas.Qname
import Padhai.Dns.Lemmas.NameFormat

/-!
This module contains what `on_recv` does up to the `sendto` of the query: for every datagram and
every content of the rest of the packet buffer, how the run ends and what it sends. The packet buffer
holds the datagram and its terminator (`received`), then the text of the name in the name's place
(`textBuffer`), then the query (`outgoing`).
-/

namespace Dns

open Mem Label

variable {buffer fresh hdr tail s t : Bytes} {n : UInt32} {env : Env} {d : Datagram}

section Header

def Printable (s : Bytes) : Prop :=
  s ≠ [] ∧ Fits charLen 256 0 s

theorem labelToDot_of_printable (h : Printable s) (hs : s.length ≤ 255) (h0 : 0 ∉ s)
    : ∃ u, labelToDot charVal (padTo 256 s) = .ok (decode charLen s ++ 0 :: u) := by
  obtain ⟨hne, hfits⟩ := h
  have hlen := padTo_length (n := 256) (s := s) (by omega)
  rw [padTo_eq_append (by omega)] at hlen ⊢
  rw [← hlen] at hfits
  obtain ⟨u, hu, -⟩ := labelToDot_of_fits h0 hne hfits
  exact ⟨u, hu⟩

theorem labelToDot_of_not_printable (h : ¬Printable s) (hs : s.length ≤ 255) (h0 : 0 ∉ s)
    : ∃ e, labelToDot charVal (padTo 256 s) = .error e := by
  have hlen := padTo_length (n := 256) (s := s) (by omega)
  rw [padTo_eq_append (by omega)] at hlen ⊢
  cases hout : labelToDot charVal (s ++ 0 :: zeros (256 - s.length - 1)) with
  | error e => exact ⟨e, rfl⟩
  | ok out =>
    obtain ⟨hne, hfits, -⟩ := fits_of_labelToDot h0 hout
    rw [hlen] at hfits
    exact absurd ⟨hne, hfits⟩ h

def questionText (buffer : Bytes) : Bytes :=
  decode charLen (questionName buffer)

theorem zero_notMem_questionText (buffer : Bytes) : 0 ∉ questionText buffer :=
  zero_notMem_decode (zero_notMem_questionName buffer)

theorem questionText_length (buffer : Bytes)
    : (questionText buffer).length = (questionName buffer).length - 1 := by
  rw [questionText, decode_length]

theorem strncpy_padTo (ht : t.length ≤ 256) (h0 : 0 ∉ t) {u : Bytes}
    : strncpy (zeros 256) 0 (t ++ 0 :: u) t.length = .ok (padTo 256 t) := by
  have hsplit : zeros 256 = zeros t.length ++ zeros (256 - t.length) := by
    rw [← zeros_add]
    congr 1
    omega
  have := strncpy_append_zero (b := []) (a := zeros t.length) (t := zeros (256 - t.length)) (r := u)
    zeros_length h0
  rw [hsplit]
  simpa [padTo] using this

theorem readAndPrintDnsHeader_of_printable (hb : buffer.length = 512)
    (hcopied : Copied n (questionName buffer)) (h : Printable (questionName buffer))
    : ∃ tid qr, DnsHeader.id buffer = .ok tid ∧ DnsHeader.qr buffer = .ok qr
        ∧ readAndPrintDnsHeader buffer n = .ok (some (⟨tid, padTo 256 (questionText buffer)⟩,
          if qr = 0 then .request else .response)) := by
  obtain ⟨tid, htid⟩ := ntohsAt_of_lt (show 0 + 1 < buffer.length by omega)
  obtain ⟨flags, hflags⟩ : ∃ c, buffer[2]? = some c := ⟨_, List.getElem?_eq_getElem (by omega)⟩
  obtain ⟨u, hu⟩ := labelToDot_of_printable h hcopied.1 (zero_notMem_questionName _)
  have hlen : (questionText buffer).length ≤ 256 := by
    rw [questionText_length]
    have := hcopied.1
    omega
  have hstrlen := strlen_append_zero (t := u) (zero_notMem_questionText buffer)
  have hstrncpy := strncpy_padTo (u := u) hlen (zero_notMem_questionText buffer)
  have hqr : DnsHeader.qr buffer = .ok (flags.toNat / 128) := by
    simp [DnsHeader.qr, load_of_getElem? hflags]
  refine ⟨tid, _, htid, hqr, ?_⟩
  rw [questionText] at hstrlen hstrncpy ⊢
  simp only [readAndPrintDnsHeader, DnsHeader.id, htid, maxNameLen, sizeofDnsHeader, memset_zeros,
    verifyAndCopyQname, ok_bind, copyQname_questionName hb, hcopied, ↓reduceIte, hu, hstrlen,
    hstrncpy, hqr, pure_eq_ok]

theorem readAndPrintDnsHeader_of_not_printable (hb : buffer.length = 512)
    (hcopied : Copied n (questionName buffer)) (h : ¬Printable (questionName buffer))
    : ∃ e, readAndPrintDnsHeader buffer n = .error e := by
  obtain ⟨tid, htid⟩ := ntohsAt_of_lt (show 0 + 1 < buffer.length by omega)
  obtain ⟨e, he⟩ := labelToDot_of_not_printable h hcopied.1 (zero_notMem_questionName _)
  refine ⟨e, ?_⟩
  simp only [readAndPrintDnsHeader, DnsHeader.id, htid, maxNameLen, sizeofDnsHeader, memset_zeros,
    verifyAndCopyQname, ok_bind, copyQname_questionName hb, hcopied, ↓reduceIte, he, error_bind]

theorem readAndPrintDnsHeader_of_root (hb : buffer.length = 512) (h : questionName buffer = [])
    : readAndPrintDnsHeader buffer n = .error (.outOfRange 256 (-1)) := by
  obtain ⟨tid, htid⟩ := ntohsAt_of_lt (show 0 + 1 < buffer.length by omega)
  have hcopied : Copied n [] := ⟨Nat.zero_le _, Nat.zero_le _⟩
  have hlabel : labelToDot charVal (0 :: zeros 255) = _ := labelToDot_nil
  rw [← zeros_succ, ← padTo_nil, zeros_length] at hlabel
  simp only [readAndPrintDnsHeader, DnsHeader.id, htid, maxNameLen, sizeofDnsHeader, memset_zeros,
    verifyAndCopyQname, ok_bind, copyQname_questionName hb, h, hcopied, ↓reduceIte, hlabel,
    error_bind]

end Header

section Received

def received (buffer : Bytes) (d : Datagram) : Bytes :=
  (d.bytes ++ buffer.drop d.bytes.length).set (d.bytes.length + 1) 0

theorem received_length (hb : buffer.length = 512) : (received buffer d).length = 512 := by
  have := d.length_le
  simp [received] at this ⊢
  omega

theorem prefix_received : d.bytes <+: received buffer d := by
  rw [received, List.set_append_right _ _ (by omega)]
  apply List.prefix_append

theorem recvfrom_some : recvfrom buffer (some d)
    = (d.bytes ++ buffer.drop d.bytes.length, UInt32.ofNat d.bytes.length) := rfl

theorem toNat_ofNat_length : (UInt32.ofNat d.bytes.length).toNat = d.bytes.length := by
  have := d.length_le
  simp at this
  apply UInt32.toNat_ofNat_of_lt'
  simp [UInt32.size]
  omega

theorem toNat_ofNat_length_succ
    : (UInt32.ofNat d.bytes.length + 1).toNat = d.bytes.length + 1 := by
  have := d.length_le
  simp at this
  rw [UInt32.toNat_add, toNat_ofNat_length]
  simp
  omega

theorem store_terminator (hb : buffer.length = 512)
    : store (d.bytes ++ buffer.drop d.bytes.length) (UInt32.ofNat d.bytes.length + 1).toNat 0
        =
      if d.bytes.length ≤ 510 then
        .ok (received buffer d)
      else
        .error (.outOfRange 512 (d.bytes.length + 1)) := by
  have := d.length_le
  have hlen : (d.bytes ++ buffer.drop d.bytes.length).length = 512 := by
    simp at this ⊢
    omega
  rw [toNat_ofNat_length_succ]
  split
  . rw [store_of_lt (by omega), received]
  . rw [store_of_le (by omega), hlen]
    rfl

end Received

section ReadRequest

def requestBuffer (fresh : Bytes) (d : Datagram) : Bytes :=
  received (zeros 8 ++ fresh.drop 8) d

theorem requestBuffer_length (h : fresh.length = 512) : (requestBuffer fresh d).length = 512 := by
  apply received_length
  simp [h]

def textBuffer (buffer : Bytes) : Bytes :=
  buffer.take 12 ++ questionText buffer ++ 0 :: buffer.drop (12 + (questionText buffer).length + 1)

theorem memset_fresh (env : Env) : memset env.fresh 0 8 = .ok (zeros 8 ++ env.fresh.drop 8) := by
  apply memset_zero_of_le
  rw [env.fresh_length]
  decide

theorem cleared_length (env : Env) : (zeros 8 ++ env.fresh.drop 8).length = 512 := by
  simp [env.fresh_length]

theorem readRequest_eq (hd : env.clientRecv = some d)
    : onRecv.readRequest env
        =
      if d.bytes.length ≤ 510 then
        onRecv.parseRequest (requestBuffer env.fresh d) (.ofNat d.bytes.length)
      else
        ⟨[], .error (.outOfRange 512 (d.bytes.length + 1))⟩ := by
  have hstore := store_terminator (d := d) (cleared_length env)
  rw [← requestBuffer] at hstore
  simp only [onRecv.readRequest, sizeofPointer, memset_fresh, hd, recvfrom_some, hstore, Traced.lift_eq,
    Traced.nil_ok_bind, UInt32.not_lt_zero, ↓reduceIte]
  split
  . rw [Traced.nil_ok_bind]
  . rw [Traced.mk_error_bind]

theorem verifyDnsBuffer_of_overrun (hb : buffer.length = 512) (h : ¬Copied n (questionName buffer))
    (hn : 255 ≤ n.toNat) : verifyDnsBuffer buffer n = .error (.outOfRange 256 256) := by
  rw [verifyDnsBuffer_eq hb, if_neg h, if_neg (by omega)]

theorem verifyDnsBuffer_of_rejected (hb : buffer.length = 512) (h : ¬Accepted buffer n)
    (hcopied : 255 ≤ n.toNat → Copied n (questionName buffer))
    : verifyDnsBuffer buffer n = .ok (-1) := by
  rw [verifyDnsBuffer_eq hb]
  by_cases hc : Copied n (questionName buffer)
  . rw [if_pos hc, if_neg fun hA => h ⟨hc, hA⟩]
  . have : n.toNat ≤ 254 := by
      by_contra hn
      exact hc (hcopied (by omega))
    rw [if_neg hc, if_pos this]

theorem strncpy_text (hb : buffer.length = 512) (ht : t.length ≤ 254) (h0 : 0 ∉ t)
    : strncpy buffer 12 (padTo 256 t) t.length
        = .ok (buffer.take 12 ++ (t ++ buffer.drop (12 + t.length))) := by
  have hsplit : buffer.take 12 ++ (buffer.drop 12).take t.length ++ buffer.drop (12 + t.length)
      = buffer := by
    rw [List.append_assoc, ← List.drop_drop, List.take_append_drop, List.take_append_drop]
  have hlen : (buffer.take 12).length = 12 := by
    simp
    omega
  have := strncpy_append_zero (b := buffer.take 12) (a := (buffer.drop 12).take t.length)
    (t := buffer.drop (12 + t.length)) (r := zeros (256 - t.length - 1)) (by simp; omega) h0
  rwa [hsplit, hlen, ← padTo_eq_append (by omega), List.append_assoc] at this

theorem store_text (hb : buffer.length = 512) (ht : t.length ≤ 254)
    : store (buffer.take 12 ++ (t ++ buffer.drop (12 + t.length))) (12 + t.length) 0
        = .ok (buffer.take 12 ++ t ++ 0 :: buffer.drop (12 + t.length + 1)) := by
  have hlen : 12 + t.length = (buffer.take 12 ++ t).length := by
    simp
    omega
  rw [List.drop_eq_getElem_cons (by omega), ← List.append_assoc]
  conv => lhs; arg 2; rw [hlen]
  rw [store_append_length]

theorem parseRequest_of_printable (hb : buffer.length = 512) (haccepted : Accepted buffer n)
    (h : Printable (questionName buffer))
    : ∃ tid qr, DnsHeader.id buffer = .ok tid ∧ DnsHeader.qr buffer = .ok qr
        ∧ onRecv.parseRequest buffer n
          = ⟨[.verified .client 0, .header .client tid (questionText buffer)
              (if qr = 0 then .request else .response)], .ok (some (textBuffer buffer, n))⟩ := by
  have hverify := (verifyDnsBuffer_eq_zero_iff hb).mpr haccepted
  obtain ⟨tid, qr, htid, hqr, hheader⟩ := readAndPrintDnsHeader_of_printable hb haccepted.1 h
  have hle : (questionText buffer).length ≤ 254 := by
    rw [questionText_length]
    have := haccepted.1.1
    omega
  have hstrlen := strlen_padTo (n := 256) (by omega) (zero_notMem_questionText buffer)
  have hstrncpy := strncpy_text hb (by omega) (zero_notMem_questionText buffer)
  have hstore := store_text (t := questionText buffer) hb (by omega)
  refine ⟨tid, qr, htid, hqr, ?_⟩
  simp [onRecv.parseRequest, hverify, hheader, hstrlen, hstrncpy, hstore, take_padTo, textBuffer]

theorem parseRequest_of_header_error {e : Fault} (hb : buffer.length = 512)
    (haccepted : Accepted buffer n) (h : readAndPrintDnsHeader buffer n = .error e)
    : onRecv.parseRequest buffer n = ⟨[.verified .client 0], .error e⟩ := by
  have hverify := (verifyDnsBuffer_eq_zero_iff hb).mpr haccepted
  simp [onRecv.parseRequest, hverify, h]

theorem parseRequest_of_rejected (h : verifyDnsBuffer buffer n = .ok (-1))
    : onRecv.parseRequest buffer n = ⟨[.verified .client (-1)], .ok none⟩ := by
  simp [onRecv.parseRequest, h]

theorem parseRequest_of_error {e : Fault} (h : verifyDnsBuffer buffer n = .error e)
    : onRecv.parseRequest buffer n = ⟨[], .error e⟩ := by
  simp [onRecv.parseRequest, h]

end ReadRequest

section Send

def outgoing (hdr text : Bytes) : Bytes :=
  padTo 512 (hdr.take 8 ++ zeros 4 ++ (wire (text.splitOn dot) ++ [0, 0, 1, 0, 1]))

def forwarded (hdr text : Bytes) : Bytes :=
  (outgoing hdr text).take (12 + (questionName (outgoing hdr text)).length + 5)

variable {text : Bytes}

theorem outgoing_length (hhdr : hdr.length = 12) (ht : text.length ≤ 253)
    : (outgoing hdr text).length = 512 := by
  rw [outgoing, padTo_length]
  simp [hhdr, wire_splitOn_length]
  omega

theorem changetoDnsNameFormat_first (hhdr : hdr.length = 12)
    (hlen : (hdr ++ text ++ 0 :: tail).length = 512) (ht : text.length ≤ 254) (h0 : 0 ∉ text)
    : ∃ z, (hdr ++ nameFormat text ++ z).length = 512
        ∧ changetoDnsNameFormat (hdr ++ text ++ 0 :: tail) 12 (padTo 256 text)
          = .ok (hdr ++ nameFormat text ++ z, text ++ dot :: 0 :: zeros (254 - text.length)) := by
  have hpad : padTo 256 text = text ++ 0 :: 0 :: zeros (254 - text.length) := by
    rw [padTo_eq_append (by omega), show 256 - text.length - 1 = 254 - text.length + 1 by omega,
      zeros_succ]
  have hsplit : hdr ++ text ++ 0 :: tail = hdr ++ (text ++ 0 :: tail).take (text.length + 2)
      ++ (text ++ 0 :: tail).drop (text.length + 2) := by
    rw [List.append_assoc hdr, List.append_assoc hdr, List.take_append_drop]
  have hroom : (text ++ 0 :: tail).length = 500 := by
    simp at hlen ⊢
    omega
  have hchange := changetoDnsNameFormat_append (a := hdr)
    (b := (text ++ 0 :: tail).take (text.length + 2))
    (z := (text ++ 0 :: tail).drop (text.length + 2)) (c := 0) (y := zeros (254 - text.length)) h0
    (by rw [List.length_take]; omega)
  rw [← hsplit, ← hpad, hhdr] at hchange
  refine ⟨_, ?_, hchange⟩
  rw [List.length_append, List.length_append, nameFormat_length, List.length_drop]
  omega

theorem changetoDnsNameFormat_second (hhdr : hdr.length = 12) (ht : text.length ≤ 253)
    (h0 : 0 ∉ text)
    : changetoDnsNameFormat (hdr.take 8 ++ zeros 504) 12
          (text ++ dot :: 0 :: zeros (254 - text.length))
        = .ok (hdr.take 8 ++ zeros 4 ++ (wire (text.splitOn dot) ++ [0]) ++ zeros (498 - text.length),
          text ++ [dot] ++ dot :: 0 :: zeros (253 - text.length)) := by
  have hformat : nameFormat (text ++ [dot]) = wire (text.splitOn dot) ++ [0] ++ [0] := by
    rw [nameFormat, splitOn_append_dot, wire_append]
    rfl
  have hbuffer : hdr.take 8 ++ zeros 504
      = hdr.take 8 ++ zeros 4 ++ zeros (text.length + 3) ++ zeros (497 - text.length) := by
    rw [List.append_assoc, List.append_assoc, ← zeros_add, ← zeros_add]
    congr 2
    omega
  have hhost : text ++ dot :: 0 :: zeros (254 - text.length)
      = text ++ [dot] ++ 0 :: 0 :: zeros (253 - text.length) := by
    rw [show 254 - text.length = 253 - text.length + 1 by omega, zeros_succ]
    simp
  have hchange := changetoDnsNameFormat_append (a := hdr.take 8 ++ zeros 4)
    (b := zeros (text.length + 3)) (z := zeros (497 - text.length)) (c := 0)
    (y := zeros (253 - text.length)) (zero_notMem_append_dot h0) (by simp)
  rw [← hbuffer, ← hhost, hformat] at hchange
  have hlen : (hdr.take 8 ++ zeros 4).length = 12 := by
    simp [hhdr]
  rw [hlen] at hchange
  rw [hchange, show 498 - text.length = 497 - text.length + 1 by omega,
    zeros_succ (n := 497 - text.length)]
  simp

theorem htonsAt_outgoing (hhdr : hdr.length = 12) (ht : text.length ≤ 253)
    : (do
        let buffer ← htonsAt
          (hdr.take 8 ++ zeros 4 ++ (wire (text.splitOn dot) ++ [0]) ++ zeros (498 - text.length))
          (12 + (text.length + 2)) 1
        htonsAt buffer (12 + (text.length + 2) + 2) 1) = .ok (outgoing hdr text) := by
  have hlen : 12 + (text.length + 2)
      = (hdr.take 8 ++ zeros 4 ++ (wire (text.splitOn dot) ++ [0])).length := by
    simp [hhdr, wire_splitOn_length]
    omega
  have hzeros : zeros (498 - text.length) = 0 :: 0 :: 0 :: 0 :: zeros (494 - text.length) := by
    rw [show 498 - text.length = 494 - text.length + 1 + 1 + 1 + 1 by omega]
    simp only [zeros_succ]
  have hpad : 512 - (hdr.take 8 ++ zeros 4 ++ (wire (text.splitOn dot) ++ [0, 0, 1, 0, 1])).length
      = 494 - text.length := by
    simp [hhdr, wire_splitOn_length]
    omega
  rw [outgoing, padTo, hpad, hzeros, hlen, htonsAt_append, ok_bind]
  generalize hdr.take 8 ++ zeros 4 = a
  have := htonsAt_append (a := a ++ (wire (text.splitOn dot) ++ [0]) ++ [0, 1]) (c := 0) (d := 0)
    (b := zeros (494 - text.length)) 1
  simpa [Nat.add_assoc] using this

theorem memcpy_header (hhdr : hdr.length = 12)
    : memcpy (zeros 512) 0 (hdr.take 8) = .ok (hdr.take 8 ++ zeros 504) := by
  have := memcpy_append (b := []) (a := zeros 8) (t := zeros 504) (s := hdr.take 8)
    (by simp [hhdr])
  simpa [← zeros_add] using this

theorem drop_outgoing (text : Bytes) (hhdr : hdr.length = 12)
    : ∃ r, (outgoing hdr text).drop 12 = wire (text.splitOn dot) ++ 0 :: 0 :: 1 :: r := by
  have hlen : (hdr.take 8 ++ zeros 4).length = 12 := by
    simp [hhdr]
  rw [outgoing, padTo, List.append_assoc, List.drop_append_of_le_length (by omega),
    List.drop_eq_nil_of_le (by omega)]
  simp

theorem questionName_outgoing (hhdr : hdr.length = 12)
    : questionName (outgoing hdr text) = cstr (wire (text.splitOn dot)) := by
  obtain ⟨r, hr⟩ := drop_outgoing text hhdr
  rw [questionName, hr, cstr_append]

theorem forwarded_of_split (hhdr : hdr.length = 12) (h0 : 0 ∉ s) (ht : 4 ≤ t.length)
    (h : wire (text.splitOn dot) ++ [0, 0, 1, 0, 1] = s ++ 0 :: t)
    : forwarded hdr text = hdr.take 8 ++ zeros 4 ++ s ++ 0 :: t.take 4 := by
  have hname : questionName (outgoing hdr text) = s := by
    rw [questionName_outgoing hhdr, ← cstr_append, h, cstr_append_zero h0]
  have hlen : 12 + s.length + 5 = (hdr.take 8 ++ zeros 4 ++ s ++ 0 :: t.take 4).length := by
    simp [hhdr]
    omega
  have hprefix : hdr.take 8 ++ zeros 4 ++ s ++ 0 :: t.take 4 <+: outgoing hdr text := by
    rw [outgoing, h, padTo]
    generalize zeros (512 - _) = z
    refine ⟨t.drop 4 ++ z, ?_⟩
    simp [← List.append_assoc (t.take 4)]
  rw [forwarded, hname, hlen]
  exact (List.prefix_iff_eq_take.mp hprefix).symm

theorem strlen_drop_outgoing (hhdr : hdr.length = 12)
    : strlen ((outgoing hdr text).drop 12) = .ok (questionName (outgoing hdr text)).length := by
  obtain ⟨r, hr⟩ := drop_outgoing text hhdr
  rw [questionName, strlen_of_mem (by simp [hr])]

theorem questionName_outgoing_length_le (text : Bytes) (hhdr : hdr.length = 12)
    : (questionName (outgoing hdr text)).length ≤ text.length + 1 := by
  rw [questionName_outgoing hhdr, ← wire_splitOn_length]
  apply cstr_length_le

theorem memset_buffer (hb : buffer.length = 512) : memset buffer 0 512 = .ok (zeros 512) := by
  rw [memset_zero_of_le (by omega), ← hb, List.drop_length, List.append_nil]

theorem sendQuery_eq (hhdr : hdr.length = 12) (hb : buffer.length = 512) (ht : text.length ≤ 253)
    (h0 : 0 ∉ text)
    : sendDataToDns.sendQuery env buffer hdr (text ++ dot :: 0 :: zeros (254 - text.length))
        = ⟨[.sentUpstream (forwarded hdr text)],
          .ok (if env.upstreamSend then some (outgoing hdr text) else none)⟩ := by
  have hstrlen := strlen_append_dot (s := zeros (253 - text.length)) (zero_notMem_append_dot h0)
  rw [List.length_append, List.length_singleton] at hstrlen
  obtain ⟨buffer₁, htype, hclass⟩ := bind_eq_ok_iff.mp (htonsAt_outgoing hhdr ht)
  have hsent : loadRange (outgoing hdr text)
      (12 + ((questionName (outgoing hdr text)).length + 1) + 4) = .ok (forwarded hdr text) := by
    have := questionName_outgoing_length_le text hhdr
    rw [loadRange_of_le (by rw [outgoing_length hhdr ht]; omega), forwarded]
    congr 2
  unfold sendDataToDns.sendQuery
  simp only [sizeofDnsHeader, maxBufLen, sizeofPointer, sizeofQuestion, tA, memset_buffer hb,
    memcpy_header hhdr, changetoDnsNameFormat_second hhdr ht h0, hstrlen, htype, hclass,
    strlen_drop_outgoing hhdr, hsent, Traced.lift_eq, Traced.nil_ok_bind, Traced.emit_bind]
  cases env.upstreamSend <;> rfl

theorem sendQuery_of_length_eq (hhdr : hdr.length = 12) (hb : buffer.length = 512)
    (ht : text.length = 254) (h0 : 0 ∉ text)
    : sendDataToDns.sendQuery env buffer hdr (text ++ dot :: 0 :: zeros (254 - text.length))
        = ⟨[], .error (.outOfRange 256 256)⟩ := by
  have hlen : (text ++ dot :: 0 :: zeros (254 - text.length)).length = 256 := by
    simp [ht]
  have hstrlen := strlen_append_dot (s := zeros (254 - text.length)) h0
  have hcopy := memcpy_eq_error (a := text ++ dot :: 0 :: zeros (254 - text.length)) 
    (i := text.length + 1) (s := [dot] ++ [0]) (by simp) (by omega) (by rw [hlen, ht]; decide)
  rw [hlen] at hcopy
  have hsecond : changetoDnsNameFormat (hdr.take 8 ++ zeros 504) 12
      (text ++ dot :: 0 :: zeros (254 - text.length)) = .error (.outOfRange 256 256) := by
    rw [changetoDnsNameFormat, strcat, hstrlen, ok_bind, hcopy, error_bind]
    rfl
  unfold sendDataToDns.sendQuery
  simp only [sizeofDnsHeader, maxBufLen, sizeofPointer, memset_buffer hb, memcpy_header hhdr, hsecond,
    Traced.lift_eq, Traced.nil_ok_bind, Traced.mk_error_bind]

theorem send_eq (hhdr : hdr.length = 12) (hlen : (hdr ++ text ++ 0 :: tail).length = 512)
    (ht : text.length ≤ 254) (h0 : 0 ∉ text) (hn : text.length ≤ n.toNat + 1)
    : ∃ buffer, buffer.length = 512 ∧ sendDataToDns.send env (hdr ++ text ++ 0 :: tail) n
        =
      if env.setsockoptReuse ∧ env.setsockoptTimeout then
        sendDataToDns.sendQuery env buffer hdr (text ++ dot :: 0 :: zeros (254 - text.length))
      else
        ⟨[], .ok none⟩ := by
  have hname : questionName (hdr ++ text ++ 0 :: tail) = text := by
    apply questionName_of_prefix (t := tail) _ h0
    rw [List.append_assoc, List.drop_append_of_le_length (by omega), List.drop_eq_nil_of_le (by omega)]
    simp
  have hcopy := copyQname_questionName (n := n) hlen
  rw [hname, if_pos ⟨by omega, hn⟩] at hcopy
  obtain ⟨z, hz, hfirst⟩ := changetoDnsNameFormat_first hhdr hlen (by omega) h0
  have hload : loadRange (hdr ++ nameFormat text ++ z) 12 = .ok hdr := by
    rw [loadRange_of_le (by omega), List.append_assoc, ← hhdr, List.take_left]
  refine ⟨_, hz, ?_⟩
  unfold sendDataToDns.send
  simp only [sizeofDnsHeader, maxNameLen, memset_zeros, verifyAndCopyQname, hcopy, hfirst, hload,
    Traced.lift_eq, Traced.nil_ok_bind]
  cases env.setsockoptReuse <;> cases env.setsockoptTimeout <;> rfl

end Send

end Dns
