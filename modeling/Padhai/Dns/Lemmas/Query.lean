import Padhai.Dns.Lemmas.OnRecv

/-!
This module contains what the query is that goes out for each text of a name: when it is well
formed, and when two requests go out as the same query.
-/

namespace Dns

open Mem Label Traced

variable {env env' : Env} {d d' : Datagram} {hdr text s q q' : Bytes} {ps rest : List Bytes}

section Pieces

theorem zero_notMem_wire_pieces (ht : text.length ≤ 253) (h0 : 0 ∉ text) (hne : [] ∉ ps)
    (hps : ∀ p ∈ ps, p ∈ text.splitOn dot) : 0 ∉ wire ps := by
  apply Label.zero_notMem_wire
  . intro p hp
    have := length_le_of_mem_splitOn (hps p hp)
    refine ⟨?_, by omega⟩
    rintro rfl
    exact hne hp
  . intro p hp
    exact zero_notMem_of_mem_splitOn h0 (hps p hp)

theorem forwarded_of_pieces (hhdr : hdr.length = 12) (ht : text.length ≤ 253) (h0 : 0 ∉ text)
    (hne : [] ∉ text.splitOn dot)
    : forwarded hdr text
        = hdr.take 8 ++ zeros 4 ++ (wire (text.splitOn dot) ++ [0, 0, 1, 0, 1]) := by
  have hwire := zero_notMem_wire_pieces ht h0 hne fun _ hp => hp
  rw [forwarded_of_split (t := [0, 1, 0, 1]) hhdr hwire (by decide) rfl, List.append_assoc]
  rfl

theorem forwarded_of_empty_piece (ps rest : List Bytes) (hhdr : hdr.length = 12)
    (ht : text.length ≤ 253) (h0 : 0 ∉ text) (hne : [] ∉ ps) (hsplit : text.splitOn dot = ps ++ [] :: rest)
    : forwarded hdr text
        = hdr.take 8 ++ zeros 4 ++ (wire ps ++ 0 :: (wire rest ++ [0, 0, 1, 0, 1]).take 4) := by
  have hwire := zero_notMem_wire_pieces ht h0 hne fun p hp => by
    rw [hsplit]
    exact List.mem_append_left _ hp
  rw [forwarded_of_split (t := wire rest ++ [0, 0, 1, 0, 1]) hhdr hwire (by simp)
    (by simp [hsplit, prefixed]), List.append_assoc]

theorem forwarded_header (hhdr : hdr.length = 12) (text : Bytes)
    : ∃ s, forwarded hdr text = hdr.take 8 ++ zeros 4 ++ s := by
  have hprefix : hdr.take 8 ++ zeros 4 <+: forwarded hdr text := by
    rw [forwarded]
    apply List.prefix_take_iff.mpr
    refine ⟨?_, by simp [hhdr]; omega⟩
    rw [outgoing, padTo, List.append_assoc]
    apply List.prefix_append
  obtain ⟨s, hs⟩ := hprefix
  exact ⟨s, hs.symm⟩

theorem drop_header (hhdr : hdr.length = 12) : (hdr.take 8 ++ zeros 4 ++ s).drop 12 = s := by
  have : (hdr.take 8 ++ zeros 4).length = 12 := by
    simp [hhdr]
  rw [← this, List.drop_left]

end Pieces

section WellFormed

structure WellFormedQuery (q : Bytes) : Prop where
  qCount : DnsHeader.qCount q = .ok 1
  ansCount : DnsHeader.ansCount q = .ok 0
  authCount : DnsHeader.authCount q = .ok 0
  addCount : DnsHeader.addCount q = .ok 0
  question : ∃ ls : List Label, q.drop 12 = wire (ls.map Label.bytes) ++ [0, 0, 1, 0, 1]

theorem ntohsAt_of_take {i : Nat} (hhdr : hdr.length = 12) (hi : i + 1 < 8)
    : ntohsAt (hdr.take 8 ++ zeros 4 ++ s) i = ntohsAt hdr i := by
  have hlt : i + 1 < (hdr.take 8).length := by
    simp [hhdr]
    omega
  obtain ⟨x, hx⟩ := ntohsAt_of_lt hlt
  rw [ntohsAt_mono (List.take_prefix 8 hdr) hx]
  apply ntohsAt_mono _ hx
  rw [List.append_assoc]
  apply List.prefix_append

theorem ntohsAt_of_zeros {i : Nat} (hhdr : hdr.length = 12) (hi : 8 ≤ i) (hi' : i + 1 < 12)
    : ntohsAt (hdr.take 8 ++ zeros 4 ++ s) i = .ok 0 := by
  have hat : ∀ k, 8 ≤ k → k < 12 → (hdr.take 8 ++ zeros 4 ++ s)[k]? = some 0 := by
    intro k hk hk'
    rw [List.getElem?_append_left (by simp [hhdr]; omega),
      List.getElem?_append_right (by simp [hhdr]; omega), zeros_getElem? (by simp [hhdr]; omega)]
  rw [ntohsAt_of_getElem? (hat i hi (by omega)) (hat (i + 1) (by omega) hi')]
  rfl

/--
What follows the first empty piece of a name is never the type and the class, whatever the pieces
after it are.
-/
theorem take_four_ne (h0 : ∀ p ∈ rest, 0 ∉ p) (hlen : ∀ p ∈ rest, p.length < 256)
    : (wire rest ++ [0, 0, 1, 0, 1]).take 4 ≠ [0, 1, 0, 1] := by
  intro h
  have hbyte : ∀ p ∈ rest, ∀ k : Nat, k < 256 → UInt8.ofNat p.length = UInt8.ofNat k
      → p.length = k := by
    intro p hp k hk hof
    have := congrArg UInt8.toNat hof
    rwa [UInt8.toNat_ofNat_of_lt' (hlen p hp), UInt8.toNat_ofNat_of_lt' hk] at this
  cases rest with
  | nil => simp at h
  | cons p rest =>
    simp only [wire_cons, prefixed, List.cons_append, List.take_succ_cons, List.cons.injEq] at h
    obtain ⟨hp, h⟩ := h
    obtain rfl : p = [] := List.length_eq_zero_iff.mp (hbyte p (by simp) 0 (by decide) hp)
    cases rest with
    | nil => simp at h
    | cons p' rest =>
      simp only [wire_cons, prefixed, List.nil_append, List.cons_append, List.take_succ_cons,
        List.cons.injEq] at h
      obtain ⟨hp', h⟩ := h
      -- The piece after the empty one has a single byte, which would have to be a zero.
      obtain ⟨c, rfl⟩ := List.length_eq_one_iff.mp (hbyte p' (by simp) 1 (by decide) hp')
      simp only [List.cons_append, List.take_succ_cons, List.cons.injEq] at h
      exact h0 [c] (by simp) (by simp [h.1])

theorem pieces_of_question {ls : List Label} (hhdr : hdr.length = 12) (ht : text.length ≤ 253)
    (h0 : 0 ∉ text)
    (h : (forwarded hdr text).drop 12 = wire (ls.map Label.bytes) ++ [0, 0, 1, 0, 1])
    : text.splitOn dot = ls.map Label.bytes := by
  have hlen : ∀ p ∈ text.splitOn dot, p.length < 256 := by
    intro p hp
    have := length_le_of_mem_splitOn hp
    omega
  by_cases hne : [] ∈ text.splitOn dot
  . obtain ⟨ps, rest, hsplit, hps⟩ := List.eq_append_cons_of_mem hne
    rw [forwarded_of_empty_piece ps rest hhdr ht h0 hps hsplit, drop_header hhdr] at h
    have hrest : ∀ p ∈ rest, p ∈ text.splitOn dot := by
      intro p hp
      rw [hsplit]
      simp [hp]
    have hfour := take_four_ne (fun p hp => zero_notMem_of_mem_splitOn h0 (hrest p hp))
      fun p hp => hlen p (hrest p hp)
    rw [List.append_cons, List.append_cons (wire (ls.map Label.bytes))] at h
    exact absurd (List.append_inj_right' h (by simp)) hfour
  . rw [forwarded_of_pieces hhdr ht h0 hne, drop_header hhdr, List.append_left_inj] at h
    apply wire_inj hlen _ h
    intro p hp
    obtain ⟨l, -, rfl⟩ := List.mem_map.mp hp
    have := l.length_le
    omega

theorem wellFormedQuery_forwarded_iff (hhdr : hdr.length = 12) (ht : text.length ≤ 253)
    (h0 : 0 ∉ text)
    : WellFormedQuery (forwarded hdr text)
      ↔ DnsHeader.qCount hdr = .ok 1 ∧ DnsHeader.ansCount hdr = .ok 0
        ∧ ∀ p ∈ text.splitOn dot, p ≠ [] ∧ p.length ≤ 63 := by
  have hcounts : ∀ s, DnsHeader.qCount (hdr.take 8 ++ zeros 4 ++ s) = DnsHeader.qCount hdr
      ∧ DnsHeader.ansCount (hdr.take 8 ++ zeros 4 ++ s) = DnsHeader.ansCount hdr := fun s =>
    ⟨ntohsAt_of_take hhdr (by decide), ntohsAt_of_take hhdr (by decide)⟩
  obtain ⟨s, hs⟩ := forwarded_header hhdr text
  constructor
  . rintro ⟨hq, ha, -, -, ls, hls⟩
    rw [hs, (hcounts s).1] at hq
    rw [hs, (hcounts s).2] at ha
    refine ⟨hq, ha, ?_⟩
    rw [pieces_of_question hhdr ht h0 hls]
    intro p hp
    obtain ⟨l, -, rfl⟩ := List.mem_map.mp hp
    exact ⟨l.ne_nil, l.length_le⟩
  . rintro ⟨hq, ha, hpieces⟩
    obtain ⟨ls, hls⟩ := exists_map_bytes hpieces
    have hne : [] ∉ text.splitOn dot := fun hmem => (hpieces [] hmem).1 rfl
    rw [forwarded_of_pieces hhdr ht h0 hne]
    refine ⟨by rwa [(hcounts _).1], by rwa [(hcounts _).2], ?_, ?_, ls, ?_⟩
    . exact ntohsAt_of_zeros hhdr (by decide) (by decide)
    . exact ntohsAt_of_zeros hhdr (by decide) (by decide)
    . rw [drop_header hhdr, hls]

theorem Forwards.text_length_le (h : Forwards env d) : (clientText env d).length ≤ 253 := by
  have := h.room
  rw [clientText, questionText_length]
  omega

theorem ntohsAt_clientHeader {i : Nat} (hi : i + 1 < 12)
    : ntohsAt (clientHeader env d) i = ntohsAt (requestBuffer env.fresh d) i := by
  have hlt : i + 1 < (clientHeader env d).length := by
    rwa [clientHeader_length]
  obtain ⟨x, hx⟩ := ntohsAt_of_lt hlt
  rw [hx, ntohsAt_mono (List.take_prefix 12 _) hx]

def singleName (l : Label) : Name where
  labels := [l]
  ne_nil := by simp
  length_le := by
    have := l.length_le
    simp
    omega

def exampleHeader : Bytes := [0, 1, 1, 0, 0, 1, 0, 0, 0, 0, 0, 0]

def questionDatagram (name : Name) (qclass : UInt8) : Datagram where
  bytes := exampleHeader ++ name.wire ++ [0, 0, 1] ++ [0, qclass]
  length_le := by
    have := name.wire_length_le
    simp [exampleHeader]
    omega

theorem sentUpstream_questionDatagram {name : Name} (h0 : name.All (· ≠ 0)) (qclass : UInt8)
    {fresh : Bytes} (hfresh : fresh.length = maxBufLen)
    : .sentUpstream (forwarded exampleHeader name.text)
        ∈ (onRecv (quietEnv fresh hfresh (questionDatagram name qclass))).trace := by
  have hlen : (questionDatagram name qclass).bytes.length ≤ 510 := by
    have := name.wire_length_le
    simp [questionDatagram, exampleHeader]
    omega
  obtain ⟨hf, hheader, htext⟩ : Forwards (quietEnv fresh hfresh (questionDatagram name qclass)) _
      ∧ _ ∧ _ :=
    forwards_of_name exampleHeader [0, qclass] rfl h0 (by simp) rfl hlen rfl rfl
  have := sentUpstream_mem_of_forwards rfl hf
  rwa [hheader, htext] at this

theorem onRecv_wellFormedQuery_iff (env : Env) (d : Datagram) (q : Bytes)
    (hd : env.clientRecv = some d) (hq : .sentUpstream q ∈ (onRecv env).trace)
    : WellFormedQuery q
      ↔ DnsHeader.qCount (requestBuffer env.fresh d) = .ok 1
        ∧ DnsHeader.ansCount (requestBuffer env.fresh d) = .ok 0
        ∧ ∀ p ∈ (questionText (requestBuffer env.fresh d)).splitOn dot, p ≠ [] ∧ p.length ≤ 63 := by
  obtain ⟨hf, rfl⟩ := forwards_of_sentUpstream hd hq
  rw [wellFormedQuery_forwarded_iff clientHeader_length hf.text_length_le (zero_notMem_questionText _),
    DnsHeader.qCount, DnsHeader.ansCount, ntohsAt_clientHeader (by decide),
    ntohsAt_clientHeader (by decide)]
  rfl

theorem onRecv_wellFormedQuery_iff_exampleName
    : WellFormedQuery (forwarded exampleHeader exampleName.text)
      ↔ DnsHeader.qCount (requestBuffer (zeros 512) (questionDatagram exampleName 1)) = .ok 1
        ∧ DnsHeader.ansCount (requestBuffer (zeros 512) (questionDatagram exampleName 1)) = .ok 0
        ∧ ∀ p ∈ (questionText (requestBuffer (zeros 512) (questionDatagram exampleName 1))).splitOn dot,
          p ≠ [] ∧ p.length ≤ 63 :=
  onRecv_wellFormedQuery_iff (quietEnv (zeros 512) zeros_length (questionDatagram exampleName 1))
    (questionDatagram exampleName 1) _ rfl
    (sentUpstream_questionDatagram (by decide) 1 zeros_length)

def endsInDot : Name := singleName ⟨[97, 46], by decide, by decide⟩

theorem onRecv_endsInDot
    : .sentUpstream ([0, 1, 1, 0, 0, 1, 0, 0, 0, 0, 0, 0] ++ [1, 97, 0] ++ [0, 0, 1, 0])
        ∈ (onRecv (quietEnv (zeros 512) zeros_length (questionDatagram endsInDot 1))).trace
      ∧ ¬WellFormedQuery ([0, 1, 1, 0, 0, 1, 0, 0, 0, 0, 0, 0] ++ [1, 97, 0] ++ [0, 0, 1, 0]) := by
  have h0 : 0 ∉ endsInDot.text := by decide
  have hq : forwarded exampleHeader endsInDot.text
      = [0, 1, 1, 0, 0, 1, 0, 0, 0, 0, 0, 0] ++ [1, 97, 0] ++ [0, 0, 1, 0] :=
    forwarded_of_empty_piece [[97]] [] rfl (by decide) h0 (by decide) (by decide)
  rw [← hq]
  refine ⟨sentUpstream_questionDatagram (by decide) 1 zeros_length, ?_⟩
  rw [wellFormedQuery_forwarded_iff rfl (by decide) h0]
  rintro ⟨-, -, hpieces⟩
  exact (hpieces [] (by decide)).1 rfl

end WellFormed

section Injective

/--
What the server sends upstream is the same for both datagrams, whatever its packet buffers hold.
-/
def SentAlike (d d' : Datagram) : Prop :=
  ∀ fresh fresh' hfresh hfresh', ∃ q, .sentUpstream q ∈ (onRecv (quietEnv fresh hfresh d)).trace
    ∧ .sentUpstream q ∈ (onRecv (quietEnv fresh' hfresh' d')).trace

theorem sentAlike_of_forwarded {name name' : Name} (h0 : name.All (· ≠ 0)) (h0' : name'.All (· ≠ 0))
    (c c' : UInt8) (h : forwarded exampleHeader name.text = forwarded exampleHeader name'.text)
    : SentAlike (questionDatagram name c) (questionDatagram name' c') := by
  intro fresh fresh' hfresh hfresh'
  refine ⟨_, sentUpstream_questionDatagram h0 c hfresh, ?_⟩
  rw [h]
  exact sentUpstream_questionDatagram h0' c' hfresh'

theorem text_of_forwarded {text' : Bytes} (hhdr : hdr.length = 12) (ht : text.length ≤ 253)
    (ht' : text'.length ≤ 253) (h0 : 0 ∉ text) (h0' : 0 ∉ text') (hne : [] ∉ text.splitOn dot)
    (hne' : [] ∉ text'.splitOn dot) (h : forwarded hdr text = forwarded hdr text')
    : text = text' := by
  rw [forwarded_of_pieces hhdr ht h0 hne, forwarded_of_pieces hhdr ht' h0' hne',
    List.append_right_inj, List.append_left_inj] at h
  have hsplit := wire_inj (fun p hp => by have := length_le_of_mem_splitOn hp; omega)
    (fun p hp => by have := length_le_of_mem_splitOn hp; omega) h
  have htext : [dot].intercalate (text.splitOn dot) = text := List.intercalate_splitOn dot
  rw [← htext, hsplit, List.intercalate_splitOn]

theorem sent_of_name {name : Name} {trailing : Bytes} (hd : env.clientRecv = some d)
    (hq : .sentUpstream q ∈ (onRecv env).trace) (hhdr : hdr.length = 12) (h0 : name.All (· ≠ 0))
    (hbytes : d.bytes = hdr ++ name.wire ++ [0, 0, 1] ++ trailing)
    : q = forwarded hdr name.text := by
  obtain ⟨hf, rfl⟩ := forwards_of_sentUpstream hd hq
  obtain ⟨-, hheader, htext⟩ := forwards_of_name hdr trailing hhdr h0 (by simp) hbytes hf.length_le
    hf.reuse hf.timeout
  rw [hheader, htext]

theorem onRecv_forwards_distinct (env env' : Env) (d d' : Datagram) (q q' hdr : Bytes)
    (name name' : Name) (qclass qclass' trailing trailing' : Bytes) (hd : env.clientRecv = some d)
    (hd' : env'.clientRecv = some d') (hq : .sentUpstream q ∈ (onRecv env).trace)
    (hq' : .sentUpstream q' ∈ (onRecv env').trace) (hhdr : hdr.length = 12)
    (h0 : name.All (· ≠ 0)) (h0' : name'.All (· ≠ 0))
    (hbytes : d.bytes = hdr ++ name.wire ++ [0, 0, 1] ++ (qclass ++ trailing))
    (hbytes' : d'.bytes = hdr ++ name'.wire ++ [0, 0, 1] ++ (qclass' ++ trailing'))
    : ([] ∉ name.text.splitOn dot → [] ∉ name'.text.splitOn dot → name.text ≠ name'.text → q ≠ q')
      ∧ (name.All Plain → name'.All Plain → name.wire ≠ name'.wire → q ≠ q')
      ∧ (name.wire = name'.wire → q = q') := by
  obtain rfl := sent_of_name hd hq hhdr h0 hbytes
  obtain rfl := sent_of_name hd' hq' hhdr h0' hbytes'
  refine ⟨fun hne hne' htext h => htext ?_, fun hp hp' hwire h => hwire ?_, fun hwire => ?_⟩
  . exact text_of_forwarded hhdr name.text_length_le name'.text_length_le
      (name.zero_notMem_text h0 (by simp)) (name'.zero_notMem_text h0' (by simp)) hne hne' h
  . have htext := text_of_forwarded hhdr name.text_length_le name'.text_length_le
      (name.zero_notMem_text h0 (by simp)) (name'.zero_notMem_text h0' (by simp))
      (name.nil_notMem_splitOn_text hp (by simp [Plain]))
      (name'.nil_notMem_splitOn_text hp' (by simp [Plain])) h
    rw [← name.wire_splitOn_text hp (by simp [Plain]), htext,
      name'.wire_splitOn_text hp' (by simp [Plain])]
  . rw [← name.decode_wire fun k hk => charLen_ofNat hk, hwire,
      name'.decode_wire fun k hk => charLen_ofNat hk]

theorem onRecv_forwards_distinct_exampleName
    : ([] ∉ exampleName.text.splitOn dot → [] ∉ (singleName ccLabel).text.splitOn dot
        → exampleName.text ≠ (singleName ccLabel).text
        → forwarded exampleHeader exampleName.text ≠ forwarded exampleHeader (singleName ccLabel).text)
      ∧ (exampleName.All Plain → (singleName ccLabel).All Plain
        → exampleName.wire ≠ (singleName ccLabel).wire
        → forwarded exampleHeader exampleName.text ≠ forwarded exampleHeader (singleName ccLabel).text)
      ∧ (exampleName.wire = (singleName ccLabel).wire
        → forwarded exampleHeader exampleName.text = forwarded exampleHeader (singleName ccLabel).text) :=
  onRecv_forwards_distinct (quietEnv (zeros 512) zeros_length (questionDatagram exampleName 1))
    (quietEnv (zeros 512) zeros_length (questionDatagram (singleName ccLabel) 1))
    (questionDatagram exampleName 1) (questionDatagram (singleName ccLabel) 1) _ _ exampleHeader
    exampleName (singleName ccLabel) [0, 1] [0, 1] [] [] rfl rfl
    (sentUpstream_questionDatagram (by decide) 1 zeros_length)
    (sentUpstream_questionDatagram (by decide) 1 zeros_length) rfl (by decide) (by decide) rfl rfl

def dottedLabel : Name := singleName ⟨[97, 46, 98], by decide, by decide⟩

def twoLabels : Name where
  labels := [⟨[97], by decide, by decide⟩, ⟨[98], by decide, by decide⟩]
  ne_nil := by decide
  length_le := by decide

def emptyPiece (last : UInt8) : Name :=
  singleName ⟨[97, 46, 46, 98, 99, 100, last], by simp, by simp⟩

-- The three pairs differ in the class only, in the place of a label's end, and behind an empty piece.
theorem onRecv_sentAlike
    : SentAlike (questionDatagram exampleName 1) (questionDatagram exampleName 3)
      ∧ (SentAlike (questionDatagram dottedLabel 1) (questionDatagram twoLabels 1)
        ∧ dottedLabel.wire ≠ twoLabels.wire)
      ∧ (SentAlike (questionDatagram (emptyPiece 120) 1) (questionDatagram (emptyPiece 121) 1)
        ∧ (emptyPiece 120).text ≠ (emptyPiece 121).text) := by
  refine ⟨sentAlike_of_forwarded (by decide) (by decide) 1 3 rfl, ⟨?_, by decide⟩, ?_, by decide⟩
  . apply sentAlike_of_forwarded (by decide) (by decide)
    have : dottedLabel.text = twoLabels.text := by decide
    rw [this]
  . apply sentAlike_of_forwarded (by decide) (by decide)
    rw [forwarded_of_empty_piece [[97]] [[98, 99, 100, 120]] rfl (by decide)
        (by decide) (by decide) (by decide),
      forwarded_of_empty_piece [[97]] [[98, 99, 100, 121]] rfl (by decide)
        (by decide) (by decide) (by decide)]
    rfl

end Injective

end Dns
