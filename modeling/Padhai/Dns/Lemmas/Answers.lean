import Padhai.Dns.Impl.Answers
import Padhai.Dns.Lemmas.Uncompress

/-!
This module contains what the loops over the answer section do. `AnswersRead` are the records that are
read and printed inside all arrays, and exactly for them does the response path return.
-/

namespace Dns

open Mem Label Packet

variable {malloc : Malloc} {buffer a b z bytes bs bs' : Bytes} {r k k' n i j left len type fuel : Nat}

theorem copyRdata_append (h : bytes <+: buffer.drop (r + a.length)) (hb : b.length = bytes.length)
    : copyRdata buffer r bytes.length a.length (a ++ b ++ z) = .ok (a ++ bytes ++ z) := by
  induction bytes generalizing a b with
  | nil =>
    have : b = [] := by simpa using hb
    simp [copyRdata, this]
  | cons c bytes ih =>
    match b with
    | [] => simp at hb
    | d :: b =>
      obtain ⟨t, ht⟩ := h
      have hc : buffer[r + a.length]? = some c := by
        have := congrArg (·[0]?) ht
        simpa using this.symm
      have hbytes : bytes <+: buffer.drop (r + (a ++ [c]).length) := by
        refine ⟨t, ?_⟩
        rw [List.length_append, List.length_singleton, ← Nat.add_assoc, ← List.drop_drop, ← ht]
        simp
      have := ih hbytes (b := b) (by simpa using hb)
      simp only [copyRdata, List.length_cons, load_of_getElem? hc, ok_bind]
      simp only [List.append_assoc, List.cons_append, store_append_length, ok_bind]
      simpa using this

theorem le_of_copyRdata {out : Bytes} (h : copyRdata buffer r left j b = .ok out)
    : out.length = b.length ∧ (0 < left → r + j + left ≤ buffer.length ∧ j + left ≤ b.length) := by
  induction left generalizing j b with
  | zero =>
    cases h
    simp
  | succ left ih =>
    simp only [copyRdata, bind_eq_ok_iff] at h
    obtain ⟨c, hc, b', hb', h⟩ := h
    obtain ⟨hj, rfl⟩ := store_eq_ok_iff.mp hb'
    obtain ⟨hlt, -⟩ := List.getElem?_eq_some_iff.mp (load_eq_ok_iff.mp hc)
    obtain ⟨hlen, hrest⟩ := ih h
    rw [List.length_set] at hlen hrest
    refine ⟨hlen, ?_⟩
    intro
    by_cases h0 : left = 0
    . omega
    . have := hrest (by omega)
      omega

theorem readAnswer_addr (hi : i < 20)
    (howner : Decodes buffer r (malloc.block (2 * i) maxNameLen).length bs k)
    (htype : RData.type buffer (r + k) = .ok 1)
    (hlen : RData.dataLen buffer (r + k) = .ok bytes.length)
    (hbytes : bytes <+: buffer.drop (r + k + 10))
    (hblock : bytes.length < (malloc.block (2 * i + 1) bytes.length).length)
    : ∃ u v n, (bytes ++ 0 :: v).length = (malloc.block (2 * i + 1) bytes.length).length
        ∧ ∀ fuel, readAnswer malloc fuel buffer i r =
          if n < fuel then
            .ok (⟨decode ucharLen bs ++ 0 :: u, r + k, bytes ++ 0 :: v⟩, r + k + 10 + bytes.length)
          else
            .error .running := by
  obtain ⟨u, n, -, howner⟩ := uncompressName_of_decodes howner
  obtain ⟨e, v, hsplit⟩ := eq_take_append hblock
  have hcopy := copyRdata_append (a := []) (b := (malloc.block (2 * i + 1) bytes.length).take
    bytes.length) (z := e :: v) hbytes (by simp; omega)
  rw [List.nil_append, List.nil_append, ← hsplit, List.length_nil] at hcopy
  refine ⟨u, v, n, ?_, ?_⟩
  . have := congrArg List.length hsplit
    simp at this ⊢
    omega
  . intro fuel
    simp only [maxNameLen] at howner
    by_cases hfuel : n < fuel
    . simp [readAnswer, howner, hfuel, Nat.not_le.mpr hi, htype, hlen, hcopy]
    . simp [readAnswer, howner, hfuel]

theorem readAnswer_name (hi : i < 20)
    (howner : Decodes buffer r (malloc.block (2 * i) maxNameLen).length bs k)
    (htype : RData.type buffer (r + k) = .ok type) (hne : type ≠ 1)
    (hrdata : Decodes buffer (r + k + 10) (malloc.block (2 * i + 1) maxNameLen).length bs' k')
    : ∃ u v n, ∀ fuel, readAnswer malloc fuel buffer i r =
        if n < fuel then
          .ok (⟨decode ucharLen bs ++ 0 :: u, r + k, decode ucharLen bs' ++ 0 :: v⟩,
            r + k + 10 + k')
        else
          .error .running := by
  obtain ⟨u, n, -, howner⟩ := uncompressName_of_decodes howner
  obtain ⟨v, n', -, hrdata⟩ := uncompressName_of_decodes hrdata
  refine ⟨u, v, max n n', ?_⟩
  intro fuel
  simp only [maxNameLen] at howner hrdata
  by_cases hfuel : n < fuel
  . by_cases hfuel' : n' < fuel
    . simp [readAnswer, howner, hrdata, hfuel, hfuel', Nat.not_le.mpr hi, htype, hne]
    . simp [readAnswer, howner, hrdata, hfuel, hfuel', Nat.not_le.mpr hi, htype, hne]
  . simp [readAnswer, howner, hfuel]

section Bounds

variable {ans : ResRecord} {next : Nat} {answers all : List ResRecord}

inductive AnswerRead (malloc : Malloc) (buffer : Bytes) (i r : Nat) : (next : Nat) → Prop where
  | addr {k len : Nat} {bs : Bytes}
    (howner : Decodes buffer r (malloc.block (2 * i) maxNameLen).length bs k)
    (htype : RData.type buffer (r + k) = .ok 1) (hlen : RData.dataLen buffer (r + k) = .ok len)
    (hbytes : r + k + 10 + len ≤ buffer.length)
    (hblock : len < (malloc.block (2 * i + 1) len).length)
    (hlong : 8 ≤ (malloc.block (2 * i + 1) len).length)
    : AnswerRead malloc buffer i r (r + k + 10 + len)
  | name {k k' type : Nat} {bs bs' : Bytes}
    (howner : Decodes buffer r (malloc.block (2 * i) maxNameLen).length bs k)
    (htype : RData.type buffer (r + k) = .ok type) (hne : type ≠ 1)
    (hrdata : Decodes buffer (r + k + 10) (malloc.block (2 * i + 1) maxNameLen).length bs' k')
    : AnswerRead malloc buffer i r (r + k + 10 + k')

inductive AnswersRead (malloc : Malloc) (buffer : Bytes) : (i left r : Nat) → Prop where
  | nil {i r : Nat} : AnswersRead malloc buffer i 0 r
  | cons {i left r next : Nat} (hi : i < 20) (h : AnswerRead malloc buffer i r next)
    (rest : AnswersRead malloc buffer (i + 1) left next) : AnswersRead malloc buffer i (left + 1) r

theorem loadLong_eq_ok_iff : (∃ p, loadLong a = .ok p) ↔ 8 ≤ a.length := by
  unfold loadLong loadRange
  by_cases h : 8 ≤ a.length <;> simp [h]

theorem printAnswer_eq_ok_iff (ans : ResRecord) (hname : 0 ∈ ans.name)
    (htype : RData.type buffer ans.resource = .ok type)
    : (∃ line, printAnswer buffer ans = .ok line) ↔ (type = 1 → 8 ≤ ans.rdata.length) := by
  rw [← loadLong_eq_ok_iff]
  have hlen := strlen_of_mem hname
  simp only [printAnswer, hlen, htype, ok_bind, tA]
  by_cases h : type = 1
  . match hlong : loadLong ans.rdata with
    | .ok p => simp [h]
    | .error e => simp [h]
  . simp [h]

theorem readAnswer_of_read (hi : i < 20) (h : AnswerRead malloc buffer i r next)
    : ∃ ans line n, printAnswer buffer ans = .ok line
        ∧ ∀ fuel, readAnswer malloc fuel buffer i r =
          if n < fuel then .ok (ans, next) else .error .running := by
  cases h with
  | @addr k len bs howner htype hlen hbytes hblock hlong =>
    obtain ⟨bytes, rfl, hprefix⟩ : ∃ bytes : Bytes, bytes.length = len
        ∧ bytes <+: buffer.drop (r + k + 10) := by
      refine ⟨(buffer.drop (r + k + 10)).take len, ?_, List.take_prefix _ _⟩
      simp
      omega
    obtain ⟨u, v, n, hv, hall⟩ := readAnswer_addr hi howner htype hlen hprefix hblock
    obtain ⟨line, hline⟩ := (printAnswer_eq_ok_iff ⟨decode ucharLen bs ++ 0 :: u, r + k,
      bytes ++ 0 :: v⟩ (by simp) htype).mpr fun _ => hv ▸ hlong
    exact ⟨_, line, n, hline, hall⟩
  | @name k k' type bs bs' howner htype hne hrdata =>
    obtain ⟨u, v, n, hall⟩ := readAnswer_name hi howner htype hne hrdata
    obtain ⟨line, hline⟩ := (printAnswer_eq_ok_iff ⟨decode ucharLen bs ++ 0 :: u, r + k,
      decode ucharLen bs' ++ 0 :: v⟩ (by simp) htype).mpr fun h => absurd h hne
    exact ⟨_, line, n, hline, hall⟩

theorem read_of_readAnswer (h : readAnswer malloc fuel buffer i r = .ok (ans, next))
    : i < 20 ∧ ((∃ line, printAnswer buffer ans = .ok line) → AnswerRead malloc buffer i r next) := by
  simp only [readAnswer, bind_eq_ok_iff] at h
  obtain ⟨⟨name, k⟩, hname, h⟩ := h
  obtain ⟨bs, u, howner, rfl⟩ := decodes_of_uncompressName hname
  by_cases hi : 20 ≤ i
  . simp [hi] at h
  . simp only [recordLen, hi, ↓reduceIte, pure_eq_ok, bind_eq_ok_iff, sizeofRData] at h
    obtain ⟨type, htype, h⟩ := h
    refine ⟨Nat.not_le.mp hi, ?_⟩
    split at h
    . next h1 =>
      subst h1
      simp only [bind_eq_ok_iff] at h
      obtain ⟨len, hlen, rdata, hcopy, rdata', hstore, h⟩ := h
      obtain ⟨hblock, rfl⟩ := store_eq_ok_iff.mp hstore
      obtain ⟨hrdata, hbytes⟩ := le_of_copyRdata hcopy
      have hfixed : r + k + 8 + 1 < buffer.length := lt_of_ntohsAt hlen
      cases h
      intro hprint
      rw [printAnswer_eq_ok_iff _ (by simp) htype, List.length_set, hrdata] at hprint
      rw [hrdata] at hblock
      exact .addr howner htype hlen (by dsimp at hbytes; omega) hblock (hprint rfl)
    . next hne =>
      simp only [bind_eq_ok_iff] at h
      obtain ⟨⟨rdata, k'⟩, hrdata, h⟩ := h
      obtain ⟨bs', -, hrdata, -⟩ := decodes_of_uncompressName hrdata
      cases h
      exact fun _ => .name howner htype hne hrdata

theorem readAnswers_of_read (h : AnswersRead malloc buffer i left r)
    : ∃ stop new lines n, new.mapM (printAnswer buffer) = .ok lines
        ∧ ∀ fuel, ∀ answers : List ResRecord, answers.length = i →
          readAnswers malloc fuel buffer left r answers =
            if n ≤ fuel then .ok (stop, answers ++ new) else .error .running := by
  induction h with
  | @nil i r => exact ⟨r, [], [], 0, by simp, by simp [readAnswers]⟩
  | cons hi h _ ih =>
    obtain ⟨ans, line, n, hline, hans⟩ := readAnswer_of_read hi h
    obtain ⟨stop, new, lines, m, hlines, hnew⟩ := ih
    refine ⟨stop, ans :: new, line :: lines, max (n + 1) m, by simp [hline, hlines], ?_⟩
    intro fuel answers hlen
    rw [readAnswers, hlen, hans]
    by_cases hn : n < fuel
    . have hle : max (n + 1) m ≤ fuel ↔ m ≤ fuel := by omega
      simpa [hn, hle] using hnew fuel (answers ++ [ans]) (by simp [hlen])
    . have hle : ¬max (n + 1) m ≤ fuel := by omega
      rw [if_neg hn, if_neg hle, error_bind]

theorem read_of_readAnswers {stop : Nat}
    (h : readAnswers malloc fuel buffer left r answers = .ok (stop, all))
    : ∃ new, all = answers ++ new
        ∧ ((∃ lines, new.mapM (printAnswer buffer) = .ok lines)
          → AnswersRead malloc buffer answers.length left r) := by
  induction left generalizing r answers with
  | zero =>
    cases h
    exact ⟨[], by simp, fun _ => .nil⟩
  | succ left ih =>
    rw [readAnswers, bind_eq_ok_iff] at h
    obtain ⟨⟨ans, next⟩, hans, h⟩ := h
    obtain ⟨hi, hread⟩ := read_of_readAnswer hans
    obtain ⟨new, rfl, hrest⟩ := ih h
    refine ⟨ans :: new, by simp, ?_⟩
    rintro ⟨lines, hlines⟩
    rw [List.mapM_cons, bind_eq_ok_iff] at hlines
    obtain ⟨line, hline, hlines⟩ := hlines
    obtain ⟨lines', hlines', -⟩ := bind_eq_ok_iff.mp hlines
    exact .cons hi (hread ⟨line, hline⟩) (by simpa using hrest ⟨lines', hlines'⟩)

def ResponseRead (malloc : Malloc) (buffer : Bytes) : Prop :=
  ∃ start count, answersStart buffer = .ok start ∧ DnsHeader.ansCount buffer = .ok count
    ∧ AnswersRead malloc buffer 0 count start

theorem answersStart_eq_ok_iff {start : Nat} : answersStart buffer = .ok start
    ↔ 0 ∈ buffer.drop 12 ∧ start = 12 + (questionName buffer).length + 5 := by
  simp only [answersStart, bind_eq_ok_iff, strlen_eq_ok_iff, questionName]
  constructor
  . rintro ⟨len, ⟨h0, rfl⟩, h⟩
    cases h
    exact ⟨h0, rfl⟩
  . rintro ⟨h0, rfl⟩
    exact ⟨_, ⟨h0, rfl⟩, rfl⟩

theorem responseRead_of_readResponse {out : Counts × List AnswerLine}
    (h : readResponse malloc fuel buffer = .ok out) : ResponseRead malloc buffer := by
  simp only [readResponse, bind_eq_ok_iff] at h
  obtain ⟨start, hstart, q, -, count, hcount, au, -, ad, -, ⟨stop, answers⟩, hanswers, h⟩ := h
  obtain ⟨lines, hlines, -⟩ := h
  obtain ⟨new, rfl, hread⟩ := read_of_readAnswers hanswers
  exact ⟨start, count, hstart, hcount, hread ⟨lines, hlines⟩⟩

theorem readResponse_eq (malloc : Malloc) {start count : Nat} (hstart : answersStart buffer = .ok start)
    (hcount : DnsHeader.ansCount buffer = .ok count)
    : ∃ q au ad, ∀ fuel, readResponse malloc fuel buffer = (do
        let (_, answers) ← readAnswers malloc fuel buffer count start []
        let lines ← answers.mapM (printAnswer buffer)
        return (⟨q, count, au, ad⟩, lines)) := by
  have hlen : 12 < buffer.length := by
    obtain ⟨h0, -⟩ := answersStart_eq_ok_iff.mp hstart
    have := List.length_pos_of_mem h0
    simp at this
    omega
  obtain ⟨q, hq⟩ := ntohsAt_of_lt (show 4 + 1 < buffer.length by omega)
  obtain ⟨au, hau⟩ := ntohsAt_of_lt (show 8 + 1 < buffer.length by omega)
  obtain ⟨ad, had⟩ := ntohsAt_of_lt (show 10 + 1 < buffer.length by omega)
  refine ⟨q, au, ad, fun fuel => ?_⟩
  simp only [readResponse, hstart, hcount, DnsHeader.qCount, DnsHeader.authCount,
    DnsHeader.addCount, hq, hau, had, ok_bind]

theorem readResponse_of_responseRead (h : ResponseRead malloc buffer)
    : ∃ out n, ∀ fuel, readResponse malloc fuel buffer =
        if n ≤ fuel then .ok out else .error .running := by
  obtain ⟨start, count, hstart, hcount, hread⟩ := h
  obtain ⟨q, au, ad, heq⟩ := readResponse_eq malloc hstart hcount
  obtain ⟨stop, new, lines, n, hlines, hnew⟩ := readAnswers_of_read hread
  refine ⟨(⟨q, count, au, ad⟩, lines), n, fun fuel => ?_⟩
  rw [heq, hnew fuel [] rfl]
  split
  . simp [hlines]
  . simp

inductive NamesRead (pkt : Bytes) : (left r : Nat) → Prop where
  | nil {r : Nat} : NamesRead pkt 0 r
  | cons {left r k k' type : Nat} {bs bs' : Bytes} (howner : Decodes pkt r 256 bs k)
    (htype : ntohsAt pkt (r + k) = .ok type) (hne : type ≠ 1)
    (hrdata : Decodes pkt (r + k + 10) 256 bs' k') (rest : NamesRead pkt left (r + k + 10 + k'))
    : NamesRead pkt (left + 1) r

theorem answersRead_iff_of_exact (hexact : ∀ k n, (malloc.block k n).length = n)
    : AnswersRead malloc buffer i left r ↔ (left = 0 ∨ i + left ≤ 20) ∧ NamesRead buffer left r := by
  constructor
  . intro h
    induction h with
    | nil => exact ⟨.inl rfl, .nil⟩
    | cons hi h _ ih =>
      refine ⟨.inr (by omega), ?_⟩
      cases h with
      | addr _ _ _ _ hblock =>
        rw [hexact] at hblock
        omega
      | name howner htype hne hrdata =>
        rw [hexact] at howner hrdata
        exact .cons howner htype hne hrdata ih.2
  . rintro ⟨hle, h⟩
    induction h generalizing i with
    | nil => exact .nil
    | cons howner htype hne hrdata _ ih =>
      rw [← hexact (2 * i) 256] at howner
      rw [← hexact (2 * i + 1) 256] at hrdata
      exact .cons (by omega) (.name howner htype hne hrdata) (ih (by omega))

theorem responseRead_iff_of_exact (hexact : ∀ k n, (malloc.block k n).length = n)
    : ResponseRead malloc buffer
      ↔ 0 ∈ buffer.drop 12 ∧ ∃ count, DnsHeader.ansCount buffer = .ok count ∧ count ≤ 20
        ∧ NamesRead buffer count (12 + (questionName buffer).length + 5) := by
  simp only [ResponseRead, answersStart_eq_ok_iff, answersRead_iff_of_exact hexact, Nat.zero_add]
  constructor
  . rintro ⟨_, count, ⟨h0, rfl⟩, hcount, hle, hread⟩
    exact ⟨h0, count, hcount, by omega, hread⟩
  . rintro ⟨h0, count, hcount, hle, hread⟩
    exact ⟨_, count, ⟨h0, rfl⟩, hcount, .inr hle, hread⟩

/--
Exactly when the response path stays inside its arrays on the bytes received: run on these bytes
alone and with exactly the memory it asks for, it stops at its first access outside an array.
-/
theorem readResponse_inRange_iff (received : Bytes) (malloc : Malloc)
    (hexact : ∀ k n, (malloc.block k n).length = n)
    (hends : ∃ fuel, readResponse malloc fuel received ≠ .error .running)
    : (∀ fuel size idx, readResponse malloc fuel received ≠ .error (.outOfRange size idx))
      ↔ 0 ∈ received.drop 12 ∧ ∃ count, DnsHeader.ansCount received = .ok count ∧ count ≤ 20
        ∧ NamesRead received count (12 + (questionName received).length + 5) := by
  rw [← responseRead_iff_of_exact hexact]
  constructor
  . intro h
    obtain ⟨fuel, hends⟩ := hends
    match hread : readResponse malloc fuel received with
    | .ok out => exact responseRead_of_readResponse hread
    | .error .running => exact absurd hread hends
    | .error (.outOfRange size idx) => exact absurd hread (h fuel size idx)
  . intro h fuel size idx
    obtain ⟨out, n, hall⟩ := readResponse_of_responseRead h
    rw [hall]
    split <;> simp

def Malloc.exact : Malloc where
  block _ n := zeros n
  size_le _ n := le_zeros_length n

def addrResponse : Bytes :=
  [0, 1, 129, 128, 0, 1, 0, 1, 0, 0, 0, 0, 3, 119, 119, 119, 2, 99, 99, 0, 0, 1, 0, 1,
    192, 12, 0, 1, 0, 1, 0, 0, 0, 60, 0, 4, 1, 2, 3, 4]

theorem readResponse_addrResponse
    : verifyDnsBuffer (padTo 512 addrResponse) 40 = .ok 0
      ∧ (padTo 512 addrResponse).take 40 = addrResponse
      ∧ readResponse .exact 20 addrResponse = .error (.outOfRange 4 4) := by
  refine ⟨?_, take_padTo (s := addrResponse), ?_⟩
  . rw [verifyDnsBuffer_eq_zero_iff (padTo_length (by decide))]
    decide +kernel
  . decide +kernel

theorem readResponse_inRange_iff_addrResponse
    : (∀ fuel size idx, readResponse .exact fuel addrResponse ≠ .error (.outOfRange size idx))
      ↔ 0 ∈ addrResponse.drop 12 ∧ ∃ count, DnsHeader.ansCount addrResponse = .ok count ∧ count ≤ 20
        ∧ NamesRead addrResponse count (12 + (questionName addrResponse).length + 5) :=
  readResponse_inRange_iff addrResponse .exact (fun _ n => zeros_length) ⟨20, by decide +kernel⟩

end Bounds

end Dns
