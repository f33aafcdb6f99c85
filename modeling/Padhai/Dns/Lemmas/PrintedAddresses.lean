import Padhai.Dns.Lemmas.AnswerSection

/-!
This module contains which address is printed for an A record: the value in memory is already in network
order, so `ntohl` turns it around, and only addresses that read the same backwards come out right.
-/

namespace Dns

open Mem Label Packet

namespace Answer

variable {malloc : Malloc} {pkt rdata bytes s : Bytes} {pos next next' stop stop' i j k fuel : Nat}
  {c : UInt8} {a : Answer} {as : List Answer} {ans : ResRecord} {answers all : List ResRecord}
  {line : AnswerLine} {lines : List AnswerLine}

section Reversed

def longOf (bytes : Bytes) : BitVec 64 :=
  bytes.foldr (fun c x => x <<< 8 ||| c.toBitVec.setWidth 64) 0

theorem extract_longOf_zero : (longOf (c :: s)).extractLsb' 0 8 = c.toBitVec := by
  ext j hj
  have h64 : j < 64 := by omega
  simp [longOf, hj, h64]

theorem extract_longOf_succ (hj : 8 * (j + 1) + 8 ≤ 64)
    : (longOf (c :: s)).extractLsb' (8 * (j + 1)) 8 = (longOf s).extractLsb' (8 * j) 8 := by
  ext m hm
  have h64 : 8 * (j + 1) + m < 64 := by omega
  have hge : ¬8 * (j + 1) + m < 8 := by omega
  have hsub : 8 * (j + 1) + m - 8 = 8 * j + m := by omega
  rw [BitVec.getElem_extractLsb', BitVec.getElem_extractLsb', longOf, List.foldr_cons,
    BitVec.getLsbD_or, BitVec.getLsbD_shiftLeft, BitVec.getLsbD_setWidth,
    BitVec.getLsbD_of_ge c.toBitVec _ (by omega)]
  simp [h64, hge, hsub, longOf]

/--
Byte `j` of the value in memory is byte `j` of the array.
-/
theorem extract_longOf (hj : 8 * j + 8 ≤ 64) (hs : s[j]? = some c)
    : (longOf s).extractLsb' (8 * j) 8 = c.toBitVec := by
  induction s generalizing j with
  | nil => simp at hs
  | cons d s ih =>
    cases j with
    | zero =>
      cases hs
      exact extract_longOf_zero
    | succ j =>
      rw [extract_longOf_succ hj]
      exact ih (by omega) hs

theorem extract_setWidth (p : BitVec 64) (hj : 8 * j + 8 ≤ 32)
    : (p.setWidth 32).extractLsb' (8 * j) 8 = p.extractLsb' (8 * j) 8 := by
  ext m hm
  have h32 : 8 * j + m < 32 := by omega
  simp [h32]

theorem extract_append_right {w : Nat} (x : BitVec w) (y : BitVec 8) : (x ++ y).extractLsb' 0 8 = y :=
  BitVec.extractLsb'_append_eq_right

theorem extract_append_left {w : Nat} (x : BitVec w) (y : BitVec 8) (j : Nat)
    : (x ++ y).extractLsb' (j + 8) 8 = x.extractLsb' j 8 := by
  rw [BitVec.extractLsb'_append_eq_of_le (by omega), Nat.add_sub_cancel]

theorem inetNtoa_ntohl (x : BitVec 32)
    : inetNtoa (ntohl x)
      = [x.extractLsb' 24 8, x.extractLsb' 16 8, x.extractLsb' 8 8, x.extractLsb' 0 8].map
        UInt8.ofBitVec := by
  unfold inetNtoa ntohl
  generalize x.extractLsb' 0 8 = b₀, x.extractLsb' 8 8 = b₁, x.extractLsb' 16 8 = b₂,
    x.extractLsb' 24 8 = b₃
  have h₀ : (b₀ ++ b₁ ++ b₂ ++ b₃).extractLsb' 0 8 = b₃ := extract_append_right _ _
  have h₁ : (b₀ ++ b₁ ++ b₂ ++ b₃).extractLsb' 8 8 = b₂ :=
    (extract_append_left _ _ 0).trans (extract_append_right _ _)
  have h₂ : (b₀ ++ b₁ ++ b₂ ++ b₃).extractLsb' 16 8 = b₁ :=
    (extract_append_left _ _ 8).trans ((extract_append_left _ _ 0).trans (extract_append_right _ _))
  have h₃ : (b₀ ++ b₁ ++ b₂ ++ b₃).extractLsb' 24 8 = b₀ :=
    (extract_append_left _ _ 16).trans ((extract_append_left _ _ 8).trans
      ((extract_append_left _ _ 0).trans BitVec.extractLsb'_eq_self))
  exact congrArg (List.map UInt8.ofBitVec) (congrArg₂ List.cons h₀ (congrArg₂ List.cons h₁
    (congrArg₂ List.cons h₂ (congrArg₂ List.cons h₃ rfl))))

theorem inetNtoa_longOf (hbytes : bytes.length = 4)
    : inetNtoa (ntohl ((longOf (bytes ++ s)).setWidth 32)) = bytes.reverse := by
  obtain ⟨b₀, b₁, b₂, b₃, rfl⟩ := List.length_eq_four.mp hbytes
  have hbyte : ∀ j c, 8 * j + 8 ≤ 32 → ([b₀, b₁, b₂, b₃] ++ s)[j]? = some c
      → UInt8.ofBitVec (((longOf ([b₀, b₁, b₂, b₃] ++ s)).setWidth 32).extractLsb' (8 * j) 8) = c := by
    intro j c hj hc
    rw [extract_setWidth _ hj, extract_longOf (by omega) hc]
  rw [inetNtoa_ntohl, List.map_cons, List.map_cons, List.map_cons, List.map_cons, List.map_nil,
    hbyte 3 b₃ (by omega) rfl, hbyte 2 b₂ (by omega) rfl, hbyte 1 b₁ (by omega) rfl,
    hbyte 0 b₀ (by omega) rfl]
  rfl

end Reversed

section Read

theorem room_of_readAnswer {bs : Bytes} {type len : Nat}
    (howner : Decodes pkt pos (malloc.block (2 * i) maxNameLen).length bs k)
    (htype : RData.type pkt (pos + k) = .ok type) (hlen : RData.dataLen pkt (pos + k) = .ok len)
    (h : readAnswer malloc fuel pkt i pos = .ok (ans, next))
    : i < 20 ∧ (type = 1 → len < (malloc.block (2 * i + 1) len).length) := by
  obtain ⟨u, n, -, hname⟩ := uncompressName_of_decodes howner
  simp only [readAnswer, bind_eq_ok_iff] at h
  obtain ⟨⟨name, k'⟩, hname', h⟩ := h
  rw [hname] at hname'
  split at hname'
  . cases hname'
    by_cases hi : 20 ≤ i
    . simp [hi] at h
    . refine ⟨Nat.not_le.mp hi, ?_⟩
      rintro rfl
      simp only [recordLen, hi, ↓reduceIte, pure_eq_ok, bind_eq_ok_iff, htype] at h
      obtain ⟨type, heq, h⟩ := h
      cases heq
      rw [if_pos rfl, hlen, ok_bind, bind_eq_ok_iff] at h
      obtain ⟨rdata, hcopy, h⟩ := h
      obtain ⟨rdata', hstore, -⟩ := bind_eq_ok_iff.mp h
      have hlt := (store_eq_ok_iff.mp hstore).1
      rwa [(le_of_copyRdata hcopy).1] at hlt
  . cases hname'

/--
What is read for a record, by any run that reads it.
-/
def ReadAs (pkt : Bytes) (a : Answer) (ans : ResRecord) : Prop :=
  match a.data with
  | .addr bytes => RData.type pkt ans.resource = .ok 1 ∧ ∃ u, ans.rdata = bytes ++ u
  | .name _ => True

theorem readAnswer_of_at (h : At pkt pos a next)
    (hread : readAnswer malloc fuel pkt i pos = .ok (ans, next')) : next' = next ∧ ReadAs pkt a ans := by
  have hcap := fun k => malloc.size_le k maxNameLen
  cases h with
  | addr howner htype hlen hbytes =>
    obtain ⟨hi, hroom⟩ := room_of_readAnswer (howner.decodes (hcap _)) htype hlen hread
    obtain ⟨u, v, n, -, hall⟩ :=
      readAnswer_addr hi (howner.decodes (hcap _)) htype hlen hbytes (hroom rfl)
    rw [hall] at hread
    split at hread
    . cases hread
      exact ⟨rfl, htype, _, rfl⟩
    . cases hread
  | name howner htype hne hlen hname =>
    obtain ⟨hi, -⟩ := room_of_readAnswer (howner.decodes (hcap _)) htype hlen hread
    obtain ⟨u, v, n, hall⟩ :=
      readAnswer_name hi (howner.decodes (hcap _)) htype hne (hname.decodes (hcap _))
    rw [hall] at hread
    split at hread
    . cases hread
      exact ⟨rfl, trivial⟩
    . cases hread

theorem readAnswers_of_sectionAt (h : SectionAt pkt pos as stop)
    (hread : readAnswers malloc fuel pkt as.length pos answers = .ok (stop', all))
    : ∃ new, all = answers ++ new ∧ List.Forall₂ (ReadAs pkt) as new := by
  induction h generalizing answers with
  | nil =>
    cases hread
    exact ⟨[], (List.append_nil _).symm, .nil⟩
  | cons h _ ih =>
    rw [List.length_cons, readAnswers, Mem.bind_eq_ok_iff] at hread
    obtain ⟨⟨ans, next'⟩, hans, hread⟩ := hread
    obtain ⟨rfl, hreadAs⟩ := readAnswer_of_at h hans
    obtain ⟨new, rfl, hnew⟩ := ih hread
    exact ⟨ans :: new, by rw [List.append_assoc]; rfl, .cons hreadAs hnew⟩

end Read

section Printed

/--
The line shows the bytes that `f` makes of those of the record.
-/
def Shows (f : Bytes → Bytes) (a : Answer) (line : AnswerLine) : Prop :=
  ∀ bytes, a.data = .addr bytes → bytes.length = 4 → line.addr = some (f bytes)

theorem eq_longOf_of_loadLong {p : BitVec 64} (h : loadLong rdata = .ok p)
    : p = longOf (rdata.take 8) := by
  rw [loadLong, bind_eq_ok_iff] at h
  obtain ⟨bytes, hbytes, h⟩ := h
  rw [loadRange] at hbytes
  split at hbytes
  . cases hbytes
    cases h
    rfl
  . cases hbytes

theorem shows_reverse_of_printAnswer (h : ReadAs pkt a ans) (hline : printAnswer pkt ans = .ok line)
    : Shows List.reverse a line := by
  intro bytes hdata hbytes
  rw [ReadAs, hdata] at h
  obtain ⟨htype, u, hu⟩ := h
  simp only [printAnswer, bind_eq_ok_iff] at hline
  obtain ⟨len, -, type, htype', hline⟩ := hline
  cases htype.symm.trans htype'
  rw [if_pos (by simp), bind_eq_ok_iff] at hline
  obtain ⟨p, hp, hline⟩ := hline
  cases hline
  have htake : (bytes ++ u).take 8 = bytes ++ u.take 4 := by
    rw [List.take_append, hbytes, List.take_of_length_le (by omega)]
  rw [eq_longOf_of_loadLong hp, hu, htake, inetNtoa_longOf hbytes]

theorem forall₂_of_mapM (h : answers.mapM (printAnswer pkt) = .ok lines)
    : List.Forall₂ (fun ans line => printAnswer pkt ans = .ok line) answers lines := by
  induction answers generalizing lines with
  | nil =>
    cases h
    exact .nil
  | cons ans answers ih =>
    rw [List.mapM_cons, bind_eq_ok_iff] at h
    obtain ⟨line, hline, h⟩ := h
    obtain ⟨lines', hlines, h⟩ := bind_eq_ok_iff.mp h
    cases h
    exact .cons hline (ih hlines)

theorem forall₂_shows_reverse (hread : List.Forall₂ (ReadAs pkt) as answers)
    (hprint : List.Forall₂ (fun ans line => printAnswer pkt ans = .ok line) answers lines)
    : List.Forall₂ (Shows List.reverse) as lines := by
  induction hread generalizing lines with
  | nil =>
    cases hprint
    exact .nil
  | cons h _ ih =>
    cases hprint with
    | cons hline hprint => exact .cons (shows_reverse_of_printAnswer h hline) (ih hprint)

/--
Every address of four bytes in the records reads the same backwards.
-/
def Palindromic (as : List Answer) : Prop :=
  ∀ a ∈ as, ∀ bytes, a.data = .addr bytes → bytes.length = 4 → bytes.reverse = bytes

theorem forall₂_shows_iff (h : List.Forall₂ (Shows List.reverse) as lines)
    : List.Forall₂ (Shows id) as lines ↔ Palindromic as := by
  induction h with
  | nil => simp [Palindromic]
  | cons hline _ ih =>
    rw [List.forall₂_cons, ih]
    simp only [Palindromic, List.forall_mem_cons]
    apply and_congr_left
    intro _
    apply forall_congr'
    intro bytes
    apply forall_congr'
    intro hdata
    apply forall_congr'
    intro hbytes
    rw [hline bytes hdata hbytes, Option.some.injEq]
    rfl

/--
Exactly when every address printed is the one in the response: the answers of a response that is read
and printed follow the question, and line `i` is for answer `i`.
-/
theorem showsAddresses_iff (pkt : Bytes) (start stop : Nat) (as : List Answer)
    (hstart : answersStart pkt = .ok start) (hcount : DnsHeader.ansCount pkt = .ok as.length)
    (hsection : SectionAt pkt start as stop) (malloc : Malloc) (fuel : Nat) (counts : Counts)
    (lines : List AnswerLine) (hprinted : readResponse malloc fuel pkt = .ok (counts, lines))
    : List.Forall₂ (Shows id) as lines ↔ Palindromic as := by
  obtain ⟨q, au, ad, heq⟩ := readResponse_eq malloc hstart hcount
  rw [heq, bind_eq_ok_iff] at hprinted
  obtain ⟨⟨stop', answers⟩, hanswers, hprinted⟩ := hprinted
  obtain ⟨lines', hlines, hprinted⟩ := bind_eq_ok_iff.mp hprinted
  cases hprinted
  obtain ⟨new, rfl, hread⟩ := readAnswers_of_sectionAt hsection hanswers
  exact forall₂_shows_iff (forall₂_shows_reverse hread (forall₂_of_mapM hlines))

def spacious : Malloc where
  block _ n := zeros (n + 8)
  size_le _ n := by
    rw [zeros_length]
    omega

theorem answersStart_addrResponse
    : answersStart addrResponse = .ok (12 + exampleName.wire.length + 5) := by
  decide

theorem readResponse_spacious
    : readResponse spacious 20 addrResponse
      = .ok (⟨1, 1, 0, 0⟩, [⟨exampleName.text, some [4, 3, 2, 1]⟩]) := by
  decide +kernel

theorem showsAddresses_iff_addrResponse
    : List.Forall₂ (Shows id) [exampleAnswer] [⟨exampleName.text, some [4, 3, 2, 1]⟩]
      ↔ Palindromic [exampleAnswer] :=
  showsAddresses_iff addrResponse _ 40 [exampleAnswer] answersStart_addrResponse (by decide)
    addrResponse_sectionAt spacious 20 _ _ readResponse_spacious

/--
The record has the address 1.2.3.4, and 4.3.2.1 is printed.
-/
theorem not_shows_addrResponse
    : ∃ start counts lines, answersStart addrResponse = .ok start
      ∧ SectionAt addrResponse start [exampleAnswer] 40 ∧ exampleAnswer.data = .addr [1, 2, 3, 4]
      ∧ readResponse spacious 20 addrResponse = .ok (counts, lines)
      ∧ lines = [⟨exampleName.text, some [4, 3, 2, 1]⟩]
      ∧ ¬List.Forall₂ (Shows id) [exampleAnswer] lines := by
  refine ⟨_, _, _, answersStart_addrResponse, addrResponse_sectionAt, rfl, readResponse_spacious, rfl, ?_⟩
  rw [List.forall₂_cons]
  rintro ⟨h, -⟩
  have := h [1, 2, 3, 4] rfl rfl
  revert this
  decide

end Printed

end Answer

end Dns
