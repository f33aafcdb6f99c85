import Padhai.Dns.Lemmas.Answers

/-!
This module contains the answer section of a well formed response, where every record is `At` a
position and the next one at the first byte after it, and that the loop over it reads record by record.
-/

namespace Dns

open Mem Label Packet

inductive AnswerData where
  | addr (bytes : Bytes)
  | name (d : Name)

structure Answer where
  owner : Name
  resource : Nat
  data : AnswerData

namespace Answer

def HasName (pkt : Bytes) (pos : Nat) (d : Name) (k : Nat) : Prop :=
  NameAt pkt pos d.labels k ∧ d.All LabelByte

inductive At (pkt : Bytes) (pos : Nat) : Answer → (next : Nat) → Prop where
  | addr {owner : Name} {bytes : Bytes} {k : Nat} (howner : HasName pkt pos owner k)
    (htype : RData.type pkt (pos + k) = .ok 1)
    (hlen : RData.dataLen pkt (pos + k) = .ok bytes.length)
    (hbytes : bytes <+: pkt.drop (pos + k + 10))
    : At pkt pos ⟨owner, pos + k, .addr bytes⟩ (pos + k + 10 + bytes.length)
  | name {owner d : Name} {k len type : Nat} (howner : HasName pkt pos owner k)
    (htype : RData.type pkt (pos + k) = .ok type) (hne : type ≠ 1)
    (hlen : RData.dataLen pkt (pos + k) = .ok len) (hname : HasName pkt (pos + k + 10) d len)
    : At pkt pos ⟨owner, pos + k, .name d⟩ (pos + k + 10 + len)

inductive SectionAt (pkt : Bytes) : (pos : Nat) → List Answer → (stop : Nat) → Prop where
  | nil {pos : Nat} : SectionAt pkt pos [] pos
  | cons {pos next stop : Nat} {a : Answer} {as : List Answer} (h : At pkt pos a next)
    (rest : SectionAt pkt next as stop) : SectionAt pkt pos (a :: as) stop

def HeldBy (a : Answer) (ans : ResRecord) : Prop :=
  (∃ u, ans.name = a.owner.text ++ 0 :: u) ∧ ans.resource = a.resource
    ∧ match a.data with
      | .addr bytes => ∃ u, ans.rdata = bytes ++ u
      | .name d => ∃ u, ans.rdata = d.text ++ 0 :: u

variable {malloc : Malloc} {pkt : Bytes} {pos next stop i k : Nat} {a : Answer} {as : List Answer}
  {answers : List ResRecord}

theorem HasName.decodes {d : Name} {cap : Nat} (h : HasName pkt pos d k) (hcap : 256 ≤ cap)
    : Decodes pkt pos cap d.wire k :=
  decodes_of_nameAt h.1 h.2 hcap

theorem decode_wire (d : Name) : decode ucharLen d.wire = d.text :=
  d.decode_wire fun _ hk => ucharLen_ofNat hk

theorem readAnswer_at (h : At pkt pos a next) (hi : i < 20)
    (hroom : ∀ k n, n < (malloc.block k n).length)
    : ∃ fuel₀, ∀ fuel, fuel₀ ≤ fuel →
        ∃ ans, readAnswer malloc fuel pkt i pos = .ok (ans, next) ∧ a.HeldBy ans := by
  have hcap := fun k => malloc.size_le k maxNameLen
  cases h with
  | addr howner htype hlen hbytes =>
    obtain ⟨u, v, n, -, hall⟩ :=
      readAnswer_addr hi (howner.decodes (hcap _)) htype hlen hbytes (hroom _ _)
    refine ⟨n + 1, fun fuel hfuel => ⟨_, (hall fuel).trans (if_pos (by omega)), ?_⟩⟩
    exact ⟨⟨u, by rw [decode_wire]⟩, rfl, ⟨_, rfl⟩⟩
  | name howner htype hne hlen hname =>
    obtain ⟨u, v, n, hall⟩ :=
      readAnswer_name hi (howner.decodes (hcap _)) htype hne (hname.decodes (hcap _))
    refine ⟨n + 1, fun fuel hfuel => ⟨_, (hall fuel).trans (if_pos (by omega)), ?_⟩⟩
    exact ⟨⟨u, by rw [decode_wire]⟩, rfl, ⟨v, by simp only [decode_wire]⟩⟩

theorem readAnswers_sectionAt (h : SectionAt pkt pos as stop) (hle : i + as.length ≤ 20)
    (hroom : ∀ k n, n < (malloc.block k n).length)
    : ∃ fuel₀, ∀ fuel, fuel₀ ≤ fuel → ∀ answers : List ResRecord, answers.length = i →
        ∀ j ≤ as.length, ∃ mid new, SectionAt pkt mid (as.drop j) stop
          ∧ readAnswers malloc fuel pkt as.length pos answers
            = readAnswers malloc fuel pkt (as.length - j) mid (answers ++ new)
          ∧ List.Forall₂ HeldBy (as.take j) new := by
  induction h generalizing i with
  | @nil pos =>
    refine ⟨0, fun fuel _ answers _ j hj => ⟨pos, [], ?_, ?_, ?_⟩⟩
    . simpa using SectionAt.nil
    . simp
    . simp
  | @cons pos next stop a as h rest ih =>
    rw [List.length_cons] at hle
    obtain ⟨f₁, hone⟩ := readAnswer_at h (i := i) (by omega) hroom
    obtain ⟨f₂, hall⟩ := ih (i := i + 1) (by omega)
    refine ⟨max f₁ f₂, fun fuel hfuel answers hlen j hj => ?_⟩
    match j with
    | 0 => exact ⟨pos, [], .cons h rest, by simp, by simp⟩
    | j + 1 =>
      obtain ⟨ans, hans, hheld⟩ := hone fuel (by omega)
      obtain ⟨mid, new, hmid, hread, hnew⟩ := hall fuel (by omega) (answers ++ [ans]) (by simp [hlen])
        j (by simpa using hj)
      refine ⟨mid, ans :: new, hmid, ?_, .cons hheld hnew⟩
      rw [List.length_cons, readAnswers, hlen, hans, ok_bind, Nat.add_sub_add_right]
      simpa using hread

/--
The answer section of a well formed response is read record by record: the reader starts behind the
question, stands at the first byte of record `i` when `i` records have been read, each into its
element of `answers`, and ends behind the last one.
-/
theorem readAnswers_wellFormed (pkt : Bytes) (question : Name) (as : List Answer) (stop : Nat)
    (hquestion : question.wire ++ [0, 0, 1] <+: pkt.drop 12) (hq : question.All (· ≠ 0))
    (hcount : DnsHeader.ansCount pkt = .ok as.length) (hle : as.length ≤ 20)
    (hsection : SectionAt pkt (12 + question.wire.length + 5) as stop) (malloc : Malloc)
    (hroom : ∀ k n, n < (malloc.block k n).length)
    : ∃ start count fuel₀, answersStart pkt = .ok start ∧ DnsHeader.ansCount pkt = .ok count
        ∧ SectionAt pkt start as stop
        ∧ ∀ fuel, fuel₀ ≤ fuel →
          (∀ i ≤ count, ∃ pos answers, SectionAt pkt pos (as.drop i) stop
            ∧ readAnswers malloc fuel pkt count start []
              = readAnswers malloc fuel pkt (count - i) pos answers
            ∧ List.Forall₂ HeldBy (as.take i) answers)
          ∧ ∃ answers, readAnswers malloc fuel pkt count start [] = .ok (stop, answers)
            ∧ List.Forall₂ HeldBy as answers := by
  obtain ⟨f, hall⟩ := readAnswers_sectionAt (i := 0) hsection (by omega) hroom
  have h0 := question.zero_notMem_wire hq (by simp)
  refine ⟨_, as.length, f, ?_, hcount, hsection, ?_⟩
  . rw [answersStart_eq_ok_iff, questionName_of_prefix hquestion h0]
    exact ⟨hquestion.subset (by simp), rfl⟩
  . intro fuel hfuel
    have hall := hall fuel hfuel [] rfl
    simp only [List.nil_append] at hall
    refine ⟨hall, ?_⟩
    obtain ⟨mid, answers, hmid, hread, hheld⟩ := hall as.length (Nat.le_refl _)
    rw [List.drop_length] at hmid
    rw [List.take_length] at hheld
    cases hmid
    exact ⟨answers, by rw [hread, Nat.sub_self, readAnswers], hheld⟩

section Examples

def roomy : Malloc where
  block _ n := zeros (n + 1)
  size_le _ n := by
    rw [zeros_length]
    omega

def exampleAnswer : Answer := ⟨exampleName, 26, .addr [1, 2, 3, 4]⟩

theorem addrResponse_sectionAt
    : SectionAt addrResponse (12 + exampleName.wire.length + 5) [exampleAnswer] 40 := by
  have root : NameAt addrResponse 19 [] 1 := .root (by decide)
  have cc : NameAt addrResponse 16 [⟨[99, 99], by decide, by decide⟩] 4 :=
    .label (l := ⟨[99, 99], by decide, by decide⟩) (by decide) root
  have www : NameAt addrResponse 12 exampleName.labels 8 :=
    .label (l := ⟨[119, 119, 119], by decide, by decide⟩) (by decide) cc
  have owner : HasName addrResponse 24 exampleName 2 :=
    ⟨.pointer (c := 192) (d := 12) (by decide) (by decide) (by decide) (by decide) www,
      exampleName_labelByte⟩
  exact .cons (.addr owner (by decide) (by decide) (by decide)) .nil

theorem readAnswers_wellFormed_addrResponse
    : ∃ start fuel₀, answersStart addrResponse = .ok start
        ∧ ∀ fuel, fuel₀ ≤ fuel → ∃ answers,
          readAnswers roomy fuel addrResponse 1 start [] = .ok (40, answers)
            ∧ List.Forall₂ HeldBy [exampleAnswer] answers := by
  obtain ⟨start, count, fuel₀, hstart, hcount, -, hall⟩ := readAnswers_wellFormed addrResponse
    exampleName [exampleAnswer] 40 (by decide) (fun l hl c hc => (exampleName_plain l hl c hc).1)
    (by decide) (by decide) addrResponse_sectionAt roomy (fun _ n => by simp [roomy])
  obtain rfl : count = 1 := Except.ok.inj (hcount.symm.trans (by decide))
  exact ⟨start, fuel₀, hstart, fun fuel hfuel => (hall fuel hfuel).2⟩

def zeroLabelName : Name where
  labels := [⟨[97, 0, 0, 1], by decide, by decide⟩]
  ne_nil := by decide
  length_le := by decide

def driftingResponse : Bytes :=
  [0, 1, 129, 128, 0, 1, 0, 1, 0, 0, 0, 0, 4, 97, 0, 0, 1, 0, 0, 1, 0, 1,
    2, 99, 99, 0, 0, 1, 0, 1, 0, 0, 0, 60, 0, 4, 1, 2, 3, 4]

theorem answersStart_driftingResponse
    : verifyDnsBuffer (padTo 512 driftingResponse) 40 = .ok 0
      ∧ zeroLabelName.wire ++ [0, 0, 1] <+: driftingResponse.drop 12
      ∧ DnsHeader.ansCount driftingResponse = .ok 1
      ∧ (∃ a, SectionAt driftingResponse (12 + zeroLabelName.wire.length + 5) [a] 40)
      ∧ answersStart driftingResponse ≠ .ok (12 + zeroLabelName.wire.length + 5) := by
  refine ⟨?_, by decide, by decide, ?_, by decide⟩
  . rw [verifyDnsBuffer_eq_zero_iff (padTo_length (by decide))]
    decide +kernel
  . let cc : Name := ⟨[⟨[99, 99], by decide, by decide⟩], by decide, by decide⟩
    have root : NameAt driftingResponse 25 [] 1 := .root (by decide)
    have owner : HasName driftingResponse 22 cc 4 :=
      ⟨.label (l := ⟨[99, 99], by decide, by decide⟩) (by decide) root, by decide⟩
    exact ⟨⟨cc, 26, .addr [1, 2, 3, 4]⟩,
      .cons (.addr owner (by decide) (by decide) (by decide)) .nil⟩

end Examples

end Answer

end Dns
