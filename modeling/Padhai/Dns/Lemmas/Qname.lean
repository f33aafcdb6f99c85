import Padhai.Dns.Impl.Qname

/-!
This module contains what the functions that read a question name in a packet compute, for every
content of the packet buffer. A name is `Copied` when it fits into an array of 256 bytes with its
zero and is at most one byte longer than the datagram.
-/

namespace Dns

open Mem Label

variable {buffer qname s t : Bytes} {n : UInt32} {i : Nat}

theorem ntohsAt_of_getElem? {hi lo : UInt8} (h₁ : buffer[i]? = some hi)
    (h₂ : buffer[i + 1]? = some lo)
    : ntohsAt buffer i = .ok (hi.toNat * 256 + lo.toNat) := by
  simp [ntohsAt, load_of_getElem? h₁, load_of_getElem? h₂]

theorem lt_of_ntohsAt {x : Nat} (h : ntohsAt buffer i = .ok x) : i + 1 < buffer.length := by
  simp only [ntohsAt, bind_eq_ok_iff] at h
  obtain ⟨hi, -, lo, hlo, -⟩ := h
  exact (List.getElem?_eq_some_iff.mp (load_eq_ok_iff.mp hlo)).1

theorem ntohsAt_of_lt (h : i + 1 < buffer.length) : ∃ x, ntohsAt buffer i = .ok x :=
  ⟨_, ntohsAt_of_getElem? (List.getElem?_eq_getElem (Nat.lt_of_succ_lt h))
    (List.getElem?_eq_getElem h)⟩

theorem ntohsAt_mono {a : Bytes} {x : Nat} (h : a <+: buffer) (hx : ntohsAt a i = .ok x)
    : ntohsAt buffer i = .ok x := by
  simp only [ntohsAt, bind_eq_ok_iff] at hx ⊢
  obtain ⟨hi, hhi, lo, hlo, hx⟩ := hx
  exact ⟨hi, load_of_prefix h hhi, lo, load_of_prefix h hlo, hx⟩

theorem htonsAt_append {a b : Bytes} {c d : UInt8} (x : Nat)
    : htonsAt (a ++ c :: d :: b) a.length x
        = .ok (a ++ UInt8.ofNat (x / 256) :: UInt8.ofNat x :: b) := by
  have := store_append_length (a := a ++ [UInt8.ofNat (x / 256)]) (b := b) (c := d)
    (v := UInt8.ofNat x)
  simp only [htonsAt, store_append_length, ok_bind]
  simpa using this

section CopyQname

def Copied (n : UInt32) (s : Bytes) : Prop :=
  s.length ≤ 255 ∧ s.length ≤ n.toNat + 1

instance : Decidable (Copied n s) := by
  unfold Copied
  infer_instance

theorem copyQname_full {c : UInt8} (hs : s.length = 256)
    : copyQname n (c :: qname) s.length (padTo 256 s) = .error (.outOfRange 256 256) := by
  have hstore : ∀ v, store (padTo 256 s) s.length v = .error (.outOfRange 256 256) := by
    intro v
    rw [store_of_le (by simp [hs]), padTo_length (by omega), hs]
    rfl
  by_cases hc : c = 0 <;> simp [copyQname, hc, hstore]

theorem copyQname_go (hs : s.length ≤ 256) (hn : s.length ≤ n.toNat + 1)
    (hq : 256 < s.length + qname.length)
    : copyQname n qname s.length (padTo 256 s)
        =
      if Copied n (s ++ cstr qname) then
        .ok (some (padTo 256 (s ++ cstr qname)))
      else if n.toNat ≤ 254 then
        .ok none
      else
        .error (.outOfRange 256 256) := by
  induction qname generalizing s with
  | nil =>
    simp at hq
    omega
  | cons c qname ih =>
    by_cases hlt : s.length < 256
    . by_cases hc : c = 0
      . have : Copied n s := ⟨by omega, hn⟩
        simp [copyQname, hc, cstr, store_zero_padTo hlt, this]
      . have hcstr : cstr (c :: qname) = c :: cstr qname := by simp [cstr, hc]
        simp only [copyQname, ne_eq, hc, not_false_eq_true, ↓reduceIte, store_padTo hlt, ok_bind,
          hcstr]
        by_cases hi : n.toNat < s.length
        . -- The byte just stored was one too many for the datagram.
          have hcopied : ¬Copied n (s ++ c :: cstr qname) := by
            simp [Copied]
            omega
          have : n.toNat ≤ 254 := by omega
          simp [hi, hcopied, this]
        . have := ih (s := s ++ [c]) (by simp; omega) (by simp; omega) (by simp at hq ⊢; omega)
          simpa [hi] using this
    . -- The array is full, whether the next byte is a zero or not.
      have hlen : s.length = 256 := by omega
      have hcopied : ¬Copied n (s ++ cstr (c :: qname)) := by
        simp [Copied]
        omega
      have : ¬n.toNat ≤ 254 := by omega
      rw [if_neg hcopied, if_neg this, copyQname_full hlen]

def questionName (buffer : Bytes) : Bytes :=
  cstr (buffer.drop 12)

theorem zero_notMem_questionName (buffer : Bytes) : 0 ∉ questionName buffer :=
  zero_notMem_cstr _

theorem questionName_of_prefix (h : s ++ 0 :: t <+: buffer.drop 12) (h0 : 0 ∉ s)
    : questionName buffer = s := by
  obtain ⟨u, hu⟩ := h
  rw [questionName, ← hu, List.append_assoc, List.cons_append, cstr_append_zero h0]

theorem copyQname_questionName (hb : buffer.length = 512)
    : copyQname n (buffer.drop 12) 0 (zeros 256)
        =
      if Copied n (questionName buffer) then
        .ok (some (padTo 256 (questionName buffer)))
      else if n.toNat ≤ 254 then
        .ok none
      else
        .error (.outOfRange 256 256) := by
  rw [← padTo_nil]
  exact copyQname_go (s := []) (by simp) (by simp) (by simp; omega)

end CopyQname

section Verify

def AsksA (buffer : Bytes) : Prop :=
  buffer[12 + (questionName buffer).length + 1]? = some 0
    ∧ buffer[12 + (questionName buffer).length + 2]? = some 1

instance : Decidable (AsksA buffer) := by
  unfold AsksA
  infer_instance

theorem toNat_eq_one_iff {hi lo : UInt8} : hi.toNat * 256 + lo.toNat = 1 ↔ hi = 0 ∧ lo = 1 := by
  rw [← UInt8.toNat_inj, ← UInt8.toNat_inj]
  have := lo.toNat_lt
  simp
  omega

theorem ntohsAt_qtype (hb : buffer.length = 512) (hs : (questionName buffer).length ≤ 255)
    : ∃ qtype, ntohsAt buffer (12 + ((questionName buffer).length + 1)) = .ok qtype
        ∧ (qtype = 1 ↔ AsksA buffer) := by
  have h₁ : 12 + (questionName buffer).length + 1 < buffer.length := by omega
  have h₂ : 12 + (questionName buffer).length + 2 < buffer.length := by omega
  refine ⟨_, ntohsAt_of_getElem? (List.getElem?_eq_getElem h₁) (List.getElem?_eq_getElem h₂), ?_⟩
  rw [toNat_eq_one_iff, AsksA, List.getElem?_eq_getElem h₁, List.getElem?_eq_getElem h₂]
  simp

theorem verifyDnsBuffer_eq (hb : buffer.length = 512)
    : verifyDnsBuffer buffer n
        =
      if Copied n (questionName buffer) then
        if AsksA buffer then .ok 0 else .ok (-1)
      else if n.toNat ≤ 254 then
        .ok (-1)
      else
        .error (.outOfRange 256 256) := by
  unfold verifyDnsBuffer
  simp only [maxNameLen, sizeofDnsHeader, tA, tidSize, memset_zeros, ok_bind]
  rw [copyQname_questionName hb]
  by_cases hcopied : Copied n (questionName buffer)
  . obtain ⟨qtype, hqtype, hA⟩ := ntohsAt_qtype hb hcopied.1
    have hlen : strlen (padTo 256 (questionName buffer)) = .ok (questionName buffer).length :=
      strlen_padTo (Nat.lt_succ_of_le hcopied.1) (zero_notMem_questionName _)
    simp only [hcopied, ↓reduceIte, ok_bind, hlen, hqtype]
    by_cases h : AsksA buffer
    . simp [h, hA.mpr h]
    . simp [h, mt hA.mp h]
  . by_cases hn : n.toNat ≤ 254 <;> simp [hcopied, hn]

def Accepted (buffer : Bytes) (n : UInt32) : Prop :=
  Copied n (questionName buffer) ∧ AsksA buffer

instance : Decidable (Accepted buffer n) := by
  unfold Accepted
  infer_instance

theorem verifyDnsBuffer_eq_zero_iff (hb : buffer.length = 512)
    : verifyDnsBuffer buffer n = .ok 0 ↔ Accepted buffer n := by
  rw [verifyDnsBuffer_eq hb, Accepted]
  by_cases hcopied : Copied n (questionName buffer) <;> by_cases hA : AsksA buffer
    <;> by_cases hn : n.toNat ≤ 254 <;> simp [hcopied, hA, hn]

end Verify

end Dns
