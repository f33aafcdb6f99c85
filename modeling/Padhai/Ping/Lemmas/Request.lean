import Padhai.Ping.Impl.Request
import Padhai.Ping.Lemmas.Checksum

/-!
This module contains the bytes of the requests of `ping`, and that the checksum in each of them is right.
-/

namespace Ping

open Mem OnesComplement

variable {pid : Int} {cnt i n : Nat} {p x a : Bytes} {c : UInt8}

def msgBytes (i n : Nat) : Bytes :=
  (List.range' i n).map fun i => UInt8.ofNat (i + 48)

/--
A request from its id on.
-/
def echo (pid : Int) (cnt : Nat) : Bytes :=
  let id := UInt16.ofInt pid
  let sequence := UInt16.ofNat cnt
  lowByte id :: highByte id :: lowByte sequence :: highByte sequence :: (msgBytes 0 55 ++ [0])

structure IsRequest (pid : Int) (cnt : Nat) (p : Bytes) : Prop where
  bytes : ∃ c d, p = icmpEcho :: 0 :: c :: d :: echo pid cnt
  verifies : checksum p packetSize = .ok 0

theorem fillMsg_append (hx : x.length = Icmphdr.size + i) (ha : a.length = n)
    : fillMsg (x ++ a ++ [c]) i n = .ok (x ++ msgBytes i n ++ [0]) := by
  induction n generalizing x a i with
  | zero =>
    rw [List.length_eq_zero_iff] at ha
    rw [fillMsg, ← hx, ha, List.append_nil, store_append_length]
    simp [msgBytes]
  | succ n ih =>
    obtain ⟨d, a, rfl⟩ := List.exists_cons_of_length_eq_add_one ha
    have hnext := ih (x := x ++ [UInt8.ofNat (i + 48)]) (a := a) (i := i + 1)
      (by simp [hx, Nat.add_assoc]) (by simpa using ha)
    have hbytes : msgBytes i (n + 1) = UInt8.ofNat (i + 48) :: msgBytes (i + 1) n := rfl
    rw [fillMsg, ← hx, List.append_assoc, List.cons_append, store_append_length, ok_bind, hbytes]
    simpa using hnext

theorem echo_length : (echo pid cnt).length = 60 := by
  simp [echo, msgBytes]

theorem request_eq (pid : Int) (cnt : Nat) : ∃ p, request pid cnt = .ok p ∧ IsRequest pid cnt p := by
  let id := UInt16.ofInt pid
  let sequence := UInt16.ofNat cnt
  let blank : Bytes := [icmpEcho, 0, 0, 0]
  let named : Bytes := [icmpEcho, 0, 0, 0, lowByte id, highByte id]
  have htype : store (zeros packetSize) Icmphdr.type icmpEcho = .ok (blank ++ 0 :: 0 :: zeros 58) := rfl
  have hid : storeShort (blank ++ 0 :: 0 :: zeros 58) Icmphdr.id id
      = .ok (named ++ [0, 0] ++ zeros 55 ++ [0]) :=
    storeShort_append blank (zeros 58) 0 0 id
  have hmsg : fillMsg (named ++ [0, 0] ++ zeros 55 ++ [0]) 0 (packetSize - Icmphdr.size - 1)
      = .ok (named ++ 0 :: 0 :: (msgBytes 0 55 ++ [0])) :=
    fillMsg_append rfl rfl
  have hsequence : storeShort (named ++ 0 :: 0 :: (msgBytes 0 55 ++ [0])) Icmphdr.sequence sequence
      = .ok ([icmpEcho, 0] ++ 0 :: 0 :: echo pid cnt) :=
    storeShort_append named (msgBytes 0 55 ++ [0]) 0 0 sequence
  obtain ⟨w, hsum, hw⟩ := checksum_eq (b := [icmpEcho, 0] ++ 0 :: 0 :: echo pid cnt)
    (by simp [echo_length])
  have hlen : ([icmpEcho, 0] ++ 0 :: 0 :: echo pid cnt).length = packetSize := by
    simp [echo_length, packetSize]
  rw [hlen] at hsum
  have hstored : storeShort ([icmpEcho, 0] ++ 0 :: 0 :: echo pid cnt) Icmphdr.checksum w
      = .ok (icmpEcho :: 0 :: lowByte w :: highByte w :: echo pid cnt) :=
    storeShort_append [icmpEcho, 0] (echo pid cnt) 0 0 w
  refine ⟨_, ?_, ⟨⟨lowByte w, highByte w, rfl⟩, ?_⟩⟩
  . rw [request, htype, ok_bind, hid, ok_bind, hmsg, ok_bind, hsequence, ok_bind,
      hsum, ok_bind, hstored]
  . exact checksum_of_stored (x := [icmpEcho, 0]) rfl (by simp [echo_length])
      ((littleEndian_stored w).trans hw)

theorem requests_eq (pid : Int) (cnt rounds : Nat)
    : ∃ pckts, requests pid cnt rounds = .ok pckts
      ∧ List.Forall₂ (IsRequest pid) (List.range' cnt rounds) pckts := by
  induction rounds generalizing cnt with
  | zero => exact ⟨[], rfl, .nil⟩
  | succ rounds ih =>
    obtain ⟨p, hp, hrequest⟩ := request_eq pid cnt
    obtain ⟨pckts, hpckts, hrequests⟩ := ih (cnt + 1)
    refine ⟨p :: pckts, ?_, .cons hrequest hrequests⟩
    rw [requests, hp, ok_bind, hpckts, ok_bind, pure_eq_ok]

theorem ping_eq (pid : Int)
    : ∃ pckts, ping pid = .ok pckts ∧ List.Forall₂ (IsRequest pid) [1, 2, 3, 4] pckts :=
  requests_eq pid 1 (pingAttempts - 1)

theorem exists_of_forall₂ {α β : Type} {R : α → β → Prop} {as : List α} {bs : List β} {b : β}
    (h : List.Forall₂ R as bs) (hb : b ∈ bs) : ∃ a, R a b := by
  induction h with
  | nil => simp at hb
  | cons hR _ ih =>
    rcases List.mem_cons.mp hb with rfl | hb
    . exact ⟨_, hR⟩
    . exact ih hb

theorem loadShort_id_of_isRequest (h : IsRequest pid cnt p)
    : loadShort p Icmphdr.id = .ok (UInt16.ofInt pid) := by
  obtain ⟨⟨c, d, rfl⟩, -⟩ := h
  have := loadShort_append [icmpEcho, 0, c, d]
    (lowByte (UInt16.ofNat cnt) :: highByte (UInt16.ofNat cnt) :: (msgBytes 0 55 ++ [0]))
    (lowByte (UInt16.ofInt pid)) (highByte (UInt16.ofInt pid))
  rw [littleEndian_stored, UInt16.ofNat_toNat] at this
  exact this

end Ping
