import Padhai.Lib.OnesComplement
import Padhai.Ping.Impl.Checksum

/-!
This module contains that `checksum` is the one's complement checksum of its bytes as they go over the
wire, and that a packet with its checksum in place has the checksum 0.
-/

namespace Ping

open Mem OnesComplement

variable {b x y : Bytes} {k : Nat} {c d : UInt8} {s : UInt32} {w : UInt16}

section Accumulate

theorem loadShort_append (x y : Bytes) (c d : UInt8)
    : loadShort (x ++ c :: d :: y) x.length = .ok (UInt16.ofNat (littleEndian c d)) := by
  have hd : load (x ++ c :: d :: y) (x.length + 1) = .ok d := load_append_length_add rfl
  simp only [loadShort, load_append_length, ok_bind, hd, pure_eq_ok, littleEndian]

theorem toNat_add_littleEndian (h : s.toNat + littleEndian c d < 2 ^ 32)
    : (s + (UInt16.ofNat (littleEndian c d)).toUInt32).toNat = s.toNat + littleEndian c d := by
  have hle := littleEndian_le c d
  rw [UInt32.toNat_add, UInt16.toNat_toUInt32, UInt16.toNat_ofNat_of_lt' (Nat.lt_succ_of_le hle)]
  exact Nat.mod_eq_of_lt h

theorem toNat_add_last (h : s.toNat + c.toNat < 2 ^ 32)
    : (s + c.toUInt32).toNat = s.toNat + c.toNat := by
  rw [UInt32.toNat_add, UInt8.toNat_toUInt32]
  exact Nat.mod_eq_of_lt h

/--
The sum does not wrap as long as it fits.
-/
theorem addWords_append (hfits : s.toNat + wordSum littleEndian y < 2 ^ 32)
    : ∃ t, (addWords (x ++ y) y.length x.length s >>= addLast (x ++ y)) = .ok t
      ∧ t.toNat = s.toNat + wordSum littleEndian y := by
  fun_induction wordSum littleEndian y generalizing x s with
  | case1 c d y ih =>
    have hadd := toNat_add_littleEndian (s := s) (c := c) (d := d) (by omega)
    obtain ⟨t, hsum, ht⟩ := ih (x := x ++ [c, d])
      (s := s + (UInt16.ofNat (littleEndian c d)).toUInt32) (by omega)
    refine ⟨t, ?_, by omega⟩
    simpa [addWords, loadShort_append] using hsum
  | case2 c =>
    have hc : littleEndian c 0 = c.toNat := by simp [littleEndian]
    rw [hc] at hfits ⊢
    refine ⟨s + c.toUInt32, ?_, toNat_add_last hfits⟩
    simp [addWords, addLast]
  | case3 => exact ⟨s, by simp [addWords, addLast], by simp⟩

theorem accumulate_eq (hb : b.length ≤ 131074)
    : ∃ s, accumulate b b.length = .ok s ∧ s.toNat = wordSum littleEndian b := by
  have hle := wordSum_le littleEndian_le b
  have hfits : (0 : UInt32).toNat + wordSum littleEndian b < 2 ^ 32 := by
    rw [UInt32.toNat_zero]
    omega
  obtain ⟨s, hsum, hs⟩ := addWords_append (x := []) hfits
  exact ⟨s, hsum, by simpa using hs⟩

end Accumulate

section Checksum

theorem toNat_shiftRight_sixteen (s : UInt32) : (s >>> 16).toNat = s.toNat / 65536 := by
  rw [UInt32.toNat_shiftRight]
  exact Nat.shiftRight_eq_div_pow s.toNat 16

theorem toNat_and_ffff (s : UInt32) : (s &&& 0xFFFF).toNat = s.toNat % 65536 := by
  rw [UInt32.toNat_and]
  exact Nat.and_two_pow_sub_one_eq_mod s.toNat 16

theorem toNat_foldTwice (s : UInt32) : (foldTwice s).toNat % 65536 = endAround 65536 s.toNat := by
  have hs := s.toNat_lt
  have hfirst : ((s >>> 16) + (s &&& 0xFFFF)).toNat = s.toNat / 65536 + s.toNat % 65536 := by
    rw [UInt32.toNat_add, toNat_shiftRight_sixteen, toNat_and_ffff]
    omega
  have hsecond : (foldTwice s).toNat
      = s.toNat / 65536 + s.toNat % 65536 + (s.toNat / 65536 + s.toNat % 65536) / 65536 := by
    rw [foldTwice, UInt32.toNat_add, toNat_shiftRight_sixteen, hfirst]
    omega
  rw [hsecond]
  by_cases h1 : s.toNat < 65536
  . rw [endAround_of_lt h1]
    omega
  . rw [endAround_of_le (by decide) (by omega)]
    by_cases h2 : s.toNat / 65536 + s.toNat % 65536 < 65536
    . rw [endAround_of_lt h2]
      omega
    . rw [endAround_of_le (by decide) (by omega), endAround_of_lt (by omega)]
      omega

theorem toNat_complement (t : UInt32) : (~~~t).toUInt16.toNat = 65535 - t.toNat % 65536 := by
  have ht := t.toNat_lt
  rw [UInt32.toNat_toUInt16, UInt32.toNat_not]
  simp only [UInt32.size]
  omega

theorem checksum_eq (hb : b.length ≤ 131074)
    : ∃ w, checksum b b.length = .ok w
      ∧ w.toNat = 65535 - endAround 65536 (wordSum littleEndian b) := by
  obtain ⟨s, hsum, hs⟩ := accumulate_eq hb
  refine ⟨(~~~foldTwice s).toUInt16, ?_, ?_⟩
  . rw [checksum, hsum, ok_bind, pure_eq_ok]
  . rw [toNat_complement, toNat_foldTwice, hs]

end Checksum

section Stored

theorem storeShort_append (x y : Bytes) (c d : UInt8) (w : UInt16)
    : storeShort (x ++ c :: d :: y) x.length w = .ok (x ++ lowByte w :: highByte w :: y) := by
  have hsplit : x ++ lowByte w :: d :: y = (x ++ [lowByte w]) ++ d :: y := by simp
  have hlen : x.length + 1 = (x ++ [lowByte w]).length := by simp
  rw [storeShort, store_append_length, ok_bind, hsplit, hlen, store_append_length]
  simp

theorem littleEndian_stored (w : UInt16) : littleEndian (lowByte w) (highByte w) = w.toNat := by
  have hw := w.toNat_lt
  rw [littleEndian, lowByte, highByte, UInt8.toNat_ofNat', UInt8.toNat_ofNat']
  omega

def rfc1071 (b : Bytes) : Nat :=
  65535 - endAround 65536 (wordSum bigEndian b)

/--
The bytes of the word in memory are those of the number, the high one first.
-/
def StoredInOrder (w : UInt16) (m : Nat) : Prop :=
  ∀ (x y : Bytes) (c d : UInt8), storeShort (x ++ c :: d :: y) x.length w
    = .ok (x ++ UInt8.ofNat (m / 256) :: UInt8.ofNat (m % 256) :: y)

theorem complement_swap {e : Nat} (he : e < 65536) : 65535 - swap e = swap (65535 - e) := by
  have hhi : (65535 - e) / 256 = 255 - e / 256 := by omega
  have hlo : (65535 - e) % 256 = 255 - e % 256 := by omega
  rw [swap, swap, hhi, hlo]
  omega

theorem storedInOrder_swap (w : UInt16) : StoredInOrder w (swap w.toNat) := by
  have hw := w.toNat_lt
  have hhi : swap w.toNat / 256 = w.toNat % 256 := by
    unfold swap
    omega
  have hlo : swap w.toNat % 256 = w.toNat / 256 := by
    unfold swap
    omega
  have hbyte : UInt8.ofNat (w.toNat % 256) = lowByte w := by
    rw [lowByte, ← UInt8.toNat_inj, UInt8.toNat_ofNat', UInt8.toNat_ofNat', Nat.mod_mod]
  intro x y c d
  rw [storeShort_append, hhi, hlo, hbyte, highByte]

theorem checksum_rfc1071 (b : Bytes) (hb : b.length ≤ 131074)
    : ∃ s w, accumulate b b.length = .ok s ∧ s.toNat = wordSum littleEndian b
      ∧ (foldTwice s).toNat % 65536 = endAround 65536 s.toNat
      ∧ checksum b b.length = .ok w ∧ PingSynchronous.checksum b b.length = .ok w
      ∧ StoredInOrder w (rfc1071 b) := by
  obtain ⟨s, hsum, hs⟩ := accumulate_eq hb
  obtain ⟨w, hsumw, hw⟩ := checksum_eq hb
  refine ⟨s, w, hsum, hs, toNat_foldTwice s, hsumw, hsumw, ?_⟩
  rw [rfc1071, endAround_bigEndian, complement_swap (endAround_lt (by decide)), ← hw]
  exact storedInOrder_swap w

theorem checksum_rfc1071_oddLength
    : ∃ s w, accumulate [8, 0, 1] 3 = .ok s ∧ s.toNat = 9
      ∧ (foldTwice s).toNat % 65536 = endAround 65536 s.toNat
      ∧ checksum [8, 0, 1] 3 = .ok w ∧ PingSynchronous.checksum [8, 0, 1] 3 = .ok w
      ∧ StoredInOrder w (rfc1071 [8, 0, 1]) :=
  checksum_rfc1071 [8, 0, 1] (by decide)

/--
With the complement of its sum in place of a zero, a packet's sum is a multiple of 65535, and not 0.
-/
theorem checksum_of_stored (hx : x.length % 2 = 0) (hlen : (x ++ c :: d :: y).length ≤ 131074)
    (hw : littleEndian c d = 65535 - endAround 65536 (wordSum littleEndian (x ++ 0 :: 0 :: y)))
    : checksum (x ++ c :: d :: y) (x ++ c :: d :: y).length = .ok 0 := by
  obtain ⟨v, hsum, hv⟩ := checksum_eq hlen
  have hzero : littleEndian 0 0 = 0 := rfl
  rw [wordSum_append hx, wordSum, hzero, Nat.zero_add, ← wordSum_append hx] at hw
  have hchanged : wordSum littleEndian (x ++ c :: d :: y)
      = littleEndian c d + wordSum littleEndian (x ++ y) := by
    rw [wordSum_append hx, wordSum_append hx, wordSum]
    omega
  have hlt := endAround_lt (b := 65536) (s := wordSum littleEndian (x ++ y)) (by decide)
  have hmod := endAround_modEq (b := 65536) (s := wordSum littleEndian (x ++ y)) (by decide)
  have hnil := endAround_eq_zero_iff (b := 65536) (s := wordSum littleEndian (x ++ y))
  have hfull : endAround 65536 (wordSum littleEndian (x ++ c :: d :: y)) = 65535 := by
    rw [hchanged, hw]
    apply endAround_of_dvd (by decide)
    . unfold Nat.ModEq at hmod
      omega
    . omega
  rw [hfull] at hv
  rw [hsum, UInt16.toNat_inj.mp (hv.trans UInt16.toNat_zero.symm)]

theorem split_at_short (hc : b[k]? = some c) (hd : b[k + 1]? = some d)
    : ∃ x y, b = x ++ c :: d :: y ∧ k = x.length := by
  obtain ⟨hk, hc⟩ := List.getElem?_eq_some_iff.mp hc
  obtain ⟨hk', hd⟩ := List.getElem?_eq_some_iff.mp hd
  refine ⟨b.take k, b.drop (k + 1 + 1), ?_, ?_⟩
  . rw [← hc, ← hd, ← List.drop_eq_getElem_cons hk', ← List.drop_eq_getElem_cons hk,
      List.take_append_drop]
  . rw [List.length_take]
    omega

theorem checksum_stored (b : Bytes) (k : Nat) (hlen : b.length ≤ 131074) (heven : k % 2 = 0)
    (hlo : b[k]? = some 0) (hhi : b[k + 1]? = some 0)
    : ∃ w b', checksum b b.length = .ok w ∧ storeShort b k w = .ok b'
      ∧ checksum b' b.length = .ok 0 := by
  obtain ⟨x, y, rfl, rfl⟩ := split_at_short hlo hhi
  obtain ⟨w, hsum, hw⟩ := checksum_eq hlen
  refine ⟨w, _, hsum, storeShort_append x y 0 0 w, ?_⟩
  have hverify := checksum_of_stored (c := lowByte w) (d := highByte w) heven (by simpa using hlen)
    ((littleEndian_stored w).trans hw)
  simpa using hverify

theorem checksum_stored_request
    : ∃ w b', checksum [8, 0, 0, 0, 1] 5 = .ok w ∧ storeShort [8, 0, 0, 0, 1] 2 w = .ok b'
      ∧ checksum b' 5 = .ok 0 :=
  checksum_stored [8, 0, 0, 0, 1] 2 (by decide) rfl rfl rfl

end Stored

end Ping
