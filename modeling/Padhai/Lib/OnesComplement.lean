import Mathlib.Data.Nat.ModEq
import Mathlib.Tactic.Common

/-!
This module contains one's complement sums: the carry that is added back until a sum fits, the value below
the base that this ends with, and sums of 16-bit words in both byte orders.
-/

namespace OnesComplement

variable {b s t r : Nat}

theorem fold_lt (h : 1 < b ∧ b ≤ s) : s / b + s % b < s := by
  have hdiv := Nat.div_add_mod s b
  have hpos : 0 < s / b := Nat.div_pos h.2 (by omega)
  have := Nat.mul_le_mul_right (s / b) h.1
  omega

def endAround (b s : Nat) : Nat :=
  if 1 < b ∧ b ≤ s then
    endAround b (s / b + s % b)
  else
    s
termination_by s
decreasing_by
  apply fold_lt
  assumption

section EndAround

theorem endAround_of_lt (h : s < b) : endAround b s = s := by
  rw [endAround, if_neg (by omega)]

theorem endAround_of_le (hb : 1 < b) (h : b ≤ s) : endAround b s = endAround b (s / b + s % b) := by
  rw [endAround, if_pos ⟨hb, h⟩]

theorem fold_modEq (hb : 1 < b) (s : Nat) : s / b + s % b ≡ s [MOD b - 1] := by
  have hone : 1 ≡ b [MOD b - 1] := (Nat.modEq_iff_dvd' (by omega)).mpr (Nat.dvd_refl _)
  calc s / b + s % b = 1 * (s / b) + s % b := by rw [Nat.one_mul]
    _ ≡ b * (s / b) + s % b [MOD b - 1] := (hone.mul_right _).add_right _
    _ = s := Nat.div_add_mod s b

theorem endAround_lt (hb : 1 < b) : endAround b s < b := by
  fun_induction endAround b s with
  | case1 s h ih => exact ih
  | case2 s h => omega

theorem endAround_modEq (hb : 1 < b) : endAround b s ≡ s [MOD b - 1] := by
  fun_induction endAround b s with
  | case1 s h ih => exact ih.trans (fold_modEq hb s)
  | case2 s h => exact .refl s

theorem endAround_eq_zero_iff : endAround b s = 0 ↔ s = 0 := by
  fun_induction endAround b s with
  | case1 s h ih =>
    have hdiv : 0 < s / b := Nat.div_pos h.2 (by omega)
    omega
  | case2 s h => rfl

theorem eq_of_modEq (hr : r < b) (ht : t < b) (hmod : r ≡ t [MOD b - 1]) (h0 : r = 0 ↔ t = 0)
    : r = t := by
  by_cases hzero : r = 0
  . rw [hzero, h0.mp hzero]
  . have hpos : t ≠ 0 := mt h0.mpr hzero
    have hsub : r - 1 ≡ t - 1 [MOD b - 1] := by
      apply Nat.ModEq.add_right_cancel' 1
      rwa [Nat.sub_add_cancel (by omega), Nat.sub_add_cancel (by omega)]
    have := hsub.eq_of_lt_of_lt (by omega) (by omega)
    omega

/--
The value below the base that is congruent to the sum, and 0 for the sum 0 only.
-/
theorem eq_endAround (hb : 1 < b) (hr : r < b) (hmod : r ≡ s [MOD b - 1]) (h0 : r = 0 ↔ s = 0)
    : r = endAround b s :=
  eq_of_modEq hr (endAround_lt hb) (hmod.trans (endAround_modEq hb).symm)
    (h0.trans endAround_eq_zero_iff.symm)

theorem endAround_of_dvd (hb : 1 < b) (hdvd : b - 1 ∣ s) (hs : s ≠ 0) : endAround b s = b - 1 := by
  symm
  apply eq_endAround hb (by omega)
  . exact ((Nat.modEq_zero_iff_dvd.mpr (Nat.dvd_refl _)).trans
      (Nat.modEq_zero_iff_dvd.mpr hdvd).symm)
  . omega

/--
A sum with its complement is all ones.
-/
theorem endAround_add_complement (hb : 1 < b) : endAround b (s + (b - 1 - endAround b s)) = b - 1 := by
  have hlt := endAround_lt (s := s) hb
  have hmod := endAround_modEq (s := s) hb
  have hzero := endAround_eq_zero_iff (b := b) (s := s)
  apply endAround_of_dvd hb
  . apply Nat.modEq_zero_iff_dvd.mp
    calc s + (b - 1 - endAround b s) ≡ endAround b s + (b - 1 - endAround b s) [MOD b - 1] :=
          hmod.symm.add_right _
      _ = b - 1 := by omega
      _ ≡ 0 [MOD b - 1] := Nat.modEq_zero_iff_dvd.mpr (Nat.dvd_refl _)
  . omega

end EndAround

section Words

/--
The sum of the 16-bit words, where an odd last byte has a zero behind it.
-/
def wordSum (word : UInt8 → UInt8 → Nat) : List UInt8 → Nat
  | c :: d :: s => word c d + wordSum word s
  | [c] => word c 0
  | [] => 0

def bigEndian (c d : UInt8) : Nat :=
  c.toNat * 256 + d.toNat

def littleEndian (c d : UInt8) : Nat :=
  c.toNat + d.toNat * 256

def swap (w : Nat) : Nat :=
  w % 256 * 256 + w / 256

variable {word : UInt8 → UInt8 → Nat} {x y : List UInt8} {c d : UInt8}

theorem littleEndian_le (c d : UInt8) : littleEndian c d ≤ 65535 := by
  have := c.toNat_lt
  have := d.toNat_lt
  unfold littleEndian
  omega

theorem wordSum_le (hword : ∀ c d, word c d ≤ 65535) (x : List UInt8)
    : wordSum word x ≤ 65535 * ((x.length + 1) / 2) := by
  fun_induction wordSum word x with
  | case1 c d s ih =>
    have := hword c d
    simp only [List.length_cons]
    omega
  | case2 c =>
    have := hword c 0
    simpa using this
  | case3 => simp

theorem wordSum_append (hx : x.length % 2 = 0) : wordSum word (x ++ y) = wordSum word x + wordSum word y := by
  fun_induction wordSum word x with
  | case1 c d s ih =>
    simp only [List.length_cons] at hx
    rw [List.cons_append, List.cons_append, wordSum, ih (by omega), Nat.add_assoc]
  | case2 c => simp at hx
  | case3 => rw [List.nil_append, Nat.zero_add]

theorem wordSum_concat_zero (hx : x.length % 2 = 1) : wordSum word (x ++ [0]) = wordSum word x := by
  fun_induction wordSum word x with
  | case1 c d s ih =>
    simp only [List.length_cons] at hx
    rw [List.cons_append, List.cons_append, wordSum, ih (by omega)]
  | case2 c => simp [wordSum]
  | case3 => simp at hx

theorem bigEndian_modEq (c d : UInt8) : bigEndian c d ≡ 256 * littleEndian c d [MOD 65535] := by
  unfold Nat.ModEq bigEndian littleEndian
  omega

theorem wordSum_modEq (x : List UInt8)
    : wordSum bigEndian x ≡ 256 * wordSum littleEndian x [MOD 65535] := by
  fun_induction wordSum bigEndian x with
  | case1 c d s ih =>
    rw [wordSum, Nat.mul_add]
    exact (bigEndian_modEq c d).add ih
  | case2 c => exact bigEndian_modEq c 0
  | case3 => rfl

theorem swap_modEq (w : Nat) : swap w ≡ 256 * w [MOD 65535] := by
  unfold Nat.ModEq swap
  omega

theorem wordSum_eq_zero_iff (x : List UInt8)
    : wordSum bigEndian x = 0 ↔ wordSum littleEndian x = 0 := by
  fun_induction wordSum bigEndian x with
  | case1 c d s ih =>
    rw [wordSum, Nat.add_eq_zero_iff, Nat.add_eq_zero_iff, ih, bigEndian, littleEndian]
    omega
  | case2 c =>
    rw [wordSum, bigEndian, littleEndian]
    omega
  | case3 => rfl

/--
Exchanging the bytes of every word exchanges the bytes of their one's complement sum.
-/
theorem endAround_bigEndian (x : List UInt8)
    : endAround 65536 (wordSum bigEndian x) = swap (endAround 65536 (wordSum littleEndian x)) := by
  have hlt : endAround 65536 (wordSum littleEndian x) < 65536 := endAround_lt (by decide)
  have hmod := endAround_modEq (s := wordSum littleEndian x) (b := 65536) (by decide)
  have hzero := endAround_eq_zero_iff (b := 65536) (s := wordSum littleEndian x)
  generalize endAround 65536 (wordSum littleEndian x) = r at *
  symm
  apply eq_endAround (by decide)
  . unfold swap
    omega
  . calc swap r ≡ 256 * r [MOD 65535] := swap_modEq r
      _ ≡ 256 * wordSum littleEndian x [MOD 65535] := hmod.mul_left 256
      _ ≡ wordSum bigEndian x [MOD 65535] := (wordSum_modEq x).symm
  . rw [wordSum_eq_zero_iff, ← hzero]
    unfold swap
    omega

end Words

end OnesComplement
