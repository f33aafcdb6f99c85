import Mathlib.Data.Nat.Digits.Lemmas

/-!
This module contains the addition of two numbers digit by digit, the least significant one first: what holds of
the digits so far and the carry while it goes on, and of all digits in the end.
-/

namespace Digits

open Nat (ofDigits)

variable {b c : Nat} {xs ys zs us vs : List Nat}

def NoLeadingZero (xs : List Nat) : Prop :=
  xs.getLast? ≠ some 0

/--
The digits are those of the sum, of which there is one more than of the longer number exactly if the sum does
not fit in as many.
-/
structure IsSum (b : Nat) (xs ys zs : List Nat) : Prop where
  digits : ∀ z ∈ zs, z < b
  value : ofDigits b zs = ofDigits b xs + ofDigits b ys
  length : zs.length = max xs.length ys.length
    + if b ^ max xs.length ys.length ≤ ofDigits b xs + ofDigits b ys then 1 else 0
  noLeadingZero : NoLeadingZero xs → NoLeadingZero ys → NoLeadingZero zs

/--
Of `xs` and `ys` the digits `us` and `vs` are left when those of the sum so far are `zs` and the carry is `c`.
-/
structure Adding (b : Nat) (xs ys us vs zs : List Nat) (c : Nat) : Prop where
  left : ∀ u ∈ us, u < b
  right : ∀ v ∈ vs, v < b
  digits : ∀ z ∈ zs, z < b
  carry : c ≤ 1
  value : ofDigits b zs + b ^ zs.length * (ofDigits b us + ofDigits b vs + c) = ofDigits b xs + ofDigits b ys
  length : zs.length + max us.length vs.length = max xs.length ys.length

def headDigit (us : List Nat) : Nat :=
  us.headD 0

theorem ofDigits_eq_headDigit (us : List Nat) : ofDigits b us = headDigit us + b * ofDigits b us.tail := by
  cases us with
  | nil => rfl
  | cons u us => exact Nat.ofDigits_cons

theorem headDigit_lt (hb : 0 < b) (hus : ∀ u ∈ us, u < b) : headDigit us < b := by
  cases us with
  | nil => exact hb
  | cons u us => exact hus u List.mem_cons_self

theorem adding_start (hxs : ∀ x ∈ xs, x < b) (hys : ∀ y ∈ ys, y < b) : Adding b xs ys xs ys [] 0 := by
  refine ⟨hxs, hys, ?_, Nat.zero_le 1, ?_, ?_⟩
  . simp
  . simp
  . simp

theorem Adding.step (h : Adding b xs ys us vs zs c) (hne : us ≠ [] ∨ vs ≠ []) (hb : 0 < b)
    : Adding b xs ys us.tail vs.tail (zs ++ [(headDigit us + headDigit vs + c) % b])
      ((headDigit us + headDigit vs + c) / b) := by
  have hu := headDigit_lt hb h.left
  have hv := headDigit_lt hb h.right
  have hc := h.carry
  refine ⟨fun u hu => h.left u (List.mem_of_mem_tail hu), fun v hv => h.right v (List.mem_of_mem_tail hv),
    ?_, ?_, ?_, ?_⟩
  . rw [List.forall_mem_append, List.forall_mem_singleton]
    exact ⟨h.digits, Nat.mod_lt _ hb⟩
  . rw [← Nat.lt_succ_iff, Nat.div_lt_iff_lt_mul hb]
    omega
  . generalize hsum : headDigit us + headDigit vs + c = s
    have hdiv := Nat.mod_add_div s b
    have hvalue := h.value
    rw [ofDigits_eq_headDigit us, ofDigits_eq_headDigit vs] at hvalue
    rw [← hvalue, Nat.ofDigits_append, Nat.ofDigits_singleton, List.length_append, List.length_singleton,
      Nat.pow_succ]
    have : headDigit us + b * ofDigits b us.tail + (headDigit vs + b * ofDigits b vs.tail) + c
        = s % b + b * (ofDigits b us.tail + ofDigits b vs.tail + s / b) := by
      rw [Nat.mul_add, Nat.mul_add]
      omega
    rw [this]
    ring
  . rw [← h.length, List.length_append, List.length_singleton, List.length_tail, List.length_tail]
    have : 0 < us.length ∨ 0 < vs.length :=
      hne.imp List.length_pos_iff.mpr List.length_pos_iff.mpr
    omega

def withCarry (zs : List Nat) (c : Nat) : List Nat :=
  if c ≠ 0 then zs ++ [c] else zs

theorem ofDigits_snoc {d : Nat} : ofDigits b (zs ++ [d]) = ofDigits b zs + b ^ zs.length * d := by
  rw [Nat.ofDigits_append, Nat.ofDigits_singleton]

theorem NoLeadingZero.pow_le_ofDigits {n : Nat} (h : NoLeadingZero xs) (hlength : xs.length = n + 1)
    : b ^ n ≤ ofDigits b xs := by
  rcases List.eq_nil_or_concat' xs with rfl | ⟨us, d, rfl⟩
  . contradiction
  . have hd : d ≠ 0 := by
      rintro rfl
      exact h List.getLast?_concat
    have hn : us.length = n := by
      rw [List.length_append] at hlength
      exact Nat.succ.inj hlength
    rw [ofDigits_snoc, hn]
    exact (Nat.le_mul_of_pos_right _ (Nat.pos_of_ne_zero hd)).trans (Nat.le_add_left _ _)

theorem Adding.noLeadingZero (h : Adding b xs ys [] [] zs 0) (hb : 1 < b) (hxs : NoLeadingZero xs)
    (hys : NoLeadingZero ys) : NoLeadingZero zs := by
  intro hlast
  obtain ⟨us, rfl⟩ : ∃ us, zs = us ++ [0] := by
    rcases List.eq_nil_or_concat' zs with rfl | ⟨us, d, rfl⟩
    . contradiction
    . rw [List.getLast?_concat, Option.some.injEq] at hlast
      exact ⟨us, by rw [hlast]⟩
  have hvalue := h.value
  have hlength := h.length
  have hlt := Nat.ofDigits_lt_base_pow_length hb fun u hu => h.digits u (List.mem_append_left _ hu)
  rw [ofDigits_snoc] at hvalue
  simp only [Nat.ofDigits_nil, Nat.mul_zero, Nat.add_zero] at hvalue
  simp only [List.length_append, List.length_singleton, List.length_nil, Nat.max_self] at hlength
  -- The longer number is too large for the digits of the sum without the zero.
  rcases Nat.le_total xs.length ys.length with hle | hle
  . have := hys.pow_le_ofDigits (b := b) (n := us.length) (by omega)
    omega
  . have := hxs.pow_le_ofDigits (b := b) (n := us.length) (by omega)
    omega

theorem Adding.isSum (h : Adding b xs ys [] [] zs c) (hb : 1 < b) : IsSum b xs ys (withCarry zs c) := by
  have hvalue := h.value
  have hlength := h.length
  have hlt := Nat.ofDigits_lt_base_pow_length hb h.digits
  simp only [Nat.ofDigits_nil, Nat.zero_add, List.length_nil, Nat.max_self, Nat.add_zero] at hvalue hlength
  rcases Nat.le_one_iff_eq_zero_or_eq_one.mp h.carry with rfl | rfl
  . refine ⟨h.digits, ?_, ?_, h.noLeadingZero hb⟩
    . rw [withCarry, if_neg (by simp), ← hvalue, Nat.mul_zero, Nat.add_zero]
    . rw [withCarry, if_neg (by simp), hlength, if_neg, Nat.add_zero]
      rw [← hlength, ← hvalue]
      omega
  . have hone : withCarry zs 1 = zs ++ [1] := if_pos Nat.one_ne_zero
    rw [hone]
    refine ⟨?_, ?_, ?_, ?_⟩
    . rw [List.forall_mem_append, List.forall_mem_singleton]
      exact ⟨h.digits, hb⟩
    . rw [ofDigits_snoc, hvalue]
    . rw [List.length_append, List.length_singleton, hlength, if_pos]
      rw [← hlength, ← hvalue]
      omega
    . intro _ _
      rw [NoLeadingZero, List.getLast?_concat]
      simp

end Digits
