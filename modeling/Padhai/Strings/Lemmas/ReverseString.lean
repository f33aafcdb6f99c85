import Padhai.Lib.Exchange
import Padhai.Strings.Impl.ReverseString

/-!
This module contains that the loop of `reverse_string.c` turns the string in its block around and leaves the rest
of the block as it is.
-/

namespace ReverseString

open Mem Exchange

variable {str stdin xs ys t : Bytes} {x y : UInt8} {s c i len : Nat}

section Swap

theorem xor_xor_right (x y : UInt8) : x ^^^ y ^^^ y = x := by
  rw [UInt8.xor_assoc, UInt8.xor_self, UInt8.xor_zero]

theorem xor_xor_left (x y : UInt8) : x ^^^ y ^^^ x = y := by
  rw [UInt8.xor_comm x y, xor_xor_right]

theorem assignXor_eq {d : Nat} (hx : str[s]? = some x) (hy : str[c]? = some y) (hd : d < str.length)
    : assignXor str d s c = .ok (str.set d (x ^^^ y)) := by
  rw [assignXor, load_of_getElem? hx, ok_bind, load_of_getElem? hy, ok_bind, store_of_lt hd]

theorem swap_eq_exchange (hne : s ≠ c) (hs : s < str.length) (hc : c < str.length)
    : swap str s c = .ok (exchange str s c) := by
  obtain ⟨x, hx⟩ : ∃ x, str[s]? = some x := ⟨str[s], List.getElem?_eq_getElem hs⟩
  obtain ⟨y, hy⟩ : ∃ y, str[c]? = some y := ⟨str[c], List.getElem?_eq_getElem hc⟩
  have hfirst : assignXor str s s c = .ok (str.set s (x ^^^ y)) := assignXor_eq hx hy hs
  have hsecond : assignXor (str.set s (x ^^^ y)) c s c = .ok ((str.set s (x ^^^ y)).set c x) := by
    rw [assignXor_eq (x := x ^^^ y) (y := y), xor_xor_right]
    . rw [List.getElem?_set_self hs]
    . rw [List.getElem?_set_ne hne, hy]
    . rwa [List.length_set]
  have hthird : assignXor ((str.set s (x ^^^ y)).set c x) s s c = .ok ((str.set s y).set c x) := by
    rw [assignXor_eq (x := x ^^^ y) (y := x), xor_xor_left,
      List.set_comm _ _ hne.symm, List.set_set]
    . rw [List.getElem?_set_ne hne.symm, List.getElem?_set_self hs]
    . rw [List.getElem?_set_self]
      rwa [List.length_set]
    . rwa [List.length_set, List.length_set]
  rw [swap, hfirst, ok_bind, hsecond, ok_bind, hthird, exchange_of_getElem? hx hy]

/--
The first assignment already makes a byte zero that both pointers point to.
-/
theorem swap_self (hs : s < str.length) : swap str s s = .ok (str.set s 0) := by
  have hzero {a : Bytes} (ha : s < a.length) : assignXor a s s s = .ok (a.set s 0) := by
    have hx := List.getElem?_eq_getElem ha
    rw [assignXor_eq hx hx ha, UInt8.xor_self]
  have hset : s < (str.set s 0).length := by rwa [List.length_set]
  rw [swap, hzero hs, ok_bind, hzero hset, ok_bind, List.set_set, hzero hset, List.set_set]

end Swap

section Loop

/--
What `swap` gets from the index `i` on.
-/
def swapCalls (len i : Nat) : List (Nat × Nat) :=
  (List.range' i (len / 2 - i)).map fun k => (k, len - k - 1)

theorem swapCalls_cons (hi : i < len / 2) : swapCalls len i = (i, len - i - 1) :: swapCalls len (i + 1) := by
  have hrounds : len / 2 - i = len / 2 - (i + 1) + 1 := by omega
  rw [swapCalls, hrounds, List.range'_succ, List.map_cons, swapCalls]

theorem swapCalls_nil (hi : ¬i < len / 2) : swapCalls len i = [] := by
  have hrounds : len / 2 - i = 0 := by omega
  rw [swapCalls, hrounds, List.range'_zero, List.map_nil]

theorem ne_of_mem_swapCalls {p : Nat × Nat} (hp : p ∈ swapCalls len i) : p.1 ≠ p.2 := by
  rw [swapCalls, List.mem_map] at hp
  obtain ⟨k, hk, rfl⟩ := hp
  rw [List.mem_range'_1] at hk
  dsimp only
  omega

theorem swap_turning (h : Turning xs i ys) (hi : i < xs.length / 2)
    : ∃ zs, Turning xs (i + 1) zs ∧ swap (ys ++ t) i (xs.length - i - 1) = .ok (zs ++ t) := by
  have hlength := h.length_eq
  refine ⟨_, h.exchange hi, ?_⟩
  rw [swap_eq_exchange, exchange_append_left]
  . omega
  . omega
  . omega
  . rw [List.length_append]
    omega
  . rw [List.length_append]
    omega

theorem swaps_eq (h : Turning xs i ys)
    : swaps xs.length i (ys ++ t) = ⟨swapCalls xs.length i, .ok (xs.reverse ++ t)⟩ := by
  -- on the calls that are left, where `Turning` says which bytes have changed places so far
  induction hrounds : xs.length / 2 - i generalizing i ys with
  | zero =>
    have hi : ¬i < xs.length / 2 := by omega
    rw [swaps, if_neg hi, swapCalls_nil hi, h.eq_reverse hi]
    rfl
  | succ rounds ih =>
    have hi : i < xs.length / 2 := by omega
    obtain ⟨zs, hzs, hswap⟩ := swap_turning (t := t) h hi
    rw [swaps, if_pos hi, swapCalls_cons hi, Traced.emit_bind, hswap, Traced.lift_eq, Traced.nil_ok_bind,
      ih hzs (by omega)]

theorem reverse_eq (h : 0 ∉ xs)
    : reverse (xs ++ 0 :: t) = ⟨swapCalls xs.length 0, .ok (xs.reverse ++ 0 :: t)⟩ := by
  rw [reverse, strlen_append_zero h, Traced.lift_eq, Traced.nil_ok_bind, swaps_eq (turning_zero xs)]

end Loop

section Main

/--
The strings the block has room for, without the zero at their end.
-/
structure Str where
  chars : Bytes
  zero_notMem : 0 ∉ chars
  length_lt : chars.length < strLen

theorem zero_notMem_reverse (h : 0 ∉ xs) : 0 ∉ xs.reverse := by
  rwa [List.mem_reverse]

theorem reverse_str (s : Str) (t : Bytes)
    : (reverse (s.chars ++ 0 :: t)).result = .ok (s.chars.reverse ++ 0 :: t)
      ∧ strlen (s.chars.reverse ++ 0 :: t) = .ok s.chars.length
      ∧ (∀ p ∈ (reverse (s.chars ++ 0 :: t)).trace, p.1 ≠ p.2)
      ∧ ∀ str i, i < str.length → swap str i i = .ok (str.set i 0) := by
  rw [reverse_eq s.zero_notMem, strlen_append_zero (zero_notMem_reverse s.zero_notMem), List.length_reverse]
  refine ⟨rfl, rfl, ?_, ?_⟩
  . intro p
    apply ne_of_mem_swapCalls
  . intro str i
    apply swap_self

theorem memset_strLen (hstr : str.length = strLen) : memset str 0 strLen = .ok (zeros strLen) := by
  rw [memset_zero_of_le (Nat.le_of_eq hstr.symm), List.drop_eq_nil_of_le (Nat.le_of_eq hstr), List.append_nil]

theorem gets_zeros (hline : (line stdin).length < strLen)
    : gets (zeros strLen) stdin = .ok (padTo strLen (line stdin)) := by
  unfold gets
  split
  . next h => rw [h, pure_eq_ok, line, List.takeWhile_nil, padTo_nil]
  . have hzeros : strLen = (line stdin ++ [0]).length + (strLen - (line stdin).length - 1) := by
      rw [List.length_append, List.length_singleton]
      omega
    have hcopy := memcpy_append (b := []) (t := zeros (strLen - (line stdin).length - 1))
      (zeros_length (n := (line stdin ++ [0]).length))
    rw [List.nil_append, ← zeros_add, ← hzeros] at hcopy
    rw [padTo_eq_append hline]
    simpa using hcopy

theorem gets_zeros_of_le (hline : strLen ≤ (line stdin).length)
    : gets (zeros strLen) stdin = .error (.outOfRange strLen strLen) := by
  have hstdin : stdin ≠ [] := by
    rintro rfl
    contradiction
  rw [gets, if_neg hstdin, memcpy_eq_error, zeros_length]
  . simp
  . apply Nat.zero_le
  . rw [zeros_length, List.length_append, List.length_singleton]
    omega

theorem main_eq (hstr : str.length = strLen) (hline : (line stdin).length < strLen)
    : main str stdin = ⟨swapCalls (cstr (line stdin)).length 0, .ok (cstr (line stdin)).reverse⟩ := by
  have hzero : 0 ∈ padTo strLen (line stdin) := by simp [padTo_eq_append hline]
  have hcstr : cstr (padTo strLen (line stdin)) = cstr (line stdin) := by
    rw [padTo_eq_append hline, cstr_append]
  obtain ⟨t, ht⟩ := eq_cstr_append (cstr_length_lt hzero)
  rw [hcstr] at ht
  rw [main, memset_strLen hstr, Traced.lift_eq, Traced.nil_ok_bind, gets_zeros hline, Traced.lift_eq,
    Traced.nil_ok_bind, ht, reverse_eq (zero_notMem_cstr _), Traced.mk_ok_bind,
    cstr_append_zero (zero_notMem_reverse (zero_notMem_cstr _)), Traced.pure_eq, List.append_nil]

theorem main_of_le (hstr : str.length = strLen) (hline : strLen ≤ (line stdin).length)
    : main str stdin = ⟨[], .error (.outOfRange strLen strLen)⟩ := by
  rw [main, memset_strLen hstr, Traced.lift_eq, Traced.nil_ok_bind, gets_zeros_of_le hline, Traced.lift_eq,
    Traced.mk_error_bind]

theorem line_append_newline (h : newline ∉ xs) (rest : Bytes) : line (xs ++ newline :: rest) = xs := by
  rw [line, takeWhile_bne_append, takeWhile_bne_of_notMem h]

theorem main_str (s : Str) (rest : Bytes) (hstr : str.length = strLen) (hs : newline ∉ s.chars)
    : main str (s.chars ++ newline :: rest) = ⟨swapCalls s.chars.length 0, .ok s.chars.reverse⟩ := by
  have hline := line_append_newline hs rest
  rw [main_eq hstr, hline, cstr_of_not_mem s.zero_notMem]
  rw [hline]
  exact s.length_lt

end Main

end ReverseString
