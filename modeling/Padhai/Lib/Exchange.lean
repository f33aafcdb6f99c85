import Mathlib.Data.List.Induction
import Mathlib.Tactic.Common

/-!
This module contains the exchange of two elements of a list, and that a list is turned around by exchanging its
first element with the last one, the second one with the last but one and so on up to its middle.
-/

namespace Exchange

variable {α : Type} {xs ys zs : List α} {x y : α} {i j : Nat}

def exchange (xs : List α) (i j : Nat) : List α :=
  match xs[i]?, xs[j]? with
  | some x, some y => (xs.set i y).set j x
  | _, _ => xs

section Exchange

theorem exchange_of_getElem? (hx : xs[i]? = some x) (hy : xs[j]? = some y)
    : exchange xs i j = (xs.set i y).set j x := by
  rw [exchange, hx, hy]

theorem exchange_append_left (hi : i < xs.length) (hj : j < xs.length)
    : exchange (xs ++ zs) i j = exchange xs i j ++ zs := by
  have hx := List.getElem?_eq_getElem hi
  have hy := List.getElem?_eq_getElem hj
  have hx' : (xs ++ zs)[i]? = some xs[i] := (List.getElem?_append_left hi).trans hx
  have hy' : (xs ++ zs)[j]? = some xs[j] := (List.getElem?_append_left hj).trans hy
  rw [exchange_of_getElem? hx hy, exchange_of_getElem? hx' hy', List.set_append_left _ _ hi,
    List.set_append_left]
  rw [List.length_set]
  exact hj

theorem exchange_append (us vs ws : List α) (x y : α)
    : exchange (us ++ x :: (vs ++ y :: ws)) us.length (us.length + (vs.length + 1))
      = us ++ y :: (vs ++ x :: ws) := by
  have hx : (us ++ x :: (vs ++ y :: ws))[us.length]? = some x := by
    simp
  have hy : (us ++ x :: (vs ++ y :: ws))[us.length + (vs.length + 1)]? = some y := by
    simp
  rw [exchange_of_getElem? hx hy]
  simp

end Exchange

section Turning

/--
The first and the last `i` elements of `xs` have changed places, in opposite order, to give `ys`.
-/
def Turning (xs : List α) (i : Nat) (ys : List α) : Prop :=
  ∃ us ms vs, us.length = i ∧ vs.length = i ∧ xs = us ++ ms ++ vs ∧ ys = vs.reverse ++ ms ++ us.reverse

theorem turning_zero (xs : List α) : Turning xs 0 xs :=
  ⟨[], xs, [], rfl, rfl, by simp, by simp⟩

theorem Turning.length_eq (h : Turning xs i ys) : ys.length = xs.length := by
  obtain ⟨us, ms, vs, hus, hvs, rfl, rfl⟩ := h
  simp only [List.length_append, List.length_reverse]
  omega

theorem Turning.exchange (h : Turning xs i ys) (hi : i < xs.length / 2)
    : Turning xs (i + 1) (exchange ys i (xs.length - i - 1)) := by
  obtain ⟨us, ms, vs, hus, hvs, rfl, rfl⟩ := h
  rw [List.length_append, List.length_append] at hi ⊢
  induction ms using List.bidirectionalRec with
  | nil =>
    rw [List.length_nil] at hi
    omega
  | singleton a =>
    rw [List.length_singleton] at hi
    omega
  | cons_append x ms y _ =>
    refine ⟨us ++ [x], ms, y :: vs, ?_, ?_, ?_, ?_⟩
    . rw [List.length_append, List.length_singleton, hus]
    . rw [List.length_cons, hvs]
    . simp
    . have hlast : us.length + (x :: (ms ++ [y])).length + vs.length - i - 1
          = vs.reverse.length + (ms.length + 1) := by
        simp only [List.length_cons, List.length_append, List.length_nil, List.length_reverse]
        omega
      have hexchange := exchange_append vs.reverse ms us.reverse x y
      rw [List.length_reverse, hvs] at hexchange
      rw [hlast, List.length_reverse, hvs]
      simpa using hexchange

theorem Turning.eq_reverse (h : Turning xs i ys) (hi : ¬i < xs.length / 2) : ys = xs.reverse := by
  obtain ⟨us, ms, vs, hus, hvs, rfl, rfl⟩ := h
  rw [List.length_append, List.length_append] at hi
  have hms : ms.reverse = ms := by
    rcases ms with _ | ⟨x, _ | ⟨y, ms⟩⟩
    . rfl
    . rfl
    . simp only [List.length_cons] at hi
      omega
  rw [List.reverse_append, List.reverse_append, hms, List.append_assoc]

end Turning

end Exchange
