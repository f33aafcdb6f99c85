import Mathlib.Data.List.Count
import Mathlib.Data.List.Infix
import Mathlib.Tactic.Common

/-!
This module contains the lines of a text, each with the separator that ends it: that they make up the text, how
often the separator occurs in some of them, and that a line with nothing else follows another separator.
-/

namespace Lines

variable {α : Type} {sep c : α} {s l : List α} {ls : List (List α)}

section IsLine

def IsLine (sep : α) (l : List α) : Prop :=
  ∃ b, l = b ++ [sep] ∧ sep ∉ b

theorem isLine_singleton : IsLine sep [sep] :=
  ⟨[], rfl, List.not_mem_nil⟩

theorem IsLine.cons (h : IsLine sep l) (hc : c ≠ sep) : IsLine sep (c :: l) := by
  obtain ⟨b, rfl, hb⟩ := h
  refine ⟨c :: b, rfl, ?_⟩
  rw [List.mem_cons, not_or]
  exact ⟨hc.symm, hb⟩

theorem exists_concat_of_isLine (h : ∀ l ∈ ls, IsLine sep l) : ∃ u, sep :: ls.flatten = u ++ [sep] := by
  rcases List.eq_nil_or_concat' ls with rfl | ⟨ms, l, rfl⟩
  . exact ⟨[], rfl⟩
  . obtain ⟨b, rfl, -⟩ := h l (by simp)
    exact ⟨sep :: ms.flatten ++ b, by simp⟩

theorem infix_of_singleton_mem (h : ∀ l ∈ ls, IsLine sep l) (hmem : [sep] ∈ ls)
    : [sep, sep] <:+: sep :: ls.flatten := by
  obtain ⟨as, bs, rfl⟩ := List.append_of_mem hmem
  obtain ⟨u, hu⟩ := exists_concat_of_isLine (List.forall_mem_append.mp h).1
  refine ⟨u, bs.flatten, ?_⟩
  rw [List.flatten_append, ← List.cons_append, hu]
  simp

end IsLine

section Lines

variable [DecidableEq α]

def lines (sep : α) : List α → List (List α)
  | [] => []
  | c :: s =>
    if c = sep then
      [c] :: lines sep s
    else
      match lines sep s with
      | [] => [[c]]
      | l :: ls => (c :: l) :: ls

def lastLines (sep : α) (n : Nat) (s : List α) : List (List α) :=
  (lines sep s).drop ((lines sep s).length - n)

def linesBefore (sep : α) (n : Nat) (s : List α) : List (List α) :=
  (lines sep s).take ((lines sep s).length - n)

theorem flatten_lines (sep : α) (s : List α) : (lines sep s).flatten = s := by
  induction s with
  | nil => rfl
  | cons c s ih =>
    rw [lines]
    split
    . rw [List.flatten_cons, ih, List.singleton_append]
    . split
      . next hnil =>
        rw [hnil] at ih
        rw [← ih]
        rfl
      . next l ls hcons =>
        rw [hcons, List.flatten_cons] at ih
        rw [List.flatten_cons, List.cons_append, ih]

theorem flatten_linesBefore_append (sep : α) (n : Nat) (s : List α)
    : (linesBefore sep n s).flatten ++ (lastLines sep n s).flatten = s := by
  rw [linesBefore, lastLines, ← List.flatten_append, List.take_append_drop, flatten_lines]

theorem length_lastLines (sep : α) (n : Nat) (s : List α)
    : (lastLines sep n s).length = min n (lines sep s).length := by
  rw [lastLines, List.length_drop]
  omega

theorem isLine_of_mem_lines (hs : s.getLast? = some sep) : ∀ l ∈ lines sep s, IsLine sep l := by
  induction s with
  | nil => contradiction
  | cons c s ih =>
    rw [lines]
    cases s with
    | nil =>
      rw [List.getLast?_singleton, Option.some.injEq] at hs
      rw [hs, if_pos rfl]
      exact List.forall_mem_singleton.mpr isLine_singleton
    | cons d s =>
      rw [List.getLast?_cons_cons] at hs
      split
      . next hc =>
        rw [hc]
        exact List.forall_mem_cons.mpr ⟨isLine_singleton, ih hs⟩
      . next hc =>
        have hflatten := flatten_lines sep (d :: s)
        cases hlines : lines sep (d :: s) with
        | nil =>
          rw [hlines] at hflatten
          contradiction
        | cons l ls =>
          rw [hlines] at ih
          obtain ⟨hl, hls⟩ := List.forall_mem_cons.mp (ih hs)
          exact List.forall_mem_cons.mpr ⟨hl.cons hc, hls⟩

theorem count_flatten (h : ∀ l ∈ ls, IsLine sep l) : ls.flatten.count sep = ls.length := by
  induction ls with
  | nil => rfl
  | cons l ls ih =>
    obtain ⟨⟨b, rfl, hb⟩, hls⟩ := List.forall_mem_cons.mp h
    rw [List.flatten_cons, List.count_append, List.count_append, List.count_eq_zero_of_not_mem hb,
      List.count_singleton_self, ih hls, List.length_cons, Nat.zero_add, Nat.add_comm]

end Lines

end Lines
