import Mathlib.Data.List.Induction
import Mathlib.Order.MinMax
import Mathlib.Tactic.Common

/-!
This module contains the search for the greatest value in a list, with what belongs to it, where only a
strictly greater value takes the place of the one that was found before.
-/

namespace ArgMax

variable {α β γ : Type} [LinearOrder β] {f : α → β} {g : α → γ} {best : β × γ} {a b : α} {xs : List α}

def improve (f : α → β) (g : α → γ) (best : β × γ) (a : α) : β × γ :=
  if f a > best.1 then
    (f a, g a)
  else
    best

/--
Of the elements with the greatest value `a` is the first.
-/
def FirstMax (f : α → β) (xs : List α) (a : α) : Prop :=
  ∃ before after, xs = before ++ a :: after ∧ (∀ x ∈ before, f x < f a) ∧ ∀ x ∈ after, f x ≤ f a

section FirstMax

theorem FirstMax.mem (h : FirstMax f xs a) : a ∈ xs := by
  obtain ⟨before, after, rfl, -, -⟩ := h
  exact List.mem_append_right before List.mem_cons_self

theorem FirstMax.le (h : FirstMax f xs a) : ∀ x ∈ xs, f x ≤ f a := by
  obtain ⟨before, after, rfl, hbefore, hafter⟩ := h
  rw [List.forall_mem_append, List.forall_mem_cons]
  exact ⟨fun x hx => le_of_lt (hbefore x hx), le_refl _, hafter⟩

theorem FirstMax.snoc_of_le (h : FirstMax f xs a) (hle : f b ≤ f a) : FirstMax f (xs ++ [b]) a := by
  obtain ⟨before, after, rfl, hbefore, hafter⟩ := h
  refine ⟨before, after ++ [b], by simp, hbefore, ?_⟩
  rw [List.forall_mem_append, List.forall_mem_singleton]
  exact ⟨hafter, hle⟩

theorem firstMax_snoc (h : ∀ x ∈ xs, f x < f b) : FirstMax f (xs ++ [b]) b :=
  ⟨xs, [], rfl, h, by simp⟩

end FirstMax

section Improve

theorem improve_of_lt (h : best.1 < f a) : improve f g best a = (f a, g a) := by
  rw [improve, if_pos h]

theorem improve_of_le (h : f a ≤ best.1) : improve f g best a = best := by
  rw [improve, if_neg (not_lt_of_ge h)]

theorem foldl_improve_of_forall_le (h : ∀ a ∈ xs, f a ≤ best.1) : xs.foldl (improve f g) best = best := by
  induction xs with
  | nil => rfl
  | cons a xs ih =>
    obtain ⟨ha, hxs⟩ := List.forall_mem_cons.mp h
    rw [List.foldl_cons, improve_of_le ha, ih hxs]

theorem foldl_improve_of_exists_lt (h : ∃ a ∈ xs, best.1 < f a)
    : ∃ a, FirstMax f xs a ∧ xs.foldl (improve f g) best = (f a, g a) := by
  induction xs using List.reverseRecOn with
  | nil =>
    obtain ⟨a, ha, -⟩ := h
    contradiction
  | append_singleton xs b ih =>
    rw [List.foldl_append, List.foldl_cons, List.foldl_nil]
    by_cases hxs : ∃ a ∈ xs, best.1 < f a
    . obtain ⟨a, hmax, hfold⟩ := ih hxs
      rw [hfold]
      rcases lt_or_ge (f a) (f b) with hlt | hge
      . exact ⟨b, firstMax_snoc fun x hx => lt_of_le_of_lt (hmax.le x hx) hlt, improve_of_lt hlt⟩
      . exact ⟨a, hmax.snoc_of_le hge, improve_of_le hge⟩
    . have hle : ∀ a ∈ xs, f a ≤ best.1 := by
        intro a ha
        exact le_of_not_gt fun hlt => hxs ⟨a, ha, hlt⟩
      have hb : best.1 < f b := by
        obtain ⟨a, ha, hlt⟩ := h
        rcases List.mem_append.mp ha with ha | ha
        . exact absurd ⟨a, ha, hlt⟩ hxs
        . rwa [List.mem_singleton.mp ha] at hlt
      rw [foldl_improve_of_forall_le hle, improve_of_lt hb]
      exact ⟨b, firstMax_snoc fun x hx => lt_of_le_of_lt (hle x hx) hb, rfl⟩

end Improve

end ArgMax
