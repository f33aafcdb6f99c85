import Padhai.Lib.Loop

/-!
This module contains the simulation of one computation by another: both return, with related results, or both
fail, with related errors. What is simulated step by step is simulated as a whole.
-/

inductive Simulates {ε ε' α α' : Type} (E : ε → ε' → Prop) (R : α → α' → Prop)
    : Except ε α → Except ε' α' → Prop where
  | ok {a : α} {a' : α'} (h : R a a') : Simulates E R (.ok a) (.ok a')
  | error {e : ε} {e' : ε'} (h : E e e') : Simulates E R (.error e) (.error e')

namespace Simulates

variable {ε ε' δ α α' β β' σ σ' : Type} {E : ε → ε' → Prop} {F : δ → ε' → Prop} {R : α → α' → Prop}
  {S : β → β' → Prop} {Q : σ → σ' → Prop} {x y : Except ε α} {x' y' : Except ε' α'} {a : α} {a' : α'}

theorem of_ok (h : Simulates E R x (.ok a')) : ∃ a, x = .ok a ∧ R a a' := by
  cases h with
  | ok h => exact ⟨_, rfl, h⟩

theorem bind {f : α → Except ε β} {f' : α' → Except ε' β'} (h : Simulates E R x x')
    (hf : ∀ a a', R a a' → Simulates E S (f a) (f' a')) : Simulates E S (x >>= f) (x' >>= f') := by
  cases h with
  | ok h => exact hf _ _ h
  | error h => exact .error h

theorem ite {c c' : Prop} [Decidable c] [Decidable c'] (hc : c ↔ c') (hx : c' → Simulates E R x x')
    (hy : ¬c' → Simulates E R y y') : Simulates E R (if c then x else y) (if c' then x' else y') := by
  by_cases h : c'
  . rw [if_pos h, if_pos (hc.mpr h)]
    exact hx h
  . rw [if_neg h, if_neg (mt hc.mp h)]
    exact hy h

theorem mapError {f : ε → δ} (h : Simulates E R x x') (hf : ∀ e e', E e e' → F (f e) e')
    : Simulates F R (x.mapError f) x' := by
  cases h with
  | ok h => exact .ok h
  | error h => exact .error (hf _ _ h)

/--
Two loops whose turns simulate each other, where running out of turns counts as an error.
-/
theorem loop {body : σ → Except ε (σ ⊕ α)} {body' : σ' → Except ε' (σ' ⊕ α')} {s : σ} {s' : σ'} {e : ε}
    {e' : ε'} (hbody : ∀ s s', Q s s' → Simulates E (Sum.LiftRel Q R) (body s) (body' s')) (hs : Q s s')
    (he : E e e') (fuel : Nat)
    : Simulates E R ((Loop.run body fuel s).getD (.error e)) ((Loop.run body' fuel s').getD (.error e')) := by
  induction fuel generalizing s s' with
  | zero => exact .error he
  | succ fuel ih =>
    have h := hbody s s' hs
    rw [Loop.run, Loop.run]
    generalize body s = x at h ⊢
    generalize body' s' = x' at h ⊢
    cases h with
    | error h => exact .error h
    | ok h =>
      cases h with
      | inl h => exact ih h
      | inr h => exact .ok h

end Simulates
