import Mathlib.Data.List.Infix
import Padhai.Lib.Mem

/-!
This module contains components that are used by one call after the other, each of which returns
something or faults, and when such a component refines an abstract one: in every prefix of the calls it
does not fault, returns what the abstract one returns and is in a state related to the abstract state.
-/

namespace Calls

variable {ε κ ω σ τ : Type}

def run (call : σ → κ → Except ε (ω × σ)) : List κ → σ → Except ε (List ω × σ)
  | [], s => .ok ([], s)
  | c :: cs, s => do
    let (out, s) ← call s c
    let (outs, s) ← run call cs s
    return (out :: outs, s)

def specRun (spec : τ → κ → ω × τ) : List κ → τ → List ω × τ
  | [], t => ([], t)
  | c :: cs, t =>
    let (out, t) := spec t c
    let (outs, t) := specRun spec cs t
    (out :: outs, t)

def Refines (call : σ → κ → Except ε (ω × σ)) (spec : τ → κ → ω × τ) (Related : σ → τ → Prop)
    (cs : List κ) (s : σ) (t : τ) : Prop :=
  ∀ p, p <+: cs
    → ∃ s', run call p s = .ok ((specRun spec p t).1, s') ∧ Related s' (specRun spec p t).2

variable {call : σ → κ → Except ε (ω × σ)} {spec : τ → κ → ω × τ} {Related : σ → τ → Prop}
  {c : κ} {cs : List κ} {s s' : σ} {t : τ}

theorem forall_prefix_nil {P : List κ → Prop} : (∀ p, p <+: [] → P p) ↔ P [] := by
  simp

theorem forall_prefix_cons {P : List κ → Prop}
    : (∀ p, p <+: c :: cs → P p) ↔ P [] ∧ ∀ p, p <+: cs → P (c :: p) := by
  constructor
  . intro h
    exact ⟨h [] List.nil_prefix, fun p hp => h (c :: p) ((List.prefix_cons_inj c).mpr hp)⟩
  . rintro ⟨hnil, hcons⟩ p hp
    rcases List.prefix_cons_iff.mp hp with rfl | ⟨q, rfl, hq⟩
    . exact hnil
    . exact hcons q hq

theorem run_cons (h : call s c = .ok ((spec t c).1, s')) {p : List κ} {r : σ}
    : run call (c :: p) s = .ok ((specRun spec (c :: p) t).1, r)
      ↔ run call p s' = .ok ((specRun spec p (spec t c).2).1, r) := by
  simp [run, specRun, h, Mem.bind_eq_ok_iff]

theorem refines_nil : Refines call spec Related [] s t ↔ Related s t := by
  rw [Refines, forall_prefix_nil]
  simp [run, specRun]

theorem Refines.related (h : Refines call spec Related cs s t) : Related s t := by
  obtain ⟨s', hrun, hrelated⟩ := h [] List.nil_prefix
  cases hrun
  exact hrelated

theorem refines_cons (h : call s c = .ok ((spec t c).1, s'))
    : Refines call spec Related (c :: cs) s t
      ↔ Related s t ∧ Refines call spec Related cs s' (spec t c).2 := by
  rw [Refines, forall_prefix_cons]
  simp only [run_cons h]
  simp [run, specRun, Refines]

end Calls
