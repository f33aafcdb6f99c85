import Mathlib.Data.List.Basic
import Mathlib.Tactic.Common

/-!
This module contains runs that log events as they go and that may stop with an error. The events
logged before the error stay in the trace.
-/

structure Traced (ε κ α : Type) where
  trace : List κ
  result : Except ε α

namespace Traced

variable {ε κ α β : Type}

def bind (x : Traced ε κ α) (f : α → Traced ε κ β) : Traced ε κ β :=
  match x.result with
  | .error e => ⟨x.trace, .error e⟩
  | .ok a => ⟨x.trace ++ (f a).trace, (f a).result⟩

instance : Monad (Traced ε κ) where
  pure a := ⟨[], .ok a⟩
  bind := bind

instance : MonadLift (Except ε) (Traced ε κ) where
  monadLift x := ⟨[], x⟩

def emit (k : κ) : Traced ε κ Unit :=
  ⟨[k], .ok ()⟩

@[simp]
theorem pure_eq (a : α) : (pure a : Traced ε κ α) = ⟨[], .ok a⟩ := rfl

@[simp]
theorem lift_eq (x : Except ε α) : (liftM x : Traced ε κ α) = ⟨[], x⟩ := rfl

@[simp]
theorem nil_ok_bind (a : α) (f : α → Traced ε κ β)
    : (Traced.mk [] (.ok a) >>= f) = f a := (rfl)

@[simp]
theorem mk_ok_bind (tr : List κ) (a : α) (f : α → Traced ε κ β)
    : (Traced.mk tr (.ok a) >>= f) = ⟨tr ++ (f a).trace, (f a).result⟩ := (rfl)

@[simp]
theorem mk_error_bind (tr : List κ) (e : ε) (f : α → Traced ε κ β)
    : (Traced.mk tr (.error e) >>= f) = ⟨tr, .error e⟩ := (rfl)

@[simp]
theorem emit_bind (k : κ) (f : Unit → Traced ε κ β)
    : (emit k >>= f) = ⟨k :: (f ()).trace, (f ()).result⟩ := (rfl)

theorem bind_of_error {x : Traced ε κ α} {e : ε} (f : α → Traced ε κ β) (h : x.result = .error e)
    : (x >>= f) = ⟨x.trace, .error e⟩ := by
  obtain ⟨tr, r⟩ := x
  cases h
  rfl

theorem bind_of_ok {x : Traced ε κ α} {a : α} (f : α → Traced ε κ β) (h : x.result = .ok a)
    : (x >>= f) = ⟨x.trace ++ (f a).trace, (f a).result⟩ := by
  obtain ⟨tr, r⟩ := x
  cases h
  rfl

theorem bind_of_eq {x : Traced ε κ α} {tr : List κ} {a : α} {f : α → Traced ε κ β}
    {y : Traced ε κ β} (hx : x = ⟨tr, .ok a⟩) (hy : f a = y)
    : (x >>= f) = ⟨tr ++ y.trace, y.result⟩ := by
  rw [hx, mk_ok_bind, hy]

def Logs (P : κ → Prop) (x : Traced ε κ α) : Prop :=
  ∀ k ∈ x.trace, P k

section Logs

variable {P : κ → Prop}

@[simp]
theorem logs_nil (r : Except ε α) : Logs P (Traced.mk [] r) := by
  simp [Logs]

@[simp]
theorem logs_emit (k : κ) : Logs P (emit k : Traced ε κ Unit) ↔ P k := by
  simp [Logs, emit]

theorem Logs.bind {x : Traced ε κ α} {f : α → Traced ε κ β} (hx : Logs P x)
    (hf : ∀ a, Logs P (f a)) : Logs P (x >>= f) := by
  intro k hk
  match h : x.result with
  | .error e =>
    rw [bind_of_error f h] at hk
    exact hx k hk
  | .ok a =>
    rw [bind_of_ok f h] at hk
    rcases List.mem_append.mp hk with hk | hk
    . exact hx k hk
    . exact hf a k hk

@[simp]
theorem logs_emit_bind {k : κ} {f : Unit → Traced ε κ β}
    : Logs P (emit k >>= f) ↔ P k ∧ Logs P (f ()) := by
  simp [Logs]

@[simp]
theorem logs_nil_bind {r : Except ε α} {f : α → Traced ε κ β}
    : Logs P (Traced.mk [] r >>= f) ↔ ∀ a, r = .ok a → Logs P (f a) := by
  match r with
  | .error e => simp
  | .ok a => simp

@[simp]
theorem logs_ite {c : Prop} [Decidable c] {x y : Traced ε κ α}
    : Logs P (if c then x else y) ↔ (c → Logs P x) ∧ (¬c → Logs P y) := by
  split <;> simp_all

end Logs

theorem id_map_eq (x : Traced ε κ α) : id <$> x = x := by
  obtain ⟨tr, _ | a⟩ := x
  . rfl
  . show Traced.mk (tr ++ []) _ = _
    simp

theorem bind_bind {γ : Type} (x : Traced ε κ α) (f : α → Traced ε κ β) (g : β → Traced ε κ γ)
    : x >>= f >>= g = x >>= fun a => f a >>= g := by
  obtain ⟨tr, _ | a⟩ := x
  . rfl
  . match h : (f a).result with
    | .error e => simp [bind_of_error, h]
    | .ok b => simp [bind_of_ok, h]

instance : LawfulMonad (Traced ε κ) :=
  .mk' _ id_map_eq (fun _ _ => rfl) bind_bind

end Traced
