import Padhai.Lib.Mem
import Padhai.Lib.Simulation

/-!
This module contains a queue in an array, from the index `front` up to the index `rear`. Both only go up, so a
cell that was left is not used again, and the cells from `rear` on still hold the null that the array was
cleared with.
-/

structure ArrayQueue (ν : Type) where
  cells : List ν
  front : Nat
  rear : Nat
  deriving DecidableEq, Repr

namespace ArrayQueue

open Mem

variable {ν : Type} {null x : ν} {xs : List ν} {q : ArrayQueue ν}

def cleared (size : Nat) (null : ν) : ArrayQueue ν :=
  ⟨List.replicate size null, 0, 0⟩

def push (q : ArrayQueue ν) (x : ν) : Checked (ArrayQueue ν) :=
  if q.rear < q.cells.length then
    .ok { q with cells := q.cells.set q.rear x, rear := q.rear + 1 }
  else
    .error (.outOfRange q.cells.length q.rear)

def pop (q : ArrayQueue ν) : Checked (ν × ArrayQueue ν) :=
  match q.cells[q.front]? with
  | some x => .ok (x, { q with front := q.front + 1 })
  | none => .error (.outOfRange q.cells.length q.front)

structure Holds (q : ArrayQueue ν) (null : ν) (xs : List ν) : Prop where
  rear : q.rear = q.front + xs.length
  rear_le : q.rear ≤ q.cells.length
  cells : q.cells.drop q.front = xs ++ List.replicate (q.cells.length - q.rear) null

theorem holds_cleared (size : Nat) (null : ν) : Holds (cleared size null) null [] := by
  constructor
  all_goals simp [cleared]

theorem Holds.rear_lt {n : Nat} (h : Holds q null xs) (hroom : q.front + (xs ++ [x]).length ≤ n) : q.rear < n := by
  rw [List.length_append, List.length_singleton] at hroom
  rw [h.rear]
  exact hroom

theorem Holds.push (h : Holds q null xs) (x : ν) (hroom : q.rear < q.cells.length)
    : ∃ q', push q x = .ok q' ∧ Holds q' null (xs ++ [x]) ∧ q'.front = q.front
      ∧ q'.cells.length = q.cells.length := by
  refine ⟨_, if_pos hroom, ⟨?_, ?_, ?_⟩, rfl, List.length_set⟩
  . rw [List.length_append, ← Nat.add_assoc, ← h.rear, List.length_singleton]
  . rw [List.length_set]
    exact hroom
  . have hfree : q.cells.length - q.rear = q.cells.length - (q.rear + 1) + 1 := by
      omega
    have hindex : q.rear - q.front = xs.length := by
      rw [h.rear, Nat.add_sub_cancel_left]
    have hle : q.front ≤ q.rear := Nat.le.intro h.rear.symm
    rw [List.drop_set, if_neg (Nat.not_lt.mpr hle), h.cells, hindex, hfree, List.length_set,
      List.replicate_succ, List.set_append_right _ _ (Nat.le_refl _), Nat.sub_self, List.set_cons_zero,
      List.append_assoc, List.singleton_append]

theorem Holds.push_full (h : Holds q null xs) (hfull : q.cells.length < q.front + xs.length + 1)
    : ArrayQueue.push q x = .error (.outOfRange q.cells.length q.cells.length) := by
  have hrear := h.rear
  have hle := h.rear_le
  rw [ArrayQueue.push, if_neg (by omega)]
  congr 3
  omega

theorem Holds.pop (h : Holds q null (x :: xs))
    : ∃ q', pop q = .ok (x, q') ∧ Holds q' null xs ∧ q'.front = q.front + 1
      ∧ q'.cells.length = q.cells.length := by
  have hx : q.cells[q.front]? = some x := by
    rw [← List.head?_drop, h.cells]
    rfl
  refine ⟨{ q with front := q.front + 1 }, by rw [ArrayQueue.pop, hx], ⟨?_, h.rear_le, ?_⟩, rfl, rfl⟩
  . rw [h.rear, List.length_cons, Nat.add_comm xs.length 1, ← Nat.add_assoc]
  . rw [← List.tail_drop, h.cells]
    rfl

theorem Holds.pop_empty (h : Holds q null [])
    : ArrayQueue.pop q = if q.front < q.cells.length then .ok (null, { q with front := q.front + 1 })
      else .error (.outOfRange q.cells.length q.cells.length) := by
  have hrear : q.rear = q.front := h.rear
  have hle := h.rear_le
  split
  . next hlt =>
    have hnull : q.cells[q.front]? = some null := by
      rw [← List.head?_drop, h.cells, List.nil_append, List.head?_replicate, if_neg (by omega)]
    rw [ArrayQueue.pop, hnull]
  . next hge =>
    rw [ArrayQueue.pop, List.getElem?_eq_none (by omega)]
    dsimp only
    congr 3
    omega

section Related

variable {μ : Type} {R : ν → μ → Prop} {p : ArrayQueue μ} {y : μ}

/--
Two queues at the same indices with related values in their cells.
-/
structure Related (R : ν → μ → Prop) (q : ArrayQueue ν) (p : ArrayQueue μ) : Prop where
  length : q.cells.length = p.cells.length
  cells : ∀ (i : Nat) x y, q.cells[i]? = some x → p.cells[i]? = some y → R x y
  front : q.front = p.front
  rear : q.rear = p.rear

theorem related_cleared (size : Nat) (h : R x y) : Related R (cleared size x) (cleared size y) := by
  constructor
  case cells =>
    intro i x' y' hx hy
    rw [cleared, List.getElem?_replicate] at hx hy
    split at hx
    . cases hx
      rw [if_pos (by assumption)] at hy
      cases hy
      exact h
    . cases hx
  all_goals simp [cleared]

theorem Related.push (h : Related R q p) (hxy : R x y) : Simulates Eq (Related R) (push q x) (push p y) := by
  rw [ArrayQueue.push, ArrayQueue.push, h.length, h.rear]
  refine .ite Iff.rfl (fun hlt => .ok ⟨?_, ?_, h.front, rfl⟩) fun _ => .error rfl
  . rw [List.length_set, List.length_set, h.length]
  . intro i x' y' hx hy
    rw [List.getElem?_set] at hx hy
    by_cases hi : p.rear = i
    . rw [if_pos hi, if_pos (h.length ▸ hlt)] at hx
      rw [if_pos hi, if_pos hlt] at hy
      cases hx
      cases hy
      exact hxy
    . rw [if_neg hi] at hx hy
      exact h.cells i x' y' hx hy

theorem Related.pop (h : Related R q p)
    : Simulates Eq (fun a b => R a.1 b.1 ∧ Related R a.2 b.2) (pop q) (pop p) := by
  rw [ArrayQueue.pop, ArrayQueue.pop]
  by_cases hlt : p.front < p.cells.length
  . have hy := List.getElem?_eq_getElem hlt
    rw [← h.length, ← h.front] at hlt
    have hx := List.getElem?_eq_getElem hlt
    rw [hx, hy]
    refine .ok ⟨h.cells q.front _ _ hx ?_, h.length, h.cells, congrArg (· + 1) h.front, h.rear⟩
    rw [h.front]
    exact hy
  . have hy := List.getElem?_eq_none (Nat.not_lt.mp hlt)
    rw [← h.length, ← h.front] at hlt
    rw [List.getElem?_eq_none (Nat.not_lt.mp hlt), hy]
    exact .error (by rw [h.length, h.front])

end Related

end ArrayQueue
