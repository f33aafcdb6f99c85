import Padhai.Interview.Impl.Queue
import Padhai.Lib.Calls

/-!
This module contains when the circular queue of `PS_4.c` is a first-in first-out queue: as long as
`front` need not wrap around.
-/

namespace Queue

open Mem

variable {ν : Type} {Q Q' : MyQueue ν} {root x : Option ν} {m n : Nat}

section Fifo

/--
The elements outstanding, and how many have left since there were none.
-/
structure Fifo (ν : Type) where
  contents : List (Option ν)
  served : Nat

def Fifo.empty : Fifo ν := ⟨[], 0⟩

def Fifo.call (f : Fifo ν) : Call ν → Result ν × Fifo ν
  | .enqueue root => (.void, { f with contents := f.contents ++ [root] })
  | .dequeue =>
    match f.contents with
    | [] => (.pointer none, f)
    | [x] => (.pointer x, .empty)
    | x :: y :: xs => (.pointer x, ⟨y :: xs, f.served + 1⟩)

def Fifo.after (calls : List (Call ν)) : Fifo ν :=
  (Calls.specRun Fifo.call calls .empty).2

def InRange (i : Int) : Prop :=
  i = -1 ∨ 0 ≤ i ∧ i ≤ 9

structure Related (Q : MyQueue ν) (f : Fifo ν) : Prop where
  isEmpty : isEmptyQueue Q ↔ f.contents = []
  front : InRange Q.front
  rear : InRange Q.rear

def IsFifo (data : Fin 10 → Option ν) (calls : List (Call ν)) : Prop :=
  Calls.Refines call Fifo.call Related calls (createQueue data) .empty

end Fifo

variable {f : Fifo ν}

section Cell

theorem cell_mod : cell ((n % 10 : Nat) : Int) = .ok (Fin.ofNat 10 n) := by
  have h : (0 : Int) ≤ (n % 10 : Nat) ∧ ((n % 10 : Nat) : Int) < 10 := by
    omega
  rw [cell, dif_pos h]
  rfl

theorem tmod_succ : (((n % 10 : Nat) : Int) + 1).tmod 10 = ((n + 1) % 10 : Nat) := by
  rw [Int.tmod_eq_emod_of_nonneg (by omega)]
  omega

theorem ofNat_ne (h : m < n) (h' : n < m + 10) : Fin.ofNat 10 m ≠ Fin.ofNat 10 n := by
  intro heq
  have := congrArg Fin.val heq
  simp only [Fin.val_ofNat] at this
  omega

theorem enqueue_of_rear (h : (Q.rear + 1).tmod Q.capacity = (n % 10 : Nat))
    : enqueue Q root = .ok { Q with
      data := Function.update Q.data (Fin.ofNat 10 n) root
      rear := (n % 10 : Nat)
      front := if Q.front = -1 then ((n % 10 : Nat) : Int) else Q.front } := by
  simp only [enqueue, h, cell_mod, ok_bind]
  rfl

theorem dequeue_of_front (h : Q.front = n) (hn : n < 10) (hcapacity : Q.capacity = 10)
    : dequeue Q = .ok (Q.data (Fin.ofNat 10 n), if Q.rear = n then
      { Q with front := -1, rear := -1 } else { Q with front := (n + 1 : Nat) }) := by
  have hcell : cell Q.front = .ok (Fin.ofNat 10 n) := by
    rw [h, ← cell_mod, Nat.mod_eq_of_lt hn]
  have hempty : isEmptyQueue Q = false := by
    simp only [isEmptyQueue, decide_eq_false_iff_not]
    omega
  unfold dequeue
  rw [hempty, hcell, hcapacity, h]
  simp only [Bool.false_eq_true, ↓reduceIte, ok_bind, eq_comm (a := Q.rear)]
  split
  . rfl
  . rfl

end Cell

section Represents

/--
The elements stand in the cells from `served` on, around the end of the array.
-/
structure Represents (Q : MyQueue ν) (f : Fifo ν) : Prop where
  capacity : Q.capacity = 10
  length_le : f.contents.length ≤ 10
  served_lt : f.served < 10
  empty : f.contents = [] → Q.front = -1 ∧ Q.rear = -1 ∧ f.served = 0
  front : f.contents ≠ [] → Q.front = f.served
  rear : f.contents ≠ [] → Q.rear = ((f.served + (f.contents.length - 1)) % 10 : Nat)
  data : ∀ k x, f.contents[k]? = some x → Q.data (Fin.ofNat 10 (f.served + k)) = x

theorem represents_createQueue (data : Fin 10 → Option ν) : Represents (createQueue data) .empty := by
  constructor
  all_goals simp [createQueue, Fifo.empty]

theorem Represents.related (h : Represents Q f) : Related Q f := by
  by_cases hempty : f.contents = []
  . obtain ⟨hfront, hrear, -⟩ := h.empty hempty
    exact ⟨by simp [isEmptyQueue, hfront, hempty], .inl hfront, .inl hrear⟩
  . have hfront := h.front hempty
    have hrear := h.rear hempty
    have := h.served_lt
    refine ⟨?_, .inr ?_, .inr ?_⟩
    . simp only [isEmptyQueue, decide_eq_true_eq, hempty, iff_false]
      omega
    . omega
    . omega

theorem Represents.rear_succ (h : Represents Q f)
    : (Q.rear + 1).tmod Q.capacity = ((f.served + f.contents.length) % 10 : Nat) := by
  rw [h.capacity]
  by_cases hempty : f.contents = []
  . obtain ⟨-, hrear, hserved⟩ := h.empty hempty
    rw [hrear, hserved, hempty]
    rfl
  . have := List.length_pos_iff.mpr hempty
    rw [h.rear hempty, tmod_succ]
    congr 2
    omega

theorem Represents.enqueue (h : Represents Q f) (root : Option ν) (hlen : f.contents.length < 10)
    : ∃ Q', call Q (.enqueue root) = .ok ((f.call (.enqueue root)).1, Q')
      ∧ Represents Q' (f.call (.enqueue root)).2 := by
  refine ⟨_, by rw [call, enqueue_of_rear h.rear_succ]; rfl, ?_⟩
  refine ⟨h.capacity, ?_, h.served_lt, ?_, ?_, ?_, ?_⟩
  . simp only [Fifo.call, List.length_append, List.length_singleton]
    omega
  . simp [Fifo.call]
  . intro _
    dsimp only [Fifo.call]
    by_cases hempty : f.contents = []
    . obtain ⟨hfront, -, hserved⟩ := h.empty hempty
      rw [if_pos hfront, hserved, hempty]
      rfl
    . have hfront := h.front hempty
      rw [if_neg (by omega), hfront]
  . intro _
    simp [Fifo.call]
  . intro k x hk
    dsimp only [Fifo.call] at hk ⊢
    rcases Nat.lt_or_ge k f.contents.length with hlt | hge
    . rw [List.getElem?_append_left hlt] at hk
      rw [Function.update_of_ne (ofNat_ne (by omega) (by omega)), h.data k x hk]
    . rw [List.getElem?_append_right hge, List.getElem?_singleton] at hk
      split at hk
      . next hk' =>
        cases hk
        rw [show k = f.contents.length by omega, Function.update_self]
      . contradiction

theorem Represents.dequeue_cons {xs : List (Option ν)} (h : Represents Q ⟨x :: xs, n⟩)
    : dequeue Q = .ok (x, if Q.rear = n then
      { Q with front := -1, rear := -1 } else { Q with front := (n + 1 : Nat) }) := by
  rw [dequeue_of_front (h.front (List.cons_ne_nil x xs)) h.served_lt h.capacity]
  have hx : Q.data (Fin.ofNat 10 n) = x := h.data 0 x rfl
  rw [hx]

/--
The last element leaves from the cell that `rear` is at.
-/
theorem Represents.dequeue_last (h : Represents Q ⟨[x], n⟩)
    : ∃ Q', dequeue Q = .ok (x, Q') ∧ Represents Q' .empty := by
  have hserved : n < 10 := h.served_lt
  have hrear : Q.rear = (n % 10 : Nat) := h.rear (List.cons_ne_nil x [])
  refine ⟨_, by rw [h.dequeue_cons, if_pos (by omega)], ?_⟩
  constructor
  all_goals simp [Fifo.empty, h.capacity]

theorem Represents.dequeue_many {y : Option ν} {xs : List (Option ν)} (h : Represents Q ⟨x :: y :: xs, n⟩)
    : ∃ Q', dequeue Q = .ok (x, Q') ∧ Q'.front = (n + 1 : Nat)
      ∧ (n + 1 < 10 → Represents Q' ⟨y :: xs, n + 1⟩) := by
  have hserved : n < 10 := h.served_lt
  have hlen : xs.length + 1 + 1 ≤ 10 := h.length_le
  have hrear : Q.rear = ((n + (xs.length + 1)) % 10 : Nat) := h.rear (List.cons_ne_nil x (y :: xs))
  refine ⟨_, by rw [h.dequeue_cons, if_neg (by omega)], rfl, fun hlt => ?_⟩
  refine ⟨h.capacity, ?_, hlt, ?_, ?_, ?_, ?_⟩
  . simp only [List.length_cons]
    omega
  . simp
  . simp
  . intro _
    simp only [List.length_cons, Nat.add_sub_cancel]
    rw [hrear]
    congr 2
    omega
  . intro k z hk
    have := h.data (k + 1) z hk
    rwa [show n + (k + 1) = n + 1 + k by omega] at this

theorem Represents.dequeue (h : Represents Q f)
    : ∃ Q', call Q .dequeue = .ok ((f.call .dequeue).1, Q')
      ∧ ((f.call .dequeue).2.served < 10 → Represents Q' (f.call .dequeue).2)
      ∧ (10 ≤ (f.call .dequeue).2.served → ¬Related Q' (f.call .dequeue).2) := by
  obtain ⟨contents, n⟩ := f
  have hserved : n < 10 := h.served_lt
  rcases contents with _ | ⟨x, _ | ⟨y, xs⟩⟩
  . obtain ⟨hfront, -, -⟩ := h.empty rfl
    refine ⟨Q, ?_, fun _ => h, fun hge => absurd hserved (Nat.not_lt.mpr hge)⟩
    simp [call, Queue.dequeue, isEmptyQueue, hfront, Fifo.call]
  . obtain ⟨Q', hdequeue, hQ'⟩ := h.dequeue_last
    exact ⟨Q', by rw [call, hdequeue]; rfl, fun _ => hQ', fun hge => absurd hQ'.served_lt (Nat.not_lt.mpr hge)⟩
  . obtain ⟨Q', hdequeue, hfront, hQ'⟩ := h.dequeue_many
    refine ⟨Q', by rw [call, hdequeue]; rfl, hQ', fun hge hrelated => ?_⟩
    have hrange := hrelated.front
    simp only [Fifo.call, InRange] at hge hrange
    omega

theorem Represents.call (h : Represents Q f) (c : Call ν) (hlen : (f.call c).2.contents.length ≤ 10)
    : ∃ Q', call Q c = .ok ((f.call c).1, Q')
      ∧ ((f.call c).2.served < 10 → Represents Q' (f.call c).2)
      ∧ (10 ≤ (f.call c).2.served → ¬Related Q' (f.call c).2) := by
  cases c with
  | enqueue root =>
    simp only [Fifo.call, List.length_append, List.length_singleton] at hlen
    obtain ⟨Q', hcall, hQ'⟩ := h.enqueue root hlen
    exact ⟨Q', hcall, fun _ => hQ', fun hge => absurd hQ'.served_lt (Nat.not_lt.mpr hge)⟩
  | dequeue => exact h.dequeue

end Represents

section IsFifo

theorem refines_iff_of_represents (cs : List (Call ν)) {Q : MyQueue ν} {f : Fifo ν} (h : Represents Q f)
    (hlen : ∀ p, p <+: cs → (Calls.specRun Fifo.call p f).2.contents.length ≤ 10)
    : Calls.Refines call Fifo.call Related cs Q f
      ↔ ∀ p, p <+: cs → (Calls.specRun Fifo.call p f).2.served < 10 := by
  induction cs generalizing Q f with
  | nil =>
    rw [Calls.refines_nil, Calls.forall_prefix_nil, iff_true_left h.related]
    exact h.served_lt
  | cons c cs ih =>
    rw [Calls.forall_prefix_cons] at hlen ⊢
    obtain ⟨Q', hcall, hrepresents, hnot⟩ := h.call c (hlen.2 [] List.nil_prefix)
    have hserved : (Calls.specRun Fifo.call [] f).2.served < 10 := h.served_lt
    rw [Calls.refines_cons hcall, and_iff_right h.related, and_iff_right hserved]
    rcases Nat.lt_or_ge (f.call c).2.served 10 with hlt | hge
    . exact ih (hrepresents hlt) hlen.2
    . -- `front` has left the array.
      constructor
      . intro hrefines
        exact absurd hrefines.related (hnot hge)
      . intro hserved
        exact absurd (hserved [] List.nil_prefix) (Nat.not_lt.mpr hge)

theorem isFifo_iff (data : Fin 10 → Option ν) (calls : List (Call ν))
    (h : ∀ p, p <+: calls → (Fifo.after p).contents.length ≤ 10)
    : IsFifo data calls ↔ ∀ p, p <+: calls → (Fifo.after p).served < 10 :=
  refines_iff_of_represents calls (represents_createQueue data) h

theorem isFifo_iff_wraps
    : IsFifo (fun _ => none) (List.replicate 10 (.enqueue (some 'x')) ++ [.dequeue, .enqueue (some 'y')])
      ↔ ∀ p, p <+: List.replicate 10 (.enqueue (some 'x')) ++ [.dequeue, .enqueue (some 'y')]
        → (Fifo.after p).served < 10 := by
  apply isFifo_iff
  intro p hp
  rw [← List.mem_inits] at hp
  revert p
  decide

theorem not_isFifo_tenServed
    : ∃ calls : List (Call Nat), (∀ p, p <+: calls → (Fifo.after p).contents.length ≤ 10)
      ∧ Calls.run call calls (createQueue fun _ => none) = .error (.outOfRange 10 10)
      ∧ ¬IsFifo (fun _ => none) calls := by
  have hfault : Calls.run call ((List.range 10).map (fun k => .enqueue (some k))
      ++ [.dequeue, .enqueue (some 10)] ++ List.replicate 10 .dequeue) (createQueue fun _ => none)
        = .error (.outOfRange 10 10) := rfl
  refine ⟨_, ?_, hfault, ?_⟩
  . intro p hp
    rw [← List.mem_inits] at hp
    revert p
    decide
  . intro h
    obtain ⟨Q, hrun, -⟩ := h _ (List.prefix_refl _)
    rw [hfault] at hrun
    cases hrun

end IsFifo

end Queue
