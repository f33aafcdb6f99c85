import Padhai.Interview.Impl.BstMirror
import Padhai.Lib.LevelOrder
import Padhai.DataStruct.Impl.Bst

/-!
This module contains that `mirror` of `bst_mirror.c` turns every level of a tree around, and that the traversal
goes level by level exactly if the tree has no more nodes than the queue has cells.
-/

namespace BstMirror

open LevelOrder Mem

section Mirror

variable {t : BinaryTree Int}

theorem mirror_node (data : Int) (l r : BinaryTree Int)
    : mirror (.node data l r) = .node data (mirror r) (mirror l) := rfl

theorem mirror_mirror (t : BinaryTree Int) : mirror (mirror t) = t := by
  induction t with
  | nil => rfl
  | node data l r ihl ihr => rw [mirror_node, mirror_node, ihl, ihr]

theorem inorder_mirror (t : BinaryTree Int) : Bst.inorder (mirror t) = (Bst.inorder t).reverse := by
  induction t with
  | nil => rfl
  | node data l r ihl ihr =>
    rw [mirror_node, Bst.inorder, Bst.inorder, ihl, ihr, List.reverse_append, List.reverse_cons,
      List.append_assoc, List.singleton_append]

theorem levels_mirror (t : BinaryTree Int) : levels (mirror t) = (levels t).map List.reverse := by
  induction t with
  | nil => rfl
  | node data l r ihl ihr =>
    rw [mirror_node, levels, levels, ihl, ihr, zipLevels_map_reverse]
    rfl

theorem levelOrder_mirror (t : BinaryTree Int)
    : levelOrder (mirror t) = ((levels t).map List.reverse).flatten := by
  rw [levelOrder, levels_mirror]

theorem mirror_reflects (t : BinaryTree Int)
    : levels (mirror t) = (levels t).map List.reverse
      ∧ levelOrder (mirror t) = ((levels t).map List.reverse).flatten
      ∧ Bst.inorder (mirror t) = (Bst.inorder t).reverse ∧ mirror (mirror t) = t :=
  ⟨levels_mirror t, levelOrder_mirror t, inorder_mirror t, mirror_mirror t⟩

end Mirror

section Traversal

variable {q : Queue} {t : BinaryTree Int} {ts : List (BinaryTree Int)} {as printed : List Int}
  {l r : BinaryTree Int} {data : Int} {turns : Nat}

structure Pending (q : Queue) (ts : List (BinaryTree Int)) : Prop where
  holds : q.Holds .nil ts
  size : q.cells.length = maxQLen

theorem pending_Q : Pending Q [] :=
  ⟨ArrayQueue.holds_cleared maxQLen BinaryTree.nil, List.length_replicate⟩

theorem Pending.enqueueChild (h : Pending q ts) (t : BinaryTree Int)
    (hroom : q.front + (ts ++ present t).length ≤ maxQLen)
    : ∃ q', enqueueChild q t = .ok q' ∧ Pending q' (ts ++ present t) ∧ q'.front = q.front := by
  cases t with
  | nil =>
    rw [present, List.append_nil]
    exact ⟨q, rfl, h, rfl⟩
  | node data l r =>
    have hrear : q.rear < q.cells.length := by
      rw [h.size]
      exact h.holds.rear_lt hroom
    obtain ⟨q', hpush, hholds, hfront, hlength⟩ := h.holds.push (.node data l r) hrear
    refine ⟨q', ?_, ⟨hholds, hlength.trans h.size⟩, hfront⟩
    rw [BstMirror.enqueueChild, if_pos (by simp), enqueue, hpush]

theorem Pending.enqueueChild_full (h : Pending q ts) (hfull : maxQLen < q.front + (ts ++ present t).length)
    : BstMirror.enqueueChild q t = .error (.outOfRange 10 10) := by
  have hrear := h.holds.rear
  have hle := h.holds.rear_le
  rw [h.size] at hle
  cases t with
  | nil =>
    rw [present, List.append_nil] at hfull
    omega
  | node data l r =>
    rw [present, List.length_append, List.length_singleton, ← h.size] at hfull
    rw [BstMirror.enqueueChild, if_pos (by simp), enqueue, h.holds.push_full hfull, h.size]
    rfl

def enqueueChildren (q : Queue) (l r : BinaryTree Int) : Checked Queue := do
  let q ← enqueueChild q l
  enqueueChild q r

theorem visit_eq (q : Queue) (data : Int) (l r : BinaryTree Int) (printed : List Int)
    : visit (q, .node data l r, printed) = (do
      let q ← enqueueChildren q l r
      let (temp, q) ← dequeue q
      return .inl (q, temp, printed ++ [data])) := by
  rw [visit, enqueueChildren]
  cases enqueueChild q l with
  | error e => rfl
  | ok q => rfl

theorem Pending.of_enqueueChildren (h : Pending q ts) (data : Int) (l r : BinaryTree Int)
    : if q.front + (ts ++ children (.node data l r)).length ≤ maxQLen then
        ∃ q', enqueueChildren q l r = .ok q' ∧ Pending q' (ts ++ children (.node data l r))
          ∧ q'.front = q.front
      else
        enqueueChildren q l r = .error (.outOfRange 10 10) := by
  rw [children, ← List.append_assoc, enqueueChildren]
  by_cases hleft : q.front + (ts ++ present l).length ≤ maxQLen
  . obtain ⟨q₁, hq₁, h₁, hfront₁⟩ := h.enqueueChild l hleft
    rw [hq₁, ok_bind, ← hfront₁]
    split
    . next hright =>
      obtain ⟨q₂, hq₂, h₂, hfront₂⟩ := h₁.enqueueChild r hright
      exact ⟨q₂, hq₂, h₂, hfront₂⟩
    . next hright => exact h₁.enqueueChild_full (Nat.not_le.mp hright)
  . have hlength : (ts ++ present l ++ present r).length = _ := List.length_append
    rw [h.enqueueChild_full (Nat.not_le.mp hleft), error_bind, if_neg]
    omega

theorem Pending.dequeue_cons (h : Pending q (t :: ts))
    : ∃ q', dequeue q = .ok (t, q') ∧ Pending q' ts ∧ q'.front = q.front + 1 := by
  obtain ⟨q', hpop, hholds, hfront, hlength⟩ := h.holds.pop
  exact ⟨q', hpop, ⟨hholds, hlength.trans h.size⟩, hfront⟩

/--
After the last tree the cell behind it is read, if there is one.
-/
theorem Pending.visit_last (h : Pending q []) (data : Int) (printed : List Int)
    : visit (q, .node data .nil .nil, printed) = if q.front < maxQLen then
        .ok (.inl ({ q with front := q.front + 1 }, .nil, printed ++ [data]))
      else
        .error (.outOfRange 10 10) := by
  have hpop := h.holds.pop_empty
  rw [h.size] at hpop
  have hchildren : enqueueChildren q .nil .nil = .ok q := rfl
  rw [visit_eq, hchildren, ok_bind, dequeue, hpop]
  split
  . rfl
  . rfl

theorem Pending.visit_next {u : BinaryTree Int} {us : List (BinaryTree Int)} (h : Pending q ts)
    (hnext : ts ++ children (.node data l r) = u :: us) (printed : List Int)
    : if q.front + (u :: us).length ≤ maxQLen then
        ∃ q', visit (q, .node data l r, printed) = .ok (.inl (q', u, printed ++ [data])) ∧ Pending q' us
          ∧ q'.front = q.front + 1
      else
        visit (q, .node data l r, printed) = .error (.outOfRange 10 10) := by
  have hchildren := h.of_enqueueChildren data l r
  rw [hnext] at hchildren
  rw [visit_eq]
  split
  . next hroom =>
    rw [if_pos hroom] at hchildren
    obtain ⟨q₁, hq₁, h₁, hfront₁⟩ := hchildren
    obtain ⟨q₂, hq₂, h₂, hfront₂⟩ := h₁.dequeue_cons
    refine ⟨q₂, ?_, h₂, by rw [hfront₂, hfront₁]⟩
    rw [hq₁, ok_bind, hq₂]
    rfl
  . next hfull =>
    rw [if_neg hfull] at hchildren
    rw [hchildren, error_bind]

theorem Pending.loop_of_visits (h : Pending q ts) (hvisits : Visits (t :: ts) as)
    (hroom : q.front + as.length ≤ maxQLen) (hturns : as.length < turns) (printed : List Int)
    : ∃ q', loop turns visit (q, t, printed) = .ok (q', printed ++ as) := by
  induction hvisits using Visits.head_induction_on generalizing q turns printed with
  | last data =>
    have hvisit := h.visit_last data printed
    have hlt : q.front < maxQLen := hroom
    rw [if_pos hlt] at hvisit
    obtain ⟨turns, rfl⟩ : ∃ n, turns = n + 1 + 1 := ⟨turns - 2, by rw [List.length_singleton] at hturns; omega⟩
    refine ⟨{ q with front := q.front + 1 }, ?_⟩
    rw [loop_next hvisit]
    exact loop_done rfl turns
  | @next data l r ts u us as hnext rest ih =>
    rw [List.length_cons] at hroom hturns
    obtain ⟨turns, rfl⟩ : ∃ n, turns = n + 1 := ⟨turns - 1, by omega⟩
    have hfit := rest.length_le
    have hvisit := h.visit_next hnext printed
    rw [if_pos (by omega)] at hvisit
    obtain ⟨q₁, hvisit, h₁, hfront₁⟩ := hvisit
    obtain ⟨q', hrest⟩ := ih h₁ (by omega) (Nat.lt_of_succ_lt_succ hturns) (printed ++ [data])
    refine ⟨q', ?_⟩
    rw [loop_next hvisit, hrest, List.append_assoc, List.singleton_append]

theorem Pending.loop_ne_ok (h : Pending q ts) (hvisits : Visits (t :: ts) as)
    (hfull : maxQLen < q.front + as.length) {r : Queue × List Int}
    : loop turns visit (q, t, printed) ≠ .ok r := by
  intro hloop
  induction hvisits using Visits.head_induction_on generalizing q turns printed with
  | last data =>
    cases turns with
    | zero => contradiction
    | succ turns =>
      have hvisit := h.visit_last data printed
      rw [if_neg (Nat.not_lt.mpr (Nat.le_of_lt_succ hfull))] at hvisit
      rw [loop_error hvisit] at hloop
      contradiction
  | next hnext rest ih =>
    cases turns with
    | zero => contradiction
    | succ turns =>
      rw [List.length_cons] at hfull
      have hvisit := h.visit_next hnext printed
      split at hvisit
      . obtain ⟨q₁, hvisit, h₁, hfront₁⟩ := hvisit
        rw [loop_next hvisit] at hloop
        exact ih h₁ (by omega) hloop
      . rw [loop_error hvisit] at hloop
        contradiction

/--
The traversal ends, stays inside the queue and prints the nodes level by level.
-/
def TraversesLevels (t : BinaryTree Int) : Prop :=
  ∃ turns q, levelOrderTraversal turns Q t = .ok (q, levelOrder t)

theorem traversesLevels_of_le (h : t.numNodes ≤ maxQLen) : TraversesLevels t := by
  rw [← length_levelOrder] at h
  cases t with
  | nil => exact ⟨0, Q, rfl⟩
  | node data l r =>
    obtain ⟨q, hloop⟩ := pending_Q.loop_of_visits (visits_levelOrder (.node data l r))
      (h.trans' (Nat.zero_add _).le) (Nat.lt_succ_self _) []
    refine ⟨(levelOrder (.node data l r)).length + 1, q, ?_⟩
    rw [levelOrderTraversal, if_neg (by simp)]
    exact hloop

theorem not_traversesLevels_of_lt (h : maxQLen < t.numNodes) : ¬TraversesLevels t := by
  rintro ⟨turns, q, hloop⟩
  rw [← length_levelOrder] at h
  cases t with
  | nil => contradiction
  | node data l r =>
    rw [levelOrderTraversal, if_neg (by simp)] at hloop
    exact pending_Q.loop_ne_ok (visits_levelOrder (.node data l r)) (h.trans_le (Nat.zero_add _).ge) hloop

theorem traversesLevels_iff (t : BinaryTree Int) : TraversesLevels t ↔ t.numNodes ≤ maxQLen := by
  constructor
  . intro h
    by_contra hgt
    exact not_traversesLevels_of_lt (Nat.not_le.mp hgt) h
  . exact traversesLevels_of_le

theorem not_traversesLevels_eleven
    : let t : BinaryTree Int := (List.range 11).foldr (fun k t => .node k .nil t) .nil
      levelOrderTraversal 12 Q t = .error (.outOfRange 10 10) ∧ ¬TraversesLevels t :=
  ⟨by decide, not_traversesLevels_of_lt (by decide)⟩

end Traversal

end BstMirror
