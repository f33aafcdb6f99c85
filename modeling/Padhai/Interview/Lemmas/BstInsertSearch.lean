import Padhai.Interview.Impl.BstInsertSearch
import Padhai.Lib.Calls
import Padhai.Lib.LevelOrder
import Padhai.Lib.SearchTree

/-!
This module contains that the search tree of `bst_insert_search.c` keeps every value and its order, and that
its traversals go level by level, one after the other, as long as there is room in the queue.
-/

namespace BstInsertSearch

open LevelOrder SearchTree

section Insert

variable {t l r : BinaryTree Int} {v data val : Int} {p vals : List Int}

theorem insert_node_of_le (h : val ≤ data)
    : insert (.node data l r) val = .node data (insert l val) r := by
  rw [insert, if_pos h]

theorem insert_node_of_gt (h : data < val)
    : insert (.node data l r) val = .node data l (insert r val) := by
  rw [insert, if_neg (not_le_of_gt h)]
  exact if_pos h

theorem values_insert : values (insert t val) = val ::ₘ values t := by
  induction t with
  | nil => rfl
  | node data l r ihl ihr =>
    rcases le_or_gt val data with hle | hgt
    . rw [insert_node_of_le hle, values, values, ihl, Multiset.cons_add, Multiset.cons_swap]
    . rw [insert_node_of_gt hgt, values, values, ihr, Multiset.add_cons, Multiset.cons_swap]

theorem eq_or_mem_of_mem_insert (h : v ∈ insert t val) : v = val ∨ v ∈ t := by
  rwa [← mem_values, values_insert, Multiset.mem_cons, mem_values] at h

theorem weaklyOrdered_insert (h : WeaklyOrdered t) : WeaklyOrdered (insert t val) := by
  induction t with
  | nil => simp [insert, WeaklyOrdered]
  | node data l r ihl ihr =>
    obtain ⟨hl, hr, hol, hor⟩ := h
    rcases le_or_gt val data with hle | hgt
    . rw [insert_node_of_le hle]
      refine ⟨?_, hr, ihl hol, hor⟩
      intro v hv
      rcases eq_or_mem_of_mem_insert hv with rfl | hv
      . exact hle
      . exact hl v hv
    . rw [insert_node_of_gt hgt]
      refine ⟨hl, ?_, hol, ihr hor⟩
      intro v hv
      rcases eq_or_mem_of_mem_insert hv with rfl | hv
      . exact hgt
      . exact hr v hv

theorem insertAll_snoc : insertAll (p ++ [val]) = insert (insertAll p) val := by
  simp [insertAll]

theorem weaklyOrdered_insertAll (vals : List Int) : WeaklyOrdered (insertAll vals) := by
  induction vals using List.reverseRecOn with
  | nil => trivial
  | append_singleton p val ih =>
    rw [insertAll_snoc]
    exact weaklyOrdered_insert ih

theorem values_insertAll (vals : List Int) : values (insertAll vals) = vals := by
  induction vals using List.reverseRecOn with
  | nil => rfl
  | append_singleton p val ih =>
    rw [insertAll_snoc, values_insert, ih, Multiset.cons_coe, Multiset.coe_eq_coe]
    exact (List.perm_append_singleton val p).symm

/--
After every call the tree is in order and holds what was inserted so far, as often as it was.
-/
def KeepsMultiplicity (vals : List Int) : Prop :=
  ∀ p, p <+: vals → WeaklyOrdered (insertAll p) ∧ values (insertAll p) = p

theorem insertAll_keepsMultiplicity (vals : List Int) : KeepsMultiplicity vals := by
  intro p _
  exact ⟨weaklyOrdered_insertAll p, values_insertAll p⟩

end Insert

section Traversal

variable {q : Queue} {t : BinaryTree Int} {ts : List (BinaryTree Int)} {as : List Int} {depth used : Nat}

structure Pending (q : Queue) (ts : List (BinaryTree Int)) : Prop where
  holds : q.Holds .nil ts
  size : q.cells.length = 100

theorem pending_Q : Pending Q [] :=
  ⟨ArrayQueue.holds_cleared 100 BinaryTree.nil, List.length_replicate⟩

theorem Pending.enqueueChild (h : Pending q ts) (t : BinaryTree Int)
    (hroom : q.front + (ts ++ present t).length ≤ 100)
    : ∃ q', enqueueChild q t = .ok q' ∧ Pending q' (ts ++ present t) ∧ q'.front = q.front := by
  cases t with
  | nil =>
    rw [present, List.append_nil]
    exact ⟨q, rfl, h, rfl⟩
  | node data l r =>
    have hrear : q.rear < 100 := h.holds.rear_lt hroom
    have hsize : q.rear < q.cells.length := by
      rw [h.size]
      exact hrear
    obtain ⟨q', hpush, hholds, hfront, hlength⟩ := h.holds.push (.node data l r) hsize
    refine ⟨q', ?_, ⟨hholds, hlength.trans h.size⟩, hfront⟩
    rw [BstInsertSearch.enqueueChild, if_pos (by simp), enqueue, if_pos hrear, hpush]

theorem Pending.dequeue_cons (h : Pending q (t :: ts))
    : ∃ q', dequeue q = .ok (t, q') ∧ Pending q' ts ∧ q'.front = q.front + 1 := by
  obtain ⟨q', hpop, hholds, hfront, hlength⟩ := h.holds.pop
  have hlt : ¬q.front ≥ q.rear := by
    rw [h.holds.rear, List.length_cons]
    omega
  refine ⟨q', ?_, ⟨hholds, hlength.trans h.size⟩, hfront⟩
  rw [dequeue, if_neg hlt, hpop]

theorem Pending.dequeue_nil (h : Pending q []) : dequeue q = .ok (.nil, q) := by
  have hrear : q.rear = q.front := h.holds.rear
  rw [dequeue, if_pos (by omega)]
  rfl

theorem Pending.levelOrder_of_visits (h : Pending q ts) (hvisits : Visits (t :: ts) as)
    (hroom : q.front + as.length ≤ 101) (hdepth : as.length ≤ depth)
    : ∃ q', levelOrder depth q t = .ok (as, q') ∧ Pending q' [] ∧ q'.front + 1 = q.front + as.length := by
  induction hvisits using Visits.head_induction_on generalizing q depth with
  | last data =>
    rw [List.length_singleton] at hdepth
    obtain ⟨depth, rfl⟩ : ∃ d, depth = d + 1 := ⟨depth - 1, by omega⟩
    have hchild : BstInsertSearch.enqueueChild q .nil = .ok q := rfl
    refine ⟨q, ?_, h, rfl⟩
    rw [levelOrder, hchild, Mem.ok_bind, hchild, Mem.ok_bind, h.dequeue_nil, Mem.ok_bind]
    rfl
  | @next data l r ts u us as hnext rest ih =>
    rw [List.length_cons] at hroom hdepth
    obtain ⟨depth, rfl⟩ : ∃ d, depth = d + 1 := ⟨depth - 1, by omega⟩
    have hfit := rest.length_le
    rw [← hnext, children, ← List.append_assoc, List.length_append] at hfit
    obtain ⟨q₁, hleft, h₁, hfront₁⟩ := h.enqueueChild l (by omega)
    obtain ⟨q₂, hright, h₂, hfront₂⟩ := h₁.enqueueChild r (by rw [List.length_append]; omega)
    rw [List.append_assoc, ← children.eq_2 data, hnext] at h₂
    obtain ⟨q₃, hdequeue, h₃, hfront₃⟩ := h₂.dequeue_cons
    obtain ⟨q', hrest, h', hfront⟩ := ih h₃ (by omega) (Nat.le_of_succ_le_succ hdepth)
    have hu : u ≠ .nil := by
      cases rest
      simp
    refine ⟨q', ?_, h', by rw [List.length_cons]; omega⟩
    rw [levelOrder, hleft, Mem.ok_bind, hright, Mem.ok_bind, hdequeue, Mem.ok_bind]
    dsimp only
    rw [if_pos hu, hrest]
    rfl

/--
The traversal of a tree, after traversals that have used `used` cells of the queue.
-/
def breadthFirst (used : Nat) (t : BinaryTree Int) : List Int × Nat :=
  (LevelOrder.levelOrder t, used + (t.numNodes - 1))

structure Drained (q : Queue) (used : Nat) : Prop where
  front : q.front = used
  rear : q.rear = used

def nonRoots (ts : List (BinaryTree Int)) : Nat :=
  (ts.map (fun t => t.numNodes - 1)).sum

theorem Pending.drained (h : Pending q []) : Drained q q.front :=
  ⟨rfl, h.holds.rear⟩

theorem Pending.levelOrder_call (h : Pending q []) (t : BinaryTree Int)
    (hroom : q.front + (t.numNodes - 1) ≤ 100) (hdepth : 101 ≤ depth)
    : ∃ q', levelOrder depth q t = .ok ((breadthFirst q.front t).1, q') ∧ Pending q' []
      ∧ q'.front = (breadthFirst q.front t).2 := by
  cases t with
  | nil =>
    obtain ⟨depth, rfl⟩ : ∃ d, depth = d + 1 := ⟨depth - 1, by omega⟩
    exact ⟨q, rfl, h, rfl⟩
  | node data l r =>
    have hlength := length_levelOrder (.node data l r)
    have hnodes : (BinaryTree.node data l r).numNodes = l.numNodes + r.numNodes + 1 := rfl
    have hdeep : (LevelOrder.levelOrder (.node data l r)).length ≤ depth := by
      omega
    obtain ⟨q', hcall, h', hfront⟩ :=
      h.levelOrder_of_visits (visits_levelOrder (.node data l r)) (by omega) hdeep
    refine ⟨q', hcall, h', ?_⟩
    dsimp only [breadthFirst]
    omega

theorem Pending.refines (h : Pending q []) (ts : List (BinaryTree Int)) (hroom : q.front + nonRoots ts ≤ 100)
    (hdepth : 101 ≤ depth) : Calls.Refines (levelOrder depth) breadthFirst Drained ts q q.front := by
  induction ts generalizing q with
  | nil => exact Calls.refines_nil.mpr h.drained
  | cons t ts ih =>
    rw [nonRoots, List.map_cons, List.sum_cons] at hroom
    obtain ⟨q', hcall, h', hfront⟩ := h.levelOrder_call t (by omega) hdepth
    rw [Calls.refines_cons hcall, ← hfront]
    refine ⟨h.drained, ih h' ?_⟩
    rw [hfront, nonRoots]
    dsimp only [breadthFirst]
    omega

theorem levelOrder_refines_breadthFirst (depth : Nat) (ts : List (BinaryTree Int)) (hroom : nonRoots ts ≤ 100)
    (hdepth : 101 ≤ depth) : Calls.Refines (levelOrder depth) breadthFirst Drained ts Q 0 := by
  apply pending_Q.refines ts _ hdepth
  exact (Nat.zero_add _).le.trans hroom

theorem levelOrder_refines_breadthFirst_eight
    : Calls.Refines (levelOrder 101) breadthFirst Drained
      [insertAll [8, 10, 4, 9, 25], .nil, insertAll [3, 3, 5]] Q 0 :=
  levelOrder_refines_breadthFirst 101 _ (by decide) (by decide)

end Traversal

section Full

variable {q : Queue} {t : BinaryTree Int} {ts : List (BinaryTree Int)} {as : List Int} {depth used : Nat}

/--
The part of a queue that there is room for.
-/
structure Kept (q : Queue) (ts : List (BinaryTree Int)) : Prop where
  pending : Pending q (ts.take (100 - q.front))
  front_le : q.front ≤ 100

theorem Kept.enqueueChild (h : Kept q ts) (t : BinaryTree Int)
    : ∃ q', enqueueChild q t = .ok q' ∧ Kept q' (ts ++ present t) ∧ q'.front = q.front := by
  have hrear := h.pending.holds.rear
  rw [List.length_take] at hrear
  by_cases hroom : ts.length < 100 - q.front
  . have hall : ts.take (100 - q.front) = ts := List.take_of_length_le hroom.le
    have hpending := h.pending
    have hpresent : (present t).length ≤ 1 := by
      cases t
      all_goals simp [present]
    have hmore : (ts ++ present t).length ≤ 100 - q.front := by
      rw [List.length_append]
      omega
    rw [hall] at hpending
    obtain ⟨q', hcall, h', hfront⟩ := hpending.enqueueChild t (by omega)
    refine ⟨q', hcall, ⟨?_, by rw [hfront]; exact h.front_le⟩, hfront⟩
    rwa [hfront, List.take_of_length_le hmore]
  . -- What is left out stays left out.
    have hfull : (ts ++ present t).take (100 - q.front) = ts.take (100 - q.front) :=
      List.take_append_of_le_length (Nat.not_lt.mp hroom)
    refine ⟨q, ?_, ⟨by rw [hfull]; exact h.pending, h.front_le⟩, rfl⟩
    have hfront := h.front_le
    rw [BstInsertSearch.enqueueChild, enqueue, if_neg (by omega : ¬q.rear < 100)]
    split
    . rfl
    . rfl

theorem Kept.dequeue_cons (h : Kept q (t :: ts)) (hlt : q.front < 100)
    : ∃ q', dequeue q = .ok (t, q') ∧ Kept q' ts ∧ q'.front = q.front + 1 := by
  obtain ⟨room, hroom⟩ : ∃ n, 100 - q.front = n + 1 := ⟨99 - q.front, by omega⟩
  have hpending := h.pending
  rw [hroom, List.take_succ_cons] at hpending
  obtain ⟨q', hcall, h', hfront⟩ := hpending.dequeue_cons
  refine ⟨q', hcall, ⟨?_, by omega⟩, hfront⟩
  have hrest : 100 - q'.front = room := by omega
  rwa [hrest]

theorem Kept.dequeue_full (h : Kept q ts) (hfull : q.front = 100) : dequeue q = .ok (.nil, q) := by
  have hpending := h.pending
  rw [hfull] at hpending
  exact hpending.dequeue_nil

theorem Kept.drained (h : Kept q ts) (hfull : q.front = 100) : Pending q [] := by
  have hpending := h.pending
  rwa [hfull, Nat.sub_self, List.take_zero] at hpending

theorem Kept.levelOrder_of_visits (h : Kept q ts) (hvisits : Visits (t :: ts) as) (hdepth : 101 - q.front ≤ depth)
    : ∃ q', levelOrder depth q t = .ok (as.take (101 - q.front), q') ∧ Pending q' []
      ∧ q'.front + 1 = q.front + (as.take (101 - q.front)).length := by
  induction hvisits using Visits.head_induction_on generalizing q depth with
  | last data =>
    have hle := h.front_le
    have hpending := h.pending
    obtain ⟨room, hroom⟩ : ∃ n, 101 - q.front = n + 1 := ⟨100 - q.front, by omega⟩
    obtain ⟨depth, rfl⟩ : ∃ d, depth = d + 1 := ⟨depth - 1, by omega⟩
    have hchild : BstInsertSearch.enqueueChild q .nil = .ok q := rfl
    rw [List.take_nil] at hpending
    refine ⟨q, ?_, hpending, by rw [hroom]; simp⟩
    rw [levelOrder, hchild, Mem.ok_bind, hchild, Mem.ok_bind, hpending.dequeue_nil, Mem.ok_bind, hroom,
      List.take_succ_cons, List.take_nil]
    rfl
  | @next data l r ts u us as hnext rest ih =>
    have hle := h.front_le
    obtain ⟨room, hroom⟩ : ∃ n, 101 - q.front = n + 1 := ⟨100 - q.front, by omega⟩
    obtain ⟨depth, rfl⟩ : ∃ d, depth = d + 1 := ⟨depth - 1, by omega⟩
    obtain ⟨q₁, hleft, h₁, hfront₁⟩ := h.enqueueChild l
    obtain ⟨q₂, hright, h₂, hfront₂⟩ := h₁.enqueueChild r
    rw [List.append_assoc, ← children.eq_2 data, hnext] at h₂
    rw [levelOrder, hleft, Mem.ok_bind, hright, Mem.ok_bind, hroom, List.take_succ_cons]
    by_cases hfull : q.front = 100
    . have hnone : room = 0 := by omega
      have hfull₂ : q₂.front = 100 := by omega
      refine ⟨q₂, ?_, h₂.drained hfull₂, ?_⟩
      . rw [h₂.dequeue_full hfull₂, Mem.ok_bind, hnone, List.take_zero]
        rfl
      . rw [hnone, List.take_zero, List.length_singleton]
        omega
    . obtain ⟨q₃, hdequeue, h₃, hfront₃⟩ := h₂.dequeue_cons (by omega)
      have hroom₃ : 101 - q₃.front = room := by omega
      have hdepth₃ : 101 - q₃.front ≤ depth := by omega
      obtain ⟨q', hrest, h', hfront⟩ := ih h₃ hdepth₃
      rw [hroom₃] at hrest hfront
      have hu : u ≠ .nil := by
        cases rest
        simp
      refine ⟨q', ?_, h', by rw [List.length_cons]; omega⟩
      rw [hdequeue, Mem.ok_bind]
      dsimp only
      rw [if_pos hu, hrest]
      rfl

/--
The traversal of a tree after traversals that have used `used` cells of the queue: what there is no room for is
left out.
-/
def breadthFirstWithin (used : Nat) (t : BinaryTree Int) : List Int × Nat :=
  ((LevelOrder.levelOrder t).take (101 - used), min 100 (used + (t.numNodes - 1)))

theorem Pending.levelOrder_within (h : Pending q []) (hle : q.front ≤ 100) (t : BinaryTree Int)
    (hdepth : 101 ≤ depth)
    : ∃ q', levelOrder depth q t = .ok ((breadthFirstWithin q.front t).1, q') ∧ Pending q' []
      ∧ q'.front = (breadthFirstWithin q.front t).2 := by
  cases t with
  | nil =>
    obtain ⟨depth, rfl⟩ : ∃ d, depth = d + 1 := ⟨depth - 1, by omega⟩
    have hnil : (breadthFirstWithin q.front .nil).1 = [] := List.take_nil
    exact ⟨q, by rw [hnil]; rfl, h, (Nat.min_eq_right hle).symm⟩
  | node data l r =>
    have hkept : Kept q [] := ⟨by rwa [List.take_nil], hle⟩
    have hlength := length_levelOrder (.node data l r)
    have hnodes : (BinaryTree.node data l r).numNodes = l.numNodes + r.numNodes + 1 := rfl
    have hdepth' : 101 - q.front ≤ depth := by omega
    obtain ⟨q', hcall, h', hfront⟩ := hkept.levelOrder_of_visits (visits_levelOrder (.node data l r)) hdepth'
    refine ⟨q', hcall, h', ?_⟩
    rw [List.length_take, hlength] at hfront
    dsimp only [breadthFirstWithin]
    omega

theorem Pending.refines_within (h : Pending q []) (hle : q.front ≤ 100) (ts : List (BinaryTree Int))
    (hdepth : 101 ≤ depth) : Calls.Refines (levelOrder depth) breadthFirstWithin Drained ts q q.front := by
  induction ts generalizing q with
  | nil => exact Calls.refines_nil.mpr h.drained
  | cons t ts ih =>
    obtain ⟨q', hcall, h', hfront⟩ := h.levelOrder_within hle t hdepth
    have hle' : q'.front ≤ 100 := by
      rw [hfront]
      exact Nat.min_le_left _ _
    rw [Calls.refines_cons hcall, ← hfront]
    exact ⟨h.drained, ih h' hle'⟩

theorem levelOrder_refines_within (depth : Nat) (ts : List (BinaryTree Int))
    : Calls.Refines (levelOrder (101 + depth)) breadthFirstWithin Drained ts Q 0 := by
  apply pending_Q.refines_within
  . exact Nat.zero_le 100
  . exact Nat.le_add_right 101 depth

end Full

end BstInsertSearch
