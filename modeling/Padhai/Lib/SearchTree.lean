import Mathlib.Data.Multiset.AddSub
import Mathlib.Data.Tree.Basic
import Mathlib.Order.MinMax
import Mathlib.Tactic.Common

/-!
This module contains binary search trees: the values of a tree, when it is ordered, without repeated values
or with equal ones on the left, and the path that the search for a value takes from the root.
-/

namespace SearchTree

variable {α : Type} {x a : α} {l r t : BinaryTree α}

def Mem (x : α) : BinaryTree α → Prop
  | .nil => False
  | .node a l r => x = a ∨ Mem x l ∨ Mem x r

instance instMembership : Membership α (BinaryTree α) where
  mem t x := Mem x t

@[simp]
theorem notMem_nil : x ∉ (.nil : BinaryTree α) := id

@[simp]
theorem mem_node : x ∈ BinaryTree.node a l r ↔ x = a ∨ x ∈ l ∨ x ∈ r := Iff.rfl

theorem root_mem : a ∈ BinaryTree.node a l r :=
  .inl rfl

def values : BinaryTree α → Multiset α
  | .nil => 0
  | .node a l r => a ::ₘ (values l + values r)

theorem mem_values : x ∈ values t ↔ x ∈ t := by
  induction t with
  | nil => simp [values]
  | node a l r ihl ihr => rw [values, Multiset.mem_cons, Multiset.mem_add, ihl, ihr, mem_node]

variable [LinearOrder α]

def Ordered : BinaryTree α → Prop
  | .nil => True
  | .node a l r => (∀ x ∈ l, x < a) ∧ (∀ x ∈ r, a < x) ∧ Ordered l ∧ Ordered r

/--
Values equal to the root are on its left.
-/
def WeaklyOrdered : BinaryTree α → Prop
  | .nil => True
  | .node a l r => (∀ x ∈ l, x ≤ a) ∧ (∀ x ∈ r, a < x) ∧ WeaklyOrdered l ∧ WeaklyOrdered r

/--
The values that `x` is compared with.
-/
def path (x : α) : BinaryTree α → List α
  | .nil => []
  | .node a l r => a :: if a < x then path x r else if x < a then path x l else []

def Between (a b x : α) : Prop :=
  min a b ≤ x ∧ x ≤ max a b

instance {b : α} : Decidable (Between a b x) :=
  inferInstanceAs (Decidable (_ ∧ _))

theorem path_node_of_gt (h : a < x) : path x (.node a l r) = a :: path x r := by
  rw [path, if_pos h]

theorem path_node_of_lt (h : x < a) : path x (.node a l r) = a :: path x l := by
  rw [path, if_neg (not_lt_of_gt h), if_pos h]

theorem path_node_self : path a (.node a l r) = [a] := by
  rw [path, if_neg (lt_irrefl a), if_neg (lt_irrefl a)]

theorem root_mem_path : a ∈ path x (.node a l r) := by
  rw [path]
  exact List.mem_cons_self

theorem mem_of_mem_path {y : α} (h : y ∈ path x t) : y ∈ t := by
  induction t with
  | nil => simp [path] at h
  | node a l r ihl ihr =>
    rw [mem_node]
    rcases lt_trichotomy a x with hlt | rfl | hgt
    . rw [path_node_of_gt hlt, List.mem_cons] at h
      exact h.imp id (fun h => .inr (ihr h))
    . rw [path_node_self, List.mem_singleton] at h
      exact .inl h
    . rw [path_node_of_lt hgt, List.mem_cons] at h
      exact h.imp id (fun h => .inl (ihl h))

variable {b : α}

theorem Ordered.mem_node_of_gt (h : Ordered (.node a l r)) (hlt : a < x)
    : x ∈ BinaryTree.node a l r ↔ x ∈ r := by
  rw [mem_node, or_iff_right (ne_of_gt hlt), or_iff_right]
  intro hx
  exact lt_asymm hlt (h.1 x hx)

theorem Ordered.mem_node_of_lt (h : Ordered (.node a l r)) (hlt : x < a)
    : x ∈ BinaryTree.node a l r ↔ x ∈ l := by
  rw [mem_node, or_iff_right (ne_of_lt hlt), or_iff_left]
  intro hx
  exact lt_asymm hlt (h.2.1 x hx)

theorem Ordered.notMem_path_of_gt (h : Ordered (.node a l r)) (hb : a < b) (hx : x < a)
    : b ∉ path x (.node a l r) := by
  rw [path_node_of_lt hx, List.mem_cons, not_or]
  refine ⟨ne_of_gt hb, fun hmem => ?_⟩
  exact lt_asymm hb (h.1 b (mem_of_mem_path hmem))

theorem Ordered.notMem_path_of_lt (h : Ordered (.node a l r)) (hb : b < a) (hx : a < x)
    : b ∉ path x (.node a l r) := by
  rw [path_node_of_gt hx, List.mem_cons, not_or]
  refine ⟨ne_of_lt hb, fun hmem => ?_⟩
  exact lt_asymm hb (h.2.1 b (mem_of_mem_path hmem))

theorem Ordered.forall_notBetween_of_gt (h : Ordered (.node a l r)) (hb : a < b) (hx : a < x)
    : (∀ y ∈ BinaryTree.node a l r, ¬Between b x y) ↔ ∀ y ∈ r, ¬Between b x y := by
  constructor
  . intro hnot y hy
    exact hnot y (.inr (.inr hy))
  . intro hnot y hy hbetween
    have hlt : a < y := lt_of_lt_of_le (lt_min hb hx) hbetween.1
    exact hnot y ((h.mem_node_of_gt hlt).mp hy) hbetween

theorem Ordered.forall_notBetween_of_lt (h : Ordered (.node a l r)) (hb : b < a) (hx : x < a)
    : (∀ y ∈ BinaryTree.node a l r, ¬Between b x y) ↔ ∀ y ∈ l, ¬Between b x y := by
  constructor
  . intro hnot y hy
    exact hnot y (.inr (.inl hy))
  . intro hnot y hy hbetween
    have hlt : y < a := lt_of_le_of_lt hbetween.2 (max_lt hb hx)
    exact hnot y ((h.mem_node_of_lt hlt).mp hy) hbetween

theorem not_forall_notBetween (h : Between b x a)
    : ¬∀ y ∈ BinaryTree.node a l r, ¬Between b x y :=
  fun hnot => hnot a root_mem h

theorem between_left (a b : α) : Between a b a :=
  ⟨min_le_left a b, le_max_left a b⟩

theorem between_right (a b : α) : Between a b b :=
  ⟨min_le_right a b, le_max_right a b⟩

theorem between_of_lt_of_gt (hb : a < b) (hx : x < a) : Between b x a :=
  ⟨min_le_of_right_le (le_of_lt hx), le_max_of_le_left (le_of_lt hb)⟩

theorem between_of_gt_of_lt (hb : b < a) (hx : a < x) : Between b x a :=
  ⟨min_le_of_left_le (le_of_lt hb), le_max_of_le_right (le_of_lt hx)⟩

end SearchTree
