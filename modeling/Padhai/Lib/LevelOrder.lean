import Mathlib.Algebra.GroupWithZero.Nat
import Mathlib.Data.Tree.Basic
import Mathlib.Tactic.Common

/-!
This module contains the levels of a binary tree, each from left to right, and that visiting the nodes
through a queue, where a node is followed by what is in the queue already and then by its children, goes over
them level by level.
-/

namespace LevelOrder

variable {α β : Type} {a : α} {l r t : BinaryTree α} {ts us : List (BinaryTree α)}
  {xs ys zs : List (List α)}

section Levels

/--
Levels side by side, where the deeper side goes on alone.
-/
def zipLevels : List (List α) → List (List α) → List (List α)
  | [], ys => ys
  | xs, [] => xs
  | x :: xs, y :: ys => (x ++ y) :: zipLevels xs ys

def levels : BinaryTree α → List (List α)
  | .nil => []
  | .node a l r => [a] :: zipLevels (levels l) (levels r)

def levelOrder (t : BinaryTree α) : List α :=
  (levels t).flatten

@[simp]
theorem zipLevels_nil_left : zipLevels [] ys = ys := by
  rw [zipLevels]

@[simp]
theorem zipLevels_nil_right : zipLevels xs [] = xs := by
  cases xs with
  | nil => rfl
  | cons x xs => rfl

theorem zipLevels_assoc : zipLevels (zipLevels xs ys) zs = zipLevels xs (zipLevels ys zs) := by
  fun_induction zipLevels xs ys generalizing zs with
  | case1 ys => simp
  | case2 xs => simp
  | case3 x xs y ys ih =>
    cases zs with
    | nil => rw [zipLevels_nil_right, zipLevels_nil_right, zipLevels]
    | cons z zs => simp [zipLevels, ih]

theorem zipLevels_map_reverse
    : zipLevels (xs.map List.reverse) (ys.map List.reverse) = (zipLevels ys xs).map List.reverse := by
  induction xs generalizing ys with
  | nil => simp
  | cons x xs ih =>
    cases ys with
    | nil => simp
    | cons y ys => simp [zipLevels, ih]

theorem length_flatten_zipLevels
    : (zipLevels xs ys).flatten.length = xs.flatten.length + ys.flatten.length := by
  fun_induction zipLevels xs ys with
  | case1 ys => simp
  | case2 xs => simp
  | case3 x xs y ys ih =>
    rw [List.flatten_cons, List.length_append, ih]
    simp
    omega

theorem zipLevels_flatten_perm : (zipLevels xs ys).flatten.Perm (xs.flatten ++ ys.flatten) := by
  fun_induction zipLevels xs ys with
  | case1 ys => simp
  | case2 xs => simp
  | case3 x xs y ys ih =>
    rw [List.flatten_cons, List.flatten_cons, List.flatten_cons, List.append_assoc, List.append_assoc]
    apply List.Perm.append_left
    exact (ih.append_left y).trans (List.perm_append_comm_assoc y _ _)

theorem length_levelOrder (t : BinaryTree α) : (levelOrder t).length = t.numNodes := by
  induction t with
  | nil => rfl
  | node a l r ihl ihr =>
    rw [levelOrder, levels, List.flatten_cons, List.length_append, length_flatten_zipLevels,
      BinaryTree.numNodes]
    exact (Nat.add_comm 1 _).trans (congrArg (· + 1) (congrArg₂ (· + ·) ihl ihr))

end Levels

section Forest

def present : BinaryTree α → List (BinaryTree α)
  | .nil => []
  | .node a l r => [.node a l r]

def children : BinaryTree α → List (BinaryTree α)
  | .nil => []
  | .node _ l r => present l ++ present r

def root : BinaryTree α → List α
  | .nil => []
  | .node a _ _ => [a]

def forestLevels : List (BinaryTree α) → List (List α)
  | [] => []
  | t :: ts => zipLevels (levels t) (forestLevels ts)

theorem mem_present {u : BinaryTree α} (hu : u ∈ present t) : u ≠ .nil := by
  cases t with
  | nil => contradiction
  | node a l r =>
    rw [List.mem_singleton.mp hu]
    simp

theorem mem_children {u : BinaryTree α} (hu : u ∈ children t) : u ≠ .nil := by
  cases t with
  | nil => contradiction
  | node a l r => exact (List.mem_append.mp hu).elim mem_present mem_present

theorem eq_nil_of_present_eq_nil (h : present t = []) : t = .nil := by
  cases t with
  | nil => rfl
  | node a l r => contradiction

theorem eq_nil_of_append_children_eq_nil (h : ts ++ children (.node a l r) = [])
    : ts = [] ∧ l = .nil ∧ r = .nil := by
  obtain ⟨hts, hchildren⟩ := List.append_eq_nil_iff.mp h
  obtain ⟨hl, hr⟩ := List.append_eq_nil_iff.mp hchildren
  exact ⟨hts, eq_nil_of_present_eq_nil hl, eq_nil_of_present_eq_nil hr⟩

theorem forestLevels_append : forestLevels (ts ++ us) = zipLevels (forestLevels ts) (forestLevels us) := by
  induction ts with
  | nil => rw [List.nil_append, forestLevels, zipLevels_nil_left]
  | cons t ts ih => rw [List.cons_append, forestLevels, ih, forestLevels, zipLevels_assoc]

theorem forestLevels_present : forestLevels (present t) = levels t := by
  cases t with
  | nil => rfl
  | node a l r => exact zipLevels_nil_right

theorem levels_node : levels (.node a l r) = [a] :: forestLevels (children (.node a l r)) := by
  rw [levels, children, forestLevels_append, forestLevels_present, forestLevels_present]

theorem forestLevels_of_ne_nil (hne : ts ≠ []) (hts : ∀ t ∈ ts, t ≠ .nil)
    : forestLevels ts = ts.flatMap root :: forestLevels (ts.flatMap children) := by
  induction ts with
  | nil => contradiction
  | cons t ts ih =>
    obtain ⟨ht, hts'⟩ := List.forall_mem_cons.mp hts
    cases t with
    | nil => contradiction
    | node a l r =>
      by_cases hnil : ts = []
      . simp [hnil, forestLevels, levels_node, root]
      . rw [forestLevels, ih hnil hts', levels_node, zipLevels, ← forestLevels_append]
        rfl

end Forest

section Visit

/--
What a queue of nodes is visited as, when every visited node is followed by its children at the end of the
queue.
-/
inductive Visits : List (BinaryTree α) → List α → Prop where
  | nil : Visits [] []
  | node {a : α} {l r : BinaryTree α} {ts : List (BinaryTree α)} {as : List α}
    (rest : Visits (ts ++ children (.node a l r)) as) : Visits (.node a l r :: ts) (a :: as)

theorem Visits.length_le {as : List α} (h : Visits ts as) : ts.length ≤ as.length := by
  induction h with
  | nil => exact Nat.le_refl 0
  | @node a l r ts as rest ih =>
    rw [List.length_append] at ih
    rw [List.length_cons, List.length_cons]
    omega

/--
Induction over the node that is visited next, which is kept apart from the queue behind it.
-/
@[elab_as_elim]
theorem Visits.head_induction_on
    {motive : (t : BinaryTree α) → (ts : List (BinaryTree α)) → (as : List α) → Visits (t :: ts) as → Prop}
    {as : List α} (h : Visits (t :: ts) as) (last : ∀ a, motive (.node a .nil .nil) [] [a] (.node .nil))
    (next : ∀ {a l r ts u us as} (hnext : ts ++ children (.node a l r) = u :: us) (rest : Visits (u :: us) as),
      motive u us as rest → motive (.node a l r) ts (a :: as) (.node (hnext ▸ rest)))
    : motive t ts as h := by
  suffices hall : ∀ {us as} (h : Visits us as) t ts (hus : us = t :: ts), motive t ts as (hus ▸ h) from
    hall h t ts rfl
  intro us as h
  induction h with
  | nil =>
    intro t ts hus
    contradiction
  | @node a l r vs as rest ih =>
    intro t ts hus
    cases hus
    cases hnext : vs ++ children (.node a l r) with
    | nil =>
      obtain ⟨rfl, rfl, rfl⟩ := eq_nil_of_append_children_eq_nil hnext
      cases rest
      exact last a
    | cons u us => exact next hnext (hnext ▸ rest) (ih u us hnext)

def size (ts : List (BinaryTree α)) : Nat :=
  (ts.map BinaryTree.numNodes).sum

/--
The nodes from `ts` on, which are of one level, when `us` are those of the next level so far.
-/
def order (ts us : List (BinaryTree α)) : List α :=
  ts.flatMap root ++ (forestLevels (us ++ ts.flatMap children)).flatten

theorem order_cons : order (.node a l r :: ts) us = a :: order ts (us ++ children (.node a l r)) := by
  rw [order, order, List.append_assoc]
  rfl

theorem order_nil_left : order [] us = (forestLevels us).flatten := by
  rw [order, List.flatMap_nil, List.flatMap_nil, List.append_nil, List.nil_append]

theorem order_nil_right : order us [] = us.flatMap root ++ (forestLevels (us.flatMap children)).flatten := by
  rw [order, List.nil_append]

theorem exists_order_eq_cons (hne : ts ++ us ≠ []) (hts : ∀ t ∈ ts ++ us, t ≠ .nil)
    : ∃ a l r ts' us', ts ++ us = .node a l r :: (ts' ++ us') ∧ order ts us = order (.node a l r :: ts') us' := by
  cases ts with
  | nil =>
    rw [List.nil_append] at hne hts ⊢
    cases us with
    | nil => contradiction
    | cons u us =>
      cases u with
      | nil => exact absurd rfl (hts .nil List.mem_cons_self)
      | node a l r =>
        -- Where a level ends the next one begins.
        refine ⟨a, l, r, us, [], by rw [List.append_nil], ?_⟩
        rw [order_nil_left, order_nil_right, forestLevels_of_ne_nil hne hts, List.flatten_cons]
  | cons t ts =>
    cases t with
    | nil => exact absurd rfl (hts .nil List.mem_cons_self)
    | node a l r => exact ⟨a, l, r, ts, us, rfl, rfl⟩

theorem size_append : size (ts ++ us) = size ts + size us := by
  rw [size, List.map_append, List.sum_append]
  rfl

theorem size_present : size (present t) = t.numNodes := by
  cases t with
  | nil => rfl
  | node a l r => exact Nat.add_zero _

theorem size_children : size (children (.node a l r)) + 1 = (BinaryTree.node a l r).numNodes := by
  rw [children, size_append, size_present, size_present, BinaryTree.numNodes]

theorem size_step : size (ts ++ children (.node a l r)) < size (.node a l r :: ts) := by
  have hnode := size_children (a := a) (l := l) (r := r)
  have hhead : size (.node a l r :: ts) = (BinaryTree.node a l r).numNodes + size ts := List.sum_cons
  rw [hhead, size_append]
  omega

theorem size_cons : size (t :: ts) = t.numNodes + size ts :=
  List.sum_cons

theorem Visits.length_eq {as : List α} (h : Visits ts as) : as.length = size ts := by
  induction h with
  | nil => rfl
  | @node a l r ts as rest ih =>
    have hnode := size_children (a := a) (l := l) (r := r)
    rw [size_append] at ih
    rw [List.length_cons, size_cons]
    omega

theorem visits_order (ts us : List (BinaryTree α)) (hts : ∀ t ∈ ts ++ us, t ≠ .nil)
    : Visits (ts ++ us) (order ts us) := by
  induction hn : size (ts ++ us) using Nat.strongRecOn generalizing ts us with
  | _ n ih =>
    by_cases hne : ts ++ us = []
    . obtain ⟨rfl, rfl⟩ := List.append_eq_nil_iff.mp hne
      exact .nil
    . obtain ⟨a, l, r, ts', us', hsplit, horder⟩ := exists_order_eq_cons hne hts
      rw [hsplit] at hn hts ⊢
      rw [horder, order_cons]
      have hrest : ∀ t ∈ ts' ++ (us' ++ children (.node a l r)), t ≠ .nil := by
        rw [← List.append_assoc, List.forall_mem_append]
        exact ⟨(List.forall_mem_cons.mp hts).2, fun t => mem_children⟩
      have hsize : size (ts' ++ (us' ++ children (.node a l r))) < n := by
        rw [← List.append_assoc, ← hn]
        exact size_step
      have := ih _ hsize ts' _ hrest rfl
      rw [← List.append_assoc] at this
      exact .node this

theorem visits_levelOrder (t : BinaryTree α) : Visits (present t) (levelOrder t) := by
  have := visits_order [] (present t) fun u => mem_present
  rwa [List.nil_append, order_nil_left, forestLevels_present] at this

end Visit

end LevelOrder
