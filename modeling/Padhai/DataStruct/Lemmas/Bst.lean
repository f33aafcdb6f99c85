import Mathlib.Data.Int.Order.Basic
import Mathlib.Data.List.Infix
import Padhai.Lib.SearchTree
import Padhai.DataStruct.Impl.Bst

/-!
This module contains that the search tree of `bst.c` stays in order, that its preorder rebuilds it, and the
values that it holds after a sequence of insertions: all of them, as long as no value is inserted again once
another one has been put below it.
-/

namespace Bst

open SearchTree

variable {t l r : BinaryTree Int} {u v w x data val : Int} {p vals : List Int}

section Insert

theorem mem_inorder : v ∈ inorder t ↔ v ∈ t := by
  induction t with
  | nil => simp [inorder]
  | node data l r ihl ihr =>
    rw [inorder, List.mem_append, List.mem_cons, ihl, ihr, mem_node, or_left_comm]

theorem insert_node_of_lt (h : data < val)
    : insert (.node data l r) val = .node data l (insert r val) := by
  rw [insert, if_pos h]

theorem insert_node_of_gt (h : val < data)
    : insert (.node data l r) val = .node data (insert l val) r := by
  rw [insert, if_neg (not_lt_of_gt h)]
  exact if_pos h

theorem insert_node_self : insert (.node data l r) data = .node data .nil .nil := by
  simp [insert]

theorem eq_or_mem_of_mem_insert (h : v ∈ insert t w) : v = w ∨ v ∈ t := by
  induction t with
  | nil => simpa [insert] using h
  | node data l r ihl ihr =>
    rw [mem_node]
    rcases lt_trichotomy data w with hlt | rfl | hgt
    . rw [insert_node_of_lt hlt, mem_node] at h
      rcases h with h | h | h
      . exact .inr (.inl h)
      . exact .inr (.inr (.inl h))
      . exact (ihr h).imp id (fun h => .inr (.inr h))
    . rw [insert_node_self] at h
      simp only [mem_node, notMem_nil, or_false] at h
      exact .inl h
    . rw [insert_node_of_gt hgt, mem_node] at h
      rcases h with h | h | h
      . exact .inr (.inl h)
      . exact (ihl h).imp id (fun h => .inr (.inl h))
      . exact .inr (.inr (.inr h))

theorem ordered_insert (h : Ordered t) : Ordered (insert t w) := by
  induction t with
  | nil => simp [Bst.insert, Ordered]
  | node data l r ihl ihr =>
    obtain ⟨hl, hr, hol, hor⟩ := h
    rcases lt_trichotomy data w with hlt | rfl | hgt
    . rw [insert_node_of_lt hlt]
      refine ⟨hl, ?_, hol, ihr hor⟩
      intro x hx
      rcases eq_or_mem_of_mem_insert hx with rfl | hx
      . exact hlt
      . exact hr x hx
    . simp [insert_node_self, Ordered]
    . rw [insert_node_of_gt hgt]
      refine ⟨?_, hr, ihl hol, hor⟩
      intro x hx
      rcases eq_or_mem_of_mem_insert hx with rfl | hx
      . exact hgt
      . exact hl x hx

theorem mem_insert (h : Ordered t) : v ∈ insert t u ↔ v = u ∨ v ∈ t ∧ u ∉ path v t := by
  induction t with
  | nil => simp [insert]
  | node data l r ihl ihr =>
    have hinsert := ordered_insert (w := u) h
    rcases lt_trichotomy data u with hlt | rfl | hgt
    . rw [insert_node_of_lt hlt] at hinsert ⊢
      rcases lt_trichotomy data v with hv | rfl | hv
      . rw [hinsert.mem_node_of_gt hv, h.mem_node_of_gt hv, path_node_of_gt hv, ihr h.2.2.2,
          List.mem_cons, or_iff_right hlt.ne']
      . simp [path_node_self, hlt.ne']
      . have hpath := h.notMem_path_of_gt hlt hv
        rw [hinsert.mem_node_of_lt hv, h.mem_node_of_lt hv, or_iff_right (hv.trans hlt).ne,
          and_iff_left hpath]
    . simp [insert_node_self, root_mem_path]
    . rw [insert_node_of_gt hgt] at hinsert ⊢
      rcases lt_trichotomy data v with hv | rfl | hv
      . have hpath := h.notMem_path_of_lt hgt hv
        rw [hinsert.mem_node_of_gt hv, h.mem_node_of_gt hv, or_iff_right (hgt.trans hv).ne',
          and_iff_left hpath]
      . simp [path_node_self, hgt.ne]
      . rw [hinsert.mem_node_of_lt hv, h.mem_node_of_lt hv, path_node_of_lt hv, ihl h.2.2.1,
          List.mem_cons, or_iff_right hgt.ne]

/--
Nothing is below `w`: the search for another value does not go past it.
-/
def Bottom (w : Int) (t : BinaryTree Int) : Prop :=
  ∀ v ∈ t, w ∈ path v t → v = w

theorem Bottom.right (hw : Bottom w (.node data l r)) (h : Ordered (.node data l r)) : Bottom w r := by
  intro v hv hmem
  apply hw v (.inr (.inr hv))
  rw [path_node_of_gt (h.2.1 v hv)]
  exact List.mem_cons_of_mem data hmem

theorem Bottom.left (hw : Bottom w (.node data l r)) (h : Ordered (.node data l r)) : Bottom w l := by
  intro v hv hmem
  apply hw v (.inr (.inl hv))
  rw [path_node_of_lt (h.1 v hv)]
  exact List.mem_cons_of_mem data hmem

/--
A root that nothing is below is the only value of its tree.
-/
theorem Bottom.mem_path_root (hw : Bottom data (.node data l r))
    : u ∈ path v (.node data .nil .nil) ↔ u ∈ path v (.node data l r) := by
  constructor
  . intro hu
    have hmem := mem_of_mem_path hu
    simp only [mem_node, notMem_nil, or_false] at hmem
    rw [hmem]
    exact root_mem_path
  . intro hu
    rw [hw u (mem_of_mem_path hu) root_mem_path]
    exact root_mem_path

/--
As long as nothing is below `w`, inserting it only adds it to the paths of the values that no value of
the tree separates from it.
-/
theorem mem_path_insert (h : Ordered t) (hw : Bottom w t)
    : u ∈ path v (insert t w) ↔ u ∈ path v t ∨ u = w ∧ ∀ x ∈ t, ¬Between w v x := by
  induction t with
  | nil => simp [insert, path]
  | node data l r ihl ihr =>
    rcases lt_trichotomy data w with hlt | rfl | hgt
    . rw [insert_node_of_lt hlt]
      rcases lt_trichotomy data v with hv | rfl | hv
      . rw [path_node_of_gt hv, path_node_of_gt hv, List.mem_cons, List.mem_cons,
          h.forall_notBetween_of_gt hlt hv, ihr h.2.2.2 (hw.right h), or_assoc]
      . have hnot := not_forall_notBetween (l := l) (r := r) (between_right w data)
        rw [path_node_self, path_node_self, or_iff_left (fun h => hnot h.2)]
      . have hnot := not_forall_notBetween (l := l) (r := r) (between_of_lt_of_gt hlt hv)
        rw [path_node_of_lt hv, path_node_of_lt hv, or_iff_left (fun h => hnot h.2)]
    . have hnot := not_forall_notBetween (l := l) (r := r) (between_left data v)
      rw [insert_node_self, or_iff_left (fun h => hnot h.2), hw.mem_path_root]
    . rw [insert_node_of_gt hgt]
      rcases lt_trichotomy data v with hv | rfl | hv
      . have hnot := not_forall_notBetween (l := l) (r := r) (between_of_gt_of_lt hgt hv)
        rw [path_node_of_gt hv, path_node_of_gt hv, or_iff_left (fun h => hnot h.2)]
      . have hnot := not_forall_notBetween (l := l) (r := r) (between_right w data)
        rw [path_node_self, path_node_self, or_iff_left (fun h => hnot h.2)]
      . rw [path_node_of_lt hv, path_node_of_lt hv, List.mem_cons, List.mem_cons,
          h.forall_notBetween_of_lt hgt hv, ihl h.2.2.1 (hw.left h), or_assoc]

end Insert

section SearchOrder

theorem mem_insert_self (val : Int) (t : BinaryTree Int) : val ∈ insert t val := by
  induction t with
  | nil => exact root_mem
  | node data l r ihl ihr =>
    rcases lt_trichotomy data val with hlt | rfl | hgt
    . rw [insert_node_of_lt hlt]
      exact .inr (.inr ihr)
    . rw [insert_node_self]
      exact root_mem
    . rw [insert_node_of_gt hgt]
      exact .inr (.inl ihl)

theorem insertAll_snoc : insertAll (p ++ [u]) = insert (insertAll p) u := by
  simp [insertAll]

theorem ordered_insertAll (vals : List Int) : Ordered (insertAll vals) := by
  induction vals using List.reverseRecOn with
  | nil => trivial
  | append_singleton p u ih =>
    rw [insertAll_snoc]
    exact ordered_insert ih

theorem inorder_pairwise (h : Ordered t) : (inorder t).Pairwise (· < ·) := by
  induction t with
  | nil => exact .nil
  | node data l r ihl ihr =>
    obtain ⟨hl, hr, hol, hor⟩ := h
    rw [inorder, List.pairwise_append, List.pairwise_cons]
    refine ⟨ihl hol, ⟨fun x hx => hr x (mem_inorder.mp hx), ihr hor⟩, ?_⟩
    intro x hx y hy
    have hlt := hl x (mem_inorder.mp hx)
    rcases List.mem_cons.mp hy with rfl | hy
    . exact hlt
    . exact hlt.trans (hr y (mem_inorder.mp hy))

/--
After every call the tree is in order and holds the value that was just inserted.
-/
def KeepsOrder (vals : List Int) : Prop :=
  ∀ p val, p ++ [val] <+: vals
    → Ordered (insertAll (p ++ [val])) ∧ (inorder (insertAll (p ++ [val]))).Pairwise (· < ·)
      ∧ val ∈ inorder (insertAll (p ++ [val]))

theorem insertAll_keepsOrder (vals : List Int) : KeepsOrder vals := by
  intro p val _
  have hordered := ordered_insertAll (p ++ [val])
  refine ⟨hordered, inorder_pairwise hordered, ?_⟩
  rw [insertAll_snoc, mem_inorder]
  exact mem_insert_self val _

end SearchOrder

section Preorder

theorem mem_preorder : v ∈ preorder t ↔ v ∈ t := by
  induction t with
  | nil => simp [preorder]
  | node data l r ihl ihr => rw [preorder, List.mem_cons, List.mem_append, ihl, ihr, mem_node]

theorem foldl_insert_left (h : ∀ v ∈ vals, v < data)
    : vals.foldl insert (.node data l r) = .node data (vals.foldl insert l) r := by
  induction vals generalizing l with
  | nil => rfl
  | cons val vals ih =>
    obtain ⟨hval, hvals⟩ := List.forall_mem_cons.mp h
    rw [List.foldl_cons, insert_node_of_gt hval, ih hvals, List.foldl_cons]

theorem foldl_insert_right (h : ∀ v ∈ vals, data < v)
    : vals.foldl insert (.node data l r) = .node data l (vals.foldl insert r) := by
  induction vals generalizing r with
  | nil => rfl
  | cons val vals ih =>
    obtain ⟨hval, hvals⟩ := List.forall_mem_cons.mp h
    rw [List.foldl_cons, insert_node_of_lt hval, ih hvals, List.foldl_cons]

theorem insertAll_preorder (t : BinaryTree Int) (h : Ordered t) : insertAll (preorder t) = t := by
  induction t with
  | nil => rfl
  | node data l r ihl ihr =>
    obtain ⟨hl, hr, hol, hor⟩ := h
    have hleft : ∀ v ∈ preorder l, v < data := fun v hv => hl v (mem_preorder.mp hv)
    have hright : ∀ v ∈ preorder r, data < v := fun v hv => hr v (mem_preorder.mp hv)
    have hroot : insert .nil data = .node data .nil .nil := rfl
    rw [insertAll, preorder, List.foldl_cons, hroot, List.foldl_append, foldl_insert_left hleft,
      foldl_insert_right hright]
    exact congrArg₂ (BinaryTree.node data) (ihl hol) (ihr hor)

theorem insertAll_preorder_fifteen
    : insertAll (preorder (.node 15 (.node 2 .nil (.node 10 .nil .nil)) (.node 22 .nil .nil)))
      = .node 15 (.node 2 .nil (.node 10 .nil .nil)) (.node 22 .nil .nil) :=
  insertAll_preorder _ (by simp [Ordered])

end Preorder

section Postorder

theorem mem_postorder : v ∈ postorder t ↔ v ∈ t := by
  induction t with
  | nil => simp [postorder]
  | node data l r ihl ihr =>
    rw [postorder, List.mem_append, List.mem_append, List.mem_singleton, ihl, ihr, mem_node, or_comm]

/--
Backwards the root comes first, then all of its right side and then all of its left side.
-/
theorem insertAll_postorder (t : BinaryTree Int) (h : Ordered t) : insertAll (postorder t).reverse = t := by
  induction t with
  | nil => rfl
  | node data l r ihl ihr =>
    obtain ⟨hl, hr, hol, hor⟩ := h
    have hleft : ∀ v ∈ (postorder l).reverse, v < data :=
      fun v hv => hl v (mem_postorder.mp (List.mem_reverse.mp hv))
    have hright : ∀ v ∈ (postorder r).reverse, data < v :=
      fun v hv => hr v (mem_postorder.mp (List.mem_reverse.mp hv))
    have hroot : insert .nil data = .node data .nil .nil := rfl
    rw [insertAll, postorder, List.reverse_concat, List.reverse_append, List.foldl_cons, hroot, List.foldl_append,
      foldl_insert_right hright, foldl_insert_left hleft]
    exact congrArg₂ (BinaryTree.node data) (ihl hol) (ihr hor)

theorem insertAll_postorder_fifteen
    : insertAll (postorder (.node 15 (.node 2 .nil (.node 10 .nil .nil)) (.node 22 .nil .nil))).reverse
      = .node 15 (.node 2 .nil (.node 10 .nil .nil)) (.node 22 .nil .nil) :=
  insertAll_postorder _ (by simp [Ordered])

end Postorder

section Keeps

/--
Of the values of `p` between `u` and `v` the first is `u`.
-/
def FirstBetween (p : List Int) (u v : Int) : Prop :=
  p.find? (fun w => Between u v w) = some u

def KeepsValues (vals : List Int) : Prop :=
  ∀ p, p <+: vals → ∀ v, v ∈ inorder (insertAll p) ↔ v ∈ p

/--
No value is inserted again once another has been put below it.
-/
def NothingBelow (vals : List Int) : Prop :=
  ∀ p u, p ++ [u] <+: vals → ∀ v ∈ p, FirstBetween p u v → v = u

structure Represents (t : BinaryTree Int) (p : List Int) : Prop where
  ordered : Ordered t
  mem : ∀ v, v ∈ t ↔ v ∈ p
  path : ∀ u v, u ∈ path v t ↔ FirstBetween p u v

theorem firstBetween_snoc
    : FirstBetween (p ++ [w]) u v ↔ FirstBetween p u v ∨ u = w ∧ ∀ x ∈ p, ¬Between w v x := by
  have hlast : List.find? (fun x => decide (Between u v x)) [w] = some u ↔ u = w := by
    constructor
    . intro h
      exact List.mem_singleton.mp (List.mem_of_find?_eq_some h)
    . rintro rfl
      simp [between_left]
  unfold FirstBetween
  rw [List.find?_append, Option.or_eq_some_iff, hlast, List.find?_eq_none, and_comm]
  apply or_congr_right
  apply and_congr_right
  rintro rfl
  simp only [decide_eq_true_eq]

theorem represents_nil : Represents (insertAll []) [] := by
  constructor
  all_goals simp [insertAll, Ordered, path, FirstBetween]

theorem Represents.insert (h : Represents t p) (hw : ∀ v ∈ p, FirstBetween p w v → v = w)
    : Represents (insert t w) (p ++ [w]) := by
  have hpath : Bottom w t := by
    intro v hv hmem
    exact hw v ((h.mem v).mp hv) ((h.path w v).mp hmem)
  refine ⟨ordered_insert h.ordered, fun v => ?_, fun u v => ?_⟩
  . rw [mem_insert h.ordered, h.mem, h.path, List.mem_append, List.mem_singleton]
    have := hw v
    tauto
  . rw [mem_path_insert h.ordered hpath, firstBetween_snoc, h.path]
    simp only [h.mem]

theorem keepsValues_snoc
    : KeepsValues (p ++ [u])
      ↔ KeepsValues p ∧ ∀ v, v ∈ inorder (insertAll (p ++ [u])) ↔ v ∈ p ++ [u] := by
  simp only [KeepsValues, List.prefix_concat_iff, forall_eq_or_imp, and_comm]

theorem nothingBelow_snoc
    : NothingBelow (p ++ [u])
      ↔ NothingBelow p ∧ ∀ v ∈ p, FirstBetween p u v → v = u := by
  simp only [NothingBelow, List.prefix_concat_iff]
  constructor
  . intro h
    exact ⟨fun q w hq => h q w (.inr hq), h p u (.inl rfl)⟩
  . rintro ⟨h, hu⟩ q w (heq | hq)
    . obtain ⟨rfl, hw⟩ := List.append_inj' heq rfl
      cases hw
      exact hu
    . exact h q w hq

theorem NothingBelow.represents (h : NothingBelow vals) : Represents (insertAll vals) vals := by
  induction vals using List.reverseRecOn with
  | nil => exact represents_nil
  | append_singleton p w ih =>
    rw [nothingBelow_snoc] at h
    rw [insertAll_snoc]
    exact (ih h.1).insert h.2

theorem keepsValues_iff (vals : List Int) : KeepsValues vals ↔ NothingBelow vals := by
  induction vals using List.reverseRecOn with
  | nil => simp [KeepsValues, NothingBelow, insertAll, inorder]
  | append_singleton p u ih =>
    rw [keepsValues_snoc, nothingBelow_snoc, ih]
    apply and_congr_right
    intro h
    have hp := h.represents
    simp only [insertAll_snoc, mem_inorder, mem_insert hp.ordered, hp.mem, hp.path, List.mem_append,
      List.mem_singleton]
    apply forall_congr'
    intro v
    tauto

theorem not_keepsValues_repeated
    : inorder (insertAll [5, 3, 5]) = [5] ∧ ¬KeepsValues [5, 3, 5] := by
  refine ⟨by decide, fun h => ?_⟩
  have := (h [5, 3, 5] (List.prefix_refl _) 3).mpr (by decide)
  revert this
  decide

end Keeps

end Bst
