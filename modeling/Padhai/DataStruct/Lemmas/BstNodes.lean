import Padhai.DataStruct.Impl.BstNodes
import Padhai.DataStruct.Lemmas.Bst

/-!
This module contains that the tree of `bst.c` has the nodes in memory that it should have, and how many nodes
every insertion leaves behind that cannot be reached any more.
-/

namespace BstNodes

open Heap (Ptr Writes)
open LinkedTree
open Mem (ok_bind pure_eq_ok)
open SearchTree (path path_node_of_gt path_node_of_lt path_node_self)

variable {depth : Nat} {h : Heap (Node Int)} {t : LinkedTree Int} {s l r : BinaryTree (Nat × Int)}
  {n : Nat × Int} {ctx : Context Int} {data val : Int} {vals : List Int} {tree tl tr : BinaryTree Int}

section Insert

/--
The nodes that an insertion allocates: one for each value that it compares `val` with, and one for `val`
unless that is found.
-/
def allocations (val : Int) (tree : BinaryTree Int) : Nat :=
  (path val tree).length + if val ∈ path val tree then 0 else 1

theorem allocations_of_gt (hlt : data < val) : allocations val (.node data tl tr) = allocations val tr + 1 := by
  rw [allocations, allocations, path_node_of_gt hlt, List.length_cons]
  simp only [List.mem_cons, hlt.ne', false_or]
  omega

theorem allocations_of_lt (hlt : val < data) : allocations val (.node data tl tr) = allocations val tl + 1 := by
  rw [allocations, allocations, path_node_of_lt hlt, List.length_cons]
  simp only [List.mem_cons, hlt.ne, false_or]
  omega

theorem allocations_self : allocations val (.node val tl tr) = 1 := by
  rw [allocations, path_node_self]
  simp

theorem insert_replaces (ht : Holds t (ctx.plug s)) (val : Int)
    : ∃ t', assign { t with heap := t.heap.alloc ⟨val, none, none⟩ } (some t.heap.cells.length) ctx.link = .ok t'
      ∧ Holds t' (ctx.plug (.node (t.heap.cells.length, val) .nil .nil))
      ∧ Writes t.heap t'.heap (addrs (ctx.plug s)) 1 := by
  have hperm : (addrs (ctx.plug s)).Perm (addrs s ++ ctx.addrs) := Context.addrs_plug
  have hfresh := ht.linked.fresh
  rw [hperm.mem_iff, List.mem_append, not_or] at hfresh
  have hnodup := (List.nodup_append'.mp (hperm.nodup_iff.mp ht.nodup)).2.1
  have hnew : Linked (t.heap.alloc ⟨val, none, none⟩) (.node (t.heap.cells.length, val) .nil .nil) :=
    ⟨Heap.cell_alloc_self, trivial, trivial⟩
  have ht₁ : Holds { t with heap := t.heap.alloc ⟨val, none, none⟩ } (ctx.plug s) :=
    ⟨ht.root, ht.linked.alloc, ht.nodup⟩
  obtain ⟨t', hassign, ht', hw⟩ := Context.assign_link ht₁ hnew (List.nodup_cons.mpr ⟨hfresh.2, hnodup⟩)
  refine ⟨t', hassign, ht', ((Heap.writes_alloc t.heap _).trans hw).mono fun a ha _ => ?_⟩
  rw [List.nil_append] at ha
  exact hperm.mem_iff.mpr (List.mem_append_right _ ha)

theorem insert_plug (ht : Holds t (ctx.plug s)) (hdepth : s.numNodes < depth) (val : Int)
    : ∃ t' s', insert depth t ctx.link val = .ok t' ∧ Holds t' (ctx.plug s')
      ∧ values s' = Bst.insert (values s) val
      ∧ Writes t.heap t'.heap (addrs (ctx.plug s)) (allocations val (values s)) := by
  induction s generalizing depth t ctx with
  | nil =>
    obtain ⟨depth, rfl⟩ : ∃ d, depth = d + 1 := ⟨depth - 1, by omega⟩
    have ht₁ : Holds { t with heap := t.heap.alloc ⟨val, none, none⟩ } (ctx.plug .nil) :=
      ⟨ht.root, ht.linked.alloc, ht.nodup⟩
    obtain ⟨t', hassign, ht', hw⟩ := insert_replaces ht val
    refine ⟨t', .node (t.heap.cells.length, val) .nil .nil, ?_, ht', rfl, hw⟩
    rw [insert]
    dsimp only
    rw [Context.load_link ht₁, ok_bind, pointer_nil, if_pos rfl, hassign]
  | node n l r ihl ihr =>
    rw [BinaryTree.numNodes] at hdepth
    obtain ⟨depth, rfl⟩ : ∃ d, depth = d + 1 := ⟨depth - 1, by omega⟩
    have ht₁ : Holds { t with heap := t.heap.alloc ⟨val, none, none⟩ } (ctx.plug (.node n l r)) :=
      ⟨ht.root, ht.linked.alloc, ht.nodup⟩
    have hn := (Context.linked_plug.mp ht₁.linked).1.1
    have hw₁ := Heap.writes_alloc t.heap (⟨val, none, none⟩ : Node Int)
    rw [insert]
    dsimp only
    rw [Context.load_link ht₁, ok_bind, pointer_node, if_neg (by simp), Heap.load_of_cell hn, ok_bind]
    dsimp only
    rcases lt_trichotomy n.2 val with hlt | heq | hgt
    . have hdepthr : r.numNodes < depth := by omega
      have ht₂ : Holds { t with heap := t.heap.alloc ⟨val, none, none⟩ } ((Context.right n l ctx).plug r) :=
        ht₁
      obtain ⟨t', r', hinsert, ht', hvalues, hw⟩ := ihr ht₂ hdepthr
      rw [if_pos hlt]
      refine ⟨t', .node n l r', hinsert, ht', ?_, ?_⟩
      . rw [values_node, hvalues, values_node, Bst.insert_node_of_lt hlt]
      . rw [values_node, allocations_of_gt hlt, Nat.add_comm]
        exact hw₁.trans hw
    . obtain ⟨t', hassign, ht', hw⟩ := insert_replaces ht val
      rw [if_neg heq.not_lt, if_neg heq.not_gt]
      refine ⟨t', .node (t.heap.cells.length, val) .nil .nil, hassign, ht', ?_, ?_⟩
      . rw [values_node, values_node, heq, Bst.insert_node_self]
        rfl
      . rw [values_node, heq, allocations_self]
        exact hw
    . have hdepthl : l.numNodes < depth := by omega
      have ht₂ : Holds { t with heap := t.heap.alloc ⟨val, none, none⟩ } ((Context.left n r ctx).plug l) :=
        ht₁
      obtain ⟨t', l', hinsert, ht', hvalues, hw⟩ := ihl ht₂ hdepthl
      rw [if_neg hgt.not_gt, if_pos hgt]
      refine ⟨t', .node n l' r, hinsert, ht', ?_, ?_⟩
      . rw [values_node, hvalues, values_node, Bst.insert_node_of_gt hgt]
      . rw [values_node, allocations_of_lt hgt, Nat.add_comm]
        exact hw₁.trans hw

theorem insert_holds (ht : Holds t s) (val : Int)
    : ∃ t' s', insert (t.heap.cells.length + 1) t .var val = .ok t' ∧ Holds t' s'
      ∧ values s' = Bst.insert (values s) val
      ∧ Writes t.heap t'.heap (addrs s) (allocations val (values s)) := by
  have htop : Holds t ((Context.top : Context Int).plug s) := ht
  exact insert_plug htop (Nat.lt_succ_of_le (ht.linked.numNodes_le ht.nodup)) val

/--
What insertions allocate one after the other.
-/
def allocationsAll (tree : BinaryTree Int) : List Int → Nat
  | [] => 0
  | val :: vals => allocations val tree + allocationsAll (Bst.insert tree val) vals

theorem insertAll_holds (ht : Holds t s) (vals : List Int)
    : ∃ t' s', insertAll t vals = .ok t' ∧ Holds t' s' ∧ values s' = vals.foldl Bst.insert (values s)
      ∧ t'.heap.freed = t.heap.freed
      ∧ t'.heap.cells.length = t.heap.cells.length + allocationsAll (values s) vals := by
  induction vals generalizing t s with
  | nil => exact ⟨t, s, rfl, ht, rfl, rfl, rfl⟩
  | cons val vals ih =>
    obtain ⟨t₁, s₁, hinsert, ht₁, hvalues, hw⟩ := insert_holds ht val
    obtain ⟨t', s', hall, ht', hvalues', hfreed, hlength⟩ := ih ht₁
    refine ⟨t', s', ?_, ht', ?_, hfreed.trans hw.freed, ?_⟩
    . rw [insertAll, List.foldlM_cons, hinsert]
      exact hall
    . rw [hvalues', hvalues, List.foldl_cons]
    . rw [hlength, hw.length, hvalues, allocationsAll, Nat.add_assoc]

theorem numNodes_insert_node (hl : (Bst.insert tl val).numNodes ≤ allocations val tl + tl.numNodes)
    (hr : (Bst.insert tr val).numNodes ≤ allocations val tr + tr.numNodes)
    : (Bst.insert (.node data tl tr) val).numNodes
      < allocations val (.node data tl tr) + (BinaryTree.node data tl tr).numNodes := by
  rcases lt_trichotomy data val with hlt | rfl | hgt
  . rw [Bst.insert_node_of_lt hlt, allocations_of_gt hlt, BinaryTree.numNodes, BinaryTree.numNodes]
    omega
  . rw [Bst.insert_node_self, allocations_self]
    simp only [BinaryTree.numNodes]
    omega
  . rw [Bst.insert_node_of_gt hgt, allocations_of_lt hgt, BinaryTree.numNodes, BinaryTree.numNodes]
    omega

theorem numNodes_insert_le (tree : BinaryTree Int) (val : Int)
    : (Bst.insert tree val).numNodes ≤ allocations val tree + tree.numNodes := by
  induction tree with
  | nil => simp [Bst.insert, allocations, path]
  | node data tl tr ihl ihr => exact (numNodes_insert_node ihl ihr).le

/--
An insertion into a tree leaves a node behind at least.
-/
theorem numNodes_insert_lt (hne : tree ≠ .nil) (val : Int)
    : (Bst.insert tree val).numNodes < allocations val tree + tree.numNodes := by
  cases tree with
  | nil => contradiction
  | node data tl tr => exact numNodes_insert_node (numNodes_insert_le tl val) (numNodes_insert_le tr val)

theorem insert_ne_nil (tree : BinaryTree Int) (val : Int) : Bst.insert tree val ≠ .nil := by
  intro h
  have := Bst.mem_insert_self val tree
  rw [h] at this
  exact SearchTree.notMem_nil this

theorem length_le_allocationsAll (hne : tree ≠ .nil) (vals : List Int)
    : vals.length + (vals.foldl Bst.insert tree).numNodes ≤ allocationsAll tree vals + tree.numNodes := by
  induction vals generalizing tree with
  | nil => simp [allocationsAll]
  | cons val vals ih =>
    have hfirst := numNodes_insert_lt hne val
    have hrest := ih (insert_ne_nil tree val)
    rw [List.length_cons, List.foldl_cons, allocationsAll]
    omega

theorem length_le_allocationsAll_nil (vals : List Int)
    : vals.length + (Bst.insertAll vals).numNodes ≤ allocationsAll .nil vals + 1 := by
  cases vals with
  | nil => simp [Bst.insertAll, allocationsAll]
  | cons val vals =>
    have hrest := length_le_allocationsAll (insert_ne_nil .nil val) vals
    have hone : (Bst.insert .nil val).numNodes = 1 := rfl
    have hfirst : allocations val .nil = 1 := by simp [allocations, path]
    rw [Bst.insertAll, List.length_cons, List.foldl_cons, allocationsAll]
    omega

/--
Of the nodes that the insertions allocate only those of the tree can be reached in the end, and none of the
others is freed: every insertion but the first leaves a node behind.
-/
theorem insertAll_leaks (vals : List Int)
    : ∃ (t : LinkedTree Int) (reached : List Nat), insertAll .empty vals = .ok t
      ∧ Represents t.heap t.root (Bst.insertAll vals) ∧ (∀ a, Reaches t.heap t.root a ↔ a ∈ reached)
      ∧ reached.Nodup ∧ reached.length = (Bst.insertAll vals).numNodes
      ∧ t.heap.cells.length = allocationsAll .nil vals ∧ t.heap.freed = []
      ∧ vals.length + reached.length ≤ t.heap.cells.length + 1 := by
  obtain ⟨t, s, hall, ht, hvalues, hfreed, hlength⟩ := insertAll_holds holds_empty vals
  have hcells : t.heap.cells.length = allocationsAll .nil vals := hlength.trans (Nat.zero_add _)
  have hreached : (addrs s).length = (Bst.insertAll vals).numNodes := by
    rw [length_addrs, ← numNodes_values, hvalues]
    rfl
  refine ⟨t, addrs s, hall, ⟨s, ht.linked, ht.root.symm, hvalues⟩, fun a => ht.reaches_iff, ht.nodup, hreached,
    hcells, hfreed, ?_⟩
  rw [hreached, hcells]
  exact length_le_allocationsAll_nil vals

end Insert

section Print

variable {root : Ptr} {join : List Int → Int → List Int → List Int} {f : BinaryTree Int → List Int}

theorem traverse_represents (hnil : f .nil = [])
    (hnode : ∀ data tl tr, f (.node data tl tr) = join (f tl) data (f tr)) (hroot : Represents h root tree) (hdepth : tree.numNodes < depth)
    : traverse join depth h root = .ok (f tree) := by
  induction tree generalizing depth root with
  | nil =>
    obtain ⟨depth, rfl⟩ : ∃ d, depth = d + 1 := ⟨depth - 1, by omega⟩
    rw [traverse, if_pos (hroot.eq_none_iff.mpr rfl), hnil, pure_eq_ok]
  | node data tl tr ihl ihr =>
    rw [BinaryTree.numNodes] at hdepth
    obtain ⟨depth, rfl⟩ : ∃ d, depth = d + 1 := ⟨depth - 1, by omega⟩
    obtain ⟨c, hload, rfl, hl, hr⟩ := hroot.load
    rw [traverse, if_neg (mt hroot.eq_none_iff.mp (by simp)), hload, ok_bind, ihl hl (by omega), ok_bind,
      ihr hr (by omega), ok_bind, hnode, pure_eq_ok]

theorem printAll_represents (hroot : Represents t.heap t.root tree)
    (hdepth : tree.numNodes < t.heap.cells.length + 1)
    : printAll t = if tree = .nil then .error .null
      else .ok (Bst.preorder tree, Bst.postorder tree, Bst.inorder tree) := by
  have hpre : preorder _ t.heap t.root = .ok (Bst.preorder tree) :=
    traverse_represents rfl (fun _ _ _ => rfl) hroot hdepth
  have hpost : postorder _ t.heap t.root = .ok (Bst.postorder tree) :=
    traverse_represents rfl (fun _ _ _ => rfl) hroot hdepth
  have hin : inorder _ t.heap t.root = .ok (Bst.inorder tree) :=
    traverse_represents rfl (fun _ _ _ => rfl) hroot hdepth
  rw [printAll, hpre, ok_bind, hpost, ok_bind, hin, ok_bind, levelorder]
  cases tree with
  | nil =>
    rw [hroot.eq_none_iff.mpr rfl]
    rfl
  | node data tl tr =>
    obtain ⟨c, hload, -⟩ := hroot.load
    rw [hload, if_neg (by simp)]
    rfl

theorem foldl_insert_ne_nil (hne : tree ≠ .nil) (vals : List Int) : vals.foldl Bst.insert tree ≠ .nil := by
  induction vals generalizing tree with
  | nil => exact hne
  | cons val vals ih => exact ih (insert_ne_nil tree val)

/--
Where the links of the first node happen to be null, the program prints the tree of its values in three
orders, one of them sorted.
-/
theorem main_prints_sorted (memory : Node Int) (first : Int) (vals : List Int) (hleft : memory.left = none)
    (hright : memory.right = none)
    : main memory first vals = .ok (Bst.preorder (Bst.insertAll (first :: vals)),
        Bst.postorder (Bst.insertAll (first :: vals)), Bst.inorder (Bst.insertAll (first :: vals)))
      ∧ (Bst.inorder (Bst.insertAll (first :: vals))).Pairwise (· < ·) := by
  constructor
  . have hfirst : Holds ⟨Heap.empty.alloc { memory with data := first }, some 0⟩
        (.node (0, first) .nil .nil) := by
      refine ⟨rfl, ⟨?_, trivial, trivial⟩, List.nodup_singleton 0⟩
      rw [hleft, hright]
      rfl
    obtain ⟨t, s, hall, ht, hvalues, -⟩ := insertAll_holds hfirst vals
    have hroot : Represents t.heap t.root (Bst.insertAll (first :: vals)) :=
      ⟨s, ht.linked, ht.root.symm, hvalues⟩
    have hle := ht.linked.numNodes_le ht.nodup
    rw [← numNodes_values, hvalues] at hle
    have hne : Bst.insertAll (first :: vals) ≠ .nil := foldl_insert_ne_nil (insert_ne_nil .nil first) vals
    rw [main, hall, ok_bind, printAll_represents hroot (Nat.lt_succ_of_le hle), if_neg hne]
  . exact Bst.inorder_pairwise (Bst.ordered_insertAll _)

theorem main_prints_sorted_fifteen
    : main ⟨7, none, none⟩ 15 [2, 10, 22, 32, 1, 17]
        = .ok ([15, 2, 1, 10, 22, 17, 32], [1, 10, 2, 17, 32, 22, 15], [1, 2, 10, 15, 17, 22, 32])
      ∧ ([1, 2, 10, 15, 17, 22, 32] : List Int).Pairwise (· < ·) :=
  main_prints_sorted ⟨7, none, none⟩ 15 [2, 10, 22, 32, 1, 17] rfl rfl

end Print

end BstNodes
