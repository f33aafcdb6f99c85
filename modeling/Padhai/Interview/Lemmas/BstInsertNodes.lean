import Padhai.Interview.Impl.BstInsertNodes
import Padhai.Interview.Lemmas.BstInsertSearch

/-!
This module contains that the program of `bst_insert_search.c` does on the nodes in memory what it does on
trees, and that it loses none of its nodes.
-/

namespace BstInsertNodes

open Heap (Ptr Writes)
open LinkedTree
open Mem (ok_bind error_bind pure_eq_ok bind_eq_ok_iff)

variable {memory : Nat → Node Int} {depth : Nat} {h h' : Heap (Node Int)} {t : LinkedTree Int}
  {s l r : BinaryTree (Nat × Int)} {n : Nat × Int} {data val : Int} {vals : List Int}

section Insert

theorem insert_nil (memory : Nat → Node Int) (depth : Nat) (h : Heap (Node Int)) (data : Int)
    : ∃ h', insert memory (depth + 1) h none data = .ok ⟨h', some h.cells.length⟩
      ∧ h'.cell h.cells.length = some ⟨data, none, none⟩ ∧ Writes h h' [] 1 := by
  have hcell : (getNewNode memory h).heap.cell h.cells.length = some (memory h.cells.length) :=
    Heap.cell_alloc_self
  have hcell' := Heap.cell_write_self (d := some { memory h.cells.length with data }) hcell
  refine ⟨_, ?_, Heap.cell_write_self hcell', ?_⟩
  . rw [insert, if_pos rfl]
    have hroot : (getNewNode memory h).root = some h.cells.length := rfl
    simp only [hroot, Heap.modify_of_cell hcell, ok_bind, Heap.modify_of_cell hcell', pure_eq_ok]
  . exact ((Heap.writes_alloc h _).write (Nat.le_refl _) _).write (Nat.le_refl _) _

theorem insert_of_le {a : Nat} {c : Node Int} (hc : h.cell a = some c) (hle : data ≤ c.data)
    (hinsert : insert memory depth h c.left data = .ok t)
    (hmodify : t.heap.modify (some a) (fun n => { n with left := t.root }) = .ok h')
    : insert memory (depth + 1) h (some a) data = .ok ⟨h', some a⟩ := by
  rw [insert, if_neg (by simp), Heap.load_of_cell hc, ok_bind, if_pos hle, hinsert, ok_bind, hmodify, ok_bind,
    pure_eq_ok]

theorem insert_of_gt {a : Nat} {c : Node Int} (hc : h.cell a = some c) (hgt : c.data < data)
    (hinsert : insert memory depth h c.right data = .ok t)
    (hmodify : t.heap.modify (some a) (fun n => { n with right := t.root }) = .ok h')
    : insert memory (depth + 1) h (some a) data = .ok ⟨h', some a⟩ := by
  rw [insert, if_neg (by simp), Heap.load_of_cell hc, ok_bind, if_neg (not_le_of_gt hgt), if_pos hgt, hinsert,
    ok_bind, hmodify, ok_bind, pure_eq_ok]

theorem insert_linked (hs : Linked h s) (hnodup : (addrs s).Nodup) (hdepth : s.numNodes < depth) (data : Int)
    : ∃ h' s', insert memory depth h (pointer s) data = .ok ⟨h', pointer s'⟩ ∧ Linked h' s'
      ∧ values s' = BstInsertSearch.insert (values s) data
      ∧ (addrs s').Perm (h.cells.length :: addrs s) ∧ Writes h h' (addrs s) 1 := by
  induction s generalizing depth with
  | nil =>
    obtain ⟨depth, rfl⟩ : ∃ d, depth = d + 1 := ⟨depth - 1, by omega⟩
    obtain ⟨h', hinsert, hcell, hw⟩ := insert_nil memory depth h data
    exact ⟨h', .node (h.cells.length, data) .nil .nil, hinsert, ⟨hcell, trivial, trivial⟩, rfl, .refl _,
      hw⟩
  | node n l r ihl ihr =>
    rw [BinaryTree.numNodes] at hdepth
    obtain ⟨depth, rfl⟩ : ∃ d, depth = d + 1 := ⟨depth - 1, by omega⟩
    have hlt := hs.lt List.mem_cons_self
    obtain ⟨hn, hl, hr⟩ := hs
    obtain ⟨⟨hnl, hnr⟩, hndl, hndr, hdisjoint⟩ := nodup_node.mp hnodup
    rcases le_or_gt data n.2 with hle | hgt
    . have hdepthl : l.numNodes < depth := by omega
      obtain ⟨h₁, l', hinsert, hl', hvalues, hperm, hw⟩ := ihl hl hndl hdepthl
      have hnl' : n.1 ∉ addrs l' := by
        rw [hperm.mem_iff, List.mem_cons, not_or]
        exact ⟨hlt.ne, hnl⟩
      obtain ⟨h₂, hmodify, hlinked, hw₂⟩ := Linked.modify (f := fun c => { c with left := pointer l' })
        (hw.cell_eq hn hnl) hl' (hr.writes hw hdisjoint.symm) hnl' hnr rfl
      refine ⟨h₂, .node n l' r, insert_of_le hn hle hinsert hmodify, hlinked, ?_, ?_, ?_⟩
      . rw [values_node, hvalues, values_node, BstInsertSearch.insert_node_of_le hle]
      . exact ((hperm.append_right _).cons _).trans (.swap _ _ _)
      . exact (hw.trans hw₂).mono fun a ha _ => addrs_left_subset ha
    . have hdepthr : r.numNodes < depth := by omega
      obtain ⟨h₁, r', hinsert, hr', hvalues, hperm, hw⟩ := ihr hr hndr hdepthr
      have hnr' : n.1 ∉ addrs r' := by
        rw [hperm.mem_iff, List.mem_cons, not_or]
        exact ⟨hlt.ne, hnr⟩
      obtain ⟨h₂, hmodify, hlinked, hw₂⟩ := Linked.modify (f := fun c => { c with right := pointer r' })
        (hw.cell_eq hn hnr) (hl.writes hw hdisjoint) hr' hnl hnr' rfl
      refine ⟨h₂, .node n l r', insert_of_gt hn hgt hinsert hmodify, hlinked, ?_, ?_, ?_⟩
      . rw [values_node, hvalues, values_node, BstInsertSearch.insert_node_of_gt hgt]
      . have hmiddle := (hperm.append_left (addrs l)).trans List.perm_middle
        exact (hmiddle.cons _).trans (.swap _ _ _)
      . exact (hw.trans hw₂).mono fun a ha _ => addrs_right_subset ha

theorem insert_holds (memory : Nat → Node Int) (ht : Holds t s) (data : Int)
    : ∃ t' s', insert memory (t.heap.cells.length + 1) t.heap t.root data = .ok t' ∧ Holds t' s'
      ∧ values s' = BstInsertSearch.insert (values s) data
      ∧ (addrs s').Perm (t.heap.cells.length :: addrs s) ∧ Writes t.heap t'.heap (addrs s) 1 := by
  obtain ⟨h', s', hinsert, hs', hvalues, hperm, hw⟩ := insert_linked ht.linked ht.nodup
    (Nat.lt_succ_of_le (ht.linked.numNodes_le ht.nodup)) data
  refine ⟨⟨h', pointer s'⟩, s', by rw [ht.root]; exact hinsert, ⟨rfl, hs', ?_⟩, hvalues, hperm, hw⟩
  exact hperm.nodup_iff.mpr (List.nodup_cons.mpr ⟨ht.linked.fresh, ht.nodup⟩)

theorem insertAll_holds (memory : Nat → Node Int) (ht : Holds t s) (vals : List Int)
    : ∃ t' s', insertAll memory t vals = .ok t' ∧ Holds t' s'
      ∧ values s' = vals.foldl BstInsertSearch.insert (values s)
      ∧ (∀ a, a ∈ addrs s' ↔ a ∈ addrs s ∨ t.heap.cells.length ≤ a ∧ a < t'.heap.cells.length)
      ∧ Writes t.heap t'.heap (addrs s) vals.length := by
  induction vals generalizing t s with
  | nil =>
    refine ⟨t, s, rfl, ht, rfl, fun a => ?_, ⟨fun _ _ _ => rfl, rfl, rfl⟩⟩
    rw [or_iff_left]
    omega
  | cons data vals ih =>
    obtain ⟨t₁, s₁, hinsert, ht₁, hvalues, hperm, hw⟩ := insert_holds memory ht data
    obtain ⟨t', s', hall, ht', hvalues', hmem, hw'⟩ := ih ht₁
    have hlength := hw.length
    have hlength' := hw'.length
    refine ⟨t', s', ?_, ht', ?_, fun a => ?_, ?_⟩
    . rw [insertAll, List.foldlM_cons, hinsert]
      exact hall
    . rw [hvalues', hvalues, List.foldl_cons]
    . rw [hmem, hperm.mem_iff, List.mem_cons, hlength]
      constructor
      . rintro ((rfl | ha) | ha)
        . exact .inr (by omega)
        . exact .inl ha
        . exact .inr (by omega)
      . rintro (ha | ha)
        . exact .inl (.inr ha)
        . by_cases hfirst : a = t.heap.cells.length
          . exact .inl (.inl hfirst)
          . exact .inr (by omega)
    . have hboth := hw.trans hw'
      rw [Nat.add_comm] at hboth
      apply hboth.mono
      intro a ha hlt
      rw [List.mem_append, hperm.mem_iff, List.mem_cons] at ha
      rcases ha with ha | rfl | ha
      . exact ha
      . exact absurd hlt (Nat.lt_irrefl _)
      . exact ha

/--
Insertions do on the nodes in memory what they do on trees. A node that was allocated stays within reach,
and those outside of the tree are left alone.
-/
theorem insertAll_reaches (memory : Nat → Node Int) (t : LinkedTree Int) (s : BinaryTree (Nat × Int))
    (vals : List Int) (ht : Holds t s)
    : ∃ t' s', insertAll memory t vals = .ok t' ∧ Holds t' s'
      ∧ values s' = vals.foldl BstInsertSearch.insert (values s)
      ∧ (∀ a, Reaches t'.heap t'.root a
        ↔ Reaches t.heap t.root a ∨ t.heap.cells.length ≤ a ∧ a < t'.heap.cells.length)
      ∧ Writes t.heap t'.heap (addrs s) vals.length := by
  obtain ⟨t', s', hall, ht', hvalues, hmem, hw⟩ := insertAll_holds memory ht vals
  refine ⟨t', s', hall, ht', hvalues, fun a => ?_, hw⟩
  rw [ht'.reaches_iff, ht.reaches_iff, hmem]

/--
The node at 0 is not in the tree.
-/
def secondTree : LinkedTree Int :=
  ⟨⟨[some ⟨7, none, none⟩, some ⟨8, none, none⟩], []⟩, some 1⟩

theorem insertAll_reaches_secondTree
    : ∃ t' s', insertAll (fun _ => ⟨0, some 0, some 0⟩) secondTree [10, 4] = .ok t' ∧ Holds t' s'
      ∧ values s' = [10, 4].foldl BstInsertSearch.insert (.node 8 .nil .nil)
      ∧ (∀ a, Reaches t'.heap t'.root a
        ↔ Reaches secondTree.heap secondTree.root a ∨ 2 ≤ a ∧ a < t'.heap.cells.length)
      ∧ Writes secondTree.heap t'.heap [1] 2 :=
  insertAll_reaches _ secondTree (.node (1, 8) .nil .nil) [10, 4]
    ⟨rfl, ⟨rfl, trivial, trivial⟩, List.nodup_singleton 1⟩

end Insert

section Traversal

variable {q : Queue} {p : BstInsertSearch.Queue} {root : Ptr} {tree : BinaryTree Int}

/--
A queue of pointers and a queue of the trees below them.
-/
abbrev Queued (h : Heap (Node Int)) : Queue → BstInsertSearch.Queue → Prop :=
  ArrayQueue.Related (Represents h)

theorem enqueueChild_simulates (hq : Queued h q p) (hroot : Represents h root tree)
    : Simulates Eq (Queued h) (enqueueChild q root) (BstInsertSearch.enqueueChild p tree) := by
  apply Simulates.ite hroot.eq_none_iff.not
  . intro _
    apply Simulates.ite (by rw [hq.rear])
    . exact fun _ => hq.push hroot
    . exact fun _ => .ok hq
  . exact fun _ => .ok hq

theorem dequeue_simulates (hq : Queued h q p)
    : Simulates Eq (fun a b => Represents h a.1 b.1 ∧ Queued h a.2 b.2) (dequeue q)
        (BstInsertSearch.dequeue p) := by
  apply Simulates.ite (by rw [hq.front, hq.rear])
  . exact fun _ => .ok ⟨represents_nil h, hq⟩
  . exact fun _ => hq.pop

/--
What the traversal prints of a tree it prints of the nodes as well.
-/
theorem levelOrder_simulates (depth : Nat) (hq : Queued h q p) (hroot : Represents h root tree)
    : Simulates InArray (fun a b => a.1 = b.1 ∧ Queued h a.2 b.2) (levelOrder depth h q root)
        (BstInsertSearch.levelOrder depth p tree) := by
  induction depth generalizing q p root tree with
  | zero => exact .error rfl
  | succ depth ih =>
    cases tree with
    | nil =>
      rw [levelOrder, if_pos (hroot.eq_none_iff.mpr rfl)]
      exact .ok ⟨rfl, hq⟩
    | node data left right =>
      obtain ⟨c, hload, rfl, hl, hr⟩ := hroot.load
      rw [levelOrder, if_neg (mt hroot.eq_none_iff.mp (by simp)), hload, onHeap_ok, ok_bind]
      apply (onArray_simulates (enqueueChild_simulates hq hl)).bind
      intro q₁ p₁ hq₁
      apply (onArray_simulates (enqueueChild_simulates hq₁ hr)).bind
      intro q₂ p₂ hq₂
      apply (onArray_simulates (dequeue_simulates hq₂)).bind
      rintro ⟨next, q₃⟩ ⟨tree, p₃⟩ ⟨hnext, hq₃⟩
      apply Simulates.ite hnext.eq_none_iff.not
      . intro _
        apply (ih hq₃ hnext).bind
        rintro ⟨printed, q₄⟩ ⟨_, p₄⟩ ⟨rfl, hq₄⟩
        exact .ok ⟨rfl, hq₄⟩
      . exact fun _ => .ok ⟨rfl, hq₃⟩

def leftValue : BinaryTree Int → List Int
  | .node _ (.node data _ _) _ => [data]
  | _ => []

theorem preorder_represents (hroot : Represents h root tree) : preorder h root = .ok (leftValue tree) := by
  cases tree with
  | nil =>
    rw [preorder, if_pos (hroot.eq_none_iff.mpr rfl)]
    rfl
  | node data left right =>
    obtain ⟨c, hload, rfl, hl, -⟩ := hroot.load
    rw [preorder, if_neg (mt hroot.eq_none_iff.mp (by simp)), hload, onHeap_ok, ok_bind]
    cases left with
    | nil =>
      rw [if_neg (not_not.mpr (hl.eq_none_iff.mpr rfl))]
      rfl
    | node data' left' right' =>
      obtain ⟨c', hload', rfl, -⟩ := hl.load
      rw [if_pos (mt hl.eq_none_iff.mp (by simp)), hload']
      rfl

theorem coe_levelOrder (tree : BinaryTree Int)
    : (LevelOrder.levelOrder tree : Multiset Int) = SearchTree.values tree := by
  induction tree with
  | nil => rfl
  | node data left right ihl ihr =>
    have hperm : ((LevelOrder.zipLevels (LevelOrder.levels left) (LevelOrder.levels right)).flatten : Multiset Int)
        = (LevelOrder.levels left).flatten ++ (LevelOrder.levels right).flatten :=
      Multiset.coe_eq_coe.mpr LevelOrder.zipLevels_flatten_perm
    rw [← Multiset.coe_add] at hperm
    rw [LevelOrder.levelOrder, LevelOrder.levels, List.flatten_cons, ← Multiset.coe_add, hperm,
      SearchTree.values, ← ihl, ← ihr]
    rfl

/--
The program prints the values that it is given level by level as far as its queue goes, each as often as it
is given and whatever was in memory before, and then the left child of the root.
-/
theorem main_prints_levels (memory : Nat → Node Int) (depth : Nat) (vals : List Int)
    : main memory (101 + depth) vals = .ok ((LevelOrder.levelOrder (BstInsertSearch.insertAll vals)).take 101
        ++ leftValue (BstInsertSearch.insertAll vals))
      ∧ (LevelOrder.levelOrder (BstInsertSearch.insertAll vals)).Perm vals := by
  obtain ⟨t, s, hall, ht, hvalues, -⟩ := insertAll_holds memory holds_empty vals
  have hroot : Represents t.heap t.root (BstInsertSearch.insertAll vals) :=
    ⟨s, ht.linked, ht.root.symm, hvalues⟩
  have hQ : Queued t.heap Q BstInsertSearch.Q := ArrayQueue.related_cleared 100 (represents_nil _)
  obtain ⟨p', htree, -⟩ := BstInsertSearch.pending_Q.levelOrder_within (Nat.zero_le 100)
    (BstInsertSearch.insertAll vals) (Nat.le_add_right 101 depth)
  have hsimulates := levelOrder_simulates (101 + depth) hQ hroot
  rw [htree] at hsimulates
  obtain ⟨⟨levels, q'⟩, hlevels, rfl, -⟩ := hsimulates.of_ok
  constructor
  . rw [main, hall, onHeap_ok, ok_bind, hlevels, ok_bind, preorder_represents hroot]
    rfl
  . rw [← Multiset.coe_eq_coe, coe_levelOrder, BstInsertSearch.values_insertAll]

end Traversal

end BstInsertNodes
