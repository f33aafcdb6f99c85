import Padhai.Interview.Impl.BstMirrorNodes
import Padhai.Interview.Lemmas.BstMirror

/-!
This module contains that the program of `bst_mirror.c` turns a tree around in place, node by node, and for
which trees it prints the levels of both.
-/

namespace BstMirrorNodes

open BstMirror (maxQLen)
open Heap (Ptr Writes)
open LinkedTree
open Mem (ok_bind pure_eq_ok bind_eq_ok_iff)

variable {depth : Nat} {h h' : Heap (Node Int)} {t : LinkedTree Int} {s l r : BinaryTree (Nat × Int)}
  {n : Nat × Int} {a : Nat}

section Mirror

/--
The same nodes, with left and right exchanged.
-/
def reflected : BinaryTree (Nat × Int) → BinaryTree (Nat × Int)
  | .nil => .nil
  | .node n l r => .node n (reflected r) (reflected l)

theorem reflected_reflected (s : BinaryTree (Nat × Int)) : reflected (reflected s) = s := by
  induction s with
  | nil => rfl
  | node n l r ihl ihr => rw [reflected, reflected, ihl, ihr]

theorem values_reflected (s : BinaryTree (Nat × Int)) : values (reflected s) = BstMirror.mirror (values s) := by
  induction s with
  | nil => rfl
  | node n l r ihl ihr => rw [reflected, values_node, values_node, BstMirror.mirror_node, ihl, ihr]

theorem pointer_reflected (s : BinaryTree (Nat × Int)) : pointer (reflected s) = pointer s := by
  cases s <;> rfl

theorem addrs_reflected (s : BinaryTree (Nat × Int)) : (addrs (reflected s)).Perm (addrs s) := by
  induction s with
  | nil => exact .refl _
  | node n l r ihl ihr =>
    rw [reflected, addrs, addrs]
    exact ((ihr.append ihl).trans List.perm_append_comm).cons n.1

theorem mirror_linked (hs : Linked h s) (hnodup : (addrs s).Nodup) (hdepth : s.numNodes < depth)
    : ∃ h', mirror depth h (pointer s) = .ok h' ∧ Linked h' (reflected s) ∧ Writes h h' (addrs s) 0 := by
  induction s generalizing depth h with
  | nil =>
    obtain ⟨depth, rfl⟩ : ∃ d, depth = d + 1 := ⟨depth - 1, by omega⟩
    exact ⟨h, rfl, trivial, .refl h⟩
  | node n l r ihl ihr =>
    rw [BinaryTree.numNodes] at hdepth
    obtain ⟨depth, rfl⟩ : ∃ d, depth = d + 1 := ⟨depth - 1, by omega⟩
    obtain ⟨hn, hl, hr⟩ := hs
    obtain ⟨⟨hnl, hnr⟩, hndl, hndr, hdisjoint⟩ := nodup_node.mp hnodup
    have hdepthl : l.numNodes < depth := by omega
    have hdepthr : r.numNodes < depth := by omega
    obtain ⟨h₁, hleft, hl₁, hw₁⟩ := ihl hl hndl hdepthl
    have hn₁ := hw₁.cell_eq hn hnl
    obtain ⟨h₂, hright, hr₂, hw₂⟩ := ihr (hr.writes hw₁ hdisjoint.symm) hndr hdepthr
    have hn₂ := hw₂.cell_eq hn₁ hnr
    have hnl' : n.1 ∉ addrs (reflected l) := mt (addrs_reflected l).mem_iff.mp hnl
    have hnr' : n.1 ∉ addrs (reflected r) := mt (addrs_reflected r).mem_iff.mp hnr
    have hl₂ : Linked h₂ (reflected l) :=
      hl₁.writes hw₂ fun a ha => hdisjoint ((addrs_reflected l).mem_iff.mp ha)
    -- For a moment both links lead to the right subtree.
    obtain ⟨h₃, hfirst, hs₃, hw₃⟩ := Linked.modify (f := fun n => { n with left := n.right })
      hn₂ hr₂ hr₂ hnr' hnr' (by rw [pointer_reflected])
    have hl₃ := hl₂.writes hw₃ (List.disjoint_singleton.mpr hnl')
    obtain ⟨h₄, hsecond, hs₄, hw₄⟩ := Linked.modify (f := fun n => { n with right := pointer l })
      hs₃.1 hs₃.2.1 hl₃ hnr' hnl' (by rw [pointer_reflected l])
    refine ⟨h₄, ?_, hs₄, ?_⟩
    . rw [mirror, pointer_node, if_neg (by simp), Heap.load_of_cell hn, ok_bind, hleft, ok_bind,
        Heap.load_of_cell hn₁, ok_bind, hright, ok_bind, Heap.load_of_cell hn₂, ok_bind]
      dsimp only
      rw [hfirst, ok_bind, hsecond]
    . apply (((hw₁.trans hw₂).trans hw₃).trans hw₄).mono
      intro a ha _
      simp only [List.mem_append, List.mem_singleton] at ha
      simp only [addrs, List.mem_cons, List.mem_append]
      tauto

theorem mirror_holds (ht : Holds t s)
    : ∃ h, mirror (t.heap.cells.length + 1) t.heap t.root = .ok h ∧ Holds ⟨h, t.root⟩ (reflected s)
      ∧ Writes t.heap h (addrs s) 0 := by
  have hdepth : s.numNodes < t.heap.cells.length + 1 := Nat.lt_succ_of_le (ht.linked.numNodes_le ht.nodup)
  obtain ⟨h, hmirror, hs, hw⟩ := mirror_linked ht.linked ht.nodup hdepth
  rw [ht.root]
  exact ⟨h, hmirror, ⟨(pointer_reflected s).symm, hs, (addrs_reflected s).nodup_iff.mpr ht.nodup⟩, hw⟩

/--
The tree is turned around in place, with no other cell written, and a second call leaves the memory as it
was before the first.
-/
theorem mirror_restores (t : LinkedTree Int) (s : BinaryTree (Nat × Int)) (ht : Holds t s)
    : ∃ h, mirror (t.heap.cells.length + 1) t.heap t.root = .ok h ∧ Holds ⟨h, t.root⟩ (reflected s)
      ∧ values (reflected s) = BstMirror.mirror (values s) ∧ Writes t.heap h (addrs s) 0
      ∧ mirror (h.cells.length + 1) h t.root = .ok t.heap := by
  obtain ⟨h, hmirror, ht₁, hw₁⟩ := mirror_holds ht
  obtain ⟨h₂, hback, ht₂, hw₂⟩ := mirror_holds ht₁
  rw [reflected_reflected] at ht₂
  have hheap : h₂ = t.heap := by
    apply Heap.eq_of_cell
    . rw [hw₂.length, hw₁.length]
      rfl
    . intro a ha
      by_cases hmem : a ∈ addrs s
      . exact ht₂.linked.cell_eq ht.linked hmem
      . have hlength : h₂.cells.length = h.cells.length := hw₂.length
        rw [hw₂.cell a (hlength ▸ ha) (mt (addrs_reflected s).mem_iff.mp hmem)]
        exact hw₁.cell a (by rw [hlength, hw₁.length] at ha; exact ha) hmem
    . rw [hw₂.freed, hw₁.freed]
  refine ⟨h, hmirror, ht₁, values_reflected s, hw₁, ?_⟩
  rw [← hheap]
  exact hback

def exampleShape : BinaryTree (Nat × Int) :=
  .node (1, 10) (.node (0, 5) .nil .nil) (.node (3, 12) .nil .nil)

/--
The node at 2 is not in the tree.
-/
def exampleTree : LinkedTree Int :=
  ⟨⟨[some ⟨5, none, none⟩, some ⟨10, some 0, some 3⟩, some ⟨7, none, some 1⟩, some ⟨12, none, none⟩], []⟩,
    some 1⟩

theorem holds_exampleTree : Holds exampleTree exampleShape :=
  ⟨rfl, ⟨rfl, ⟨rfl, trivial, trivial⟩, rfl, trivial, trivial⟩, by decide⟩

theorem mirror_restores_exampleTree
    : ∃ h, mirror 5 exampleTree.heap (some 1) = .ok h ∧ Holds ⟨h, some 1⟩ (reflected exampleShape)
      ∧ values (reflected exampleShape) = BstMirror.mirror (values exampleShape)
      ∧ Writes exampleTree.heap h [1, 0, 3] 0
      ∧ mirror (h.cells.length + 1) h (some 1) = .ok exampleTree.heap :=
  mirror_restores exampleTree exampleShape holds_exampleTree

end Mirror

section Traversal

variable {q : Queue} {p : BstMirror.Queue} {root : Ptr} {tree : BinaryTree Int} {turns : Nat}

abbrev Queued (h : Heap (Node Int)) : Queue → BstMirror.Queue → Prop :=
  ArrayQueue.Related (Represents h)

theorem enqueueChild_simulates (hq : Queued h q p) (hroot : Represents h root tree)
    : Simulates Eq (Queued h) (enqueueChild q root) (BstMirror.enqueueChild p tree) := by
  apply Simulates.ite hroot.eq_none_iff.not
  . exact fun _ => hq.push hroot
  . exact fun _ => .ok hq

end Traversal

end BstMirrorNodes
