import Mathlib.Data.Tree.Basic
import Padhai.Lib.Heap
import Padhai.Lib.Simulation

/-!
This module contains binary trees in a heap: when the nodes that a pointer leads to form a given tree, what
can be reached from it, the links that lead to a subtree, and programs that have an array besides.
-/

structure LinkedTree.Node (α : Type) where
  data : α
  left : Heap.Ptr
  right : Heap.Ptr
  deriving DecidableEq, Repr

structure LinkedTree (α : Type) where
  heap : Heap (LinkedTree.Node α)
  root : Heap.Ptr
  deriving DecidableEq, Repr

namespace LinkedTree

open Heap
open Mem (ok_bind pure_eq_ok)

variable {α : Type}

def empty : LinkedTree α := ⟨.empty, none⟩

inductive Fault where
  | node (e : Heap.Fault)
  | array (e : Mem.Fault)
  deriving DecidableEq, Repr

abbrev Checked := Except Fault

def onHeap {β : Type} (x : Heap.Checked β) : Checked β :=
  x.mapError .node

def onArray {β : Type} (x : Mem.Checked β) : Checked β :=
  x.mapError .array

/--
The pointer to the root of a tree that has the address of each node next to its data.
-/
def pointer : BinaryTree (Nat × α) → Ptr
  | .nil => none
  | .node n _ _ => some n.1

def addrs : BinaryTree (Nat × α) → List Nat
  | .nil => []
  | .node n l r => n.1 :: (addrs l ++ addrs r)

def values (s : BinaryTree (Nat × α)) : BinaryTree α :=
  s.map Prod.snd

def Linked (h : Heap (Node α)) : BinaryTree (Nat × α) → Prop
  | .nil => True
  | .node n l r => h.cell n.1 = some ⟨n.2, pointer l, pointer r⟩ ∧ Linked h l ∧ Linked h r

structure Holds (t : LinkedTree α) (s : BinaryTree (Nat × α)) : Prop where
  root : t.root = pointer s
  linked : Linked t.heap s
  nodup : (addrs s).Nodup

/--
The node at `a` is the one that `p` points to, or below it.
-/
inductive Reaches (h : Heap (Node α)) : Ptr → Nat → Prop where
  | here {a : Nat} {c : Node α} (hc : h.cell a = some c) : Reaches h (some a) a
  | left {a b : Nat} {c : Node α} (hc : h.cell b = some c) (hl : Reaches h c.left a) : Reaches h (some b) a
  | right {a b : Nat} {c : Node α} (hc : h.cell b = some c) (hr : Reaches h c.right a) : Reaches h (some b) a

variable {h h' : Heap (Node α)} {t : LinkedTree α} {s u l r : BinaryTree (Nat × α)} {n : Nat × α}
  {a m : Nat} {as : List Nat} {p : Ptr} {x : α}

section Linked

@[simp]
theorem pointer_nil : pointer (.nil : BinaryTree (Nat × α)) = none := rfl

@[simp]
theorem pointer_node : pointer (.node n l r) = some n.1 := rfl

@[simp]
theorem values_nil : values (.nil : BinaryTree (Nat × α)) = .nil := rfl

@[simp]
theorem values_node : values (.node n l r) = .node n.2 (values l) (values r) := rfl

theorem length_addrs (s : BinaryTree (Nat × α)) : (addrs s).length = s.numNodes := by
  induction s with
  | nil => rfl
  | node n l r ihl ihr =>
    rw [addrs, List.length_cons, List.length_append, ihl, ihr]
    rfl

theorem numNodes_values (s : BinaryTree (Nat × α)) : (values s).numNodes = s.numNodes := by
  induction s with
  | nil => rfl
  | node n l r ihl ihr => rw [values_node, BinaryTree.numNodes, BinaryTree.numNodes, ihl, ihr]

theorem Linked.frame (hs : Linked h s) (hcell : ∀ a ∈ addrs s, ∀ c, h.cell a = some c → h'.cell a = some c)
    : Linked h' s := by
  induction s with
  | nil => trivial
  | node n l r ihl ihr =>
    obtain ⟨hn, hl, hr⟩ := hs
    refine ⟨hcell _ List.mem_cons_self _ hn, ihl hl ?_, ihr hr ?_⟩
    . intro a ha
      exact hcell a (List.mem_cons_of_mem _ (List.mem_append_left _ ha))
    . intro a ha
      exact hcell a (List.mem_cons_of_mem _ (List.mem_append_right _ ha))

theorem Linked.writes (hs : Linked h s) (hw : Writes h h' as m) (hdisjoint : (addrs s).Disjoint as)
    : Linked h' s := by
  apply hs.frame
  intro a ha c hc
  exact hw.cell_eq hc (hdisjoint ha)

theorem Linked.alloc {c : Node α} (hs : Linked h s) : Linked (h.alloc c) s :=
  hs.frame fun _ _ _ hd => cell_alloc_of_cell hd

theorem Linked.write {c : Option (Node α)} (hs : Linked h s) (ha : a ∉ addrs s) : Linked (h.write a c) s := by
  apply hs.writes (writes_write h a c)
  rwa [List.disjoint_singleton]

theorem Linked.lt (hs : Linked h s) (ha : a ∈ addrs s) : a < h.cells.length := by
  induction s with
  | nil => contradiction
  | node n l r ihl ihr =>
    obtain ⟨hn, hl, hr⟩ := hs
    rw [addrs, List.mem_cons, List.mem_append] at ha
    rcases ha with rfl | ha | ha
    . exact lt_of_cell hn
    . exact ihl hl ha
    . exact ihr hr ha

/--
The tree tells what its nodes hold.
-/
theorem Linked.cell_eq (hs : Linked h s) (hs' : Linked h' s) (ha : a ∈ addrs s) : h.cell a = h'.cell a := by
  induction s with
  | nil => contradiction
  | node n l r ihl ihr =>
    rw [addrs, List.mem_cons, List.mem_append] at ha
    rcases ha with rfl | ha | ha
    . rw [hs.1, hs'.1]
    . exact ihl hs.2.1 hs'.2.1 ha
    . exact ihr hs.2.2 hs'.2.2 ha

theorem Linked.fresh (hs : Linked h s) : h.cells.length ∉ addrs s :=
  fun ha => absurd (hs.lt ha) (Nat.lt_irrefl _)

theorem Linked.numNodes_le (hs : Linked h s) (hnodup : (addrs s).Nodup) : s.numNodes ≤ h.cells.length := by
  have hsub : addrs s ⊆ List.range h.cells.length := by
    intro a ha
    exact List.mem_range.mpr (hs.lt ha)
  have := (hnodup.subperm hsub).length_le
  rwa [length_addrs, List.length_range] at this

theorem holds_empty : Holds (.empty : LinkedTree α) .nil :=
  ⟨rfl, trivial, List.nodup_nil⟩

theorem mem_addrs_of_reaches (h : Reaches t.heap p a) (hs : Linked t.heap s) (hp : p = pointer s)
    : a ∈ addrs s := by
  induction h generalizing s with
  | here hc =>
    cases s with
    | nil => contradiction
    | node n l r =>
      cases hp
      exact List.mem_cons_self
  | left hc _ ih =>
    cases s with
    | nil => contradiction
    | node n l r =>
      cases hp
      obtain ⟨hn, hl, hr⟩ := hs
      cases hn.symm.trans hc
      exact List.mem_cons_of_mem _ (List.mem_append_left _ (ih hl rfl))
  | right hc _ ih =>
    cases s with
    | nil => contradiction
    | node n l r =>
      cases hp
      obtain ⟨hn, hl, hr⟩ := hs
      cases hn.symm.trans hc
      exact List.mem_cons_of_mem _ (List.mem_append_right _ (ih hr rfl))

theorem reaches_of_mem_addrs (hs : Linked h s) (ha : a ∈ addrs s) : Reaches h (pointer s) a := by
  induction s with
  | nil => contradiction
  | node n l r ihl ihr =>
    obtain ⟨hn, hl, hr⟩ := hs
    rw [addrs, List.mem_cons, List.mem_append] at ha
    rcases ha with rfl | ha | ha
    . exact .here hn
    . exact .left hn (ihl hl ha)
    . exact .right hn (ihr hr ha)

/--
Every other node of the heap is lost.
-/
theorem Holds.reaches_iff (ht : Holds t s) : Reaches t.heap t.root a ↔ a ∈ addrs s := by
  constructor
  . intro h
    exact mem_addrs_of_reaches h ht.linked ht.root
  . intro ha
    rw [ht.root]
    exact reaches_of_mem_addrs ht.linked ha

end Linked

section Modify

theorem nodup_node : (addrs (.node n l r)).Nodup
    ↔ (n.1 ∉ addrs l ∧ n.1 ∉ addrs r) ∧ (addrs l).Nodup ∧ (addrs r).Nodup ∧ (addrs l).Disjoint (addrs r) := by
  rw [addrs, List.nodup_cons, List.nodup_append', List.mem_append, not_or]

theorem addrs_left_subset : addrs l ++ [n.1] ⊆ addrs (.node n l r) := by
  intro a ha
  rw [List.mem_append, List.mem_singleton] at ha
  rw [addrs, List.mem_cons, List.mem_append]
  exact ha.symm.imp id .inl

theorem addrs_right_subset : addrs r ++ [n.1] ⊆ addrs (.node n l r) := by
  intro a ha
  rw [List.mem_append, List.mem_singleton] at ha
  rw [addrs, List.mem_cons, List.mem_append]
  exact ha.symm.imp id .inr

/--
A node is given other subtrees that are in the heap already.
-/
theorem Linked.modify {l' r' : BinaryTree (Nat × α)} {f : Node α → Node α}
    (hn : h.cell n.1 = some ⟨n.2, pointer l, pointer r⟩) (hl : Linked h l') (hr : Linked h r')
    (hnl : n.1 ∉ addrs l') (hnr : n.1 ∉ addrs r')
    (hf : f ⟨n.2, pointer l, pointer r⟩ = ⟨n.2, pointer l', pointer r'⟩)
    : ∃ h', h.modify (some n.1) f = .ok h' ∧ Linked h' (.node n l' r') ∧ Writes h h' [n.1] 0 := by
  refine ⟨_, modify_of_cell hn, ⟨?_, hl.write hnl, hr.write hnr⟩, writes_write h n.1 _⟩
  rw [hf]
  exact cell_write_self hn

end Modify

section Context

/--
A place that holds a pointer: the variable for the root, or one of the links of a node.
-/
inductive Link where
  | var
  | left (node : Ptr)
  | right (node : Ptr)
  deriving DecidableEq, Repr

def load (t : LinkedTree α) : Link → Heap.Checked Ptr
  | .var => return t.root
  | .left node => do
    let c ← t.heap.load node
    return c.left
  | .right node => do
    let c ← t.heap.load node
    return c.right

def assign (t : LinkedTree α) (p : Ptr) : Link → Heap.Checked (LinkedTree α)
  | .var => return { t with root := p }
  | .left node => do
    let heap ← t.heap.modify node (fun c => { c with left := p })
    return { t with heap }
  | .right node => do
    let heap ← t.heap.modify node (fun c => { c with right := p })
    return { t with heap }

/--
A tree without one of its subtrees, from there upwards.
-/
inductive Context (α : Type) where
  | top
  | left (n : Nat × α) (r : BinaryTree (Nat × α)) (up : Context α)
  | right (n : Nat × α) (l : BinaryTree (Nat × α)) (up : Context α)

namespace Context

def plug : Context α → BinaryTree (Nat × α) → BinaryTree (Nat × α)
  | .top, s => s
  | .left n r up, s => up.plug (.node n s r)
  | .right n l up, s => up.plug (.node n l s)

def link : Context α → Link
  | .top => .var
  | .left n _ _ => .left (some n.1)
  | .right n _ _ => .right (some n.1)

def addrs : Context α → List Nat
  | .top => []
  | .left n r up => n.1 :: (LinkedTree.addrs r ++ addrs up)
  | .right n l up => n.1 :: (LinkedTree.addrs l ++ addrs up)

/--
The nodes around the subtree that `p` points to.
-/
def Linked (h : Heap (Node α)) : Context α → Ptr → Prop
  | .top, _ => True
  | .left n r up, p => h.cell n.1 = some ⟨n.2, p, pointer r⟩ ∧ LinkedTree.Linked h r ∧ up.Linked h (some n.1)
  | .right n l up, p => h.cell n.1 = some ⟨n.2, pointer l, p⟩ ∧ LinkedTree.Linked h l ∧ up.Linked h (some n.1)

variable {ctx : Context α}

theorem linked_plug : LinkedTree.Linked h (ctx.plug s) ↔ LinkedTree.Linked h s ∧ ctx.Linked h (pointer s) := by
  induction ctx generalizing s with
  | top => simp [plug, Linked]
  | left n r up ih =>
    rw [plug, ih, LinkedTree.Linked, Linked, pointer_node]
    tauto
  | right n l up ih =>
    rw [plug, ih, LinkedTree.Linked, Linked, pointer_node]
    tauto

theorem addrs_plug : (LinkedTree.addrs (ctx.plug s)).Perm (LinkedTree.addrs s ++ ctx.addrs) := by
  induction ctx generalizing s with
  | top => simp [plug, addrs]
  | left n r up ih =>
    apply ih.trans
    rw [LinkedTree.addrs, addrs, List.cons_append, List.append_assoc]
    exact List.perm_middle.symm
  | right n l up ih =>
    apply ih.trans
    rw [LinkedTree.addrs, addrs, List.cons_append, List.append_assoc]
    exact ((List.perm_append_comm_assoc _ _ _).cons n.1).trans List.perm_middle.symm

theorem pointer_plug (h : pointer s = pointer u) : pointer (ctx.plug s) = pointer (ctx.plug u) := by
  induction ctx generalizing s u with
  | top => exact h
  | left n r up ih => exact ih rfl
  | right n l up ih => exact ih rfl

theorem Linked.writes (hctx : ctx.Linked h p) (hw : Writes h h' as m) (hdisjoint : ctx.addrs.Disjoint as)
    : ctx.Linked h' p := by
  induction ctx generalizing p with
  | top => trivial
  | left n r up ih =>
    obtain ⟨hn, hr, hup⟩ := hctx
    rw [addrs, List.disjoint_cons_left, List.disjoint_append_left] at hdisjoint
    exact ⟨hw.cell_eq hn hdisjoint.1, hr.writes hw hdisjoint.2.1, ih hup hdisjoint.2.2⟩
  | right n l up ih =>
    obtain ⟨hn, hl, hup⟩ := hctx
    rw [addrs, List.disjoint_cons_left, List.disjoint_append_left] at hdisjoint
    exact ⟨hw.cell_eq hn hdisjoint.1, hl.writes hw hdisjoint.2.1, ih hup hdisjoint.2.2⟩

theorem load_link (ht : Holds t (ctx.plug s)) : t.load ctx.link = .ok (pointer s) := by
  have hctx := (linked_plug.mp ht.linked).2
  cases ctx with
  | top =>
    rw [link, load, ht.root]
    rfl
  | left n r up =>
    rw [link, load, load_of_cell hctx.1]
    rfl
  | right n l up =>
    rw [link, load, load_of_cell hctx.1]
    rfl

/--
The subtree is replaced by another one that is in the heap already.
-/
theorem assign_link (ht : Holds t (ctx.plug s)) (hu : LinkedTree.Linked t.heap u)
    (hnodup : (LinkedTree.addrs u ++ ctx.addrs).Nodup)
    : ∃ t', t.assign (pointer u) ctx.link = .ok t' ∧ Holds t' (ctx.plug u)
      ∧ Writes t.heap t'.heap ctx.addrs 0 := by
  have hplug : (LinkedTree.addrs (ctx.plug u)).Nodup := addrs_plug.nodup_iff.mpr hnodup
  have hctx := (linked_plug.mp ht.linked).2
  cases ctx with
  | top => exact ⟨⟨t.heap, pointer u⟩, rfl, ⟨rfl, hu, hplug⟩, .refl t.heap⟩
  | left n r up =>
    obtain ⟨hn, hr, hup⟩ := hctx
    rw [addrs, List.nodup_middle, List.nodup_cons, List.mem_append, List.mem_append, not_or, not_or] at hnodup
    obtain ⟨hnu, hnr, hnup⟩ := hnodup.1
    obtain ⟨h', hmodify, hlinked, hw⟩ := LinkedTree.Linked.modify (f := fun c => { c with left := pointer u })
      hn hu hr hnu hnr rfl
    have hup' := hup.writes hw (List.disjoint_singleton.mpr hnup)
    have hplugged : LinkedTree.Linked h' (up.plug (.node n u r)) := linked_plug.mpr ⟨hlinked, hup'⟩
    refine ⟨⟨h', t.root⟩, ?_, ⟨?_, hplugged, hplug⟩, ?_⟩
    . rw [link, assign, hmodify]
      rfl
    . rw [ht.root]
      change pointer (up.plug _) = pointer (up.plug _)
      exact pointer_plug rfl
    . exact hw.mono fun a ha _ => List.mem_singleton.mp ha ▸ List.mem_cons_self
  | right n l up =>
    obtain ⟨hn, hl, hup⟩ := hctx
    rw [addrs, List.nodup_middle, List.nodup_cons, List.mem_append, List.mem_append, not_or, not_or] at hnodup
    obtain ⟨hnu, hnl, hnup⟩ := hnodup.1
    obtain ⟨h', hmodify, hlinked, hw⟩ := LinkedTree.Linked.modify (f := fun c => { c with right := pointer u })
      hn hl hu hnl hnu rfl
    have hup' := hup.writes hw (List.disjoint_singleton.mpr hnup)
    have hplugged : LinkedTree.Linked h' (up.plug (.node n l u)) := linked_plug.mpr ⟨hlinked, hup'⟩
    refine ⟨⟨h', t.root⟩, ?_, ⟨?_, hplugged, hplug⟩, ?_⟩
    . rw [link, assign, hmodify]
      rfl
    . rw [ht.root]
      change pointer (up.plug _) = pointer (up.plug _)
      exact pointer_plug rfl
    . exact hw.mono fun a ha _ => List.mem_singleton.mp ha ▸ List.mem_cons_self

end Context

end Context

section Programs

variable {β β' : Type} {R : β → β' → Prop} {x : Mem.Checked β} {y : Mem.Checked β'}

theorem onHeap_ok (x : β) : onHeap (.ok x) = .ok x := rfl

def InArray (e : Fault) (e' : Mem.Fault) : Prop :=
  e = .array e'

theorem onArray_simulates (h : Simulates Eq R x y) : Simulates InArray R (onArray x) y :=
  h.mapError fun _ _ he => congrArg Fault.array he

end Programs

section Represents

/--
The nodes below `p` have the values of the tree.
-/
def Represents (h : Heap (Node α)) (p : Ptr) (t : BinaryTree α) : Prop :=
  ∃ s, Linked h s ∧ pointer s = p ∧ values s = t

variable {t : BinaryTree α} {tl tr : BinaryTree α}

theorem represents_nil (h : Heap (Node α)) : Represents h none .nil :=
  ⟨.nil, trivial, rfl, rfl⟩

theorem Represents.eq_none_iff (ht : Represents h p t) : p = none ↔ t = .nil := by
  obtain ⟨s, -, rfl, rfl⟩ := ht
  cases s <;> simp

theorem Represents.load (ht : Represents h p (.node x tl tr))
    : ∃ c, h.load p = .ok c ∧ c.data = x ∧ Represents h c.left tl ∧ Represents h c.right tr := by
  obtain ⟨s, hs, rfl, hvalues⟩ := ht
  cases s with
  | nil => cases hvalues
  | node n l r =>
    cases hvalues
    exact ⟨_, load_of_cell hs.1, rfl, ⟨l, hs.2.1, rfl, rfl⟩, ⟨r, hs.2.2, rfl, rfl⟩⟩

end Represents

end LinkedTree
