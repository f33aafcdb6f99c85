import Padhai.Lib.Heap

/-!
This module contains singly linked lists in a heap: the nodes that a chain of pointers goes through up to
some pointer, when a list consists of given nodes, and appending a node at the end.
-/

structure LinkedList.Node (α : Type) where
  data : α
  next : Heap.Ptr
  deriving DecidableEq, Repr

structure LinkedList (α : Type) where
  heap : Heap (LinkedList.Node α)
  head : Heap.Ptr
  deriving DecidableEq, Repr

namespace LinkedList

open Heap
open Mem (ok_bind pure_eq_ok)

variable {α : Type}

def empty : LinkedList α := ⟨.empty, none⟩

/--
The pointer to the first node of `ns`, which is `q` if there is none.
-/
def first : List (Nat × α) → Ptr → Ptr
  | [], q => q
  | (a, _) :: _, _ => some a

def addrs (ns : List (Nat × α)) : List Nat :=
  ns.map Prod.fst

/--
The nodes `ns`, each an address and the data there, are linked in this order and the last of them to `q`.
-/
def Segment (h : Heap (Node α)) : List (Nat × α) → Ptr → Prop
  | [], _ => True
  | (a, x) :: ns, q => h.cell a = some ⟨x, first ns q⟩ ∧ Segment h ns q

structure Holds (l : LinkedList α) (ns : List (Nat × α)) : Prop where
  head : l.head = first ns none
  segment : Segment l.heap ns none
  nodup : (addrs ns).Nodup

variable {h h' : Heap (Node α)} {l : LinkedList α} {ns ms : List (Nat × α)} {p q : Ptr} {a : Nat}
  {x : α}

section Segment

@[simp]
theorem addrs_append : addrs (ns ++ ms) = addrs ns ++ addrs ms := by
  simp [addrs]

@[simp]
theorem addrs_cons {n : Nat × α} : addrs (n :: ns) = n.1 :: addrs ns := rfl

@[simp]
theorem addrs_nil : addrs ([] : List (Nat × α)) = [] := rfl

theorem first_cons {n : Nat × α} : first (n :: ns) q = some n.1 := rfl

theorem first_append : first (ns ++ ms) q = first ns (first ms q) := by
  cases ns with
  | nil => rfl
  | cons n ns => rfl

theorem first_ne_none (hne : ns ≠ []) : first ns q ≠ none := by
  cases ns with
  | nil => contradiction
  | cons n ns => simp [first]

theorem first_append_of_ne_nil (hne : ns ≠ []) : first (ns ++ ms) p = first ns q := by
  cases ns with
  | nil => contradiction
  | cons n ns => rfl

theorem segment_append : Segment h (ns ++ ms) q ↔ Segment h ns (first ms q) ∧ Segment h ms q := by
  induction ns with
  | nil => simp [Segment]
  | cons n ns ih =>
    rw [List.cons_append, Segment, Segment, ih, first_append, and_assoc]

theorem Segment.frame (hs : Segment h ns q)
    (hcell : ∀ a ∈ addrs ns, ∀ c, h.cell a = some c → h'.cell a = some c)
    : Segment h' ns q := by
  induction ns with
  | nil => trivial
  | cons n ns ih =>
    obtain ⟨hn, hs⟩ := hs
    exact ⟨hcell _ List.mem_cons_self _ hn, ih hs fun a ha => hcell a (List.mem_cons_of_mem _ ha)⟩

theorem Segment.write {c : Option (Node α)} (hs : Segment h ns q) (ha : a ∉ addrs ns)
    : Segment (h.write a c) ns q := by
  apply hs.frame
  intro b hb d hd
  rwa [cell_write_of_ne (ne_of_mem_of_not_mem hb ha).symm]

theorem Segment.release (hs : Segment h ns q) (ha : a ∉ addrs ns) : Segment (h.release a) ns q := by
  apply hs.frame
  intro b hb d hd
  rwa [cell_release_of_ne (ne_of_mem_of_not_mem hb ha).symm]

theorem Segment.alloc {c : Node α} (hs : Segment h ns q) : Segment (h.alloc c) ns q :=
  hs.frame fun _ _ _ hd => cell_alloc_of_cell hd

theorem Segment.setData {n : Nat × α} (hs : Segment h (ns ++ n :: ms) q)
    (hnodup : (addrs (ns ++ n :: ms)).Nodup) (x : α)
    : Segment (h.write n.1 (some ⟨x, first ms q⟩)) (ns ++ (n.1, x) :: ms) q := by
  obtain ⟨hns, hn, hms⟩ := segment_append.mp hs
  rw [addrs_append, addrs_cons, List.nodup_middle, List.nodup_cons, List.mem_append, not_or] at hnodup
  exact segment_append.mpr ⟨hns.write hnodup.1.1, cell_write_self hn, hms.write hnodup.1.2⟩

theorem Segment.unlink {m n : Nat × α} (hs : Segment h (ns ++ [m] ++ n :: ms) q)
    (hnodup : (addrs (ns ++ [m] ++ n :: ms)).Nodup)
    : m.1 ≠ n.1
      ∧ Segment ((h.write m.1 (some ⟨m.2, first ms q⟩)).release n.1) (ns ++ [m] ++ ms) q := by
  obtain ⟨hs, -, hms⟩ := segment_append.mp hs
  obtain ⟨hns, hm, -⟩ := segment_append.mp hs
  simp only [addrs_append, addrs_cons, addrs_nil] at hnodup
  have hmn : m.1 ≠ n.1 := by
    grind
  refine ⟨hmn, ?_⟩
  rw [segment_append, segment_append]
  refine ⟨⟨?_, ?_, trivial⟩, ?_⟩
  . exact (hns.write (by grind)).release (by grind)
  . rw [cell_release_of_ne hmn.symm]
    exact cell_write_self hm
  . exact (hms.write (by grind)).release (by grind)

theorem Segment.lt (hs : Segment h ns q) (ha : a ∈ addrs ns) : a < h.cells.length := by
  induction ns with
  | nil => contradiction
  | cons n ns ih =>
    obtain ⟨hn, hs⟩ := hs
    rcases List.mem_cons.mp ha with rfl | ha
    . exact lt_of_cell hn
    . exact ih hs ha

theorem Segment.length_le (hs : Segment h ns q) (hnodup : (addrs ns).Nodup)
    : ns.length ≤ h.cells.length := by
  have hsub : addrs ns ⊆ List.range h.cells.length := by
    intro a ha
    exact List.mem_range.mpr (hs.lt ha)
  have := (hnodup.subperm hsub).length_le
  simpa [addrs] using this

theorem holds_empty : Holds (.empty : LinkedList α) [] :=
  ⟨rfl, trivial, List.nodup_nil⟩

end Segment

section Append

def toLast (h : Heap (Node α)) (p : Ptr) : Checked (Ptr ⊕ Ptr) := do
  let c ← h.load p
  if c.next = none then
    return .inr p
  else
    return .inl c.next

def append (l : LinkedList α) (x : α) : Checked (LinkedList α) := do
  let temp := some l.heap.cells.length
  let heap := l.heap.alloc ⟨x, none⟩
  if l.head = none then
    return ⟨heap, temp⟩
  else
    let p ← heap.loop (toLast heap) l.head
    let heap ← heap.modify p (fun c => { c with next := temp })
    return { l with heap }

theorem toLast_of_next (hcell : h.cell a = some ⟨x, p⟩) (hp : p ≠ none)
    : toLast h (some a) = .ok (.inl p) := by
  rw [toLast, load_of_cell hcell, ok_bind, if_neg hp, pure_eq_ok]

theorem toLast_steps (hs : Segment h (ns ++ [(a, x)]) none)
    : Loop.Steps (toLast h) ns.length (first (ns ++ [(a, x)]) none) (some a) := by
  induction ns with
  | nil => exact .refl _
  | cons n ns ih =>
    obtain ⟨hn, hs⟩ := hs
    exact .turn (toLast_of_next hn (first_ne_none (by simp))) (ih hs)

theorem toLast_done (hcell : h.cell a = some ⟨x, none⟩) : toLast h (some a) = .ok (.inr (some a)) := by
  rw [toLast, load_of_cell hcell]
  rfl

theorem Holds.fresh (hl : Holds l ns) (x : α)
    : (addrs (ns ++ [(l.heap.cells.length, x)])).Nodup := by
  rw [addrs_append]
  apply hl.nodup.append (List.nodup_singleton _)
  rw [List.disjoint_singleton]
  intro hmem
  exact absurd (hl.segment.lt hmem) (lt_irrefl _)

theorem Holds.loop_toLast (hl : Holds l (ms ++ [(a, x)]))
    : l.heap.loop (toLast l.heap) l.head = .ok (some a) := by
  have hle := hl.segment.length_le hl.nodup
  rw [List.length_append] at hle
  have hlast := (segment_append.mp hl.segment).2.1
  rw [hl.head]
  exact loop_of_steps_done (toLast_steps hl.segment) (toLast_done hlast) (by omega)

/--
Linking the last node to a node behind it.
-/
theorem Segment.link {b : Nat} {y : α} (hs : Segment h (ms ++ [(a, y)]) none) (hb : h.cell b = some ⟨x, none⟩)
    (hnodup : (addrs (ms ++ [(a, y)] ++ [(b, x)])).Nodup)
    : Segment (h.write a (some ⟨y, some b⟩)) (ms ++ [(a, y)] ++ [(b, x)]) none := by
  obtain ⟨hms, ha, -⟩ := segment_append.mp hs
  simp only [addrs_append, addrs_cons, addrs_nil] at hnodup
  rw [segment_append, segment_append]
  refine ⟨⟨hms.write (by grind), cell_write_self ha, trivial⟩, ?_, trivial⟩
  rw [cell_write_of_ne (by grind)]
  exact hb

theorem Holds.append_nil (hl : Holds l []) (x : α)
    : append l x = .ok ⟨l.heap.alloc ⟨x, none⟩, some l.heap.cells.length⟩ := by
  have hhead : l.head = none := hl.head
  rw [append, if_pos hhead, pure_eq_ok]

theorem Holds.append_concat {y : α} (hl : Holds l (ms ++ [(a, y)])) (x : α)
    : append l x = .ok ⟨(l.heap.alloc ⟨x, none⟩).write a (some ⟨y, some l.heap.cells.length⟩), l.head⟩ := by
  have hhead : l.head ≠ none := by
    rw [hl.head]
    exact first_ne_none (by simp)
  have hs := hl.segment.alloc (c := ⟨x, none⟩)
  have hlast := Holds.loop_toLast (l := ⟨l.heap.alloc ⟨x, none⟩, l.head⟩) ⟨hl.head, hs, hl.nodup⟩
  rw [append, if_neg hhead, hlast, ok_bind, modify_of_cell (segment_append.mp hs).2.1]
  rfl

theorem Holds.append (hl : Holds l ns) (x : α)
    : ∃ l', append l x = .ok l' ∧ Holds l' (ns ++ [(l.heap.cells.length, x)])
      ∧ l'.heap.freed = l.heap.freed ∧ l'.heap.cells.length = l.heap.cells.length + 1 := by
  rcases List.eq_nil_or_concat' ns with rfl | ⟨ms, ⟨a, y⟩, rfl⟩
  . exact ⟨_, hl.append_nil x, ⟨rfl, ⟨cell_alloc_self, trivial⟩, hl.fresh x⟩, rfl, length_alloc⟩
  . have hs := hl.segment.alloc (c := ⟨x, none⟩)
    refine ⟨_, hl.append_concat x, ⟨?_, hs.link cell_alloc_self (hl.fresh x), hl.fresh x⟩, freed_write,
      by rw [length_write, length_alloc]⟩
    rw [hl.head]
    exact (first_append_of_ne_nil (by simp)).symm

/--
Appending a node changes no cell outside of the list.
-/
theorem Holds.cell_append {l' : LinkedList α} {c : Node α} (hl : Holds l ns)
    (happend : LinkedList.append l x = .ok l') (ha : a ∉ addrs ns) (hc : l.heap.cell a = some c)
    : l'.heap.cell a = some c := by
  rcases List.eq_nil_or_concat' ns with rfl | ⟨ms, ⟨b, y⟩, rfl⟩
  . rw [hl.append_nil] at happend
    cases happend
    exact cell_alloc_of_cell hc
  . rw [hl.append_concat] at happend
    cases happend
    rw [addrs_append, List.mem_append, not_or, addrs_cons, List.mem_cons, not_or] at ha
    rw [cell_write_of_ne (Ne.symm ha.2.1)]
    exact cell_alloc_of_cell hc

end Append

end LinkedList
