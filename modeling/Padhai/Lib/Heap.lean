import Padhai.Lib.Mem

/-!
This module contains a heap of cells that are allocated and freed one by one. A pointer is the address of
a cell or null; an access through a null pointer or to a cell that is no longer there ends the run. No
address is handed out twice, an allocation always succeeds, and the heap records which addresses were
freed, in order.
-/

structure Heap (κ : Type) where
  cells : List (Option κ)
  freed : List Nat
  deriving DecidableEq, Repr

namespace Heap

abbrev Ptr := Option Nat

inductive Fault where
  | null
  | dangling (a : Nat)
  | unassigned
  | running
  deriving DecidableEq, Repr

abbrev Checked := Except Fault

variable {κ σ α : Type} {h : Heap κ} {a b : Nat} {c d : κ} {f : κ → κ}

def empty : Heap κ := ⟨[], []⟩

def cell (h : Heap κ) (a : Nat) : Option κ :=
  h.cells[a]?.join

def write (h : Heap κ) (a : Nat) (c : Option κ) : Heap κ :=
  { h with cells := h.cells.set a c }

def alloc (h : Heap κ) (c : κ) : Heap κ :=
  { h with cells := h.cells ++ [some c] }

def release (h : Heap κ) (a : Nat) : Heap κ :=
  { h.write a none with freed := h.freed ++ [a] }

def access (h : Heap κ) : Ptr → Checked (Nat × κ)
  | none => .error .null
  | some a =>
    match h.cell a with
    | some c => .ok (a, c)
    | none => .error (.dangling a)

def load (h : Heap κ) (p : Ptr) : Checked κ := do
  let (_, c) ← h.access p
  return c

def modify (h : Heap κ) (p : Ptr) (f : κ → κ) : Checked (Heap κ) := do
  let (a, c) ← h.access p
  return h.write a (some (f c))

def free (h : Heap κ) : Ptr → Checked (Heap κ)
  | none => .ok h
  | some a => do
    let _ ← h.access (some a)
    return h.release a

/--
The value of a variable that may not have been assigned yet.
-/
def assigned (x : Option α) : Checked α :=
  match x with
  | some v => .ok v
  | none => .error .unassigned

/--
A loop over the cells; it is still running once it has turned more often than there are cells.
-/
def loop (h : Heap κ) (body : σ → Checked (σ ⊕ α)) (s : σ) : Checked α :=
  (Loop.run body (h.cells.length + 1) s).getD (.error .running)

section Cell

theorem lt_of_cell (hc : h.cell a = some c) : a < h.cells.length := by
  rw [cell, Option.join_eq_some_iff] at hc
  exact (List.getElem?_eq_some_iff.mp hc).1

theorem access_of_cell (hc : h.cell a = some c) : h.access (some a) = .ok (a, c) := by
  simp [access, hc]

theorem load_of_cell (hc : h.cell a = some c) : h.load (some a) = .ok c := by
  rw [load, access_of_cell hc]
  rfl

theorem modify_of_cell (hc : h.cell a = some c)
    : h.modify (some a) f = .ok (h.write a (some (f c))) := by
  rw [modify, access_of_cell hc]
  rfl

theorem free_of_cell (hc : h.cell a = some c) : h.free (some a) = .ok (h.release a) := by
  rw [free, access_of_cell hc]
  rfl

@[simp]
theorem freed_write {c : Option κ} : (h.write a c).freed = h.freed := rfl

@[simp]
theorem length_write {c : Option κ} : (h.write a c).cells.length = h.cells.length := by
  simp [write]

theorem cell_write_self {d : Option κ} (hc : h.cell a = some c) : (h.write a d).cell a = d := by
  have := lt_of_cell hc
  simp [cell, write, this]

theorem cell_write_of_ne {d : Option κ} (hne : a ≠ b) : (h.write a d).cell b = h.cell b := by
  simp [cell, write, List.getElem?_set_ne hne]

theorem cell_release_of_ne (hne : a ≠ b) : (h.release a).cell b = h.cell b :=
  cell_write_of_ne hne

theorem cell_alloc_self : (h.alloc c).cell h.cells.length = some c := by
  simp [cell, alloc]

theorem cell_alloc_of_cell (hc : h.cell a = some c) : (h.alloc d).cell a = some c := by
  rw [cell, alloc, List.getElem?_append_left (lt_of_cell hc)]
  exact hc

@[simp]
theorem length_alloc : (h.alloc c).cells.length = h.cells.length + 1 := by
  simp [alloc]

theorem eq_of_cell {h' : Heap κ} (hlength : h.cells.length = h'.cells.length)
    (hcell : ∀ a < h.cells.length, h.cell a = h'.cell a) (hfreed : h.freed = h'.freed) : h = h' := by
  obtain ⟨cells, freed⟩ := h
  obtain ⟨cells', freed'⟩ := h'
  cases hfreed
  congr 1
  apply List.ext_getElem hlength
  intro a ha ha'
  have := hcell a ha
  rwa [cell, cell, List.getElem?_eq_getElem ha, List.getElem?_eq_getElem ha', Option.join_some,
    Option.join_some] at this

end Cell

section Frees

/--
Between two heaps nothing was allocated and the addresses `as` were freed, in this order.
-/
structure Frees (h h' : Heap κ) (as : List Nat) : Prop where
  freed : h'.freed = h.freed ++ as
  length : h'.cells.length = h.cells.length

variable {h₁ h₂ h₃ : Heap κ} {as bs : List Nat}

theorem Frees.refl (h : Heap κ) : Frees h h [] :=
  ⟨by rw [List.append_nil], rfl⟩

theorem Frees.trans (h₁₂ : Frees h₁ h₂ as) (h₂₃ : Frees h₂ h₃ bs) : Frees h₁ h₃ (as ++ bs) := by
  constructor
  . rw [h₂₃.freed, h₁₂.freed, List.append_assoc]
  . rw [h₂₃.length, h₁₂.length]

theorem frees_release (h : Heap κ) (a : Nat) : Frees h (h.release a) [a] :=
  ⟨rfl, length_write⟩

end Frees

section Writes

/--
Between two heaps `n` cells were allocated, none was freed, and of the cells there before only those at `as`
were written.
-/
structure Writes (h h' : Heap κ) (as : List Nat) (n : Nat) : Prop where
  cell : ∀ a < h.cells.length, a ∉ as → h'.cell a = h.cell a
  freed : h'.freed = h.freed
  length : h'.cells.length = h.cells.length + n

variable {h₁ h₂ h₃ : Heap κ} {as bs : List Nat} {m n : Nat}

theorem Writes.refl (h : Heap κ) : Writes h h [] 0 :=
  ⟨fun _ _ _ => rfl, rfl, rfl⟩

theorem Writes.trans (h₁₂ : Writes h₁ h₂ as m) (h₂₃ : Writes h₂ h₃ bs n)
    : Writes h₁ h₃ (as ++ bs) (m + n) := by
  refine ⟨?_, h₂₃.freed.trans h₁₂.freed, ?_⟩
  . intro a hlt ha
    rw [List.mem_append, not_or] at ha
    rw [h₂₃.cell a (by rw [h₁₂.length]; omega) ha.2, h₁₂.cell a hlt ha.1]
  . rw [h₂₃.length, h₁₂.length, Nat.add_assoc]

theorem Writes.mono (hw : Writes h₁ h₂ as n) (hsub : ∀ a ∈ as, a < h₁.cells.length → a ∈ bs)
    : Writes h₁ h₂ bs n :=
  ⟨fun a hlt ha => hw.cell a hlt fun hmem => ha (hsub a hmem hlt), hw.freed, hw.length⟩

theorem Writes.cell_eq (hw : Writes h₁ h₂ as n) (hc : h₁.cell a = some c) (ha : a ∉ as)
    : h₂.cell a = some c := by
  rw [hw.cell a (lt_of_cell hc) ha, hc]

theorem writes_alloc (h : Heap κ) (c : κ) : Writes h (h.alloc c) [] 1 := by
  refine ⟨?_, rfl, length_alloc⟩
  intro a hlt _
  rw [cell, cell, alloc, List.getElem?_append_left hlt]

theorem writes_write (h : Heap κ) (a : Nat) (c : Option κ) : Writes h (h.write a c) [a] 0 := by
  refine ⟨?_, freed_write, length_write⟩
  intro b _ hb
  exact cell_write_of_ne fun hab => hb (List.mem_singleton.mpr hab.symm)

/--
A cell that was not there before.
-/
theorem Writes.write (hw : Writes h₁ h₂ as n) (ha : h₁.cells.length ≤ a) (c : Option κ)
    : Writes h₁ (h₂.write a c) as n := by
  apply (hw.trans (writes_write h₂ a c)).mono
  intro b hb hlt
  rw [List.mem_append, List.mem_singleton] at hb
  rcases hb with hb | rfl
  . exact hb
  . exact absurd hlt (Nat.not_lt.mpr ha)

end Writes

section Loop

variable {body : σ → Checked (σ ⊕ α)} {s t : σ} {n : Nat} {r : α}

theorem loop_of_steps_done (hsteps : Loop.Steps body n s t) (hdone : body t = .ok (.inr r))
    (hle : n ≤ h.cells.length) : h.loop body s = .ok r := by
  rw [loop, Loop.run_of_steps_done hsteps hdone (by omega), Option.getD_some]

end Loop

end Heap
