import Padhai.Lib.Calls
import Padhai.DataStruct.Impl.MyList

/-!
This module contains what the list store of `mylist.c` holds after a sequence of calls: what the reference
list does, without an access to a node that was freed, and with every removed node freed once.
-/

namespace MyList

open Heap LinkedList
open Mem (ok_bind pure_eq_ok)

variable {l : LinkedList Int} {h : Heap (Node Int)} {key : Int} {prev : Option Ptr} {temp : Ptr}
  {ks ms ns rest : List (Nat × Int)} {n : Nat × Int}

section Reference

def reference (contents : List Int) : Call → Unit × List Int
  | .insert data => ((), contents ++ [data])
  | .deletenode key => ((), contents.filter (· ≠ key))

/--
The list consists of nodes with these contents, and every node that was ever allocated is either in the
list or was freed, once.
-/
def Related (l : LinkedList Int) (contents : List Int) : Prop :=
  ∃ ns, Holds l ns ∧ ns.map Prod.snd = contents
    ∧ (l.heap.freed ++ addrs ns).Perm (List.range l.heap.cells.length)

/--
Deleting a key leaves the other nodes in place and frees exactly the nodes that it removes.
-/
def FreesRemoved (l : LinkedList Int) : Prop :=
  ∃ ns, Holds l ns ∧ ∀ key, ∃ l', deletenode l key = .ok l' ∧ Holds l' (ns.filter (·.2 ≠ key))
    ∧ Frees l.heap l'.heap (addrs (ns.filter (·.2 = key)))

end Reference

section DropHead

theorem dropHead_of_key (hl : Holds l (n :: ns)) (hkey : n.2 = key)
    : ∃ l', dropHead key (l, l.head) = .ok (.inl (l', l'.head)) ∧ Holds l' ns
      ∧ Frees l.heap l'.heap [n.1] := by
  obtain ⟨hn, hs⟩ := hl.segment
  obtain ⟨hnotMem, hnodup⟩ := List.nodup_cons.mp hl.nodup
  refine ⟨⟨l.heap.release n.1, first ns none⟩, ?_, ⟨rfl, hs.release hnotMem, hnodup⟩, frees_release _ _⟩
  have hhead : l.head = some n.1 := hl.head
  simp only [dropHead, hhead, reduceCtorEq, ↓reduceIte, load_of_cell hn, ok_bind, hkey,
    free_of_cell hn, pure_eq_ok]

theorem dropHead_done (hl : Holds l ns) (hkey : ∀ n ∈ ns.head?, n.2 ≠ key)
    : dropHead key (l, l.head) = .ok (.inr (l, l.head)) := by
  cases ns with
  | nil =>
    have hhead : l.head = none := hl.head
    rw [dropHead, if_pos hhead, pure_eq_ok]
  | cons n ns =>
    have hhead : l.head = some n.1 := hl.head
    have hn : n.2 ≠ key := hkey n rfl
    simp only [dropHead, hhead, reduceCtorEq, ↓reduceIte, load_of_cell hl.segment.1, ok_bind, hn,
      pure_eq_ok]

theorem dropHead_steps (hl : Holds l (ms ++ ns)) (hkey : ∀ n ∈ ms, n.2 = key)
    : ∃ l', Loop.Steps (dropHead key) ms.length (l, l.head) (l', l'.head) ∧ Holds l' ns
      ∧ Frees l.heap l'.heap (addrs ms) := by
  induction ms generalizing l with
  | nil => exact ⟨l, .refl _, hl, .refl _⟩
  | cons n ms ih =>
    obtain ⟨hn, hms⟩ := List.forall_mem_cons.mp hkey
    obtain ⟨l₁, hbody, hl₁, hfrees₁⟩ := dropHead_of_key hl hn
    obtain ⟨l₂, hsteps, hl₂, hfrees₂⟩ := ih hl₁ hms
    exact ⟨l₂, .turn hbody hsteps, hl₂, hfrees₁.trans hfrees₂⟩

end DropHead

section Search

/--
What `prev` has been assigned once the scan is past `ks`.
-/
def behind (ks : List (Nat × Int)) : Option Ptr :=
  ks.getLast?.map (fun n => some n.1)

theorem behind_append_singleton : behind (ks ++ [n]) = some (some n.1) := by
  simp [behind]

theorem search_of_ne (hs : Segment h (n :: ns) none) (hkey : n.2 ≠ key)
    : search key h (prev, some n.1) = .ok (.inl (some (some n.1), first ns none)) := by
  simp only [search, reduceCtorEq, ↓reduceIte, load_of_cell hs.1, ok_bind, ne_eq, hkey,
    not_false_eq_true, pure_eq_ok]

theorem search_done (prev : Option Ptr) (hs : Segment h ns none) (hkey : ∀ n ∈ ns.head?, n.2 = key)
    : search key h (prev, first ns none) = .ok (.inr (prev, first ns none)) := by
  cases ns with
  | nil => rfl
  | cons n ns =>
    have hn : n.2 = key := hkey n rfl
    simp only [search, first, reduceCtorEq, ↓reduceIte, load_of_cell hs.1, ok_bind, hn, ne_eq,
      not_true_eq_false, pure_eq_ok]

theorem search_steps (ks : List (Nat × Int)) (hs : Segment h (ms ++ rest) none) (hkey : ∀ n ∈ ms, n.2 ≠ key)
    : Loop.Steps (search key h) ms.length (behind ks, first (ms ++ rest) none)
      (behind (ks ++ ms), first rest none) := by
  induction ms generalizing ks with
  | nil =>
    rw [List.append_nil]
    exact .refl _
  | cons n ms ih =>
    obtain ⟨hn, hms⟩ := List.forall_mem_cons.mp hkey
    have hsteps := ih (ks ++ [n]) hs.2 hms
    rw [behind_append_singleton, List.append_assoc] at hsteps
    exact .turn (search_of_ne hs hn) hsteps

/--
The inner loop stops at the first node with the key, or at the end of the list.
-/
theorem loop_search (ks : List (Nat × Int)) (hs : Segment h (ms ++ rest) none)
    (hnodup : (addrs (ms ++ rest)).Nodup)
    (hne : ∀ n ∈ ms, n.2 ≠ key) (hkey : ∀ n ∈ rest.head?, n.2 = key)
    : h.loop (search key h) (behind ks, first (ms ++ rest) none)
      = .ok (behind (ks ++ ms), first rest none) := by
  have hle := hs.length_le hnodup
  rw [List.length_append] at hle
  have hdone := search_done (behind (ks ++ ms)) (segment_append.mp hs).2 hkey
  exact loop_of_steps_done (search_steps ks hs hne) hdone (by omega)

end Search

section Unlink

theorem unlink_done (hs : Segment h ms none) (hnodup : (addrs ms).Nodup) (hne : ∀ n ∈ ms, n.2 ≠ key)
    : unlink key (h, behind ks, first ms none) = .ok (.inr h) := by
  rw [← List.append_nil ms] at hs hnodup
  have hloop := loop_search ks hs hnodup hne (by simp)
  rw [List.append_nil] at hloop
  rw [unlink]
  split
  . rfl
  . rw [hloop, ok_bind]
    rfl

/--
The node after `ks` and `ms` is unlinked from the last one of these and freed.
-/
theorem unlink_of_key (hs : Segment h (ks ++ ms ++ n :: rest) none)
    (hnodup : (addrs (ks ++ ms ++ n :: rest)).Nodup) (hne : ∀ n ∈ ms, n.2 ≠ key) (hkey : n.2 = key)
    (hnil : ks ++ ms ≠ [])
    : ∃ h', unlink key (h, behind ks, first (ms ++ n :: rest) none)
        = .ok (.inl (h', behind (ks ++ ms), first rest none))
      ∧ Segment h' (ks ++ ms ++ rest) none ∧ Frees h h' [n.1] := by
  have hms : Segment h (ms ++ n :: rest) none := by
    rw [List.append_assoc] at hs
    exact (segment_append.mp hs).2
  have hnodup' : (addrs (ms ++ n :: rest)).Nodup := by
    rw [List.append_assoc, addrs_append] at hnodup
    exact hnodup.of_append_right
  have hloop := loop_search ks hms hnodup' hne (by simpa using hkey)
  have hfirst : first (ms ++ n :: rest) none ≠ none := first_ne_none (by simp)
  obtain ⟨js, m, hjs⟩ := (List.eq_nil_or_concat' (ks ++ ms)).resolve_left hnil
  rw [hjs] at hs hnodup hloop ⊢
  obtain ⟨hmn, hs'⟩ := hs.unlink hnodup
  obtain ⟨hjs, hn, -⟩ := segment_append.mp hs
  have hm := (segment_append.mp hjs).2.1
  have hm' := (segment_append.mp (segment_append.mp hs').1).2.1
  have hn' := hn
  rw [← cell_write_of_ne (d := some ⟨m.2, first rest none⟩) hmn] at hn'
  have hbehind : behind (js ++ [m]) = some (some m.1) := behind_append_singleton
  refine ⟨_, ?_, hs', rfl, length_write.trans length_write⟩
  simp only [unlink, if_neg hfirst, hloop, hbehind, ok_bind, assigned, first_cons, reduceCtorEq, ↓reduceIte,
    load_of_cell hn, modify_of_cell hm, free_of_cell hn', load_of_cell hm', pure_eq_ok]
  rfl

theorem unlink_steps (ks ms : List (Nat × Int)) (hs : Segment h (ks ++ ms ++ rest) none)
    (hnodup : (addrs (ks ++ ms ++ rest)).Nodup) (hne : ∀ n ∈ ms, n.2 ≠ key)
    (hnil : ks ++ ms = [] → ∀ n ∈ rest.head?, n.2 ≠ key)
    : ∃ i t h', Loop.Steps (unlink key) i (h, behind ks, first (ms ++ rest) none) t
      ∧ unlink key t = .ok (.inr h') ∧ i ≤ rest.length
      ∧ Segment h' (ks ++ ms ++ rest.filter (·.2 ≠ key)) none
      ∧ Frees h h' (addrs (rest.filter (·.2 = key))) := by
  induction rest generalizing h ks ms with
  | nil =>
    rw [List.append_nil] at hs hnodup ⊢
    have hms := (segment_append.mp hs).2
    rw [addrs_append] at hnodup
    refine ⟨0, _, h, .refl _, unlink_done hms hnodup.of_append_right hne, Nat.le_refl _, ?_, .refl h⟩
    simpa using hs
  | cons n rest ih =>
    by_cases hkey : n.2 = key
    . have hkept : ks ++ ms ≠ [] := fun heq => hnil heq n rfl hkey
      obtain ⟨h₁, hbody, hs₁, hfrees₁⟩ := unlink_of_key hs hnodup hne hkey hkept
      have hnodup₁ : (addrs (ks ++ ms ++ rest)).Nodup := by
        rw [addrs_append] at hnodup ⊢
        exact hnodup.sublist ((List.sublist_cons_self n.1 (addrs rest)).append_left _)
      obtain ⟨i, t, h₂, hsteps, hdone, hle, hs₂, hfrees₂⟩ := ih (ks ++ ms) []
        (by rwa [List.append_nil]) (by rwa [List.append_nil]) (by simp)
        (fun heq => absurd (List.append_eq_nil_iff.mp heq).1 hkept)
      refine ⟨i + 1, t, h₂, .turn hbody hsteps, hdone, Nat.succ_le_succ hle, ?_, ?_⟩
      . simpa [hkey] using hs₂
      . simpa [hkey] using hfrees₁.trans hfrees₂
    . -- The inner loop goes over this node.
      have hms : ks ++ (ms ++ [n]) ++ rest = ks ++ ms ++ n :: rest := by simp
      obtain ⟨i, t, h₂, hsteps, hdone, hle, hs₂, hfrees₂⟩ := ih ks (ms ++ [n])
        (by rwa [hms]) (by rwa [hms])
        (by simpa [or_imp, forall_and] using ⟨fun a b hab => hne (a, b) hab, hkey⟩) (by simp)
      refine ⟨i, t, h₂, ?_, hdone, Nat.le_succ_of_le hle, ?_, ?_⟩
      . simpa using hsteps
      . simpa [hkey] using hs₂
      . simpa [hkey] using hfrees₂

end Unlink

section Deletenode

theorem exists_append_of_key (key : Int) (ns : List (Nat × Int))
    : ∃ ms rest, ns = ms ++ rest ∧ (∀ n ∈ ms, n.2 = key) ∧ ∀ n ∈ rest.head?, n.2 ≠ key := by
  induction ns with
  | nil => exact ⟨[], [], rfl, by simp, by simp⟩
  | cons n ns ih =>
    by_cases hkey : n.2 = key
    . obtain ⟨ms, rest, rfl, hms, hrest⟩ := ih
      exact ⟨n :: ms, rest, rfl, List.forall_mem_cons.mpr ⟨hkey, hms⟩, hrest⟩
    . exact ⟨[], n :: ns, rfl, by simp, by simpa using hkey⟩

theorem first_filter (hkey : ∀ n ∈ rest.head?, n.2 ≠ key)
    : first (rest.filter (·.2 ≠ key)) none = first rest none := by
  cases rest with
  | nil => rfl
  | cons n rest =>
    have hn : n.2 ≠ key := hkey n rfl
    simp [hn, first_cons]

theorem deletenode_holds (hl : Holds l ns) (key : Int)
    : ∃ l', deletenode l key = .ok l' ∧ Holds l' (ns.filter (·.2 ≠ key))
      ∧ Frees l.heap l'.heap (addrs (ns.filter (·.2 = key))) := by
  obtain ⟨ms, rest, rfl, hms, hrest⟩ := exists_append_of_key key ns
  obtain ⟨l₁, hsteps₁, hl₁, hfrees₁⟩ := dropHead_steps hl hms
  obtain ⟨i, t, h₂, hsteps₂, hdone₂, hle₂, hs₂, hfrees₂⟩ := unlink_steps [] []
    (h := l₁.heap) hl₁.segment hl₁.nodup (by simp) (fun _ => hrest)
  have hle := hl.segment.length_le hl.nodup
  have hle₁ := hl₁.segment.length_le hl₁.nodup
  rw [List.length_append] at hle
  have hloop₁ : l.heap.loop (dropHead key) (l, l.head) = .ok (l₁, l₁.head) := by
    apply loop_of_steps_done hsteps₁ (dropHead_done hl₁ hrest)
    omega
  have hloop₂ : l₁.heap.loop (unlink key) (l₁.heap, none, l₁.head) = .ok h₂ := by
    rw [hl₁.head]
    apply loop_of_steps_done hsteps₂ hdone₂
    omega
  have hkept : (ms ++ rest).filter (·.2 ≠ key) = rest.filter (·.2 ≠ key) := by
    rw [List.filter_append, List.filter_eq_nil_iff.mpr (by simpa using hms), List.nil_append]
  have hremoved : (ms ++ rest).filter (·.2 = key) = ms ++ rest.filter (·.2 = key) := by
    rw [List.filter_append, List.filter_eq_self.mpr (by simpa using hms)]
  refine ⟨⟨h₂, l₁.head⟩, ?_, ?_, ?_⟩
  . simp only [deletenode, hloop₁, hloop₂, ok_bind, pure_eq_ok]
  . rw [hkept]
    refine ⟨?_, hs₂, ?_⟩
    . rw [hl₁.head, first_filter hrest]
    . exact hl₁.nodup.sublist (List.filter_sublist.map Prod.fst)
  . rw [hremoved, addrs_append]
    exact hfrees₁.trans hfrees₂

end Deletenode

section Calls

variable {contents : List Int}

theorem related_empty : Related .empty [] :=
  ⟨[], holds_empty, rfl, .refl []⟩

theorem Related.insert (hr : Related l contents) (data : Int)
    : ∃ l', call l (.insert data) = .ok ((), l') ∧ Related l' (contents ++ [data]) := by
  obtain ⟨ns, hl, hcontents, hperm⟩ := hr
  obtain ⟨l', happend, hl', hfreed, hlength⟩ := hl.append data
  refine ⟨l', by rw [call, MyList.insert, happend]; rfl, _, hl', ?_, ?_⟩
  . rw [List.map_append, hcontents]
    rfl
  . rw [hfreed, hlength, List.range_succ, addrs_append, ← List.append_assoc]
    exact hperm.append_right _

theorem Related.deletenode (hr : Related l contents) (key : Int)
    : ∃ l', call l (.deletenode key) = .ok ((), l')
      ∧ Related l' (contents.filter (· ≠ key)) := by
  obtain ⟨ns, hl, hcontents, hperm⟩ := hr
  obtain ⟨l', hdelete, hl', hfrees⟩ := deletenode_holds hl key
  refine ⟨l', by rw [call, hdelete]; rfl, _, hl', ?_, ?_⟩
  . rw [← hcontents, List.filter_map]
    rfl
  . rw [hfrees.freed, hfrees.length, List.append_assoc, ← addrs_append]
    have hfilter := List.filter_append_perm (fun n : Nat × Int => decide (n.2 = key)) ns
    simp only [← decide_not] at hfilter
    exact (hfilter.map Prod.fst).append_left _ |>.trans hperm

theorem Related.call (hr : Related l contents) (c : Call)
    : ∃ l', call l c = .ok ((reference contents c).1, l') ∧ Related l' (reference contents c).2 := by
  cases c with
  | insert data => exact hr.insert data
  | deletenode key => exact hr.deletenode key

theorem Related.refines (hr : Related l contents) (calls : List Call)
    : Calls.Refines MyList.call reference Related calls l contents := by
  induction calls generalizing l contents with
  | nil => exact Calls.refines_nil.mpr hr
  | cons c calls ih =>
    obtain ⟨l', hcall, hr'⟩ := hr.call c
    exact (Calls.refines_cons hcall).mpr ⟨hr, ih hr'⟩

theorem Related.freesRemoved (hr : Related l contents) : FreesRemoved l := by
  obtain ⟨ns, hl, -⟩ := hr
  exact ⟨ns, hl, deletenode_holds hl⟩

theorem refines_reference (calls : List Call)
    : Calls.Refines call reference Related calls .empty []
      ∧ ∃ outs l, Calls.run call calls .empty = .ok (outs, l) ∧ FreesRemoved l := by
  have hrefines := related_empty.refines calls
  obtain ⟨l, hrun, hr⟩ := hrefines calls (List.prefix_refl _)
  exact ⟨hrefines, _, l, hrun, hr.freesRemoved⟩

end Calls

end MyList
