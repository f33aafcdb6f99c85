import Mathlib.Data.Int.Order.Basic
import Padhai.Interview.Impl.SortList

/-!
This module contains that the sort of `PS_3.c` sorts: a pass carries the largest value to the right
boundary, and there are at most as many passes as nodes.
-/

namespace SortList

open Heap LinkedList
open Mem (ok_bind pure_eq_ok bind_eq_ok_iff)

variable {l : LinkedList Int} {h : Heap (Node Int)} {ds es ns ss : List (Nat × Int)} {m n : Nat × Int}
  {swapped : Bool}

section Carried

/--
The nodes after a pass over `n` and then `ns`.
-/
def carried (n : Nat × Int) : List (Nat × Int) → List (Nat × Int)
  | [] => [n]
  | m :: ns =>
    if n.2 > m.2 then
      (n.1, m.2) :: carried (m.1, n.2) ns
    else
      n :: carried m ns

def swaps (n : Nat × Int) : List (Nat × Int) → Bool
  | [] => false
  | m :: ns =>
    if n.2 > m.2 then
      true
    else
      swaps m ns

theorem carried_perm (n : Nat × Int) (ns : List (Nat × Int))
    : ((carried n ns).map Prod.snd).Perm ((n :: ns).map Prod.snd) := by
  induction ns generalizing n with
  | nil => exact .refl _
  | cons m ns ih =>
    rw [carried]
    split
    . exact ((ih (m.1, n.2)).cons m.2).trans (.swap n.2 m.2 _)
    . exact (ih m).cons n.2

theorem addrs_carried (n : Nat × Int) (ns : List (Nat × Int))
    : addrs (carried n ns) = addrs (n :: ns) := by
  induction ns generalizing n with
  | nil => rfl
  | cons m ns ih =>
    rw [carried]
    split
    . rw [addrs_cons, ih]
      rfl
    . rw [addrs_cons, ih]
      rfl

theorem exists_mem_of_mem_carried {k : Nat × Int} (hk : k ∈ carried n ns)
    : ∃ k' ∈ n :: ns, k'.2 = k.2 := by
  rw [← List.mem_map, ← (carried_perm n ns).mem_iff]
  exact List.mem_map_of_mem hk

theorem exists_carried_eq_cons (n m : Nat × Int) (ns : List (Nat × Int))
    : ∃ k k', carried n (m :: ns) = k :: carried k' ns ∧ k.2 ≤ k'.2 := by
  rw [carried]
  split
  . next hgt => exact ⟨(n.1, m.2), (m.1, n.2), rfl, le_of_lt hgt⟩
  . next hle => exact ⟨n, m, rfl, not_lt.mp hle⟩

/--
The last node has the largest value.
-/
theorem le_of_carried_eq_append {front : List (Nat × Int)} (heq : carried n ns = front ++ [m])
    : ∀ k ∈ front ++ [m], k.2 ≤ m.2 := by
  induction ns generalizing n front with
  | nil =>
    have heq : [] ++ [n] = front ++ [m] := heq
    obtain ⟨rfl, hn⟩ := List.append_inj' heq rfl
    simp
  | cons n' ns ih =>
    obtain ⟨k, k', hcons, hle⟩ := exists_carried_eq_cons n n' ns
    rw [hcons] at heq
    cases front with
    | nil =>
      have := congrArg List.length (addrs_carried k' ns)
      simp_all [addrs]
    | cons k₁ front =>
      rw [List.cons_append] at heq
      obtain ⟨rfl, htail⟩ := List.cons.inj heq
      have hmax := ih htail
      rw [List.cons_append, List.forall_mem_cons]
      refine ⟨?_, hmax⟩
      have hmem : k'.2 ∈ (carried k' ns).map Prod.snd := by
        rw [(carried_perm k' ns).mem_iff]
        exact List.mem_cons_self
      obtain ⟨k₂, hk₂, heq₂⟩ := List.mem_map.mp hmem
      have := hmax k₂ (htail ▸ hk₂)
      omega

theorem of_not_swaps (hswaps : swaps n ns = false)
    : carried n ns = n :: ns ∧ ((n :: ns).map Prod.snd).Pairwise (· ≤ ·) := by
  induction ns generalizing n with
  | nil => exact ⟨rfl, by simp⟩
  | cons m ns ih =>
    rw [swaps] at hswaps
    split at hswaps
    . contradiction
    . next hle =>
      obtain ⟨heq, hsorted⟩ := ih hswaps
      refine ⟨by rw [carried, if_neg hle, heq], ?_⟩
      rw [List.map_cons, List.pairwise_cons]
      refine ⟨?_, hsorted⟩
      intro k hk
      rcases List.mem_cons.mp hk with rfl | hk
      . omega
      . have := (List.pairwise_cons.mp hsorted).1 k hk
        omega

theorem ne_nil_of_swaps (hswaps : swaps n ns) : ns ≠ [] := by
  rintro rfl
  contradiction

end Carried

section Scan

variable {ts : List (Nat × Int)} {q rptr : Ptr}

theorem swap_spec (hs : Segment h (ds ++ n :: m :: ts) q) (hnodup : (addrs (ds ++ n :: m :: ts)).Nodup)
    : ∃ h', swap h (some n.1) (some m.1) = .ok h'
      ∧ Segment h' (ds ++ (n.1, m.2) :: (m.1, n.2) :: ts) q ∧ Frees h h' [] := by
  obtain ⟨-, hn, hm, -⟩ := segment_append.mp hs
  have hs₁ := hs.setData hnodup m.2
  obtain ⟨-, hn₁, hm₁, -⟩ := segment_append.mp hs₁
  have hsplit : ds ++ (n.1, m.2) :: m :: ts = ds ++ [(n.1, m.2)] ++ m :: ts := by simp
  rw [hsplit] at hs₁
  have hs₂ := hs₁.setData (by simpa using hnodup) n.2
  refine ⟨_, ?_, by simpa using hs₂, ?_⟩
  . simp only [swap, load_of_cell hn, load_of_cell hm, modify_of_cell hn, ok_bind]
    exact modify_of_cell hm₁
  . exact ⟨by simp, by simp⟩

theorem scan_of_gt (swapped : Bool) (hs : Segment h (ds ++ n :: m :: ts) q)
    (hnodup : (addrs (ds ++ n :: m :: ts)).Nodup) (hrptr : some m.1 ≠ rptr) (hgt : n.2 > m.2)
    : ∃ h', scan rptr (h, some n.1, swapped) = .ok (.inl (h', some m.1, true))
      ∧ Segment h' (ds ++ (n.1, m.2) :: (m.1, n.2) :: ts) q ∧ Frees h h' [] := by
  obtain ⟨-, hn, hm, -⟩ := segment_append.mp hs
  obtain ⟨h', hswap, hs', hfrees⟩ := swap_spec hs hnodup
  obtain ⟨-, hn', -⟩ := segment_append.mp hs'
  refine ⟨h', ?_, hs', hfrees⟩
  simp only [scan, load_of_cell hn, ok_bind, first_cons, if_neg hrptr, load_of_cell hm, if_pos hgt,
    hswap, load_of_cell hn', pure_eq_ok]

theorem scan_of_le (swapped : Bool) (hs : Segment h (ds ++ n :: m :: ts) q) (hrptr : some m.1 ≠ rptr)
    (hle : ¬n.2 > m.2)
    : scan rptr (h, some n.1, swapped) = .ok (.inl (h, some m.1, swapped)) := by
  obtain ⟨-, hn, hm, -⟩ := segment_append.mp hs
  simp only [scan, load_of_cell hn, ok_bind, first_cons, if_neg hrptr, load_of_cell hm, if_neg hle,
    pure_eq_ok]

theorem scan_done (hs : Segment h (ds ++ n :: ss) q)
    : scan (first ss q) (h, some n.1, swapped) = .ok (.inr (h, some n.1, swapped)) := by
  obtain ⟨-, hn, -⟩ := segment_append.mp hs
  simp only [scan, load_of_cell hn, ok_bind, ↓reduceIte, pure_eq_ok]

theorem some_ne_first (hnodup : (addrs (ds ++ n :: m :: (es ++ ss))).Nodup)
    : some m.1 ≠ first ss none := by
  cases ss with
  | nil => simp [first]
  | cons s ss =>
    simp only [addrs_append, addrs_cons] at hnodup
    rw [first_cons, ne_eq, Option.some.injEq]
    grind

/--
The inner loop goes over the nodes before the boundary and stays within the list.
-/
theorem scan_steps (ds : List (Nat × Int)) (n : Nat × Int) (swapped : Bool)
    (hs : Segment h (ds ++ n :: (es ++ ss)) none)
    (hnodup : (addrs (ds ++ n :: (es ++ ss))).Nodup)
    : ∃ h' front m, Loop.Steps (scan (first ss none)) es.length (h, some n.1, swapped)
        (h', some m.1, swapped || swaps n es)
      ∧ carried n es = front ++ [m] ∧ Segment h' (ds ++ (carried n es ++ ss)) none
      ∧ Frees h h' [] := by
  induction es generalizing h ds n swapped with
  | nil => exact ⟨h, [], n, by simpa [swaps] using .refl _, rfl, hs, .refl h⟩
  | cons m es ih =>
    have hrptr := some_ne_first hnodup
    rw [carried, swaps]
    split
    . next hgt =>
      obtain ⟨h₁, hbody, hs₁, hfrees₁⟩ := scan_of_gt swapped hs hnodup hrptr hgt
      obtain ⟨h₂, front, k, hsteps, hfront, hs₂, hfrees₂⟩ := ih (ds ++ [(n.1, m.2)])
        (m.1, n.2) true (by simpa using hs₁) (by simpa using hnodup)
      refine ⟨h₂, (n.1, m.2) :: front, k, ?_, ?_, ?_, hfrees₁.trans hfrees₂⟩
      . rw [Bool.true_or] at hsteps
        rw [Bool.or_true]
        exact .turn hbody hsteps
      . rw [hfront, List.cons_append]
      . simpa using hs₂
    . next hle =>
      have hbody := scan_of_le swapped hs hrptr hle
      obtain ⟨h₂, front, k, hsteps, hfront, hs₂, hfrees₂⟩ := ih (ds ++ [n])
        m swapped (by simpa using hs) (by simpa using hnodup)
      refine ⟨h₂, n :: front, k, .turn hbody hsteps, ?_, ?_, hfrees₂⟩
      . rw [hfront, List.cons_append]
      . simpa using hs₂

end Scan

section Pass

theorem pass_spec (hs : Segment h (n :: (es ++ ss)) none) (hnodup : (addrs (n :: (es ++ ss))).Nodup)
    : ∃ h' front m, carried n es = front ++ [m] ∧ Segment h' (front ++ m :: ss) none
      ∧ Frees h h' []
      ∧ pass (some n.1) (h, first ss none)
        = .ok (if swaps n es then .inl (h', some m.1) else .inr h') := by
  obtain ⟨h', front, m, hsteps, hfront, hs', hfrees⟩ := scan_steps [] n false hs hnodup
  have hs' : Segment h' (front ++ m :: ss) none := by
    rwa [hfront, List.nil_append, List.append_assoc] at hs'
  have hle := hs.length_le hnodup
  rw [List.length_cons, List.length_append] at hle
  have hloop := loop_of_steps_done (h := h) hsteps (scan_done hs') (by omega)
  refine ⟨h', front, m, hfront, hs', hfrees, ?_⟩
  simp only [pass, hloop, ok_bind, Bool.false_or]
  split
  . rfl
  . rfl

theorem addrs_of_carried {front : List (Nat × Int)} (ss : List (Nat × Int))
    (heq : carried n es = front ++ [m])
    : addrs (front ++ m :: ss) = addrs (n :: (es ++ ss)) := by
  have hsplit : front ++ m :: ss = carried n es ++ ss := by rw [heq, List.append_assoc]; rfl
  rw [hsplit, addrs_append, addrs_carried, ← addrs_append]
  rfl

theorem perm_of_carried {front : List (Nat × Int)} (ss : List (Nat × Int))
    (heq : carried n es = front ++ [m])
    : ((front ++ m :: ss).map Prod.snd).Perm ((n :: (es ++ ss)).map Prod.snd) := by
  have hsplit : front ++ m :: ss = carried n es ++ ss := by rw [heq, List.append_assoc]; rfl
  rw [hsplit, ← List.cons_append, List.map_append, List.map_append]
  exact (carried_perm n es).append_right _

theorem length_of_carried {front : List (Nat × Int)} (heq : carried n es = front ++ [m])
    : front.length = es.length := by
  have := congrArg List.length (addrs_carried n es)
  simpa [heq, addrs] using this

/--
What is left of the boundary is not larger than what is from there on, and the latter is sorted.
-/
structure Boundary (ns ss : List (Nat × Int)) : Prop where
  sorted : (ss.map Prod.snd).Pairwise (· ≤ ·)
  le : ∀ k ∈ ns, ∀ s ∈ ss, k.2 ≤ s.2

theorem boundary_nil (ns : List (Nat × Int)) : Boundary ns [] :=
  ⟨.nil, by simp⟩

theorem Boundary.append (hb : Boundary ns ss) (hsorted : (ns.map Prod.snd).Pairwise (· ≤ ·))
    : ((ns ++ ss).map Prod.snd).Pairwise (· ≤ ·) := by
  rw [List.map_append, List.pairwise_append]
  refine ⟨hsorted, hb.sorted, ?_⟩
  simp only [List.mem_map]
  rintro _ ⟨k, hk, rfl⟩ _ ⟨s, hs, rfl⟩
  exact hb.le k hk s hs

theorem Boundary.carried (hb : Boundary (n :: es) ss) : Boundary (carried n es) ss := by
  refine ⟨hb.sorted, ?_⟩
  intro k hk s hs
  obtain ⟨k', hk', heq⟩ := exists_mem_of_mem_carried hk
  rw [← heq]
  exact hb.le k' hk' s hs

/--
A pass moves the boundary by one node to the left.
-/
theorem Boundary.pass {front : List (Nat × Int)} (hb : Boundary (n :: es) ss)
    (heq : SortList.carried n es = front ++ [m]) : Boundary front (m :: ss) := by
  have hcarried := heq ▸ hb.carried
  have hmax := le_of_carried_eq_append heq
  constructor
  . have hlast : Boundary [m] ss :=
      ⟨hb.sorted, fun k hk => hcarried.le k (List.mem_append_right _ hk)⟩
    exact hlast.append (List.pairwise_singleton _ _)
  . intro k hk s hs
    rcases List.mem_cons.mp hs with rfl | hs
    . exact hmax k (List.mem_append_left _ hk)
    . exact hcarried.le k (List.mem_append_left _ hk) s hs

theorem run_pass (hs : Segment h (n :: (es ++ ss)) none) (hnodup : (addrs (n :: (es ++ ss))).Nodup)
    (hb : Boundary (n :: es) ss)
    : ∃ h' ns, Loop.run (pass (some n.1)) (es.length + 1) (h, first ss none) = some (.ok h')
      ∧ Segment h' ns none ∧ addrs ns = addrs (n :: (es ++ ss))
      ∧ (ns.map Prod.snd).Perm ((n :: (es ++ ss)).map Prod.snd)
      ∧ (ns.map Prod.snd).Pairwise (· ≤ ·) ∧ Frees h h' [] := by
  induction hk : es.length using Nat.strong_induction_on generalizing h n es ss with
  | _ k ih =>
    obtain ⟨h₁, front, m, hfront, hs₁, hfrees₁, hpass⟩ := pass_spec hs hnodup
    have haddrs := addrs_of_carried ss hfront
    have hperm := perm_of_carried ss hfront
    cases hswaps : swaps n es with
    | false =>
      obtain ⟨heq, hsorted⟩ := of_not_swaps hswaps
      rw [hswaps] at hpass
      refine ⟨h₁, front ++ m :: ss, Loop.run_done hpass, hs₁, haddrs, hperm, ?_, hfrees₁⟩
      rw [← List.singleton_append, ← List.append_assoc, ← hfront, heq]
      exact hb.append hsorted
    | true =>
      rw [hswaps] at hpass
      have hlength := length_of_carried hfront
      cases front with
      | nil => exact absurd (List.eq_nil_of_length_eq_zero hlength.symm) (ne_nil_of_swaps hswaps)
      | cons n' es' =>
        rw [List.length_cons] at hlength
        obtain ⟨h₂, ns, hrun, hs₂, haddrs₂, hperm₂, hsorted₂, hfrees₂⟩ := ih es'.length (by omega) hs₁
          (by rwa [← haddrs] at hnodup) (hb.pass hfront) rfl
        have hhead : n'.1 = n.1 := by
          simp only [List.cons_append, addrs_cons, List.cons.injEq] at haddrs
          exact haddrs.1
        refine ⟨h₂, ns, ?_, hs₂, haddrs₂.trans haddrs, hperm₂.trans hperm, hsorted₂,
          hfrees₁.trans hfrees₂⟩
        rw [hhead, hlength, hk] at hrun
        exact (Loop.run_next hpass).trans hrun

end Pass

section Sorting

theorem exists_build (vals : List Int) (hl : Holds l ns)
    : ∃ l' ns', vals.foldlM insert l = .ok l' ∧ Holds l' ns' ∧ ns'.map Prod.snd = ns.map Prod.snd ++ vals := by
  induction vals generalizing l ns with
  | nil => exact ⟨l, ns, rfl, hl, by simp⟩
  | cons val vals ih =>
    obtain ⟨l₁, happend, hl₁, -⟩ := hl.append val
    obtain ⟨l₂, ns₂, hfold, hl₂, hdata⟩ := ih hl₁
    refine ⟨l₂, ns₂, ?_, hl₂, by simpa using hdata⟩
    rw [List.foldlM_cons, insert, happend, ok_bind, hfold]

/--
The list of the nodes `ns` is sorted in place, after at most as many passes as it has nodes.
-/
def Sorts (l : LinkedList Int) (ns : List (Nat × Int)) : Prop :=
  ∃ h' ns', Loop.run (pass l.head) ns.length (l.heap, none) = some (.ok h')
    ∧ sort l = .ok ⟨h', l.head⟩ ∧ Holds ⟨h', l.head⟩ ns' ∧ addrs ns' = addrs ns
    ∧ (ns'.map Prod.snd).Perm (ns.map Prod.snd) ∧ (ns'.map Prod.snd).Pairwise (· ≤ ·)

theorem first_eq_head? (ns : List (Nat × Int)) : first ns none = (addrs ns).head? := by
  cases ns with
  | nil => rfl
  | cons n ns => rfl

theorem sorts_of_holds (hl : Holds l ns) (hne : ns ≠ []) : Sorts l ns := by
  obtain ⟨n, ns, rfl⟩ := List.exists_cons_of_ne_nil hne
  have happend : n :: ns = n :: (ns ++ []) := by rw [List.append_nil]
  have hhead : l.head = some n.1 := hl.head
  obtain ⟨h', ns', hrun, hs', haddrs, hperm, hsorted, -⟩ := run_pass (happend ▸ hl.segment)
    (happend ▸ hl.nodup) (boundary_nil _)
  rw [← happend] at haddrs hperm
  have hle := hl.segment.length_le hl.nodup
  rw [← hhead] at hrun
  refine ⟨h', ns', hrun, ?_, ⟨?_, hs', ?_⟩, haddrs, hperm, hsorted⟩
  . have hmono := Loop.run_mono hrun (m := l.heap.cells.length + 1) (Nat.le_succ_of_le hle)
    have hloop : l.heap.loop (pass l.head) (l.heap, none) = .ok h' := by
      rw [Heap.loop]
      exact congrArg (Option.getD · _) hmono
    rw [sort, hloop, ok_bind, pure_eq_ok]
  . rw [first_eq_head?, haddrs]
    exact hhead
  . rw [haddrs]
    exact hl.nodup

theorem sort_sorts (val : Int) (vals : List Int)
    : ∃ l ns, build (val :: vals) = .ok l ∧ Holds l ns ∧ ns.map Prod.snd = val :: vals
      ∧ Sorts l ns := by
  obtain ⟨l, ns, hbuild, hl, hdata⟩ := exists_build (val :: vals) holds_empty
  refine ⟨l, ns, hbuild, hl, hdata, sorts_of_holds hl ?_⟩
  rintro rfl
  contradiction

end Sorting

end SortList
