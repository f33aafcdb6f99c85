import Padhai.Interview.Impl.PrintLevels
import Padhai.Interview.Lemmas.Queue
import Padhai.Lib.LevelOrder

/-!
This module contains for which trees the traversal of `PS_4.c` goes level by level, with its queue of 10 cells
whose `front` does not wrap around.
-/

namespace PrintLevels

open Mem Queue LevelOrder

variable {Q Q' : MyQueue Node} {s s' : State} {l r t : BinaryTree Int} {ts : List (BinaryTree Int)} {as : List Int}
  {a : Int} {n m fuel : Nat}

section Fits

/--
Between two moments when a node leaves the queue empty, no more than 9 others leave it before. `n` have left
so far.
-/
inductive Fits : (n : Nat) → List (BinaryTree Int) → Prop where
  | nil {n : Nat} : Fits n []
  | last {n : Nat} {a : Int} {l r : BinaryTree Int} (rest : Fits 0 (children (.node a l r))) : Fits n [.node a l r]
  | next {n : Nat} {a : Int} {l r : BinaryTree Int} {ts : List (BinaryTree Int)} (hts : ts ≠ []) (hn : n + 1 < 10)
    (rest : Fits (n + 1) (ts ++ children (.node a l r))) : Fits n (.node a l r :: ts)

theorem fits_last_iff : Fits n [.node a l r] ↔ Fits 0 (children (.node a l r)) := by
  constructor
  . intro h
    cases h with
    | last rest => exact rest
    | next hts => contradiction
  . exact .last

theorem fits_next_iff (hts : ts ≠ [])
    : Fits n (.node a l r :: ts) ↔ n + 1 < 10 ∧ Fits (n + 1) (ts ++ children (.node a l r)) := by
  constructor
  . intro h
    cases h with
    | last => contradiction
    | next _ hn rest => exact ⟨hn, rest⟩
  . rintro ⟨hn, rest⟩
    exact .next hts hn rest

theorem one_le_size (hts : ts ≠ []) (hnil : ∀ t ∈ ts, t ≠ .nil) : 1 ≤ size ts := by
  cases ts with
  | nil => contradiction
  | cons t ts =>
    cases t with
    | nil => exact absurd rfl (hnil .nil List.mem_cons_self)
    | node a l r =>
      rw [size_cons, BinaryTree.numNodes]
      omega

theorem fits_of_size_le (hnil : ∀ t ∈ ts, t ≠ .nil) (h : n + size ts ≤ 10) : Fits n ts := by
  induction hsize : size ts using Nat.strongRecOn generalizing n ts with
  | _ k ih =>
    cases ts with
    | nil => exact .nil
    | cons t ts =>
      obtain ⟨ht, hts⟩ := List.forall_mem_cons.mp hnil
      cases t with
      | nil => contradiction
      | node a l r =>
        have hnode := size_children (a := a) (l := l) (r := r)
        rw [size_cons] at h hsize
        by_cases hlast : ts = []
        . rw [hlast]
          exact .last (ih _ (by omega) (fun u => mem_children) (by omega) rfl)
        . have hpos := one_le_size hlast hts
          have hrest : ∀ u ∈ ts ++ children (.node a l r), u ≠ .nil :=
            List.forall_mem_append.mpr ⟨hts, fun u => mem_children⟩
          have hsum : size (ts ++ children (.node a l r)) = size ts + size (children (.node a l r)) := size_append
          exact .next hlast (by omega) (ih _ (by omega) hrest (by omega) rfl)

/--
The stretch that the root ends is empty, and the next one has all other nodes at most.
-/
theorem fits_of_numNodes_le (h : t.numNodes ≤ 11) : Fits 0 (present t) := by
  cases t with
  | nil => exact .nil
  | node a l r =>
    have hnode := size_children (a := a) (l := l) (r := r)
    exact .last (fits_of_size_le (fun u => mem_children) (by omega))

end Fits

section Children

theorem enqueueChild_of_represents (ts : List (BinaryTree Int)) (t : BinaryTree Int)
    (h : Represents Q ⟨ts.map pointer, n⟩) (hlen : (ts ++ present t).length ≤ 10)
    : ∃ Q', enqueueChild Q t = .ok Q' ∧ Represents Q' ⟨(ts ++ present t).map pointer, n⟩ := by
  cases t with
  | nil =>
    rw [present, List.append_nil]
    exact ⟨Q, rfl, h⟩
  | node a l r =>
    have hroom : (ts.map pointer).length < 10 := by
      rw [present, List.length_append, List.length_singleton] at hlen
      rw [List.length_map]
      omega
    obtain ⟨Q', hcall, hQ'⟩ := h.enqueue (pointer (.node a l r)) hroom
    obtain ⟨Q'', henqueue, hreturn⟩ := bind_eq_ok_iff.mp hcall
    cases hreturn
    refine ⟨Q', by rw [enqueueChild, if_pos (by simp), henqueue], ?_⟩
    simpa [Fifo.call, present] using hQ'

theorem enqueueChildren (ts : List (BinaryTree Int)) (h : Represents Q ⟨ts.map pointer, n⟩)
    (hlen : (ts ++ children (.node a l r)).length ≤ 10)
    : ∃ Q₁ Q', enqueueChild Q l = .ok Q₁ ∧ enqueueChild Q₁ r = .ok Q'
      ∧ Represents Q' ⟨(ts ++ children (.node a l r)).map pointer, n⟩ := by
  rw [children, ← List.append_assoc] at hlen ⊢
  obtain ⟨Q₁, hl, h₁⟩ := enqueueChild_of_represents ts l h (by rw [List.length_append] at hlen; omega)
  obtain ⟨Q', hr, h'⟩ := enqueueChild_of_represents _ r h₁ hlen
  exact ⟨Q₁, Q', hl, hr, h'⟩

end Children

section Visit

theorem visit_of_empty (h : Represents s.Q ⟨[], n⟩) : visit s = .ok (.inr s.printed) := by
  have hempty : isEmptyQueue s.Q = true := h.related.isEmpty.mpr rfl
  rw [visit, if_pos hempty]
  rfl

theorem visit_of_dequeue {Q Q₁ Q' : MyQueue Node} (hempty : isEmptyQueue s.Q = false)
    (hdequeue : dequeue s.Q = .ok (pointer (.node a l r), Q)) (hl : enqueueChild Q l = .ok Q₁)
    (hr : enqueueChild Q₁ r = .ok Q') : visit s = .ok (.inl { Q := Q', printed := s.printed ++ [a] }) := by
  rw [visit, hempty, if_neg (by simp), hdequeue]
  simp only [ok_bind, pointer, hl, hr, pure_eq_ok]

theorem isEmptyQueue_of_represents (h : Represents s.Q ⟨(t :: ts).map pointer, n⟩)
    : isEmptyQueue s.Q = false := by
  rw [Bool.eq_false_iff]
  intro hempty
  have := h.related.isEmpty.mp hempty
  contradiction

theorem visit_last (h : Represents s.Q ⟨[.node a l r].map pointer, n⟩)
    : ∃ Q, visit s = .ok (.inl { Q, printed := s.printed ++ [a] })
      ∧ Represents Q ⟨(children (.node a l r)).map pointer, 0⟩ := by
  have hempty := isEmptyQueue_of_represents h
  obtain ⟨Q, hdequeue, hQ⟩ := h.dequeue_last
  have hlen : ([] ++ children (.node a l r)).length ≤ 10 := by
    cases l
    all_goals
      cases r
      all_goals simp [children, present]
  obtain ⟨Q₁, Q', hl, hr, h'⟩ := enqueueChildren [] hQ hlen
  exact ⟨Q', visit_of_dequeue hempty hdequeue hl hr, h'⟩

theorem visit_next {u : BinaryTree Int} (h : Represents s.Q ⟨(.node a l r :: u :: ts).map pointer, n⟩)
    (hn : n + 1 < 10) (hlen : (u :: ts ++ children (.node a l r)).length ≤ 10)
    : ∃ Q, visit s = .ok (.inl { Q, printed := s.printed ++ [a] })
      ∧ Represents Q ⟨(u :: ts ++ children (.node a l r)).map pointer, n + 1⟩ := by
  have hempty := isEmptyQueue_of_represents h
  obtain ⟨Q, hdequeue, -, hQ⟩ := h.dequeue_many
  obtain ⟨Q₁, Q', hl, hr, h'⟩ := enqueueChildren (u :: ts) (hQ hn) hlen
  exact ⟨Q', visit_of_dequeue hempty hdequeue hl hr, h'⟩

/--
`front` has left the array.
-/
structure Left (Q : MyQueue Node) : Prop where
  capacity : Q.capacity = 10
  front : Q.front = 10
  rear : ∃ m : Nat, Q.rear = (m % 10 : Nat)

theorem Left.enqueueChild (h : Left Q) (t : BinaryTree Int) : ∃ Q', enqueueChild Q t = .ok Q' ∧ Left Q' := by
  cases t with
  | nil => exact ⟨Q, rfl, h⟩
  | node a l r =>
    obtain ⟨m, hrear⟩ := h.rear
    have hnext : (Q.rear + 1).tmod Q.capacity = ((m + 1) % 10 : Nat) := by
      rw [h.capacity, hrear, tmod_succ]
    have hfront : ¬Q.front = -1 := by
      rw [h.front]
      decide
    have hcall : enqueue Q (pointer (.node a l r)) = _ := enqueue_of_rear hnext
    rw [if_neg hfront] at hcall
    exact ⟨_, (if_pos (by simp)).trans hcall, h.capacity, h.front, m + 1, rfl⟩

theorem Left.visit (h : Left s.Q) : visit s = .error (.outOfRange 10 10) := by
  have hempty : isEmptyQueue s.Q = false := by
    rw [isEmptyQueue, h.front]
    rfl
  rw [PrintLevels.visit, hempty, if_neg (by simp), dequeue, hempty, h.front]
  rfl

theorem visit_left {u : BinaryTree Int} (h : Represents s.Q ⟨(.node a l r :: u :: ts).map pointer, 9⟩)
    : ∃ Q, visit s = .ok (.inl { Q, printed := s.printed ++ [a] }) ∧ Left Q := by
  have hempty := isEmptyQueue_of_represents h
  have hrear : s.Q.rear = ((9 + ((u :: ts).map pointer).length) % 10 : Nat) := h.rear (List.cons_ne_nil _ _)
  have hlen : ((u :: ts).map pointer).length + 1 ≤ 10 := h.length_le
  have hne : s.Q.rear ≠ (9 : Nat) := by
    rw [hrear]
    simp only [List.length_map, List.length_cons] at hlen ⊢
    omega
  have hdequeue := h.dequeue_cons
  rw [if_neg hne] at hdequeue
  have hleft : Left { s.Q with front := (9 + 1 : Nat) } := ⟨h.capacity, rfl, _, hrear⟩
  obtain ⟨Q₁, hl, h₁⟩ := hleft.enqueueChild l
  obtain ⟨Q', hr, h'⟩ := h₁.enqueueChild r
  exact ⟨Q', visit_of_dequeue hempty hdequeue hl hr, h'⟩

/--
With 10 nodes outstanding behind 9 that have left, the eleventh takes the place of the next one to leave.
-/
theorem enqueueChild_full (h : Represents Q ⟨ts.map pointer, 9⟩) (hlen : ts.length = 10)
    : ∃ Q', enqueueChild Q (.node a l r) = .ok Q' ∧ isEmptyQueue Q' = false
      ∧ ∃ Q'', dequeue Q' = .ok (pointer (.node a l r), Q'') ∧ Represents Q'' .empty := by
  have hne : ts.map pointer ≠ [] := by
    rw [← List.length_pos_iff, List.length_map, hlen]
    decide
  have hfront : Q.front = (9 : Nat) := h.front hne
  have hnext : (Q.rear + 1).tmod Q.capacity = ((19 : Nat) % 10 : Nat) := by
    rw [h.rear_succ, List.length_map, hlen]
  have hcall : enqueue Q (pointer (.node a l r)) = _ := enqueue_of_rear hnext
  rw [if_neg (by rw [hfront]; decide)] at hcall
  refine ⟨_, (if_pos (by simp)).trans hcall, ?_, ?_⟩
  . rw [isEmptyQueue, hfront]
    rfl
  . have hdequeue := dequeue_of_front (Q := { Q with
      data := Function.update Q.data (Fin.ofNat 10 19) (pointer (.node a l r))
      rear := ((19 : Nat) % 10 : Nat) }) hfront (by decide) h.capacity
    have hcell : Fin.ofNat 10 9 = Fin.ofNat 10 19 := rfl
    rw [if_pos rfl, hcell] at hdequeue
    dsimp only at hdequeue
    rw [Function.update_self] at hdequeue
    refine ⟨_, hdequeue, ?_⟩
    constructor
    all_goals simp [Fifo.empty, h.capacity]

/--
The nodes that were outstanding are lost.
-/
theorem visit_full {u ll lr rl rr : BinaryTree Int} {b c : Int}
    (h : Represents s.Q ⟨(.node a (.node b ll lr) (.node c rl rr) :: u :: ts).map pointer, 8⟩)
    (hlen : (u :: ts).length = 9)
    : ∃ t Q, visit s = .ok (.inl t) ∧ visit t = .ok (.inl { Q, printed := s.printed ++ [a, c] })
      ∧ Represents Q ⟨(children (.node c rl rr)).map pointer, 0⟩ := by
  have hempty := isEmptyQueue_of_represents h
  obtain ⟨Q₀, hdequeue, -, hQ₀⟩ := h.dequeue_many
  obtain ⟨Q₁, hl, h₁⟩ := enqueueChild_of_represents (u :: ts) (.node b ll lr) (hQ₀ (by decide))
    (by rw [List.length_append, hlen]; rfl)
  obtain ⟨Q₂, hr, hempty₂, Q₃, hdequeue₂, h₃⟩ := enqueueChild_full (a := c) (l := rl) (r := rr) h₁
    (by rw [List.length_append, hlen]; rfl)
  have hroom : ([] ++ children (.node c rl rr)).length ≤ 10 := by
    cases rl
    all_goals
      cases rr
      all_goals simp [children, present]
  obtain ⟨Q₄, Q₅, hl', hr', h₅⟩ := enqueueChildren [] h₃ hroom
  have hsecond := visit_of_dequeue (s := { Q := Q₂, printed := s.printed ++ [a] }) hempty₂ hdequeue₂ hl' hr'
  rw [List.append_assoc] at hsecond
  exact ⟨_, Q₅, visit_of_dequeue hempty hdequeue hl hr, hsecond, h₅⟩

end Visit

section Run

/--
How a traversal comes out that still has to visit `ts`.
-/
structure Outcome (run : Checked (List Int)) (n : Nat) (ts : List (BinaryTree Int)) (printed as : List Int)
    : Prop where
  fits : Fits n ts → run = .ok (printed ++ as)
  not_fits : ¬Fits n ts
    → run = .error (.outOfRange 10 10) ∨ ∃ bs, run = .ok (printed ++ bs) ∧ bs.length < as.length

variable {run : Checked (List Int)} {printed : List Int}

theorem Outcome.length_le (h : Outcome run n ts printed as)
    : run = .error (.outOfRange 10 10) ∨ ∃ bs, run = .ok (printed ++ bs) ∧ bs.length ≤ as.length := by
  by_cases hfits : Fits n ts
  . exact .inr ⟨as, h.fits hfits, Nat.le_refl _⟩
  . rcases h.not_fits hfits with herror | ⟨bs, hrun, hlt⟩
    . exact .inl herror
    . exact .inr ⟨bs, hrun, hlt.le⟩

theorem Outcome.cons {us : List (BinaryTree Int)} (h : Outcome run m us (printed ++ [a]) as)
    (hiff : Fits n ts ↔ Fits m us) : Outcome run n ts printed (a :: as) := by
  constructor
  . intro hfits
    rw [h.fits (hiff.mp hfits), List.append_assoc, List.singleton_append]
  . intro hfits
    rcases h.not_fits (mt hiff.mpr hfits) with herror | ⟨bs, hrun, hlt⟩
    . exact .inl herror
    . refine .inr ⟨a :: bs, ?_, Nat.succ_lt_succ hlt⟩
      rw [hrun, List.append_assoc, List.singleton_append]

theorem length_children_le : (children (.node a l r)).length ≤ 2 := by
  cases l
  all_goals
    cases r
    all_goals simp [children, present]

theorem visits_children (t : BinaryTree Int) : Visits (children t) (order [] (children t)) :=
  visits_order [] (children t) fun _ => mem_children

theorem exists_nodes_of_length (h : (children (.node a l r)).length = 2)
    : ∃ b ll lr c rl rr, l = .node b ll lr ∧ r = .node c rl rr := by
  cases l with
  | nil =>
    cases r
    all_goals simp [children, present] at h
  | node b ll lr =>
    cases r with
    | nil => simp [children, present] at h
    | node c rl rr => exact ⟨b, ll, lr, c, rl, rr, rfl, rfl⟩

theorem not_fits_full {u : BinaryTree Int} (hlen : (u :: ts).length = 9)
    : ¬Fits 8 (.node a l r :: u :: ts) := by
  rw [fits_next_iff (List.cons_ne_nil u ts)]
  rintro ⟨-, h⟩
  obtain ⟨v, ts, rfl⟩ : ∃ v vs, ts = v :: vs := by
    rw [← List.ne_nil_iff_exists_cons]
    rintro rfl
    simp at hlen
  cases h with
  | next _ hn => exact absurd hn (by decide)

theorem size_lost {ll lr rl rr : BinaryTree Int} {b c : Int}
    : size (children (.node c rl rr)) + 2 < size (.node a (.node b ll lr) (.node c rl rr) :: ts) := by
  have hnode := size_children (a := c) (l := rl) (r := rr)
  rw [size_cons, BinaryTree.numNodes, ← hnode, BinaryTree.numNodes]
  omega

theorem outcome_left {u : BinaryTree Int} (h : Represents s.Q ⟨(.node a l r :: u :: ts).map pointer, 9⟩)
    : Outcome (loop (fuel + 1 + 1) visit s) 9 (.node a l r :: u :: ts) s.printed as := by
  obtain ⟨Q, hvisit, hleft⟩ := visit_left h
  have hnot : ¬Fits 9 (.node a l r :: u :: ts) := by
    rw [fits_next_iff (List.cons_ne_nil u ts)]
    rintro ⟨hn, -⟩
    exact absurd hn (by decide)
  refine ⟨fun hfits => absurd hfits hnot, fun _ => .inl ?_⟩
  rw [loop_next hvisit, loop_error (Left.visit hleft)]

/--
The nodes that are lost are missing from what is printed, whatever happens to the others.
-/
theorem outcome_full {u ll lr rl rr : BinaryTree Int} {b c : Int} {Q : MyQueue Node} {bs : List Int}
    (hvisit : visit s = .ok (.inl s')) (hvisit' : visit s' = .ok (.inl { Q, printed := s.printed ++ [a, c] }))
    (hlen : (u :: ts).length = 9)
    (hrest : Outcome (loop fuel visit { Q, printed := s.printed ++ [a, c] }) 0 (children (.node c rl rr))
      (s.printed ++ [a, c]) bs)
    (hlt : bs.length + 2 < as.length)
    : Outcome (loop (fuel + 1 + 1) visit s) 8 (.node a (.node b ll lr) (.node c rl rr) :: u :: ts) s.printed
      as := by
  refine ⟨fun hfits => absurd hfits (not_fits_full hlen), fun _ => ?_⟩
  rw [loop_next hvisit, loop_next hvisit']
  rcases hrest.length_le with herror | ⟨cs, hrun, hle⟩
  . exact .inl herror
  . refine .inr ⟨[a, c] ++ cs, ?_, ?_⟩
    . rw [hrun, List.append_assoc]
    . rw [List.length_append]
      exact (Nat.add_le_add_left hle 2).trans_lt (by omega)

theorem loop_visit (h : Represents s.Q ⟨ts.map pointer, n⟩) (hlen : ts.length ≤ n + 2) (hvisits : Visits ts as)
    (hfuel : size ts < fuel) : Outcome (loop fuel visit s) n ts s.printed as := by
  induction hsize : size ts using Nat.strongRecOn generalizing s n ts as fuel with
  | _ k ih =>
    obtain ⟨fuel, rfl⟩ : ∃ f, fuel = f + 1 := ⟨fuel - 1, by omega⟩
    have hlength := hvisits.length_eq
    cases hvisits with
    | nil =>
      rw [loop_done (visit_of_empty h)]
      exact ⟨fun _ => by rw [List.append_nil], fun hfits => absurd .nil hfits⟩
    | @node a l r ts as rest =>
      have hstep : size (ts ++ children (.node a l r)) < size (.node a l r :: ts) := size_step
      have hchildren := length_children_le (a := a) (l := l) (r := r)
      rcases ts with _ | ⟨u, ts⟩
      . rw [List.nil_append] at hstep rest
        obtain ⟨Q, hvisit, hQ⟩ := visit_last h
        rw [loop_next hvisit]
        exact (ih _ (by omega) hQ hchildren rest (by omega) rfl).cons fits_last_iff
      . have hle := rest.length_le
        have hsize' := rest.length_eq
        have hserved : n < 10 := h.served_lt
        have hnext : (u :: ts ++ children (.node a l r)).length ≤ n + 1 + 2 := by
          rw [List.length_cons] at hlen
          rw [List.length_append]
          omega
        -- The next two turns may be needed at once.
        obtain ⟨fuel, rfl⟩ : ∃ f, fuel = f + 1 := by
          refine ⟨fuel - 1, ?_⟩
          rw [List.length_append, List.length_cons] at hle
          omega
        by_cases hn : n + 1 < 10
        . by_cases hroom : (u :: ts ++ children (.node a l r)).length ≤ 10
          . obtain ⟨Q, hvisit, hQ⟩ := visit_next h hn hroom
            rw [loop_next hvisit]
            have houtcome : Outcome (loop (fuel + 1) visit { Q, printed := s.printed ++ [a] }) (n + 1)
                (u :: ts ++ children (.node a l r)) (s.printed ++ [a]) as :=
              ih _ (by omega) hQ hnext rest (by omega) rfl
            exact houtcome.cons ((fits_next_iff (List.cons_ne_nil u ts)).trans (and_iff_right hn))
          . rw [List.length_append] at hroom hnext
            rw [List.length_cons] at hlen
            obtain rfl : n = 8 := by omega
            have hnine : (u :: ts).length = 9 := by omega
            have htwo : (children (.node a l r)).length = 2 := by omega
            obtain ⟨b, ll, lr, c, rl, rr, rfl, rfl⟩ := exists_nodes_of_length htwo
            obtain ⟨t, Q, hvisit, hvisit', hQ⟩ := visit_full h hnine
            have hlost : size (children (.node c rl rr)) + 2
                < size (.node a (.node b ll lr) (.node c rl rr) :: u :: ts) := size_lost
            have hbelow := (visits_children (.node c rl rr)).length_eq
            have hrest : Outcome (loop fuel visit { Q, printed := s.printed ++ [a, c] }) 0
                (children (.node c rl rr)) (s.printed ++ [a, c]) (order [] (children (.node c rl rr))) :=
              ih _ (by omega) hQ length_children_le (visits_children (.node c rl rr)) (by omega) rfl
            exact outcome_full hvisit hvisit' hnine hrest (by omega)
        . obtain rfl : n = 9 := by omega
          exact outcome_left h

/--
With fuel for all nodes, whatever the cells of the queue hold at first.
-/
theorem levelorder_outcome (cells : Fin 10 → Option Node) (t : BinaryTree Int) (fuel : Nat)
    : Outcome (levelorder (t.numNodes + 1 + fuel) cells t) 0 (present t) [] (levelOrder t) := by
  have hfuel : t.numNodes + 1 + fuel = t.numNodes + fuel + 1 := by omega
  obtain ⟨Q, hcall, hQ⟩ := (represents_createQueue cells).enqueue (pointer t) (by simp [Fifo.empty])
  obtain ⟨Q', henqueue, hreturn⟩ := bind_eq_ok_iff.mp hcall
  cases hreturn
  rw [levelorder, henqueue, ok_bind]
  cases t with
  | nil =>
    obtain ⟨Q'', hdequeue, -⟩ := Represents.dequeue_last hQ
    have hempty : isEmptyQueue Q = false := by
      rw [Bool.eq_false_iff]
      intro hempty
      have := hQ.related.isEmpty.mp hempty
      contradiction
    have hvisit : visit { Q, printed := [] } = .ok (.inr []) := by
      rw [visit, hempty, if_neg (by simp), hdequeue]
      rfl
    rw [hfuel, loop_done hvisit]
    exact ⟨fun _ => rfl, fun hfits => absurd .nil hfits⟩
  | node a l r =>
    have hsize : size [.node a l r] = (BinaryTree.node a l r).numNodes := size_cons
    have hone : [BinaryTree.node a l r].length ≤ 0 + 2 := by simp
    exact loop_visit (s := { Q, printed := [] }) (n := 0) hQ hone (visits_levelOrder (.node a l r))
      (by rw [present, hsize]; omega)

theorem levelorder_iff (cells : Fin 10 → Option Node) (t : BinaryTree Int) (fuel : Nat)
    : (levelorder (t.numNodes + 1 + fuel) cells t = .ok (levelOrder t) ↔ Fits 0 (present t))
      ∧ (¬Fits 0 (present t) → levelorder (t.numNodes + 1 + fuel) cells t = .error (.outOfRange 10 10)
        ∨ ∃ printed, levelorder (t.numNodes + 1 + fuel) cells t = .ok printed ∧ printed.length < t.numNodes)
      ∧ (t.numNodes ≤ 11 → Fits 0 (present t)) := by
  have houtcome := levelorder_outcome cells t fuel
  have hnot := houtcome.not_fits
  rw [length_levelOrder] at hnot
  refine ⟨⟨?_, houtcome.fits⟩, hnot, fits_of_numNodes_le⟩
  intro hrun
  by_contra hfits
  rcases hnot hfits with herror | ⟨printed, hprinted, hlt⟩
  . rw [hrun] at herror
    contradiction
  . rw [hrun, List.nil_append, Except.ok.injEq] at hprinted
    rw [← hprinted, length_levelOrder] at hlt
    omega

end Run

end PrintLevels
