import Padhai.Leetcode.Impl.AddList
import Padhai.Lib.Digits

/-!
This module contains that `addTwoNumbers` of `addList.c` puts the digits of the sum of two numbers in a new
list. The nodes it appends are not among those it has yet to read.
-/

namespace AddList

open Heap LinkedList Digits
open Mem (ok_bind)

variable {h : Heap (Node Int)} {l3 l3' : LinkedList Int} {p q : Ptr} {rs ns ms : List (Nat × Int)}
  {xs ys us vs zs : List Nat} {c : Nat}

def HasDigits (ns : List (Nat × Int)) (xs : List Nat) : Prop :=
  ns.map Prod.snd = xs.map Int.ofNat

structure IsNumber (l : LinkedList Int) (xs : List Nat) : Prop where
  list : ∃ ns, Holds l ns ∧ HasDigits ns xs
  digits : ∀ x ∈ xs, x < 10

theorem HasDigits.snoc (h : HasDigits ns xs) (a x : Nat) : HasDigits (ns ++ [(a, Int.ofNat x)]) (xs ++ [x]) := by
  rw [HasDigits, List.map_append, List.map_append, h]
  rfl

theorem HasDigits.length_eq (h : HasDigits ns xs) : ns.length = xs.length := by
  simpa using congrArg List.length h

section Unread

/--
From `p` on the digits `us` can be read, in nodes that do not belong to the result so far.
-/
structure Unread (l3 : LinkedList Int) (rs : List (Nat × Int)) (p : Ptr) (ns : List (Nat × Int)) (us : List Nat)
    : Prop where
  first : p = first ns none
  segment : Segment l3.heap ns none
  digits : HasDigits ns us
  apart : ∀ a ∈ addrs ns, a ∉ addrs rs

theorem Unread.ne_none_iff (h : Unread l3 rs p ns us) : p ≠ none ↔ us ≠ [] := by
  have hfirst := h.first
  have hdigits := h.digits
  cases ns with
  | nil =>
    have hus : us = [] := List.map_eq_nil_iff.mp hdigits.symm
    simp [hfirst, hus, LinkedList.first]
  | cons n ns =>
    cases us with
    | nil => contradiction
    | cons u us => simp [hfirst, LinkedList.first]

theorem Unread.addVal (h : Unread l3 rs p ns us) (sum : Int)
    : ∃ p', addVal l3.heap p sum = .ok (sum + headDigit us, p') ∧ Unread l3 rs p' ns.tail us.tail := by
  have hfirst := h.first
  have hdigits := h.digits
  cases ns with
  | nil =>
    have hus : us = [] := List.map_eq_nil_iff.mp hdigits.symm
    rw [hus]
    refine ⟨p, ?_, hfirst, trivial, rfl, h.apart⟩
    have hsum : sum + headDigit [] = sum := Int.add_zero sum
    rw [AddList.addVal, if_neg (fun hp => hp hfirst), hsum]
    rfl
  | cons n ns =>
    cases us with
    | nil => contradiction
    | cons u us =>
      obtain ⟨hcell, hrest⟩ := h.segment
      obtain ⟨hu, hus⟩ := List.cons_eq_cons.mp hdigits
      refine ⟨LinkedList.first ns none, ?_, rfl, hrest, hus, fun a ha => h.apart a (List.mem_cons_of_mem _ ha)⟩
      have hp : p = some n.1 := hfirst
      rw [AddList.addVal, if_pos (by simp [hp]), hp, load_of_cell hcell, ok_bind]
      dsimp only
      rw [hu]
      rfl

theorem Unread.append {x : Int} (h : Unread l3 rs p ns us) (hl : Holds l3 rs) (happend : l3.append x = .ok l3')
    : Unread l3' (rs ++ [(l3.heap.cells.length, x)]) p ns us := by
  refine ⟨h.first, ?_, h.digits, ?_⟩
  . apply h.segment.frame
    intro a ha d hd
    exact hl.cell_append happend (h.apart a ha) hd
  . intro a ha
    rw [addrs_append, List.mem_append, not_or]
    refine ⟨h.apart a ha, ?_⟩
    rw [addrs_cons, addrs_nil, List.mem_singleton]
    exact (h.segment.lt ha).ne

end Unread

section Loop

structure Progress (xs ys : List Nat) (l3 : LinkedList Int) (p q : Ptr) (us vs zs : List Nat) (c : Nat)
    : Prop where
  lists : ∃ rs ns ms, Holds l3 rs ∧ HasDigits rs zs ∧ Unread l3 rs p ns us ∧ Unread l3 rs q ms vs
  adding : Adding 10 xs ys us vs zs c

theorem Progress.addDigit (h : Progress xs ys l3 p q us vs zs c) (hne : us ≠ [] ∨ vs ≠ [])
    : ∃ l3' p' q' zs' c', addDigit (l3, p, q, Int.ofNat c) = .ok (.inl (l3', p', q', Int.ofNat c'))
      ∧ Progress xs ys l3' p' q' us.tail vs.tail zs' c' := by
  obtain ⟨rs, ns, ms, hl, hdigits, hp, hq⟩ := h.lists
  obtain ⟨p', hu, hp'⟩ := hp.addVal 0
  obtain ⟨q', hv, hq'⟩ := hq.addVal (0 + headDigit us)
  generalize hs : headDigit us + headDigit vs + c = s
  have hsum : 0 + (headDigit us : Int) + headDigit vs + Int.ofNat c = s := by
    rw [← hs]
    simp
  obtain ⟨l3', happend, hl', -, -⟩ := hl.append (Int.ofNat (s % 10))
  refine ⟨l3', p', q', zs ++ [s % 10], s / 10, ?_, ⟨_, ns.tail, ms.tail, hl', hdigits.snoc _ _,
    hp'.append hl happend, hq'.append hl happend⟩, ?_⟩
  . have hrunning : p ≠ none ∨ q ≠ none := by
      rwa [hp.ne_none_iff, hq.ne_none_iff]
    rw [AddList.addDigit, if_pos hrunning, hu, ok_bind]
    dsimp only
    rw [hv, ok_bind]
    dsimp only
    rw [hsum, addNode]
    rw [show (s : Int).tmod 10 = Int.ofNat (s % 10) from rfl, happend]
    rfl
  . rw [← hs]
    exact h.adding.step hne (by decide)

theorem Progress.steps (n : Nat) (h : Progress xs ys l3 p q us vs zs c) (hn : max us.length vs.length = n)
    : ∃ l3' zs' c', Loop.Steps AddList.addDigit n (l3, p, q, Int.ofNat c) (l3', none, none, Int.ofNat c')
      ∧ Progress xs ys l3' none none [] [] zs' c' := by
  induction n generalizing l3 p q us vs zs c with
  | zero =>
    have hus : us = [] := List.eq_nil_of_length_eq_zero (by omega)
    have hvs : vs = [] := List.eq_nil_of_length_eq_zero (by omega)
    obtain ⟨rs, ns, ms, -, -, hp, hq⟩ := h.lists
    have hpnone : p = none := by
      by_contra hne
      exact hp.ne_none_iff.mp hne hus
    have hqnone : q = none := by
      by_contra hne
      exact hq.ne_none_iff.mp hne hvs
    rw [hus, hvs, hpnone, hqnone] at h
    rw [hpnone, hqnone]
    exact ⟨l3, zs, c, .refl _, h⟩
  | succ n ih =>
    have hne : us ≠ [] ∨ vs ≠ [] := by
      rw [← List.length_pos_iff, ← List.length_pos_iff]
      omega
    obtain ⟨l3', p', q', zs', c', hturn, h'⟩ := h.addDigit hne
    have htail : max us.tail.length vs.tail.length = n := by
      rw [List.length_tail, List.length_tail]
      omega
    obtain ⟨l3'', zs'', c'', hsteps, h''⟩ := ih h' htail
    exact ⟨l3'', zs'', c'', .turn hturn hsteps, h''⟩

theorem addDigit_done : addDigit (l3, none, none, Int.ofNat c) = .ok (.inr (l3, Int.ofNat c)) := rfl

theorem progress_start (hp : IsNumber ⟨h, p⟩ xs) (hq : IsNumber ⟨h, q⟩ ys)
    : Progress xs ys ⟨h, none⟩ p q xs ys [] 0 := by
  obtain ⟨ns, hns, hxs⟩ := hp.list
  obtain ⟨ms, hms, hys⟩ := hq.list
  refine ⟨⟨[], ns, ms, ⟨rfl, trivial, List.nodup_nil⟩, rfl, ?_, ?_⟩, adding_start hp.digits hq.digits⟩
  . exact ⟨hns.head, hns.segment, hxs, fun _ _ => List.not_mem_nil⟩
  . exact ⟨hms.head, hms.segment, hys, fun _ _ => List.not_mem_nil⟩

theorem IsNumber.length_le (hp : IsNumber ⟨h, p⟩ xs) : xs.length ≤ h.cells.length := by
  obtain ⟨ns, hns, hxs⟩ := hp.list
  rw [← hxs.length_eq]
  exact hns.segment.length_le hns.nodup

end Loop

theorem addTwoNumbers_isSum (heap : Heap (Node Int)) (l1 l2 : Ptr) (xs ys : List Nat)
    (hx : IsNumber ⟨heap, l1⟩ xs) (hy : IsNumber ⟨heap, l2⟩ ys)
    : ∃ l3 zs, addTwoNumbers heap l1 l2 = .ok l3 ∧ IsNumber l3 zs ∧ IsSum 10 xs ys zs := by
  obtain ⟨l3, zs, c, hsteps, hprogress⟩ := (progress_start hx hy).steps _ rfl
  have hle : max xs.length ys.length ≤ heap.cells.length := Nat.max_le.mpr ⟨hx.length_le, hy.length_le⟩
  have hloop := loop_of_steps_done hsteps addDigit_done hle
  obtain ⟨rs, -, -, hl, hdigits, -, -⟩ := hprogress.lists
  have hsum := hprogress.adding.isSum (by decide)
  rw [addTwoNumbers, show (0 : Int) = Int.ofNat 0 from rfl, hloop, ok_bind]
  dsimp only
  cases c with
  | zero => exact ⟨l3, zs, rfl, ⟨⟨rs, hl, hdigits⟩, hsum.digits⟩, hsum⟩
  | succ c =>
    obtain ⟨l3', happend, hl', -, -⟩ := hl.append (Int.ofNat (c + 1))
    have hcarry : Int.ofNat (c + 1) ≠ Int.ofNat 0 := fun hzero => Nat.succ_ne_zero c (Int.ofNat.inj hzero)
    rw [if_pos hcarry, addNode, happend]
    exact ⟨l3', zs ++ [c + 1], rfl, ⟨⟨_, hl', hdigits.snoc _ _⟩, hsum.digits⟩, hsum⟩

theorem addTwoNumbers_isSum_carry
    : let heap : Heap (Node Int) := ⟨[some ⟨9, some 1⟩, some ⟨9, none⟩, some ⟨5, none⟩], []⟩
      ∃ l3 zs, addTwoNumbers heap (some 0) (some 2) = .ok l3 ∧ IsNumber l3 zs ∧ IsSum 10 [9, 9] [5] zs := by
  apply addTwoNumbers_isSum
  . exact ⟨⟨[(0, 9), (1, 9)], ⟨rfl, ⟨rfl, rfl, trivial⟩, by decide⟩, rfl⟩, by decide⟩
  . exact ⟨⟨[(2, 5)], ⟨rfl, ⟨rfl, trivial⟩, by decide⟩, rfl⟩, by decide⟩

end AddList
