import Mathlib.Algebra.Ring.Int.Defs
import Padhai.Interview.Impl.MaxSumPath
import Padhai.Lib.ArgMax
import Padhai.Lib.Mem

/-!
This module contains that `maxSumPath` of `PS_4.c` finds the leftmost leaf with the greatest sum and prints the
way back from it, and that there is such a leaf for it exactly if some sum is above the one it starts from.
-/

namespace MaxSumPath

open ArgMax

variable {t l r : BinaryTree Node} {n : Node} {p : List Node} {a : Nat} {best : Int × Option Nat} {c : Int}

section Paths

/--
The ways up to the root from the nodes of a tree.
-/
def rootPaths : BinaryTree Node → List (List Node)
  | .nil => []
  | .node n l r => [n] :: (rootPaths l ++ rootPaths r).map (· ++ [n])

/--
The ways up to the root from the leaves of a tree, from left to right.
-/
def leafPaths : BinaryTree Node → List (List Node)
  | .nil => []
  | .node n l r =>
    if l = .nil ∧ r = .nil then
      [[n]]
    else
      (leafPaths l ++ leafPaths r).map (· ++ [n])

def values (p : List Node) : List Int :=
  p.map Node.data

def total (p : List Node) : Int :=
  (values p).sum

def leaf (p : List Node) : Option Nat :=
  p.head?.map Node.addr

/--
The sums on the ways from the root down, which is where an int has to hold them.
-/
def Fits (t : BinaryTree Node) : Prop :=
  ∀ p ∈ rootPaths t, intMin ≤ total p ∧ total p ≤ intMax

instance instDecidableFits : Decidable (Fits t) :=
  inferInstanceAs (Decidable (∀ p ∈ rootPaths t, _))

theorem values_snoc : values (p ++ [n]) = values p ++ [n.data] :=
  List.map_append

theorem total_snoc : total (p ++ [n]) = n.data + total p := by
  rw [total, values_snoc, List.sum_append, List.sum_singleton, Int.add_comm]
  rfl

theorem total_singleton : total [n] = n.data :=
  List.sum_singleton

theorem leaf_snoc (hp : p ≠ []) : leaf (p ++ [n]) = leaf p := by
  rw [leaf, List.head?_append_of_ne_nil p hp]
  rfl

theorem leafPaths_leaf : leafPaths (.node n .nil .nil) = [[n]] := rfl

theorem leafPaths_node (h : ¬(l = .nil ∧ r = .nil))
    : leafPaths (.node n l r) = (leafPaths l ++ leafPaths r).map (· ++ [n]) :=
  if_neg h

theorem mem_leafPaths_node (hp : p ∈ leafPaths (.node n l r))
    : p = [n] ∨ ∃ q, (q ∈ leafPaths l ∨ q ∈ leafPaths r) ∧ p = q ++ [n] := by
  rw [leafPaths] at hp
  split at hp
  . exact .inl (List.mem_singleton.mp hp)
  . obtain ⟨q, hq, rfl⟩ := List.mem_map.mp hp
    exact .inr ⟨q, List.mem_append.mp hq, rfl⟩

theorem ne_nil_of_mem_leafPaths (hp : p ∈ leafPaths t) : p ≠ [] := by
  cases t with
  | nil => contradiction
  | node n l r =>
    rcases mem_leafPaths_node hp with rfl | ⟨q, -, rfl⟩
    . simp
    . simp

theorem leaf_snoc_of_mem (hp : p ∈ leafPaths t) : leaf (p ++ [n]) = leaf p := by
  apply leaf_snoc
  exact ne_nil_of_mem_leafPaths hp

theorem exists_leaf_eq (hp : p ∈ leafPaths t) : ∃ a, leaf p = some a := by
  cases p with
  | nil => exact absurd rfl (ne_nil_of_mem_leafPaths hp)
  | cons n p => exact ⟨n.addr, rfl⟩

end Paths

section Target

/--
What a leaf is compared by below a node that is reached with the sum `c`.
-/
def reach (c : Int) (p : List Node) : Int :=
  c + total p

theorem reach_snoc : reach c (p ++ [n]) = reach (c + n.data) p := by
  rw [reach, reach, total_snoc, Int.add_assoc]

theorem add_of_fits (h : intMin ≤ c + n.data ∧ c + n.data ≤ intMax) : add c n.data = .ok (c + n.data) :=
  if_pos h

theorem foldl_improve_map (ps : List (List Node)) (hps : ∀ p ∈ ps, p ≠ [])
    : (ps.map (· ++ [n])).foldl (improve (reach c) leaf) best
      = ps.foldl (improve (reach (c + n.data)) leaf) best := by
  induction ps generalizing best with
  | nil => rfl
  | cons p ps ih =>
    obtain ⟨hp, hps⟩ := List.forall_mem_cons.mp hps
    have hstep : improve (reach c) leaf best (p ++ [n]) = improve (reach (c + n.data)) leaf best p := by
      rw [improve, improve, reach_snoc, leaf_snoc hp]
    rw [List.map_cons, List.foldl_cons, List.foldl_cons, hstep, ih hps]

theorem getTargetLeaf_eq (h : ∀ p ∈ rootPaths t, intMin ≤ reach c p ∧ reach c p ≤ intMax)
    : getTargetLeaf t best c = .ok ((leafPaths t).foldl (improve (reach c) leaf) best) := by
  induction t generalizing best c with
  | nil => rfl
  | node n l r ihl ihr =>
    have hroot := h [n] List.mem_cons_self
    rw [reach, total_singleton] at hroot
    have hchild : ∀ p ∈ rootPaths l ++ rootPaths r,
        intMin ≤ reach (c + n.data) p ∧ reach (c + n.data) p ≤ intMax := by
      intro p hp
      rw [← reach_snoc]
      exact h _ (List.mem_cons_of_mem _ (List.mem_map_of_mem hp))
    obtain ⟨hl, hr⟩ := List.forall_mem_append.mp hchild
    rw [getTargetLeaf, add_of_fits hroot, Mem.ok_bind]
    dsimp only
    rw [ihl hl, Mem.ok_bind, ihr hr]
    by_cases hleaf : l = .nil ∧ r = .nil
    . obtain ⟨rfl, rfl⟩ := hleaf
      rw [leafPaths_leaf, List.foldl_cons, List.foldl_nil, improve, reach, total_singleton]
      rfl
    . have hne : ∀ p ∈ leafPaths l ++ leafPaths r, p ≠ [] :=
        List.forall_mem_append.mpr ⟨fun _ => ne_nil_of_mem_leafPaths, fun _ => ne_nil_of_mem_leafPaths⟩
      rw [if_neg hleaf, leafPaths_node hleaf, foldl_improve_map _ hne, List.foldl_append]

theorem Fits.getTargetLeaf_foldl (h : Fits t)
    : getTargetLeaf t (intMin, none) 0 = .ok ((leafPaths t).foldl (improve (reach 0) leaf) (intMin, none)) := by
  apply getTargetLeaf_eq
  intro p hp
  rw [reach, Int.zero_add]
  exact h p hp

theorem reach_zero : reach 0 = total := by
  funext p
  rw [reach, Int.zero_add]

end Target

section Print

theorem printPath_of_notMem (ha : a ∉ addrs t) : printPath t a = (false, []) := by
  induction t with
  | nil => rfl
  | node n l r ihl ihr =>
    rw [addrs, List.mem_cons, List.mem_append, not_or, not_or] at ha
    obtain ⟨hn, hl, hr⟩ := ha
    rw [printPath, if_neg (Ne.symm hn), ihl hl, ihr hr]
    rfl

theorem mem_addrs_of_mem_leafPaths (hp : p ∈ leafPaths t) (ha : leaf p = some a) : a ∈ addrs t := by
  induction t generalizing p with
  | nil => contradiction
  | node n l r ihl ihr =>
    rw [addrs, List.mem_cons, List.mem_append]
    rcases mem_leafPaths_node hp with rfl | ⟨q, hq, rfl⟩
    . cases ha
      exact .inl rfl
    . rcases hq with hq | hq
      . rw [leaf_snoc_of_mem hq] at ha
        exact .inr (.inl (ihl hq ha))
      . rw [leaf_snoc_of_mem hq] at ha
        exact .inr (.inr (ihr hq ha))

theorem printPath_of_mem_leafPaths (hdistinct : (addrs t).Nodup) (hp : p ∈ leafPaths t) (ha : leaf p = some a)
    : printPath t a = (true, values p) := by
  induction t generalizing p with
  | nil => contradiction
  | node n l r ihl ihr =>
    rw [addrs, List.nodup_cons, List.mem_append, not_or] at hdistinct
    obtain ⟨⟨hnl, hnr⟩, hdistinct⟩ := hdistinct
    obtain ⟨hdl, hdr, hdisjoint⟩ := List.nodup_append'.mp hdistinct
    rcases mem_leafPaths_node hp with rfl | ⟨q, hq, rfl⟩
    . cases ha
      rw [printPath, if_pos rfl]
      rfl
    . rw [values_snoc, printPath]
      rcases hq with hq | hq
      . rw [leaf_snoc_of_mem hq] at ha
        have hmem := mem_addrs_of_mem_leafPaths hq ha
        rw [if_neg (ne_of_mem_of_not_mem hmem hnl).symm, ihl hdl hq ha]
        rfl
      . rw [leaf_snoc_of_mem hq] at ha
        have hmem := mem_addrs_of_mem_leafPaths hq ha
        rw [if_neg (ne_of_mem_of_not_mem hmem hnr).symm, printPath_of_notMem (hdisjoint.symm hmem),
          ihr hdr hq ha]
        rfl

end Print

section Optimal

theorem Fits.getTargetLeaf_of_exists_lt (h : Fits t) (habove : ∃ p ∈ leafPaths t, intMin < total p)
    : ∃ p, FirstMax total (leafPaths t) p ∧ getTargetLeaf t (intMin, none) 0 = .ok (total p, leaf p) := by
  rw [h.getTargetLeaf_foldl, reach_zero]
  have hfold : ∃ p, FirstMax total (leafPaths t) p
      ∧ (leafPaths t).foldl (improve total leaf) (intMin, none) = (total p, leaf p) :=
    foldl_improve_of_exists_lt habove
  obtain ⟨p, hp, hfold⟩ := hfold
  exact ⟨p, hp, congrArg Except.ok hfold⟩

theorem Fits.getTargetLeaf_of_forall_le (h : Fits t) (hbelow : ∀ p ∈ leafPaths t, total p ≤ intMin)
    : getTargetLeaf t (intMin, none) 0 = .ok (intMin, none) := by
  rw [h.getTargetLeaf_foldl, reach_zero, foldl_improve_of_forall_le hbelow]

theorem maxSumPath_optimal (t : Tree) (hfits : Fits t.root) (habove : ∃ p ∈ leafPaths t.root, intMin < total p)
    : ∃ p, FirstMax total (leafPaths t.root) p ∧ maxSumPath t.root = .ok (total p, values p) := by
  obtain ⟨p, hp, htarget⟩ := hfits.getTargetLeaf_of_exists_lt habove
  have hmem := hp.mem
  obtain ⟨a, ha⟩ := exists_leaf_eq hmem
  have hroot : t.root ≠ .nil := by
    intro hnil
    rw [hnil] at hmem
    contradiction
  refine ⟨p, hp, ?_⟩
  rw [maxSumPath, if_neg hroot, htarget, Mem.ok_bind, ha]
  dsimp only
  rw [printPath_of_mem_leafPaths t.distinct hmem ha]
  rfl

theorem maxSumPath_optimal_three
    : let root : BinaryTree Node :=
        .node ⟨0, -5⟩ (.node ⟨1, -3⟩ .nil .nil) (.node ⟨2, 4⟩ .nil (.node ⟨3, -7⟩ .nil .nil))
      let t : Tree := ⟨root, by decide⟩
      ∃ p, FirstMax total (leafPaths t.root) p ∧ maxSumPath t.root = .ok (total p, values p) :=
  maxSumPath_optimal _ (by decide) ⟨[⟨1, -3⟩, ⟨0, -5⟩], by decide, by decide⟩

end Optimal

section Assigns

/--
The target leaf is assigned, and `maxSumPath` does not go on without one.
-/
def AssignsTarget (t : BinaryTree Node) : Prop :=
  (∃ maxSum targetLeaf, getTargetLeaf t (intMin, none) 0 = .ok (maxSum, some targetLeaf))
    ∧ maxSumPath t ≠ .error .unassigned

theorem assignsTarget_iff (t : BinaryTree Node) (hfits : Fits t)
    : AssignsTarget t ↔ ∃ p ∈ leafPaths t, intMin < total p := by
  constructor
  . rintro ⟨⟨maxSum, targetLeaf, htarget⟩, -⟩
    by_contra hnone
    have hbelow : ∀ p ∈ leafPaths t, total p ≤ intMin := by
      intro p hp
      exact Int.not_lt.mp fun hlt => hnone ⟨p, hp, hlt⟩
    rw [hfits.getTargetLeaf_of_forall_le hbelow] at htarget
    cases htarget
  . intro habove
    obtain ⟨p, hp, htarget⟩ := hfits.getTargetLeaf_of_exists_lt habove
    obtain ⟨a, ha⟩ := exists_leaf_eq hp.mem
    rw [ha] at htarget
    refine ⟨⟨total p, a, htarget⟩, ?_⟩
    rw [maxSumPath, htarget]
    split
    . simp
    . simp

theorem assignsTarget_iff_three
    : let t : BinaryTree Node := .node ⟨0, 1⟩ (.node ⟨1, -3⟩ .nil .nil) (.node ⟨2, 4⟩ .nil .nil)
      AssignsTarget t ↔ ∃ p ∈ leafPaths t, intMin < total p :=
  assignsTarget_iff _ (by decide)

theorem not_assignsTarget_intMin
    : let t : BinaryTree Node := .node ⟨0, intMin⟩ .nil .nil
      Fits t ∧ maxSumPath t = .error .unassigned ∧ ¬AssignsTarget t := by
  refine ⟨by decide, by decide, ?_⟩
  rintro ⟨-, hne⟩
  exact hne (by decide)

end Assigns

end MaxSumPath
