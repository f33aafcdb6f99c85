import Padhai.DataStruct.Impl.ListMain
import Padhai.DataStruct.Lemmas.MyList

/-!
This module contains what the program of `list.c` prints for each input, and that the text of a list tells
which list it is.
-/

namespace MyList

open Heap LinkedList
open Mem (ok_bind pure_eq_ok append_cons_inj)

variable {h : Heap (Node Int)} {l : LinkedList Int} {ns : List (Nat × Int)} {contents xs ys : List Int}
  {m n : Nat} {a b : Int} {s t out : List Char}

section Print

def text (contents : List Int) : List Char :=
  (contents.flatMap fun n => decimal n ++ ['-', '>']) ++ ['N', 'U', 'L', 'L']

theorem printNode_cons {n : Nat × Int} (hs : Segment h (n :: ns) none)
    : printNode h (out, some n.1) = .ok (.inl (out ++ decimal n.2 ++ ['-', '>'], first ns none)) := by
  rw [printNode, if_neg (by simp), load_of_cell hs.1, ok_bind, pure_eq_ok]

theorem printNode_steps (out : List Char) (hs : Segment h ns none)
    : Loop.Steps (printNode h) ns.length (out, first ns none)
        (out ++ (ns.map Prod.snd).flatMap (fun n => decimal n ++ ['-', '>']), none) := by
  induction ns generalizing out with
  | nil =>
    rw [List.map_nil, List.flatMap_nil, List.append_nil]
    exact .refl _
  | cons n ns ih =>
    refine .turn (printNode_cons hs) ?_
    have := ih (out ++ decimal n.2 ++ ['-', '>']) hs.2
    simpa using this

theorem printNode_done : printNode h (out, none) = .ok (.inr (out ++ ['N', 'U', 'L', 'L'])) := by
  rw [printNode, if_pos rfl, pure_eq_ok]

theorem printlist_holds (hl : Holds l ns) : printlist l = .ok (text (ns.map Prod.snd)) := by
  have hsteps := printNode_steps [] hl.segment
  rw [← hl.head, List.nil_append] at hsteps
  exact loop_of_steps_done hsteps printNode_done (hl.segment.length_le hl.nodup)

theorem Related.printlist (hr : Related l contents) : MyList.printlist l = .ok (text contents) := by
  obtain ⟨ns, hl, rfl, -⟩ := hr
  exact printlist_holds hl

theorem notMem_toDigits {c : Char} (hc : ¬c.isDigit) : c ∉ Nat.toDigits 10 n :=
  fun h => hc (Nat.isDigit_of_mem_toDigits (by decide) (by decide) h)

theorem toDigits_inj (h : Nat.toDigits 10 m = Nat.toDigits 10 n) : m = n := by
  rw [← Nat.ofDigitChars_ten_toDigits (n := m), h, Nat.ofDigitChars_ten_toDigits]

theorem toDigits_append_ne {c : Char} (hc : ¬c.isDigit) : Nat.toDigits 10 n ++ s ≠ c :: t := by
  intro h
  obtain ⟨d, ds, hd⟩ := List.exists_cons_of_ne_nil (Nat.toDigits_ne_nil (n := n) (b := 10))
  rw [hd, List.cons_append, List.cons.injEq] at h
  apply notMem_toDigits (n := n) hc
  rw [hd, h.1]
  exact List.mem_cons_self

/--
A number ends where a minus follows that is not its sign.
-/
theorem decimal_append_inj (h : decimal a ++ '-' :: s = decimal b ++ '-' :: t) : a = b ∧ s = t := by
  have hminus : ¬ '-'.isDigit := by decide
  match a, b with
  | .ofNat m, .ofNat n =>
    obtain ⟨hdigits, hrest⟩ := append_cons_inj (notMem_toDigits hminus) (notMem_toDigits hminus) h
    exact ⟨congrArg Int.ofNat (toDigits_inj hdigits), hrest⟩
  | .negSucc m, .negSucc n =>
    obtain ⟨hdigits, hrest⟩ := append_cons_inj (notMem_toDigits hminus) (notMem_toDigits hminus)
      (List.cons.inj h).2
    exact ⟨congrArg Int.negSucc (Nat.succ.inj (toDigits_inj hdigits)), hrest⟩
  | .ofNat m, .negSucc n => exact absurd h (toDigits_append_ne hminus)
  | .negSucc m, .ofNat n => exact absurd h.symm (toDigits_append_ne hminus)

theorem decimal_append_ne_null : decimal a ++ s ≠ ['N', 'U', 'L', 'L'] ++ t := by
  match a with
  | .ofNat n => exact toDigits_append_ne (by decide)
  | .negSucc n => exact fun h => absurd (List.cons.inj h).1 (by decide)

theorem text_cons : text (a :: xs) = decimal a ++ ['-', '>'] ++ text xs := by
  rw [text, text, List.flatMap_cons, List.append_assoc]

theorem text_append_inj (h : text xs ++ s = text ys ++ t) : xs = ys ∧ s = t := by
  induction xs generalizing ys with
  | nil =>
    cases ys with
    | nil => exact ⟨rfl, List.append_cancel_left h⟩
    | cons b ys =>
      rw [text_cons, List.append_assoc, List.append_assoc] at h
      exact absurd h.symm decimal_append_ne_null
  | cons a xs ih =>
    rw [text_cons, List.append_assoc, List.append_assoc] at h
    cases ys with
    | nil => exact absurd h decimal_append_ne_null
    | cons b ys =>
      rw [text_cons, List.append_assoc, List.append_assoc] at h
      obtain ⟨rfl, hrest⟩ := decimal_append_inj h
      obtain ⟨rfl, rfl⟩ := ih (List.cons.inj hrest).2
      exact ⟨rfl, rfl⟩

end Print

end MyList

namespace ListMain

open LinkedList MyList
open Mem (ok_bind error_bind pure_eq_ok throw_eq_error)

variable {l l' : LinkedList Int} {num n count : Int} {stdin rest contents xs ys : List Int} {k i : Nat}
  {key key' : Int}

section Scanf

/--
The number that the call `i` of `scanf` leaves in a variable, for which the last one is kept at the end of
the input.
-/
def value (num : Int) (stdin : List Int) (i : Nat) : Int :=
  stdin.getD i (stdin.getLastD num)

def entered (num : Int) (stdin : List Int) (k : Nat) : List Int :=
  (List.range k).map (value num stdin)

theorem value_zero : value num stdin 0 = (scanf num stdin).1 := by
  cases stdin <;> rfl

theorem value_succ : value num stdin (i + 1) = value (scanf num stdin).1 (scanf num stdin).2 i := by
  cases stdin with
  | nil => rfl
  | cons n stdin =>
    rw [value, List.getD_cons_succ, List.getLastD_cons]
    rfl

theorem entered_succ : entered num stdin (k + 1)
    = (scanf num stdin).1 :: entered (scanf num stdin).1 (scanf num stdin).2 k := by
  rw [entered, List.range_succ_eq_map, List.map_cons, List.map_map, value_zero, entered]
  congr 1
  exact List.map_congr_left fun i _ => value_succ

end Scanf

section Main

theorem insert_related (hr : Related l contents) (n : Int)
    : ∃ l', onHeap (insert l n) = .ok l' ∧ Related l' (contents ++ [n]) := by
  obtain ⟨l', hcall, hr'⟩ := hr.insert n
  refine ⟨l', ?_, hr'⟩
  rw [MyList.call, Mem.bind_eq_ok_iff] at hcall
  obtain ⟨l₁, hinsert, hcall⟩ := hcall
  cases hcall
  rw [hinsert]
  rfl

theorem deletenode_related (hr : Related l contents) (key : Int)
    : ∃ l', onHeap (deletenode l key) = .ok l' ∧ Related l' (contents.filter (· ≠ key)) := by
  obtain ⟨l', hcall, hr'⟩ := hr.deletenode key
  refine ⟨l', ?_, hr'⟩
  rw [MyList.call, Mem.bind_eq_ok_iff] at hcall
  obtain ⟨l₁, hdelete, hcall⟩ := hcall
  cases hcall
  rw [hdelete]
  rfl

theorem readNodes_step (hcount : count ≠ 0)
    (hinsert : onHeap (insert l (scanf num stdin).1) = .ok l')
    : readNodes l num stdin count
        =
      if count ≤ intMin then .error .overflow
      else readNodes l' (scanf num stdin).1 (scanf num stdin).2 (count - 1) := by
  rw [readNodes, if_neg hcount]
  simp only [hinsert, ok_bind, throw_eq_error]

theorem readNodes_natCast (num : Int) (stdin : List Int) (hr : Related l contents) (k : Nat)
    : ∃ l' num' stdin', readNodes l num stdin k = .ok (l', num', stdin')
        ∧ Related l' (contents ++ entered num stdin k) ∧ (scanf num' stdin').1 = value num stdin k := by
  induction k generalizing l contents num stdin with
  | zero =>
    refine ⟨l, num, stdin, by rw [readNodes, if_pos Int.natCast_zero, pure_eq_ok], ?_, value_zero.symm⟩
    rwa [entered, List.range_zero, List.map_nil, List.append_nil]
  | succ k ih =>
    obtain ⟨l₁, hinsert, hr₁⟩ := insert_related hr (scanf num stdin).1
    obtain ⟨l', num', stdin', hread, hr', hnext⟩ := ih (scanf num stdin).1 (scanf num stdin).2 hr₁
    have hmin : ¬((k + 1 : Nat) : Int) ≤ intMin := by
      rw [intMin]
      omega
    have hpred : ((k + 1 : Nat) : Int) - 1 = k := by omega
    refine ⟨l', num', stdin', ?_, ?_, hnext.trans value_succ.symm⟩
    . rw [readNodes_step (by omega) hinsert, if_neg hmin, hpred, hread]
    . rw [entered_succ, List.append_cons]
      exact hr'

theorem readNodes_of_neg (hr : Related l contents) (hcount : count < 0)
    : readNodes l num stdin count = .error .overflow := by
  induction hroom : (count - intMin).toNat using Nat.strongRecOn generalizing l contents num stdin count with
  | _ room ih =>
    obtain ⟨l₁, hinsert, hr₁⟩ := insert_related hr (scanf num stdin).1
    rw [readNodes_step (by omega) hinsert]
    by_cases hmin : count ≤ intMin
    . rw [if_pos hmin]
    . rw [if_neg hmin]
      exact ih _ (by omega) hr₁ (by omega) rfl

def output (xs : List Int) (key : Int) : List Char :=
  askCount ++ text xs ++ '\n' :: askKey ++ text (xs.filter (· ≠ key)) ++ ['\n']

theorem output_inj (h : output xs key = output ys key')
    : xs = ys ∧ xs.filter (· ≠ key) = ys.filter (· ≠ key') := by
  simp only [output, List.append_assoc, List.cons_append] at h
  obtain ⟨rfl, hrest⟩ := text_append_inj (List.append_cancel_left h)
  exact ⟨rfl, (text_append_inj (List.append_cancel_left (List.cons.inj hrest).2)).1⟩

theorem scanf_snd : (scanf num stdin).2 = stdin.tail := by
  cases stdin <;> rfl

theorem onHeap_printlist (hr : Related l contents) : onHeap (printlist l) = .ok (text contents) := by
  rw [hr.printlist]
  rfl

theorem main_of_nonneg (hcount : 0 ≤ value count stdin 0)
    : main count num stdin = .ok (output (entered num stdin.tail (value count stdin 0).toNat)
        (value num stdin.tail (value count stdin 0).toNat)) := by
  rw [value_zero] at hcount ⊢
  obtain ⟨k, hk⟩ := Int.eq_ofNat_of_zero_le hcount
  obtain ⟨l, num', stdin', hread, hr, hnext⟩ := readNodes_natCast num stdin.tail related_empty k
  rw [List.nil_append] at hr
  obtain ⟨l', hdelete, hr'⟩ := deletenode_related hr (value num stdin.tail k)
  rw [hk, Int.toNat_natCast]
  simp only [main, hk, scanf_snd, hread, hnext, onHeap_printlist hr, hdelete, onHeap_printlist hr', ok_bind,
    pure_eq_ok, output]

theorem main_of_neg (hcount : value count stdin 0 < 0) : main count num stdin = .error .overflow := by
  rw [value_zero] at hcount
  simp only [main, readNodes_of_neg related_empty hcount, error_bind]

/--
The list is printed as it was entered and again without the number to delete, and the text tells both of
them; a negative count is counted down until it overflows.
-/
theorem main_prints (count num : Int) (stdin : List Int)
    : (value count stdin 0 < 0 → main count num stdin = .error .overflow)
      ∧ (0 ≤ value count stdin 0 →
        main count num stdin = .ok (output (entered num stdin.tail (value count stdin 0).toNat)
          (value num stdin.tail (value count stdin 0).toNat)))
      ∧ ∀ xs ys key key', output xs key = output ys key'
        ↔ xs = ys ∧ xs.filter (· ≠ key) = ys.filter (· ≠ key') := by
  refine ⟨main_of_neg, main_of_nonneg, fun xs ys key key' => ⟨output_inj, ?_⟩⟩
  rintro ⟨rfl, hrest⟩
  rw [output, output, hrest]

end Main

end ListMain
