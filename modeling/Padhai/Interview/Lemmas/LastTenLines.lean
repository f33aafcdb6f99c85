import Padhai.Interview.Impl.LastTenLines
import Padhai.Lib.Lines

/-!
This module contains when the backward scan of `last_ten_lines.c` prints the last lines of a text: it moves two
characters at every newline, so it does not see a newline right before another one, and it needs two characters
before the last newline it stops at.
-/

namespace LastTenLines

open Mem Lines

variable {str w v u post : Bytes} {c x : UInt8} {n turns : Nat} {m r : Int}

section Scan

theorem advance_of_le {ptr offset : Int} (h : 0 ≤ ptr + offset) (hle : ptr + offset ≤ str.length)
    : advance str ptr offset = .ok (ptr + offset) :=
  if_pos ⟨h, hle⟩

theorem advance_of_neg {ptr offset : Int} (h : ptr + offset < 0)
    : advance str ptr offset = .error (.outOfRange str.length (ptr + offset)) :=
  if_neg fun hrange => absurd h (not_lt_of_ge hrange.1)

/--
The index of the last of some characters, which are `w` from the last one on.
-/
def lastIdx (w : Bytes) : Int :=
  w.length - 1

theorem lastIdx_cons : lastIdx (c :: w) = w.length := by
  rw [lastIdx, List.length_cons]
  omega

theorem eq_reverse_append_cons (hstr : str = (c :: w).reverse ++ post) : str = w.reverse ++ c :: post := by
  rw [hstr, List.reverse_cons, List.append_assoc, List.singleton_append]

theorem loadAt_lastIdx (hstr : str = (c :: w).reverse ++ post) : loadAt str (lastIdx (c :: w)) = .ok c := by
  have hlength : w.length = w.reverse.length := List.length_reverse.symm
  rw [lastIdx_cons, loadAt_natCast, eq_reverse_append_cons hstr, hlength]
  apply load_append_length

theorem advance_lastIdx (hstr : str = (c :: w).reverse ++ post)
    : advance str (lastIdx (c :: w)) (-1) = if w = [] then .error (.outOfRange str.length (-1))
      else .ok (lastIdx w) := by
  have hlength := congrArg List.length hstr
  rw [List.length_append, List.length_reverse, List.length_cons] at hlength
  rw [lastIdx_cons]
  cases w with
  | nil =>
    rw [if_pos rfl]
    exact advance_of_neg (by decide)
  | cons x w =>
    rw [if_neg (List.cons_ne_nil x w), lastIdx_cons, List.length_cons]
    rw [List.length_cons] at hlength
    rw [advance_of_le (by omega) (by omega)]
    congr 1
    omega

theorem scan_nil (hm : 0 ≤ m) : scan str (m, lastIdx []) = .error (.outOfRange str.length (-1)) := by
  rw [scan, if_pos hm]
  rfl

theorem scan_other (hstr : str = (c :: w).reverse ++ post) (hc : c ≠ delim) (hm : 0 ≤ m)
    : scan str (m, lastIdx (c :: w)) = if w = [] then .error (.outOfRange str.length (-1))
      else .ok (.inl (m, lastIdx w)) := by
  rw [scan, if_pos hm, loadAt_lastIdx hstr, ok_bind, if_neg hc, pure_eq_ok, ok_bind]
  dsimp only
  rw [advance_lastIdx hstr]
  split
  . rfl
  . rfl

theorem scan_delim (hstr : str = (delim :: x :: w).reverse ++ post) (hm : 0 ≤ m)
    : scan str (m, lastIdx (delim :: x :: w)) = if w = [] then .error (.outOfRange str.length (-1))
      else .ok (.inl (m - 1, lastIdx w)) := by
  rw [scan, if_pos hm, loadAt_lastIdx hstr, ok_bind, if_pos rfl, advance_lastIdx hstr,
    if_neg (List.cons_ne_nil x w), ok_bind, pure_eq_ok, ok_bind]
  dsimp only
  rw [advance_lastIdx (eq_reverse_append_cons hstr)]
  split
  . rfl
  . rfl

theorem scan_delim_singleton (hstr : str = [delim].reverse ++ post) (hm : 0 ≤ m)
    : scan str (m, lastIdx [delim]) = .error (.outOfRange str.length (-1)) := by
  rw [scan, if_pos hm, loadAt_lastIdx hstr, ok_bind, if_pos rfl, advance_lastIdx hstr, if_pos rfl]
  rfl

theorem scan_cases {next : Int × Int ⊕ Int} (h : scan str (m, lastIdx w) = .ok next) (hm : 0 ≤ m)
    (hstr : str = w.reverse ++ post)
    : (∃ c w', w = c :: w' ∧ c ≠ delim ∧ w' ≠ [] ∧ next = .inl (m, lastIdx w'))
      ∨ ∃ x w', w = delim :: x :: w' ∧ w' ≠ [] ∧ next = .inl (m - 1, lastIdx w') := by
  cases w with
  | nil =>
    rw [scan_nil hm] at h
    contradiction
  | cons c w =>
    by_cases hc : c = delim
    . rw [hc] at h hstr ⊢
      cases w with
      | nil =>
        rw [scan_delim_singleton hstr hm] at h
        contradiction
      | cons x w =>
        rw [scan_delim hstr hm] at h
        split at h
        . contradiction
        . next hw => exact .inr ⟨x, w, rfl, hw, (Except.ok.inj h).symm⟩
    . rw [scan_other hstr hc hm] at h
      split at h
      . contradiction
      . next hw => exact .inl ⟨c, w, rfl, hc, hw, (Except.ok.inj h).symm⟩

theorem scan_done (hm : m < 0) : scan str (m, r) = .ok (.inr r) := by
  rw [scan, if_neg (not_le_of_gt hm)]
  rfl

end Scan

section Reach

/--
From the characters `w`, the last one first, the scan for `n` more newlines and one to stop at goes back to the
first of the characters `v`, that newline. Two characters have to come before it.
-/
inductive Reaches : Nat → Bytes → Bytes → Prop where
  | other {n : Nat} {c : UInt8} {w v : Bytes} (hc : c ≠ delim) (rest : Reaches n w v) : Reaches n (c :: w) v
  | stop {x : UInt8} {w : Bytes} (hw : w ≠ []) : Reaches 0 (delim :: x :: w) (delim :: x :: w)
  | skip {n : Nat} {x : UInt8} {w v : Bytes} (rest : Reaches n w v) : Reaches (n + 1) (delim :: x :: w) v

theorem Reaches.ne_nil (h : Reaches n w v) : w ≠ [] := by
  cases h
  all_goals simp

theorem Reaches.steps (h : Reaches n w v) (hstr : str = w.reverse ++ post)
    : ∃ k, Loop.Steps (scan str) k (n, lastIdx w) (-1, lastIdx v - 2) := by
  induction h generalizing post with
  | @other n c w v hc rest ih =>
    obtain ⟨k, hsteps⟩ := ih (eq_reverse_append_cons hstr)
    have hscan := scan_other hstr hc (Int.natCast_nonneg n)
    rw [if_neg rest.ne_nil] at hscan
    exact ⟨k + 1, .turn hscan hsteps⟩
  | @stop x w hw =>
    have hscan := scan_delim hstr (Int.le_refl 0)
    have hidx : lastIdx (delim :: x :: w) - 2 = lastIdx w := by
      rw [lastIdx_cons, lastIdx, List.length_cons]
      omega
    rw [if_neg hw] at hscan
    rw [hidx]
    exact ⟨1, .turn hscan (.refl _)⟩
  | @skip n x w v rest ih =>
    obtain ⟨k, hsteps⟩ := ih (eq_reverse_append_cons (eq_reverse_append_cons hstr))
    have hscan := scan_delim hstr (Int.natCast_nonneg (n + 1))
    have hn : ((n + 1 : Nat) : Int) - 1 = n := by
      omega
    rw [if_neg rest.ne_nil, hn] at hscan
    exact ⟨k + 1, .turn hscan hsteps⟩

theorem loop_neg (h : loop turns (scan str) (-1, m) = .ok r) : r = m := by
  cases turns with
  | zero => contradiction
  | succ turns =>
    rw [loop_done (scan_done (by decide)), Except.ok.injEq] at h
    exact h.symm

theorem exists_reaches (h : loop turns (scan str) (n, lastIdx w) = .ok r) (hstr : str = w.reverse ++ post)
    : ∃ v, Reaches n w v ∧ r = lastIdx v - 2 := by
  induction turns generalizing n w post with
  | zero => contradiction
  | succ turns ih =>
    have hn := Int.natCast_nonneg n
    rcases cases_of_loop_eq_ok h with hscan | ⟨next, hscan, hloop⟩
    . rcases scan_cases hscan hn hstr with ⟨_, _, _, _, _, heq⟩ | ⟨_, _, _, _, heq⟩
      . contradiction
      . contradiction
    . rcases scan_cases hscan hn hstr with ⟨c, w, rfl, hc, -, heq⟩ | ⟨x, w, rfl, hw, heq⟩
      . cases heq
        obtain ⟨v, hv, hr⟩ := ih hloop (eq_reverse_append_cons hstr)
        exact ⟨v, .other hc hv, hr⟩
      . cases heq
        cases n with
        | zero =>
          refine ⟨delim :: x :: w, .stop hw, ?_⟩
          rw [loop_neg hloop, lastIdx_cons, lastIdx, List.length_cons]
          omega
        | succ n =>
          have hpred : ((n + 1 : Nat) : Int) - 1 = n := by
            omega
          rw [hpred] at hloop
          obtain ⟨v, hv, hr⟩ := ih hloop (eq_reverse_append_cons (eq_reverse_append_cons hstr))
          exact ⟨v, .skip hv, hr⟩

end Reach

section Newlines

theorem Reaches.exists_append (h : Reaches n w v)
    : ∃ u x v', w = u ++ v ∧ v = delim :: x :: v' ∧ v' ≠ [] ∧ n ≤ u.count delim
      ∧ (u.count delim = n → ¬[delim, delim] <:+: u ++ [delim]) := by
  induction h with
  | @other n c w v hc rest ih =>
    obtain ⟨u, x, v', rfl, hv, hne, hle, hnot⟩ := ih
    have hcount : (c :: u).count delim = u.count delim := List.count_cons_of_ne hc
    refine ⟨c :: u, x, v', rfl, hv, hne, by rw [hcount]; exact hle, fun heq hinfix => ?_⟩
    rw [hcount] at heq
    rcases List.infix_cons_iff.mp hinfix with hprefix | hinfix
    . exact hc (List.cons_prefix_cons.mp hprefix).1.symm
    . exact hnot heq hinfix
  | @stop x w hw =>
    refine ⟨[], x, w, rfl, rfl, hw, Nat.le_refl 0, fun _ hinfix => ?_⟩
    have := hinfix.length_le
    contradiction
  | @skip n x w v rest ih =>
    -- If the character that is skipped were a newline, there would be more of them than were counted.
    obtain ⟨u, y, v', rfl, hv, hne, hle, hnot⟩ := ih
    refine ⟨delim :: x :: u, y, v', rfl, hv, hne, ?_, fun heq hinfix => ?_⟩
    . rw [List.count_cons_self]
      have := List.count_le_count_cons (a := delim) (b := x) (l := u)
      omega
    . rw [List.count_cons_self] at heq
      have hx : x ≠ delim := by
        rintro rfl
        rw [List.count_cons_self] at heq
        omega
      rw [List.count_cons_of_ne hx] at heq
      rcases List.infix_cons_iff.mp hinfix with hprefix | hinfix
      . exact hx (List.cons_prefix_cons.mp (List.cons_prefix_cons.mp hprefix).2).1.symm
      . rcases List.infix_cons_iff.mp hinfix with hprefix | hinfix
        . exact hx (List.cons_prefix_cons.mp hprefix).1.symm
        . exact hnot (Nat.succ.inj heq) hinfix

theorem Reaches.of_not_mem {b : Bytes} (hb : delim ∉ b) (h : Reaches n w v) : Reaches n (b ++ w) v := by
  induction b with
  | nil => exact h
  | cons c b ih =>
    rw [List.mem_cons, not_or] at hb
    exact .other (Ne.symm hb.1) (ih hb.2)

theorem reaches_lines {ls : List Bytes} (h : ∀ l ∈ ls, IsLine delim l) (hempty : [delim] ∉ ls) (hw : w ≠ [])
    : Reaches ls.length (ls.flatten.reverse ++ delim :: x :: w) (delim :: x :: w) := by
  induction ls using List.reverseRecOn with
  | nil => exact .stop hw
  | append_singleton ls l ih =>
    rw [List.mem_append, not_or] at hempty
    obtain ⟨hls, hl⟩ := List.forall_mem_append.mp h
    obtain ⟨b, rfl, hb⟩ := hl _ List.mem_cons_self
    rw [List.flatten_append, List.flatten_singleton, List.reverse_append, List.reverse_append,
      List.length_append]
    cases hreverse : b.reverse with
    | nil =>
      have hnil := List.reverse_eq_nil_iff.mp hreverse
      exact absurd (by simp [hnil]) hempty.2
    | cons y b' =>
      rw [← List.mem_reverse, hreverse, List.mem_cons, not_or] at hb
      have := (ih hls hempty.1).of_not_mem hb.2
      rw [← List.append_assoc] at this
      exact .skip this

end Newlines

section Main

structure Text where
  chars : Bytes
  newline : chars.getLast? = some delim

theorem strrchr_of_getLast? (h : str.getLast? = some c) : strrchr str c = some (str.length - 1) := by
  obtain ⟨s, rfl⟩ := List.getLast?_eq_some_iff.mp h
  simp [strrchr, List.idxOf?_cons]

theorem main_eq (t : Text) (n : Int)
    : main turns t.chars n = (do
      let lastPtr ← loop turns (scan t.chars) (n, lastIdx t.chars.reverse)
      let lastPtr ← advance t.chars lastPtr 2
      return t.chars.drop lastPtr.toNat) := by
  obtain ⟨s, hs⟩ := List.getLast?_eq_some_iff.mp t.newline
  have hidx : ((t.chars.length - 1 : Nat) : Int) = lastIdx t.chars.reverse := by
    rw [lastIdx, List.length_reverse, hs, List.length_append, List.length_singleton]
    omega
  rw [main, strrchr_of_getLast? t.newline]
  dsimp only
  rw [hidx]

theorem print_eq {v' : Bytes} (hstr : str.reverse = u ++ delim :: x :: v')
    : (do
      let lastPtr ← advance str (lastIdx (delim :: x :: v') - 2) 2
      return str.drop lastPtr.toNat) = .ok (delim :: u.reverse) := by
  have happend : str = (x :: v').reverse ++ (delim :: u.reverse) := by
    rw [← List.reverse_reverse str, hstr]
    simp
  have hlength := congrArg List.length happend
  rw [List.length_append, List.length_reverse] at hlength
  rw [lastIdx_cons, advance_of_le (by omega) (by omega), ok_bind, Int.sub_add_cancel, Int.toNat_natCast, happend]
  have : (x :: v').length = (x :: v').reverse.length := List.length_reverse.symm
  rw [this, List.drop_left, pure_eq_ok]

theorem exists_main_of_reaches {v' : Bytes} (t : Text) (h : Reaches n t.chars.reverse (delim :: x :: v'))
    (hchars : t.chars.reverse = u ++ delim :: x :: v')
    : ∃ turns, main turns t.chars n = .ok (delim :: u.reverse) := by
  have hstr : t.chars = t.chars.reverse.reverse ++ [] := by
    simp
  obtain ⟨k, hsteps⟩ := h.steps hstr
  refine ⟨k + 1, ?_⟩
  rw [main_eq, loop_of_steps hsteps, loop_done (scan_done (by decide)), ok_bind]
  exact print_eq hchars

theorem exists_reaches_of_main {printed : Bytes} (t : Text) (h : main turns t.chars n = .ok printed)
    : ∃ u x v', Reaches n t.chars.reverse (delim :: x :: v') ∧ t.chars.reverse = u ++ delim :: x :: v'
      ∧ printed = delim :: u.reverse ∧ v' ≠ [] ∧ n ≤ u.count delim
      ∧ (u.count delim = n → ¬[delim, delim] <:+: u ++ [delim]) := by
  rw [main_eq, bind_eq_ok_iff] at h
  obtain ⟨lastPtr, hloop, hprint⟩ := h
  have hstr : t.chars = t.chars.reverse.reverse ++ [] := by
    simp
  obtain ⟨v, hreaches, rfl⟩ := exists_reaches hloop hstr
  obtain ⟨u, x, v', hchars, rfl, hne, hcount⟩ := hreaches.exists_append
  rw [print_eq hchars, Except.ok.injEq] at hprint
  exact ⟨u, x, v', hreaches, hchars, hprint.symm, hne, hcount⟩

end Main

section LastLines

/--
The scan ends inside the text, and what is printed are the last `n` lines or all lines if there are fewer, maybe
after the newline before them.
-/
def PrintsLastLines (t : Text) (n : Nat) : Prop :=
  ∃ turns printed, main turns t.chars n = .ok printed
    ∧ (printed = (lastLines delim n t.chars).flatten ∨ printed = delim :: (lastLines delim n t.chars).flatten)

theorem Text.isLine_lastLines (t : Text) (n : Nat) : ∀ l ∈ lastLines delim n t.chars, IsLine delim l :=
  fun _ hl => isLine_of_mem_lines t.newline _ (List.mem_of_mem_drop hl)

theorem Text.isLine_linesBefore (t : Text) (n : Nat) : ∀ l ∈ linesBefore delim n t.chars, IsLine delim l :=
  fun _ hl => isLine_of_mem_lines t.newline _ (List.mem_of_mem_take hl)

theorem Text.count_lastLines_le (t : Text) (n : Nat) : (lastLines delim n t.chars).flatten.count delim ≤ n := by
  rw [count_flatten (t.isLine_lastLines n), length_lastLines]
  exact Nat.min_le_left _ _

theorem notMem_lastLines_of_prints {t : Text} (h : PrintsLastLines t n)
    : [delim] ∉ lastLines delim n t.chars ∧ 3 ≤ (linesBefore delim n t.chars).flatten.length := by
  obtain ⟨turns, printed, hmain, hprinted⟩ := h
  obtain ⟨u, x, v', -, hchars, rfl, hne, hle, hnot⟩ := exists_reaches_of_main t hmain
  have hcount := t.count_lastLines_le n
  rcases hprinted with hprinted | hprinted
  . rw [← hprinted, List.count_cons_self, List.count_reverse] at hcount
    omega
  . have hu : u.reverse = (lastLines delim n t.chars).flatten := (List.cons.inj hprinted).2
    constructor
    . intro hmem
      have hinfix := infix_of_singleton_mem (t.isLine_lastLines n) hmem
      rw [← hu, List.count_reverse] at hcount
      rw [← hu, ← List.reverse_concat] at hinfix
      apply hnot (Nat.le_antisymm hcount hle)
      exact List.reverse_infix.mp hinfix
    . have hsplit := congrArg List.length (flatten_linesBefore_append delim n t.chars)
      have hlength := congrArg List.length hchars
      have := List.length_pos_iff.mpr hne
      rw [← hu] at hsplit
      simp only [List.length_append, List.length_cons, List.length_reverse] at hsplit hlength
      omega

theorem Text.length_lastLines (t : Text) (hbefore : 3 ≤ (linesBefore delim n t.chars).flatten.length)
    : (lastLines delim n t.chars).length = n := by
  rw [Lines.length_lastLines, Nat.min_eq_left]
  by_contra hlt
  rw [linesBefore, Nat.sub_eq_zero_of_le (Nat.le_of_not_le hlt)] at hbefore
  contradiction

theorem Text.exists_linesBefore_eq (t : Text) (hbefore : 3 ≤ (linesBefore delim n t.chars).flatten.length)
    : ∃ x w, (linesBefore delim n t.chars).flatten.reverse = delim :: x :: w ∧ w ≠ [] := by
  obtain ⟨b, hb⟩ := exists_concat_of_isLine (t.isLine_linesBefore n)
  cases b with
  | nil =>
    rw [(List.cons.inj hb).2] at hbefore
    contradiction
  | cons c b =>
    have hflatten : (linesBefore delim n t.chars).flatten = b ++ [delim] := (List.cons.inj hb).2
    rw [hflatten, List.length_append, List.length_singleton, ← List.length_reverse] at hbefore
    rw [hflatten, List.reverse_concat]
    cases hreverse : b.reverse with
    | nil =>
      rw [hreverse] at hbefore
      contradiction
    | cons x w =>
      refine ⟨x, w, rfl, ?_⟩
      rintro rfl
      rw [hreverse] at hbefore
      contradiction

theorem prints_of_notMem_lastLines {t : Text} (hempty : [delim] ∉ lastLines delim n t.chars)
    (hbefore : 3 ≤ (linesBefore delim n t.chars).flatten.length) : PrintsLastLines t n := by
  obtain ⟨x, w, hreverse, hw⟩ := t.exists_linesBefore_eq hbefore
  have hchars : t.chars.reverse = (lastLines delim n t.chars).flatten.reverse ++ delim :: x :: w := by
    rw [← hreverse, ← List.reverse_append, flatten_linesBefore_append]
  have hreaches := reaches_lines (x := x) (t.isLine_lastLines n) hempty hw
  rw [t.length_lastLines hbefore, ← hchars] at hreaches
  obtain ⟨turns, hmain⟩ := exists_main_of_reaches t hreaches hchars
  rw [List.reverse_reverse] at hmain
  exact ⟨turns, _, hmain, .inr rfl⟩

theorem printsLastLines_iff (t : Text) (n : Nat)
    : PrintsLastLines t n
      ↔ [delim] ∉ lastLines delim n t.chars ∧ 3 ≤ (linesBefore delim n t.chars).flatten.length := by
  constructor
  . exact notMem_lastLines_of_prints
  . rintro ⟨hempty, hbefore⟩
    exact prints_of_notMem_lastLines hempty hbefore

theorem not_printsLastLines_empty
    : let t : Text := ⟨[120, 121, 122, 10, 97, 98, 10, 10, 99, 10], rfl⟩
      main 20 t.chars 2 = .ok [10, 97, 98, 10, 10, 99, 10] ∧ ¬PrintsLastLines t 2
        ∧ main 20 t.chars 4 = .error (.outOfRange 10 (-1)) ∧ ¬PrintsLastLines t 4 := by
  refine ⟨by decide, fun h => ?_, by decide, fun h => ?_⟩
  . exact (notMem_lastLines_of_prints h).1 (by decide)
  . exact absurd (notMem_lastLines_of_prints h).2 (by decide)

end LastLines

end LastTenLines
