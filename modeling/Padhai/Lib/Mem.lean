import Mathlib.Data.List.Basic
import Mathlib.Data.List.TakeWhile
import Mathlib.Tactic.Common
import Padhai.Lib.Loop

/-!
This module contains arrays of bytes with checked accesses, where an access at an index outside the
array ends the run with the size and the index, and the functions of the C string library on them.
Where the index is computed it is an integer, in all other places a natural number.
-/

namespace Mem

abbrev Bytes := List UInt8

inductive Fault where
  | outOfRange (size : Nat) (idx : Int)
  | running
  deriving DecidableEq, Repr

abbrev Checked := Except Fault

section Bind

variable {ε α β : Type}

@[simp]
theorem pure_eq_ok (x : α) : (pure x : Except ε α) = .ok x := rfl

@[simp]
theorem throw_eq_error (e : ε) : (throw e : Except ε α) = .error e := rfl

@[simp]
theorem ok_bind (x : α) (f : α → Except ε β) : (Except.ok x >>= f) = f x := rfl

@[simp]
theorem error_bind (e : ε) (f : α → Except ε β) : (Except.error e >>= f) = .error e := rfl

theorem bind_eq_ok_iff {x : Except ε α} {f : α → Except ε β} {y : β}
    : x >>= f = .ok y ↔ ∃ z, x = .ok z ∧ f z = .ok y := by
  cases x <;> simp

end Bind

section Loop

variable {σ α : Type}

def loop (fuel : Nat) (body : σ → Checked (σ ⊕ α)) (s : σ) : Checked α :=
  (Loop.run body fuel s).getD (.error .running)

variable {body : σ → Checked (σ ⊕ α)} {s t : σ} {n fuel : Nat}

theorem loop_next (h : body s = .ok (.inl t)) : loop (fuel + 1) body s = loop fuel body t := by
  rw [loop, Loop.run_next h, loop]

theorem loop_done {a : α} (h : body s = .ok (.inr a)) (fuel : Nat)
    : loop (fuel + 1) body s = .ok a := by
  rw [loop, Loop.run_done h, Option.getD_some]

theorem loop_error {e : Fault} (h : body s = .error e) : loop (fuel + 1) body s = .error e := by
  rw [loop, Loop.run_error h, Option.getD_some]

theorem cases_of_loop_eq_ok {a : α} (h : loop (fuel + 1) body s = .ok a)
    : body s = .ok (.inr a) ∨ ∃ t, body s = .ok (.inl t) ∧ loop fuel body t = .ok a := by
  cases hbody : body s with
  | error e =>
    rw [loop_error hbody] at h
    contradiction
  | ok next =>
    cases next with
    | inl t =>
      rw [loop_next hbody] at h
      exact .inr ⟨t, rfl, h⟩
    | inr b =>
      rw [loop_done hbody, Except.ok.injEq] at h
      rw [h]
      exact .inl rfl

theorem loop_of_steps (h : Loop.Steps body n s t) (fuel : Nat)
    : loop (n + fuel) body s = loop fuel body t := by
  rw [loop, Loop.run_of_steps h, loop]

theorem loop_running_of_steps (h : Loop.Steps body n s t) (hfuel : fuel ≤ n)
    : loop fuel body s = .error .running := by
  rw [loop, Loop.run_eq_none_of_steps h hfuel, Option.getD_none]

end Loop

section UpTo

variable {α : Type} [BEq α] [LawfulBEq α] {s : List α} {c : α}

theorem takeWhile_bne_of_notMem (h : c ∉ s) : s.takeWhile (· != c) = s := by
  rw [List.takeWhile_eq_self_iff]
  intro x hx
  have hne : x ≠ c := fun heq => h (heq ▸ hx)
  simpa using hne

theorem takeWhile_bne_append (s t : List α) (c : α)
    : (s ++ c :: t).takeWhile (· != c) = s.takeWhile (· != c) := by
  rw [List.takeWhile_append, List.takeWhile_cons_of_neg (by simp), List.append_nil]
  split
  . next h => exact ((List.takeWhile_prefix _).eq_of_length h).symm
  . rfl

theorem append_cons_inj {s' t t' : List α} (h : c ∉ s) (h' : c ∉ s')
    (heq : s ++ c :: t = s' ++ c :: t') : s = s' ∧ t = t' := by
  have hs := congrArg (List.takeWhile (· != c)) heq
  rw [takeWhile_bne_append, takeWhile_bne_append, takeWhile_bne_of_notMem h,
    takeWhile_bne_of_notMem h'] at hs
  subst hs
  exact ⟨rfl, (List.cons.inj (List.append_cancel_left heq)).2⟩

end UpTo

variable {a b s t : Bytes} {i n : Nat} {c v : UInt8}

def load (a : Bytes) (i : Nat) : Checked UInt8 :=
  match a[i]? with
  | some c => .ok c
  | none => .error (.outOfRange a.length i)

def store (a : Bytes) (i : Nat) (v : UInt8) : Checked Bytes :=
  if i < a.length then
    .ok (a.set i v)
  else
    .error (.outOfRange a.length i)

def loadAt (a : Bytes) (i : Int) : Checked UInt8 :=
  if 0 ≤ i then
    load a i.toNat
  else
    .error (.outOfRange a.length i)

def storeAt (a : Bytes) (i : Int) (v : UInt8) : Checked Bytes :=
  if 0 ≤ i then
    store a i.toNat v
  else
    .error (.outOfRange a.length i)

def loadRange (a : Bytes) (n : Nat) : Checked Bytes :=
  if n ≤ a.length then
    .ok (a.take n)
  else
    .error (.outOfRange a.length (n - 1 : Nat))

theorem load_of_getElem? (h : a[i]? = some c) : load a i = .ok c := by
  simp [load, h]

theorem load_eq_ok_iff : load a i = .ok c ↔ a[i]? = some c := by
  unfold load
  split
  . next h => simp [h]
  . next h => simp [h]

theorem load_of_le (h : a.length ≤ i) : load a i = .error (.outOfRange a.length i) := by
  simp [load, List.getElem?_eq_none h]

theorem load_of_prefix (h : a <+: b) (hc : load a i = .ok c) : load b i = .ok c := by
  obtain ⟨u, rfl⟩ := h
  rw [load_eq_ok_iff] at hc ⊢
  rwa [List.getElem?_append_left (List.getElem?_eq_some_iff.mp hc).1]

@[simp]
theorem load_append_length : load (a ++ c :: b) a.length = .ok c := by
  simp [load]

theorem load_append_length_add (h : b[i]? = some c) : load (a ++ b) (a.length + i) = .ok c := by
  simp [load, List.getElem?_append_right, h]

theorem store_of_lt (h : i < a.length) : store a i v = .ok (a.set i v) := by
  simp [store, h]

theorem store_of_le (h : a.length ≤ i) : store a i v = .error (.outOfRange a.length i) := by
  simp [store, Nat.not_lt.mpr h]

@[simp]
theorem store_append_length : store (a ++ c :: b) a.length v = .ok (a ++ v :: b) := by
  simp [store]

theorem store_eq_ok_iff : store a i v = .ok b ↔ i < a.length ∧ b = a.set i v := by
  unfold store
  split
  . next h => simp [h, eq_comm]
  . next h => simp [h]

@[simp]
theorem loadAt_natCast : loadAt a (i : Int) = load a i := by
  simp [loadAt]

@[simp]
theorem storeAt_natCast : storeAt a (i : Int) v = store a i v := by
  simp [storeAt]

theorem storeAt_neg {k : Int} (h : k < 0) : storeAt a k v = .error (.outOfRange a.length k) := by
  simp [storeAt, Int.not_le.mpr h]

theorem loadRange_of_le (h : n ≤ a.length) : loadRange a n = .ok (a.take n) := by
  simp [loadRange, h]

def cstr (a : Bytes) : Bytes :=
  a.takeWhile (· != 0)

def strlen (a : Bytes) : Checked Nat :=
  if (cstr a).length < a.length then
    .ok (cstr a).length
  else
    .error (.outOfRange a.length a.length)

def memcpy (a : Bytes) (i : Nat) : Bytes → Checked Bytes
  | [] => .ok a
  | c :: s => do
    let a ← store a i c
    memcpy a (i + 1) s

def zeros (n : Nat) : Bytes :=
  List.replicate n 0

def memset (a : Bytes) (v : UInt8) (n : Nat) : Checked Bytes :=
  memcpy a 0 (List.replicate n v)

def strcat (a s : Bytes) : Checked Bytes := do
  let n ← strlen a
  memcpy a n (s ++ [0])

def strncpy (a : Bytes) (i : Nat) (b : Bytes) (n : Nat) : Checked Bytes :=
  memcpy a i ((cstr b ++ List.replicate n 0).take n)

theorem cstr_of_not_mem (h : 0 ∉ s) : cstr s = s :=
  takeWhile_bne_of_notMem h

theorem cstr_append : cstr (s ++ 0 :: t) = cstr s := by
  apply takeWhile_bne_append

theorem cstr_append_zero (h : 0 ∉ s) : cstr (s ++ 0 :: t) = s := by
  rw [cstr_append, cstr_of_not_mem h]

theorem zero_notMem_cstr (a : Bytes) : 0 ∉ cstr a := by
  intro h
  simpa using List.mem_takeWhile_imp h

theorem cstr_length_le (a : Bytes) : (cstr a).length ≤ a.length :=
  (List.takeWhile_prefix _).length_le

theorem eq_take_append (h : n < a.length) : ∃ c b, a = a.take n ++ c :: b := by
  refine ⟨a[n], a.drop (n + 1), ?_⟩
  rw [← List.drop_eq_getElem_cons h, List.take_append_drop]

theorem eq_cstr_append (h : (cstr a).length < a.length) : ∃ t, a = cstr a ++ 0 :: t := by
  have happend : cstr a ++ a.dropWhile (· != 0) = a := List.takeWhile_append_dropWhile
  cases hdrop : a.dropWhile (· != 0) with
  | nil =>
    rw [hdrop, List.append_nil] at happend
    rw [happend] at h
    omega
  | cons c t =>
    have hc : c = 0 := by
      have hhead := List.head_dropWhile_not (· != 0) (l := a) (by simp [hdrop])
      simpa [hdrop] using hhead
    exact ⟨t, by rw [← hc, ← hdrop, happend]⟩

theorem cstr_eq_self (h : a.length ≤ (cstr a).length) : cstr a = a := by
  unfold cstr at *
  exact (List.takeWhile_prefix _).eq_of_length_le h

theorem cstr_length_lt (h : 0 ∈ a) : (cstr a).length < a.length := by
  by_contra hle
  rw [← cstr_eq_self (Nat.not_lt.mp hle)] at h
  exact zero_notMem_cstr _ h

theorem strlen_of_mem (h : 0 ∈ a) : strlen a = .ok (cstr a).length := by
  rw [strlen, if_pos (cstr_length_lt h)]

theorem strlen_eq_ok_iff : strlen a = .ok n ↔ 0 ∈ a ∧ n = (cstr a).length := by
  by_cases h : 0 ∈ a
  . simp [strlen_of_mem h, h, eq_comm]
  . simp [strlen, cstr_of_not_mem h, h]

theorem strlen_append_zero (h : 0 ∉ s) : strlen (s ++ 0 :: t) = .ok s.length := by
  simp [strlen, cstr_append_zero h]

theorem memcpy_append (h : a.length = s.length)
    : memcpy (b ++ a ++ t) b.length s = .ok (b ++ s ++ t) := by
  induction s generalizing a b with
  | nil =>
    have : a = [] := by simpa using h
    simp [memcpy, this]
  | cons c s ih =>
    match a with
    | [] => simp at h
    | d :: a =>
      have ha : a.length = s.length := by simpa using h
      simp only [memcpy, List.append_assoc, List.cons_append, store_append_length, ok_bind]
      have := ih (b := b ++ [c]) ha
      simpa using this

theorem memset_of_le (h : n ≤ a.length)
    : memset a v n = .ok (List.replicate n v ++ a.drop n) := by
  have := memcpy_append (b := []) (a := a.take n) (t := a.drop n) (s := List.replicate n v)
    (by simpa using h)
  simpa [memset] using this

@[simp]
theorem zeros_length : (zeros n).length = n := by
  simp [zeros]

theorem le_zeros_length (n : Nat) : n ≤ (zeros n).length := by
  rw [zeros_length]

theorem zeros_getElem? (h : i < n) : (zeros n)[i]? = some 0 := by
  rw [zeros, List.getElem?_replicate, if_pos h]

theorem zeros_succ : zeros (n + 1) = 0 :: zeros n := by
  simp [zeros, List.replicate_succ]

theorem zeros_add {m : Nat} : zeros (m + n) = zeros m ++ zeros n := by
  simp [zeros]

theorem memset_zero_of_le (h : n ≤ a.length) : memset a 0 n = .ok (zeros n ++ a.drop n) := by
  rw [memset_of_le h, zeros]

theorem memset_zeros : memset (zeros n) 0 n = .ok (zeros n) := by
  rw [memset_zero_of_le (by simp)]
  simp [zeros]

theorem memcpy_eq_error (hs : s ≠ []) (hi : i ≤ a.length) (h : a.length < i + s.length)
    : memcpy a i s = .error (.outOfRange a.length a.length) := by
  induction s generalizing a i with
  | nil => contradiction
  | cons c s ih =>
    simp only [memcpy]
    by_cases hlt : i < a.length
    . have hs' : s ≠ [] := by
        rintro rfl
        simp at h
        omega
      rw [store_of_lt hlt, ok_bind]
      have := ih (a := a.set i c) (i := i + 1) hs' (by simp; omega) (by simp at h ⊢; omega)
      simpa using this
    . have : i = a.length := by omega
      rw [this, store_of_le (Nat.le_refl _), error_bind]

theorem strcat_append_zero (h : 0 ∉ s) (hb : b.length = a.length)
    : strcat (s ++ 0 :: b ++ t) a = .ok (s ++ a ++ 0 :: t) := by
  unfold strcat
  have hlen : strlen (s ++ 0 :: b ++ t) = .ok s.length := by
    simpa using strlen_append_zero (t := b ++ t) h
  rw [hlen, ok_bind]
  have := memcpy_append (a := 0 :: b) (b := s) (s := a ++ [0]) (t := t) (by simp [hb])
  simpa using this

theorem strncpy_append_zero {r : Bytes} (h : a.length = s.length) (hs : 0 ∉ s)
    : strncpy (b ++ a ++ t) b.length (s ++ 0 :: r) s.length = .ok (b ++ s ++ t) := by
  unfold strncpy
  rw [cstr_append_zero hs, List.take_left]
  apply memcpy_append h

def padTo (n : Nat) (s : Bytes) : Bytes :=
  s ++ zeros (n - s.length)

theorem padTo_nil : padTo n [] = zeros n := by
  simp [padTo, zeros]

@[simp]
theorem padTo_length (h : s.length ≤ n) : (padTo n s).length = n := by
  simp [padTo]
  omega

theorem padTo_eq_append (h : s.length < n)
    : padTo n s = s ++ 0 :: zeros (n - s.length - 1) := by
  rw [padTo, ← zeros_succ]
  congr 2
  omega

theorem store_padTo (h : s.length < n) : store (padTo n s) s.length c = .ok (padTo n (s ++ [c])) := by
  rw [padTo_eq_append h, store_append_length, padTo]
  simp [Nat.sub_sub]

theorem store_zero_padTo (h : s.length < n) : store (padTo n s) s.length 0 = .ok (padTo n s) := by
  rw [padTo_eq_append h, store_append_length]

theorem memcpy_padTo (h : s.length + t.length ≤ n)
    : memcpy (padTo n s) s.length t = .ok (padTo n (s ++ t)) := by
  have hsplit : zeros (n - s.length) = zeros t.length ++ zeros (n - (s.length + t.length)) := by
    rw [← zeros_add]
    congr 1
    omega
  have hcopy := memcpy_append (b := s) (a := zeros t.length) (t := zeros (n - (s.length + t.length))) (s := t)
    zeros_length
  rw [padTo, padTo, hsplit, ← List.append_assoc, hcopy, List.length_append]

theorem strlen_padTo (h : s.length < n) (hs : 0 ∉ s) : strlen (padTo n s) = .ok s.length := by
  rw [padTo_eq_append h, strlen_append_zero hs]

theorem padTo_getElem? (hi : i < n) : (padTo n s)[i]? = some (s[i]?.getD 0) := by
  by_cases h : i < s.length
  . simp [padTo, List.getElem?_append_left h, h]
  . have hs : s.length ≤ i := Nat.not_lt.mp h
    rw [padTo, List.getElem?_append_right hs, zeros_getElem? (by omega), List.getElem?_eq_none hs, Option.getD_none]

theorem take_padTo : (padTo n s).take s.length = s := by
  simp [padTo]

end Mem
