import Padhai.Dns.Impl.Qname

/-!
This module contains what the loop that turns a wire name into dotted text does to every
zero-terminated array: the text it leaves and exactly when it stays inside the array.
-/

namespace Dns

open Mem Label

variable {x y z s t name : Bytes} {c v : UInt8} {p i fuel cap : Nat} {val : UInt8 → Int}

theorem shiftLabel_append
    : ∃ d, shiftLabel y.length x.length (x ++ c :: (y ++ z))
        = .ok (x.length + y.length, x ++ y ++ d :: z) := by
  induction y generalizing x c with
  | nil => exact ⟨c, by simp [shiftLabel]⟩
  | cons d y ih =>
    obtain ⟨e, he⟩ := ih (x := x ++ [d]) (c := d)
    refine ⟨e, ?_⟩
    have hload : load (x ++ c :: (d :: y ++ z)) (x.length + 1) = .ok d := by
      apply load_append_length_add
      simp
    simp only [List.length_cons, shiftLabel, hload, ok_bind, store_append_length]
    simp only [List.length_append, List.length_singleton, List.append_assoc, List.cons_append,
      List.nil_append] at he ⊢
    rw [he]
    congr 2
    omega

theorem shiftLabel_eq_error (hi : i < name.length) (h : name.length ≤ i + p)
    : shiftLabel p i name = .error (.outOfRange name.length name.length) := by
  induction p generalizing i name with
  | zero => omega
  | succ p ih =>
    by_cases hlt : i + 1 < name.length
    . have hrest : i + 1 < (name.set i name[i + 1]).length := by simpa using hlt
      have := ih hrest (by simp; omega)
      simpa [shiftLabel, load_of_getElem? (List.getElem?_eq_getElem hlt), store_of_lt hi] using this
    . have hlen : i + 1 = name.length := by omega
      simp [shiftLabel, hlen, load_of_le (Nat.le_refl _)]

namespace labelToDot

theorem body_done (h : 0 ∉ s) (hi : s.length ≤ i)
    : body val (i, s ++ 0 :: t) = .ok (.inr (i, s ++ 0 :: t)) := by
  simp [body, strlen_append_zero h, Nat.not_lt.mpr hi]

theorem body_next (h : 0 ∉ x ++ c :: s) (hy : y.length = (val c).toNat)
    (hyz : s ++ 0 :: t = y ++ z)
    : body val (x.length, x ++ c :: s ++ 0 :: t)
        = .ok (.inl (x.length + y.length + 1, x ++ y ++ dot :: z)) := by
  obtain ⟨d, hd⟩ := shiftLabel_append (x := x) (y := y) (z := z) (c := c)
  have hlen := strlen_append_zero (t := t) h
  have hname : x ++ c :: s ++ 0 :: t = x ++ c :: (y ++ z) := by simp [hyz]
  have hstore : store (x ++ y ++ d :: z) (x.length + y.length) dot = .ok (x ++ y ++ dot :: z) := by
    rw [← List.length_append, store_append_length]
  unfold body
  dsimp only
  rw [hlen, hname, ok_bind, if_pos (by simp)]
  simp only [load_append_length, ok_bind, ← hy, hd, hstore, pure_eq_ok]

theorem body_eq_error (h : 0 ∉ x ++ c :: s)
    (hcap : (x ++ c :: s ++ 0 :: t).length ≤ x.length + (val c).toNat)
    : body val (x.length, x ++ c :: s ++ 0 :: t)
        = .error (.outOfRange (x ++ c :: s ++ 0 :: t).length (x ++ c :: s ++ 0 :: t).length) := by
  have hload : load (x ++ c :: s ++ 0 :: t) x.length = .ok c := by simp
  unfold body
  dsimp only
  rw [strlen_append_zero h, ok_bind, if_pos (by simp), hload, ok_bind,
    shiftLabel_eq_error (by simp) hcap, error_bind]

theorem zero_notMem_label (h : 0 ∉ x ++ c :: s) (k : Nat)
    : 0 ∉ x ++ s.take k ++ [dot] ++ s.drop k := by
  simp only [List.mem_append, List.mem_cons, not_or] at h ⊢
  refine ⟨⟨⟨h.1, fun hm => h.2.2 (List.mem_of_mem_take hm)⟩, by decide, by simp⟩, ?_⟩
  exact fun hm => h.2.2 (List.mem_of_mem_drop hm)

theorem length_label (hlen : (val c).toNat ≤ s.length)
    : (x ++ s.take (val c).toNat ++ [dot]).length = x.length + (val c).toNat + 1 := by
  rw [List.length_append, List.length_append, List.length_take, Nat.min_eq_left hlen, List.length_singleton]

theorem length_append_label (hlen : (val c).toNat ≤ s.length)
    : (x ++ c :: s ++ 0 :: t).length
        = (x ++ s.take (val c).toNat ++ [dot] ++ s.drop (val c).toNat ++ 0 :: t).length := by
  rw [List.length_append, List.length_append, List.length_append, List.length_append, length_label hlen,
    List.length_drop, List.length_cons]
  omega

theorem fits_label (hlen : (val c).toNat ≤ s.length)
    : Fits (fun c => (val c).toNat) cap x.length (c :: s)
        ↔ Fits (fun c => (val c).toNat) cap (x ++ s.take (val c).toNat ++ [dot]).length
            (s.drop (val c).toNat) := by
  rw [length_label hlen, Fits, if_pos hlen]

theorem loop_label (h : 0 ∉ x ++ c :: s) (hlen : (val c).toNat ≤ s.length)
    : loop (fuel + 1) (body val) (x.length, x ++ c :: s ++ 0 :: t)
        =
      loop fuel (body val)
        ((x ++ s.take (val c).toNat ++ [dot]).length,
          x ++ s.take (val c).toNat ++ [dot] ++ s.drop (val c).toNat ++ 0 :: t) := by
  have hy : (s.take (val c).toNat).length = (val c).toNat := by simpa using hlen
  have hsplit : s ++ 0 :: t = s.take (val c).toNat ++ (s.drop (val c).toNat ++ 0 :: t) := by
    rw [← List.append_assoc, List.take_append_drop]
  rw [loop_next (body_next h hy hsplit)]
  simp [Nat.add_assoc]

theorem loop_overlong (h : 0 ∉ x ++ c :: s) (hlen : s.length < (val c).toNat)
    (hcap : x.length + (val c).toNat < (x ++ c :: s ++ 0 :: t).length)
    : ∃ u, (∀ fuel, loop (fuel + 2) (body val) (x.length, x ++ c :: s ++ 0 :: t)
            = .ok (x.length + (val c).toNat + 1, x ++ s ++ 0 :: u))
        ∧ (x ++ s ++ 0 :: u).length = (x ++ c :: s ++ 0 :: t).length := by
  simp only [List.length_append, List.length_cons] at hcap
  obtain ⟨w, z, rfl, hw⟩ : ∃ w z, t = w ++ z ∧ w.length = (val c).toNat - s.length - 1 := by
    refine ⟨t.take ((val c).toNat - s.length - 1), t.drop ((val c).toNat - s.length - 1), ?_, ?_⟩
    . simp
    . simp
      omega
  have hy : (s ++ 0 :: w).length = (val c).toNat := by
    simp
    omega
  have hnext := body_next (t := w ++ z) (z := z) h hy (by simp)
  have h0 : 0 ∉ x ++ s := by
    simp only [List.mem_append, List.mem_cons, not_or] at h ⊢
    exact ⟨h.1, h.2.2⟩
  have hdone : body val (x.length + (val c).toNat + 1, x ++ s ++ 0 :: (w ++ dot :: z)) = _ :=
    body_done h0 (by simp; omega)
  refine ⟨w ++ dot :: z, fun fuel => ?_, ?_⟩
  . rw [loop_next hnext, hy, ← loop_done hdone fuel]
    simp
  . simp
    omega

-- The loop ends behind the last dot, or beyond the zero that an announced label has moved down.
def Ended (cap i : Nat) (s d : Bytes) (len : Nat) : Prop :=
  (d.length = s.length ∧ i = len + d.length)
    ∨ (d.length + 1 = s.length ∧ len + d.length + 1 < i ∧ i ≤ cap)

theorem loop_of_fits (h : 0 ∉ x ++ s) (hcap : (x ++ s ++ 0 :: t).length = cap)
    (hfits : Fits (fun c => (val c).toNat) cap x.length s) (hfuel : s.length < fuel)
    : ∃ i u, loop fuel (body val) (x.length, x ++ s ++ 0 :: t)
          = .ok (i, x ++ dotted (fun c => (val c).toNat) s ++ 0 :: u)
        ∧ (x ++ dotted (fun c => (val c).toNat) s ++ 0 :: u).length = cap
        ∧ Ended cap i s (dotted (fun c => (val c).toNat) s) x.length := by
  obtain ⟨fuel, rfl⟩ : ∃ k, fuel = k + 1 := ⟨fuel - 1, by omega⟩
  fun_induction dotted (fun c => (val c).toNat) s generalizing x t fuel with
  | case1 =>
    refine ⟨x.length, t, ?_, hcap, by simp [Ended]⟩
    exact loop_done (body_done h (by simp)) fuel
  | case2 c s hlen ih =>
    rw [fits_label hlen] at hfits
    rw [length_append_label hlen] at hcap
    obtain ⟨fuel, rfl⟩ : ∃ k, fuel = k + 1 := ⟨fuel - 1, by simp at hfuel; omega⟩
    have hrest := (length_drop_lt c s (val c).toNat).trans_le (Nat.le_of_lt_succ hfuel)
    obtain ⟨i, u, hloop, hu, hend⟩ := ih (zero_notMem_label h _) hcap hfits fuel hrest
    refine ⟨i, u, ?_, by simpa using hu, ?_⟩
    . rw [loop_label h hlen, hloop]
      simp
    . simp only [Ended, length_label hlen, List.length_drop, List.length_append, List.length_cons,
        List.length_take, Nat.min_eq_left hlen] at hend ⊢
      omega
  | case3 c s hlen =>
    -- The label is announced longer than what is left: the zero moves down with the rest.
    subst hcap
    rw [Fits, if_neg hlen] at hfits
    obtain ⟨fuel, rfl⟩ : ∃ k, fuel = k + 1 := ⟨fuel - 1, by simp at hfuel; omega⟩
    obtain ⟨u, hloop, hu⟩ := loop_overlong h (Nat.not_le.mp hlen) hfits
    refine ⟨x.length + (val c).toNat + 1, u, hloop fuel, hu, .inr ⟨rfl, ?_, hfits⟩⟩
    omega

theorem loop_of_not_fits (h : 0 ∉ x ++ s) (hcap : (x ++ s ++ 0 :: t).length = cap)
    (hfits : ¬Fits (fun c => (val c).toNat) cap x.length s) (hfuel : s.length < fuel)
    : loop fuel (body val) (x.length, x ++ s ++ 0 :: t) = .error (.outOfRange cap cap) := by
  obtain ⟨fuel, rfl⟩ : ∃ k, fuel = k + 1 := ⟨fuel - 1, by omega⟩
  fun_induction dotted (fun c => (val c).toNat) s generalizing x t fuel with
  | case1 => simp [Fits] at hfits
  | case2 c s hlen ih =>
    rw [fits_label hlen] at hfits
    rw [length_append_label hlen] at hcap
    obtain ⟨fuel, rfl⟩ : ∃ k, fuel = k + 1 := ⟨fuel - 1, by simp at hfuel; omega⟩
    have hrest := (length_drop_lt c s (val c).toNat).trans_le (Nat.le_of_lt_succ hfuel)
    rw [loop_label h hlen]
    exact ih (zero_notMem_label h _) hcap hfits fuel hrest
  | case3 c s hlen =>
    rw [Fits, if_neg hlen, Nat.not_lt] at hfits
    subst hcap
    exact loop_error (body_eq_error h hfits)

end labelToDot

theorem labelToDot_nil : labelToDot val (0 :: t) = .error (.outOfRange (t.length + 1) (-1)) := by
  have hdone : labelToDot.body val (0, [] ++ 0 :: t) = _ :=
    labelToDot.body_done (by simp) (by simp)
  rw [List.nil_append] at hdone
  simp [labelToDot, loop_done hdone, storeAt_neg]

theorem labelToDot_of_not_fits (h : 0 ∉ s)
    (hfits : ¬Fits (fun c => (val c).toNat) (s ++ 0 :: t).length 0 s)
    : labelToDot val (s ++ 0 :: t)
        = .error (.outOfRange (s ++ 0 :: t).length (s ++ 0 :: t).length) := by
  have hfuel : s.length < (s ++ 0 :: t).length + 1 := by
    rw [List.length_append]
    omega
  have hloop := labelToDot.loop_of_not_fits (x := []) (t := t) (by simpa using h) rfl
    (by simpa using hfits) hfuel
  simp only [List.nil_append, List.length_nil] at hloop
  rw [labelToDot, hloop, error_bind]

theorem store_last_dot {e u : Bytes} : storeAt (e ++ [c] ++ 0 :: u) ((e ++ [c]).length - 1 : Nat) 0
    = .ok (e ++ 0 :: 0 :: u) := by
  have hlen : (e ++ [c]).length - 1 = e.length := by simp
  rw [storeAt_natCast, hlen, List.append_assoc, List.singleton_append, store_append_length]

theorem store_past_zero {d u : Bytes} {k : Nat} (hk : k < u.length)
    : storeAt (d ++ 0 :: u) (d.length + 1 + k : Nat) 0 = .ok (d ++ 0 :: u.set k 0) := by
  rw [storeAt_natCast, store_of_lt (by simp; omega), List.set_append_right _ _ (by omega),
    show d.length + 1 + k - d.length = k + 1 by omega, List.set_cons_succ]

/--
The zero that is stored after the loop cuts off the last dot, or lands behind the zero that is there.
-/
theorem store_ended {d u : Bytes} (hs : s ≠ []) (hend : labelToDot.Ended cap i s d 0)
    (hu : (d ++ 0 :: u).length = cap)
    : ∃ v, storeAt (d ++ 0 :: u) ((i : Int) - 1) 0 = .ok (d.take (s.length - 1) ++ 0 :: v)
      ∧ (d.take (s.length - 1) ++ 0 :: v).length = cap := by
  have hpos := List.length_pos_iff.mpr hs
  simp only [labelToDot.Ended, Nat.zero_add] at hend
  rcases hend with ⟨hd, rfl⟩ | ⟨hd, hi, hcap⟩
  . rcases List.eq_nil_or_concat' d with rfl | ⟨e, c, rfl⟩
    . simp at hd
      omega
    . have hlen : s.length - 1 = e.length := by
        simp at hd
        omega
      have hcast : (((e ++ [c]).length : Nat) : Int) - 1 = ((e ++ [c]).length - 1 : Nat) := by simp
      rw [hlen, List.append_assoc, List.take_left, hcast, ← List.append_assoc, store_last_dot]
      refine ⟨0 :: u, rfl, ?_⟩
      simp at hu ⊢
      omega
  . obtain ⟨k, rfl⟩ : ∃ k, i = d.length + 1 + k + 1 := ⟨i - d.length - 2, by omega⟩
    have hcast : ((d.length + 1 + k + 1 : Nat) : Int) - 1 = (d.length + 1 + k : Nat) := by omega
    have hlen : s.length - 1 = d.length := by omega
    have hk : k < u.length := by
      simp at hu hcap
      omega
    rw [hlen, List.take_length, hcast, store_past_zero hk]
    refine ⟨u.set k 0, rfl, ?_⟩
    simp at hu ⊢
    omega

theorem labelToDot_of_fits (h : 0 ∉ s) (hs : s ≠ [])
    (hfits : Fits (fun c => (val c).toNat) (s ++ 0 :: t).length 0 s)
    : ∃ u, labelToDot val (s ++ 0 :: t) = .ok (decode (fun c => (val c).toNat) s ++ 0 :: u)
        ∧ (decode (fun c => (val c).toNat) s ++ 0 :: u).length = (s ++ 0 :: t).length := by
  have hfuel : s.length < (s ++ 0 :: t).length + 1 := by
    rw [List.length_append]
    omega
  obtain ⟨i, u, hloop, hu, hend⟩ :=
    labelToDot.loop_of_fits (x := []) (t := t) (by simpa using h) rfl (by simpa using hfits) hfuel
  simp only [List.nil_append, List.length_nil] at hloop hu hend
  rw [labelToDot, hloop, ok_bind, decode]
  exact store_ended hs hend hu

theorem fits_of_labelToDot {out : Bytes} (h : 0 ∉ s) (hout : labelToDot val (s ++ 0 :: t) = .ok out)
    : s ≠ [] ∧ Fits (fun c => (val c).toNat) (s ++ 0 :: t).length 0 s
      ∧ ∃ u, out = decode (fun c => (val c).toNat) s ++ 0 :: u := by
  have hne : s ≠ [] := by
    rintro rfl
    rw [List.nil_append, labelToDot_nil] at hout
    cases hout
  have hfits : Fits (fun c => (val c).toNat) (s ++ 0 :: t).length 0 s := by
    by_contra hfits
    rw [labelToDot_of_not_fits h hfits] at hout
    cases hout
  obtain ⟨u, hu, -⟩ := labelToDot_of_fits h hne hfits
  rw [hu] at hout
  cases hout
  exact ⟨hne, hfits, u, rfl⟩

end Dns
