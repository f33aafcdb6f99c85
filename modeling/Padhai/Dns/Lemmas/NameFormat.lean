import Padhai.Dns.Lemmas.LabelToDot

/-!
This module contains what `ChangetoDnsNameFormat` writes for every text, and the round trips between
the wire form and the text form of a name.
-/

namespace Dns

open Mem Label

variable {x y z a b s t cur : Bytes} {i d : Nat}

theorem copyPiece_append (h : b.length = cur.length)
    : copyPiece (x ++ cur ++ y) cur.length x.length a.length (a ++ b ++ z)
        = .ok (x.length + cur.length, a.length + cur.length, a ++ cur ++ z) := by
  induction cur generalizing x a b with
  | nil =>
    have : b = [] := by simpa using h
    simp [copyPiece, this]
  | cons c cur ih =>
    match b with
    | [] => simp at h
    | e :: b =>
      have := ih (x := x ++ [c]) (a := a ++ [c]) (b := b) (by simpa using h)
      simp [copyPiece] at this ⊢
      rw [this]
      congr 2
      . omega
      . congr 1
        omega

def nameFormat (t : Bytes) : Bytes :=
  wire (t.splitOn dot) ++ [0]

@[simp]
theorem nameFormat_length : (nameFormat t).length = t.length + 2 := by
  simp [nameFormat, wire_splitOn_length]

theorem encodeLoop_dot {left : Nat} (hb : b.length = cur.length + 1)
    : encodeLoop (x ++ cur ++ dot :: y) (left + 1) (x.length + cur.length) x.length a.length
          (a ++ b ++ z)
        =
      encodeLoop (x ++ cur ++ dot :: y) left (x.length + cur.length + 1) (x.length + cur.length + 1)
          (a.length + cur.length + 1) (a ++ prefixed cur ++ z) := by
  match b with
  | [] => simp at hb
  | e :: b =>
    have hload : load (x ++ cur ++ dot :: y) (x.length + cur.length) = .ok dot := by
      rw [← List.length_append, load_append_length]
    have hstore : store (a ++ e :: b ++ z) a.length (UInt8.ofNat cur.length)
        = .ok (a ++ UInt8.ofNat cur.length :: b ++ z) := by
      simp
    have hroom : b.length = cur.length := by simpa using hb
    have hcopy := copyPiece_append (x := x) (y := dot :: y) (z := z)
      (a := a ++ [UInt8.ofNat cur.length]) hroom
    simp only [List.append_assoc, List.length_append, List.length_singleton, List.cons_append,
      List.nil_append] at hcopy hload hstore ⊢
    simp only [encodeLoop, hload, ok_bind, ↓reduceIte, Nat.add_sub_cancel_left, hstore, hcopy]
    simp [prefixed, Nat.add_right_comm]

theorem encodeLoop_of_ne {left : Nat} {c : UInt8} (hc : c ≠ dot)
    : encodeLoop (x ++ cur ++ c :: y) (left + 1) (x.length + cur.length) i d z
        =
      encodeLoop (x ++ cur ++ c :: y) left (x.length + cur.length + 1) i d z := by
  have hload : load (x ++ cur ++ c :: y) (x.length + cur.length) = .ok c := by
    rw [← List.length_append, load_append_length]
  simp only [encodeLoop, hload, ok_bind, hc, ↓reduceIte]

theorem encodeLoop_append (hcur : dot ∉ cur) (hb : b.length = cur.length + t.length + 1)
    : encodeLoop (x ++ cur ++ (t ++ dot :: y)) (t.length + 1) (x.length + cur.length) x.length
          a.length (a ++ b ++ z)
        = .ok (a.length + b.length, a ++ wire ((cur ++ t).splitOn dot) ++ z) := by
  induction t generalizing x cur a b with
  | nil =>
    rw [List.nil_append, List.length_nil, Nat.zero_add, encodeLoop_dot (by simpa using hb)]
    simp [encodeLoop, List.splitOn_eq_singleton hcur, hb, Nat.add_assoc]
  | cons c t ih =>
    rw [List.cons_append, List.length_cons]
    by_cases hc : c = dot
    . subst hc
      obtain ⟨b, b', rfl, hb₁⟩ : ∃ u v, b = u ++ v ∧ u.length = cur.length + 1 := by
        refine ⟨b.take (cur.length + 1), b.drop (cur.length + 1), by simp, ?_⟩
        simp at hb ⊢
        omega
      have hroom : b'.length = ([] : Bytes).length + t.length + 1 := by
        simp at hb ⊢
        omega
      have := ih (x := x ++ cur ++ [dot]) (a := a ++ prefixed cur) (by simp) hroom
      rw [List.append_assoc a, List.append_assoc b, ← List.append_assoc a, encodeLoop_dot hb₁]
      simp only [List.append_assoc, List.length_append, List.length_singleton, List.cons_append,
        List.nil_append, List.length_nil, Nat.add_zero, prefixed_length] at this ⊢
      rw [← Nat.add_assoc, ← Nat.add_assoc] at this
      rw [this, List.splitOn_append_cons_self_of_not_mem hcur]
      simp [hb₁, Nat.add_assoc]
    . have hcur' : dot ∉ cur ++ [c] := by simp [hcur, Ne.symm hc]
      have := ih (x := x) (a := a) (b := b) hcur' (by simp at hb ⊢; omega)
      rw [encodeLoop_of_ne hc]
      simpa [Nat.add_assoc] using this

theorem changetoDnsNameFormat_append {c : UInt8} (ht : 0 ∉ t) (hb : b.length = t.length + 2)
    : changetoDnsNameFormat (a ++ b ++ z) a.length (t ++ 0 :: c :: y)
        = .ok (a ++ nameFormat t ++ z, t ++ dot :: 0 :: y) := by
  have hcat : strcat (t ++ 0 :: c :: y) [dot] = .ok (t ++ dot :: 0 :: y) := by
    have := strcat_append_zero (a := [dot]) (b := [c]) (t := y) ht (by simp)
    simpa using this
  obtain ⟨b, e, rfl⟩ : ∃ u e, b = u ++ [e] := by
    rcases List.eq_nil_or_concat b with rfl | h
    . simp at hb
    . simpa using h
  have hloop := encodeLoop_append (x := []) (t := t) (y := 0 :: y) (a := a) (b := b) (z := e :: z)
    (List.not_mem_nil (a := dot)) (by simp at hb ⊢; omega)
  have hstore : store (a ++ wire (t.splitOn dot) ++ e :: z) (a.length + b.length) 0
      = .ok (a ++ nameFormat t ++ z) := by
    have : a.length + b.length = (a ++ wire (t.splitOn dot)).length := by
      simp [wire_splitOn_length] at hb ⊢
      omega
    rw [this, store_append_length, nameFormat]
    simp
  simp only [List.nil_append, List.length_nil, Nat.add_zero, List.append_assoc, List.cons_append]
    at hloop hstore ⊢
  simp only [changetoDnsNameFormat, hcat, strlen_append_dot ht, hloop, hstore, ok_bind, pure_eq_ok]

section Codec

def charLen (c : UInt8) : Nat := (charVal c).toNat

def ucharLen (c : UInt8) : Nat := (ucharVal c).toNat

theorem charLen_ofNat {k : Nat} (h : k ≤ 63) : charLen (UInt8.ofNat k) = k := by
  rw [charLen, charVal, UInt8.toInt8_ofNat', Int8.toInt_ofNat_of_lt (by omega), Int.toNat_natCast]

theorem ucharLen_ofNat {k : Nat} (h : k ≤ 63) : ucharLen (UInt8.ofNat k) = k := by
  rw [ucharLen, ucharVal, UInt8.toNat_ofNat_of_lt' (by simp [UInt8.size]; omega),
    Int.toNat_natCast]

variable {name : Name}

theorem labelToDot_wire {val : UInt8 → Int} {p : UInt8 → Prop}
    (hval : ∀ k ≤ 63, (val (UInt8.ofNat k)).toNat = k) (h : name.All p) (hp : ¬p 0)
    : ∃ u, labelToDot val (name.wire ++ 0 :: y) = .ok (name.text ++ 0 :: u)
        ∧ u.length = y.length + 1 := by
  obtain ⟨u, hu, hlen⟩ := labelToDot_of_fits (t := y) (name.zero_notMem_wire h hp) name.wire_ne_nil
    (name.fits_wire hval)
  rw [name.decode_wire hval] at hu hlen
  refine ⟨u, hu, ?_⟩
  have := name.wire_length
  simp at hlen
  omega

theorem changetoDnsNameFormat_text {p : UInt8 → Prop} {c : UInt8} (h : name.All p) (h0 : ¬p 0)
    (hdot : ¬p dot) (hb : b.length = name.wire.length + 1)
    : changetoDnsNameFormat (a ++ b ++ z) a.length (name.text ++ 0 :: c :: y)
        = .ok (a ++ (name.wire ++ [0]) ++ z, name.text ++ dot :: 0 :: y) := by
  have hlen := name.wire_length
  rw [changetoDnsNameFormat_append (name.zero_notMem_text h h0) (by omega), nameFormat,
    name.wire_splitOn_text h hdot]

def Plain (c : UInt8) : Prop := c ≠ 0 ∧ c ≠ dot

instance (c : UInt8) : Decidable (Plain c) := by
  unfold Plain
  infer_instance

def ccLabel : Label where
  bytes := [99, 99]
  ne_nil := by decide
  length_le := by decide

def exampleName : Name where
  labels := [⟨[119, 119, 119], by decide, by decide⟩, ccLabel]
  ne_nil := by decide
  length_le := by decide

theorem exampleName_plain : exampleName.All Plain := by
  decide

theorem changetoDnsNameFormat_labelToDot (name : Name) (h : name.All Plain) (dns : Bytes)
    (hdns : name.wire.length < dns.length)
    : (∀ c y, ∃ u, (do
          let (dns, _) ← changetoDnsNameFormat dns 0 (name.text ++ 0 :: c :: y)
          labelToDot charVal dns) = .ok (name.text ++ 0 :: u))
      ∧ (∀ y, ∃ host, (do
          let text ← labelToDot charVal (name.wire ++ 0 :: y)
          changetoDnsNameFormat dns 0 text)
            = .ok (name.wire ++ 0 :: dns.drop (name.wire.length + 1), host)) := by
  have hchange := fun (c : UInt8) (y : Bytes) =>
    changetoDnsNameFormat_text (a := []) (b := dns.take (name.wire.length + 1))
      (z := dns.drop (name.wire.length + 1)) (c := c) (y := y) h (by simp [Plain])
      (by simp [Plain]) (by simp; omega)
  simp only [List.nil_append, List.take_append_drop, List.length_nil, List.append_assoc,
    List.singleton_append] at hchange
  constructor
  . intro c y
    obtain ⟨u, hu, -⟩ := labelToDot_wire (y := dns.drop (name.wire.length + 1))
      (fun k hk => charLen_ofNat hk) h (by simp [Plain])
    exact ⟨u, by simp only [hchange, ok_bind, hu]⟩
  . intro y
    obtain ⟨u, hu, hlen⟩ := labelToDot_wire (y := y) (fun k hk => charLen_ofNat hk) h
      (by simp [Plain])
    cases u with
    | nil => simp at hlen
    | cons c u => exact ⟨_, by rw [hu, ok_bind, hchange]⟩

theorem changetoDnsNameFormat_labelToDot_exampleName
    : ∃ u, (do
        let (dns, _) ← changetoDnsNameFormat (zeros 256) 0 (exampleName.text ++ [0, 0])
        labelToDot charVal dns) = .ok (exampleName.text ++ 0 :: u) := by
  have h := changetoDnsNameFormat_labelToDot exampleName exampleName_plain (zeros 256)
    (by rw [zeros_length]; decide)
  exact h.1 0 []

end Codec

section Specified

/--
What a name with these pieces is to be written as: each piece behind a byte that holds its length, and
a zero at the end.
-/
inductive Specified : List Bytes → Bytes → Prop where
  | nil : Specified [] [0]
  | cons {k : UInt8} {p : Bytes} {ps : List Bytes} {out : Bytes} (hk : k.toNat = p.length)
    (rest : Specified ps out) : Specified (p :: ps) (k :: (p ++ out))

theorem specified_wire {ps : List Bytes} (hps : ∀ p ∈ ps, p.length ≤ 255)
    : Specified ps (wire ps ++ [0]) := by
  induction ps with
  | nil => exact .nil
  | cons p ps ih =>
    obtain ⟨hp, hps⟩ := List.forall_mem_cons.mp hps
    rw [wire_cons, prefixed, List.cons_append, List.cons_append, List.append_assoc]
    exact .cons (UInt8.toNat_ofNat_of_lt' (Nat.lt_succ_of_le hp)) (ih hps)

theorem nameFormat_append_dot : nameFormat (t ++ [dot]) = nameFormat t ++ [0] := by
  simp [nameFormat, splitOn_append_dot, prefixed]

theorem changetoDnsNameFormat_at {dns : Bytes} {c : UInt8} (ht : 0 ∉ t)
    (hdns : d + (t.length + 2) ≤ dns.length)
    : changetoDnsNameFormat dns d (t ++ 0 :: c :: y)
        = .ok (dns.take d ++ nameFormat t ++ dns.drop (d + (t.length + 2)), t ++ dot :: 0 :: y) := by
  have hd : (dns.take d).length = d := by
    rw [List.length_take]
    omega
  have hroom : ((dns.drop d).take (t.length + 2)).length = t.length + 2 := by
    rw [List.length_take, List.length_drop]
    omega
  have happend := changetoDnsNameFormat_append (a := dns.take d) (z := (dns.drop d).drop (t.length + 2))
    (c := c) (y := y) ht hroom
  rwa [List.append_assoc, List.take_append_drop, List.take_append_drop, hd, List.drop_drop] at happend

theorem changetoDnsNameFormat_specified (t : Bytes) (h0 : 0 ∉ t)
    (hpieces : ∀ p ∈ t.splitOn dot, p.length ≤ 255) (c c' : UInt8) (y dns dns' : Bytes) (d d' : Nat)
    (hdns : d + (t.length + 2) ≤ dns.length) (hdns' : d' + (t.length + 3) ≤ dns'.length)
    : ∃ out, Specified (t.splitOn dot) out ∧ out.length = t.length + 2
      ∧ changetoDnsNameFormat dns d (t ++ 0 :: c :: c' :: y)
        = .ok (dns.take d ++ out ++ dns.drop (d + (t.length + 2)), t ++ dot :: 0 :: c' :: y)
      ∧ changetoDnsNameFormat dns' d' (t ++ dot :: 0 :: c' :: y)
        = .ok (dns'.take d' ++ (out ++ [0]) ++ dns'.drop (d' + (t.length + 3)),
          t ++ dot :: dot :: 0 :: y) := by
  refine ⟨nameFormat t, specified_wire hpieces, nameFormat_length,
    changetoDnsNameFormat_at h0 hdns, ?_⟩
  have hroom : d' + ((t ++ [dot]).length + 2) ≤ dns'.length := by
    simpa using hdns'
  have hsecond := changetoDnsNameFormat_at (c := c') (y := y) (zero_notMem_append_dot h0) hroom
  simpa [nameFormat_append_dot] using hsecond

/--
The pieces of `.a` are the empty one and `a`.
-/
theorem changetoDnsNameFormat_specified_leadingDot
    : ∃ out, Specified (List.splitOn dot [46, 97]) out ∧ out.length = 4
      ∧ changetoDnsNameFormat (zeros 8) 0 [46, 97, 0, 0, 0] = .ok (out ++ zeros 4, [46, 97, 46, 0, 0])
      ∧ changetoDnsNameFormat (zeros 8) 0 [46, 97, 46, 0, 0]
        = .ok (out ++ [0] ++ zeros 3, [46, 97, 46, 46, 0]) :=
  changetoDnsNameFormat_specified [46, 97] (by decide) (by decide) 0 0 [] (zeros 8) (zeros 8) 0 0
    (by decide) (by decide)

end Specified

end Dns
