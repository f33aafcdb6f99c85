import Padhai.Lib.Label
import Mathlib.Logic.Relation

/-!
This module contains names as they stand in a packet, where two bytes can point to the rest of a
name: what such a name resolves to, and the graph of the pointers of a packet. `Reached` follows a
reader that copies byte by byte and jumps along pointers, `p` bytes of the name being behind it.
-/

namespace Packet

open Mem

variable {pkt : Bytes} {pos k : Nat} {ls : List Label}

def target (hi lo : UInt8) : Nat :=
  hi.toNat * 256 + lo.toNat - 49152

/--
A name that begins at `pos` resolves to labels and takes up a number of bytes there: through its
zero, or through the second byte of its first pointer. Every pointer leads to an earlier offset.
-/
inductive NameAt (pkt : Bytes) : Nat → List Label → Nat → Prop where
  | root {pos : Nat} (h : pkt[pos]? = some 0) : NameAt pkt pos [] 1
  | label {pos k : Nat} {l : Label} {ls : List Label}
    (h : Label.prefixed l.bytes <+: pkt.drop pos)
    (rest : NameAt pkt (pos + (l.bytes.length + 1)) ls k)
    : NameAt pkt pos (l :: ls) (l.bytes.length + 1 + k)
  | pointer {pos k : Nat} {c d : UInt8} {ls : List Label} (hc : pkt[pos]? = some c)
    (h192 : 192 ≤ c.toNat) (hd : pkt[pos + 1]? = some d) (hlt : target c d < pos)
    (rest : NameAt pkt (target c d) ls k)
    : NameAt pkt pos ls 2

def PointsTo (pkt : Bytes) (r t : Nat) : Prop :=
  ∃ hi lo, pkt[r]? = some hi ∧ 192 ≤ hi.toNat ∧ pkt[r + 1]? = some lo ∧ t = target hi lo

/--
The bytes that reading from `r` up to a zero finds outside pointers, how many bytes the name takes
up at `r`, and how many turns the reading takes.
-/
inductive Expands (pkt : Bytes) : (r : Nat) → (bs : Bytes) → (k turns : Nat) → Prop where
  | stop {r : Nat} (h : pkt[r]? = some 0) : Expands pkt r [] 1 0
  | copy {r k n : Nat} {c : UInt8} {bs : Bytes} (hc : pkt[r]? = some c) (h0 : c ≠ 0)
    (h192 : c.toNat < 192) (rest : Expands pkt (r + 1) bs k n)
    : Expands pkt r (c :: bs) (k + 1) (n + 1)
  | jump {r t k n : Nat} {bs : Bytes} (ht : PointsTo pkt r t) (rest : Expands pkt t bs k n)
    : Expands pkt r bs 2 (n + 1)

theorem Expands.zero_notMem {r n : Nat} {bs : Bytes} (h : Expands pkt r bs k n) : 0 ∉ bs := by
  induction h with
  | stop => simp
  | copy _ h0 _ _ ih =>
    simp only [List.mem_cons, not_or]
    exact ⟨Ne.symm h0, ih⟩
  | jump _ _ ih => exact ih

theorem getElem?_of_cons_drop {r : Nat} {c : UInt8} {w : Bytes} (h : c :: w <+: pkt.drop r)
    : pkt[r]? = some c ∧ w <+: pkt.drop (r + 1) := by
  obtain ⟨t, ht⟩ := h
  constructor
  . have := congrArg (·[0]?) ht
    simpa using this.symm
  . refine ⟨t, ?_⟩
    rw [← List.drop_drop, ← ht]
    simp

theorem Expands.append {r n : Nat} {w bs : Bytes} (hw : w <+: pkt.drop r)
    (hbytes : ∀ c ∈ w, c ≠ 0 ∧ c.toNat < 192) (h : Expands pkt (r + w.length) bs k n)
    : Expands pkt r (w ++ bs) (w.length + k) (w.length + n) := by
  induction w generalizing r with
  | nil => simpa using h
  | cons c w ih =>
    obtain ⟨hc, hw'⟩ := getElem?_of_cons_drop hw
    obtain ⟨h0, h192⟩ := hbytes c (by simp)
    have := ih hw' (fun d hd => hbytes d (by simp [hd]))
      (by simpa [Nat.add_assoc, Nat.add_comm 1] using h)
    have := Expands.copy hc h0 h192 this
    simpa [Nat.add_right_comm] using this

theorem Expands.lt_192 {r n : Nat} {bs : Bytes} (h : Expands pkt r bs k n)
    : ∀ c ∈ bs, c.toNat < 192 := by
  induction h with
  | stop => simp
  | copy _ _ h192 _ ih =>
    intro d hd
    rcases List.mem_cons.mp hd with rfl | hd
    . exact h192
    . exact ih d hd
  | jump _ _ ih => exact ih

theorem Expands.count_of_pointer {r n : Nat} {c : UInt8} {bs : Bytes} (hc : pkt[r]? = some c)
    (h192 : 192 ≤ c.toNat) (h : Expands pkt r bs k n) : k = 2 := by
  cases h with
  | stop h =>
    rw [hc] at h
    cases h
    simp at h192
  | copy hc' _ hlt _ =>
    rw [hc] at hc'
    cases hc'
    omega
  | jump => rfl

theorem Expands.of_append {r n : Nat} {w bs : Bytes} (hw : w <+: pkt.drop r)
    (hbytes : ∀ c ∈ w, c ≠ 0 ∧ c.toNat < 192) (h : Expands pkt r bs k n)
    : ∃ bs' k' n', bs = w ++ bs' ∧ k = w.length + k' ∧ Expands pkt (r + w.length) bs' k' n' := by
  induction w generalizing r bs k n with
  | nil => exact ⟨bs, k, n, rfl, by simp, h⟩
  | cons c w ih =>
    obtain ⟨hc, hw'⟩ := getElem?_of_cons_drop hw
    obtain ⟨h0, hlt⟩ := hbytes c (by simp)
    cases h with
    | stop h =>
      rw [hc] at h
      cases h
      contradiction
    | @copy _ k n _ bs hc' _ _ rest =>
      rw [hc] at hc'
      cases hc'
      obtain ⟨bs', k', n', rfl, rfl, hrest⟩ := ih hw' (fun d hd => hbytes d (by simp [hd])) rest
      refine ⟨bs', k', n', rfl, by simp; omega, ?_⟩
      simpa [Nat.add_assoc, Nat.add_comm 1] using hrest
    | jump ht _ =>
      obtain ⟨hi, lo, hhi, h192, -⟩ := ht
      rw [hc] at hhi
      cases hhi
      omega

theorem NameAt.of_wire (h : Label.wire (ls.map Label.bytes) ++ [0] <+: pkt.drop pos)
    : NameAt pkt pos ls ((Label.wire (ls.map Label.bytes)).length + 1) := by
  induction ls generalizing pos with
  | nil => exact .root (getElem?_of_cons_drop h).1
  | cons l ls ih =>
    rw [List.map_cons, Label.wire_cons, List.append_assoc] at h
    have hl : Label.prefixed l.bytes <+: pkt.drop pos := (List.prefix_append _ _).trans h
    have hrest : Label.wire (ls.map Label.bytes) ++ [0] <+: pkt.drop (pos + (l.bytes.length + 1)) := by
      obtain ⟨t, ht⟩ := h
      refine ⟨t, ?_⟩
      rw [← List.drop_drop, ← ht, ← Label.prefixed_length, List.append_assoc (Label.prefixed l.bytes),
        List.drop_left]
    have := NameAt.label hl (ih hrest)
    simpa [Nat.add_assoc] using this

theorem NameAt.mono {pkt' : Bytes} (h : NameAt pkt pos ls k) (hp : pkt <+: pkt')
    : NameAt pkt' pos ls k := by
  have hget : ∀ {i : Nat} {c : UInt8}, pkt[i]? = some c → pkt'[i]? = some c := by
    intro i c hc
    apply load_eq_ok_iff.mp
    exact load_of_prefix hp (load_of_getElem? hc)
  induction h with
  | root h => exact .root (hget h)
  | label h _ ih => exact .label (h.trans (hp.drop _)) ih
  | pointer hc h192 hd hlt _ ih => exact .pointer (hget hc) h192 (hget hd) hlt ih

theorem NameAt.expands (h : NameAt pkt pos ls k)
    (hls : ∀ l ∈ ls, ∀ c ∈ l.bytes, 1 ≤ c.toNat ∧ c.toNat ≤ 191)
    : ∃ n, Expands pkt pos (Label.wire (ls.map Label.bytes)) k n := by
  induction h with
  | root h => exact ⟨0, .stop h⟩
  | @label pos k l ls hl _ ih =>
    obtain ⟨n, hn⟩ := ih (fun m hm => hls m (by simp [hm]))
    refine ⟨(Label.prefixed l.bytes).length + n, ?_⟩
    have hbytes : ∀ c ∈ Label.prefixed l.bytes, c ≠ 0 ∧ c.toNat < 192 := by
      intro c hc
      have h0 : (0 : UInt8).toNat = 0 := rfl
      rw [ne_eq, ← UInt8.toNat_inj, h0]
      rcases List.mem_cons.mp hc with rfl | hc
      . have hpos := List.length_pos_iff.mpr l.ne_nil
        have hle := l.length_le
        rw [UInt8.toNat_ofNat_of_lt' (by simp [UInt8.size]; omega)]
        omega
      . have := hls l (by simp) c hc
        omega
    have := Expands.append hl hbytes (by simpa using hn)
    simpa using this
  | pointer hhi h192 hlo _ _ ih =>
    obtain ⟨n, hn⟩ := ih hls
    exact ⟨n + 1, .jump ⟨_, _, hhi, h192, hlo, rfl⟩ hn⟩

end Packet
