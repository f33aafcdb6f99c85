import Mathlib.Data.List.Basic
import Mathlib.Tactic.Common
import Padhai.Lib.Mem

/-!
This module contains the two forms of a domain name. Its `wire` form is every label behind a byte
with its length (the zero that ends it is not part of it) and its `text` is the labels joined by dots.
What a reader makes of arbitrary bytes, when it takes `len c` for the length that a byte `c`
announces, is `dotted`: every announced label with a dot behind it, and from a length byte that
announces more than is left the bytes as they stand. `decode` cuts off the last dot.
-/

namespace Label

open Mem

def dot : UInt8 := 46

def prefixed (l : Bytes) : Bytes :=
  UInt8.ofNat l.length :: l

def wire (ls : List Bytes) : Bytes :=
  ls.flatMap prefixed

def text (ls : List Bytes) : Bytes :=
  [dot].intercalate ls

end Label

structure Label where
  bytes : Mem.Bytes
  ne_nil : bytes ≠ []
  length_le : bytes.length ≤ 63

structure Name where
  labels : List Label
  ne_nil : labels ≠ []
  length_le : (Label.wire (labels.map Label.bytes)).length ≤ 254

namespace Name

open Mem

def wire (d : Name) : Bytes :=
  Label.wire (d.labels.map Label.bytes)

def text (d : Name) : Bytes :=
  Label.text (d.labels.map Label.bytes)

def All (p : UInt8 → Prop) (d : Name) : Prop :=
  ∀ l ∈ d.labels, ∀ c ∈ l.bytes, p c

instance (p : UInt8 → Prop) [DecidablePred p] (d : Name) : Decidable (d.All p) :=
  letI : DecidablePred fun l : Label => ∀ c ∈ l.bytes, p c := fun l => List.decidableBAll p l.bytes
  List.decidableBAll (fun l : Label => ∀ c ∈ l.bytes, p c) d.labels

end Name

namespace Label

open Mem

variable {len : UInt8 → Nat} {cap i : Nat} {s t l : Bytes} {ls ms : List Bytes}

@[simp]
theorem wire_nil : wire [] = [] := rfl

@[simp]
theorem wire_cons : wire (l :: ls) = prefixed l ++ wire ls := by
  simp [wire]

@[simp]
theorem wire_append : wire (ls ++ ms) = wire ls ++ wire ms := by
  simp [wire]

@[simp]
theorem prefixed_length : (prefixed l).length = l.length + 1 := by
  simp [prefixed]

theorem wire_length : (wire ls).length = (ls.flatMap (· ++ [dot])).length := by
  induction ls with
  | nil => simp
  | cons l ls ih =>
    simp [ih]
    omega

theorem text_append_dot (h : ls ≠ []) : text ls ++ [dot] = ls.flatMap (· ++ [dot]) := by
  induction ls with
  | nil => contradiction
  | cons l ls ih =>
    by_cases hls : ls = []
    . simp [text, hls]
    . have := ih hls
      simp only [text] at this ⊢
      rw [List.intercalate_cons_of_ne_nil hls, List.append_assoc, this, List.flatMap_cons]

theorem wire_length_eq_text_length (h : ls ≠ []) : (wire ls).length = (text ls).length + 1 := by
  rw [wire_length, ← text_append_dot h]
  simp

theorem splitOn_text (h : ls ≠ []) (hdot : ∀ l ∈ ls, dot ∉ l) : (text ls).splitOn dot = ls :=
  List.splitOn_intercalate dot hdot h

theorem wire_splitOn_length : (wire (t.splitOn dot)).length = t.length + 1 := by
  rw [wire_length_eq_text_length (List.splitOn_ne_nil dot t), text, List.intercalate_splitOn]

theorem length_le_of_mem_splitOn (h : l ∈ t.splitOn dot) : l.length ≤ t.length := by
  have hlen := wire_splitOn_length (t := t)
  obtain ⟨ls, ms, hsplit⟩ := List.append_of_mem h
  rw [hsplit, wire_append, wire_cons] at hlen
  simp at hlen
  omega

theorem zero_notMem_of_mem_splitOn (h0 : 0 ∉ t) (h : l ∈ t.splitOn dot) : 0 ∉ l := by
  intro hmem
  have htext := text_append_dot (List.splitOn_ne_nil dot t)
  rw [text, List.intercalate_splitOn] at htext
  have hzero : 0 ∈ t ++ [dot] := by
    rw [htext]
    exact List.mem_flatMap.mpr ⟨l, h, List.mem_append_left _ hmem⟩
  rcases List.mem_append.mp hzero with hmem | hmem
  . exact h0 hmem
  . exact absurd hmem (by decide)

theorem splitOn_append_dot : (t ++ [dot]).splitOn dot = t.splitOn dot ++ [[]] := by
  rw [List.splitOn_append_cons_self]
  rfl

theorem prefixed_append_inj {m : Bytes} (hl : l.length < 256) (hm : m.length < 256)
    (h : prefixed l ++ s = prefixed m ++ t) : l = m ∧ s = t := by
  simp only [prefixed, List.cons_append, List.cons.injEq] at h
  obtain ⟨hlen, happend⟩ := h
  have hlen := congrArg UInt8.toNat hlen
  rw [UInt8.toNat_ofNat_of_lt' hl, UInt8.toNat_ofNat_of_lt' hm] at hlen
  exact List.append_inj happend hlen

theorem wire_inj (hls : ∀ l ∈ ls, l.length < 256) (hms : ∀ l ∈ ms, l.length < 256)
    (h : wire ls = wire ms) : ls = ms := by
  induction ls generalizing ms with
  | nil =>
    cases ms with
    | nil => rfl
    | cons m ms => simp [prefixed] at h
  | cons l ls ih =>
    cases ms with
    | nil => simp [prefixed] at h
    | cons m ms =>
      rw [wire_cons, wire_cons] at h
      obtain ⟨rfl, hrest⟩ := prefixed_append_inj (hls l (by simp)) (hms m (by simp)) h
      rw [ih (fun k hk => hls k (by simp [hk])) (fun k hk => hms k (by simp [hk])) hrest]

theorem exists_map_bytes (h : ∀ l ∈ ls, l ≠ [] ∧ l.length ≤ 63)
    : ∃ ms : List Label, ms.map Label.bytes = ls := by
  induction ls with
  | nil => exact ⟨[], rfl⟩
  | cons l ls ih =>
    obtain ⟨ms, rfl⟩ := ih fun m hm => h m (by simp [hm])
    obtain ⟨hne, hle⟩ := h l (by simp)
    exact ⟨⟨l, hne, hle⟩ :: ms, rfl⟩

theorem zero_notMem_wire (hlen : ∀ l ∈ ls, l ≠ [] ∧ l.length < 256) (h : ∀ l ∈ ls, 0 ∉ l)
    : 0 ∉ wire ls := by
  intro hmem
  obtain ⟨l, hl, hmem⟩ := List.mem_flatMap.mp hmem
  obtain ⟨hne, hlt⟩ := hlen l hl
  rcases List.mem_cons.mp hmem with h0 | h0
  . have := congrArg UInt8.toNat h0
    rw [UInt8.toNat_ofNat_of_lt' hlt] at this
    exact hne (List.length_eq_zero_iff.mp this.symm)
  . exact h l hl h0

theorem zero_notMem_text (h : ∀ l ∈ ls, 0 ∉ l) : 0 ∉ text ls := by
  intro hmem
  rcases List.eq_nil_or_concat ls with rfl | ⟨_, _, rfl⟩
  . simp [text] at hmem
  . have hmem := List.mem_append_left [dot] hmem
    rw [text_append_dot (by simp)] at hmem
    obtain ⟨l, hl, hmem⟩ := List.mem_flatMap.mp hmem
    rcases List.mem_append.mp hmem with h0 | h0
    . exact h l hl h0
    . exact absurd h0 (by decide)

theorem zero_notMem_append_dot (h : 0 ∉ t) : 0 ∉ t ++ [dot] := by
  simp only [List.mem_append, List.mem_singleton, not_or]
  exact ⟨h, by decide⟩

theorem strlen_append_dot {s : Bytes} (h : 0 ∉ t) : strlen (t ++ dot :: 0 :: s) = .ok (t.length + 1) := by
  have := strlen_append_zero (t := s) (zero_notMem_append_dot h)
  simpa using this

section Dotted

theorem length_drop_lt (c : UInt8) (s : Bytes) (n : Nat)
    : (s.drop n).length < (c :: s).length := by
  rw [List.length_drop, List.length_cons]
  omega

def dotted (len : UInt8 → Nat) : Bytes → Bytes
  | [] => []
  | c :: s =>
    if len c ≤ s.length then
      s.take (len c) ++ dot :: dotted len (s.drop (len c))
    else
      s
termination_by s => s.length
decreasing_by exact length_drop_lt c s _

def decode (len : UInt8 → Nat) (s : Bytes) : Bytes :=
  (dotted len s).take (s.length - 1)

/--
No label that starts at `i` or later announces an end at `cap` or past it, when `s` is what an
array of `cap` bytes holds from `i` on.
-/
def Fits (len : UInt8 → Nat) (cap i : Nat) : Bytes → Prop
  | [] => True
  | c :: s =>
    if len c ≤ s.length then
      Fits len cap (i + len c + 1) (s.drop (len c))
    else
      i + len c < cap
termination_by s => s.length
decreasing_by exact length_drop_lt c s _

theorem length_le_length_dotted (len : UInt8 → Nat) (s : Bytes)
    : s.length - 1 ≤ (dotted len s).length := by
  fun_induction dotted len s with
  | case1 => simp
  | case2 c s h ih =>
    simp at ih ⊢
    omega
  | case3 c s h => simp

@[simp]
theorem decode_length : (decode len s).length = s.length - 1 := by
  have := length_le_length_dotted len s
  simp only [decode, List.length_take]
  omega

theorem zero_notMem_dotted (h : 0 ∉ s) : 0 ∉ dotted len s := by
  fun_induction dotted len s with
  | case1 => simp
  | case2 c s hc ih =>
    simp only [List.mem_cons, not_or] at h
    simp only [List.mem_append, List.mem_cons, not_or]
    refine ⟨fun hmem => h.2 (List.mem_of_mem_take hmem), by decide, ?_⟩
    exact ih (fun hmem => h.2 (List.mem_of_mem_drop hmem))
  | case3 c s hc =>
    simp only [List.mem_cons, not_or] at h
    exact h.2

theorem zero_notMem_decode (h : 0 ∉ s) : 0 ∉ decode len s :=
  fun hmem => zero_notMem_dotted h (List.mem_of_mem_take hmem)

theorem dotted_wire (h : ∀ l ∈ ls, len (UInt8.ofNat l.length) = l.length)
    : dotted len (wire ls) = ls.flatMap (· ++ [dot]) := by
  induction ls with
  | nil => simp [dotted]
  | cons l ls ih =>
    have hl := h l (by simp)
    have hls := ih (fun m hm => h m (by simp [hm]))
    rw [wire_cons, prefixed, List.cons_append, dotted]
    simp [hl, hls]

theorem decode_wire (hne : ls ≠ []) (h : ∀ l ∈ ls, len (UInt8.ofNat l.length) = l.length)
    : decode len (wire ls) = text ls := by
  rw [decode, dotted_wire h, wire_length_eq_text_length hne, ← text_append_dot hne]
  simp

theorem fits_wire (h : ∀ l ∈ ls, len (UInt8.ofNat l.length) = l.length)
    : Fits len cap i (wire ls) := by
  induction ls generalizing i with
  | nil => simp [Fits]
  | cons l ls ih =>
    have hl := h l (by simp)
    rw [wire_cons, prefixed, List.cons_append, Fits]
    simp only [hl, List.length_append, Nat.le_add_right, ↓reduceIte, List.drop_left]
    exact ih (fun m hm => h m (by simp [hm]))

end Dotted

end Label

namespace Name

open Mem Label

variable {d : Name} {len : UInt8 → Nat} {cap i : Nat}

theorem map_bytes_ne_nil : d.labels.map Label.bytes ≠ [] := by
  simpa using d.ne_nil

theorem mem_map_bytes {l : Bytes} (h : l ∈ d.labels.map Label.bytes)
    : l ≠ [] ∧ l.length ≤ 63 := by
  obtain ⟨m, -, rfl⟩ := List.mem_map.mp h
  exact ⟨m.ne_nil, m.length_le⟩

theorem wire_length_le : d.wire.length ≤ 254 := d.length_le

theorem wire_length : d.wire.length = d.text.length + 1 :=
  wire_length_eq_text_length map_bytes_ne_nil

theorem text_length_le : d.text.length ≤ 253 := by
  have := d.wire_length_le
  have := d.wire_length
  omega

theorem wire_ne_nil : d.wire ≠ [] := by
  intro h
  have := d.wire_length
  simp [h] at this

theorem decode_wire (h : ∀ k ≤ 63, len (UInt8.ofNat k) = k) : decode len d.wire = d.text :=
  Label.decode_wire map_bytes_ne_nil fun _ hl => h _ (mem_map_bytes hl).2

theorem fits_wire (h : ∀ k ≤ 63, len (UInt8.ofNat k) = k) : Fits len cap i d.wire :=
  Label.fits_wire fun _ hl => h _ (mem_map_bytes hl).2

theorem notMem_of_all {p : UInt8 → Prop} {c : UInt8} (h : d.All p) (hc : ¬p c)
    : ∀ l ∈ d.labels.map Label.bytes, c ∉ l := by
  intro l hl hmem
  obtain ⟨m, hm, rfl⟩ := List.mem_map.mp hl
  exact hc (h m hm c hmem)

theorem zero_notMem_wire {p : UInt8 → Prop} (h : d.All p) (hp : ¬p 0) : 0 ∉ d.wire := by
  apply Label.zero_notMem_wire _ (notMem_of_all h hp)
  intro l hl
  obtain ⟨hne, hle⟩ := mem_map_bytes hl
  exact ⟨hne, by omega⟩

theorem zero_notMem_text {p : UInt8 → Prop} (h : d.All p) (hp : ¬p 0) : 0 ∉ d.text :=
  Label.zero_notMem_text (notMem_of_all h hp)

theorem nil_notMem_splitOn_text {p : UInt8 → Prop} (h : d.All p) (hp : ¬p dot)
    : [] ∉ d.text.splitOn dot := by
  rw [text, splitOn_text map_bytes_ne_nil (notMem_of_all h hp)]
  intro hmem
  exact (mem_map_bytes hmem).1 rfl

theorem wire_splitOn_text {p : UInt8 → Prop} (h : d.All p) (hp : ¬p dot)
    : Label.wire (d.text.splitOn dot) = d.wire := by
  rw [text, splitOn_text map_bytes_ne_nil (notMem_of_all h hp), wire]

end Name
