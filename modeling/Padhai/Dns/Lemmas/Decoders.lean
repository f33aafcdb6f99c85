import Padhai.Dns.Lemmas.Query
import Padhai.Dns.Lemmas.Uncompress

/-!
This module contains the comparison of the two functions that turn a name in a packet into its
dotted text, for names without pointers.
-/

namespace Dns

open Mem Label Packet

variable {buffer block : Bytes} {n : UInt32} {name : Name}

/--
Both functions return for the name at the place of the question name, with the same text, and
`uncompress_name` counts `count` bytes.
-/
def DecodersAgree (buffer : Bytes) (n : UInt32) (block : Bytes) (count : Nat) : Prop :=
  ∃ data qType name, readAndPrintDnsHeader buffer n = .ok (some (data, qType))
    ∧ (∃ fuel₀, ∀ fuel, fuel₀ ≤ fuel →
        uncompressName fuel block sizeofDnsHeader buffer = .ok (name, count))
    ∧ cstr data.domainName = cstr name

theorem questionName_of_wire (h0 : name.All (· ≠ 0)) (hname : name.wire ++ [0] <+: buffer.drop 12)
    : questionName buffer = name.wire :=
  questionName_of_prefix (t := []) hname (name.zero_notMem_wire h0 (by simp))

theorem readAndPrintDnsHeader_of_wire (h0 : name.All (· ≠ 0)) (hb : buffer.length = 512)
    (hname : name.wire ++ [0] <+: buffer.drop 12) (hn : name.wire.length ≤ n.toNat + 1)
    : ∃ data qType, readAndPrintDnsHeader buffer n = .ok (some (data, qType))
        ∧ cstr data.domainName = name.text := by
  have hquestion := questionName_of_wire h0 hname
  have hwire := name.wire_length_le
  have htext := name.text_length_le
  have hprintable : Printable (questionName buffer) := by
    rw [hquestion]
    exact ⟨name.wire_ne_nil, name.fits_wire fun k hk => charLen_ofNat hk⟩
  obtain ⟨tid, qr, -, -, heq⟩ := readAndPrintDnsHeader_of_printable (n := n) hb
    (by rw [hquestion]; exact ⟨by omega, hn⟩) hprintable
  refine ⟨_, _, heq, ?_⟩
  rw [questionText, hquestion, name.decode_wire fun k hk => charLen_ofNat hk,
    padTo_eq_append (by omega), cstr_append_zero (name.zero_notMem_text h0 (by simp))]

theorem uncompressName_of_wire (h0 : name.All (· ≠ 0)) (h191 : name.All (·.toNat ≤ 191))
    (hname : name.wire ++ [0] <+: buffer.drop 12) (hblock : 256 ≤ block.length)
    : ∃ u fuel₀, ∀ fuel, fuel₀ ≤ fuel →
        uncompressName fuel block 12 buffer = .ok (name.text ++ 0 :: u, name.wire.length + 1) := by
  have hbyte : name.All LabelByte := by
    intro l hl c hc
    have : c.toNat ≠ 0 := fun hzero => h0 l hl c hc (UInt8.toNat_inj.mp hzero)
    exact ⟨by omega, h191 l hl c hc⟩
  obtain ⟨u, m, -, hall⟩ :=
    uncompressName_of_decodes (decodes_of_nameAt (NameAt.of_wire hname) hbyte hblock)
  refine ⟨u, m + 1, fun fuel hfuel => ?_⟩
  rw [hall, if_pos (by omega), name.decode_wire fun k hk => ucharLen_ofNat hk]
  rfl

theorem last_eq_of_decode {s : Bytes} {c c' : UInt8} (hwire : name.wire = s ++ [c])
    (h : decode ucharLen (s ++ [c']) = name.text) : c' = c := by
  obtain ⟨ls, m, hlabels⟩ := (List.eq_nil_or_concat' _).resolve_left name.map_bytes_ne_nil
  have hmem : ∀ l ∈ ls ++ [m], l ≠ [] ∧ l.length ≤ 63 := by
    rw [← hlabels]
    exact fun l hl => Name.mem_map_bytes hl
  obtain ⟨l, b, rfl⟩ := (List.eq_nil_or_concat' m).resolve_left (hmem m (by simp)).1
  rw [Name.text, hlabels] at h
  rw [Name.wire, hlabels] at hwire
  have hsplit : ∀ b, wire (ls ++ [l ++ [b]])
      = wire ls ++ UInt8.ofNat (l.length + 1) :: l ++ [b] := by
    simp [prefixed]
  rw [hsplit] at hwire
  obtain ⟨rfl, hb⟩ := List.append_inj' hwire rfl
  rw [← hsplit, decode_wire (by simp)] at h
  . have hdots := congrArg (· ++ [dot]) h
    simp only [text_append_dot (List.append_ne_nil_of_right_ne_nil ls (List.cons_ne_nil _ [])),
      List.flatMap_append] at hdots
    simp at hdots hb
    exact hdots.trans hb
  . intro k hk
    apply ucharLen_ofNat
    rcases List.mem_append.mp hk with hk | hk
    . exact (hmem k (List.mem_append_left _ hk)).2
    . have := (hmem (l ++ [b]) (by simp)).2
      simp_all

theorem exists_pointer_byte (h : ¬name.All (·.toNat ≤ 191))
    : ∃ s c t, name.wire = s ++ c :: t ∧ 192 ≤ c.toNat ∧ ∀ b ∈ s, b.toNat < 192 := by
  simp only [Name.All, not_forall] at h
  obtain ⟨l, hl, c, hc, h191⟩ := h
  have hmem : c ∈ name.wire :=
    List.mem_flatMap.mpr ⟨l.bytes, List.mem_map_of_mem hl, List.mem_cons_of_mem _ hc⟩
  have hfind : (name.wire.find? fun b => decide (192 ≤ b.toNat)).isSome :=
    List.find?_isSome.mpr ⟨c, hmem, by rw [decide_eq_true_eq]; omega⟩
  obtain ⟨b, hb⟩ := Option.isSome_iff_exists.mp hfind
  obtain ⟨h192, s, t, hwire, hs⟩ := List.find?_eq_some_iff_append.mp hb
  exact ⟨s, b, t, hwire, by simpa using h192, fun b hb => by simpa using hs b hb⟩

theorem exists_expands_of_decodersAgree (h0 : name.All (· ≠ 0)) (hb : buffer.length = 512)
    (hname : name.wire ++ [0] <+: buffer.drop 12) (hn : name.wire.length ≤ n.toNat + 1)
    (h : DecodersAgree buffer n block (name.wire.length + 1))
    : ∃ bs m, Expands buffer 12 bs (name.wire.length + 1) m ∧ bs ≠ []
        ∧ decode ucharLen bs = name.text := by
  obtain ⟨data, qType, out, hread, ⟨fuel₀, hout⟩, htext⟩ := h
  obtain ⟨data', qType', hread', htext'⟩ := readAndPrintDnsHeader_of_wire h0 hb hname hn
  rw [hread] at hread'
  cases hread'
  obtain ⟨bs, u, ⟨⟨m, hexp⟩, hne, -⟩, rfl⟩ := decodes_of_uncompressName (hout fuel₀ (Nat.le_refl _))
  rw [htext', cstr_append_zero (zero_notMem_decode hexp.zero_notMem)] at htext
  exact ⟨bs, m, hexp, hne, htext.symm⟩

theorem all_of_decodersAgree (h0 : name.All (· ≠ 0)) (hb : buffer.length = 512)
    (hname : name.wire ++ [0] <+: buffer.drop 12) (hn : name.wire.length ≤ n.toNat + 1)
    (h : DecodersAgree buffer n block (name.wire.length + 1)) : name.All (·.toNat ≤ 191) := by
  obtain ⟨bs, m, hexp, hne, htext⟩ := exists_expands_of_decodersAgree h0 hb hname hn h
  by_contra hall
  obtain ⟨s, c, t, hwire, h192, hs⟩ := exists_pointer_byte hall
  rw [hwire, List.append_assoc] at hname
  have hzero := name.zero_notMem_wire h0 (by simp)
  rw [hwire] at hzero
  obtain ⟨bs, k, m, rfl, hk, hrest⟩ := hexp.of_append ((List.prefix_append _ _).trans hname)
    fun b hb => ⟨fun hb0 => hzero (by simp [← hb0, hb]), hs b hb⟩
  have hc : buffer[12 + s.length]? = some c := by
    obtain ⟨y, hy⟩ := hname
    rw [← List.getElem?_drop, ← hy]
    simp
  -- The jump is counted as two bytes, so the byte that was taken for a pointer is the name's last.
  have hk2 := hrest.count_of_pointer hc h192
  have ht : t = [] := by
    have := congrArg List.length hwire
    apply List.length_eq_zero_iff.mp
    simp at this
    omega
  subst ht
  have hbs : bs.length = 1 := by
    have := congrArg List.length htext
    have := name.wire_length
    have := congrArg List.length hwire
    have := List.length_pos_iff.mpr hne
    simp at *
    omega
  obtain ⟨b, rfl⟩ := List.length_eq_one_iff.mp hbs
  have hlt := hrest.lt_192 b (by simp)
  rw [last_eq_of_decode hwire htext] at hlt
  omega

theorem decodersAgree_iff (name : Name) (buffer block : Bytes) (n : UInt32)
    (h0 : name.All (· ≠ 0)) (hb : buffer.length = maxBufLen)
    (hname : name.wire ++ [0] <+: buffer.drop sizeofDnsHeader)
    (hn : name.wire.length ≤ n.toNat + 1) (hblock : maxNameLen ≤ block.length)
    : DecodersAgree buffer n block (name.wire.length + 1) ↔ name.All (·.toNat ≤ 191) := by
  constructor
  . exact all_of_decodersAgree h0 hb hname hn
  . intro h191
    obtain ⟨data, qType, hread, htext⟩ := readAndPrintDnsHeader_of_wire h0 hb hname hn
    obtain ⟨u, fuel₀, hall⟩ := uncompressName_of_wire h0 h191 hname hblock
    refine ⟨data, qType, _, hread, ⟨fuel₀, hall⟩, ?_⟩
    rw [htext, cstr_append_zero (name.zero_notMem_text h0 (by simp))]

theorem decodersAgree_iff_exampleName
    : DecodersAgree (padTo 512 (questionDatagram exampleName 1).bytes) 24 (zeros 256)
        (exampleName.wire.length + 1)
      ↔ exampleName.All (·.toNat ≤ 191) :=
  decodersAgree_iff exampleName (padTo 512 (questionDatagram exampleName 1).bytes) (zeros 256) 24
    (by decide) (padTo_length (by decide)) (by decide) (by decide) (by rw [zeros_length]; decide)

def utf8Name : Name := singleName ⟨[195, 169], by decide, by decide⟩

theorem not_decodersAgree_utf8Name
    : ¬DecodersAgree (padTo 512 (questionDatagram utf8Name 1).bytes) 20 (zeros 256)
        (utf8Name.wire.length + 1) := by
  intro h
  have : utf8Name.All (·.toNat ≤ 191) :=
    all_of_decodersAgree (by decide) (padTo_length (by decide)) (by decide) (by decide) h
  exact absurd this (by decide)

end Dns
