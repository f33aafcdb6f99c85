import Padhai.Ping.Impl.Synchronous
import Padhai.Ping.Lemmas.Listener

/-!
This module contains what the program of `myping_synchronous.c` sends, whatever it receives in between, and
that what it shows tells everything it has received.
-/

namespace PingSynchronous

open Mem Ping

variable {pid : Int} {cnt n i left : Nat} {buf pckt d xs ys : Bytes} {c e : UInt8} {r s : Received}
  {arrivals : List Received}

section Dump

def text (i : Nat) : Bytes → List Char
  | [] => ['\n']
  | c :: xs => rowStart i ++ hexByte c ++ ' ' :: text (i + 1) xs

theorem digitChar_inj {m : Nat} (hm : m < 16) (hn : n < 16) (h : m.digitChar = n.digitChar) : m = n := by
  have hall : ∀ a b : Fin 16, a.val.digitChar = b.val.digitChar → a = b := by decide
  exact Fin.mk.inj_iff.mp (hall ⟨m, hm⟩ ⟨n, hn⟩ h)

theorem hexByte_inj (h : hexByte c = hexByte e) : c = e := by
  have hc := c.toNat_lt
  have he := e.toNat_lt
  simp only [hexByte, List.cons.injEq, and_true] at h
  have hhigh := digitChar_inj (by omega) (by omega) h.1
  have hlow := digitChar_inj (by omega) (by omega) h.2
  apply UInt8.toNat.inj
  omega

theorem rowStart_append_ne {t : List Char} : rowStart i ++ hexByte c ++ ' ' :: t ≠ ['\n'] := by
  intro h
  have := congrArg List.length h
  simp [hexByte] at this
  omega

theorem text_inj (h : text i xs = text i ys) : xs = ys := by
  induction xs generalizing i ys with
  | nil =>
    cases ys with
    | nil => rfl
    | cons e ys => exact absurd h.symm rowStart_append_ne
  | cons c xs ih =>
    cases ys with
    | nil => exact absurd h rowStart_append_ne
    | cons e ys =>
      rw [text, text, List.append_assoc, List.append_assoc, List.append_cancel_left_eq] at h
      obtain ⟨hbyte, hrest⟩ := List.append_inj h rfl
      rw [hexByte_inj hbyte, ih (List.cons.inj hrest).2]

theorem dump_eq (hlen : xs.length = left) (hbuf : xs <+: buf.drop i) : dump buf left i = .ok (text i xs) := by
  induction xs generalizing left i with
  | nil =>
    subst hlen
    rfl
  | cons c xs ih =>
    subst hlen
    obtain ⟨t, ht⟩ := hbuf
    have hc : buf[i]? = some c := by
      have := congrArg (·[0]?) ht
      simpa using this.symm
    have hxs : xs <+: buf.drop (i + 1) := ⟨t, by rw [← List.drop_drop, ← ht]; rfl⟩
    rw [List.length_cons, dump, load_of_getElem? hc, ok_bind, ih rfl hxs, ok_bind, text, pure_eq_ok]

end Dump

section Listener

/--
What is left of a message in the listener's buffer.
-/
def kept : Received → Bytes
  | .datagram d => d.take bufSize
  | .failed => []

def shown (pid : Int) (xs : Bytes) : Option Shown :=
  if xs = [] then none
  else some ⟨text 0 xs, printed pid (.display (padTo bufSize xs) xs.length)⟩

theorem kept_length_le (r : Received) : (kept r).length ≤ bufSize := by
  cases r with
  | datagram d => exact (List.length_take_le ..)
  | failed => exact Nat.zero_le _

theorem recvfrom_kept (r : Received)
    : ∃ bytes : Int, Ping.recvfrom (zeros bufSize) r = .ok (padTo bufSize (kept r), bytes)
      ∧ (0 < bytes ↔ kept r ≠ []) ∧ (kept r ≠ [] → bytes.toNat = (kept r).length) := by
  cases r with
  | datagram d =>
    refine ⟨_, recvfrom_datagram, ?_, fun _ => rfl⟩
    rw [Int.natCast_pos, List.length_pos_iff]
    rfl
  | failed => exact ⟨-1, by rw [Ping.recvfrom, kept, padTo_nil, pure_eq_ok], by simp [kept], by simp [kept]⟩

theorem display_eq (hlen : xs.length ≤ bufSize)
    : display pid (padTo bufSize xs) xs.length
        = .ok ⟨text 0 xs, printed pid (.display (padTo bufSize xs) xs.length)⟩ := by
  have hbuf := padTo_length hlen
  have hdump : dump (padTo bufSize xs) xs.length 0 = .ok (text 0 xs) :=
    dump_eq rfl (by rw [List.drop_zero, padTo]; apply List.prefix_append)
  rw [display, hdump, ok_bind, displayIp_eq hbuf, ok_bind, displayIcmp_eq hbuf, ok_bind, printed, pure_eq_ok]

theorem receive_eq (hbuf : buf.length = bufSize) (r : Received)
    : receive pid buf r = .ok (padTo bufSize (kept r), shown pid (kept r)) := by
  obtain ⟨bytes, hrecv, hpos, hbytes⟩ := recvfrom_kept r
  simp only [receive, memset_buf hbuf, ok_bind, hrecv, shown]
  by_cases h : kept r = []
  . rw [if_neg (mt hpos.mp (not_not.mpr h)), if_pos h, pure_eq_ok]
  . rw [if_pos (hpos.mpr h), if_neg h, hbytes h, display_eq (kept_length_le r), ok_bind, pure_eq_ok]

/--
The next messages, where nothing arrives after the last one.
-/
def nextKept (rounds : Nat) (arrivals : List Received) : List Bytes :=
  (List.range rounds).map fun k => kept (arrivals.getD k .failed)

theorem nextKept_succ (rounds : Nat) (arrivals : List Received)
    : nextKept (rounds + 1) arrivals
        = kept (arrivals.headD .failed) :: nextKept rounds arrivals.tail := by
  rw [nextKept, List.range_succ_eq_map, List.map_cons, List.map_map, nextKept]
  cases arrivals with
  | nil => simp [Function.comp_def]
  | cons r arrivals => rfl

theorem receiveAll_eq (hbuf : buf.length = bufSize) (rounds : Nat) (arrivals : List Received)
    : receiveAll pid buf rounds arrivals = .ok ((nextKept rounds arrivals).map (shown pid)) := by
  induction rounds generalizing buf arrivals with
  | zero => rfl
  | succ rounds ih =>
    simp only [receiveAll, receive_eq hbuf, ok_bind, ih (padTo_length (kept_length_le _)), nextKept_succ,
      List.map_cons, pure_eq_ok]

theorem shown_inj : Function.Injective (shown pid) := by
  intro xs ys h
  unfold shown at h
  split at h
  . next hxs =>
    split at h
    . next hys => rw [hxs, hys]
    . cases h
  . split at h
    . cases h
    . exact text_inj (Shown.mk.inj (Option.some.inj h)).1

theorem map_shown_eq_iff {rounds : Nat} {arrivals' : List Received}
    : (nextKept rounds arrivals).map (shown pid) = (nextKept rounds arrivals').map (shown pid)
      ↔ ∀ k < rounds, kept (arrivals.getD k .failed) = kept (arrivals'.getD k .failed) := by
  rw [(List.map_injective_iff.mpr shown_inj).eq_iff, nextKept, nextKept, List.map_inj_left]
  simp only [List.mem_range]

end Listener

section Ping

def Output.packet : Output → Option Bytes
  | .gotMessage => none
  | .sent pckt => some pckt

theorem recvPacket_length (h : pckt.length = packetSize) (r : Received)
    : ∃ pckt' bytes, recvPacket pckt r = .ok (pckt', bytes) ∧ pckt'.length = packetSize := by
  cases r with
  | datagram d =>
    have hlen : (d.take packetSize).length ≤ pckt.length := by
      rw [List.length_take, h]
      omega
    have hcopy := memcpy_append (b := []) (a := pckt.take (d.take packetSize).length)
      (t := pckt.drop (d.take packetSize).length) (s := d.take packetSize) (by simp; omega)
    rw [List.nil_append, List.take_append_drop, List.length_nil] at hcopy
    refine ⟨_, _, by rw [recvPacket, hcopy, ok_bind, pure_eq_ok], ?_⟩
    simp
    omega
  | failed => exact ⟨pckt, -1, rfl, h⟩

/--
Nothing of what is in the packet before survives in the request.
-/
theorem request_eq (h : pckt.length = packetSize) : request pid cnt pckt = Ping.request pid cnt := by
  have hmemset : memset pckt 0 packetSize = .ok (zeros packetSize) := by
    rw [memset_zero_of_le h.ge, ← h, List.drop_length, List.append_nil]
  rw [request, hmemset, ok_bind]
  rfl

theorem request_length {p : Bytes} (h : Ping.request pid cnt = .ok p) : p.length = packetSize := by
  obtain ⟨p', hp', ⟨c, d, rfl⟩, -⟩ := Ping.request_eq pid cnt
  cases h.symm.trans hp'
  simp [echo_length, packetSize]

theorem requests_sent (cnt : Nat) (h : pckt.length = packetSize) (rounds : Nat) (arrivals : List Received)
    : ∃ out pckts, requests pid cnt pckt rounds arrivals = .ok out
        ∧ Ping.requests pid cnt rounds = .ok pckts ∧ out.filterMap Output.packet = pckts := by
  induction rounds generalizing cnt pckt arrivals with
  | zero => exact ⟨[], [], rfl, rfl, rfl⟩
  | succ rounds ih =>
    obtain ⟨pckt', bytes, hrecv, hlen⟩ := recvPacket_length h (arrivals.headD .failed)
    obtain ⟨p, hp, -⟩ := Ping.request_eq pid cnt
    obtain ⟨out, pckts, hout, hpckts, hsent⟩ := ih (cnt + 1) (request_length hp) arrivals.tail
    refine ⟨(if 0 < bytes then [.gotMessage] else []) ++ .sent p :: out, p :: pckts, ?_, ?_, ?_⟩
    . simp only [requests, hrecv, ok_bind, request_eq hlen, hp, hout, pure_eq_ok]
    . rw [Ping.requests, hp, ok_bind, hpckts, ok_bind, pure_eq_ok]
    . split <;> simp [List.filterMap_cons, Output.packet, hsent]

end Ping

section Main

/--
What the program finds in its memory: the packet at the start of each call of `ping`, and the buffer.
-/
structure Memory where
  first : Bytes
  second : Bytes
  buf : Bytes
  first_length : first.length = packetSize
  second_length : second.length = packetSize
  buf_length : buf.length = bufSize

/--
Two runs send the same requests, twice those of sequence number 1 to 4, whatever they receive meanwhile,
and show the same exactly if the listeners have received the same.
-/
theorem main_shows (pid : Int) (m m' : Memory)
    (first second arrivals first' second' arrivals' : List Received)
    : ∃ pckts out out' seen seen', Ping.requests pid 1 4 = .ok pckts
        ∧ main pid m.first m.second m.buf first second arrivals = .ok (out, seen)
        ∧ main pid m'.first m'.second m'.buf first' second' arrivals' = .ok (out', seen')
        ∧ out.filterMap Output.packet = pckts ++ pckts
        ∧ out'.filterMap Output.packet = pckts ++ pckts
        ∧ (seen = seen' ↔ ∀ k < 4, kept (arrivals.getD k .failed) = kept (arrivals'.getD k .failed)) := by
  have hmain : ∀ (m : Memory) (first second arrivals : List Received), ∃ pckts out,
      Ping.requests pid 1 4 = .ok pckts
        ∧ main pid m.first m.second m.buf first second arrivals
          = .ok (out, (nextKept 4 arrivals).map (shown pid))
        ∧ out.filterMap Output.packet = pckts ++ pckts := by
    intro m first second arrivals
    obtain ⟨out₁, pckts, hout₁, hpckts, hsent₁⟩ := requests_sent 1 m.first_length 4 first
    obtain ⟨out₂, pckts₂, hout₂, hpckts₂, hsent₂⟩ := requests_sent 1 m.second_length 4 second
    cases hpckts.symm.trans hpckts₂
    refine ⟨pckts, out₁ ++ out₂, hpckts, ?_, by rw [List.filterMap_append, hsent₁, hsent₂]⟩
    simp only [main, ping, pingAttempts, hout₁, hout₂, listener, receiveAll_eq m.buf_length, ok_bind, pure_eq_ok]
  obtain ⟨pckts, out, hpckts, hout, hsent⟩ := hmain m first second arrivals
  obtain ⟨pckts', out', hpckts', hout', hsent'⟩ := hmain m' first' second' arrivals'
  cases hpckts.symm.trans hpckts'
  exact ⟨pckts, out, out', _, _, hpckts, hout, hout', hsent, hsent', map_shown_eq_iff⟩

end Main

end PingSynchronous
