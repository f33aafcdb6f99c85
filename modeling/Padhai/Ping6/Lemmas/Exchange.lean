import Padhai.Ping6.Lemmas.Frame

/-!
This module contains the runs of the send loop and of the receive loop of `ping6_ll.c`: what they are once the
frames that are no echo replies and the interrupted calls are taken away.
-/

namespace Ping6

open Mem Threads

variable {s t u : State} {i : Input} {is : List Input} {es : List Event} {k : Nat} {d : Bytes}

section Protocol

inductive Event where
  | sent
  | timedOut
  | replied (d : Bytes)
  | sendFailed
  | recvFailed
  deriving DecidableEq

/--
What a call amounts to, if it is not one after which the program goes on listening.
-/
def Input.event? : Input → Option Event
  | .sendto bytes => if bytes ≤ 0 then some .sendFailed else some .sent
  | .frame d => if IsEchoReply d then some (.replied d) else none
  | .eagain => some .timedOut
  | .eintr => none
  | .failed => some .recvFailed

def replyLine (d : Bytes) : Line :=
  .reply ((d.drop 22).take 16) (min d.length ipMaxpacket)

def tries (k : Nat) : List Event :=
  (List.replicate k [.sent, .timedOut]).flatten

def noReplies (k : Nat) : List Line :=
  List.replicate k (.noReply timeout)

/--
The exchanges with the remote host: at most `trylim` requests, each after the time for the one before has run out,
and a reply, an error or the last timeout at the end.
-/
inductive Exchange : List Event → State → Prop where
  | send {k : Nat} (hk : k < trylim)
    : Exchange (tries k) { phase := .send, trycount := k, output := noReplies k }
  | receive {k : Nat} (hk : k < trylim)
    : Exchange (tries k ++ [.sent]) { phase := .receive, trycount := k, output := noReplies k }
  | replied {k : Nat} {d : Bytes} (hk : k < trylim) (hd : IsEchoReply d)
    : Exchange (tries k ++ [.sent] ++ [.replied d])
        { phase := .closed, trycount := k, output := noReplies k ++ [replyLine d] }
  | gaveUp
    : Exchange (tries trylim)
        { phase := .closed, trycount := trylim, output := noReplies trylim ++ [.gaveUp trylim] }
  | sendFailed {k : Nat} (hk : k < trylim)
    : Exchange (tries k ++ [.sendFailed])
        { phase := .exited, trycount := k, output := noReplies k ++ [.perror "sendto() failed "] }
  | recvFailed {k : Nat} (hk : k < trylim)
    : Exchange (tries k ++ [.sent] ++ [.recvFailed])
        { phase := .exited, trycount := k, output := noReplies k ++ [.perror "recvfrom() failed "] }

theorem trylim_pos : 0 < trylim := by
  decide

theorem tries_succ : tries (k + 1) = tries k ++ [.sent] ++ [.timedOut] := by
  simp [tries, List.replicate_succ']

theorem noReplies_succ : noReplies (k + 1) = noReplies k ++ [.noReply timeout] := by
  simp [noReplies, List.replicate_succ']

end Protocol

section Steps

theorem received_of_echoReply (hd : IsEchoReply d)
    : s.received d = { s with phase := .closed, output := s.output ++ [replyLine d] } := by
  rw [State.received, receive_eq, if_pos hd, replyLine]

theorem received_of_not (hd : ¬IsEchoReply d) : s.received d = s := by
  rw [State.received, receive_eq, if_neg hd]

/--
A call after which the program goes on listening changes nothing.
-/
theorem step_noise (hi : i.event? = none) : step s i = if s.phase = .receive then some s else none := by
  cases i with
  | sendto bytes =>
    rw [Input.event?] at hi
    split at hi
    . contradiction
    . contradiction
  | frame d =>
    have hd : ¬IsEchoReply d := by
      intro hd
      rw [Input.event?, if_pos hd] at hi
      contradiction
    rw [step, received_of_not hd]
  | eagain => contradiction
  | eintr => rfl
  | failed => contradiction

theorem Exchange.step_send (hk : k < trylim) {output : List Line} (houtput : output = noReplies k)
    (h : step { phase := .send, trycount := k, output } i = some t)
    : Exchange (tries k ++ [i].filterMap Input.event?) t := by
  subst houtput
  cases i with
  | sendto bytes =>
    rw [step, if_neg (by simp)] at h
    split at h
    . next hle =>
      cases h
      have hevent : [Input.sendto bytes].filterMap Input.event? = [.sendFailed] := by simp [Input.event?, hle]
      rw [hevent]
      exact .sendFailed hk
    . next hle =>
      cases h
      have hevent : [Input.sendto bytes].filterMap Input.event? = [.sent] := by simp [Input.event?, hle]
      rw [hevent]
      exact .receive hk
  | frame | eagain | eintr | failed => contradiction

theorem Exchange.step_receive (hk : k < trylim) {output : List Line} (houtput : output = noReplies k)
    (h : step { phase := .receive, trycount := k, output } i = some t)
    : Exchange (tries k ++ [.sent] ++ [i].filterMap Input.event?) t := by
  subst houtput
  cases i with
  | sendto bytes => simp [step] at h
  | frame d =>
    by_cases hd : IsEchoReply d
    . rw [step, received_of_echoReply hd] at h
      cases h
      simpa [Input.event?, hd] using Exchange.replied hk hd
    . rw [step, received_of_not hd] at h
      cases h
      simpa [Input.event?, hd] using Exchange.receive hk
  | eagain =>
    cases h
    have hevents : tries k ++ [Event.sent] ++ [Input.eagain].filterMap Input.event? = tries (k + 1) := by
      rw [tries_succ]
      rfl
    rw [hevents, State.timedOut]
    dsimp only
    rw [← noReplies_succ]
    split
    . next hlast =>
      rw [hlast]
      exact .gaveUp
    . exact .send (by omega)
  | eintr =>
    cases h
    rw [List.filterMap_cons_none rfl, List.filterMap_nil, List.append_nil]
    exact .receive hk
  | failed =>
    cases h
    exact .recvFailed hk

theorem step_of_phase (hsend : s.phase ≠ .send) (hreceive : s.phase ≠ .receive) : step s i = none := by
  cases i with
  | sendto => simp [step, hsend]
  | frame | eagain | eintr | failed => simp [step, hreceive]

theorem Exchange.step (hs : Exchange es s) (h : step s i = some t)
    : Exchange (es ++ [i].filterMap Input.event?) t := by
  have hstop : s.phase = .send ∨ s.phase = .receive := by
    by_contra hphase
    rw [step_of_phase (fun h => hphase (.inl h)) (fun h => hphase (.inr h))] at h
    contradiction
  cases hs with
  | send hk => exact step_send hk rfl h
  | receive hk => exact step_receive hk rfl h
  | replied | gaveUp | sendFailed | recvFailed => simp at hstop

end Steps

section Runs

theorem exchange_of_schedule (h : schedule step is main = some s) : Exchange (is.filterMap Input.event?) s := by
  apply schedule_invariant (A := fun _ => True) (R := fun is s => Exchange (is.filterMap Input.event?) s) ?_ ?_
    (fun _ _ => trivial) h
  . exact .send trylim_pos
  . intro is u i t hu _ hi
    rw [List.filterMap_append]
    exact hu.step hi

/--
Calls for an event.
-/
def Event.input : Event → Input
  | .sent => .sendto 1
  | .timedOut => .eagain
  | .replied d => .frame d
  | .sendFailed => .sendto 0
  | .recvFailed => .failed

theorem schedule_tries (hk : k < trylim)
    : schedule step ((tries k).map Event.input) main
      = some { phase := .send, trycount := k, output := noReplies k } := by
  induction k with
  | zero => rfl
  | succ k ih =>
    rw [tries_succ, List.map_append, List.map_append, schedule_append, schedule_append, ih (by omega),
      noReplies_succ]
    have hne : k + 1 ≠ trylim := by omega
    simp [schedule, step, Event.input, State.timedOut, hne]

theorem schedule_sent (hk : k < trylim)
    : schedule step ((tries k ++ [Event.sent]).map Event.input) main
      = some { phase := .receive, trycount := k, output := noReplies k } := by
  rw [List.map_append, schedule_append, schedule_tries hk]
  rfl

theorem schedule_of_exchange (h : Exchange es s) : schedule step (es.map Event.input) main = some s := by
  cases h with
  | send hk => exact schedule_tries hk
  | receive hk => exact schedule_sent hk
  | replied hk hd =>
    rw [List.map_append, schedule_append, schedule_sent hk]
    simp [schedule, step, Event.input, received_of_echoReply hd]
  | gaveUp =>
    have hlast : 2 < trylim := by decide
    have htries : tries trylim = tries 2 ++ [.sent] ++ [.timedOut] := tries_succ
    rw [htries, List.map_append, schedule_append, schedule_sent hlast]
    rfl
  | sendFailed hk =>
    rw [List.map_append, schedule_append, schedule_tries hk]
    rfl
  | recvFailed hk =>
    rw [List.map_append, schedule_append, schedule_sent hk]
    rfl

theorem replied_not_mem_tries : .replied d ∉ tries k := by
  simp [tries]

theorem Exchange.isEchoReply (h : Exchange es s) (hd : .replied d ∈ es) : IsEchoReply d := by
  cases h with
  | replied hk hd' =>
    simp only [List.mem_append, replied_not_mem_tries, List.mem_singleton, reduceCtorEq, Event.replied.injEq,
      false_or] at hd
    rwa [hd]
  | send | receive | gaveUp | sendFailed | recvFailed => simp [replied_not_mem_tries] at hd

theorem filterMap_input (hes : ∀ d, .replied d ∈ es → IsEchoReply d)
    : (es.map Event.input).filterMap Input.event? = es := by
  have hevent : ∀ e ∈ es, e.input.event? = some e := by
    intro e he
    cases e with
    | replied d => rw [Event.input, Input.event?, if_pos (hes d he)]
    | sent | timedOut | sendFailed | recvFailed => rfl
  rw [List.filterMap_map]
  calc es.filterMap (Input.event? ∘ Event.input) = es.filterMap some := List.filterMap_congr hevent
    _ = es := List.filterMap_some

theorem exchange_iff (es : List Event) (s : State)
    : (∃ is, schedule step is main = some s ∧ is.filterMap Input.event? = es) ↔ Exchange es s := by
  constructor
  . rintro ⟨is, h, rfl⟩
    exact exchange_of_schedule h
  . intro h
    exact ⟨es.map Event.input, schedule_of_exchange h, filterMap_input fun d => h.isEchoReply⟩

/--
Leaving out the calls that change nothing leads to the same state.
-/
theorem schedule_filter (h : schedule step is s = some t)
    : schedule step (is.filter fun i => i.event?.isSome) s = some t := by
  induction is generalizing s with
  | nil => exact h
  | cons i is ih =>
    obtain ⟨u, hu, hrest⟩ := Option.bind_eq_some_iff.mp h
    cases hi : i.event? with
    | none =>
      rw [step_noise hi] at hu
      split at hu
      . cases hu
        rw [List.filter_cons_of_neg (by simp [hi])]
        exact ih hrest
      . contradiction
    | some e =>
      rw [List.filter_cons_of_pos (by simp [hi]), schedule, hu]
      exact ih hrest

theorem schedule_noise {ns : List Input} (hs : s.phase = .receive) (hns : ∀ i ∈ ns, i.event? = none)
    : schedule step ns s = some s := by
  induction ns with
  | nil => rfl
  | cons i ns ih =>
    obtain ⟨hi, hns⟩ := List.forall_mem_cons.mp hns
    rw [schedule, step_noise hi, if_pos hs]
    exact ih hns

theorem count_sent_tries : (tries k).count .sent = k := by
  induction k with
  | zero => rfl
  | succ k ih => simp [tries_succ, ih]

theorem Exchange.count_sent_le (h : Exchange es s) : es.count .sent ≤ trylim := by
  cases h with
  | gaveUp => exact count_sent_tries.le
  | send hk | receive hk | replied hk | sendFailed hk | recvFailed hk =>
    simp [List.count_append, count_sent_tries]
    omega

theorem schedule_ignores_noise (is : List Input) (s : State) (h : schedule step is main = some s)
    : (schedule step (is.filter fun i => i.event?.isSome) main = some s)
      ∧ (is.filterMap Input.event?).count .sent ≤ trylim
      ∧ (s.phase = .receive → ∀ ns, (∀ i ∈ ns, i.event? = none) → schedule step (is ++ ns) main = some s) := by
  refine ⟨schedule_filter h, (exchange_of_schedule h).count_sent_le, ?_⟩
  intro hs ns hns
  rw [schedule_append, h]
  exact schedule_noise hs hns

def interrupted : List Input :=
  [.sendto 66, .eintr, .frame []]

theorem schedule_ignores_noise_interrupted
    : ∃ s, schedule step interrupted main = some s
      ∧ (schedule step (interrupted.filter fun i => i.event?.isSome) main = some s)
      ∧ (interrupted.filterMap Input.event?).count .sent ≤ trylim
      ∧ (s.phase = .receive → ∀ ns, (∀ i ∈ ns, i.event? = none)
        → schedule step (interrupted ++ ns) main = some s) := by
  have hempty : ¬IsEchoReply [] := by decide
  have hrun : schedule step interrupted main = some { phase := .receive, trycount := 0, output := [] } := by
    simp [interrupted, schedule, step, main, received_of_not hempty]
  exact ⟨_, hrun, schedule_ignores_noise interrupted _ hrun⟩

end Runs

end Ping6
