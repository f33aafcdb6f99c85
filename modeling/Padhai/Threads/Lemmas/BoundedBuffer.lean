import Padhai.Threads.Lemmas.ProdConsumer

/-!
This module contains in which runs of the producer/consumer program the log is one of a bounded
buffer. A slot holds an item as long as the last access to it was a production.
-/

namespace ProdConsumer

open Threads

variable {np nc : Nat} {s t : State np nc} {p : Fin np} {c : Fin nc} {log old new : List (Event np nc)}
  {j x y : Int}

namespace Event

def slot : Event np nc → Int
  | .produced _ j _ => j
  | .consumed _ j _ => j

def thread : Event np nc → Action np nc
  | .produced p _ _ => .producer p
  | .consumed c _ _ => .consumer c

def isProduced : Event np nc → Bool
  | .produced _ _ _ => true
  | .consumed _ _ _ => false

end Event

section BoundedBuffer

def productions (log : List (Event np nc)) : Nat :=
  log.countP (·.isProduced)

def consumptions (log : List (Event np nc)) : Nat :=
  log.countP (!·.isProduced)

def Holds (log : List (Event np nc)) (j x : Int) : Prop :=
  ∃ p, (log.filter (·.slot = j)).getLast? = some (.produced p j x)

structure BoundedBuffer (log : List (Event np nc)) : Prop where
  consumed_le : consumptions log ≤ productions log
  stored_le : (productions log : Int) ≤ consumptions log + bufLen
  inBuffer : ∀ e ∈ log, 0 ≤ e.slot ∧ e.slot < bufLen
  keeps : ∀ old p j x new, log = old ++ .produced p j x :: new → ∀ y, ¬Holds old j y
  takes : ∀ old c j x new, log = old ++ .consumed c j x :: new → Holds old j x

def NoneConsumed (log : List (Event np nc)) : Prop :=
  ∀ e ∈ log, e.isProduced

theorem holds_of_mem {e : Event np nc} (hnone : NoneConsumed log) (he : e ∈ log) : ∃ y, Holds log e.slot y := by
  have hmem : e ∈ log.filter (·.slot = e.slot) := by
    simpa using he
  obtain ⟨e', he'⟩ := Option.isSome_iff_exists.mp
    (List.getLast?_isSome.mpr (List.ne_nil_of_mem hmem))
  have := List.mem_of_getLast? he'
  rw [List.mem_filter, decide_eq_true_eq] at this
  obtain ⟨hlog, hslot⟩ := this
  cases e' with
  | produced p j x =>
    obtain rfl : j = e.slot := hslot
    exact ⟨x, p, he'⟩
  | consumed c j x => exact absurd (hnone _ hlog) (by simp [Event.isProduced])

theorem BoundedBuffer.slots_distinct (h : BoundedBuffer log) (hnone : NoneConsumed log)
    {e e' : Event np nc} (he : e ∈ log) (he' : e' ∈ log) (hslot : e.slot = e'.slot) : e = e' := by
  -- The later one of two productions into a slot would overwrite what the earlier one put there.
  have hlater : ∀ e e' old new, log = old ++ e' :: new → e ∈ old → e.slot ≠ e'.slot := by
    intro e e' old new hlog he hslot
    have hold : NoneConsumed old := fun f hf => hnone f (by simp [hlog, hf])
    obtain ⟨y, hy⟩ := holds_of_mem hold he
    cases e' with
    | produced p j x =>
      rw [hslot] at hy
      exact h.keeps old p j x new hlog y hy
    | consumed c j x =>
      exact absurd (hnone (.consumed c j x) (by simp [hlog])) (by simp [Event.isProduced])
  obtain ⟨old, new, hlog⟩ := List.append_of_mem he
  have hcases := he'
  rw [hlog] at hcases
  rcases List.mem_append.mp hcases with hmem | hmem
  . exact absurd hslot.symm (hlater e' e old new hlog hmem)
  . rcases List.mem_cons.mp hmem with rfl | hmem
    . rfl
    . obtain ⟨u, v, rfl⟩ := List.append_of_mem hmem
      exact absurd hslot (hlater e e' (old ++ e :: u) v (by simp [hlog]) (by simp))

end BoundedBuffer

section Records

def Thread.written (t : Thread) : Nat :=
  (t.i + if t.point = .post then 1 else 0).toNat

def Thread.taken (t : Thread) : Nat :=
  (5 - t.i + if t.point = .post then 1 else 0).toNat

/--
Each produce thread has written the slots from 0 on and each consume thread the slots from 5 down.
-/
structure Records (s : State np nc) : Prop where
  produced : ∀ p, s.log.filter (·.thread = .producer p)
    = (List.range (s.producer p).written).map fun k => .produced p k k
  consumed : ∀ c, s.log.filter (·.thread = .consumer c)
    = (List.range (s.consumer c).taken).map fun k => .consumed c (5 - k) (5 - k)

theorem records_main : Records (main np nc) := by
  constructor
  . intro p
    simp [main, Thread.written]
  . intro c
    simp [main, Thread.taken]

theorem Records.of_silent (hs : Records s) (hlog : t.log = s.log)
    (hp : ∀ p, (t.producer p).written = (s.producer p).written)
    (hc : ∀ c, (t.consumer c).taken = (s.consumer c).taken) : Records t := by
  constructor
  . intro p
    rw [hlog, hp, hs.produced]
  . intro c
    rw [hlog, hc, hs.consumed]

theorem forall_update_eq {n : Nat} {f : Fin n → Thread} {g : Thread → Nat} {i : Fin n} {v : Thread}
    (h : g v = g (f i)) : ∀ j, g (Function.update f i v j) = g (f j) := by
  intro j
  rw [Function.update_apply]
  split
  . next hj => rw [hj, h]
  . rfl

theorem filter_append_self {e : Event np nc} {a : Action np nc} {f : Nat → Event np nc} {n : Nat}
    (h : log.filter (·.thread = a) = (List.range n).map f) (ha : e.thread = a) (he : f n = e)
    : (log ++ [e]).filter (·.thread = a) = (List.range (n + 1)).map f := by
  rw [List.filter_append, h, List.range_succ, List.map_append, List.map_singleton, he]
  simp [ha]

theorem filter_append_of_ne {e : Event np nc} {a : Action np nc} (h : e.thread ≠ a)
    : (log ++ [e]).filter (·.thread = a) = log.filter (·.thread = a) := by
  simp [List.filter_append, h]

theorem Records.produce (hs : Records s) (hcounts : Counts s) (h : produce s p = some t) : Records t := by
  rcases produce_cases h with ⟨i, n, hi, -, -, rfl⟩ | ⟨i, hi, rfl⟩ | ⟨i, hi, rfl⟩
  . refine hs.of_silent rfl (forall_update_eq ?_) fun _ => rfl
    simp [hi, Thread.written]
  . have hpos := (hcounts.producer p).1
    rw [hi] at hpos
    dsimp only at hpos
    constructor
    . intro q
      dsimp only
      by_cases hq : q = p
      . subst hq
        have hbefore := hs.produced q
        rw [hi] at hbefore
        have hafter : (⟨i, .post⟩ : Thread).written = (⟨i, .critical⟩ : Thread).written + 1 := by
          simp only [Thread.written, reduceCtorEq, ↓reduceIte]
          omega
        rw [Function.update_self, hafter]
        apply filter_append_self hbefore rfl
        simp [Thread.written, Int.toNat_of_nonneg hpos]
      . rw [filter_append_of_ne (by simp [Event.thread, Ne.symm hq]), hs.produced,
          Function.update_of_ne hq]
    . intro c
      rw [filter_append_of_ne (by simp [Event.thread]), hs.consumed]
  . refine hs.of_silent rfl (forall_update_eq ?_) fun _ => rfl
    simp [hi, Thread.written]

theorem Records.consume (hs : Records s) (hcounts : Counts s) (h : consume s c = some t) : Records t := by
  rcases consume_cases h with ⟨i, n, hi, -, -, rfl⟩ | ⟨i, hi, rfl⟩ | ⟨i, hi, rfl⟩
  . refine hs.of_silent rfl (fun _ => rfl) (forall_update_eq ?_)
    simp [hi, Thread.taken]
  . have hle := (hcounts.consumer c).1
    rw [hi] at hle
    dsimp only at hle
    constructor
    . intro p
      rw [filter_append_of_ne (by simp [Event.thread]), hs.produced]
    . intro d
      dsimp only
      by_cases hd : d = c
      . subst hd
        have hbefore := hs.consumed d
        rw [hi] at hbefore
        have hafter : (⟨i, .post⟩ : Thread).taken = (⟨i, .critical⟩ : Thread).taken + 1 := by
          simp only [Thread.taken, reduceCtorEq, ↓reduceIte]
          omega
        have hindex : 5 - ((⟨i, .critical⟩ : Thread).taken : Int) = i := by
          simp only [Thread.taken, reduceCtorEq, ↓reduceIte]
          omega
        rw [Function.update_self, hafter]
        apply filter_append_self hbefore rfl
        rw [hindex]
      . rw [filter_append_of_ne (by simp [Event.thread, Ne.symm hd]), hs.consumed,
          Function.update_of_ne hd]
  . refine hs.of_silent rfl (fun _ => rfl) (forall_update_eq ?_)
    rw [hi]
    simp only [Thread.taken, reduceCtorEq, ↓reduceIte]
    omega

theorem records_of_reachable (h : Reachable step Anything (main np nc) s) : Records s ∧ Counts s := by
  apply h.invariant ⟨records_main, counts_main⟩
  rintro s a t ⟨hs, hcounts⟩ _ ha
  cases a with
  | producer p => exact ⟨hs.produce hcounts ha, hcounts.produce ha⟩
  | consumer c => exact ⟨hs.consume hcounts ha, hcounts.consume ha⟩

theorem first_mem {e : Event np nc} {a : Action np nc} {f : Nat → Event np nc} {n : Nat}
    (h : log.filter (·.thread = a) = (List.range n).map f) (he : e ∈ log) (ha : e.thread = a) : f 0 ∈ log := by
  have hmem : e ∈ log.filter (·.thread = a) := by
    simpa [ha] using he
  rw [h, List.mem_map] at hmem
  obtain ⟨k, hk, -⟩ := hmem
  have hfirst : f 0 ∈ log.filter (·.thread = a) := by
    rw [h]
    exact List.mem_map_of_mem (List.mem_range.mpr (Nat.zero_lt_of_lt (List.mem_range.mp hk)))
  exact List.mem_of_mem_filter hfirst

theorem Records.first_produced (hs : Records s) (h : .produced p j x ∈ s.log) : .produced p 0 0 ∈ s.log :=
  first_mem (hs.produced p) h rfl

theorem Records.first_consumed (hs : Records s) (h : .consumed c j x ∈ s.log) : .consumed c 5 5 ∈ s.log :=
  first_mem (hs.consumed c) h rfl

end Records

section Iff

theorem noneConsumed_of_boundedBuffer (hs : Records s) (h : BoundedBuffer s.log) : NoneConsumed s.log := by
  intro e he
  cases e with
  | produced p j x => rfl
  | consumed c j x =>
    -- The first index of a consume thread is outside the buffer.
    have := (h.inBuffer _ (hs.first_consumed he)).2
    simp [Event.slot] at this

theorem thread_eq_of_boundedBuffer (hs : Records s) (h : BoundedBuffer s.log) {e e' : Event np nc}
    (he : e ∈ s.log) (he' : e' ∈ s.log) : e.thread = e'.thread := by
  have hnone := noneConsumed_of_boundedBuffer hs h
  cases e with
  | consumed c j x => exact absurd (hnone _ he) (by simp [Event.isProduced])
  | produced p j x =>
    cases e' with
    | consumed c j x => exact absurd (hnone _ he') (by simp [Event.isProduced])
    | produced p' j' x' =>
      have := h.slots_distinct hnone (hs.first_produced he) (hs.first_produced he') rfl
      cases this
      rfl

theorem Holds.exists_mem (h : Holds log j y) : ∃ e ∈ log, e.slot = j := by
  obtain ⟨p, hlast⟩ := h
  have := List.mem_of_getLast? hlast
  rw [List.mem_filter] at this
  exact ⟨_, this.1, rfl⟩

theorem boundedBuffer_of_noneConsumed (hnone : NoneConsumed log) (hlen : log.length ≤ 5)
    (hin : ∀ e ∈ log, 0 ≤ e.slot ∧ e.slot < 5) (hslots : (log.map Event.slot).Nodup)
    : BoundedBuffer log := by
  have hproductions : productions log = log.length :=
    List.countP_eq_length.mpr hnone
  have hconsumptions : consumptions log = 0 := by
    rw [consumptions, List.countP_eq_zero]
    intro e he
    simp [hnone e he]
  refine ⟨?_, ?_, hin, ?_, ?_⟩
  . omega
  . simp only [bufLen]
    omega
  . intro old p j x new hlog y hy
    obtain ⟨e, he, hslot⟩ := hy.exists_mem
    rw [hlog, List.map_append, List.map_cons, List.nodup_append] at hslots
    exact hslots.2.2 j (hslot ▸ List.mem_map_of_mem he) j (by simp [Event.slot]) rfl
  . intro old c j x new hlog
    exact absurd (hnone (.consumed c j x) (by simp [hlog])) (by simp [Event.isProduced])

theorem consumer_of_noneConsumed (hs : Records s) (hnone : NoneConsumed s.log) (c : Fin nc)
    : 5 - (s.consumer c).i ≤ 0 := by
  have hfilter : s.log.filter (·.thread = .consumer c) = [] := by
    rw [List.filter_eq_nil_iff]
    intro e he hthread
    cases e with
    | produced p j x => simp [Event.thread] at hthread
    | consumed c j x => exact absurd (hnone _ he) (by simp [Event.isProduced])
  have := hs.consumed c
  rw [hfilter, eq_comm, List.map_eq_nil_iff, List.range_eq_nil, Thread.taken] at this
  split at this
  . omega
  . omega

theorem written_le_of_noneConsumed (hs : Records s) (hcounts : Counts s) (hnone : NoneConsumed s.log)
    (p : Fin np) : (s.producer p).written ≤ 5 := by
  have hwaits : ∀ p, 0 ≤ (s.producer p).i + (s.producer p).inside := by
    intro p
    have := (hcounts.producer p).1
    unfold Thread.inside
    split
    . omega
    . omega
  have hposts := Finset.sum_nonpos fun c (_ : c ∈ Finset.univ) => consumer_of_noneConsumed hs hnone c
  have hsingle := Finset.single_le_sum (fun p _ => hwaits p) (Finset.mem_univ p)
  have hempty := hcounts.empty
  have hle : (s.producer p).i + (s.producer p).inside ≤ 5 := by
    omega
  unfold Thread.inside at hle
  unfold Thread.written
  cases hpoint : (s.producer p).point
  all_goals
    simp only [hpoint, reduceCtorEq, ↓reduceIte] at hle ⊢
    omega

structure OneProducer (log : List (Event np nc)) : Prop where
  noneConsumed : NoneConsumed log
  thread_eq : ∀ e ∈ log, ∀ e' ∈ log, e.thread = e'.thread

theorem boundedBuffer_of_oneProducer (hs : Records s) (hcounts : Counts s) (h : OneProducer s.log)
    : BoundedBuffer s.log := by
  obtain ⟨hnone, hthread⟩ := h
  rcases hlog : s.log with _ | ⟨e, es⟩
  . exact boundedBuffer_of_noneConsumed (by simp [NoneConsumed]) (by simp) (by simp) (by simp)
  . cases e with
    | consumed c j x => exact absurd (hnone (.consumed c j x) (by simp [hlog])) (by simp [Event.isProduced])
    | produced p j x =>
      have hw := written_le_of_noneConsumed hs hcounts hnone p
      have hall : s.log.filter (·.thread = .producer p) = s.log := by
        rw [List.filter_eq_self]
        intro e he
        exact decide_eq_true (hthread e he (.produced p j x) (by simp [hlog]))
      rw [hs.produced] at hall
      rw [← hlog]
      refine boundedBuffer_of_noneConsumed hnone ?_ ?_ ?_
      . simpa [← hall] using hw
      . intro e he
        rw [← hall, List.mem_map] at he
        obtain ⟨k, hk, rfl⟩ := he
        rw [List.mem_range] at hk
        simp only [Event.slot]
        omega
      . rw [← hall, List.map_map]
        exact List.nodup_range.map Int.ofNat_injective

theorem boundedBuffer_iff_oneProducer (hs : Records s) (hcounts : Counts s)
    : BoundedBuffer s.log ↔ OneProducer s.log := by
  constructor
  . intro h
    exact ⟨noneConsumed_of_boundedBuffer hs h, fun e he e' he' => thread_eq_of_boundedBuffer hs h he he'⟩
  . exact boundedBuffer_of_oneProducer hs hcounts

end Iff

section Alone

/--
No thread enters its section under the mutex except a produce thread that is the only one to have
been there.
-/
def Alone (s : State np nc) : Action np nc → Prop
  | .producer p => (s.producer p).point = .critical → ∀ e ∈ s.log, e.thread = .producer p
  | .consumer c => (s.consumer c).point ≠ .critical

theorem OneProducer.step {a : Action np nc} (hs : OneProducer s.log) (ha : Alone s a)
    (h : step s a = some t) : OneProducer t.log := by
  cases a with
  | producer p =>
    rcases produce_cases h with ⟨i, n, hi, -, -, rfl⟩ | ⟨i, hi, rfl⟩ | ⟨i, hi, rfl⟩
    . exact hs
    . have hthread : ∀ e ∈ s.log ++ [.produced p i i], e.thread = .producer p := by
        intro e he
        rcases List.mem_append.mp he with he | he
        . exact ha (by rw [hi]) e he
        . rw [List.mem_singleton.mp he]
          rfl
      constructor
      . intro e he
        rcases List.mem_append.mp he with he | he
        . exact hs.noneConsumed e he
        . rw [List.mem_singleton.mp he]
          rfl
      . intro e he e' he'
        rw [hthread e he, hthread e' he']
    . exact hs
  | consumer c =>
    rcases consume_cases h with ⟨i, n, hi, -, -, rfl⟩ | ⟨i, hi, rfl⟩ | ⟨i, hi, rfl⟩
    . exact hs
    . exact absurd (by rw [hi]) ha
    . exact hs

theorem OneProducer.of_step {a : Action np nc} (ht : OneProducer t.log) (h : ProdConsumer.step s a = some t)
    : OneProducer s.log ∧ Alone s a := by
  have hsub : ∀ e, t.log = s.log ++ [e] → OneProducer s.log := fun e hlog =>
    ⟨fun f hf => ht.noneConsumed f (by simp [hlog, hf]),
      fun f hf f' hf' => ht.thread_eq f (by simp [hlog, hf]) f' (by simp [hlog, hf'])⟩
  cases a with
  | producer p =>
    rcases produce_cases h with ⟨i, n, hi, -, -, rfl⟩ | ⟨i, hi, rfl⟩ | ⟨i, hi, rfl⟩
    . exact ⟨ht, by simp [Alone, hi]⟩
    . refine ⟨hsub _ rfl, fun _ e he => ?_⟩
      exact ht.thread_eq e (by simp [he]) (.produced p i i) (by simp)
    . exact ⟨ht, by simp [Alone, hi]⟩
  | consumer c =>
    rcases consume_cases h with ⟨i, n, hi, -, -, rfl⟩ | ⟨i, hi, rfl⟩ | ⟨i, hi, rfl⟩
    . exact ⟨ht, by simp [Alone, hi]⟩
    . exact absurd (ht.noneConsumed (.consumed c i i) (by simp)) (by simp [Event.isProduced])
    . exact ⟨ht, by simp [Alone, hi]⟩

theorem reachable_alone_iff (h : Reachable step Anything (main np nc) s)
    : Reachable step Alone (main np nc) s ↔ OneProducer s.log := by
  constructor
  . intro halone
    apply halone.invariant (I := fun s => OneProducer s.log) ⟨by simp [main, NoneConsumed], by simp [main]⟩
    intro s a t hs ha hstep
    exact hs.step ha hstep
  . intro hone
    induction h with
    | refl => exact .refl
    | tail _ hnext ih =>
      obtain ⟨a, -, ha⟩ := hnext
      obtain ⟨hbefore, halone⟩ := hone.of_step ha
      exact (ih hbefore).tail ⟨a, halone, ha⟩

theorem boundedBuffer_iff (s : State np nc) (h : Reachable step Anything (main np nc) s)
    : BoundedBuffer s.log ↔ Reachable step Alone (main np nc) s := by
  obtain ⟨hs, hcounts⟩ := records_of_reachable h
  rw [boundedBuffer_iff_oneProducer hs hcounts, reachable_alone_iff h]

theorem boundedBuffer_iff_firstItem
    : ∃ s, schedule step [.producer 0, .producer 0] (main 1 1) = some s
      ∧ (BoundedBuffer s.log ↔ Reachable step Alone (main 1 1) s) :=
  ⟨_, rfl, boundedBuffer_iff _
    (reachable_of_schedule [.producer 0, .producer 0] (fun _ _ _ => trivial) rfl)⟩

theorem not_boundedBuffer_consumeFirst
    : ∃ s, Reachable step Anything (main 1 1) s ∧ s.log = [.consumed 0 5 5] ∧ ¬BoundedBuffer s.log :=
  ⟨_, reachable_of_schedule [.consumer 0, .consumer 0] (fun _ _ _ => trivial) rfl, rfl,
    fun h => absurd h.consumed_le (by decide)⟩

end Alone

end ProdConsumer
