/-
**What is left to do once the engine is told to stop.**

`TradingAlgo/Shutdown.lean` says what becomes of the orders when all threads have ended; here it is
shown that they end.  After `is_running_` has been cleared a consumer is out of `run` within six
steps of its own, and when no consumer is in a round any more, the gateway is out of
`OrderGateway::run` within seven steps for every order that is still in the queue, and nineteen.
Both can always take their next step, whatever the others have done before.

A receive ends after a tenth of a second at the latest (`rcvtimeo`), which is the step that receives
nothing.

Main definitions:

* `Trading.Stopping.Live` — what the next steps need;
* `Trading.Stopping.consumerRank`, `Trading.Stopping.gatewayRank` — the steps that are left;
* `Trading.Stopping.Quiet` — the flag is cleared and no consumer is in a round.

Main results:

* `Trading.Stopping.Live.consumer_enabled`, `Trading.Stopping.Live.gateway_enabled` — a thread that
  has not ended can take a step;
* `Trading.Stopping.Inv.consumerRank_step`, `Trading.Stopping.Quiet.gatewayRank_step` — which brings
  it nearer to its end, and the steps of the others do not take it away from there.
-/

import TradingAlgo.QueueProgress
import TradingAlgo.Shutdown

set_option relaxedAutoImplicit false
set_option autoImplicit false

namespace Trading

/-! ### The queue -/

namespace Mpsc

variable {n : ℕ} {T : Type} {s t : State n T}

/-- All nodes are below some address, so that a free one is left. -/
def Bounded (s : State n T) : Prop := ∃ bound : ℕ, ∀ a : ℕ, bound ≤ a → s.heap a = none

theorem heap_free (s : State n T) (a : Addr) {x : Addr} (hx : s.heap x = none) :
    (free s a).heap x = none := by
  unfold free
  split_ifs
  · exact hx
  · split
    · exact hx
    · by_cases hxa : x = a
      · simp [hxa]
      · simpa [hxa] using hx

/-- The consumer allocates nothing. -/
theorem heap_consume (h : consume s = some t) {x : Addr} (hx : s.heap x = none) :
    t.heap x = none := by
  cases consumed_of_consume h with
  | deleted | deletedTail => exact heap_free s _ hx
  | _ => exact hx

theorem Bounded.step (h : Bounded s) {a : Action n T} (hstep : Mpsc.step s a = some t) :
    Bounded t := by
  obtain ⟨bound, hbound⟩ := h
  cases stepped_of_step hstep with
  | @allocated p value node hp hfree hd =>
      refine ⟨max bound (node + 1), fun a ha => ?_⟩
      have hne : a ≠ node := by omega
      simp only [Function.update_of_ne hne]
      exact hbound a (by omega)
  | @linked p node prevHead prev hp hprev =>
      refine ⟨bound, fun a ha => ?_⟩
      have hne : a ≠ prevHead := by
        rintro rfl
        rw [hbound a ha] at hprev
        cases hprev
      simp only [Function.update_of_ne hne]
      exact hbound a ha
  | consumed hconsume => exact ⟨bound, fun a ha => heap_consume hconsume (hbound a ha)⟩
  | _ => exact ⟨bound, hbound⟩

/-- Only a store changes the flag. -/
theorem running_step {a : Action n T} (hstep : Mpsc.step s a = some t)
    (ha : ∀ b, a ≠ .setRunning b) : t.running = s.running := by
  have hfree : ∀ x, (free s x).running = s.running := by
    intro x
    unfold free
    split_ifs
    · rfl
    · split <;> rfl
  cases stepped_of_step hstep with
  | setRunning b => exact absurd rfl (ha b)
  | consumed hconsume =>
      cases consumed_of_consume hconsume with
      | deleted | deletedTail => exact hfree _
      | _ => rfl
  | _ => rfl

end Mpsc

namespace Stopping

variable {n : ℕ} {rm : RiskManager} {s t : State n}

/-! ### Whose step it is -/

/-- The consumer that takes a step. -/
def Action.consumer? : Action n → Option (Fin n)
  | .check i => some i
  | .receive i _ => some i
  | .decide i _ _ => some i
  | .allocate i _ => some i
  | .exchange i => some i
  | .link i => some i
  | .clear => none
  | .environment _ => none
  | .gateway => none

/-- Whether a consumer takes a step. -/
def Action.ofConsumer (i : Fin n) (a : Action n) : Bool := a.consumer? = some i

/-- Whether the gateway takes a step. -/
def Action.ofGateway : Action n → Bool
  | .gateway => true
  | _ => false

/-- The gateway leaves the consumers as they are. -/
theorem thread_gatewayStep (h : gatewayStep s = some t) :
    t.thread = s.thread ∧ t.queue.producer = s.queue.producer := by
  cases gatewayStepped_of_gatewayStep h with
  | called hg hqueue =>
      cases Mpsc.stepped_of_step hqueue with
      | called => exact ⟨rfl, rfl⟩
  | popped hg hqueue => exact ⟨rfl, (Mpsc.consume_frame hqueue).2.2⟩
  | executed => exact ⟨rfl, rfl⟩

/-- The steps of others leave a consumer where it is. -/
theorem step_other {a : Action n} (hstep : step rm s a = some t) {i : Fin n}
    (ha : a.consumer? ≠ some i) :
    t.thread i = s.thread i ∧ t.queue.producer i = s.queue.producer i := by
  have hne : ∀ j, a.consumer? = some j → i ≠ j := fun j hj heq => ha (heq ▸ hj)
  cases a with
  | clear =>
      obtain rfl := Option.some_inj.1 hstep
      exact ⟨rfl, rfl⟩
  | environment risk =>
      obtain rfl := Option.some_inj.1 hstep
      exact ⟨rfl, rfl⟩
  | gateway =>
      obtain ⟨hthread, hproducer⟩ := thread_gatewayStep hstep
      exact ⟨congrFun hthread i, congrFun hproducer i⟩
  | check j =>
      simp only [step, Option.ite_none_right_eq_some, Option.some_inj] at hstep
      obtain ⟨-, rfl⟩ := hstep
      exact ⟨Function.update_of_ne (hne j rfl) _ _, rfl⟩
  | receive j message =>
      cases message <;>
      · simp only [step, Option.ite_none_right_eq_some, Option.some_inj] at hstep
        obtain ⟨-, rfl⟩ := hstep
        exact ⟨Function.update_of_ne (hne j rfl) _ _, rfl⟩
  | decide j now preQueueAt =>
      obtain ⟨r, -, rfl⟩ := Option.map_eq_some_iff.1 hstep
      exact ⟨Function.update_of_ne (hne j rfl) _ _, rfl⟩
  | allocate j node =>
      cases hj : s.thread j with
      | approved order =>
          simp only [step, hj] at hstep
          obtain ⟨queue, hqueue, rfl⟩ := Option.map_eq_some_iff.1 hstep
          cases Mpsc.stepped_of_step hqueue with
          | allocated =>
              exact ⟨Function.update_of_ne (hne j rfl) _ _, Function.update_of_ne (hne j rfl) _ _⟩
      | _ => simp [step, hj] at hstep
  | exchange j =>
      obtain ⟨queue, hqueue, rfl⟩ := Option.map_eq_some_iff.1 hstep
      cases Mpsc.stepped_of_step hqueue with
      | exchanged => exact ⟨rfl, Function.update_of_ne (hne j rfl) _ _⟩
  | link j =>
      obtain ⟨queue, hqueue, rfl⟩ := Option.map_eq_some_iff.1 hstep
      cases Mpsc.stepped_of_step hqueue with
      | missingPrev => exact ⟨Function.update_of_ne (hne j rfl) _ _, rfl⟩
      | linked =>
          exact ⟨Function.update_of_ne (hne j rfl) _ _, Function.update_of_ne (hne j rfl) _ _⟩

/-! ### The next step -/

/-- The invariant, with what the next steps need: between its pops the gateway can make a call, and
there is a free address. -/
structure Live (s : State n) : Prop where
  inv : Inv s
  ready : (∀ loop, s.gateway ≠ .popping loop) → s.queue.consumer.ready = true
  bounded : Mpsc.Bounded s.queue

theorem live_init (risk : RiskState) (consumers : Fin n → MarketEventConsumer) :
    Live (init risk consumers) := by
  refine ⟨inv_init risk consumers, fun _ => rfl, 1, fun a ha => ?_⟩
  have hne : a ≠ Mpsc.stub := Nat.ne_of_gt ha
  simp [init, Mpsc.init, hne]

/-- A step leaves the queue as it is, or is one of its steps. -/
theorem queue_step {a : Action n} (hstep : step rm s a = some t) :
    t.queue = s.queue ∨ ∃ b, Mpsc.step s.queue b = some t.queue := by
  cases stepped_of_step hstep with
  | clear hqueue => exact Or.inr ⟨_, hqueue⟩
  | environment => exact Or.inl rfl
  | turn => exact Or.inl rfl
  | decide => exact Or.inl rfl
  | allocate hi hqueue => exact Or.inr ⟨_, hqueue⟩
  | exchange hqueue => exact Or.inr ⟨_, hqueue⟩
  | link hqueue => exact Or.inr ⟨_, hqueue⟩
  | gateway hgateway =>
      cases gatewayStepped_of_gatewayStep hgateway with
      | called hg hqueue => exact Or.inr ⟨_, hqueue⟩
      | popped hg hqueue => exact Or.inr ⟨_, hqueue⟩
      | executed => exact Or.inl rfl

/-- Only the gateway moves the consuming end of the queue. -/
theorem consumer_step {a : Action n} (hstep : step rm s a = some t) (ha : a ≠ .gateway) :
    t.queue.consumer = s.queue.consumer := by
  cases stepped_of_step hstep with
  | gateway => exact absurd rfl ha
  | environment | turn | decide => rfl
  | clear hqueue =>
      obtain rfl := Option.some_inj.1 hqueue
      rfl
  | allocate hi hqueue =>
      cases Mpsc.stepped_of_step hqueue with
      | allocated => rfl
  | exchange hqueue =>
      cases Mpsc.stepped_of_step hqueue with
      | exchanged => rfl
  | link hqueue =>
      cases Mpsc.stepped_of_step hqueue with
      | missingPrev | linked => rfl

/-- The gateway leaves a pop only when that has returned. -/
theorem ready_afterPop {loop : Loop} {x : Mpsc.Consumer Order}
    (h : ∀ loop', Gateway.afterPop loop x ≠ .popping loop') : x.ready = true := by
  cases x with
  | returned call result => rfl
  | _ => exact absurd rfl (h loop)

theorem Live.step (h : Live s) {a : Action n} (hstep : Stopping.step rm s a = some t) :
    Live t := by
  refine ⟨h.inv.step hstep, fun ht => ?_, ?_⟩
  · by_cases ha : a = .gateway
    · subst ha
      cases gatewayStepped_of_gatewayStep hstep with
      | called => exact absurd rfl (ht _)
      | popped => exact ready_afterPop ht
      | executed hg => exact h.ready (by simp [hg])
    · rw [(step_frame hstep ha).1] at ht
      rw [consumer_step hstep ha]
      exact h.ready ht
  · rcases queue_step hstep with heq | ⟨b, hqueue⟩
    · exact heq ▸ h.bounded
    · exact h.bounded.step hqueue

theorem Live.not_destroying (h : Live s) : ¬ s.queue.consumer.destroying = true := by
  intro hd
  cases hg : s.gateway with
  | popping loop =>
      have hcall := h.inv.popping loop hg
      cases hc : s.queue.consumer <;> simp [hc, Mpsc.Consumer.call?] at hcall <;>
        cases loop <;> simp_all [Mpsc.Consumer.destroying, Loop.call]
  | _ =>
      have hready := h.ready (by simp [hg])
      cases hc : s.queue.consumer <;>
        simp_all [Mpsc.Consumer.ready, Mpsc.Consumer.destroying]

theorem Live.sound (h : Live s) : Mpsc.Sound s.queue := h.inv.queue

/-- **A consumer that is in `run` can take its next step.** -/
theorem Live.consumer_enabled (h : Live s) (rm : RiskManager) {i : Fin n}
    (hi : s.thread i ≠ .exited) :
    ∃ a t, a.consumer? = some i ∧ Stopping.step rm s a = some t := by
  cases hthread : s.thread i with
  | checking => exact ⟨.check i, _, rfl, if_pos hthread⟩
  | receiving => exact ⟨.receive i none, _, rfl, if_pos hthread⟩
  | deciding message =>
      exact ⟨.decide i 0 0, _, rfl, by simp only [Stopping.step, decision, hthread]; rfl⟩
  | approved order =>
      obtain ⟨bound, hbound⟩ := h.bounded
      have hidle : s.queue.producer i = .idle := (h.inv.idle i).1 (by simp [hthread])
      have hallocate : ∃ queue, Mpsc.step s.queue (.allocate i order bound) = some queue := by
        refine ⟨_, if_pos ⟨Mpsc.Producer.isIdle_iff.2 hidle, ?_, h.not_destroying⟩⟩
        rw [hbound bound le_rfl]
        rfl
      obtain ⟨queue, hqueue⟩ := hallocate
      exact ⟨.allocate i bound, _, rfl, by simp only [Stopping.step, hthread, hqueue]; rfl⟩
  | pushing =>
      have hproducer : s.queue.producer i ≠ .idle := fun hidle =>
        (h.inv.idle i).2 hidle hthread
      obtain ⟨b, queue, hpushes, hqueue⟩ := h.sound.push_enabled hproducer
      cases b with
      | exchange j =>
          obtain rfl : j = i := of_decide_eq_true hpushes
          exact ⟨.exchange j, _, rfl, by simp only [Stopping.step, hqueue]; rfl⟩
      | link j =>
          obtain rfl : j = i := of_decide_eq_true hpushes
          exact ⟨.link j, _, rfl, by simp only [Stopping.step, hqueue]; rfl⟩
      | _ => cases hpushes
  | exited => exact absurd hthread hi

/-- **The gateway can take its next step until `run` returns.** -/
theorem Live.gateway_enabled (h : Live s) (rm : RiskManager) (hs : s.gateway ≠ .finished) :
    ∃ t, Stopping.step rm s .gateway = some t := by
  cases hg : s.gateway with
  | calling loop =>
      have hready := h.ready (by simp [hg])
      have hcall : Mpsc.step s.queue (.call loop.call) =
          some { s.queue with consumer := .loadingNext loop.call } :=
        if_pos ⟨hready, fun heq => absurd heq loop.call_ne_destroy⟩
      exact ⟨_, by simp only [Stopping.step, gatewayStep, hg, hcall]; rfl⟩
  | popping loop =>
      obtain ⟨queue, hqueue⟩ := Mpsc.consume_enabled (h.inv.popping loop hg)
      exact ⟨_, by simp only [Stopping.step, gatewayStep, hg, hqueue]; rfl⟩
  | executing loop order => exact ⟨_, by simp only [Stopping.step, gatewayStep, hg]; rfl⟩
  | finished => exact absurd hg hs

/-! ### What has ended -/

/-- A consumer that has left `run` takes no more steps. -/
theorem Inv.exited_step (h : Inv s) {a : Action n} (hstep : Stopping.step rm s a = some t)
    {i : Fin n} (hi : s.thread i = .exited) : t.thread i = .exited := by
  by_cases ha : a.consumer? = some i
  · have hidle : s.queue.producer i = .idle := (h.idle i).1 (by simp [hi])
    cases a with
    | clear | environment | gateway => cases ha
    | check j | decide j | allocate j =>
        obtain rfl := Option.some_inj.1 ha
        simp [Stopping.step, decision, hi] at hstep
    | receive j message =>
        obtain rfl := Option.some_inj.1 ha
        cases message <;> simp [Stopping.step, hi] at hstep
    | exchange j | link j =>
        obtain rfl := Option.some_inj.1 ha
        simp [Stopping.step, Mpsc.step, hidle] at hstep
  · exact (step_other hstep ha).1.trans hi

/-- So does the gateway. -/
theorem finished_step {a : Action n} (hstep : Stopping.step rm s a = some t)
    (hs : s.gateway = .finished) : t.gateway = .finished := by
  have ha : a ≠ .gateway := by
    rintro rfl
    simp [Stopping.step, gatewayStep, hs] at hstep
  exact (step_frame hstep ha).1.trans hs

/-! ### The last steps of a consumer -/

/-- The steps that a consumer has left, at most, once the flag is cleared. -/
def consumerRank (s : State n) (i : Fin n) : ℕ :=
  match s.thread i with
  | .exited => 0
  | .checking => 1
  | .pushing => (s.queue.producer i).rank + 1
  | .approved _ => 4
  | .deciding _ => 5
  | .receiving => 6

theorem consumerRank_le (s : State n) (i : Fin n) : consumerRank s i ≤ 6 := by
  unfold consumerRank
  split
  · omega
  · omega
  · cases s.queue.producer i <;> simp [Mpsc.Producer.rank]
  all_goals omega

theorem consumerRank_congr {i : Fin n} (hthread : t.thread i = s.thread i)
    (hproducer : t.queue.producer i = s.queue.producer i) :
    consumerRank t i = consumerRank s i := by
  simp only [consumerRank, hthread, hproducer]

/-- The flag stays cleared. -/
theorem running_step {a : Action n} (hstep : step rm s a = some t)
    (hs : s.queue.running = false) : t.queue.running = false := by
  cases stepped_of_step hstep with
  | clear hqueue =>
      obtain rfl := Option.some_inj.1 hqueue
      rfl
  | environment | turn | decide => exact hs
  | allocate hi hqueue => exact (Mpsc.running_step hqueue (by simp)).trans hs
  | exchange hqueue => exact (Mpsc.running_step hqueue (by simp)).trans hs
  | link hqueue => exact (Mpsc.running_step hqueue (by simp)).trans hs
  | gateway hgateway =>
      cases gatewayStepped_of_gatewayStep hgateway with
      | called hg hqueue => exact (Mpsc.running_step hqueue (by simp)).trans hs
      | popped hg hqueue => exact (Mpsc.running_step hqueue (by simp)).trans hs
      | executed => exact hs

/-- A step of the consumer itself. -/
theorem Inv.consumerRank_lt (h : Inv s) (hs : s.queue.running = false) {a : Action n}
    (hstep : Stopping.step rm s a = some t) {i : Fin n} (ha : a.consumer? = some i) :
    consumerRank t i < consumerRank s i := by
  cases a with
  | clear | environment | gateway => cases ha
  | check j =>
      obtain rfl := Option.some_inj.1 ha
      simp only [Stopping.step, hs, Option.ite_none_right_eq_some, Option.some_inj] at hstep
      obtain ⟨hj, rfl⟩ := hstep
      simp [consumerRank, hj]
  | receive j message =>
      obtain rfl := Option.some_inj.1 ha
      cases message with
      | none =>
          simp only [Stopping.step, Option.ite_none_right_eq_some, Option.some_inj] at hstep
          obtain ⟨hj, rfl⟩ := hstep
          simp [consumerRank, hj]
      | some message =>
          simp only [Stopping.step, Option.ite_none_right_eq_some, Option.some_inj] at hstep
          obtain ⟨⟨hj, -⟩, rfl⟩ := hstep
          simp [consumerRank, hj]
  | decide j now preQueueAt =>
      obtain rfl := Option.some_inj.1 ha
      obtain ⟨r, hr, rfl⟩ := Option.map_eq_some_iff.1 hstep
      obtain ⟨message, hj⟩ : ∃ message, s.thread j = .deciding message := by
        cases hj : s.thread j <;> simp_all [decision]
      cases r.2.2 <;> simp [consumerRank, hj, Thread.afterDecision]
  | allocate j node =>
      obtain rfl := Option.some_inj.1 ha
      cases hj : s.thread j with
      | approved order =>
          simp only [Stopping.step, hj] at hstep
          obtain ⟨queue, hqueue, rfl⟩ := Option.map_eq_some_iff.1 hstep
          cases Mpsc.stepped_of_step hqueue with
          | allocated => simp [consumerRank, hj, Mpsc.Producer.rank]
      | _ => simp [Stopping.step, hj] at hstep
  | exchange j =>
      obtain rfl := Option.some_inj.1 ha
      obtain ⟨queue, hqueue, rfl⟩ := Option.map_eq_some_iff.1 hstep
      cases Mpsc.stepped_of_step hqueue with
      | exchanged hp =>
          have hj := h.pushing (i := j) (by simp [hp])
          simp [consumerRank, hj, hp, Mpsc.Producer.rank]
  | link j =>
      obtain rfl := Option.some_inj.1 ha
      obtain ⟨queue, hqueue, rfl⟩ := Option.map_eq_some_iff.1 hstep
      cases Mpsc.stepped_of_step hqueue with
      | missingPrev hp hprev =>
          have hj := h.pushing (i := j) (by simp [hp])
          simp [consumerRank, hj, hp, Mpsc.Producer.rank]
      | linked hp hprev =>
          have hj := h.pushing (i := j) (by simp [hp])
          simp [consumerRank, hj, hp, Mpsc.Producer.rank]

/-- **Once the flag is cleared, a consumer comes nearer to its end with every step of its own**, and
the others do not take it away from there. -/
theorem Inv.consumerRank_step (h : Inv s) (hs : s.queue.running = false) {a : Action n}
    (hstep : Stopping.step rm s a = some t) (i : Fin n) :
    (a.ofConsumer i).toNat + consumerRank t i ≤ consumerRank s i := by
  by_cases ha : a.consumer? = some i
  · have hlt := h.consumerRank_lt hs hstep ha
    simp only [Action.ofConsumer, ha, decide_true, Bool.toNat_true]
    omega
  · obtain ⟨hthread, hproducer⟩ := step_other hstep ha
    simp [Action.ofConsumer, ha, consumerRank_congr hthread hproducer]

/-! ### The last steps of the gateway -/

/-- The flag is cleared, and the consumers are between two rounds or have ended: nothing is pushed
any more. -/
structure Quiet (s : State n) : Prop where
  running : s.queue.running = false
  thread : ∀ i, s.thread i = .checking ∨ s.thread i = .exited

/-- The orders in the queue. -/
def unpopped (s : State n) : ℕ := s.queue.pushed.length - s.queue.popped.length

/-- The steps of the second loop, which follows the first one. -/
def Loop.rank : Loop → ℕ
  | .drain => 0
  | .wait => 10

/-- Where a pop stands.  The advance takes an order out of the queue, and its deletion and
execution follow. -/
def popRank : Mpsc.Consumer Order → ℕ
  | .loadingNext _ => 3
  | .copying _ _ => 2
  | .advancing _ _ _ => 1
  | .deleting _ _ _ => 7
  | _ => 0

/-- The steps that the gateway has left, at most, once nothing is pushed any more.  A load of the
flag or of `head_` may still be due to a null link that has been stored since. -/
def gatewayRank (s : State n) : ℕ :=
  match s.gateway with
  | .calling loop => 7 * unpopped s + loop.rank + 4
  | .popping loop =>
      match s.queue.consumer with
      | .loadingRunning => if unpopped s = 0 then 6 else 7 * unpopped s + 19
      | .loadingHead => if unpopped s = 0 then 5 else 7 * unpopped s + 18
      | x => 7 * unpopped s + loop.rank + popRank x
  | .executing loop _ => 7 * unpopped s + loop.rank + 6
  | .finished => 0

theorem gatewayRank_le (s : State n) : gatewayRank s ≤ 7 * unpopped s + 19 := by
  have hloop : ∀ loop : Loop, loop.rank ≤ 10 := fun loop => by cases loop <;> simp [Loop.rank]
  unfold gatewayRank
  cases s.gateway with
  | calling loop =>
      have := hloop loop
      simp only
      omega
  | popping loop =>
      have := hloop loop
      cases s.queue.consumer <;> simp only [popRank] <;> first | omega | (split_ifs <;> omega)
  | executing loop order =>
      have := hloop loop
      simp only
      omega
  | finished => simp

/-- Consumers that are not in a round do not push. -/
theorem Quiet.idle (hq : Quiet s) (h : Inv s) (i : Fin n) : s.queue.producer i = .idle := by
  refine (h.idle i).1 ?_
  rcases hq.thread i with hi | hi <;> simp [hi]

/-- Between two rounds a consumer can only see that the flag is cleared. -/
theorem Quiet.consumer_step (hq : Quiet s) (h : Inv s) {a : Action n}
    (hstep : Stopping.step rm s a = some t) {i : Fin n} (ha : a.consumer? = some i) :
    t = { s with thread := Function.update s.thread i .exited } := by
  have hidle := hq.idle h i
  have hi := hq.thread i
  cases a with
  | clear | environment | gateway => cases ha
  | check j =>
      obtain rfl := Option.some_inj.1 ha
      simp only [Stopping.step, hq.running, Option.ite_none_right_eq_some, Option.some_inj] at hstep
      exact hstep.2.symm
  | receive j message =>
      obtain rfl := Option.some_inj.1 ha
      cases message <;> rcases hi with hi | hi <;> simp [Stopping.step, hi] at hstep
  | decide j now preQueueAt =>
      obtain rfl := Option.some_inj.1 ha
      rcases hi with hi | hi <;> simp [Stopping.step, decision, hi] at hstep
  | allocate j node =>
      obtain rfl := Option.some_inj.1 ha
      rcases hi with hi | hi <;> simp [Stopping.step, hi] at hstep
  | exchange j | link j =>
      obtain rfl := Option.some_inj.1 ha
      simp [Stopping.step, Mpsc.step, hidle] at hstep

/-- The others leave the queue and the gateway alone. -/
theorem Quiet.frame (hq : Quiet s) (h : Inv s) {a : Action n} (ha : a ≠ .gateway)
    (hstep : Stopping.step rm s a = some t) :
    Quiet t ∧ gatewayRank t = gatewayRank s := by
  cases hactor : a.consumer? with
  | some i =>
      obtain rfl := hq.consumer_step h hstep hactor
      refine ⟨⟨hq.running, fun j => ?_⟩, rfl⟩
      by_cases hj : j = i
      · subst hj
        exact Or.inr (Function.update_self ..)
      · simp only [Function.update_of_ne hj]
        exact hq.thread j
  | none =>
      cases a with
      | clear =>
          obtain rfl := Option.some_inj.1 hstep
          exact ⟨⟨rfl, hq.thread⟩, rfl⟩
      | environment risk =>
          obtain rfl := Option.some_inj.1 hstep
          exact ⟨⟨hq.running, hq.thread⟩, rfl⟩
      | gateway => exact absurd rfl ha
      | _ => cases hactor

/-- A null link says that the queue is empty. -/
theorem Quiet.unpopped_of_null (hq : Quiet s) (h : Inv s)
    (hnull : Mpsc.nextOf s.queue.heap s.queue.tail = none) : unpopped s = 0 := by
  obtain ⟨chain, hchain⟩ := h.queue
  have halone := hchain.alone hnull fun p node prevHead hp => by simp [hq.idle h p] at hp
  have hlength := congrArg List.length (hchain.all_popped halone)
  rw [List.length_map] at hlength
  simp [unpopped, hlength]

/-- In an empty queue `tail_` is at `head_`. -/
theorem Inv.tail_eq_head (h : Inv s) (hempty : unpopped s = 0) : s.queue.tail = s.queue.head := by
  obtain ⟨chain, hchain⟩ := h.queue
  have hlength := congrArg List.length hchain.values
  rw [List.length_map, List.length_append, List.length_map] at hlength
  have hpopped := h.popped_le_pushed
  obtain ⟨rest, rfl⟩ := List.head?_eq_some_iff.1 hchain.tail
  simp only [unpopped] at hempty
  simp only [List.tail_cons] at hlength
  obtain rfl : rest = [] := List.length_eq_zero_iff.1 (by omega)
  simpa using hchain.head

/-- A step of the gateway in a pop. -/
theorem Quiet.pop_lt (hq : Quiet s) (h : Inv s) {loop : Loop} (hg : s.gateway = .popping loop)
    {queue : Mpsc.State n Order} (hqueue : Mpsc.step s.queue .consume = some queue)
    (ht : Inv { s with queue := queue, gateway := .afterPop loop queue.consumer }) :
    gatewayRank { s with queue := queue, gateway := .afterPop loop queue.consumer } <
      gatewayRank s := by
  have hcall := h.popping loop hg
  have hfault := (show Mpsc.Sound queue from ht.queue).fault
  cases Mpsc.stepped_of_step hqueue with
  | consumed hconsume =>
      cases Mpsc.consumed_of_consume hconsume with
      | missingTail | missingNext => cases hfault
      | @null call node hc hnode hnext =>
          rw [hc] at hcall
          obtain rfl : call = loop.call := Option.some_inj.1 hcall
          have hempty : unpopped s = 0 :=
            hq.unpopped_of_null h (by simp [Mpsc.nextOf, hnode, hnext])
          simp only [unpopped] at hempty
          cases loop <;>
            simp [gatewayRank, unpopped, hg, hc, hempty, Loop.call, Mpsc.Call.onNull,
              Gateway.afterPop, Loop.after, Loop.rank, popRank]
      | @linked call node next hc hnode hnext =>
          simp [gatewayRank, unpopped, hg, hc, Gateway.afterPop, popRank]
      | loadedRunning hc =>
          by_cases hempty : unpopped s = 0 <;> simp only [unpopped] at hempty <;>
            simp [gatewayRank, unpopped, hg, hc, hq.running, hempty, Gateway.afterPop]
      | loadedHead hc =>
          rw [hc] at hcall
          obtain rfl : loop = .wait := by cases loop <;> simp_all [Loop.call, Mpsc.Consumer.call?]
          by_cases hempty : unpopped s = 0
          · have heq := h.tail_eq_head hempty
            simp only [unpopped] at hempty
            simp [gatewayRank, unpopped, hg, hc, heq, hempty, Gateway.afterPop, Loop.after,
              Loop.rank]
          · simp only [unpopped] at hempty
            by_cases heq : s.queue.tail = s.queue.head
            · simp [gatewayRank, unpopped, hg, hc, heq, hempty, Gateway.afterPop, Loop.after,
                Loop.rank]
            · simp [gatewayRank, unpopped, hg, hc, heq, hempty, Gateway.afterPop, Loop.rank,
                popRank]
      | copied hc hnode =>
          simp [gatewayRank, unpopped, hg, hc, Gateway.afterPop, popRank]
      | advanced hc =>
          have hlt := ht.popped_le_pushed
          simp only [List.length_append, List.length_singleton] at hlt
          simp only [gatewayRank, unpopped, hg, hc, Gateway.afterPop, popRank, List.length_append,
            List.length_singleton]
          omega
      | @deleted call tail value hc =>
          rw [hc] at hcall
          obtain rfl : call = loop.call := Option.some_inj.1 hcall
          obtain ⟨-, hpushed, -, hpopped⟩ := Mpsc.free_frame s.queue tail
          cases loop <;>
            simp [gatewayRank, unpopped, hg, hc, hpushed, hpopped, Loop.call, Mpsc.Call.onPopped,
              Gateway.afterPop, Loop.rank, popRank]
      | deletedTail hc =>
          rw [hc] at hcall
          exact absurd (Option.some_inj.1 hcall).symm loop.call_ne_destroy

/-- **Once nothing is pushed any more, the gateway comes nearer to its end with every step**, and
the others do not take it away from there. -/
theorem Quiet.gatewayRank_step (hq : Quiet s) (h : Inv s) {a : Action n}
    (hstep : Stopping.step rm s a = some t) :
    Quiet t ∧ a.ofGateway.toNat + gatewayRank t ≤ gatewayRank s := by
  by_cases ha : a = .gateway
  · subst ha
    have hgateway : gatewayStep s = some t := hstep
    have hthread := (thread_gatewayStep hgateway).1
    refine ⟨⟨running_step hstep hq.running, fun i => hthread ▸ hq.thread i⟩, ?_⟩
    suffices hlt : gatewayRank t < gatewayRank s by
      simp only [Action.ofGateway, Bool.toNat_true]
      omega
    have ht := h.step hstep
    cases gatewayStepped_of_gatewayStep hgateway with
    | called hg hqueue =>
        cases Mpsc.stepped_of_step hqueue with
        | called => simp [gatewayRank, unpopped, hg, popRank]
    | popped hg hqueue => exact hq.pop_lt h hg hqueue ht
    | executed hg => simp [gatewayRank, unpopped, hg]
  · obtain ⟨hquiet, hrank⟩ := hq.frame h ha hstep
    refine ⟨hquiet, ?_⟩
    cases a with
    | gateway => exact absurd rfl ha
    | _ => simp [Action.ofGateway, hrank]

end Stopping

end Trading
