/-
**Completions that overtake the record of their order.**

The gateway learns the id of an order from the reply to its placement and writes it into the
pending order tracker; the listener erases it there when the last message of the order comes in.
Between the two stands the broker, which may execute an order as soon as it has accepted it: the
messages travel on the stream, the reply on the REST connection, and nothing orders them.  When
the last message is processed before the id is recorded, the record puts an order into the tracker
that nobody will take out again.

The machine below is the gateway of `Trading.Replace` with the broker and the listener.  The
listener handles a message in one step: of its calls only `onOrderCompleted` touches the tracker.

Main definitions:

* `Trading.Stale.State`, `Trading.Stale.step` — the gateway, the broker and the listener;
* `Trading.Stale.NoStaleSlot` — no slot holds an order whose last message was processed;
* `Trading.Stale.RecordInTime` — the record comes before the last message is processed.

Main results:

* `Trading.Stale.Inv.step` — what every step keeps;
* `Trading.no_stale_slot_iff` — the slots are clean throughout a run exactly when every record is in
  time.
-/

import TradingAlgo.Reconnect

set_option relaxedAutoImplicit false
set_option autoImplicit false

namespace Trading

namespace Stale

open Session (messageId Terminal)

/-! ### The machine -/

/-- The slot that a message is about. -/
def messageSlot : TradeMessage → OrderSlotKey
  | .execution _ _ symbol side _ _ => ⟨CharArray.ofBytes 8 symbol, side⟩
  | .ended _ symbol side _ _ => ⟨CharArray.ofBytes 8 symbol, side⟩

/-- The gateway, the listener and the broker.  `accepted` are the orders at the broker with their
slots, `current` is the one it has accepted for the placement that the gateway is waiting for. -/
structure State where
  replace : Replace.State
  listener : FillListener := {}
  accepted : List (OrderSlotKey × List UInt8) := []
  current : Option (List UInt8) := none
  stream : List TradeMessage := []
  processed : List TradeMessage := []

/-- The steps: those of the gateway, the broker accepts the order that is being placed or sends a
message about an order it has accepted, and the listener processes the next message. -/
inductive Action
  | dequeue (order : Order)
  | cancelReply (reply : Outcome Unit)
  | accept (id : List UInt8)
  | placeReply (reply : Outcome OrderAck)
  | record
  | emit (message : TradeMessage)
  | process
  deriving DecidableEq, Repr

/-- A call of the listener, as it reaches the components that the gateway shares with it. -/
def receive (r : Replace.State) : ListenerCall → Option Replace.State
  | .onOrderCompleted slot id => Replace.step r (.completed slot id)
  | call =>
      some { r with
        gateway := { r.gateway with positionManager := r.gateway.positionManager.receive call } }

/-- The ids that the broker gives are new, also when the reply with an earlier one was lost. -/
def NewId (s : State) (id : List UInt8) : Prop :=
  FillListener.IsId id ∧ id ∉ s.accepted.map Prod.snd

instance (s : State) (id : List UInt8) : Decidable (NewId s id) :=
  inferInstanceAs (Decidable (_ ∧ _))

/-- The step function. -/
def step (s : State) : Action → Option State
  | .dequeue order => (Replace.step s.replace (.dequeue order)).map fun r => { s with replace := r }
  | .cancelReply reply =>
      (Replace.step s.replace (.cancelReply reply)).map fun r => { s with replace := r }
  | .accept id =>
      match s.replace.pc, s.current with
      | .placing order, none =>
          if NewId s id then
            some { s with
              accepted := s.accepted ++ [(Replace.slotOf order, id)]
              current := some id }
          else none
      | _, _ => none
  | .placeReply reply =>
      match reply with
      | .success ack =>
          -- the reply carries the id of the order that the broker has accepted
          if s.current = some ack.clientOrderId then
            (Replace.step s.replace (.placeReply reply)).map fun r =>
              { s with replace := r, current := none }
          else none
      | _ =>
          -- an error, or a reply that is lost after the order was accepted
          (Replace.step s.replace (.placeReply reply)).map fun r =>
            { s with replace := r, current := none }
  | .record => (Replace.step s.replace .record).map fun r => { s with replace := r }
  | .emit message =>
      if (messageSlot message, messageId message) ∈ s.accepted then
        some { s with stream := s.stream ++ [message] }
      else none
  | .process =>
      match s.stream with
      | [] => none
      | message :: rest =>
          let handled := s.listener.handleTradeUpdate message.update
          (handled.2.foldlM receive s.replace).map fun r =>
            { s with
              replace := r
              listener := handled.1
              stream := rest
              processed := s.processed ++ [message] }

/-- The start: an empty tracker. -/
def init (pm : PositionManager) : State where
  replace := Replace.init pm

/-- The tracker's slot. -/
def slotAt (s : State) (slot : OrderSlotKey) : Option AlpacaOrderId :=
  s.replace.gateway.pendingTracker.bind fun t => t.slots slot

/-- Whenever the gateway is not between the reply of a placement and its record, no slot holds the
id of an order whose last message the listener has processed. -/
def NoStaleSlot (s : State) : Prop :=
  (∀ order id, s.replace.pc ≠ .recording order id) →
    ∀ message ∈ s.processed, Terminal message →
      ∀ slot, slotAt s slot ≠ some (CharArray.ofBytes 48 (messageId message))

/-- Before a record, the last message of its order has not been processed. -/
def RecordInTime (s : State) : Action → Prop
  | .record =>
      match s.replace.pc with
      | .recording _ id => ∀ message ∈ s.processed, Terminal message → messageId message ≠ id
      | _ => True
  | _ => True

instance (s : State) : ∀ a, Decidable (RecordInTime s a)
  | .record =>
      match h : s.replace.pc with
      | .recording _ id =>
          decidable_of_iff (∀ message ∈ s.processed, Terminal message → messageId message ≠ id)
            (by simp [RecordInTime, h])
      | .idle => isTrue (by simp [RecordInTime, h])
      | .cancelling .. => isTrue (by simp [RecordInTime, h])
      | .placing .. => isTrue (by simp [RecordInTime, h])
  | .dequeue _ => isTrue trivial
  | .cancelReply _ => isTrue trivial
  | .accept _ => isTrue trivial
  | .placeReply _ => isTrue trivial
  | .emit _ => isTrue trivial
  | .process => isTrue trivial

/-! ### What every step keeps -/

/-- The slots hold accepted orders, each in its own slot, and the messages are about them. -/
structure Inv (s : State) : Prop where
  tracker : s.replace.gateway.pendingTracker.isSome
  ids : ∀ slot id, (slot, id) ∈ s.accepted → FillListener.IsId id
  unique : (s.accepted.map Prod.snd).Nodup
  held : ∀ slot stored, slotAt s slot = some stored →
    ∃ id, (slot, id) ∈ s.accepted ∧ stored = CharArray.ofBytes 48 id
  current : ∀ id, s.current = some id →
    ∃ order, s.replace.pc = .placing order ∧ (Replace.slotOf order, id) ∈ s.accepted
  recording : ∀ order id, s.replace.pc = .recording order id →
    (Replace.slotOf order, id) ∈ s.accepted
  messages : ∀ message, message ∈ s.stream ∨ message ∈ s.processed →
    (messageSlot message, messageId message) ∈ s.accepted

/-- No slot holds an order whose last message was processed, wherever the gateway stands. -/
def Clean (s : State) : Prop :=
  ∀ message ∈ s.processed, Terminal message →
    ∀ slot, slotAt s slot ≠ some (CharArray.ofBytes 48 (messageId message))

theorem Clean.noStaleSlot {s : State} (h : Clean s) : NoStaleSlot s := fun _ => h

theorem inv_init (pm : PositionManager) : Inv (init pm) where
  tracker := rfl
  ids := by simp [init]
  unique := by simp [init]
  held := by simp [init, Replace.init, slotAt]
  current := by simp [init]
  recording := by simp [init, Replace.init]
  messages := by simp [init]

theorem clean_init (pm : PositionManager) : Clean (init pm) := by simp [Clean, init]

section Steps

variable {s t : State}

/-- An id names one order. -/
theorem Inv.slot_eq (h : Inv s) {slot slot' : OrderSlotKey} {id : List UInt8}
    (hmem : (slot, id) ∈ s.accepted) (hmem' : (slot', id) ∈ s.accepted) : slot = slot' := by
  have := List.inj_on_of_nodup_map h.unique hmem hmem' rfl
  exact congrArg Prod.fst this

/-- Accepted ids are told apart by what is stored of them. -/
theorem Inv.stored_inj (h : Inv s) {slot slot' : OrderSlotKey} {id id' : List UInt8}
    (hmem : (slot, id) ∈ s.accepted) (hmem' : (slot', id') ∈ s.accepted)
    (heq : CharArray.ofBytes 48 id = CharArray.ofBytes 48 id') : id = id' := by
  rw [← (h.ids _ _ hmem).view, ← (h.ids _ _ hmem').view, heq]

/-- Only while the gateway waits for a reply is there an order that it does not know of. -/
theorem Inv.current_eq_none (h : Inv s) (hpc : ∀ order, s.replace.pc ≠ .placing order) :
    s.current = none := by
  cases hcur : s.current with
  | none => rfl
  | some id =>
      obtain ⟨order, horder, -⟩ := h.current id hcur
      exact absurd horder (hpc order)

/-- A step that leaves the tracker, the broker and the messages alone and does not come before a
record. -/
theorem Inv.quiet (h : Inv s)
    (htracker : t.replace.gateway.pendingTracker = s.replace.gateway.pendingTracker)
    (haccepted : t.accepted = s.accepted) (hcurrent : t.current = none)
    (hstream : t.stream = s.stream) (hprocessed : t.processed = s.processed)
    (hpc : ∀ order id, t.replace.pc ≠ .recording order id) : Inv t where
  tracker := htracker ▸ h.tracker
  ids := haccepted ▸ h.ids
  unique := haccepted ▸ h.unique
  held := by
    intro slot stored hslot
    rw [haccepted]
    exact h.held slot stored (by rwa [slotAt, htracker] at hslot)
  current := by simp [hcurrent]
  recording := fun order id hrec => absurd hrec (hpc order id)
  messages := by
    rw [haccepted, hstream, hprocessed]
    exact h.messages

theorem Clean.congr (h : Clean s)
    (htracker : t.replace.gateway.pendingTracker = s.replace.gateway.pendingTracker)
    (hprocessed : t.processed = s.processed) : Clean t := by
  intro message hmem hterm slot hslot
  rw [slotAt, htracker] at hslot
  exact h message (hprocessed ▸ hmem) hterm slot hslot

/-- What the listener's calls for a message come to: only the tracker's slot of an order that is
done is touched, of all that the gateway reads. -/
theorem foldlM_receive (l : FillListener) (r : Replace.State) {message : TradeMessage}
    (hid : FillListener.IsId (messageId message)) :
    ∃ r', (l.handleTradeUpdate message.update).2.foldlM receive r = some r' ∧ r'.pc = r.pc ∧
      r'.gateway.pendingTracker =
        if Terminal message then
          r.gateway.pendingTracker.map fun tr =>
            tr.onOrderCompleted (messageSlot message).symbol (messageSlot message).side
              (messageId message)
        else r.gateway.pendingTracker := by
  cases message with
  | execution isPartial orderId symbol side qty price =>
      have hview : (CharArray.ofBytes 48 orderId).view = orderId := FillListener.IsId.view hid
      have hne : orderId ≠ [] := hid.1
      cases isPartial <;>
        simp [FillListener.handleTradeUpdate, TradeMessage.update, FillListener.processFillEvent,
          hview, hne, receive, Replace.step, Terminal, messageSlot, messageId]
  | ended orderId symbol side qty filledQty =>
      have hview : (CharArray.ofBytes 48 orderId).view = orderId := FillListener.IsId.view hid
      simp [FillListener.handleTradeUpdate, TradeMessage.update, FillListener.processCancelEvent,
        hview, receive, Replace.step, Terminal, messageSlot, messageId]

/-- An order is taken: the gateway was idle, so nothing was being placed. -/
theorem Inv.dequeue (h : Inv s) {order : Order} (hstep : step s (.dequeue order) = some t) :
    Inv t ∧ (Clean s → Clean t) := by
  obtain ⟨r, hr, rfl⟩ := Option.map_eq_some_iff.1 hstep
  cases hpc : s.replace.pc with
  | idle =>
      simp only [Replace.step, hpc, Option.some_inj] at hr
      subst hr
      have hcurrent := h.current_eq_none (by simp [hpc])
      refine ⟨h.quiet rfl rfl hcurrent rfl rfl ?_, fun hc => hc.congr rfl rfl⟩
      intro o id
      cases s.replace.gateway.existingOrder order <;> simp
  | _ => simp [Replace.step, hpc] at hr

/-- A cancellation returns. -/
theorem Inv.cancelReply (h : Inv s) {reply : Outcome Unit}
    (hstep : step s (.cancelReply reply) = some t) : Inv t ∧ (Clean s → Clean t) := by
  obtain ⟨r, hr, rfl⟩ := Option.map_eq_some_iff.1 hstep
  cases hpc : s.replace.pc with
  | cancelling order prevId =>
      simp only [Replace.step, hpc, Option.some_inj] at hr
      subst hr
      have hcurrent := h.current_eq_none (by simp [hpc])
      have htracker : ∀ g : Gateway, (if reply.cancelAccepted then g
          else g.release order).pendingTracker = g.pendingTracker := by
        intro g
        split_ifs <;> rfl
      refine ⟨h.quiet (htracker _) rfl hcurrent rfl rfl ?_, fun hc => hc.congr (htracker _) rfl⟩
      intro o id
      cases reply.cancelAccepted <;> simp
  | _ => simp [Replace.step, hpc] at hr

/-- The broker accepts the order that is being placed. -/
theorem Inv.accept (h : Inv s) {id : List UInt8} (hstep : step s (.accept id) = some t) :
    Inv t ∧ (Clean s → Clean t) := by
  cases hpc : s.replace.pc with
  | placing order =>
      cases hcur : s.current with
      | some _ => simp [step, hpc, hcur] at hstep
      | none =>
          simp only [step, hpc, hcur, Option.ite_none_right_eq_some, Option.some_inj] at hstep
          obtain ⟨⟨hid, hnew⟩, rfl⟩ := hstep
          refine ⟨⟨h.tracker, ?_, ?_, ?_, ?_, ?_, ?_⟩, fun hc => hc.congr rfl rfl⟩
          · intro slot id' hmem
            rcases List.mem_append.1 hmem with hmem | hmem
            · exact h.ids slot id' hmem
            · obtain ⟨-, rfl⟩ := Prod.mk.inj (List.mem_singleton.1 hmem)
              exact hid
          · rw [List.map_append, List.nodup_append]
            refine ⟨h.unique, List.nodup_singleton _, ?_⟩
            rintro a ha b hb rfl
            obtain rfl : a = id := List.mem_singleton.1 hb
            exact hnew ha
          · intro slot stored hslot
            obtain ⟨id', hmem, hstored⟩ := h.held slot stored hslot
            exact ⟨id', List.mem_append_left _ hmem, hstored⟩
          · rintro id' ⟨⟩
            exact ⟨order, hpc, by simp⟩
          · intro o id' hrec
            exact absurd (hpc.symm.trans hrec) (by simp)
          · intro message hmem
            exact List.mem_append_left _ (h.messages message hmem)
  | _ => simp [step, hpc] at hstep

/-- The placement returns. -/
theorem Inv.placeReply (h : Inv s) {reply : Outcome OrderAck}
    (hstep : step s (.placeReply reply) = some t) : Inv t ∧ (Clean s → Clean t) := by
  cases hpc : s.replace.pc with
  | placing order =>
      cases reply with
      | success ack =>
          simp only [step, Replace.step, hpc, Option.ite_none_right_eq_some, Option.map_eq_some_iff,
            Option.some_inj] at hstep
          obtain ⟨hcur, r, ⟨-, rfl⟩, rfl⟩ := hstep
          obtain ⟨o, ho, hmem⟩ := h.current _ hcur
          obtain rfl : order = o := by simpa using hpc.symm.trans ho
          refine ⟨⟨h.tracker, h.ids, h.unique, h.held, by simp, ?_, h.messages⟩,
            fun hc => hc.congr rfl rfl⟩
          rintro o' id' ⟨⟩
          exact hmem
      | error _ | threw =>
          simp only [step, Replace.step, hpc, Option.map_some, Option.some_inj] at hstep
          subst hstep
          exact ⟨h.quiet rfl rfl rfl rfl rfl (by simp), fun hc => hc.congr rfl rfl⟩
  | _ => cases reply <;> simp [step, Replace.step, hpc] at hstep

/-- What a record does to the slots. -/
theorem Inv.slotAt_record (h : Inv s) {order : Order} {id : List UInt8}
    (hpc : s.replace.pc = .recording order id) (hstep : step s .record = some t)
    (slot : OrderSlotKey) :
    slotAt t slot =
      if slot = Replace.slotOf order then some (CharArray.ofBytes 48 id) else slotAt s slot := by
  obtain ⟨tr, htr⟩ := Option.isSome_iff_exists.1 h.tracker
  simp only [step, Replace.step, hpc, Option.map_some, Option.some_inj] at hstep
  subst hstep
  simp [slotAt, Gateway.record, htr, PendingOrderTracker.recordOrder_slots, Replace.slotOf]

/-- The record: an order goes into its slot, and it is in time when its last message was not
processed. -/
theorem Inv.record (h : Inv s) (hstep : step s .record = some t) :
    Inv t ∧ (RecordInTime s .record → Clean s → Clean t) := by
  cases hpc : s.replace.pc with
  | recording order id =>
      have hslots := h.slotAt_record hpc hstep
      have hmem := h.recording order id hpc
      obtain ⟨r, hr, rfl⟩ := Option.map_eq_some_iff.1 hstep
      simp only [Replace.step, hpc, Option.some_inj] at hr
      subst hr
      refine ⟨⟨?_, h.ids, h.unique, ?_, ?_, by simp, h.messages⟩, ?_⟩
      · obtain ⟨tr, htr⟩ := Option.isSome_iff_exists.1 h.tracker
        simp [Gateway.record, htr]
      · intro slot stored hslot
        rw [hslots] at hslot
        split_ifs at hslot with heq
        · exact ⟨id, heq ▸ hmem, (Option.some_inj.1 hslot).symm⟩
        · exact h.held slot stored hslot
      · simp [h.current_eq_none (by simp [hpc])]
      · intro htime hc message hmsg hterm slot hslot
        simp only [RecordInTime, hpc] at htime
        rw [hslots] at hslot
        split_ifs at hslot
        · exact htime message hmsg hterm
            (h.stored_inj hmem (h.messages message (Or.inr hmsg)) (Option.some_inj.1 hslot)).symm
        · exact hc message hmsg hterm slot hslot
  | _ => simp [step, Replace.step, hpc] at hstep

/-- The broker sends a message. -/
theorem Inv.emit (h : Inv s) {message : TradeMessage}
    (hstep : step s (.emit message) = some t) : Inv t ∧ (Clean s → Clean t) := by
  simp only [step, Option.ite_none_right_eq_some, Option.some_inj] at hstep
  obtain ⟨hmem, rfl⟩ := hstep
  refine ⟨⟨h.tracker, h.ids, h.unique, h.held, h.current, h.recording, ?_⟩,
    fun hc => hc.congr rfl rfl⟩
  intro message' hmem'
  rw [List.mem_append, List.mem_singleton, or_right_comm] at hmem'
  rcases hmem' with hmem' | rfl
  · exact h.messages message' hmem'
  · exact hmem

/-- The listener processes a message: if it is the last one of its order, the order is in no slot
afterwards, since it can only be in the slot that is erased. -/
theorem Inv.process (h : Inv s) (hstep : step s .process = some t) :
    Inv t ∧ (Clean s → Clean t) := by
  cases hstream : s.stream with
  | nil => simp [step, hstream] at hstep
  | cons message rest =>
      have hmsg := h.messages message (by simp [hstream])
      have hid := h.ids _ _ hmsg
      obtain ⟨r, hr, hpc, htracker⟩ := foldlM_receive s.listener s.replace hid
      simp only [step, hstream, hr, Option.map_some, Option.some_inj] at hstep
      subst hstep
      obtain ⟨tr, htr⟩ := Option.isSome_iff_exists.1 h.tracker
      -- a slot keeps what it holds, or it is the slot of this message and is erased
      have hkeep : ∀ slot stored,
          (r.gateway.pendingTracker.bind fun tr => tr.slots slot) = some stored →
          slotAt s slot = some stored ∧
            (Terminal message → slot = messageSlot message → stored.view ≠ messageId message) := by
        intro slot stored hslot
        rw [htracker, htr] at hslot
        split_ifs at hslot with hterm
        · rw [Option.map_some, Option.bind_some,
            PendingOrderTracker.onOrderCompleted_slots] at hslot
          split_ifs at hslot with herase
          refine ⟨by simpa [slotAt, htr] using hslot, ?_⟩
          rintro - rfl hview
          exact herase ⟨rfl, by rw [hslot, Option.map_some, hview]⟩
        · exact ⟨by simpa [slotAt, htr] using hslot, fun hterm' => absurd hterm' hterm⟩
      refine ⟨⟨?_, h.ids, h.unique, ?_, ?_, ?_, ?_⟩, ?_⟩
      · rw [htracker, htr]
        split_ifs <;> rfl
      · exact fun slot stored hslot => h.held slot stored (hkeep slot stored hslot).1
      · simpa [hpc] using h.current
      · simpa [hpc] using h.recording
      · intro message' hmem
        rw [List.mem_append, List.mem_singleton] at hmem
        refine h.messages message' ?_
        rw [hstream]
        rcases hmem with hmem | hmem | rfl
        · exact Or.inl (List.mem_cons_of_mem _ hmem)
        · exact Or.inr hmem
        · exact Or.inl List.mem_cons_self
      · intro hc message' hmem hterm slot hslot
        obtain ⟨hs, herased⟩ := hkeep slot _ hslot
        rcases List.mem_append.1 hmem with hmem | hmem
        · exact hc message' hmem hterm slot hs
        · obtain rfl := List.mem_singleton.1 hmem
          obtain ⟨id, hacc, hstored⟩ := h.held slot _ hs
          obtain rfl := h.stored_inj hmsg hacc hstored
          exact herased hterm (h.slot_eq hacc hmsg) hid.view

/-- **Every step keeps the invariant**, and the slots clean unless it is a record that is late. -/
theorem Inv.step (h : Inv s) {a : Action} (hstep : Stale.step s a = some t) :
    Inv t ∧ (RecordInTime s a → Clean s → Clean t) := by
  cases a with
  | dequeue order => exact (h.dequeue hstep).imp_right fun hc _ => hc
  | cancelReply reply => exact (h.cancelReply hstep).imp_right fun hc _ => hc
  | accept id => exact (h.accept hstep).imp_right fun hc _ => hc
  | placeReply reply => exact (h.placeReply hstep).imp_right fun hc _ => hc
  | record => exact h.record hstep
  | emit message => exact (h.emit hstep).imp_right fun hc _ => hc
  | process => exact (h.process hstep).imp_right fun hc _ => hc

/-- A record that is late leaves a stale slot. -/
theorem Inv.not_noStaleSlot (h : Inv s) {a : Action} (hlate : ¬ RecordInTime s a) :
    ∃ t, Stale.step s a = some t ∧ ¬ NoStaleSlot t := by
  cases a with
  | record =>
      cases hpc : s.replace.pc with
      | recording order id =>
          simp only [RecordInTime, hpc, not_forall, not_not] at hlate
          obtain ⟨message, hmsg, hterm, rfl⟩ := hlate
          have hrec : ∃ t, Stale.step s .record = some t ∧ t.replace.pc = .idle ∧
              t.processed = s.processed := by
            simp [Stale.step, Replace.step, hpc]
          obtain ⟨t, hstep, hidle, hprocessed⟩ := hrec
          refine ⟨t, hstep, fun hclean => ?_⟩
          refine hclean (by simp [hidle]) message (hprocessed ▸ hmsg) hterm
            (Replace.slotOf order) ?_
          rw [h.slotAt_record hpc hstep, if_pos rfl]
      | _ => simp [RecordInTime, hpc] at hlate
  | _ => exact absurd trivial hlate

end Steps

end Stale

/-- **No stale pending slot, exactly when every record is in time.**  The slots are free of orders
that are done, in every state of a run in which the gateway is not about to record, if and only if
each record of the run comes before the last message of its order is processed. -/
theorem no_stale_slot_iff (pm : PositionManager) (as : List Stale.Action) :
    (∀ as' s, as' <+: as → Runs.exec Stale.step (Stale.init pm) as' = some s →
        Stale.NoStaleSlot s) ↔
      Runs.AllSteps Stale.step Stale.RecordInTime (Stale.init pm) as := by
  have hinv : ∀ as' s, Runs.exec Stale.step (Stale.init pm) as' = some s → Stale.Inv s := by
    intro as' s hrun
    exact Runs.exec_inv (fun s a t h hst => (h.step hst).1) (Stale.inv_init pm) hrun
  constructor
  · intro hclean
    by_contra hnot
    obtain ⟨as', a, s, hpre, hrun, hlate⟩ := Runs.exists_of_not_allSteps hnot
    obtain ⟨t, hstep, hstale⟩ := (hinv as' s hrun).not_noStaleSlot hlate
    exact hstale (hclean _ t hpre ((Runs.exec_concat hrun).trans hstep))
  · intro hok as' s hpre hrun
    have hboth : Stale.Inv s ∧ Stale.Clean s :=
      Runs.exec_inv_of_allSteps (I := fun s => Stale.Inv s ∧ Stale.Clean s)
        (fun s a t h hoka hst => ⟨(h.1.step hst).1, (h.1.step hst).2 hoka h.2⟩)
        ⟨Stale.inv_init pm, Stale.clean_init pm⟩ (hok.of_isPrefix hpre) hrun
    exact hboth.2.noStaleSlot

/-- The order is executed at once: its last message is processed while the reply is on its way, and
the record that follows stays in the tracker. -/
theorem no_stale_slot_fails :
    let order : Order :=
      { symbol := CharArray.ofBytes 8 [65, 65, 80, 76], quantity := 10, side := .buy }
    let id : List UInt8 := [97, 45, 49]
    let as : List Stale.Action :=
      [.dequeue order, .accept id, .emit (.execution false id [65, 65, 80, 76] .buy 10 100),
        .process, .placeReply (.success ⟨id⟩), .record]
    ¬ ∀ s, Runs.exec Stale.step (Stale.init {}) as = some s → Stale.NoStaleSlot s := by
  intro order id as hclean
  have hrun : (Runs.exec Stale.step (Stale.init {}) as).any (fun s =>
      s.replace.pc = .idle ∧
        .execution false id [65, 65, 80, 76] .buy 10 100 ∈ s.processed ∧
        Stale.slotAt s (Replace.slotOf order) = some (CharArray.ofBytes 48 id)) = true := by
    decide +kernel
  obtain ⟨s, hs, hprops⟩ := (Option.any_eq_true _ _).1 hrun
  obtain ⟨hpc, hprocessed, hslot⟩ := of_decide_eq_true hprops
  exact hclean s hs (by simp [hpc]) _ hprocessed rfl _ hslot

end Trading
