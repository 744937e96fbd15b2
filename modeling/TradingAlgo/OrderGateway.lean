/-
**The order gateway and the pending order tracker.**

`src/OrderGateway.cpp` sends the approved orders to the broker, one at a time.  With a
`PendingOrderTracker` it first cancels the order it last placed for the same symbol and side, and
places the new one only when that cancellation was accepted.  The listener erases a slot of the
tracker when it learns that the order in it is done, at any time between two accesses of the
gateway.

The REST client is outside: what a request returns, and whether it throws, is an argument of the
step that makes it.

Main definitions:

* `Trading.PendingOrderTracker` — `getExistingOrder`, `recordOrder`, `onOrderCompleted`;
* `Trading.Gateway.executeOrder` — one order, in one piece;
* `Trading.Replace.State`, `Trading.Replace.step` — the accesses and requests of `executeOrder` one
  by one, interleaved with the listener's completions.

Main results:

* `Trading.Gateway.executeOrder_cases` — everything `executeOrder` can do;
* `Trading.Replace.exec_eq_executeOrder` — in one piece it is an uninterrupted run of its steps;
* `Trading.cancel_before_replace` — no order is placed over a live one whose cancellation was not
  accepted.
-/

import TradingAlgo.PositionManager
import TradingAlgo.Runs

set_option relaxedAutoImplicit false
set_option autoImplicit false

namespace Trading

/-! ### The tracker -/

/-- `OrderSlotKey`: a symbol and a side. -/
structure OrderSlotKey where
  symbol : CharArray 8
  side : OrderSide
  deriving DecidableEq, Repr

/-- `AlpacaOrderId`: 48 bytes that hold an order id, NUL-padded. -/
abbrev AlpacaOrderId := CharArray 48

/-- `PendingOrderTracker`: at most one order id for each slot. -/
structure PendingOrderTracker where
  slots : OrderSlotKey → Option AlpacaOrderId := fun _ => none

namespace PendingOrderTracker

/-- `getExistingOrder`. -/
def getExistingOrder (t : PendingOrderTracker) (symbol : CharArray 8) (side : OrderSide) :
    Option AlpacaOrderId :=
  t.slots ⟨symbol, side⟩

/-- `recordOrder`: the slot is overwritten with what fits of the id. -/
def recordOrder (t : PendingOrderTracker) (symbol : CharArray 8) (side : OrderSide)
    (alpacaOrderId : List UInt8) : PendingOrderTracker :=
  { slots := Function.update t.slots ⟨symbol, side⟩ (some (CharArray.ofBytes 48 alpacaOrderId)) }

/-- `onOrderCompleted`: the slot is erased when it holds just this id. -/
def onOrderCompleted (t : PendingOrderTracker) (symbol : CharArray 8) (side : OrderSide)
    (alpacaOrderId : List UInt8) : PendingOrderTracker :=
  match t.slots ⟨symbol, side⟩ with
  | some stored =>
      if stored.view = alpacaOrderId then
        { slots := Function.update t.slots ⟨symbol, side⟩ none }
      else t
  | none => t

theorem recordOrder_slots (t : PendingOrderTracker) (symbol : CharArray 8) (side : OrderSide)
    (id : List UInt8) (slot : OrderSlotKey) :
    (t.recordOrder symbol side id).slots slot =
      if slot = ⟨symbol, side⟩ then some (CharArray.ofBytes 48 id) else t.slots slot :=
  Function.update_apply ..

/-- What a completion erases: the slot that it names, when the id in it compares equal. -/
theorem onOrderCompleted_slots (t : PendingOrderTracker) (symbol : CharArray 8) (side : OrderSide)
    (id : List UInt8) (slot : OrderSlotKey) :
    (t.onOrderCompleted symbol side id).slots slot =
      if slot = ⟨symbol, side⟩ ∧ (t.slots slot).map CharArray.view = some id then none
      else t.slots slot := by
  unfold onOrderCompleted
  by_cases hslot : slot = ⟨symbol, side⟩
  · subst hslot
    cases hstored : t.slots ⟨symbol, side⟩ with
    | none => simp [hstored]
    | some stored =>
        by_cases hview : stored.view = id
        · simp [hview]
        · simp [hview, hstored]
  · rw [if_neg fun h => hslot h.1]
    split
    · split_ifs
      · exact Function.update_of_ne hslot _ _
      · rfl
    · rfl

end PendingOrderTracker

/-! ### The gateway -/

/-- What a request to the broker comes to: a result, an `OrderError` with its status code, or an
exception. -/
inductive Outcome (α : Type)
  | success (result : α)
  | error (statusCode : ℤ)
  | threw
  deriving DecidableEq, Repr

/-- `OrderAck`, without the status that is only logged. -/
structure OrderAck where
  clientOrderId : List UInt8
  deriving DecidableEq, Repr

/-- `cancel_accepted`: the cancellation succeeded, or the broker answered 422, that the order can
no longer be cancelled. -/
def Outcome.cancelAccepted : Outcome Unit → Bool
  | .success () => true
  | .error statusCode => statusCode = 422
  | .threw => false

/-- The requests to the broker. -/
inductive Request
  | cancelOrder (alpacaOrderId : List UInt8)
  | placeOrder (order : Order)
  deriving DecidableEq, Repr

/-- The gateway with the components it writes to.  `requests` are the calls of the REST client,
`submits` those that a `LatencyTracker` gets of `recordOrderSubmit`, in order. -/
structure Gateway where
  positionManager : PositionManager
  pendingTracker : Option PendingOrderTracker := none
  requests : List Request := []
  submits : List (List UInt8) := []

namespace Gateway

/-- `position_manager_->onOrderCancelled(order)`. -/
def release (g : Gateway) (order : Order) : Gateway :=
  { g with positionManager := g.positionManager.onOrderCancelled order }

/-- The id that the tracker holds for the order's slot. -/
def existingOrder (g : Gateway) (order : Order) : Option AlpacaOrderId :=
  g.pendingTracker.bind fun t => t.getExistingOrder order.symbol order.side

/-- The records of an accepted placement: in the tracker if there is one, and for the latency. -/
def record (g : Gateway) (order : Order) (clientOrderId : List UInt8) : Gateway :=
  { g with
    pendingTracker :=
      g.pendingTracker.map fun t => t.recordOrder order.symbol order.side clientOrderId
    submits := g.submits ++ [clientOrderId] }

/-- The second half of `executeOrder`: the placement. -/
def place (g : Gateway) (order : Order) (reply : Outcome OrderAck) : Gateway :=
  let g : Gateway := { g with requests := g.requests ++ [.placeOrder order] }
  match reply with
  | .success ack => g.record order ack.clientOrderId
  | .error _ => g.release order
  | .threw => g.release order

/-- `executeOrder`, with what the two requests come to. -/
def executeOrder (g : Gateway) (order : Order) (cancelReply : Outcome Unit)
    (placeReply : Outcome OrderAck) : Gateway :=
  match g.existingOrder order with
  | none => g.place order placeReply
  | some prevId =>
      let g : Gateway := { g with requests := g.requests ++ [.cancelOrder prevId.view] }
      if cancelReply.cancelAccepted then g.place order placeReply
      else g.release order

/-- **Everything `executeOrder` can do to the counters**: nothing, when the order is placed, and
the release of the order otherwise. -/
theorem executeOrder_cases (g : Gateway) (order : Order) (cancelReply : Outcome Unit)
    (placeReply : Outcome OrderAck) :
    (∃ ack, placeReply = .success ack ∧
      (g.executeOrder order cancelReply placeReply).positionManager = g.positionManager ∧
      (g.executeOrder order cancelReply placeReply).submits =
        g.submits ++ [ack.clientOrderId]) ∨
    ((g.executeOrder order cancelReply placeReply).positionManager =
        g.positionManager.onOrderCancelled order ∧
      (g.executeOrder order cancelReply placeReply).submits = g.submits) := by
  unfold executeOrder
  have hplace : ∀ g' : Gateway, g'.positionManager = g.positionManager →
      g'.submits = g.submits →
      (∃ ack, placeReply = .success ack ∧
        (g'.place order placeReply).positionManager = g.positionManager ∧
        (g'.place order placeReply).submits = g.submits ++ [ack.clientOrderId]) ∨
      ((g'.place order placeReply).positionManager = g.positionManager.onOrderCancelled order ∧
        (g'.place order placeReply).submits = g.submits) := by
    intro g' hpm hsub
    cases placeReply with
    | success ack => exact Or.inl ⟨ack, rfl, hpm, by simp [place, record, hsub]⟩
    | _ => exact Or.inr ⟨by simp [place, release, hpm], by simp [place, release, hsub]⟩
  cases g.existingOrder order with
  | none => exact hplace g rfl rfl
  | some prevId =>
      by_cases hacc : cancelReply.cancelAccepted = true
      · simp only [hacc, if_true]
        exact hplace _ rfl rfl
      · simp only [hacc]
        exact Or.inr ⟨rfl, rfl⟩

end Gateway

/-! ### The gateway step by step -/

namespace Replace

/-- Where the gateway stands in `executeOrder`: before it takes an order from the queue, before a
request, or before the record of an accepted placement. -/
inductive Pc
  | idle
  | cancelling (order : Order) (prevId : AlpacaOrderId)
  | placing (order : Order)
  | recording (order : Order) (clientOrderId : List UInt8)
  deriving DecidableEq, Repr

/-- The gateway, where it stands, and the log: the orders placed with their slots, the completions
the listener has processed, and the cancellations with what they came to. -/
structure State where
  gateway : Gateway
  pc : Pc := .idle
  placed : List (OrderSlotKey × List UInt8) := []
  completed : List (OrderSlotKey × List UInt8) := []
  cancels : List (List UInt8 × Outcome Unit) := []

/-- The steps: an order is taken and the tracker read, the two requests return, the tracker is
written, and the listener reports an order as done. -/
inductive Action
  | dequeue (order : Order)
  | cancelReply (reply : Outcome Unit)
  | placeReply (reply : Outcome OrderAck)
  | record
  | completed (slot : OrderSlotKey) (alpacaOrderId : List UInt8)
  deriving DecidableEq, Repr

/-- The slot of an order. -/
def slotOf (order : Order) : OrderSlotKey := ⟨order.symbol, order.side⟩

/-- The ids that the broker gives: not empty, NUL-free, of at most 48 bytes, and new. -/
def FreshId (s : State) (id : List UInt8) : Prop :=
  id ≠ [] ∧ (0 : UInt8) ∉ id ∧ id.length ≤ 48 ∧ id ∉ s.placed.map Prod.snd

instance (s : State) (id : List UInt8) : Decidable (FreshId s id) :=
  inferInstanceAs (Decidable (_ ∧ _ ∧ _ ∧ _))

/-- The step function. -/
def step (s : State) : Action → Option State
  | .dequeue order =>
      match s.pc with
      | .idle =>
          some { s with
            pc :=
              match s.gateway.existingOrder order with
              | none => .placing order
              | some prevId => .cancelling order prevId }
      | _ => none
  | .cancelReply reply =>
      match s.pc with
      | .cancelling order prevId =>
          let g : Gateway :=
            { s.gateway with requests := s.gateway.requests ++ [.cancelOrder prevId.view] }
          some { s with
            gateway := if reply.cancelAccepted then g else g.release order
            pc := if reply.cancelAccepted then .placing order else .idle
            cancels := s.cancels ++ [(prevId.view, reply)] }
      | _ => none
  | .placeReply reply =>
      match s.pc with
      | .placing order =>
          let g : Gateway :=
            { s.gateway with requests := s.gateway.requests ++ [.placeOrder order] }
          match reply with
          | .success ack =>
              if FreshId s ack.clientOrderId then
                some { s with
                  gateway := g
                  pc := .recording order ack.clientOrderId
                  placed := s.placed ++ [(slotOf order, ack.clientOrderId)] }
              else none
          | .error _ => some { s with gateway := g.release order, pc := .idle }
          | .threw => some { s with gateway := g.release order, pc := .idle }
      | _ => none
  | .record =>
      match s.pc with
      | .recording order clientOrderId =>
          some { s with gateway := s.gateway.record order clientOrderId, pc := .idle }
      | _ => none
  | .completed slot id =>
      some { s with
        gateway :=
          { s.gateway with
            pendingTracker :=
              s.gateway.pendingTracker.map fun t => t.onOrderCompleted slot.symbol slot.side id }
        completed := s.completed ++ [(slot, id)] }

/-- The start: an empty tracker. -/
def init (pm : PositionManager) : State where
  gateway := { positionManager := pm, pendingTracker := some {} }

/-- **`executeOrder` in one piece is an uninterrupted run of its steps.** -/
theorem exec_eq_executeOrder (s : State) (hpc : s.pc = .idle) (order : Order)
    (cancelReply : Outcome Unit) (placeReply : Outcome OrderAck)
    (hfresh : ∀ ack, placeReply = .success ack → FreshId s ack.clientOrderId) :
    ∃ as t, Runs.exec step s as = some t ∧ t.pc = .idle ∧
      t.gateway = s.gateway.executeOrder order cancelReply placeReply := by
  have hplace : ∀ s' : State, s'.pc = .placing order → s'.placed = s.placed →
      ∃ as t, Runs.exec step s' as = some t ∧ t.pc = .idle ∧
        t.gateway = s'.gateway.place order placeReply := by
    intro s' hpc' hplaced
    cases placeReply with
    | success ack =>
        have hfresh' : FreshId s' ack.clientOrderId := by
          rw [FreshId, hplaced]
          exact hfresh ack rfl
        refine ⟨[.placeReply (.success ack), .record], ?_⟩
        simp [step, hpc', hfresh', Gateway.place]
    | error statusCode =>
        refine ⟨[.placeReply (.error statusCode)], ?_⟩
        simp [step, hpc', Gateway.place]
    | threw =>
        refine ⟨[.placeReply .threw], ?_⟩
        simp [step, hpc', Gateway.place]
  unfold Gateway.executeOrder
  cases hprev : s.gateway.existingOrder order with
  | none =>
      obtain ⟨as, t, hrun, ht⟩ := hplace { s with pc := .placing order } rfl rfl
      refine ⟨.dequeue order :: as, t, ?_, ht⟩
      simpa [step, hpc, hprev] using hrun
  | some prevId =>
      by_cases hacc : cancelReply.cancelAccepted = true
      · simp only [hacc, if_true]
        obtain ⟨as, t, hrun, ht⟩ := hplace
          { s with
            gateway :=
              { s.gateway with requests := s.gateway.requests ++ [.cancelOrder prevId.view] }
            pc := .placing order
            cancels := s.cancels ++ [(prevId.view, cancelReply)] } rfl rfl
        refine ⟨.dequeue order :: .cancelReply cancelReply :: as, t, ?_, ht⟩
        simpa [step, hpc, hprev, hacc] using hrun
      · refine ⟨[.dequeue order, .cancelReply cancelReply], ?_⟩
        simp [step, hpc, hprev, hacc]

/-! ### Cancel before replace -/

/-- The order is out of the way: the listener has processed its completion, or a cancellation of
its id was accepted. -/
def Cleared (s : State) (slot : OrderSlotKey) (id : List UInt8) : Prop :=
  (slot, id) ∈ s.completed ∨ ∃ reply, (id, reply) ∈ s.cancels ∧ reply.cancelAccepted = true

/-- What holds of an order that was placed, given where the gateway stands: it is cleared, or it is
the one order of its slot that the tracker or the gateway still knows. -/
def Known (s : State) (slot : OrderSlotKey) (id : List UInt8) : Prop :=
  match s.pc with
  | .placing order => slotOf order = slot → Cleared s slot id
  | .recording order clientOrderId => slotOf order = slot → id ≠ clientOrderId → Cleared s slot id
  | .cancelling order prevId =>
      slotOf order = slot → prevId ≠ CharArray.ofBytes 48 id → Cleared s slot id
  | .idle => True

/-- The tracker holds the order, or the gateway is about to record it. -/
def Held (s : State) (slot : OrderSlotKey) (id : List UInt8) : Prop :=
  (∃ t, s.gateway.pendingTracker = some t ∧ t.slots slot = some (CharArray.ofBytes 48 id)) ∨
    ∃ order, s.pc = .recording order id ∧ slotOf order = slot

/-- The invariant. -/
structure Inv (s : State) : Prop where
  tracker : s.gateway.pendingTracker.isSome
  ids : ∀ slot id, (slot, id) ∈ s.placed → (0 : UInt8) ∉ id ∧ id.length ≤ 48
  held : ∀ slot id, (slot, id) ∈ s.placed → Cleared s slot id ∨ Held s slot id
  known : ∀ slot id, (slot, id) ∈ s.placed → Known s slot id

theorem Cleared.mono {s t : State} {slot : OrderSlotKey} {id : List UInt8}
    (h : Cleared s slot id) (hcompleted : s.completed ⊆ t.completed)
    (hcancels : s.cancels ⊆ t.cancels) : Cleared t slot id := by
  rcases h with h | ⟨reply, h, hacc⟩
  · exact Or.inl (hcompleted h)
  · exact Or.inr ⟨reply, hcancels h, hacc⟩

theorem inv_init (pm : PositionManager) : Inv (init pm) where
  tracker := rfl
  ids := by simp [init]
  held := by simp [init]
  known := by simp [init]

section Steps

variable {s t : State}

/-- While no placement waits for its record, an order that is not cleared is in the tracker. -/
theorem Inv.tracked (h : Inv s) (hpc : ∀ order id, s.pc ≠ .recording order id)
    (slot : OrderSlotKey) (id : List UInt8) (hmem : (slot, id) ∈ s.placed) :
    Cleared s slot id ∨ ∃ t, s.gateway.pendingTracker = some t ∧
      t.slots slot = some (CharArray.ofBytes 48 id) := by
  rcases h.held slot id hmem with hc | ht | ⟨order, hrec, -⟩
  · exact Or.inl hc
  · exact Or.inr ht
  · exact absurd hrec (hpc order id)

/-- The order is taken: whatever is not cleared in its slot is the id that the tracker returns. -/
theorem Inv.dequeue (h : Inv s) {order : Order} (hstep : Replace.step s (.dequeue order) = some t) :
    Inv t := by
  cases hpc : s.pc with
  | idle =>
      simp only [Replace.step, hpc, Option.some_inj] at hstep
      subst hstep
      have hslot := h.tracked (by simp [hpc])
      refine ⟨h.tracker, h.ids, fun slot id hmem => ?_, fun slot id hmem => ?_⟩
      · exact (hslot slot id hmem).imp_right Or.inl
      · cases hprev : s.gateway.existingOrder order with
        | none =>
            rintro rfl
            rcases hslot _ id hmem with hc | ⟨tr, htr, hid⟩
            · exact hc
            · rw [slotOf] at hid
              simp [Gateway.existingOrder, htr, PendingOrderTracker.getExistingOrder, hid] at hprev
        | some prevId =>
            -- the tracker holds one id for the slot, and it is the one that was read
            rintro rfl hne
            rcases hslot _ id hmem with hc | ⟨tr, htr, hid⟩
            · exact hc
            · rw [slotOf] at hid
              simp only [Gateway.existingOrder, htr, PendingOrderTracker.getExistingOrder, hid,
                Option.bind_some, Option.some_inj] at hprev
              exact absurd hprev.symm hne
  | _ => simp [Replace.step, hpc] at hstep

/-- The cancellation returns: accepted, it clears the order whose id it was made for. -/
theorem Inv.cancelReply (h : Inv s) {reply : Outcome Unit}
    (hstep : Replace.step s (.cancelReply reply) = some t) : Inv t := by
  cases hpc : s.pc with
  | cancelling order prevId =>
      simp only [Replace.step, hpc, Option.some_inj] at hstep
      subst hstep
      have hsub : s.cancels ⊆ s.cancels ++ [(prevId.view, reply)] := List.subset_append_left _ _
      refine ⟨?_, h.ids, fun slot id hmem => ?_, fun slot id hmem => ?_⟩
      · by_cases hacc : reply.cancelAccepted = true <;>
          simpa [hacc, Gateway.release] using h.tracker
      · rcases h.tracked (by simp [hpc]) slot id hmem with hc | ht
        · exact Or.inl (hc.mono (List.Subset.refl _) hsub)
        · right
          left
          by_cases hacc : reply.cancelAccepted = true <;> simpa [hacc, Gateway.release] using ht
      · by_cases hacc : reply.cancelAccepted = true
        · simp only [Known, hacc, if_true]
          intro hslot
          have hknown := h.known slot id hmem
          simp only [Known, hpc] at hknown
          -- the request was made for the stored bytes: they are the id, since it fits
          by_cases hid : prevId = CharArray.ofBytes 48 id
          · obtain ⟨hnul, hlen⟩ := h.ids slot id hmem
            have hview : prevId.view = id := by rw [hid, CharArray.view_ofBytes hnul hlen]
            exact Or.inr ⟨reply, by simp [hview], hacc⟩
          · exact (hknown hslot hid).mono (List.Subset.refl _) hsub
        · simp [Known, hacc]
  | _ => simp [Replace.step, hpc] at hstep

/-- The placement returns: the slot was clear, so the new order is the only one of it. -/
theorem Inv.placeReply (h : Inv s) {reply : Outcome OrderAck}
    (hstep : Replace.step s (.placeReply reply) = some t) : Inv t := by
  cases hpc : s.pc with
  | placing order =>
      have hheld := h.tracked (by simp [hpc])
      cases reply with
      | success ack =>
          simp only [Replace.step, hpc, Option.ite_none_right_eq_some, Option.some_inj] at hstep
          obtain ⟨⟨-, hnul, hlen, -⟩, rfl⟩ := hstep
          refine ⟨h.tracker, fun slot id hmem => ?_, fun slot id hmem => ?_,
            fun slot id hmem => ?_⟩
          · rcases List.mem_append.1 hmem with hmem | hmem
            · exact h.ids slot id hmem
            · obtain ⟨rfl, rfl⟩ := Prod.mk.inj (List.mem_singleton.1 hmem)
              exact ⟨hnul, hlen⟩
          · rcases List.mem_append.1 hmem with hmem | hmem
            · exact (hheld slot id hmem).imp_right Or.inl
            · obtain ⟨rfl, rfl⟩ := Prod.mk.inj (List.mem_singleton.1 hmem)
              exact Or.inr (Or.inr ⟨order, rfl, rfl⟩)
          · intro hslot hne
            rcases List.mem_append.1 hmem with hmem | hmem
            · have hknown := h.known slot id hmem
              simp only [Known, hpc] at hknown
              exact hknown hslot
            · exact absurd (Prod.mk.inj (List.mem_singleton.1 hmem)).2 hne
      | error _ | threw =>
          simp only [Replace.step, hpc, Option.some_inj] at hstep
          subst hstep
          exact ⟨h.tracker, h.ids, fun slot id hmem => (hheld slot id hmem).imp_right Or.inl,
            fun _ _ _ => trivial⟩
  | _ => simp [Replace.step, hpc] at hstep

/-- The record: the order that was overwritten in the tracker is cleared. -/
theorem Inv.record (h : Inv s) (hstep : Replace.step s .record = some t) : Inv t := by
  cases hpc : s.pc with
  | recording order clientOrderId =>
      simp only [Replace.step, hpc, Option.some_inj] at hstep
      subst hstep
      obtain ⟨tr, htr⟩ := Option.isSome_iff_exists.1 h.tracker
      refine ⟨by simp [Gateway.record, htr], h.ids, fun slot id hmem => ?_, fun _ _ _ => trivial⟩
      have hknown := h.known slot id hmem
      simp only [Known, hpc] at hknown
      by_cases hslot : slotOf order = slot
      · by_cases hid : id = clientOrderId
        · right
          left
          refine ⟨tr.recordOrder order.symbol order.side clientOrderId,
            by simp [Gateway.record, htr], ?_⟩
          rw [← hslot, hid]
          exact Function.update_self _ _ _
        · exact Or.inl (hknown hslot hid)
      · rcases h.held slot id hmem with hc | ⟨tr', htr', hs⟩ | ⟨o, hrec, ho⟩
        · exact Or.inl hc
        · obtain rfl : tr = tr' := Option.some_inj.1 (htr.symm.trans htr')
          right
          left
          refine ⟨tr.recordOrder order.symbol order.side clientOrderId,
            by simp [Gateway.record, htr], ?_⟩
          exact (Function.update_of_ne (Ne.symm hslot) _ _).trans hs
        · rw [hpc] at hrec
          cases hrec
          exact absurd ho hslot
  | _ => simp [Replace.step, hpc] at hstep

/-- A completion erases a slot only when it is the one of the order in it. -/
theorem Inv.completed (h : Inv s) {slot : OrderSlotKey} {id : List UInt8}
    (hstep : Replace.step s (.completed slot id) = some t) : Inv t := by
  simp only [Replace.step, Option.some_inj] at hstep
  subst hstep
  have hsub : s.completed ⊆ s.completed ++ [(slot, id)] := List.subset_append_left _ _
  obtain ⟨tr, htr⟩ := Option.isSome_iff_exists.1 h.tracker
  refine ⟨by simp [htr], h.ids, fun slot' id' hmem => ?_, fun slot' id' hmem => ?_⟩
  · rcases h.held slot' id' hmem with hc | ⟨tr', htr', hs⟩ | hrec
    · exact Or.inl (hc.mono hsub (List.Subset.refl _))
    · obtain rfl : tr = tr' := Option.some_inj.1 (htr.symm.trans htr')
      obtain ⟨hnul, hlen⟩ := h.ids slot' id' hmem
      by_cases hsame : (slot', id') = (slot, id)
      · exact Or.inl (Or.inl (by simp [hsame]))
      · right
        left
        refine ⟨tr.onOrderCompleted slot.symbol slot.side id, by simp [htr], ?_⟩
        rw [PendingOrderTracker.onOrderCompleted_slots, if_neg, hs]
        -- otherwise the slot is that of the message, and the id in it compared equal
        rintro ⟨rfl, hview⟩
        rw [hs, Option.map_some, Option.some_inj, CharArray.view_ofBytes hnul hlen] at hview
        exact hsame (by rw [hview])
    · exact Or.inr (Or.inr hrec)
  · have hknown := h.known slot' id' hmem
    cases hpc : s.pc with
    | idle => simp [Known]
    | cancelling order prevId =>
        simp only [Known, hpc] at hknown ⊢
        exact fun hslot hne => (hknown hslot hne).mono hsub (List.Subset.refl _)
    | placing order =>
        simp only [Known, hpc] at hknown ⊢
        exact fun hslot => (hknown hslot).mono hsub (List.Subset.refl _)
    | recording order clientOrderId =>
        simp only [Known, hpc] at hknown ⊢
        exact fun hslot hne => (hknown hslot hne).mono hsub (List.Subset.refl _)

/-- **Every step keeps the invariant.** -/
theorem Inv.step (h : Inv s) {a : Action} (hstep : Replace.step s a = some t) : Inv t := by
  cases a with
  | dequeue order => exact h.dequeue hstep
  | cancelReply reply => exact h.cancelReply hstep
  | placeReply reply => exact h.placeReply hstep
  | record => exact h.record hstep
  | completed slot id => exact h.completed hstep

end Steps

end Replace

/-- **Cancel before replace.**  Whenever the gateway calls `placeOrder`, every earlier order that it
placed in the same slot has had a completion processed by the listener, or a `cancelOrder` call for
exactly its id has returned success or status 422. -/
theorem cancel_before_replace (pm : PositionManager) (as : List Replace.Action)
    (s : Replace.State) (hrun : Runs.exec Replace.step (Replace.init pm) as = some s)
    (order : Order) (hplace : s.pc = .placing order) (id : List UInt8)
    (hplaced : (Replace.slotOf order, id) ∈ s.placed)
    (hlive : (Replace.slotOf order, id) ∉ s.completed) :
    ∃ reply, (id, reply) ∈ s.cancels ∧ (reply = .success () ∨ reply = .error 422) := by
  have hinv := Runs.exec_inv (fun s a t h hst => Replace.Inv.step h hst) (Replace.inv_init pm) hrun
  have hknown := hinv.known _ _ hplaced
  simp only [Replace.Known, hplace] at hknown
  rcases hknown trivial with hc | ⟨reply, hmem, hacc⟩
  · exact absurd hc hlive
  · refine ⟨reply, hmem, ?_⟩
    cases reply with
    | success => exact Or.inl rfl
    | error statusCode =>
        right
        simpa [Outcome.cancelAccepted] using hacc
    | threw => simp [Outcome.cancelAccepted] at hacc

/-- A first order is placed; its replacement is about to be placed after a cancellation that the
broker answered with 422, while no completion has come in. -/
theorem cancel_before_replace_after_422 :
    let order : Order :=
      { symbol := CharArray.ofBytes 8 [65, 65, 80, 76], quantity := 10, side := .buy }
    let id : List UInt8 := [97, 45, 49]
    let as : List Replace.Action :=
      [.dequeue order, .placeReply (.success ⟨id⟩), .record, .dequeue order,
        .cancelReply (.error 422)]
    ∃ s, Runs.exec Replace.step (Replace.init {}) as = some s ∧ s.pc = .placing order ∧
      ∃ reply, (id, reply) ∈ s.cancels ∧ (reply = .success () ∨ reply = .error 422) := by
  intro order id as
  have hrun : (Runs.exec Replace.step (Replace.init {}) as).any (fun s =>
      s.pc = .placing order ∧ (Replace.slotOf order, id) ∈ s.placed ∧
        (Replace.slotOf order, id) ∉ s.completed) = true := by
    decide +kernel
  obtain ⟨s, hs, hprops⟩ := (Option.any_eq_true _ _).1 hrun
  obtain ⟨hpc, hplaced, hlive⟩ := of_decide_eq_true hprops
  exact ⟨s, hs, hpc, cancel_before_replace {} as s hs order hpc id hplaced hlive⟩

end Trading
