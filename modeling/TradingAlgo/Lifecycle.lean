/-
**The life of an order, from its approval to its last message.**

Three threads write to the two counters of a symbol: a consumer reserves the quantity of an order
when the risk manager approves it, the gateway gives it back when the order is not placed, and the
listener moves what is executed from the pending to the filled position and gives back the rest of
an order that ends unfilled.  The amount that is given back comes from the order in the one case and
from the broker's message in the other.

This module puts the calls of all three together, one call a step and in any interleaving, for any
family of orders of any symbols, and proves that the counters of every symbol are always what the
orders' own histories add up to.

Main definitions:

* `Trading.Lifecycle.Ticket` — an order's own history: where it stands, what the broker did, and
  which messages were processed;
* `Trading.Lifecycle.State`, `Trading.Lifecycle.step` — the components with the tickets, and the
  steps;
* `Trading.Lifecycle.Due` — the messages that are still to be processed, and what they come to;
* `Trading.Lifecycle.Conserved` — the invariant.

Main results:

* `Trading.Lifecycle.Conserved.step` — every step keeps the invariant;
* `Trading.lifecycle_conservation` — the pending and the filled position of every symbol, in every
  state that a run reaches.
-/

import TradingAlgo.ProfitLoss
import TradingAlgo.Reconnect

set_option relaxedAutoImplicit false
set_option autoImplicit false

namespace Trading

/-- A call of the listener as the components see it that it shares with the gateway. -/
def Gateway.receive (g : Gateway) (call : ListenerCall) : Gateway :=
  { g with
    positionManager := g.positionManager.receive call
    pendingTracker :=
      match call with
      | .onOrderCompleted slot id =>
          g.pendingTracker.map fun t => t.onOrderCompleted slot.symbol slot.side id
      | _ => g.pendingTracker }

theorem Gateway.foldl_receive (calls : List ListenerCall) (g : Gateway) :
    (calls.foldl Gateway.receive g).positionManager =
      calls.foldl PositionManager.receive g.positionManager := by
  induction calls generalizing g with
  | nil => rfl
  | cons call calls ih => exact ih (g.receive call)

namespace Lifecycle

open Session

/-! ### The machine -/

/-- Where an order stands: not approved yet, in the queue to the gateway, given back by the gateway,
or placed under an id. -/
inductive Phase
  | waiting
  | approved
  | released
  | placed (id : List UInt8)
  deriving DecidableEq, Repr

/-- The history of an order. -/
structure Ticket where
  phase : Phase := .waiting
  /-- What the broker did. -/
  broker : Progress := {}
  /-- The messages that the listener has not processed. -/
  inbox : List TradeMessage := []
  /-- The messages that it has. -/
  processed : List TradeMessage := []
  deriving DecidableEq, Repr

/-- The executed quantity that the listener has processed. -/
def Ticket.processedQty (t : Ticket) : ℤ := (t.processed.map messageFillQty).sum

/-- The order is approved, and neither given back nor has its last message been processed. -/
def Ticket.Open (t : Ticket) : Prop :=
  t.phase ≠ .waiting ∧ t.phase ≠ .released ∧ ∀ m ∈ t.processed, ¬ Terminal m

instance (t : Ticket) : Decidable t.Open := inferInstanceAs (Decidable (_ ∧ _ ∧ _))

/-- What is outstanding of an order. -/
def Ticket.outstanding (order : Order) (t : Ticket) : ℤ :=
  if t.Open then order.quantity - t.processedQty else 0

/-- The components, and the tickets of `n` orders. -/
structure State (n : ℕ) where
  gateway : Gateway
  listener : FillListener := {}
  tickets : Fin n → Ticket := fun _ => {}

/-- The steps: an approval, a run of `executeOrder`, what the broker does with an order that it has,
and the processing of the next message of an order. -/
inductive Action (n : ℕ)
  | approve (i : Fin n)
  | executeOrder (i : Fin n) (cancelReply : Outcome Unit) (placeReply : Outcome OrderAck)
  | execute (i : Fin n) (qty : ℤ) (price : ℚ)
  | finish (i : Fin n) (ending : Ending)
  | process (i : Fin n)
  deriving DecidableEq, Repr

/-- A placed order as the broker has it: `buildOrderPayload` sends the symbol up to the first NUL.
-/
def brokerOrder (order : Order) (id : List UInt8) : BrokerOrder where
  id := id
  symbol := order.symbol.view
  side := order.side
  qty := order.quantity

/-- Where an order stands after `executeOrder`: the acknowledgement of a placement has been
recorded, or there is none. -/
def phaseAfter (before after : Gateway) : Phase :=
  match after.submits.drop before.submits.length with
  | [] => .released
  | id :: _ => .placed id

variable {n : ℕ}

/-- The step function. -/
def step (orders : Fin n → Order) (s : State n) : Action n → Option (State n)
  | .approve i =>
      if (s.tickets i).phase = .waiting then
        some { s with
          gateway :=
            { s.gateway with
              positionManager := s.gateway.positionManager.onOrderSent (orders i) }
          tickets := Function.update s.tickets i { s.tickets i with phase := .approved } }
      else none
  | .executeOrder i cancelReply placeReply =>
      if (s.tickets i).phase = .approved then
        let g := s.gateway.executeOrder (orders i) cancelReply placeReply
        some { s with
          gateway := g
          tickets :=
            Function.update s.tickets i { s.tickets i with phase := phaseAfter s.gateway g } }
      else none
  | .execute i qty price =>
      match (s.tickets i).phase with
      | .placed id =>
          let t := s.tickets i
          let order := brokerOrder (orders i) id
          if t.broker.ending = none ∧ 0 < qty ∧ t.broker.executed + qty ≤ order.qty then
            some { s with
              tickets := Function.update s.tickets i
                { t with
                  broker := t.broker.execute order qty price
                  inbox := t.inbox ++ [executionMessage order t.broker qty price] } }
          else none
      | _ => none
  | .finish i ending =>
      match (s.tickets i).phase with
      | .placed id =>
          let t := s.tickets i
          if t.broker.ending = none ∧ ending ≠ .filled then
            some { s with
              tickets := Function.update s.tickets i
                { t with
                  broker := { t.broker with ending := some ending }
                  inbox := t.inbox ++ [endMessage (brokerOrder (orders i) id) t.broker] } }
          else none
      | _ => none
  | .process i =>
      match (s.tickets i).inbox with
      | [] => none
      | message :: inbox =>
          let r := s.listener.handleTradeUpdate message.update
          some
            { gateway := r.2.foldl Gateway.receive s.gateway
              listener := r.1
              tickets := Function.update s.tickets i
                { s.tickets i with
                  inbox := inbox
                  processed := (s.tickets i).processed ++ [message] } }

/-- The start: some symbols are registered, with or without a tracker. -/
def init (registered : List (List UInt8)) (tracker : Option PendingOrderTracker) : State n where
  gateway :=
    { positionManager := registered.foldl PositionManager.registerSymbol {}
      pendingTracker := tracker }

/-- What a quantity of the orders of a symbol adds up to, purchases less sales. -/
def total (orders : Fin n → Order) (tickets : Fin n → Ticket) (f : Order → Ticket → ℤ)
    (symbol : CharArray 8) : ℤ :=
  ∑ i, if (orders i).symbol = symbol then (orders i).side.signed (f (orders i) (tickets i)) else 0

theorem total_update (orders : Fin n → Order) (tickets : Fin n → Ticket)
    (f : Order → Ticket → ℤ) (symbol : CharArray 8) (i : Fin n) (x : Ticket) :
    total orders (Function.update tickets i x) f symbol =
      total orders tickets f symbol +
        if (orders i).symbol = symbol then
          (orders i).side.signed (f (orders i) x - f (orders i) (tickets i))
        else 0 := by
  rw [total, total, Runs.sum_update (fun j (y : Ticket) =>
    if (orders j).symbol = symbol then (orders j).side.signed (f (orders j) y) else 0)]
  split_ifs
  · rw [OrderSide.signed_sub]
    ring
  · ring

/-! ### The messages of an order -/

/-- The messages `ms` are still to be processed of an order of which the quantity `e` has been: they
lead to what the broker did, a terminal one is the last, and it accounts for the rest. -/
inductive Due (order : Order) (p : Progress) : ℤ → List TradeMessage → Prop
  | none {e : ℤ} (hexecuted : p.executed = e) (hending : p.ending = Option.none)
      (hle : e ≤ order.quantity) : Due order p e []
  | part {e qty : ℤ} {price : ℚ} {id : List UInt8} {ms : List TradeMessage}
      (hrest : Due order p (e + qty) ms) :
      Due order p e (.execution true id order.symbol.view order.side qty price :: ms)
  | last {e qty : ℤ} {price : ℚ} {id : List UInt8} (hlast : e + qty = order.quantity)
      (hending : p.ending ≠ Option.none) :
      Due order p e [.execution false id order.symbol.view order.side qty price]
  | ended {e : ℤ} {id : List UInt8} (hle : e ≤ order.quantity)
      (hending : p.ending ≠ Option.none) :
      Due order p e [.ended id order.symbol.view order.side order.quantity e]

/-- The broker goes on and sends a message. -/
theorem Due.append {order : Order} {p p' : Progress} {e : ℤ} {ms : List TradeMessage}
    {m : TradeMessage} (h : Due order p e ms) (hopen : p.ending = Option.none)
    (hm : p.executed ≤ order.quantity → Due order p' p.executed [m]) :
    Due order p' e (ms ++ [m]) := by
  -- by induction on what is due: only an order that has not ended gets a further message
  induction h with
  | none hexecuted _ hle =>
      subst hexecuted
      exact hm hle
  | part _ ih => exact Due.part ih
  | last _ hending => exact absurd hopen hending
  | ended _ hending => exact absurd hopen hending

/-- What holds of a ticket: before the placement nothing has happened at the broker, then the inbox
holds what is due, and after a terminal message nothing is. -/
inductive Ticket.Valid (order : Order) (t : Ticket) : Prop
  | idle (hphase : ∀ id, t.phase ≠ .placed id) (hbroker : t.broker = {}) (hinbox : t.inbox = [])
      (hprocessed : t.processed = [])
  | live (id : List UInt8) (hphase : t.phase = .placed id) (hopen : t.Open)
      (hdue : Due order t.broker t.processedQty t.inbox)
  | done (id : List UInt8) (hphase : t.phase = .placed id) (hclosed : ¬ t.Open)
      (hending : t.broker.ending ≠ none) (hinbox : t.inbox = [])

/-- Before the placement nothing has happened. -/
theorem Ticket.Valid.idle_of_ne {order : Order} {t : Ticket} (h : t.Valid order)
    (hphase : ∀ id, t.phase ≠ .placed id) : t.broker = {} ∧ t.inbox = [] ∧ t.processed = [] := by
  cases h with
  | idle _ hbroker hinbox hprocessed => exact ⟨hbroker, hinbox, hprocessed⟩
  | live id hplaced => exact absurd hplaced (hphase id)
  | done id hplaced => exact absurd hplaced (hphase id)

/-- A message names the symbol and the side of its order. -/
def About (order : Order) : TradeMessage → Prop
  | .execution _ _ symbol side _ _ => symbol = order.symbol.view ∧ side = order.side
  | .ended _ symbol side _ _ => symbol = order.symbol.view ∧ side = order.side

theorem Ticket.processedQty_append (t : Ticket) (inbox : List TradeMessage) (m : TradeMessage) :
    ({ t with inbox := inbox, processed := t.processed ++ [m] } : Ticket).processedQty =
      t.processedQty + messageFillQty m := by
  simp [Ticket.processedQty]

theorem Ticket.open_append (t : Ticket) (inbox : List TradeMessage) (m : TradeMessage) :
    ({ t with inbox := inbox, processed := t.processed ++ [m] } : Ticket).Open ↔
      t.Open ∧ ¬ Terminal m := by
  simp only [Ticket.Open, List.mem_append, List.mem_singleton, or_imp, forall_and, forall_eq]
  tauto

/-- **A message is processed**: what is outstanding falls by what its call accounts for, and the
ticket stays valid. -/
theorem Ticket.Valid.process {order : Order} {t : Ticket} {m : TradeMessage}
    {inbox : List TradeMessage} (h : t.Valid order) (hinbox : t.inbox = m :: inbox) :
    let t' : Ticket := { t with inbox := inbox, processed := t.processed ++ [m] }
    t'.Valid order ∧ About order m ∧
      t'.outstanding order = t.outstanding order - (messageFillQty m + messageReleaseQty m) := by
  intro t'
  have hqty : t'.processedQty = t.processedQty + messageFillQty m := t.processedQty_append inbox m
  have hopen' : t'.Open ↔ t.Open ∧ ¬ Terminal m := t.open_append inbox m
  cases h with
  | idle _ _ hnil => simp [hnil] at hinbox
  | done _ _ _ _ hnil => simp [hnil] at hinbox
  | live id hphase hopen hdue =>
      rw [hinbox] at hdue
      have hout : t.outstanding order = order.quantity - t.processedQty := if_pos hopen
      cases hdue with
      | part hrest =>
          have hstill : t'.Open := hopen'.2 ⟨hopen, by simp [Terminal]⟩
          refine ⟨.live id hphase hstill (by rw [hqty]; exact hrest), ⟨rfl, rfl⟩, ?_⟩
          rw [hout, Ticket.outstanding, if_pos hstill, hqty]
          simp only [messageFillQty, messageReleaseQty]
          ring
      | last hlast hending =>
          -- the last execution is all that was outstanding
          have hclosed : ¬ t'.Open := fun hstill => (hopen'.1 hstill).2 rfl
          refine ⟨.done id hphase hclosed hending rfl, ⟨rfl, rfl⟩, ?_⟩
          rw [hout, Ticket.outstanding, if_neg hclosed]
          simp only [messageFillQty, messageReleaseQty]
          omega
      | ended hle hending =>
          -- the message gives back the quantity less what was executed, all of it processed
          have hclosed : ¬ t'.Open := fun hstill => (hopen'.1 hstill).2 trivial
          refine ⟨.done id hphase hclosed hending rfl, ⟨rfl, rfl⟩, ?_⟩
          rw [hout, Ticket.outstanding, if_neg hclosed]
          simp only [messageFillQty, messageReleaseQty]
          omega

/-- The broker goes on with an order: nothing of it has been processed yet. -/
theorem Ticket.Valid.broker {order : Order} {t : Ticket} {id : List UInt8} {p : Progress}
    {m : TradeMessage} (h : t.Valid order) (hphase : t.phase = .placed id)
    (hnone : t.broker.ending = none)
    (hm : t.broker.executed ≤ order.quantity → Due order p t.broker.executed [m]) :
    ({ t with broker := p, inbox := t.inbox ++ [m] } : Ticket).Valid order := by
  cases h with
  | idle hidle => exact absurd hphase (hidle id)
  | live _ _ hopen hdue => exact .live id hphase hopen (hdue.append hnone hm)
  | done _ _ _ hending => exact absurd hnone hending

/-- The message of an execution is due after what was executed before it. -/
theorem due_execution (order : Order) (id : List UInt8) (p : Progress) {qty : ℤ} (price : ℚ)
    (hle : p.executed + qty ≤ order.quantity) :
    Due order (p.execute (brokerOrder order id) qty price) p.executed
      [executionMessage (brokerOrder order id) p qty price] := by
  by_cases hlast : p.executed + qty = order.quantity
  · simp only [executionMessage, brokerOrder, hlast, ne_eq, not_true_eq_false, decide_false]
    exact Due.last hlast (by simp [Progress.execute, hlast])
  · simp only [executionMessage, brokerOrder, ne_eq, hlast, not_false_eq_true, decide_true]
    exact Due.part (Due.none rfl (by simp [Progress.execute, hlast]) hle)

/-- **A message on the book**: it moves the executed quantity, and takes that and what it gives back
off the pending position. -/
theorem receive_message {pm : PositionManager} {b : Book} (h : pm.Refines b) {order : Order}
    (hpadded : CharArray.ofBytes 8 order.symbol.view = order.symbol)
    (hk : symbolBufferToKey order.symbol ≠ kEmptySlot)
    (hmem : symbolBufferToKey order.symbol ∈ b.keys) (l : FillListener) {m : TradeMessage}
    (habout : About order m) :
    ∃ (b' : Book) (f : Counters → Counters),
      ((l.handleTradeUpdate m.update).2.foldl PositionManager.receive pm).Refines b' ∧
      b'.keys = b.keys ∧
      b'.counters = Function.update b.counters (symbolBufferToKey order.symbol)
        (f (b.counters (symbolBufferToKey order.symbol))) ∧
      (∀ c, (f c).pending = c.pending -
        order.side.signed (messageFillQty m + messageReleaseQty m)) ∧
      ∀ c, (f c).filled = c.filled + order.side.signed (messageFillQty m) := by
  cases m with
  | execution isPartial id symbol side qty price =>
      obtain ⟨rfl, rfl⟩ := habout
      let fill : Fill := ⟨order.symbol, order.side, qty, price⟩
      have hcalls : (l.handleTradeUpdate (TradeMessage.execution isPartial id order.symbol.view
          order.side qty price).update).2.foldl PositionManager.receive pm = pm.onFill fill := by
        simp only [TradeMessage.update, FillListener.handleTradeUpdate,
          FillListener.processFillEvent, hpadded]
        split_ifs <;> rfl
      obtain ⟨hkeys, hcnt⟩ := Book.touch_of_takes (Or.inl hmem) fill.apply
      refine ⟨b.onFill fill, fill.apply, hcalls ▸ h.onFill fill hk,
        hkeys.trans (Finset.insert_eq_of_mem hmem), hcnt, fun c => ?_, fun c => ?_⟩
      · rw [Fill.apply_pending]
        simp [fill, messageFillQty, messageReleaseQty]
      · rw [Fill.apply_filled]
        rfl
  | ended id symbol side qty filledQty =>
      obtain ⟨rfl, rfl⟩ := habout
      let rest : Order :=
        { symbol := order.symbol, quantity := max 0 (qty - filledQty), side := order.side }
      have hcalls : (l.handleTradeUpdate (TradeMessage.ended id order.symbol.view
          order.side qty filledQty).update).2.foldl PositionManager.receive pm =
            pm.onOrderCancelled rest := by
        simp only [TradeMessage.update, FillListener.handleTradeUpdate,
          FillListener.processCancelEvent, hpadded]
        rfl
      obtain ⟨hkeys, hcnt⟩ := Book.amend_of_mem hmem rest.cancelled
      refine ⟨b.onOrderCancelled rest, rest.cancelled, hcalls ▸ h.onOrderCancelled rest hk,
        hkeys, hcnt, fun c => ?_, fun c => ?_⟩
      · simp [rest, Order.cancelled, messageFillQty, messageReleaseQty]
      · simp [Order.cancelled, messageFillQty]

/-! ### The invariant -/

/-- **The invariant**: the table follows a book of known keys that has every approved order, and the
counters of the book are what the tickets add up to. -/
structure Conserved (orders : Fin n → Order) (known : Finset UInt64) (s : State n) (b : Book) :
    Prop where
  refines : s.gateway.positionManager.Refines b
  known : b.keys ⊆ known
  booked : ∀ i, (s.tickets i).phase ≠ .waiting → symbolBufferToKey (orders i).symbol ∈ b.keys
  valid : ∀ i, (s.tickets i).Valid (orders i)
  pending : ∀ symbol : CharArray 8, (b.counters (symbolBufferToKey symbol)).pending =
    total orders s.tickets Ticket.outstanding symbol
  filled : ∀ symbol : CharArray 8, (b.counters (symbolBufferToKey symbol)).filled =
    total orders s.tickets (fun _ => Ticket.processedQty) symbol

/-- Registration makes entries and counts nothing. -/
theorem refines_registered (registered : List (List UInt8)) :
    ∀ {pm : PositionManager} {b : Book}, pm.Refines b →
      ∃ b', (registered.foldl PositionManager.registerSymbol pm).Refines b' ∧
        b'.counters = b.counters ∧ b'.keys ⊆ b.keys ∪ (registered.map symbolToKey).toFinset := by
  induction registered with
  | nil => exact fun {pm b} h => ⟨b, h, rfl, by simp⟩
  | cons symbol registered ih =>
      intro pm b h
      rw [List.foldl_cons, List.map_cons, List.toFinset_cons]
      by_cases hk : symbolToKey symbol = kEmptySlot
      · obtain ⟨b', hb', hcnt, hsub⟩ := ih h
        rw [pm.registerSymbol_of_reserved hk]
        exact ⟨b', hb', hcnt,
          hsub.trans (Finset.union_subset_union_right (Finset.subset_insert _ _))⟩
      · obtain ⟨b', hb', hcnt, hsub⟩ := ih (h.registerSymbol hk)
        refine ⟨b', hb', hcnt.trans (b.counters_touch_id _), hsub.trans ?_⟩
        rw [Finset.union_insert, ← Finset.insert_union]
        exact Finset.union_subset_union_left (b.keys_touch_subset _ _)

/-- The start. -/
theorem conserved_init (orders : Fin n → Order) (registered : List (List UInt8))
    (tracker : Option PendingOrderTracker) {known : Finset UInt64}
    (hknown : (registered.map symbolToKey).toFinset ⊆ known) :
    ∃ b, Conserved orders known (init registered tracker) b := by
  obtain ⟨b, hb, hcnt, hsub⟩ := refines_registered registered PositionManager.refines_empty
  have hzero : ∀ k, b.counters k = 0 := fun k => congrFun hcnt k
  refine ⟨b, hb, ?_, fun i hi => absurd rfl hi, fun i => .idle (by simp [init]) rfl rfl rfl, ?_, ?_⟩
  · refine hsub.trans ?_
    simpa [Book.empty] using hknown
  · intro symbol
    simp [hzero, total, init, Ticket.outstanding, Ticket.Open]
  · intro symbol
    simp [hzero, total, init, Ticket.processedQty]

section Steps

variable {orders : Fin n → Order} {known : Finset UInt64} {s t : State n} {b : Book}

/-- **One order moves**, and the counters of its symbol move with it. -/
theorem Conserved.advance (h : Conserved orders known s b) {b' : Book} {i : Fin n} {x : Ticket}
    {f : Counters → Counters} (href : t.gateway.positionManager.Refines b')
    (htickets : t.tickets = Function.update s.tickets i x)
    (hkeys : b'.keys = insert (symbolBufferToKey (orders i).symbol) b.keys)
    (hknown : symbolBufferToKey (orders i).symbol ∈ known)
    (hcnt : b'.counters = Function.update b.counters (symbolBufferToKey (orders i).symbol)
      (f (b.counters (symbolBufferToKey (orders i).symbol))))
    (hvalid : x.Valid (orders i))
    (hpending : ∀ c, (f c).pending = c.pending + (orders i).side.signed
      (x.outstanding (orders i) - (s.tickets i).outstanding (orders i)))
    (hfilled : ∀ c, (f c).filled = c.filled + (orders i).side.signed
      (x.processedQty - (s.tickets i).processedQty)) :
    Conserved orders known t b' where
  refines := href
  known := by
    rw [hkeys]
    exact Finset.insert_subset hknown h.known
  booked := by
    rw [hkeys, htickets, Function.forall_update_iff s.tickets fun j (y : Ticket) =>
      y.phase ≠ .waiting → symbolBufferToKey (orders j).symbol ∈
        insert (symbolBufferToKey (orders i).symbol) b.keys]
    exact ⟨fun _ => Finset.mem_insert_self _ _,
      fun j _ hj => Finset.mem_insert_of_mem (h.booked j hj)⟩
  valid := by
    rw [htickets, Function.forall_update_iff s.tickets fun j (y : Ticket) => y.Valid (orders j)]
    exact ⟨hvalid, fun j _ => h.valid j⟩
  pending := by
    intro symbol
    rw [htickets, total_update, ← h.pending symbol, hcnt]
    by_cases heq : (orders i).symbol = symbol
    · subst heq
      rw [Function.update_self, hpending, if_pos rfl]
    · rw [Function.update_of_ne (fun hk => heq (symbolBufferToKey_injective hk).symm), if_neg heq,
        add_zero]
  filled := by
    intro symbol
    rw [htickets, total_update, ← h.filled symbol, hcnt]
    by_cases heq : (orders i).symbol = symbol
    · subst heq
      rw [Function.update_self, hfilled, if_pos rfl]
    · rw [Function.update_of_ne (fun hk => heq (symbolBufferToKey_injective hk).symm), if_neg heq,
        add_zero]

/-- An order moves and its symbol is not touched. -/
theorem Conserved.keep (h : Conserved orders known s b) {i : Fin n} {x : Ticket}
    (hpm : t.gateway.positionManager = s.gateway.positionManager)
    (htickets : t.tickets = Function.update s.tickets i x)
    (hphase : (s.tickets i).phase ≠ .waiting) (hvalid : x.Valid (orders i))
    (hout : x.outstanding (orders i) = (s.tickets i).outstanding (orders i))
    (hqty : x.processedQty = (s.tickets i).processedQty) : Conserved orders known t b := by
  have hmem := h.booked i hphase
  refine h.advance (f := id) (hpm ▸ h.refines) htickets (Finset.insert_eq_of_mem hmem).symm
    (h.known hmem) (Function.update_eq_self _ _).symm hvalid (fun c => ?_) (fun c => ?_)
  · simp [hout]
  · simp [hqty]

variable (hk : ∀ i, symbolBufferToKey (orders i).symbol ≠ kEmptySlot)
  (hqty : ∀ i, 0 < (orders i).quantity)
  (hpadded : ∀ i, CharArray.ofBytes 8 (orders i).symbol.view = (orders i).symbol)
  (hknown : ∀ i, symbolBufferToKey (orders i).symbol ∈ known) (hroom : known.card ≤ kMaxSymbols)

include hknown hroom in
/-- There is room for every order. -/
theorem Conserved.takes (h : Conserved orders known s b) (i : Fin n) :
    b.Takes (symbolBufferToKey (orders i).symbol) := by
  by_cases hmem : symbolBufferToKey (orders i).symbol ∈ b.keys
  · exact Or.inl hmem
  · refine Or.inr (lt_of_lt_of_le (Finset.card_lt_card ?_) hroom)
    exact (Finset.ssubset_iff_of_subset h.known).2 ⟨_, hknown i, hmem⟩

include hk hknown hroom in
/-- An approval reserves the quantity. -/
theorem Conserved.approve (h : Conserved orders known s b) {i : Fin n}
    (hphase : (s.tickets i).phase = .waiting)
    (hpm : t.gateway.positionManager = s.gateway.positionManager.onOrderSent (orders i))
    (htickets : t.tickets = Function.update s.tickets i { s.tickets i with phase := .approved }) :
    ∃ b', Conserved orders known t b' := by
  obtain ⟨hkeys, hcnt⟩ := Book.touch_of_takes (h.takes hknown hroom i) (orders i).sent
  obtain ⟨hbroker, hinbox, hprocessed⟩ := (h.valid i).idle_of_ne (by simp [hphase])
  have hout : (s.tickets i).outstanding (orders i) = 0 := by
    simp [Ticket.outstanding, Ticket.Open, hphase]
  refine ⟨_, h.advance (hpm ▸ h.refines.onOrderSent (orders i) (hk i)) htickets hkeys (hknown i)
    hcnt (.idle (by simp) hbroker hinbox hprocessed) (fun c => ?_) (fun c => ?_)⟩
  · rw [hout]
    simp [Order.sent, Ticket.outstanding, Ticket.Open, Ticket.processedQty, hprocessed]
  · simp [Order.sent, Ticket.processedQty]

include hk hqty in
/-- `executeOrder` places an order, or gives it back. -/
theorem Conserved.executeOrder (h : Conserved orders known s b) {i : Fin n}
    {cancelReply : Outcome Unit} {placeReply : Outcome OrderAck}
    (hphase : (s.tickets i).phase = .approved)
    (hg : t.gateway = s.gateway.executeOrder (orders i) cancelReply placeReply)
    (htickets : t.tickets = Function.update s.tickets i
      { s.tickets i with phase := phaseAfter s.gateway t.gateway }) :
    ∃ b', Conserved orders known t b' := by
  have hmem := h.booked i (by simp [hphase])
  obtain ⟨hbroker, hinbox, hprocessed⟩ := (h.valid i).idle_of_ne (by simp [hphase])
  have hout : (s.tickets i).outstanding (orders i) = (orders i).quantity := by
    simp [Ticket.outstanding, Ticket.Open, Ticket.processedQty, hphase, hprocessed]
  rcases s.gateway.executeOrder_cases (orders i) cancelReply placeReply with
    ⟨ack, -, hpm, hsubmits⟩ | ⟨hpm, hsubmits⟩
  · have hafter : phaseAfter s.gateway t.gateway = .placed ack.clientOrderId := by
      simp [phaseAfter, hg, hsubmits]
    rw [hafter] at htickets
    refine ⟨b, h.keep (hg ▸ hpm) htickets (by simp [hphase]) ?_ ?_ rfl⟩
    · refine .live ack.clientOrderId rfl (by simp [Ticket.Open, hprocessed]) ?_
      simp only [Ticket.processedQty, hprocessed, hbroker, hinbox]
      exact Due.none rfl rfl (hqty i).le
    · rw [hout]
      simp [Ticket.outstanding, Ticket.Open, Ticket.processedQty, hprocessed]
  · have hafter : phaseAfter s.gateway t.gateway = .released := by
      simp [phaseAfter, hg, hsubmits]
    rw [hafter] at htickets
    obtain ⟨hkeys, hcnt⟩ := Book.amend_of_mem hmem (orders i).cancelled
    refine ⟨_, h.advance ((hg ▸ hpm) ▸ h.refines.onOrderCancelled (orders i) (hk i)) htickets
      (hkeys.trans (Finset.insert_eq_of_mem hmem).symm) (h.known hmem) hcnt
      (.idle (by simp) hbroker hinbox hprocessed) (fun c => ?_) (fun c => ?_)⟩
    · rw [hout]
      cases hside : (orders i).side <;>
        simp [Order.cancelled, Ticket.outstanding, Ticket.Open, hside, sub_eq_add_neg]
    · simp [Order.cancelled, Ticket.processedQty]

include hk hpadded in
/-- The listener processes a message. -/
theorem Conserved.process (h : Conserved orders known s b) {i : Fin n} {m : TradeMessage}
    {inbox : List TradeMessage} (hinbox : (s.tickets i).inbox = m :: inbox)
    (hg : t.gateway = (s.listener.handleTradeUpdate m.update).2.foldl Gateway.receive s.gateway)
    (htickets : t.tickets = Function.update s.tickets i
      { s.tickets i with inbox := inbox, processed := (s.tickets i).processed ++ [m] }) :
    ∃ b', Conserved orders known t b' := by
  obtain ⟨hvalid, habout, hout⟩ := (h.valid i).process hinbox
  have hmem : symbolBufferToKey (orders i).symbol ∈ b.keys := by
    -- an order that is not approved has no messages
    refine h.booked i fun hphase => ?_
    have hnil := ((h.valid i).idle_of_ne (by simp [hphase])).2.1
    simp [hnil] at hinbox
  obtain ⟨b', f, href, hkeys, hcnt, hpending, hfilled⟩ :=
    receive_message h.refines (hpadded i) (hk i) hmem s.listener habout
  refine ⟨b', h.advance ?_ htickets (hkeys.trans (Finset.insert_eq_of_mem hmem).symm)
    (h.known hmem) hcnt hvalid (fun c => ?_) (fun c => ?_)⟩
  · rw [hg, Gateway.foldl_receive]
    exact href
  · rw [hpending, hout, OrderSide.signed_sub, OrderSide.signed_sub]
    ring
  · rw [hfilled, Ticket.processedQty_append]
    simp

include hk hqty hpadded hknown hroom in
/-- **Every step keeps the invariant.** -/
theorem Conserved.step (h : Conserved orders known s b) {a : Action n}
    (hstep : Lifecycle.step orders s a = some t) : ∃ b', Conserved orders known t b' := by
  cases a with
  | approve i =>
      simp only [Lifecycle.step, Option.ite_none_right_eq_some, Option.some_inj] at hstep
      obtain ⟨hphase, rfl⟩ := hstep
      exact h.approve hk hknown hroom hphase rfl rfl
  | executeOrder i cancelReply placeReply =>
      simp only [Lifecycle.step, Option.ite_none_right_eq_some, Option.some_inj] at hstep
      obtain ⟨hphase, rfl⟩ := hstep
      exact h.executeOrder hk hqty hphase rfl rfl
  | execute i qty price =>
      simp only [Lifecycle.step] at hstep
      split at hstep
      case h_1 id hphase =>
        simp only [Option.ite_none_right_eq_some, Option.some_inj] at hstep
        obtain ⟨⟨hnone, -, hle⟩, rfl⟩ := hstep
        exact ⟨b, h.keep rfl rfl (by simp [hphase])
          ((h.valid i).broker hphase hnone fun _ => due_execution (orders i) id _ price hle)
          rfl rfl⟩
      case h_2 => simp at hstep
  | finish i ending =>
      simp only [Lifecycle.step] at hstep
      split at hstep
      case h_1 id hphase =>
        simp only [Option.ite_none_right_eq_some, Option.some_inj] at hstep
        obtain ⟨⟨hnone, -⟩, rfl⟩ := hstep
        exact ⟨b, h.keep rfl rfl (by simp [hphase])
          ((h.valid i).broker hphase hnone fun hle => Due.ended hle (by simp)) rfl rfl⟩
      case h_2 => simp at hstep
  | process i =>
      simp only [Lifecycle.step] at hstep
      cases hinbox : (s.tickets i).inbox with
      | nil => simp [hinbox] at hstep
      | cons m inbox =>
          simp only [hinbox, Option.some_inj] at hstep
          subst hstep
          exact h.process hk hpadded hinbox rfl rfl

end Steps

/-- The symbols that have or may get an entry: those registered and those of the orders. -/
def symbols (registered : List (List UInt8)) (orders : Fin n → Order) : Finset (CharArray 8) :=
  (registered.map (CharArray.ofBytes 8)).toFinset ∪ Finset.univ.image fun i => (orders i).symbol

/-- In every state of a run there is a book that the invariant holds of. -/
theorem conserved_of_run (registered : List (List UInt8)) (tracker : Option PendingOrderTracker)
    {orders : Fin n → Order} (hqty : ∀ i, 0 < (orders i).quantity)
    (hpadded : ∀ i, CharArray.ofBytes 8 (orders i).symbol.view = (orders i).symbol)
    (hreserved : ∀ i, (orders i).symbol ≠ reservedSymbol)
    (hroom : (symbols registered orders).card ≤ kMaxSymbols) {as : List (Action n)} {s : State n}
    (hrun : Runs.exec (step orders) (init registered tracker) as = some s) :
    ∃ b, Conserved orders ((symbols registered orders).image symbolBufferToKey) s b := by
  have hknown : ∀ i, symbolBufferToKey (orders i).symbol ∈
      (symbols registered orders).image symbolBufferToKey := by
    intro i
    refine Finset.mem_image_of_mem _ (Finset.mem_union_right _ ?_)
    exact Finset.mem_image_of_mem (fun i => (orders i).symbol) (Finset.mem_univ i)
  have hregistered : (registered.map symbolToKey).toFinset ⊆
      (symbols registered orders).image symbolBufferToKey := by
    intro k hk
    obtain ⟨symbol, hmem, rfl⟩ := List.mem_map.1 (List.mem_toFinset.1 hk)
    rw [symbolToKey_eq]
    refine Finset.mem_image_of_mem _ (Finset.mem_union_left _ ?_)
    exact List.mem_toFinset.2 (List.mem_map_of_mem hmem)
  exact Runs.exec_inv
    (I := fun s => ∃ b, Conserved orders ((symbols registered orders).image symbolBufferToKey) s b)
    (fun _ _ _ h hst => h.elim fun _ h =>
      h.step (fun i => symbolBufferToKey_ne_kEmptySlot (hreserved i)) hqty hpadded hknown
        (Finset.card_image_le.trans hroom) hst)
    (conserved_init orders registered tracker hregistered) hrun

end Lifecycle

/-- **The life of an order conserves quantities.**  Take any orders of positive quantity whose
symbols are padded with NUL bytes, not the reserved one, and fit into the table together with the
registered ones.  In every state of every interleaving of approvals, runs of `executeOrder`,
executions and endings at the broker and processed messages, the pending position of every symbol is
the sum of what is outstanding of its open orders, and the filled position the sum of the executions
that were processed; when no order is open, nothing is pending. -/
theorem lifecycle_conservation {n : ℕ} (registered : List (List UInt8))
    (tracker : Option PendingOrderTracker) (orders : Fin n → Order)
    (hqty : ∀ i, 0 < (orders i).quantity)
    (hpadded : ∀ i, CharArray.ofBytes 8 (orders i).symbol.view = (orders i).symbol)
    (hreserved : ∀ i, (orders i).symbol ≠ reservedSymbol)
    (hroom : (Lifecycle.symbols registered orders).card ≤ kMaxSymbols)
    (as : List (Lifecycle.Action n)) (s : Lifecycle.State n)
    (hrun : Runs.exec (Lifecycle.step orders) (Lifecycle.init registered tracker) as = some s)
    (symbol : List UInt8) :
    s.gateway.positionManager.getPendingPosition symbol =
        Lifecycle.total orders s.tickets Lifecycle.Ticket.outstanding (CharArray.ofBytes 8 symbol) ∧
      s.gateway.positionManager.getFilledPosition symbol =
        Lifecycle.total orders s.tickets (fun _ => Lifecycle.Ticket.processedQty)
          (CharArray.ofBytes 8 symbol) ∧
      ((∀ i, ¬ (s.tickets i).Open) →
        s.gateway.positionManager.getPendingPosition symbol = 0) := by
  obtain ⟨b, h⟩ :=
    Lifecycle.conserved_of_run registered tracker hqty hpadded hreserved hroom hrun
  have hpending : s.gateway.positionManager.getPendingPosition symbol =
      Lifecycle.total orders s.tickets Lifecycle.Ticket.outstanding
        (CharArray.ofBytes 8 symbol) := by
    rw [h.refines.getPendingPosition, symbolToKey_eq, h.pending]
  refine ⟨hpending, ?_, fun hclosed => ?_⟩
  · rw [h.refines.getFilledPosition, symbolToKey_eq, h.filled]
  · rw [hpending]
    refine Finset.sum_eq_zero fun i _ => ?_
    simp [Lifecycle.Ticket.outstanding, hclosed i]

/-- A purchase of a symbol. -/
def Lifecycle.buy (symbol : CharArray 8) (quantity : ℤ) : Order where
  symbol := symbol
  quantity := quantity
  side := .buy

/-- A purchase and a sale of one symbol: the purchase is filled in part and then cancelled, the
gateway gives the sale back. -/
theorem lifecycle_conservation_for_two_orders :
    let orders : Fin 2 → Order :=
      ![Lifecycle.buy (CharArray.ofBytes 8 [86, 79, 79]) 100,
        { Lifecycle.buy (CharArray.ofBytes 8 [86, 79, 79]) 50 with side := .sell }]
    let as : List (Lifecycle.Action 2) :=
      [.approve 0, .approve 1, .executeOrder 0 .threw (.success ⟨[120]⟩), .execute 0 60 10,
        .executeOrder 1 .threw (.error 403), .process 0, .finish 0 .canceled, .process 0]
    ∃ s, Runs.exec (Lifecycle.step orders) (Lifecycle.init [[86, 79, 79]] none) as = some s ∧
      (∀ i, ¬ (s.tickets i).Open) ∧
      s.gateway.positionManager.getPendingPosition [86, 79, 79] = 0 := by
  intro orders as
  have hrun : (Runs.exec (Lifecycle.step orders) (Lifecycle.init [[86, 79, 79]] none) as).any
      (fun s => ∀ i, ¬ (s.tickets i).Open) = true := by decide +kernel
  obtain ⟨s, hs, hclosed⟩ := (Option.any_eq_true _ _).1 hrun
  have hclosed : ∀ i, ¬ (s.tickets i).Open := of_decide_eq_true hclosed
  exact ⟨s, hs, hclosed, (lifecycle_conservation [[86, 79, 79]] none orders (by decide)
    (by decide +kernel) (by decide +kernel) (by decide +kernel) as s hs [86, 79, 79]).2.2 hclosed⟩

/-- **Two symbols for which the counters go wrong.**  An order of the reserved symbol is booked in a
free slot, and the next symbol that takes the slot inherits the quantity; an order whose symbol is
not padded is reserved under one key and filled under another. -/
theorem lifecycle_not_conserved :
    (let orders : Fin 2 → Order :=
        ![Lifecycle.buy reservedSymbol 100, Lifecycle.buy (CharArray.ofBytes 8 [86, 79, 79]) 50]
      ∃ s, Runs.exec (Lifecycle.step orders) (Lifecycle.init [] none) [.approve 0, .approve 1] =
          some s ∧
        Lifecycle.total orders s.tickets Lifecycle.Ticket.outstanding
          (CharArray.ofBytes 8 [86, 79, 79]) = 50 ∧
        s.gateway.positionManager.getPendingPosition [86, 79, 79] = 150) ∧
    (let orders : Fin 1 → Order := ![Lifecycle.buy (CharArray.ofBytes 8 [86, 0, 79]) 100]
      ∃ s, Runs.exec (Lifecycle.step orders) (Lifecycle.init [] none)
          [.approve 0, .executeOrder 0 .threw (.success ⟨[120]⟩), .execute 0 100 10, .process 0] =
          some s ∧
        (∀ i, ¬ (s.tickets i).Open) ∧
        s.gateway.positionManager.getPendingPosition [86] = -100) := by
  constructor
  · intro orders
    have hrun : (Runs.exec (Lifecycle.step orders) (Lifecycle.init [] none)
        [.approve 0, .approve 1]).any (fun s =>
          Lifecycle.total orders s.tickets Lifecycle.Ticket.outstanding
            (CharArray.ofBytes 8 [86, 79, 79]) = 50 ∧
          s.gateway.positionManager.getPendingPosition [86, 79, 79] = 150) = true := by
      decide +kernel
    obtain ⟨s, hs, hbad⟩ := (Option.any_eq_true _ _).1 hrun
    exact ⟨s, hs, of_decide_eq_true hbad⟩
  · intro orders
    have hrun : (Runs.exec (Lifecycle.step orders) (Lifecycle.init [] none)
        [.approve 0, .executeOrder 0 .threw (.success ⟨[120]⟩), .execute 0 100 10,
          .process 0]).any (fun s => (∀ i, ¬ (s.tickets i).Open) ∧
          s.gateway.positionManager.getPendingPosition [86] = -100) = true := by
      decide +kernel
    obtain ⟨s, hs, hbad⟩ := (Option.any_eq_true _ _).1 hrun
    exact ⟨s, hs, of_decide_eq_true hbad⟩

end Trading
