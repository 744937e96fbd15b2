/-
**At most once across reconnects.**

An execution can reach the ledger by two ways: its own message, and the snapshot of a
reconciliation.  The listener subscribes first and takes the snapshot later, so a message that was
sent in between is in flight while the snapshot already counts it; it is delivered after the
reconciliation, and neither `processFillEvent` nor `processCancelEvent` looks at what has been
booked (`Trading.fill_applied_twice`).

This is the only way, as long as the memories hold every order of the session: when no message of a
reported order is in flight at an answered query, nothing is passed on twice
(`Trading.at_most_once`).

Main definitions:

* `Trading.Session.Quiet` — the condition on a step;
* `Trading.Session.Booked` — the invariant: what was passed on and what is in flight together do not
  exceed what the broker did.

Main results:

* `Trading.Session.Booked.step` — a step that meets the condition keeps the invariant;
* `Trading.at_most_once` — so does every run.
-/

import TradingAlgo.Reconciliation
import TradingAlgo.Reconnect

set_option relaxedAutoImplicit false
set_option autoImplicit false

namespace Trading

namespace Session

open FillListener

variable {n : ℕ}

/-- The condition on a step: when a query is answered, no message of a reported order is in
flight. -/
def Quiet (s : State n) : Action n → Prop
  | .query (.success is) => ∀ i ∈ is, ∀ x ∈ s.stream, x.1 ≠ i
  | _ => True

instance (s : State n) (a : Action n) : Decidable (Quiet s a) :=
  match a with
  | .query (.success is) => inferInstanceAs (Decidable (∀ i ∈ is, ∀ x ∈ s.stream, x.1 ≠ i))
  | .query (.error _) => isTrue trivial
  | .query .threw => isTrue trivial
  | .execute .. => isTrue trivial
  | .finish .. => isTrue trivial
  | .disconnect => isTrue trivial
  | .authorized => isTrue trivial
  | .deliver => isTrue trivial

theorem messageReleaseQty_nonneg (m : TradeMessage) : 0 ≤ messageReleaseQty m := by
  cases m with
  | execution => exact le_rfl
  | ended => exact le_max_left _ _

/-! ### What the memories record -/

section Memory

variable {ids : List (List UInt8)} {l : FillListener}

/-- **A message adds its quantity to what is remembered of its order**, and leaves the other orders
alone. -/
theorem handleTradeUpdate_memory (h : Fits ids l) {m : TradeMessage} (hmem : messageId m ∈ ids)
    (hid : IsId (messageId m)) :
    Fits ids (l.handleTradeUpdate m.update).1 ∧
      (l.handleTradeUpdate m.update).1.findFilledQty (messageId m) =
        l.findFilledQty (messageId m) + messageFillQty m ∧
      ((l.handleTradeUpdate m.update).1.isCompleted (messageId m) = false →
        l.isCompleted (messageId m) = false ∧ messageReleaseQty m = 0) ∧
      ∀ id' ≠ messageId m, Agree (l.handleTradeUpdate m.update).1 l id' := by
  cases m with
  | execution isPartial orderId symbol side qty price =>
      simp only [messageId] at hmem hid ⊢
      have hf := h.upsertFilledQty hmem hid (l.findFilledQty orderId + qty)
      have hfind := findFilledQty_upsertFilledQty h hmem hid (l.findFilledQty orderId + qty) orderId
      rw [if_pos rfl] at hfind
      simp only [TradeMessage.update, handleTradeUpdate, processFillEvent, hid.view, ne_eq,
        hid.1, not_false_eq_true, if_true, messageFillQty, messageReleaseQty]
      cases isPartial with
      | true =>
          exact ⟨hf, hfind, fun hc => ⟨hc, trivial⟩,
            fun id' hne => agree_upsertFilledQty h hmem hid _ hne⟩
      | false =>
          -- the order is marked, so the third part has nothing to say
          refine ⟨hf.markCompleted hmem hid, ?_, fun hc => ?_, fun id' hne => ?_⟩
          · exact (findFilledQty_markCompleted _ _ _).trans hfind
          · have := (isCompleted_markCompleted hf hmem hid orderId).2 (Or.inl rfl)
            simp [this] at hc
          · exact (agree_markCompleted hf hmem hid hne).trans
              (agree_upsertFilledQty h hmem hid _ hne)
  | ended orderId symbol side qty filledQty =>
      simp only [messageId] at hmem hid ⊢
      simp only [TradeMessage.update, handleTradeUpdate, processCancelEvent, hid.view, ne_eq,
        hid.1, not_false_eq_true, if_true, messageFillQty, messageReleaseQty]
      refine ⟨h.markCompleted hmem hid, ?_, fun hc => ?_, fun id' hne => ?_⟩
      · simp
      · have := (isCompleted_markCompleted h hmem hid orderId).2 (Or.inl rfl)
        simp [this] at hc
      · exact agree_markCompleted h hmem hid hne

/-- **A round adds what it passes on to what is remembered of its order.** -/
theorem findFilledQty_reconcileOrder (h : Fits ids l) {o : AlpacaOrderStatus} (hmem : o.id ∈ ids)
    (hid : IsId o.id) :
    (l.reconcileOrder o).1.findFilledQty o.id =
      l.findFilledQty o.id + ((l.reconcileOrder o).2.map fillQty).sum := by
  have hfind := findFilledQty_upsertFilledQty h hmem hid o.filledQty o.id
  rw [if_pos rfl] at hfind
  rcases l.reconcileOrder_cases o with ⟨-, heq⟩ | ⟨side, -, -, -, -, hmissed, heq⟩ |
    ⟨side, -, -, -, -, -, heq⟩
  · simp [heq]
  · rw [heq, (sums_reconcileFill side hmissed).1]
    unfold reconcileFill
    rw [if_neg (by omega)]
    simp only
    split_ifs <;> simp [hfind]
  · rw [heq, (sums_reconcileCancel l o side).1]
    unfold reconcileCancel
    simp only
    split_ifs with hpos
    · simp only [findFilledQty_markCompleted, hfind]
      omega
    · simp only [findFilledQty_markCompleted]
      omega

end Memory

/-! ### The invariant -/

/-- The ids of the session. -/
def ids (orders : Fin n → BrokerOrder) : List (List UInt8) := List.ofFn fun i => (orders i).id

/-- What there is to release of an order: its rest, once it has ended without being filled. -/
def releasable (order : BrokerOrder) (p : Progress) : ℤ :=
  match p.ending with
  | none => 0
  | some .filled => 0
  | some _ => order.qty - p.executed

/-- **The invariant.**  What was passed on for an order and what is in flight for it do not exceed
what the broker did; the memories know what was passed on. -/
structure Booked (orders : Fin n → BrokerOrder) (s : State n) : Prop where
  fits : Fits (ids orders) s.listener
  remembered : ∀ i, s.listener.findFilledQty (orders i).id = applied s i
  fills : ∀ i, applied s i + fillsInFlight s i ≤ (s.broker i).executed
  releases : ∀ i, released s i + releasesInFlight s i ≤ releasable (orders i) (s.broker i)
  unreleased : ∀ i, s.listener.isCompleted (orders i).id = false → released s i = 0
  executed : ∀ i, (s.broker i).executed ≤ (orders i).qty
  about : ∀ x ∈ s.stream, messageId x.2 = (orders x.1).id ∧ 0 ≤ messageFillQty x.2

theorem reported_mem_ids (orders : Fin n → BrokerOrder) (s : State n) (i : Fin n) :
    (report (orders i) (s.broker i)).id ∈ ids orders :=
  List.mem_ofFn.2 ⟨i, rfl⟩

theorem mem_ids (orders : Fin n → BrokerOrder) (i : Fin n) : (orders i).id ∈ ids orders :=
  List.mem_ofFn.2 ⟨i, rfl⟩

section Steps

variable {orders : Fin n → BrokerOrder} (hids : ∀ i, IsId (orders i).id)
  (hinj : Function.Injective fun i => (orders i).id) (hqty : ∀ i, 0 ≤ (orders i).qty)
  {s t : State n}

include hqty in
theorem booked_init (hn : n ≤ kMaxTrackedOrders) : Booked orders ({} : State n) where
  fits := by
    have hlen : ∀ p, ((ids orders).filter p).length ≤ n := fun p =>
      (List.length_filter_le _ _).trans (by simp [ids])
    constructor
    · have := hlen fun k => k ∉ ([] : List (List UInt8))
      simp only [BoundedMemo.Capacity, List.map_nil, List.length_nil]
      omega
    · have := hlen fun k => k ∉ ([] : List (List UInt8))
      simp only [BoundedMemo.Capacity, List.map_nil, List.length_nil]
      omega
  remembered := fun _ => rfl
  fills := fun _ => le_rfl
  releases := fun _ => le_rfl
  unreleased := fun _ _ => rfl
  executed := hqty
  about := by simp

/-- A total that stays within what the broker allows, when the broker sends a message that it has
made room for. -/
theorem tally_send_le {i : Fin n} {p : Progress} {m : TradeMessage} {f : TradeMessage → ℤ}
    (hf : 0 ≤ f m) (bound : Fin n → Progress → ℤ) {total : Fin n → ℤ}
    (hold : ∀ j, total j + Runs.tally f s.stream j ≤ bound j (s.broker j))
    (hi : bound i (s.broker i) + f m ≤ bound i p) (j : Fin n) :
    total j + Runs.tally f (send { s with broker := Function.update s.broker i p } i m).stream j ≤
      bound j (Function.update s.broker i p j) := by
  have hstream : Runs.tally f
      (send { s with broker := Function.update s.broker i p } i m).stream j ≤
        Runs.tally f s.stream j + if i = j then f m else 0 := by
    simp only [send]
    split_ifs <;> simp [Runs.tally_append, Runs.tally_cons, *]
  have hj := hold j
  by_cases hij : j = i
  · subst hij
    rw [if_pos rfl] at hstream
    rw [Function.update_self]
    omega
  · rw [if_neg (Ne.symm hij)] at hstream
    rw [Function.update_of_ne hij]
    omega

/-- The same when the listener passes something on for the order `i`. -/
theorem tally_advance_le {i : Fin n} {f : TradeMessage → ℤ} {g : ListenerCall → ℤ}
    {calls : List ListenerCall} {stream : List (Fin n × TradeMessage)} {bound : Fin n → ℤ}
    (hold : ∀ j, Runs.tally g s.log j + Runs.tally f s.stream j ≤ bound j)
    (hother : ∀ j ≠ i, Runs.tally f stream j = Runs.tally f s.stream j)
    (hi : Runs.tally g s.log i + (calls.map g).sum + Runs.tally f stream i ≤ bound i)
    (j : Fin n) :
    Runs.tally g (s.log ++ calls.map (Prod.mk i)) j + Runs.tally f stream j ≤ bound j := by
  rw [Runs.tally_append_map_mk]
  by_cases hji : j = i
  · subst hji
    rw [if_pos rfl]
    exact hi
  · rw [if_neg (Ne.symm hji), add_zero, hother j hji]
    exact hold j

/-- The broker moves: what it sends is covered by what it did. -/
theorem Booked.broker (h : Booked orders s) {i : Fin n} {p : Progress} {m : TradeMessage}
    (hid : messageId m = (orders i).id)
    (hfill : (s.broker i).executed + messageFillQty m ≤ p.executed)
    (hpos : 0 ≤ messageFillQty m) (hle : p.executed ≤ (orders i).qty)
    (hnone : (s.broker i).ending = none)
    (hrelease : messageReleaseQty m ≤ releasable (orders i) p) :
    Booked orders (send { s with broker := Function.update s.broker i p } i m) := by
  have hzero : releasable (orders i) (s.broker i) = 0 := by simp [releasable, hnone]
  constructor
  case fits => exact h.fits
  case remembered => exact h.remembered
  case fills => exact tally_send_le hpos (fun _ p => p.executed) h.fills hfill
  case releases =>
    refine tally_send_le (messageReleaseQty_nonneg m) (fun j p => releasable (orders j) p)
      h.releases ?_
    rwa [hzero, zero_add]
  case unreleased => exact h.unreleased
  case executed =>
    intro j
    by_cases hij : j = i
    · subst hij
      simpa [send] using hle
    · simpa [send, hij] using h.executed j
  case about =>
    intro x hx
    simp only [send] at hx
    split_ifs at hx
    · rcases List.mem_append.1 hx with hx | hx
      · exact h.about x hx
      · rw [List.mem_singleton.1 hx]
        exact ⟨hid, hpos⟩
    · exact h.about x hx

include hinj in
/-- **The listener passes something on for the order `i`**: it is enough to look at that order, the
others see nothing of it. -/
theorem Booked.advance (h : Booked orders s) (i : Fin n) {l : FillListener}
    {calls : List ListenerCall} {stream : List (Fin n × TradeMessage)}
    {reported : List (Fin n × AlpacaOrderStatus)} (hfits : Fits (ids orders) l)
    (hfind : l.findFilledQty (orders i).id =
      s.listener.findFilledQty (orders i).id + (calls.map fillQty).sum)
    (hagree : ∀ id' ≠ (orders i).id, Agree l s.listener id')
    (hstream : ∀ x ∈ stream, x ∈ s.stream)
    (hother : ∀ f : TradeMessage → ℤ, ∀ j ≠ i, Runs.tally f stream j = Runs.tally f s.stream j)
    (hfills : applied s i + (calls.map fillQty).sum + Runs.tally messageFillQty stream i ≤
      (s.broker i).executed)
    (hreleases : released s i + (calls.map releaseQty).sum +
      Runs.tally messageReleaseQty stream i ≤ releasable (orders i) (s.broker i))
    (hunreleased : l.isCompleted (orders i).id = false →
      released s i + (calls.map releaseQty).sum = 0) :
    Booked orders
      { s with
        listener := l
        stream := stream
        log := s.log ++ calls.map (Prod.mk i)
        reported := reported } := by
  have hne : ∀ {j : Fin n}, j ≠ i → (orders j).id ≠ (orders i).id := fun hji heq => hji (hinj heq)
  constructor
  case fits => exact hfits
  case remembered =>
    intro j
    have hold := h.remembered j
    simp only [applied, Runs.tally_append_map_mk] at hold ⊢
    by_cases hji : j = i
    · subst hji
      rw [if_pos rfl, hfind, hold]
    · rw [if_neg (Ne.symm hji), (hagree _ (hne hji)).1, hold, add_zero]
  case fills => exact tally_advance_le h.fills (hother _) hfills
  case releases => exact tally_advance_le h.releases (hother _) hreleases
  case unreleased =>
    intro j hc
    simp only [released, Runs.tally_append_map_mk] at hunreleased ⊢
    by_cases hji : j = i
    · subst hji
      rw [if_pos rfl]
      exact hunreleased hc
    · rw [if_neg (Ne.symm hji), add_zero]
      exact h.unreleased j ((hagree _ (hne hji)).2.symm.trans hc)
  case executed => exact h.executed
  case about => exact fun x hx => h.about x (hstream x hx)

include hids hinj in
/-- A message is processed: what was in flight has been passed on. -/
theorem Booked.deliver (h : Booked orders s) {i : Fin n} {m : TradeMessage}
    {stream : List (Fin n × TradeMessage)} (hs : s.stream = (i, m) :: stream) :
    Booked orders
      { s with
        listener := (s.listener.handleTradeUpdate m.update).1
        stream := stream
        log := s.log ++ (s.listener.handleTradeUpdate m.update).2.map (Prod.mk i) } := by
  have hid : messageId m = (orders i).id := (h.about (i, m) (by simp [hs])).1
  obtain ⟨hfits, hfind, hcompleted, hagree⟩ := handleTradeUpdate_memory h.fits
    (hid ▸ mem_ids orders i) (hid ▸ hids i)
  rw [hid] at hfind hcompleted hagree
  have hfills := h.fills i
  have hreleases := h.releases i
  simp only [fillsInFlight, releasesInFlight, hs, Runs.tally_cons, if_true] at hfills hreleases
  refine h.advance hinj i hfits ?_ hagree (fun x hx => by simp [hs, hx]) ?_ ?_ ?_ ?_
  · rw [sum_fillQty_handleTradeUpdate, hfind]
  · intro f j hji
    simp [hs, Runs.tally_cons, Ne.symm hji]
  · rw [sum_fillQty_handleTradeUpdate]
    omega
  · rw [sum_releaseQty_handleTradeUpdate]
    omega
  · intro hc
    obtain ⟨hc', hzero⟩ := hcompleted hc
    rw [sum_releaseQty_handleTradeUpdate, h.unreleased i hc', hzero, add_zero]

include hids in
/-- What a round may pass on for an order with nothing in flight: executions that are not booked,
and the rest of an order that ended unfilled and is not released. -/
theorem Booked.sums_reconcileOrder (h : Booked orders s) {i : Fin n}
    (hquiet : ∀ x ∈ s.stream, x.1 ≠ i) :
    let r := s.listener.reconcileOrder (report (orders i) (s.broker i))
    applied s i + (r.2.map fillQty).sum ≤ (s.broker i).executed ∧
      released s i + (r.2.map releaseQty).sum ≤ releasable (orders i) (s.broker i) ∧
      (r.1.isCompleted (orders i).id = false → released s i + (r.2.map releaseQty).sum = 0) := by
  intro r
  have hfills := h.fills i
  have hreleases := h.releases i
  rw [fillsInFlight, Runs.tally_eq_zero _ hquiet, add_zero] at hfills
  rw [releasesInFlight, Runs.tally_eq_zero _ hquiet, add_zero] at hreleases
  have hremembered : s.listener.findFilledQty (report (orders i) (s.broker i)).id = applied s i :=
    h.remembered i
  have hexecuted : (report (orders i) (s.broker i)).filledQty = (s.broker i).executed := rfl
  rcases s.listener.reconcileOrder_cases (report (orders i) (s.broker i)) with
    ⟨-, heq⟩ | ⟨side, -, hc, -, -, hmissed, heq⟩ | ⟨side, -, hc, -, -, hstatus, heq⟩
  · simp only [r, heq, List.map_nil, List.sum_nil, add_zero]
    exact ⟨hfills, hreleases, h.unreleased i⟩
  · obtain ⟨hfill, hrelease⟩ := sums_reconcileFill side hmissed
    simp only [r, heq, hfill, hrelease, add_zero]
    refine ⟨by omega, hreleases, fun _ => h.unreleased i hc⟩
  · obtain ⟨hfill, hrelease⟩ :=
      sums_reconcileCancel s.listener (report (orders i) (s.broker i)) side
    obtain ⟨ending, hending, hne⟩ := isCancelStatus_iff.1 hstatus
    have hrest : releasable (orders i) (s.broker i) =
        (orders i).qty - (s.broker i).executed := by
      rw [releasable, hending]
      cases ending <;> simp_all
    have hle := h.executed i
    have hdone : r.1.isCompleted (orders i).id = true := by
      simp only [r, heq]
      exact isCompleted_reconcileCancel h.fits (reported_mem_ids orders s i)
        (show IsId (report (orders i) (s.broker i)).id from hids i) side
    refine ⟨?_, ?_, fun hfalse => by simp [hdone] at hfalse⟩
    · simp only [r, heq, hfill]
      omega
    · simp only [r, heq, hrelease]
      rw [h.unreleased i hc, hrest, hexecuted, zero_add]
      exact max_le (by omega) le_rfl

include hids hinj in
/-- A round for an order with nothing in flight: it passes on what was missed. -/
theorem Booked.reconcile (h : Booked orders s) {i : Fin n} (hquiet : ∀ x ∈ s.stream, x.1 ≠ i) :
    Booked orders (Session.reconcile orders s i) := by
  obtain ⟨hfill, hrelease, hunreleased⟩ := h.sums_reconcileOrder hids hquiet
  have hid : IsId (report (orders i) (s.broker i)).id := hids i
  obtain ⟨hfits, -, hagree⟩ := reconcileOrder_memory h.fits (reported_mem_ids orders s i) hid
  have hfind := findFilledQty_reconcileOrder h.fits (reported_mem_ids orders s i) hid
  refine h.advance hinj i hfits hfind hagree (fun x hx => hx) (fun _ _ _ => rfl) ?_ ?_ hunreleased
  · rw [Runs.tally_eq_zero _ hquiet, add_zero]
    exact hfill
  · rw [Runs.tally_eq_zero _ hquiet, add_zero]
    exact hrelease

include hids hinj in
/-- A page of orders with nothing in flight. -/
theorem Booked.foldl_reconcile {is : List (Fin n)} :
    ∀ {s : State n}, Booked orders s → (∀ i ∈ is, ∀ x ∈ s.stream, x.1 ≠ i) →
      Booked orders (is.foldl (Session.reconcile orders) s) := by
  induction is with
  | nil => exact fun h _ => h
  | cons i is ih =>
      intro s h hquiet
      exact ih (h.reconcile hids hinj (hquiet i List.mem_cons_self))
        (fun j hj => hquiet j (List.mem_cons_of_mem _ hj))

include hids hinj in
/-- **A step that meets the condition keeps the invariant.** -/
theorem Booked.step (h : Booked orders s) {a : Action n} (hok : Quiet s a)
    (hstep : Session.step orders s a = some t) : Booked orders t := by
  rcases step_cases hstep with ⟨i, qty, price, rfl, hnone, hpos, hle, rfl⟩ |
    ⟨i, ending, rfl, hnone, hending, rfl⟩ | ⟨rfl, rfl⟩ | ⟨rfl, -, -, rfl⟩ | ⟨is, rfl, -, rfl⟩ |
    ⟨-, -, rfl⟩ | ⟨i, m, stream, rfl, -, hs, rfl⟩
  · refine h.broker rfl le_rfl hpos.le hle hnone ?_
    simp only [executionMessage, messageReleaseQty, Progress.execute, releasable]
    split_ifs <;> simp
  · have hle := h.executed i
    refine h.broker rfl (by simp [endMessage, messageFillQty]) le_rfl hle hnone ?_
    have hrest : releasable (orders i) { s.broker i with ending := some ending } =
        (orders i).qty - (s.broker i).executed := by
      cases ending <;> simp_all [releasable]
    rw [hrest]
    exact max_le (by omega) le_rfl
  · -- what was in flight is lost: both bounds only get weaker
    refine ⟨h.fits, h.remembered, fun i => ?_, fun i => ?_, h.unreleased, h.executed, by simp⟩
    · have hpos := Runs.tally_nonneg (fun x hx => (h.about x hx).2) i
      have hold := h.fills i
      simp only [fillsInFlight, applied, Runs.tally_nil] at hold ⊢
      omega
    · have hpos : 0 ≤ Runs.tally messageReleaseQty s.stream i :=
        Runs.tally_nonneg (fun x _ => messageReleaseQty_nonneg x.2) i
      have hold := h.releases i
      simp only [releasesInFlight, released, Runs.tally_nil] at hold ⊢
      omega
  · exact { h with }
  · exact { h.foldl_reconcile hids hinj hok with }
  · exact { h with }
  · exact h.deliver hids hinj hs

end Steps

/-- What there is to release is at most the rest. -/
theorem releasable_le {order : BrokerOrder} {p : Progress} (h : p.executed ≤ order.qty) :
    releasable order p ≤ order.qty - p.executed := by
  unfold releasable
  split <;> omega

end Session

/-- **At most once across reconnects.**  In every run of a session with at most 4096 orders in which
no message of a reported order is in flight when a query is answered, the listener never passes more
to `onFill` for an order than the broker executed, and never more to `onOrderCancelled` than the
rest of the order. -/
theorem at_most_once {n : ℕ} (hn : n ≤ FillListener.kMaxTrackedOrders)
    (orders : Fin n → Session.BrokerOrder) (hids : ∀ i, FillListener.IsId (orders i).id)
    (hunique : Function.Injective fun i => (orders i).id) (hqty : ∀ i, 0 ≤ (orders i).qty)
    (as : List (Session.Action n)) (s : Session.State n)
    (hrun : Runs.exec (Session.step orders) {} as = some s)
    (hok : Runs.AllSteps (Session.step orders) Session.Quiet {} as) (i : Fin n) :
    Session.applied s i ≤ (s.broker i).executed ∧
      Session.released s i ≤ (orders i).qty - (s.broker i).executed := by
  have h : Session.Booked orders s := Runs.exec_inv_of_allSteps
    (fun _ _ _ h hoka hst => Session.Booked.step hids hunique h hoka hst)
    (Session.booked_init hqty hn) hok hrun
  have hfills := h.fills i
  have hreleases := h.releases i
  have hfpos : 0 ≤ Session.fillsInFlight s i :=
    Runs.tally_nonneg (fun x hx => (h.about x hx).2) i
  have hrpos : 0 ≤ Session.releasesInFlight s i :=
    Runs.tally_nonneg (fun x _ => Session.messageReleaseQty_nonneg x.2) i
  have hle := Session.releasable_le (h.executed i)
  exact ⟨by omega, by omega⟩

/-- A purchase of 100 shares. -/
def Session.purchase : Session.BrokerOrder where
  id := [120]
  symbol := [65, 65, 80, 76]
  side := .buy
  qty := 100

/-- A partial fill is lost, found by the reconciliation, and not booked again; the rest is cancelled
live. -/
theorem at_most_once_for_a_lost_fill :
    let as : List (Session.Action 1) :=
      [.authorized, .disconnect, .execute 0 60 10, .authorized, .query (.success [0]),
        .finish 0 .canceled, .deliver]
    ∃ s, Runs.exec (Session.step fun _ => Session.purchase) {} as = some s ∧
      Session.applied s 0 ≤ (s.broker 0).executed ∧
      Session.released s 0 ≤ 100 - (s.broker 0).executed := by
  intro as
  have hsome : (Runs.exec (Session.step fun _ => Session.purchase) {} as).isSome = true := by
    decide +kernel
  obtain ⟨s, hs⟩ := Option.isSome_iff_exists.1 hsome
  exact ⟨s, hs, at_most_once (by decide) (fun _ => Session.purchase) (fun _ => by decide)
    (fun i j _ => Subsingleton.elim i j) (fun _ => by decide) as s hs (by decide +kernel) 0⟩

/-- **A fill is applied twice.**  The order is filled after the listener has subscribed and before
the snapshot is taken: the reconciliation books the 100 shares, and so does the message when it is
delivered. -/
theorem fill_applied_twice :
    let as : List (Session.Action 1) :=
      [.authorized, .disconnect, .authorized, .execute 0 100 10, .query (.success [0]), .deliver]
    ∃ s, Runs.exec (Session.step fun _ => Session.purchase) {} as = some s ∧
      (s.broker 0).executed = 100 ∧ Session.applied s 0 = 200 := by
  intro as
  have hrun : (Runs.exec (Session.step fun _ => Session.purchase) {} as).any
      (fun s => (s.broker 0).executed = 100 ∧ Session.applied s 0 = 200) = true := by
    decide +kernel
  obtain ⟨s, hs, hbad⟩ := (Option.any_eq_true _ _).1 hrun
  exact ⟨s, hs, of_decide_eq_true hbad⟩

end Trading
