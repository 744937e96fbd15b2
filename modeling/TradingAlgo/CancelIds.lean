/-
**Which orders the gateway cancels.**

The id of an order goes a long way: from the field `id` of the broker's reply, which has the empty
string as its default, into the 48 bytes of an `AlpacaOrderId`, from there up to the first NUL into
the URL of a `DELETE` request.  The gateway of `OrderGateway.lean` is run here on the replies as
they come, and the log keeps what was received and what was requested.

Main definitions:

* `Trading.Naming.State`, `Trading.Naming.step` — the gateway with the log;
* `Trading.Naming.NamesOrder` — a reply whose id survives the way;
* `Trading.Naming.Named` — an id that an earlier reply for the slot has.

Main results:

* `Trading.Naming.step_refines` — a step is one of the gateway's steps on the outcome of the reply;
* `Trading.Naming.Inv.step` — one step on a reply whose id survives;
* `Trading.cancel_requests_name_real_orders` — all runs on such replies.
-/

import TradingAlgo.JsonReplies

set_option relaxedAutoImplicit false
set_option autoImplicit false

namespace Trading

open Nlohmann

namespace Naming

/-! ### The machine -/

/-- What the log keeps: the replies of successful placements, and the ids passed to
`cancelOrder`. -/
inductive Event
  | placed (slot : OrderSlotKey) (reply : Json)
  | cancel (slot : OrderSlotKey) (alpacaOrderId : List UInt8)

/-- The gateway, where it stands in `executeOrder`, and the log. -/
structure State where
  gateway : Gateway
  pc : Replace.Pc := .idle
  log : List Event := []

/-- The steps of the gateway, a placement with the response as it comes, `none` for a call that the
limiter drops; and the completions that the listener reports. -/
inductive Action
  | dequeue (order : Order)
  | cancelReply (reply : Outcome Unit)
  | placeReply (response : Option JsonResponse)
  | record
  | completed (slot : OrderSlotKey) (alpacaOrderId : List UInt8)

/-- The value in the body of a response. -/
def bodyOf (response : Option JsonResponse) : Json :=
  (response.bind JsonResponse.body).getD .null

/-- The step function. -/
def step (s : State) : Action → Option State
  | .dequeue order =>
      match s.pc with
      | .idle =>
          some { s with
            pc :=
              match s.gateway.existingOrder order with
              | none => .placing order
              | some prevId => .cancelling order prevId }
      | _ => none
  | .cancelReply reply =>
      match s.pc with
      | .cancelling order prevId =>
          let g : Gateway :=
            { s.gateway with requests := s.gateway.requests ++ [.cancelOrder prevId.view] }
          some
            { gateway := if reply.cancelAccepted then g else g.release order
              pc := if reply.cancelAccepted then .placing order else .idle
              log := s.log ++ [.cancel (Replace.slotOf order) prevId.view] }
      | _ => none
  | .placeReply response =>
      match s.pc with
      | .placing order =>
          let g : Gateway :=
            { s.gateway with requests := s.gateway.requests ++ [.placeOrder order] }
          match Trading.placeReply response with
          | .ok ack =>
              some
                { gateway := g
                  pc := .recording order ack.clientOrderId
                  log := s.log ++ [.placed (Replace.slotOf order) (bodyOf response)] }
          | .unexpected _ => some { s with gateway := g.release order, pc := .idle }
          | .threw => some { s with gateway := g.release order, pc := .idle }
      | _ => none
  | .record =>
      match s.pc with
      | .recording order clientOrderId =>
          some { s with gateway := s.gateway.record order clientOrderId, pc := .idle }
      | _ => none
  | .completed slot id =>
      some { s with
        gateway :=
          { s.gateway with
            pendingTracker :=
              s.gateway.pendingTracker.map fun t => t.onOrderCompleted slot.symbol slot.side id } }

/-- The start: an empty tracker. -/
def init (pm : PositionManager) : State where
  gateway := { positionManager := pm, pendingTracker := some {} }

/-- An action as the gateway sees it. -/
def Action.outcome : Action → Replace.Action
  | .dequeue order => .dequeue order
  | .cancelReply reply => .cancelReply reply
  | .placeReply response => .placeReply (Trading.placeReply response).outcome
  | .record => .record
  | .completed slot id => .completed slot id

/-- **A step is a step of the gateway** on the outcome of the reply, while the ids are fresh. -/
theorem step_refines {s t : State} {a : Action} (hstep : step s a = some t) (r : Replace.State)
    (hgateway : r.gateway = s.gateway) (hpc : r.pc = s.pc)
    (hfresh : ∀ response ack, a = .placeReply response → Trading.placeReply response = .ok ack →
      Replace.FreshId r ack.clientOrderId) :
    ∃ r', Replace.step r a.outcome = some r' ∧ r'.gateway = t.gateway ∧ r'.pc = t.pc := by
  cases a with
  | dequeue order =>
      cases hs : s.pc with
      | idle =>
          simp only [step, hs, Option.some_inj] at hstep
          subst hstep
          cases hprev : s.gateway.existingOrder order with
          | none => simp [Action.outcome, Replace.step, hpc, hs, hgateway, hprev]
          | some prevId => simp [Action.outcome, Replace.step, hpc, hs, hgateway, hprev]
      | _ => simp [step, hs] at hstep
  | cancelReply reply =>
      cases hs : s.pc with
      | cancelling order prevId =>
          simp only [step, hs, Option.some_inj] at hstep
          subst hstep
          simp [Action.outcome, Replace.step, hpc, hs, hgateway]
      | _ => simp [step, hs] at hstep
  | placeReply response =>
      cases hs : s.pc with
      | placing order =>
          simp only [step, hs] at hstep
          cases hreply : Trading.placeReply response with
          | ok ack =>
              have hid := hfresh response ack rfl hreply
              simp only [hreply, Option.some_inj] at hstep
              subst hstep
              simp [Action.outcome, Replace.step, hpc, hs, hgateway, hreply, CallResult.outcome,
                hid]
          | unexpected _ | threw =>
              simp only [hreply, Option.some_inj] at hstep
              subst hstep
              simp [Action.outcome, Replace.step, hpc, hs, hgateway, hreply, CallResult.outcome]
      | _ => simp [step, hs] at hstep
  | record =>
      cases hs : s.pc with
      | recording order clientOrderId =>
          simp only [step, hs, Option.some_inj] at hstep
          subst hstep
          simp [Action.outcome, Replace.step, hpc, hs, hgateway]
      | _ => simp [step, hs] at hstep
  | completed slot id =>
      simp only [step, Option.some_inj] at hstep
      subst hstep
      simp [Action.outcome, Replace.step, hpc, hgateway]

/-! ### Ids that survive -/

/-- A reply with which a placement succeeds has an id that survives its way: the field is there, it
is not empty, has no NUL and at most 48 bytes.  A field that is not a string makes the placement
fail, and a reply without one lets it succeed. -/
def NamesOrder (response : Option JsonResponse) : Prop :=
  ∀ r ∈ response, r.statusCode < 400 → ∀ j ∈ r.body,
    j.isObject = true → j.Readable "id" → j.Readable "status" →
      ∃ t ∈ (j.member "id").bind Json.text, FillListener.IsId (utf8 t)

/-- The condition on a step. -/
def Action.Ok : Action → Prop
  | .placeReply response => NamesOrder response
  | _ => True

instance (response : Option JsonResponse) : Decidable (NamesOrder response) :=
  inferInstanceAs (Decidable (∀ r ∈ response, _ → ∀ j ∈ r.body, _ → _ → _ → ∃ t ∈ _, _))

instance (a : Action) : Decidable a.Ok :=
  match a with
  | .placeReply response => inferInstanceAs (Decidable (NamesOrder response))
  | .dequeue _ | .cancelReply _ | .record | .completed _ _ => isTrue trivial

/-- An earlier reply for the slot has this id, and it is not empty. -/
def Named (log : List Event) (slot : OrderSlotKey) (id : List UInt8) : Prop :=
  id ≠ [] ∧ ∃ j t, Event.placed slot j ∈ log ∧ j.member "id" = some (.string t) ∧ utf8 t = id

theorem Named.mono {log log' : List Event} {slot : OrderSlotKey} {id : List UInt8}
    (h : Named log slot id) (hsub : log ⊆ log') : Named log' slot id := by
  obtain ⟨hne, j, t, hmem, hfield, hid⟩ := h
  exact ⟨hne, j, t, hsub hmem, hfield, hid⟩

/-- A successful placement on a reply whose id survives returns this id. -/
theorem placeReply_ok {response : Option JsonResponse} {ack : OrderAck}
    (hok : NamesOrder response) (h : placeReply response = .ok ack) :
    FillListener.IsId ack.clientOrderId ∧
      ∃ t, (bodyOf response).member "id" = some (.string t) ∧ utf8 t = ack.clientOrderId := by
  cases response with
  | none => simp [placeReply] at h
  | some r =>
      simp only [placeReply] at h
      split_ifs at h with hstatus
      cases hbody : r.body with
      | none => simp [hbody] at h
      | some j =>
          simp only [hbody] at h
          cases hid : j.value "id" "" with
          | none => simp [hid] at h
          | some id =>
              cases hst : j.value "status" "unknown" with
              | none => simp [hid, hst] at h
              | some status =>
                  simp only [hid, hst, CallResult.ok.injEq] at h
                  subst h
                  obtain ⟨hobj, hread⟩ := (j.value_isSome_iff "id" "").1 (by simp [hid])
                  have hread' := ((j.value_isSome_iff "status" "unknown").1 (by simp [hst])).2
                  obtain ⟨t, ht, hgood⟩ := hok r rfl (not_le.1 hstatus) j hbody hobj hread hread'
                  rcases Json.value_eq hid with ⟨hnone, -⟩ | hfield
                  · simp [hnone] at ht
                  · have htext : t = id := by simpa [hfield, Json.text, eq_comm] using ht
                    subst htext
                    exact ⟨hgood, t, by simpa [bodyOf, hbody] using hfield, rfl⟩

/-! ### The invariant -/

/-- What the gateway is about to cancel or to record is named by the log. -/
def PcNamed (log : List Event) : Replace.Pc → Prop
  | .cancelling order prevId => Named log (Replace.slotOf order) prevId.view
  | .recording order clientOrderId =>
      FillListener.IsId clientOrderId ∧ Named log (Replace.slotOf order) clientOrderId
  | _ => True

/-- Everything that is stored, about to be used or used as an id is named by the log, a request by
the log before it. -/
structure Inv (s : State) : Prop where
  stored : ∀ tracker ∈ s.gateway.pendingTracker, ∀ slot, ∀ id ∈ tracker.slots slot,
    Named s.log slot id.view
  pc : PcNamed s.log s.pc
  log : ∀ before slot id, before ++ [.cancel slot id] <+: s.log → Named before slot id

theorem inv_init (pm : PositionManager) : Inv (init pm) where
  stored := by
    intro tracker htracker slot id hid
    simp only [init, Option.mem_some_iff] at htracker
    subst htracker
    simp at hid
  pc := trivial
  log := by simp [init]

/-- A step that appends nothing and stores nothing new. -/
theorem Inv.quiet {s t : State} (h : Inv s) (hlog : t.log = s.log)
    (hstored : ∀ tracker ∈ t.gateway.pendingTracker, ∀ slot, ∀ id ∈ tracker.slots slot,
      Named s.log slot id.view) (hpc : PcNamed s.log t.pc) : Inv t where
  stored := by rw [hlog]; exact hstored
  pc := by rw [hlog]; exact hpc
  log := by rw [hlog]; exact h.log

/-- A step that appends an event, justified by the log before it. -/
theorem Inv.append {s t : State} (h : Inv s) {e : Event} (hlog : t.log = s.log ++ [e])
    (hgateway : t.gateway.pendingTracker = s.gateway.pendingTracker)
    (hpc : PcNamed (s.log ++ [e]) t.pc)
    (he : ∀ slot id, e = .cancel slot id → Named s.log slot id) : Inv t where
  stored := by
    rw [hgateway, hlog]
    intro tracker htracker slot id hid
    exact (h.stored tracker htracker slot id hid).mono (List.subset_append_left _ _)
  pc := by rw [hlog]; exact hpc
  log := by
    intro before slot id hpre
    rw [hlog] at hpre
    rcases List.prefix_concat_iff.1 hpre with heq | hpre
    · obtain ⟨rfl, hlast⟩ := List.append_inj' heq rfl
      exact he slot id (List.singleton_inj.1 hlast).symm
    · exact h.log before slot id hpre

section Steps

variable {s t : State}

theorem Inv.dequeue (h : Inv s) {order : Order} (hstep : Naming.step s (.dequeue order) = some t) :
    Inv t := by
  cases hs : s.pc with
  | idle =>
      simp only [Naming.step, hs, Option.some_inj] at hstep
      subst hstep
      refine h.quiet rfl h.stored ?_
      cases hprev : s.gateway.existingOrder order with
      | none => trivial
      | some prevId =>
          -- the id comes out of the slot of the order
          obtain ⟨tracker, htracker, hslot⟩ := Option.bind_eq_some_iff.1 hprev
          exact h.stored tracker htracker (Replace.slotOf order) prevId hslot
  | _ => simp [Naming.step, hs] at hstep

theorem Inv.cancelReply (h : Inv s) {reply : Outcome Unit}
    (hstep : Naming.step s (.cancelReply reply) = some t) : Inv t := by
  cases hs : s.pc with
  | cancelling order prevId =>
      simp only [Naming.step, hs, Option.some_inj] at hstep
      subst hstep
      have hnamed : Named s.log (Replace.slotOf order) prevId.view := by
        simpa [hs, PcNamed] using h.pc
      refine h.append rfl ?_ ?_ ?_
      · by_cases hacc : reply.cancelAccepted = true <;> simp [hacc, Gateway.release]
      · by_cases hacc : reply.cancelAccepted = true <;> simp [hacc, PcNamed]
      · rintro slot id heq
        obtain ⟨rfl, rfl⟩ := Event.cancel.inj heq
        exact hnamed
  | _ => simp [Naming.step, hs] at hstep

theorem Inv.placeReply (h : Inv s) {response : Option JsonResponse} (hok : NamesOrder response)
    (hstep : Naming.step s (.placeReply response) = some t) : Inv t := by
  cases hs : s.pc with
  | placing order =>
      simp only [Naming.step, hs] at hstep
      cases hreply : Trading.placeReply response with
      | ok ack =>
          simp only [hreply, Option.some_inj] at hstep
          subst hstep
          obtain ⟨hid, text, hfield, htext⟩ := placeReply_ok hok hreply
          refine h.append rfl rfl ⟨hid, hid.1, bodyOf response, text, by simp, hfield, htext⟩ ?_
          rintro slot id heq
          cases heq
      | unexpected _ | threw =>
          simp only [hreply, Option.some_inj] at hstep
          subst hstep
          exact h.quiet rfl h.stored trivial
  | _ => simp [Naming.step, hs] at hstep

theorem Inv.record (h : Inv s) (hstep : Naming.step s .record = some t) : Inv t := by
  cases hs : s.pc with
  | recording order clientOrderId =>
      simp only [Naming.step, hs, Option.some_inj] at hstep
      subst hstep
      have hpc := h.pc
      rw [hs] at hpc
      obtain ⟨hid, hnamed⟩ := hpc
      refine h.quiet rfl ?_ trivial
      intro tracker htracker slot id hslot
      obtain ⟨tracker', htracker', rfl⟩ := Option.map_eq_some_iff.1 htracker
      rw [Option.mem_def, PendingOrderTracker.recordOrder_slots] at hslot
      split_ifs at hslot with heq
      · -- the id that was just stored comes back as it is
        rw [← Option.some_inj.1 hslot, hid.view, heq]
        exact hnamed
      · exact h.stored tracker' htracker' slot id hslot
  | _ => simp [Naming.step, hs] at hstep

theorem Inv.completed (h : Inv s) {slot' : OrderSlotKey} {id' : List UInt8}
    (hstep : Naming.step s (.completed slot' id') = some t) : Inv t := by
  simp only [Naming.step, Option.some_inj] at hstep
  subst hstep
  refine h.quiet rfl ?_ h.pc
  intro tracker htracker slot id hslot
  obtain ⟨tracker', htracker', rfl⟩ := Option.map_eq_some_iff.1 htracker
  rw [Option.mem_def, PendingOrderTracker.onOrderCompleted_slots] at hslot
  split_ifs at hslot
  exact h.stored tracker' htracker' slot id hslot

/-- **One step on a reply whose id survives.** -/
theorem Inv.step (h : Inv s) {a : Action} (hok : a.Ok) (hstep : Naming.step s a = some t) :
    Inv t := by
  cases a with
  | dequeue order => exact h.dequeue hstep
  | cancelReply reply => exact h.cancelReply hstep
  | placeReply response => exact h.placeReply hok hstep
  | record => exact h.record hstep
  | completed slot id => exact h.completed hstep

end Steps

end Naming

/-- **Cancel requests name real orders.**  In every run of the gateway with a tracker, over any
orders and completions, in which every reply that lets a placement succeed has an id that survives
its way: an id that is passed to `cancelOrder` is not empty, and it is the field `id` of an earlier
reply to a successful placement for the same symbol and side. -/
theorem cancel_requests_name_real_orders (pm : PositionManager) (as : List Naming.Action)
    (hok : Runs.AllSteps Naming.step (fun _ a => a.Ok) (Naming.init pm) as) (s : Naming.State)
    (hrun : Runs.exec Naming.step (Naming.init pm) as = some s) (before : List Naming.Event)
    (slot : OrderSlotKey) (id : List UInt8) (hcancel : before ++ [.cancel slot id] <+: s.log) :
    id ≠ [] ∧ ∃ reply text, Naming.Event.placed slot reply ∈ before ∧
      reply.member "id" = some (.string text) ∧ utf8 text = id :=
  (Runs.exec_inv_of_allSteps (fun _ _ _ h hok hstep => Naming.Inv.step h hok hstep)
    (Naming.inv_init pm) hok hrun).log before slot id hcancel

/-- The reply to a placement, with these fields. -/
def Naming.accepted (fields : List (String × Json)) : JsonResponse where
  statusCode := 200
  body := some (.object fields)

/-- A purchase that is placed, and cancelled for the next one. -/
def Naming.replacement (fields : List (String × Json)) : List Naming.Action :=
  let order : Order :=
    { symbol := CharArray.ofBytes 8 [65, 65, 80, 76], quantity := 10, side := .buy }
  [.dequeue order, .placeReply (some (accepted fields)), .record, .dequeue order,
    .cancelReply (.success ())]

/-- The slot of these purchases. -/
def Naming.purchases : OrderSlotKey := ⟨CharArray.ofBytes 8 [65, 65, 80, 76], .buy⟩

/-- The id of the reply is the one in the request. -/
theorem cancel_request_for_an_id :
    ∃ s, Runs.exec Naming.step (Naming.init {}) (Naming.replacement [("id", .string "a-1")]) =
        some s ∧
      ∃ reply text,
        Naming.Event.placed Naming.purchases reply ∈
          [Naming.Event.placed Naming.purchases (.object [("id", .string "a-1")])] ∧
        reply.member "id" = some (.string text) ∧ utf8 text = [97, 45, 49] := by
  refine ⟨_, rfl, ?_⟩
  exact (cancel_requests_name_real_orders {} (Naming.replacement [("id", .string "a-1")])
    (by decide +kernel) _ rfl _ Naming.purchases [97, 45, 49] ⟨[], rfl⟩).2

/-- The reply has no id: the request names the collection of all orders. -/
theorem cancel_request_without_id :
    ∃ s, Runs.exec Naming.step (Naming.init {})
        (Naming.replacement [("status", .string "accepted")]) = some s ∧
      [Naming.Event.placed Naming.purchases (.object [("status", .string "accepted")])] ++
        [.cancel Naming.purchases []] <+: s.log := by
  exact ⟨_, rfl, [], rfl⟩

end Trading
