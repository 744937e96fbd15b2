/-
**No execution is lost, unless a terminal message comes too early.**

A reconciliation skips the orders that are marked as completed, and books of the others what the
memory of filled quantities does not have.  A live `fill` or `canceled` message marks its order as
completed without asking whether everything before it was booked.  If an earlier message of the
order was lost and the reconciliation that should have found it failed, the mark hides the missing
quantity from every later one (`Trading.execution_lost_behind_completion`).

When no terminal message is processed while an earlier execution of its order is not booked, and
no two orders share a stored id, every order that a reconciliation reports is booked at least up to
the reported quantity, whatever was lost, evicted or failed before (`Trading.no_lost_execution`).

Main definitions:

* `Trading.Session.NothingMissed` — the condition on a step;
* `Trading.Session.Recovered` — the invariant that links both memories to what was passed on.

Main results:

* `Trading.Session.Recovered.step` — a step that meets the condition keeps the invariant;
* `Trading.no_lost_execution` — so does every run.
-/

import TradingAlgo.AtMostOnce

set_option relaxedAutoImplicit false
set_option autoImplicit false

namespace Trading

namespace Session

open FillListener

variable {n : ℕ}

/-- An id as the memories keep it: its first 48 bytes, up to the first NUL. -/
def storedId (id : List UInt8) : List UInt8 := (CharArray.ofBytes 48 id).view

/-- What is stored is stored as it is. -/
@[simp] theorem storedId_view (a : CharArray 48) : storedId a.view = a.view :=
  CharArray.view_ofBytes a.zero_notMem_view a.view_length_le

/-- The condition on a step: a terminal message is processed only when all executions of its order
before it have been passed on. -/
def NothingMissed (s : State n) : Action n → Prop
  | .deliver =>
      match s.stream with
      | [] => True
      | (i, m) :: _ => Terminal m → (s.broker i).executed ≤ applied s i + messageFillQty m
  | _ => True

instance (s : State n) (a : Action n) : Decidable (NothingMissed s a) :=
  match a with
  | .deliver =>
      match h : s.stream with
      | [] => isTrue (by simp [NothingMissed, h])
      | (i, m) :: _ =>
          decidable_of_iff
            (Terminal m → (s.broker i).executed ≤ applied s i + messageFillQty m)
            (by simp [NothingMissed, h])
  | .query _ => isTrue trivial
  | .execute .. => isTrue trivial
  | .finish .. => isTrue trivial
  | .disconnect => isTrue trivial
  | .authorized => isTrue trivial

/-! ### The memories, with evictions and any ids -/

theorem mem_upsertFilledQty {l : FillListener} {id : List UInt8} {qty : ℤ} {e : FilledEntry}
    (h : e ∈ (l.upsertFilledQty id qty).filledEntries) :
    e ∈ l.filledEntries ∨ (entryKey e = storedId id ∧ e.filledQty = qty) := by
  rcases BoundedMemo.mem_upsert entryKey h with h | rfl | ⟨a, -, hkey, rfl⟩
  · exact Or.inl h
  · exact Or.inr ⟨rfl, rfl⟩
  · refine Or.inr ⟨?_, rfl⟩
    show entryKey a = storedId id
    rw [← hkey, entryKey, storedId_view]

theorem mem_markCompleted {l : FillListener} {id : List UInt8} {c : CharArray 48}
    (h : c ∈ (l.markCompleted id).completedEntries) :
    c ∈ l.completedEntries ∨ c.view = storedId id := by
  unfold markCompleted at h
  split_ifs at h
  · exact Or.inl h
  · rcases BoundedMemo.mem_push h with h | rfl
    · exact Or.inl h
    · exact Or.inr rfl

/-- What is found is in the memory, under the stored id. -/
theorem findFilledQty_cases (l : FillListener) (id : List UInt8) :
    l.findFilledQty id = 0 ∨
      ∃ e ∈ l.filledEntries, entryKey e = storedId id ∧ l.findFilledQty id = e.filledQty := by
  unfold findFilledQty
  cases hfind : BoundedMemo.find entryKey id l.filledEntries with
  | none => exact Or.inl rfl
  | some e =>
      have hkey : entryKey e = id := by simpa using List.find?_some hfind
      refine Or.inr ⟨e, List.mem_of_find?_eq_some hfind, ?_, rfl⟩
      rw [← hkey, entryKey, storedId_view]

theorem exists_of_isCompleted {l : FillListener} {id : List UInt8} (h : l.isCompleted id = true) :
    ∃ c ∈ l.completedEntries, c.view = storedId id := by
  obtain ⟨c, hc, rfl⟩ := List.mem_map.1 (isCompleted_iff.1 h)
  exact ⟨c, hc, (storedId_view c).symm⟩

/-- The entries after a message. -/
theorem mem_filledEntries_handleTradeUpdate {l : FillListener} {m : TradeMessage} {e : FilledEntry}
    (h : e ∈ (l.handleTradeUpdate m.update).1.filledEntries) :
    e ∈ l.filledEntries ∨ (entryKey e = storedId (messageId m) ∧
      e.filledQty = l.findFilledQty (storedId (messageId m)) + messageFillQty m) := by
  cases m with
  | execution isPartial orderId symbol side qty price =>
      simp only [TradeMessage.update, handleTradeUpdate, processFillEvent] at h
      split_ifs at h
      · exact (mem_upsertFilledQty h).imp_right (And.imp_left (Eq.trans · (storedId_view _)))
      · rw [filledEntries_markCompleted] at h
        exact (mem_upsertFilledQty h).imp_right (And.imp_left (Eq.trans · (storedId_view _)))
      · exact Or.inl h
  | ended orderId symbol side qty filledQty =>
      simp only [TradeMessage.update, handleTradeUpdate, processCancelEvent] at h
      split_ifs at h
      · rw [filledEntries_markCompleted] at h
        exact Or.inl h
      · exact Or.inl h

/-- Only a terminal message marks its order. -/
theorem mem_completedEntries_handleTradeUpdate {l : FillListener} {m : TradeMessage}
    {c : CharArray 48} (h : c ∈ (l.handleTradeUpdate m.update).1.completedEntries) :
    c ∈ l.completedEntries ∨ (c.view = storedId (messageId m) ∧ Terminal m) := by
  cases m with
  | execution isPartial orderId symbol side qty price =>
      simp only [TradeMessage.update, handleTradeUpdate, processFillEvent] at h
      split_ifs at h with hne hpartial
      · exact Or.inl h
      · exact (mem_markCompleted h).imp_right fun hkey =>
          ⟨hkey.trans (storedId_view _), by simpa [Terminal] using hpartial⟩
      · exact Or.inl h
  | ended orderId symbol side qty filledQty =>
      simp only [TradeMessage.update, handleTradeUpdate, processCancelEvent] at h
      split_ifs at h
      · exact (mem_markCompleted h).imp_right fun hkey => ⟨hkey.trans (storedId_view _), trivial⟩
      · exact Or.inl h

/-- The entries after a round of a reconciliation. -/
theorem mem_filledEntries_reconcileOrder {l : FillListener} {o : AlpacaOrderStatus}
    {e : FilledEntry} (h : e ∈ (l.reconcileOrder o).1.filledEntries) :
    e ∈ l.filledEntries ∨ (entryKey e = storedId o.id ∧ e.filledQty = o.filledQty ∧ o.id ≠ [] ∧
      (isFillStatus o.status ∨ isCancelStatus o.status)) := by
  rcases l.reconcileOrder_cases o with ⟨-, heq⟩ | ⟨side, hid, -, -, hstatus, hmissed, heq⟩ |
    ⟨side, hid, -, -, -, hstatus, heq⟩
  · rw [heq] at h
    exact Or.inl h
  · rw [heq, reconcileFill, if_neg (by omega)] at h
    simp only at h
    rw [apply_ite Prod.fst, apply_ite filledEntries, filledEntries_markCompleted, ite_self] at h
    exact (mem_upsertFilledQty h).imp_right fun hnew => ⟨hnew.1, hnew.2, hid, Or.inl hstatus⟩
  · rw [heq, reconcileCancel] at h
    simp only [filledEntries_markCompleted] at h
    split_ifs at h
    · exact (mem_upsertFilledQty h).imp_right fun hnew => ⟨hnew.1, hnew.2, hid, Or.inr hstatus⟩
    · exact Or.inl h

/-- Only an order that has ended is marked by a round. -/
theorem mem_completedEntries_reconcileOrder {l : FillListener} {o : AlpacaOrderStatus}
    {c : CharArray 48} (h : c ∈ (l.reconcileOrder o).1.completedEntries) :
    c ∈ l.completedEntries ∨
      (c.view = storedId o.id ∧ o.id ≠ [] ∧ (o.status = "filled" ∨ isCancelStatus o.status)) := by
  rcases l.reconcileOrder_cases o with ⟨-, heq⟩ | ⟨side, hid, -, -, -, hmissed, heq⟩ |
    ⟨side, hid, -, -, -, hstatus, heq⟩
  · rw [heq] at h
    exact Or.inl h
  · rw [heq, reconcileFill, if_neg (by omega)] at h
    simp only at h
    split_ifs at h with hfilled
    · exact (mem_markCompleted h).imp_right fun hkey => ⟨hkey, hid, Or.inl hfilled⟩
    · exact Or.inl h
  · rw [heq, reconcileCancel] at h
    refine (mem_markCompleted h).imp ?_ fun hkey => ⟨hkey, hid, Or.inr hstatus⟩
    split_ifs <;> exact id

/-! ### The invariant -/

/-- **The invariant.**  No entry of the first memory exceeds what was passed on for its order, and
an order in the second one has ended with everything passed on. -/
structure Recovered (orders : Fin n → BrokerOrder) (s : State n) : Prop where
  nonneg : ∀ i, 0 ≤ applied s i
  remembered : ∀ e ∈ s.listener.filledEntries, ∀ i, entryKey e = storedId (orders i).id →
    e.filledQty ≤ applied s i
  completed : ∀ c ∈ s.listener.completedEntries, ∀ i, c.view = storedId (orders i).id →
    (s.broker i).ending ≠ none ∧ (s.broker i).executed ≤ applied s i
  about : ∀ x ∈ s.stream, messageId x.2 = (orders x.1).id ∧ 0 ≤ messageFillQty x.2 ∧
    (Terminal x.2 → (s.broker x.1).ending ≠ none)
  reported : ∀ x ∈ s.reported, x.2.id ≠ [] →
    isFillStatus x.2.status ∨ isCancelStatus x.2.status → x.2.filledQty ≤ applied s x.1

theorem recovered_init (orders : Fin n → BrokerOrder) : Recovered orders ({} : State n) where
  nonneg := fun _ => le_rfl
  remembered := by simp
  completed := by simp
  about := by simp
  reported := by simp

theorem Recovered.findFilledQty_le {orders : Fin n → BrokerOrder} {s : State n}
    (h : Recovered orders s) {i : Fin n} {id : List UInt8}
    (hid : storedId id = storedId (orders i).id) : s.listener.findFilledQty id ≤ applied s i := by
  rcases findFilledQty_cases s.listener id with hzero | ⟨e, he, hkey, heq⟩
  · rw [hzero]
    exact h.nonneg i
  · rw [heq]
    exact h.remembered e he i (hkey.trans hid)

section Steps

variable {orders : Fin n → BrokerOrder}
  (hinj : Function.Injective fun i => storedId (orders i).id) {s t : State n}

include hinj in
/-- The listener passes something on for the order `i`: it is enough to look at the entries that
are new, and those are of `i`. -/
theorem Recovered.advance (h : Recovered orders s) (i : Fin n) {l : FillListener}
    {calls : List ListenerCall} {stream : List (Fin n × TradeMessage)}
    {reported : List (Fin n × AlpacaOrderStatus)} (hpos : 0 ≤ (calls.map fillQty).sum)
    (hremembered : ∀ e ∈ l.filledEntries, e ∈ s.listener.filledEntries ∨
      (entryKey e = storedId (orders i).id ∧
        e.filledQty ≤ applied s i + (calls.map fillQty).sum))
    (hcompleted : ∀ c ∈ l.completedEntries, c ∈ s.listener.completedEntries ∨
      (c.view = storedId (orders i).id ∧ (s.broker i).ending ≠ none ∧
        (s.broker i).executed ≤ applied s i + (calls.map fillQty).sum))
    (hstream : ∀ x ∈ stream, x ∈ s.stream)
    (hreported : ∀ x ∈ reported, x ∈ s.reported ∨ (x.1 = i ∧ (x.2.id ≠ [] →
      isFillStatus x.2.status ∨ isCancelStatus x.2.status →
        x.2.filledQty ≤ applied s i + (calls.map fillQty).sum))) :
    Recovered orders
      { s with
        listener := l
        stream := stream
        log := s.log ++ calls.map (Prod.mk i)
        reported := reported } := by
  have happlied : ∀ j, Runs.tally fillQty (s.log ++ calls.map (Prod.mk i)) j =
      applied s j + if i = j then (calls.map fillQty).sum else 0 :=
    Runs.tally_append_map_mk fillQty s.log i calls
  have hmono : ∀ j, applied s j ≤ Runs.tally fillQty (s.log ++ calls.map (Prod.mk i)) j := by
    intro j
    rw [happlied]
    split_ifs <;> omega
  have hown := happlied i
  rw [if_pos rfl] at hown
  refine ⟨fun j => (h.nonneg j).trans (hmono j), fun e he j hkey => ?_, fun c hc j hkey => ?_,
    fun x hx => h.about x (hstream x hx), fun x hx hid hstatus => ?_⟩
  · rcases hremembered e he with he | ⟨hkey', hle⟩
    · exact (h.remembered e he j hkey).trans (hmono j)
    · obtain rfl : j = i := hinj (hkey.symm.trans hkey')
      exact hle.trans hown.ge
  · rcases hcompleted c hc with hc | ⟨hkey', hending, hle⟩
    · obtain ⟨hending, hle⟩ := h.completed c hc j hkey
      exact ⟨hending, hle.trans (hmono j)⟩
    · obtain rfl : j = i := hinj (hkey.symm.trans hkey')
      exact ⟨hending, hle.trans hown.ge⟩
  · rcases hreported x hx with hx | ⟨rfl, hle⟩
    · exact (h.reported x hx hid hstatus).trans (hmono x.1)
    · exact (hle hid hstatus).trans hown.ge

include hinj in
/-- A message is processed. -/
theorem Recovered.deliver (h : Recovered orders s) {i : Fin n} {m : TradeMessage}
    {stream : List (Fin n × TradeMessage)} (hs : s.stream = (i, m) :: stream)
    (hok : Terminal m → (s.broker i).executed ≤ applied s i + messageFillQty m) :
    Recovered orders
      { s with
        listener := (s.listener.handleTradeUpdate m.update).1
        stream := stream
        log := s.log ++ (s.listener.handleTradeUpdate m.update).2.map (Prod.mk i) } := by
  obtain ⟨hid, hpos, hending⟩ := h.about (i, m) (by simp [hs])
  simp only at hid hpos hending
  have hsum := sum_fillQty_handleTradeUpdate s.listener m
  have hfind : s.listener.findFilledQty (storedId (orders i).id) ≤ applied s i :=
    h.findFilledQty_le (storedId_view _)
  refine h.advance hinj i (by rw [hsum]; exact hpos) (fun e he => ?_) (fun c hc => ?_)
    (fun x hx => by simp [hs, hx]) (fun x hx => Or.inl hx)
  · rw [hsum, ← hid]
    refine (mem_filledEntries_handleTradeUpdate he).imp_right ?_
    rintro ⟨hkey, hqty⟩
    refine ⟨hkey, ?_⟩
    rw [hqty, hid]
    omega
  · rw [hsum, ← hid]
    refine (mem_completedEntries_handleTradeUpdate hc).imp_right ?_
    rintro ⟨hkey, hterminal⟩
    exact ⟨hkey, hending hterminal, hok hterminal⟩

/-- A reported order is booked at least up to the report: by the round, or before it. -/
theorem Recovered.le_sum_reconcileOrder (h : Recovered orders s) (i : Fin n) :
    let o := report (orders i) (s.broker i)
    let sum := ((s.listener.reconcileOrder o).2.map fillQty).sum
    0 ≤ sum ∧ (o.id ≠ [] → isFillStatus o.status ∨ isCancelStatus o.status →
      o.filledQty ≤ applied s i + sum) := by
  intro o sum
  have hfind : s.listener.findFilledQty o.id ≤ applied s i := h.findFilledQty_le rfl
  rcases s.listener.reconcileOrder_cases o with ⟨hsettled, heq⟩ |
    ⟨side, -, -, -, -, hmissed, heq⟩ | ⟨side, -, -, -, -, -, heq⟩
  · have hsum : sum = 0 := by simp [sum, heq]
    refine ⟨hsum.ge, fun hid hstatus => ?_⟩
    rw [hsum, add_zero]
    -- an order is settled when it is completed or when its quantity is remembered
    rcases hsettled with hnil | hc | hside | ⟨-, hle⟩ | ⟨hfill, hcancel⟩
    · exact absurd hnil hid
    · obtain ⟨c, hc, hkey⟩ := exists_of_isCompleted hc
      exact (h.completed c hc i hkey).2
    · simp [o, report] at hside
    · exact hle.trans hfind
    · exact absurd hstatus (by simp [hfill, hcancel])
  · have hsum : sum = o.filledQty - s.listener.findFilledQty o.id := by
      simp only [sum, heq]
      exact (sums_reconcileFill side hmissed).1
    exact ⟨by omega, fun _ _ => by omega⟩
  · have hsum : sum = max 0 (o.filledQty - s.listener.findFilledQty o.id) := by
      simp only [sum, heq]
      exact (sums_reconcileCancel s.listener o side).1
    exact ⟨by omega, fun _ _ => by omega⟩

/-- The status of an order that is marked says that it has ended. -/
theorem ending_ne_none {p : Progress} (h : p.status = "filled" ∨ isCancelStatus p.status) :
    p.ending ≠ none := by
  rcases h with h | h
  · intro hnone
    unfold Progress.status at h
    rw [hnone] at h
    simp only at h
    split_ifs at h <;> simp at h
  · obtain ⟨ending, hending, -⟩ := isCancelStatus_iff.1 h
    simp [hending]

include hinj in
/-- A round of a reconciliation. -/
theorem Recovered.reconcile (h : Recovered orders s) (i : Fin n) :
    Recovered orders (Session.reconcile orders s i) := by
  obtain ⟨hpos, hle⟩ := h.le_sum_reconcileOrder i
  refine h.advance hinj i hpos (fun e he => ?_) (fun c hc => ?_) (fun x hx => hx) (fun x hx => ?_)
  · refine (mem_filledEntries_reconcileOrder he).imp_right ?_
    rintro ⟨hkey, hqty, hid, hstatus⟩
    exact ⟨hkey, hqty.trans_le (hle hid hstatus)⟩
  · refine (mem_completedEntries_reconcileOrder hc).imp_right ?_
    rintro ⟨hkey, hid, hstatus⟩
    exact ⟨hkey, ending_ne_none hstatus, hle hid (hstatus.imp_left Or.inl)⟩
  · rcases List.mem_append.1 hx with hx | hx
    · exact Or.inl hx
    · rw [List.mem_singleton.1 hx]
      exact Or.inr ⟨rfl, hle⟩

include hinj in
/-- A page. -/
theorem Recovered.foldl_reconcile {is : List (Fin n)} :
    ∀ {s : State n}, Recovered orders s →
      Recovered orders (is.foldl (Session.reconcile orders) s) := by
  induction is with
  | nil => exact fun h => h
  | cons i is ih => exact fun h => ih (h.reconcile hinj i)

/-- The broker goes on with an order that has not ended: the order is not marked, and none of its
messages in flight is terminal. -/
theorem Recovered.broker (h : Recovered orders s) {i : Fin n} {p : Progress} {m : TradeMessage}
    (hnone : (s.broker i).ending = none) (hid : messageId m = (orders i).id)
    (hpos : 0 ≤ messageFillQty m) (hterminal : Terminal m → p.ending ≠ none) :
    Recovered orders (send { s with broker := Function.update s.broker i p } i m) := by
  refine ⟨h.nonneg, h.remembered, fun c hc j hkey => ?_, fun x hx => ?_, h.reported⟩
  · -- a marked order has ended, so it is not the one that goes on
    have hold := h.completed c hc j hkey
    have hji : j ≠ i := by
      rintro rfl
      exact hold.1 hnone
    simp only [send, Function.update_of_ne hji]
    exact hold
  · have hold : ∀ y ∈ s.stream, messageId y.2 = (orders y.1).id ∧ 0 ≤ messageFillQty y.2 ∧
        (Terminal y.2 → (Function.update s.broker i p y.1).ending ≠ none) := by
      intro y hy
      obtain ⟨hid', hpos', hending⟩ := h.about y hy
      refine ⟨hid', hpos', fun hterm => ?_⟩
      have hyi : y.1 ≠ i := by
        rintro rfl
        exact hending hterm hnone
      rw [Function.update_of_ne hyi]
      exact hending hterm
    simp only [send] at hx ⊢
    split_ifs at hx
    · rcases List.mem_append.1 hx with hx | hx
      · exact hold x hx
      · rw [List.mem_singleton.1 hx]
        simpa using ⟨hid, hpos, hterminal⟩
    · exact hold x hx

include hinj in
/-- **A step that meets the condition keeps the invariant.** -/
theorem Recovered.step (h : Recovered orders s) {a : Action n} (hok : NothingMissed s a)
    (hstep : Session.step orders s a = some t) : Recovered orders t := by
  rcases step_cases hstep with ⟨i, qty, price, rfl, hnone, hpos, -, rfl⟩ |
    ⟨i, ending, rfl, hnone, -, rfl⟩ | ⟨rfl, rfl⟩ | ⟨rfl, -, -, rfl⟩ | ⟨is, rfl, -, rfl⟩ |
    ⟨-, -, rfl⟩ | ⟨i, m, stream, rfl, -, hs, rfl⟩
  · refine h.broker hnone rfl hpos.le fun hterminal => ?_
    have hlast : (s.broker i).executed + qty = (orders i).qty := by
      simpa [executionMessage, Terminal] using hterminal
    simp [Progress.execute, hlast]
  · exact h.broker hnone rfl le_rfl fun _ => by simp
  · exact { h with about := by simp }
  · exact { h with }
  · exact { h.foldl_reconcile hinj with }
  · exact { h with }
  · simp only [NothingMissed, hs] at hok
    exact h.deliver hinj hs hok

end Steps

end Session

/-- **No execution is lost.**  In every run of a session in which no terminal message is processed
before all earlier executions of its order are booked, every order that a reconciliation has
reported with an id and a handled status is booked at least up to the reported quantity. -/
theorem no_lost_execution {n : ℕ} (orders : Fin n → Session.BrokerOrder)
    (hunique : Function.Injective fun i => Session.storedId (orders i).id)
    (as : List (Session.Action n)) (s : Session.State n)
    (hrun : Runs.exec (Session.step orders) {} as = some s)
    (hok : Runs.AllSteps (Session.step orders) Session.NothingMissed {} as)
    (i : Fin n) (o : AlpacaOrderStatus) (hreported : (i, o) ∈ s.reported) (hid : o.id ≠ [])
    (hstatus : FillListener.isFillStatus o.status ∨ FillListener.isCancelStatus o.status) :
    o.filledQty ≤ Session.applied s i := by
  have h : Session.Recovered orders s := Runs.exec_inv_of_allSteps
    (fun _ _ _ h hoka hst => Session.Recovered.step hunique h hoka hst)
    (Session.recovered_init orders) hok hrun
  exact h.reported (i, o) hreported hid hstatus

/-- A first fill is lost, the reconciliation after it fails, and the next one finds the fill. -/
theorem no_lost_execution_after_an_error :
    let as : List (Session.Action 1) :=
      [.authorized, .disconnect, .execute 0 60 10, .authorized, .query (.error 500),
        .disconnect, .execute 0 40 10, .authorized, .query (.success [0])]
    let o := Session.report Session.purchase
      { executed := 100, value := 1000, ending := some .filled }
    ∃ s, Runs.exec (Session.step fun _ => Session.purchase) {} as = some s ∧
      (0, o) ∈ s.reported ∧ 100 ≤ Session.applied s 0 := by
  intro as o
  have hrun : (Runs.exec (Session.step fun _ => Session.purchase) {} as).any
      (fun s => (0, o) ∈ s.reported) = true := by decide +kernel
  obtain ⟨s, hs, hreported⟩ := (Option.any_eq_true _ _).1 hrun
  have hreported : (0, o) ∈ s.reported := of_decide_eq_true hreported
  exact ⟨s, hs, hreported, no_lost_execution (fun _ => Session.purchase)
    (fun i j _ => Subsingleton.elim i j) as s hs (by decide +kernel) 0 o hreported (by decide)
    (by decide)⟩

/-- **An execution is lost behind a completion mark.**  A first fill of 60 is lost and the
reconciliation fails; the `fill` message of the other 40 marks the order as completed, and the next
reconciliation, which reports 100, passes over it. -/
theorem execution_lost_behind_completion :
    let as : List (Session.Action 1) :=
      [.authorized, .disconnect, .execute 0 60 10, .authorized, .query (.error 500),
        .execute 0 40 10, .deliver, .disconnect, .authorized, .query (.success [0])]
    let o := Session.report Session.purchase
      { executed := 100, value := 1000, ending := some .filled }
    ∃ s, Runs.exec (Session.step fun _ => Session.purchase) {} as = some s ∧
      (0, o) ∈ s.reported ∧ o.id ≠ [] ∧ FillListener.isFillStatus o.status ∧
      o.filledQty = 100 ∧ Session.applied s 0 = 40 := by
  intro as o
  have hrun : (Runs.exec (Session.step fun _ => Session.purchase) {} as).any
      (fun s => (0, o) ∈ s.reported ∧ Session.applied s 0 = 40) = true := by decide +kernel
  obtain ⟨s, hs, hlost⟩ := (Option.any_eq_true _ _).1 hrun
  obtain ⟨hreported, happlied⟩ := of_decide_eq_true hlost
  exact ⟨s, hs, hreported, by decide, by decide, rfl, happlied⟩

end Trading
