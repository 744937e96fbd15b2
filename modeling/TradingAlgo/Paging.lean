/-
**The pages of a reconciliation.**

After a reconnect the listener asks for the orders of the session, 500 at a time, each query after
the creation time of the last order of the page before.  The broker counts its 500 before
`queryOrders` drops the orders of fractional shares, and the loop stops at a page of fewer than 500
orders after they were dropped; and it asks for what was created strictly later than the last order
of a page, although orders may share a creation time.

Main definitions:

* `Trading.brokerAnswer` — the broker's response to a query;
* `Trading.reconciliationReplies` — the replies that the loop of `reconcileAfterReconnect` gets;
* `Trading.Pageable` — neither of the two loses an order.

Main results:

* `Trading.reconciliationReplies_eq` — the loop is the paged reader of
  `TradingAlgo/PagedQuery.lean`;
* `Trading.reconciliation_complete_iff` — the loop ends, and it has processed every order of whole
  shares exactly once if and only if the orders are pageable.
-/

import TradingAlgo.PagedQuery
import TradingAlgo.Reconciliation
import TradingAlgo.RestClient

set_option relaxedAutoImplicit false
set_option autoImplicit false

namespace Trading

open FillListener (nextCursor kPageSize visited)

/-! ### The broker and the loop -/

/-- The broker's orders in the order of their creation. -/
def ascending (orders : List RawOrder) : List RawOrder :=
  orders.insertionSort fun o o' => o.createdAt ≤ o'.createdAt

/-- The orders created after a cursor, in that order. -/
def ordersAfter (orders : List RawOrder) (cursor : List UInt8) : List RawOrder :=
  PagedQuery.after RawOrder.createdAt cursor (ascending orders)

/-- The broker's response to a query: the first 500 orders after the cursor. -/
def brokerAnswer (orders : List RawOrder) (cursor : List UInt8) : Response where
  statusCode := 200
  body := .array ((ordersAfter orders cursor).take 500)

/-- The replies that the loop of `reconcileAfterReconnect` gets, from a cursor on; `none` when the
fuel runs out. -/
def reconciliationReplies (orders : List RawOrder) :
    ℕ → List UInt8 → Option (List (Outcome (List AlpacaOrderStatus)))
  | 0, _ => none
  | fuel + 1, cursor =>
      let reply := (queryResult (brokerAnswer orders cursor)).outcome
      match reply with
      | .success page =>
          match nextCursor page with
          | none => some [reply]
          | some cursor => (reconciliationReplies orders fuel cursor).map (reply :: ·)
      | .error _ => some [reply]
      | .threw => some [reply]

/-- No order is lost between the pages.  Going through the orders in blocks of 500, a block that is
followed by an order of whole shares has only orders of whole shares itself, and the last of them
was created before all those that follow; the next block starts with what was created later. -/
def Pageable (orders : List RawOrder) : Prop :=
  PagedQuery.Complete RawOrder.createdAt parseOrder 500 orders

/-! ### The loop as a paged reader -/

theorem ascending_perm (orders : List RawOrder) : (ascending orders).Perm orders :=
  List.perm_insertionSort _ orders

theorem ascending_sorted (orders : List RawOrder) :
    (ascending orders).Pairwise fun o o' => o.createdAt ≤ o'.createdAt :=
  haveI : Std.Total fun o o' : RawOrder => o.createdAt ≤ o'.createdAt :=
    ⟨fun o o' => le_total o.createdAt o'.createdAt⟩
  haveI : IsTrans RawOrder fun o o' => o.createdAt ≤ o'.createdAt := ⟨fun _ _ _ => le_trans⟩
  List.pairwise_insertionSort _ orders

theorem parseOrder_createdAt (item : RawOrder) (order : AlpacaOrderStatus)
    (h : parseOrder item = some order) : order.createdAt = item.createdAt := by
  unfold parseOrder at h
  split at h
  · cases h
  · split at h
    · cases h
    · rw [← Option.some_inj.1 h]

/-- With creation times that are not empty, the loop's cursor is that of the paged reader. -/
theorem nextCursor_eq {page : List AlpacaOrderStatus} (h : ∀ o ∈ page, o.createdAt ≠ []) :
    nextCursor page = PagedQuery.next AlpacaOrderStatus.createdAt 500 page := by
  unfold FillListener.nextCursor PagedQuery.next kPageSize
  split_ifs with hfull
  · rfl
  · cases hlast : page.getLast? with
    | none => rfl
    | some o => simp [h o (List.mem_of_getLast? hlast)]

section Loop

variable {orders : List RawOrder}

/-- A page has creation times that are not empty, when the broker's orders have. -/
theorem createdAt_ne_nil_of_mem_page (hcreated : ∀ o ∈ orders, o.createdAt ≠ [])
    (cursor : List UInt8) :
    ∀ o ∈ parseOrders ((ordersAfter orders cursor).take 500), o.createdAt ≠ [] := by
  intro o ho
  obtain ⟨item, hitem, hparse⟩ := List.mem_filterMap.1 ho
  rw [parseOrder_createdAt item o hparse]
  exact hcreated item ((ascending_perm orders).mem_iff.1
    (List.mem_of_mem_filter (List.mem_of_mem_take hitem)))

/-- The orders after the last one of a page. -/
theorem after_ordersAfter {cursor : List UInt8} {last : RawOrder}
    (hlast : ((ordersAfter orders cursor).take 500).getLast? = some last) :
    PagedQuery.after RawOrder.createdAt last.createdAt (ordersAfter orders cursor) =
      ordersAfter orders last.createdAt := by
  have hmem := List.mem_of_mem_take (List.mem_of_getLast? hlast)
  have hlt : cursor < last.createdAt := by simpa using List.of_mem_filter hmem
  exact PagedQuery.after_after hlt.le _

/-- **The loop is a paged reader** of the orders after its cursor. -/
theorem reconciliationReplies_eq (hcreated : ∀ o ∈ orders, o.createdAt ≠ []) (fuel : ℕ) :
    ∀ cursor, reconciliationReplies orders fuel cursor =
      (PagedQuery.pages RawOrder.createdAt parseOrder AlpacaOrderStatus.createdAt 500 fuel
        (ordersAfter orders cursor)).map (List.map Outcome.success) := by
  induction fuel with
  | zero => exact fun cursor => rfl
  | succ fuel ih =>
      intro cursor
      have hreply : (queryResult (brokerAnswer orders cursor)).outcome =
          .success (parseOrders ((ordersAfter orders cursor).take 500)) := rfl
      have hnext := nextCursor_eq (createdAt_ne_nil_of_mem_page hcreated cursor)
      rw [parseOrders] at hreply hnext
      simp only [reconciliationReplies, hreply, hnext, PagedQuery.pages]
      cases hcursor : PagedQuery.next AlpacaOrderStatus.createdAt 500
          (((ordersAfter orders cursor).take 500).filterMap parseOrder) with
      | none => rfl
      | some cursor' =>
          obtain ⟨-, last, hlast, rfl⟩ := PagedQuery.next_some parseOrder_createdAt hcursor
          simp only [ih, after_ordersAfter hlast, Option.map_map]
          rfl

/-- All replies that the loop gets are visited. -/
theorem visited_replies (hcreated : ∀ o ∈ orders, o.createdAt ≠ []) (fuel : ℕ) :
    ∀ cursor ps, PagedQuery.pages RawOrder.createdAt parseOrder AlpacaOrderStatus.createdAt 500
        fuel (ordersAfter orders cursor) = some ps →
      visited (ps.map Outcome.success) = ps.flatten := by
  induction fuel with
  | zero =>
      intro cursor ps h
      cases h
  | succ fuel ih =>
      intro cursor ps h
      have hnext := nextCursor_eq (createdAt_ne_nil_of_mem_page hcreated cursor)
      rw [parseOrders] at hnext
      cases hcursor : PagedQuery.next AlpacaOrderStatus.createdAt 500
          (((ordersAfter orders cursor).take 500).filterMap parseOrder) with
      | none =>
          simp only [PagedQuery.pages, hcursor, Option.some_inj] at h
          subst h
          simp [visited, hnext, hcursor]
      | some cursor' =>
          simp only [PagedQuery.pages, hcursor] at h
          obtain ⟨ps', hps', rfl⟩ := Option.map_eq_some_iff.1 h
          obtain ⟨-, last, hlast, rfl⟩ := PagedQuery.next_some parseOrder_createdAt hcursor
          rw [after_ordersAfter hlast] at hps'
          simp [visited, hnext, hcursor, ih _ ps' hps']

end Loop

/-- **The loop ends, and it processes every order of whole shares exactly once if and only if the
orders are pageable.**  What it processes is compared, as a collection, with the translations of
all orders that were created after the session's start and have one. -/
theorem reconciliation_complete_iff (orders : List RawOrder)
    (hcreated : ∀ o ∈ orders, o.createdAt ≠ []) (sessionStart : List UInt8) :
    ∃ replies, reconciliationReplies orders (orders.length + 1) sessionStart = some replies ∧
      ((visited replies).Perm
          (parseOrders (PagedQuery.after RawOrder.createdAt sessionStart orders)) ↔
        Pageable (ordersAfter orders sessionStart)) := by
  have hsub : (ordersAfter orders sessionStart).Sublist (ascending orders) :=
    PagedQuery.after_sublist _ _ _
  have hsorted := (ascending_sorted orders).sublist hsub
  have hfuel : (ordersAfter orders sessionStart).length < orders.length + 1 := by
    have := hsub.length_le
    rw [(ascending_perm orders).length_eq] at this
    omega
  obtain ⟨ps, hps, -⟩ := PagedQuery.exists_pages parseOrder_createdAt _ _ hfuel hsorted
  refine ⟨ps.map Outcome.success, ?_, ?_⟩
  · rw [reconciliationReplies_eq hcreated, hps]
    rfl
  · -- the order of the broker's own list does not matter for what there is
    have hperm : (parseOrders (PagedQuery.after RawOrder.createdAt sessionStart orders)).Perm
        ((ordersAfter orders sessionStart).filterMap parseOrder) :=
      (((ascending_perm orders).symm.filter _).filterMap parseOrder)
    rw [visited_replies hcreated _ _ ps hps, hperm.congr_right]
    exact PagedQuery.flatten_perm_iff (by decide) parseOrder_createdAt _ _ hfuel hsorted ps hps

/-- The number `i`, below 1000, in three digits. -/
def threeDigits (i : ℕ) : List UInt8 :=
  [UInt8.ofNat (48 + i / 100), UInt8.ofNat (48 + i / 10 % 10), UInt8.ofNat (48 + i % 10)]

/-- An order of the given quantity, created at the time `i`. -/
def orderAt (qty : List UInt8) (i : ℕ) : RawOrder where
  id := threeDigits i
  symbol := [65, 65, 80, 76]
  side := "buy"
  status := "filled"
  qty := qty
  filledQty := qty
  createdAt := threeDigits i

/-- 502 orders, the last of them of one and a half shares: the first page is full, and the second
one has the order that is left to be processed. -/
theorem reconciliation_complete_of_two_pages :
    let orders := orderAt [49, 46, 53] 501 :: (List.range' 0 501).map (orderAt [55])
    ∃ replies, reconciliationReplies orders 503 [48] = some replies ∧
      (visited replies).Perm
        (parseOrders (PagedQuery.after RawOrder.createdAt [48] orders)) := by
  intro orders
  have hcreated : ∀ o ∈ orders, o.createdAt ≠ [] := by
    intro o ho
    obtain rfl | ho := List.mem_cons.1 ho
    · exact List.cons_ne_nil _ _
    · obtain ⟨i, -, rfl⟩ := List.mem_map.1 ho
      exact List.cons_ne_nil _ _
  have hsorted : ordersAfter orders [48] =
      (List.range' 0 500).map (orderAt [55]) ++ [orderAt [55] 500, orderAt [49, 46, 53] 501] := by
    decide +kernel
  have hlength : orders.length + 1 = 503 := by simp [orders]
  obtain ⟨replies, hreplies, hiff⟩ := reconciliation_complete_iff orders hcreated [48]
  rw [hlength] at hreplies
  refine ⟨replies, hreplies, hiff.2 ?_⟩
  have hfirst : ((List.range' 0 500).map (orderAt [55])).length = 500 := by simp
  have hlast : ((List.range' 0 500).map (orderAt [55])).getLast? = some (orderAt [55] 499) := by
    decide +kernel
  rw [hsorted]
  refine .more ((congrArg _ (List.take_left' hfirst)).trans hlast) ?_ ?_ (.done ?_)
  · intro o ho
    rw [List.take_left' hfirst] at ho
    obtain ⟨i, -, rfl⟩ := List.mem_map.1 ho
    have hqty : Cxx.wholeInt64 [55] = some 7 := by decide +kernel
    simp [parseOrder, orderAt, hqty]
  all_goals
    rw [List.drop_left' hfirst]
    decide +kernel

/-- 501 orders, the first of them of one and a half shares: the first page has 499 orders left, the
loop stops there, and the last order is not processed. -/
theorem reconciliation_complete_fails :
    let orders := orderAt [49, 46, 53] 0 :: (List.range' 1 500).map (orderAt [55])
    (∀ o ∈ orders, o.createdAt ≠ []) ∧
      ∃ replies, reconciliationReplies orders 502 [48] = some replies ∧
        ¬ (visited replies).Perm
          (parseOrders (PagedQuery.after RawOrder.createdAt [48] orders)) := by
  intro orders
  have hrun : (reconciliationReplies orders 502 [48]).any
      (fun replies => ∀ o ∈ visited replies, o.id ≠ threeDigits 500) = true := by
    decide +kernel
  obtain ⟨replies, hreplies, hmissing⟩ := (Option.any_eq_true _ _).1 hrun
  refine ⟨fun o ho => ?_, replies, hreplies, fun hperm => ?_⟩
  · obtain rfl | ho := List.mem_cons.1 ho
    · exact List.cons_ne_nil _ _
    · obtain ⟨i, -, rfl⟩ := List.mem_map.1 ho
      exact List.cons_ne_nil _ _
  -- the last order is among those to be processed
  have hlast : orderAt [55] 500 ∈ PagedQuery.after RawOrder.createdAt [48] orders := by
    refine List.mem_filter.2 ⟨List.mem_cons_of_mem _ (List.mem_map_of_mem ?_), by decide +kernel⟩
    exact List.mem_range'_1.2 (by omega)
  obtain ⟨o, ho, hid⟩ : ∃ o, parseOrder (orderAt [55] 500) = some o ∧ o.id = threeDigits 500 :=
    ⟨_, rfl, rfl⟩
  have hmem := hperm.mem_iff.2 (List.mem_filterMap.2 ⟨_, hlast, ho⟩)
  exact of_decide_eq_true hmissing o hmem hid

end Trading
