/-
**Replies of the broker, read field by field.**

`placeOrder` and `queryOrders` of `src/AlpacaRestClient.cpp` read the fields of a reply with
`nlohmann::json::value`.  A field that is missing has a default; a field of another type than a
string, `null` included, throws, and so does an element of the array that is not an object.  Nothing
in `queryOrders` catches it, and its caller `reconcileAfterReconnect` does not either.

Main definitions:

* `Trading.JsonResponse` — a response with the value that its text parses to;
* `Trading.placeReply` — `placeOrder` after the request;
* `Trading.readOrder`, `Trading.queryReply` — `queryOrders` after the request, one element and all.

Main results:

* `Trading.placeReply_eq`, `Trading.queryReply_eq` — they are `placeResult` and `queryResult` on
  what was read, while nothing throws;
* `Trading.queryOrders_returns_values_iff` — for which replies nothing throws.
-/

import TradingAlgo.Nlohmann
import TradingAlgo.RestClient

set_option relaxedAutoImplicit false
set_option autoImplicit false

namespace Trading

open Nlohmann

/-! ### Reading replies -/

/-- `cpr::Response`, with the value that `nlohmann::json::parse` makes of its text, `none` when that
is discarded. -/
structure JsonResponse where
  statusCode : ℤ
  ratelimitRemaining : Option (List UInt8) := none
  text : String := ""
  body : Option Json := none

/-- `placeOrder` after the request, or the error when the limiter has dropped the call. -/
def placeReply : Option JsonResponse → CallResult OrderAck
  | none => .unexpected droppedByPolicy
  | some r =>
      if 400 ≤ r.statusCode then .unexpected ⟨r.statusCode, "Error placing order: " ++ r.text⟩
      else
        match r.body with
        | none => .unexpected ⟨r.statusCode, "Invalid JSON in response: " ++ r.text⟩
        | some response =>
            -- the status is only logged, but it is read like the id
            match response.value "id" "", response.value "status" "unknown" with
            | some id, some _ => .ok ⟨utf8 id⟩
            | _, _ => .threw

section Query

variable (stod : String → Option (ℚ × ℕ))

/-- The block that reads `filled_avg_price`, the only one that catches exceptions.  `std::stod` is
given as what it reads and the position it stops at, `none` when it throws. -/
def filledAvgPrice (item : Json) : ℚ :=
  match item.member "filled_avg_price" with
  | some (.integer v) => v.toInt
  | some (.unsigned v) => v.toNat
  | some (.float v) => v
  | some (.string s) =>
      if s = "" ∨ s = "null" then 0
      else
        match stod s with
        | some (price, pos) => if pos = (utf8 s).length then price else 0
        | none => 0
  | _ => 0

/-- One round of the loop of `queryOrders`: `none` when it throws, and otherwise the order, or
nothing when a quantity is not a whole number and the element is skipped. -/
def readOrder (item : Json) : Option (Option AlpacaOrderStatus) := do
  let id ← item.value "id" ""
  let symbol ← item.value "symbol" ""
  let side ← item.value "side" ""
  let status ← item.value "status" ""
  let qtyStr ← item.value "qty" "0"
  let filledStr ← item.value "filled_qty" "0"
  match Cxx.wholeInt64 (utf8 qtyStr) with
  | none => some none
  | some qty =>
      match Cxx.wholeInt64 (utf8 filledStr) with
      | none => some none
      | some filledQty =>
          (item.value "created_at" "").map fun createdAt =>
            some
              { id := utf8 id
                symbol := utf8 symbol
                side := side
                status := status
                createdAt := utf8 createdAt
                qty := qty
                filledQty := filledQty
                filledAvgPrice := filledAvgPrice stod item }

/-- The loop of `queryOrders`; an exception loses also the orders that were read before it. -/
def readOrders : List Json → Option (List AlpacaOrderStatus)
  | [] => some []
  | item :: items =>
      (readOrder stod item).bind fun order =>
        (readOrders items).map fun orders => order.toList ++ orders

/-- `queryOrders` after the request, or the error when the limiter has dropped the call. -/
def queryReply : Option JsonResponse → CallResult (List AlpacaOrderStatus)
  | none => .unexpected droppedByPolicy
  | some r =>
      if 400 ≤ r.statusCode then .unexpected ⟨r.statusCode, "Error querying orders: " ++ r.text⟩
      else
        match r.body.bind Json.elements with
        | none => .unexpected ⟨r.statusCode, "Invalid JSON array in response"⟩
        | some items =>
            match readOrders stod items with
            | some orders => .ok orders
            | none => .threw

/-! ### What was read -/

/-- The texts of the fields of an element. -/
def rawOrder (item : Json) : RawOrder where
  id := utf8 ((item.value "id" "").getD "")
  symbol := utf8 ((item.value "symbol" "").getD "")
  side := (item.value "side" "").getD ""
  status := (item.value "status" "").getD ""
  qty := utf8 ((item.value "qty" "0").getD "0")
  filledQty := utf8 ((item.value "filled_qty" "0").getD "0")
  filledAvgPrice := filledAvgPrice stod item
  createdAt := utf8 ((item.value "created_at" "").getD "")

/-- A response by what is read of it. -/
def JsonResponse.read (r : JsonResponse) : Response where
  statusCode := r.statusCode
  ratelimitRemaining := r.ratelimitRemaining
  text := r.text
  body :=
    match r.body with
    | none => .discarded
    | some response =>
        match response.elements with
        | some items => .array (items.map (rawOrder stod))
        | none =>
            match response.value "id" "", response.value "status" "unknown" with
            | some id, some _ => .object (utf8 id)
            | _, _ => .other

/-- **`placeOrder` is as it was on the fields that are read**, exceptions included. -/
theorem placeReply_eq (r : JsonResponse) : placeReply (some r) = placeResult (r.read stod) := by
  unfold placeReply placeResult JsonResponse.read
  simp only
  split_ifs
  · rfl
  · cases r.body with
    | none => rfl
    | some response =>
        cases response with
        | array items => rfl
        | object members =>
            simp only [Json.elements]
            split <;> rfl
        | _ => rfl

/-- An element that does not throw is read as it was. -/
theorem readOrder_eq {item : Json} {order : Option AlpacaOrderStatus}
    (h : readOrder stod item = some order) : order = parseOrder (rawOrder stod item) := by
  simp only [readOrder, Option.bind_eq_bind, Option.bind_eq_some_iff] at h
  obtain ⟨id, hid, symbol, hsymbol, side, hside, status, hstatus, qtyStr, hqty, filledStr, hfilled,
    h⟩ := h
  simp only [parseOrder, rawOrder, hid, hsymbol, hside, hstatus, hqty, hfilled, Option.getD_some]
  cases hq : Cxx.wholeInt64 (utf8 qtyStr) with
  | none =>
      rw [hq] at h
      exact (Option.some_inj.1 h).symm
  | some qty =>
      cases hf : Cxx.wholeInt64 (utf8 filledStr) with
      | none =>
          rw [hq, hf] at h
          exact (Option.some_inj.1 h).symm
      | some filledQty =>
          rw [hq, hf] at h
          obtain ⟨createdAt, hcreated, rfl⟩ := Option.map_eq_some_iff.1 h
          simp [hcreated]

theorem readOrders_eq {items : List Json} {orders : List AlpacaOrderStatus}
    (h : readOrders stod items = some orders) :
    orders = parseOrders (items.map (rawOrder stod)) := by
  induction items generalizing orders with
  | nil => exact (Option.some_inj.1 h).symm
  | cons item items ih =>
      obtain ⟨order, horder, h⟩ := Option.bind_eq_some_iff.1 h
      obtain ⟨rest, hrest, rfl⟩ := Option.map_eq_some_iff.1 h
      rw [readOrder_eq stod horder, ih hrest]
      simp only [parseOrders, List.map_cons, List.filterMap_cons]
      cases parseOrder (rawOrder stod item) <;> rfl

/-- **While nothing throws, `queryOrders` is as it was on the fields that are read.** -/
theorem queryReply_eq {r : JsonResponse} (h : queryReply stod (some r) ≠ .threw) :
    queryReply stod (some r) = queryResult (r.read stod) := by
  unfold queryReply queryResult JsonResponse.read at *
  simp only at h ⊢
  split_ifs with hstatus
  · rfl
  · cases hbody : r.body with
    | none => rfl
    | some response =>
        cases hitems : response.elements with
        | none =>
            -- whatever is read of the fields, it is not an array
            simp only [Option.bind_some, hitems]
            cases response.value "id" "" <;> cases response.value "status" "unknown" <;> rfl
        | some items =>
            simp only [hstatus, if_false, hbody, Option.bind_some, hitems] at h
            cases horders : readOrders stod items with
            | none => simp [horders] at h
            | some orders => simp [hitems, horders, readOrders_eq stod horders]

/-! ### Which replies throw -/

/-- The fields that are read of every element. -/
def readFields : List String := ["id", "symbol", "side", "status", "qty", "filled_qty"]

/-- The text of a field that is read with a default is a whole number. -/
def IsWhole (item : Json) (key : String) : Prop :=
  (Cxx.wholeInt64 (utf8 ((item.value key "0").getD "0"))).isSome = true

instance (item : Json) (key : String) : Decidable (IsWhole item key) :=
  inferInstanceAs (Decidable (_ = true))

/-- An element that can be read: an object whose fields are absent or strings.  The creation time is
read only of the orders that are not skipped. -/
structure Legible (item : Json) : Prop where
  object : item.isObject = true
  fields : ∀ key ∈ readFields, item.Readable key
  createdAt : IsWhole item "qty" → IsWhole item "filled_qty" → item.Readable "created_at"

instance (item : Json) : Decidable (Legible item) :=
  decidable_of_iff (item.isObject = true ∧ (∀ key ∈ readFields, item.Readable key) ∧
      (IsWhole item "qty" → IsWhole item "filled_qty" → item.Readable "created_at"))
    ⟨fun h => ⟨h.1, h.2.1, h.2.2⟩, fun h => ⟨h.object, h.fields, h.createdAt⟩⟩

/-- A field that is read does not throw. -/
theorem Legible.value {item : Json} (h : Legible item) (key : String) (hkey : key ∈ readFields)
    (default : String) : ∃ s, item.value key default = some s :=
  Option.isSome_iff_exists.1 ((item.value_isSome_iff key default).2 ⟨h.object, h.fields key hkey⟩)

/-- **Which elements throw.** -/
theorem readOrder_isSome_iff (item : Json) :
    (readOrder stod item).isSome = true ↔ Legible item := by
  constructor
  · intro h
    obtain ⟨order, h⟩ := Option.isSome_iff_exists.1 h
    simp only [readOrder, Option.bind_eq_bind, Option.bind_eq_some_iff] at h
    obtain ⟨id, hid, symbol, hsymbol, side, hside, status, hstatus, qtyStr, hqty, filledStr,
      hfilled, h⟩ := h
    have hread : ∀ {key default s : String}, item.value key default = some s →
        item.isObject = true ∧ item.Readable key := by
      intro key default s hs
      exact (item.value_isSome_iff key default).1 (by simp [hs])
    refine ⟨(hread hid).1, ?_, ?_⟩
    · simp only [readFields, List.forall_mem_cons, List.not_mem_nil, false_implies, implies_true,
        and_true]
      exact ⟨(hread hid).2, (hread hsymbol).2, (hread hside).2, (hread hstatus).2, (hread hqty).2,
        (hread hfilled).2⟩
    · -- with two whole numbers the loop gets to the creation time
      intro hq hf
      rw [IsWhole, hqty, Option.getD_some] at hq
      rw [IsWhole, hfilled, Option.getD_some] at hf
      obtain ⟨qty, hq⟩ := Option.isSome_iff_exists.1 hq
      obtain ⟨filledQty, hf⟩ := Option.isSome_iff_exists.1 hf
      rw [hq, hf] at h
      obtain ⟨createdAt, hcreated, -⟩ := Option.map_eq_some_iff.1 h
      exact (hread hcreated).2
  · intro h
    obtain ⟨id, hid⟩ := h.value "id" (by decide) ""
    obtain ⟨symbol, hsymbol⟩ := h.value "symbol" (by decide) ""
    obtain ⟨side, hside⟩ := h.value "side" (by decide) ""
    obtain ⟨status, hstatus⟩ := h.value "status" (by decide) ""
    obtain ⟨qtyStr, hqty⟩ := h.value "qty" (by decide) "0"
    obtain ⟨filledStr, hfilled⟩ := h.value "filled_qty" (by decide) "0"
    simp only [readOrder, hid, hsymbol, hside, hstatus, hqty, hfilled, Option.bind_eq_bind,
      Option.bind_some]
    cases hq : Cxx.wholeInt64 (utf8 qtyStr) with
    | none => rfl
    | some qty =>
        cases hf : Cxx.wholeInt64 (utf8 filledStr) with
        | none => rfl
        | some filledQty =>
            have hcreated := h.createdAt (by simp [IsWhole, hqty, hq])
              (by simp [IsWhole, hfilled, hf])
            simpa using (item.value_isSome_iff "created_at" "").2 ⟨h.object, hcreated⟩

theorem readOrders_isSome_iff (items : List Json) :
    (readOrders stod items).isSome = true ↔ ∀ item ∈ items, Legible item := by
  induction items with
  | nil => simp [readOrders]
  | cons item items ih =>
      rw [List.forall_mem_cons, ← ih, ← readOrder_isSome_iff stod]
      cases hitem : readOrder stod item with
      | none => simp [readOrders, hitem]
      | some order => simp [readOrders, hitem]

/-- **For which replies `queryOrders` returns a value**: for a call that was dropped, an error
status, a text that is not a JSON array, and an array whose elements are objects with strings in all
the fields that are read.  For every other reply an exception leaves it. -/
theorem queryOrders_returns_values_iff (response : Option JsonResponse) :
    queryReply stod response ≠ .threw ↔
      ∀ r, response = some r → r.statusCode < 400 → ∀ items, r.body = some (.array items) →
        ∀ item ∈ items, Legible item := by
  cases response with
  | none => simp [queryReply]
  | some r =>
      simp only [Option.some_inj, forall_eq']
      by_cases hstatus : 400 ≤ r.statusCode
      · simp [queryReply, hstatus, not_lt.2 hstatus]
      · have hlt : r.statusCode < 400 := not_le.1 hstatus
        simp only [queryReply, hstatus, if_false, hlt, true_implies]
        cases hbody : r.body with
        | none => simp
        | some body =>
            cases body with
            | array items =>
                simp only [Option.bind_some, Json.elements, Option.some_inj, Json.array.injEq,
                  forall_eq']
                rw [← readOrders_isSome_iff stod]
                cases readOrders stod items with
                | none => simp
                | some orders => simp
            | _ => simp [Json.elements]

end Query

/-- A notional order, which has an amount in place of a quantity. -/
def notionalOrder : Json :=
  .object [("id", .string "904837e3-3b76-47ec-b432-046db621571b"), ("symbol", .string "AAPL"),
    ("side", .string "buy"), ("status", .string "filled"), ("qty", .null),
    ("filled_qty", .string "3"), ("filled_avg_price", .string "150.25")]

/-- The reply to a query that has such an order in it throws; the price is not even looked at. -/
theorem queryOrders_throws_on_null_qty :
    queryReply (fun _ => none) (some { statusCode := 200, body := some (.array [notionalOrder]) }) =
      .threw := by
  decide +kernel

end Trading
