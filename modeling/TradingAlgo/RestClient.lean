/-
**The REST client and its rate limiter.**

`src/RateLimiter.cpp` and `src/AlpacaRestClient.cpp`.  Before a request the client asks the limiter,
which may drop the call; after it, the limiter learns from the response how many requests are left.
The clock is outside, and so are the HTTP session and the JSON parser: what they return is part of
the exchange that a call is given.

Main definitions:

* `Trading.RateLimiter` — `update`, `onRateLimited`, `canSend`, `waitOrDrop`;
* `Trading.Response`, `Trading.RawOrder` — a response, and an order of its body;
* `Trading.parseOrders` — the orders that `queryOrders` makes of a body;
* `Trading.AlpacaRestClient` — `placeOrder`, `cancelOrder`, `queryOrders`.

Main results:

* `Trading.RateLimiter.canSend_eq` — the decision of a limiter whose window is only open while the
  remaining requests are below the threshold;
* `Trading.AlpacaRestClient.call_cases` — everything that a call can do: it is dropped, or sent.
-/

import TradingAlgo.CxxLibrary
import TradingAlgo.FillListener

set_option relaxedAutoImplicit false
set_option autoImplicit false

namespace Trading

/-! ### The rate limiter -/

/-- `enum class ThrottlePolicy`. -/
inductive ThrottlePolicy
  | wait
  | drop
  deriving DecidableEq, Repr

/-- `RateLimiter`; a start of `0` means that there is no window. -/
structure RateLimiter where
  remaining : ℤ
  throttleStartNs : ℤ
  threshold : ℤ
  policy : ThrottlePolicy
  deriving DecidableEq, Repr

namespace RateLimiter

/-- `kMaxRequestsPerWindow`. -/
def kMaxRequestsPerWindow : ℤ := 200

/-- `kWindowDurationNs`: a minute. -/
def kWindowDurationNs : ℤ := 60000000000

/-- The constructor, which clamps the threshold. -/
def create (threshold : ℤ) (policy : ThrottlePolicy) : RateLimiter where
  remaining := kMaxRequestsPerWindow
  throttleStartNs := 0
  threshold :=
    if threshold < 1 then 1
    else if kMaxRequestsPerWindow < threshold then kMaxRequestsPerWindow
    else threshold
  policy := policy

/-- The window opens, unless one is open: `compare_exchange_strong` from `0`. -/
def openWindow (l : RateLimiter) (now : ℤ) : RateLimiter :=
  if l.throttleStartNs = 0 then { l with throttleStartNs := now } else l

/-- `update`, at the clock reading `now`. -/
def update (l : RateLimiter) (remaining now : ℤ) : RateLimiter :=
  let l := { l with remaining := remaining }
  if remaining < l.threshold then l.openWindow now else { l with throttleStartNs := 0 }

/-- `onRateLimited`. -/
def onRateLimited (l : RateLimiter) (now : ℤ) : RateLimiter :=
  let l := { l with remaining := 0 }
  l.openWindow now

/-- `canSend`, which closes a window that has run out. -/
def canSend (l : RateLimiter) (now : ℤ) : Bool × RateLimiter :=
  if l.threshold ≤ l.remaining then (true, l)
  else if l.throttleStartNs = 0 then (true, l)
  else if kWindowDurationNs ≤ now - l.throttleStartNs then (true, { l with throttleStartNs := 0 })
  else (false, l)

/-- The loop of `waitOrDrop`, over the clock readings of its rounds; `none` while it goes on. -/
def waitLoop (l : RateLimiter) : List ℤ → Option RateLimiter
  | [] => none
  | now :: later =>
      let r := l.canSend now
      if r.1 then some r.2 else waitLoop r.2 later

/-- `waitOrDrop`, which with the policy `Wait` does not return before it can send. -/
def waitOrDrop (l : RateLimiter) (now : ℤ) (later : List ℤ) : Option (Bool × RateLimiter) :=
  let r := l.canSend now
  if r.1 then some (true, r.2)
  else
    match l.policy with
    | .drop => some (false, r.2)
    | .wait => (r.2.waitLoop later).map (Prod.mk true)

theorem waitOrDrop_of_drop {l : RateLimiter} (h : l.policy = .drop) (now : ℤ) (later : List ℤ) :
    l.waitOrDrop now later = some (l.canSend now) := by
  unfold waitOrDrop
  cases hc : l.canSend now with
  | mk sent l' => cases sent <;> simp [h]

/-- A window is open only while the remaining requests are below the threshold. -/
def Consistent (l : RateLimiter) : Prop := l.throttleStartNs ≠ 0 → l.remaining < l.threshold

/-- **The decision of a consistent limiter**: it depends on the window alone, and a call that is let
through finds no window open afterwards. -/
theorem canSend_eq {l : RateLimiter} (h : l.Consistent) (now : ℤ) :
    l.canSend now =
      if l.throttleStartNs ≠ 0 ∧ now < l.throttleStartNs + kWindowDurationNs then (false, l)
      else (true, { l with throttleStartNs := 0 }) := by
  unfold canSend
  by_cases hstart : l.throttleStartNs = 0
  · have hsame : { l with throttleStartNs := 0 } = l := by rw [← hstart]
    simp [hstart, hsame]
  · have hlow : ¬ l.threshold ≤ l.remaining := not_le.2 (h hstart)
    by_cases hnow : now < l.throttleStartNs + kWindowDurationNs
    · have hnow' : ¬ kWindowDurationNs ≤ now - l.throttleStartNs := by omega
      simp [hlow, hstart, hnow, hnow']
    · have hnow' : kWindowDurationNs ≤ now - l.throttleStartNs := by omega
      simp [hlow, hstart, hnow, hnow']

end RateLimiter

/-! ### Responses -/

/-- An order in the body of a response, by the texts of its fields; a field that is missing has the
text that `value` gives for it.  The price is what the price block makes of its field. -/
structure RawOrder where
  id : List UInt8 := []
  symbol : List UInt8 := []
  side : String := ""
  status : String := ""
  qty : List UInt8 := [48]
  filledQty : List UInt8 := [48]
  filledAvgPrice : ℚ := 0
  createdAt : List UInt8 := []
  deriving DecidableEq, Repr

/-- What `nlohmann::json::parse` makes of a text: nothing, an object by the id that is read of it,
an array of orders, or some other value. -/
inductive JsonBody
  | discarded
  | object (id : List UInt8)
  | array (items : List RawOrder)
  | other
  deriving DecidableEq, Repr

/-- `cpr::Response`, with the one header that is read. -/
structure Response where
  statusCode : ℤ
  ratelimitRemaining : Option (List UInt8) := none
  text : String := ""
  body : JsonBody := .discarded
  deriving DecidableEq, Repr

/-- `OrderError`. -/
structure OrderError where
  statusCode : ℤ
  message : String
  deriving DecidableEq, Repr

/-- What a call of the client comes to. -/
inductive CallResult (α : Type)
  | ok (result : α)
  | unexpected (error : OrderError)
  | threw
  deriving DecidableEq, Repr

/-- The outcome that the gateway and the listener see. -/
def CallResult.outcome {α : Type} : CallResult α → Outcome α
  | .ok result => .success result
  | .unexpected error => .error error.statusCode
  | .threw => .threw

/-- The error of a call that the limiter has dropped. -/
def droppedByPolicy : OrderError := ⟨429, "Rate limited (dropped by policy)"⟩

/-- `placeOrder` after the request; `value` throws on a body that is not an object. -/
def placeResult (r : Response) : CallResult OrderAck :=
  if 400 ≤ r.statusCode then .unexpected ⟨r.statusCode, "Error placing order: " ++ r.text⟩
  else
    match r.body with
    | .discarded => .unexpected ⟨r.statusCode, "Invalid JSON in response: " ++ r.text⟩
    | .object id => .ok ⟨id⟩
    | .array _ => .threw
    | .other => .threw

/-- `cancelOrder` after the request. -/
def cancelResult (r : Response) : CallResult Unit :=
  if r.statusCode = 204 then .ok ()
  else .unexpected ⟨r.statusCode, "Error canceling order: " ++ r.text⟩

/-- One round of the loop of `queryOrders`: an order whose quantities are not whole numbers is
skipped. -/
def parseOrder (item : RawOrder) : Option AlpacaOrderStatus :=
  match Cxx.wholeInt64 item.qty with
  | none => none
  | some qty =>
      match Cxx.wholeInt64 item.filledQty with
      | none => none
      | some filledQty =>
          some
            { id := item.id
              symbol := item.symbol
              side := item.side
              status := item.status
              createdAt := item.createdAt
              qty := qty
              filledQty := filledQty
              filledAvgPrice := item.filledAvgPrice }

/-- The loop of `queryOrders`. -/
def parseOrders (items : List RawOrder) : List AlpacaOrderStatus := items.filterMap parseOrder

/-- `queryOrders` after the request. -/
def queryResult (r : Response) : CallResult (List AlpacaOrderStatus) :=
  if 400 ≤ r.statusCode then .unexpected ⟨r.statusCode, "Error querying orders: " ++ r.text⟩
  else
    match r.body with
    | .array items => .ok (parseOrders items)
    | _ => .unexpected ⟨r.statusCode, "Invalid JSON array in response"⟩

/-! ### The client -/

/-- The calls of the client. -/
inductive RestCall
  | placeOrder (order : Order)
  | cancelOrder (alpacaOrderId : List UInt8)
  | queryOrders (statusFilter after : List UInt8)
  deriving DecidableEq, Repr

/-- What a call meets outside: the clock before it, the clock readings while it waits, the response
and the clock when that has come. -/
structure Exchange where
  attemptAt : ℤ
  later : List ℤ := []
  response : Response
  receivedAt : ℤ
  deriving DecidableEq, Repr

/-- `AlpacaRestClient`, with the requests that it has made. -/
structure AlpacaRestClient where
  rateLimiter : RateLimiter
  requests : List RestCall := []
  deriving DecidableEq, Repr

/-- What a call returns. -/
inductive Reply
  | placed (result : CallResult OrderAck)
  | canceled (result : CallResult Unit)
  | queried (result : CallResult (List AlpacaOrderStatus))
  deriving DecidableEq, Repr

/-- The error of a reply. -/
def Reply.error : Reply → Option OrderError
  | .placed (.unexpected e) => some e
  | .canceled (.unexpected e) => some e
  | .queried (.unexpected e) => some e
  | _ => none

namespace AlpacaRestClient

/-- The constructor. -/
def create (threshold : ℤ) (policy : ThrottlePolicy) : AlpacaRestClient where
  rateLimiter := RateLimiter.create threshold policy

/-- `updateRateLimit`. -/
def updateRateLimit (l : RateLimiter) (r : Response) (now : ℤ) : RateLimiter :=
  if r.statusCode = 429 then l.onRateLimited now
  else
    match r.ratelimitRemaining with
    | none => l
    | some val =>
        match Cxx.wholeInt64 val with
        | some remaining => l.update (max remaining 0) now
        | none => l

/-- The front half that the three calls share: `none` for a response when the call is dropped. -/
def send (c : AlpacaRestClient) (request : RestCall) (x : Exchange) :
    Option (Option Response × AlpacaRestClient) :=
  (c.rateLimiter.waitOrDrop x.attemptAt x.later).map fun w =>
    if w.1 then
      (some x.response,
        { rateLimiter := updateRateLimit w.2 x.response x.receivedAt
          requests := c.requests ++ [request] })
    else (none, { c with rateLimiter := w.2 })

/-- A call: what it makes of the response, or the error when it was dropped. -/
def complete {α : Type} (c : AlpacaRestClient) (request : RestCall) (x : Exchange)
    (result : Response → CallResult α) : Option (CallResult α × AlpacaRestClient) :=
  (c.send request x).map fun r => ((r.1.map result).getD (.unexpected droppedByPolicy), r.2)

/-- `placeOrder`. -/
def placeOrder (c : AlpacaRestClient) (order : Order) (x : Exchange) :
    Option (CallResult OrderAck × AlpacaRestClient) :=
  c.complete (.placeOrder order) x placeResult

/-- `cancelOrder`. -/
def cancelOrder (c : AlpacaRestClient) (alpacaOrderId : List UInt8) (x : Exchange) :
    Option (CallResult Unit × AlpacaRestClient) :=
  c.complete (.cancelOrder alpacaOrderId) x cancelResult

/-- `queryOrders`. -/
def queryOrders (c : AlpacaRestClient) (statusFilter after : List UInt8) (x : Exchange) :
    Option (CallResult (List AlpacaOrderStatus) × AlpacaRestClient) :=
  c.complete (.queryOrders statusFilter after) x queryResult

/-- Any of the calls. -/
def call (c : AlpacaRestClient) (request : RestCall) (x : Exchange) :
    Option (Reply × AlpacaRestClient) :=
  match request with
  | .placeOrder order => (c.placeOrder order x).map (Prod.map .placed id)
  | .cancelOrder alpacaOrderId => (c.cancelOrder alpacaOrderId x).map (Prod.map .canceled id)
  | .queryOrders statusFilter after =>
      (c.queryOrders statusFilter after x).map (Prod.map .queried id)

/-- The client after a sequence of calls. -/
def run (c : AlpacaRestClient) (calls : List (RestCall × Exchange)) : Option AlpacaRestClient :=
  calls.foldlM (fun c k => (c.call k.1 k.2).map Prod.snd) c

/-- The call returns the error of a dropped call; nothing was requested and nothing has changed. -/
def Refused (c : AlpacaRestClient) (k : RestCall × Exchange) : Prop :=
  ∃ reply, c.call k.1 k.2 = some (reply, c) ∧ reply.error = some droppedByPolicy

/-- The call makes its request. -/
def Sent (c : AlpacaRestClient) (k : RestCall × Exchange) : Prop :=
  ∃ reply c', c.call k.1 k.2 = some (reply, c') ∧ c'.requests = c.requests ++ [k.1]

/-- What a call of any kind does, by what its front half does. -/
theorem call_of_send {c c' : AlpacaRestClient} {request : RestCall} {x : Exchange}
    {r : Option Response} (h : c.send request x = some (r, c')) :
    ∃ reply, c.call request x = some (reply, c') ∧
      (r = none → reply.error = some droppedByPolicy) := by
  cases request with
  | placeOrder order =>
      refine ⟨_, by simp only [call, placeOrder, complete, h, Option.map_some, Prod.map]; rfl, ?_⟩
      rintro rfl
      rfl
  | cancelOrder alpacaOrderId =>
      refine ⟨_, by simp only [call, cancelOrder, complete, h, Option.map_some, Prod.map]; rfl, ?_⟩
      rintro rfl
      rfl
  | queryOrders statusFilter after =>
      refine ⟨_, by simp only [call, queryOrders, complete, h, Option.map_some, Prod.map]; rfl, ?_⟩
      rintro rfl
      rfl

/-- **Everything a call of a dropping client can do**: while the limiter refuses it is refused and
changes nothing, otherwise it is sent and the limiter learns from the response. -/
theorem call_cases {c : AlpacaRestClient} (hpolicy : c.rateLimiter.policy = .drop)
    (hcons : c.rateLimiter.Consistent) (k : RestCall × Exchange) :
    (c.rateLimiter.throttleStartNs ≠ 0 ∧
      k.2.attemptAt < c.rateLimiter.throttleStartNs + RateLimiter.kWindowDurationNs ∧
      c.Refused k) ∨
    (¬ (c.rateLimiter.throttleStartNs ≠ 0 ∧
        k.2.attemptAt < c.rateLimiter.throttleStartNs + RateLimiter.kWindowDurationNs) ∧
      ∃ reply, c.call k.1 k.2 = some (reply,
        { rateLimiter :=
            updateRateLimit { c.rateLimiter with throttleStartNs := 0 } k.2.response
              k.2.receivedAt
          requests := c.requests ++ [k.1] })) := by
  by_cases hopen : c.rateLimiter.throttleStartNs ≠ 0 ∧
      k.2.attemptAt < c.rateLimiter.throttleStartNs + RateLimiter.kWindowDurationNs
  · left
    have hsend : c.send k.1 k.2 = some (none, c) := by
      rw [send, RateLimiter.waitOrDrop_of_drop hpolicy, RateLimiter.canSend_eq hcons,
        if_pos hopen]
      rfl
    obtain ⟨reply, hcall, herror⟩ := call_of_send hsend
    exact ⟨hopen.1, hopen.2, reply, hcall, herror rfl⟩
  · right
    have hsend : c.send k.1 k.2 = some (some k.2.response,
        { rateLimiter :=
            updateRateLimit { c.rateLimiter with throttleStartNs := 0 } k.2.response
              k.2.receivedAt
          requests := c.requests ++ [k.1] }) := by
      rw [send, RateLimiter.waitOrDrop_of_drop hpolicy, RateLimiter.canSend_eq hcons,
        if_neg hopen]
      rfl
    obtain ⟨reply, hcall, -⟩ := call_of_send hsend
    exact ⟨hopen, reply, hcall⟩

end AlpacaRestClient

end Trading
