/-
**The client that waits.**

With the policy `Wait` the REST client does not drop a call inside the window of the rate limiter,
but looks at the clock again and again until the window is over.  Whether its calls ever return
depends on the readings: one that follows a throttling response must find a reading a minute after
it.  When all of them do, every call is sent, in the order in which the calls were made, and none
inside a window.

Main definitions:

* `Trading.RateLimiter.Passes` — a call finds a reading at which the window is over;
* `Trading.AlpacaRestClient.Waits` — the invariant of a waiting client.

Main results:

* `Trading.RateLimiter.waitOrDrop_of_wait` — what the loop of `waitOrDrop` comes to;
* `Trading.waiting_client_sends_all_iff` — when the calls of a waiting client return, and that all
  of them are sent then.
-/

import TradingAlgo.RateLimit

set_option relaxedAutoImplicit false
set_option autoImplicit false

namespace Trading

namespace RateLimiter

/-- There is no window, or one of the readings is not inside it. -/
def Passes (start : ℤ) (readings : List ℤ) : Prop :=
  start = 0 ∨ ∃ now ∈ readings, start + kWindowDurationNs ≤ now

instance (start : ℤ) (readings : List ℤ) : Decidable (Passes start readings) :=
  inferInstanceAs (Decidable (_ ∨ _))

variable {l : RateLimiter}

/-- The loop ends at the first reading that is not inside the window. -/
theorem waitLoop_of_open (h : l.Consistent) (hopen : l.throttleStartNs ≠ 0) (readings : List ℤ) :
    l.waitLoop readings =
      if Passes l.throttleStartNs readings then some { l with throttleStartNs := 0 } else none := by
  induction readings with
  | nil => simp [waitLoop, Passes, hopen]
  | cons now later ih =>
      rw [waitLoop, canSend_eq h]
      by_cases hnow : now < l.throttleStartNs + kWindowDurationNs
      · have hpasses :
            Passes l.throttleStartNs (now :: later) ↔ Passes l.throttleStartNs later := by
          simp [Passes, hopen, not_le.2 hnow]
        simp only [hopen, hnow, ne_eq, not_false_eq_true, and_self, if_true, Bool.false_eq_true,
          if_false, hpasses]
        exact ih
      · have hpasses : Passes l.throttleStartNs (now :: later) :=
          Or.inr ⟨now, List.mem_cons_self, not_lt.1 hnow⟩
        simp only [hnow, and_false, if_false, if_true, hpasses]

/-- **What `waitOrDrop` comes to with the policy `Wait`**: the call passes, and finds no window open
afterwards, or it does not return. -/
theorem waitOrDrop_of_wait (hpolicy : l.policy = .wait) (h : l.Consistent) (now : ℤ)
    (later : List ℤ) :
    l.waitOrDrop now later =
      if Passes l.throttleStartNs (now :: later) then some (true, { l with throttleStartNs := 0 })
      else none := by
  rw [waitOrDrop, canSend_eq h]
  by_cases hopen : l.throttleStartNs ≠ 0 ∧ now < l.throttleStartNs + kWindowDurationNs
  · have hpasses : Passes l.throttleStartNs (now :: later) ↔ Passes l.throttleStartNs later := by
      simp [Passes, hopen.1, not_le.2 hopen.2]
    rw [if_pos hopen]
    simp only [Bool.false_eq_true, if_false, hpolicy, waitLoop_of_open h hopen.1, hpasses]
    split_ifs <;> rfl
  · have hpasses : Passes l.throttleStartNs (now :: later) := by
      by_cases hstart : l.throttleStartNs = 0
      · exact Or.inl hstart
      · exact Or.inr ⟨now, List.mem_cons_self, not_lt.1 fun hlt => hopen ⟨hstart, hlt⟩⟩
    rw [if_neg hopen, if_pos hpasses]
    rfl

end RateLimiter

open RateLimiter (Passes)

/-- The readings of a call, from its attempt on. -/
def Exchange.readings (x : Exchange) : List ℤ := x.attemptAt :: x.later

namespace AlpacaRestClient

/-- The invariant of a waiting client. -/
structure Waits (threshold : ℤ) (c : AlpacaRestClient) : Prop where
  policy : c.rateLimiter.policy = .wait
  threshold_eq : c.rateLimiter.threshold = threshold
  threshold_pos : 0 < threshold
  consistent : c.rateLimiter.Consistent

theorem waits_create (threshold : ℤ) :
    Waits (create threshold .wait).rateLimiter.threshold (create threshold .wait) where
  policy := rfl
  threshold_eq := rfl
  threshold_pos := (inv_create threshold).threshold_pos
  consistent := fun h => absurd rfl h

variable {threshold : ℤ} {c : AlpacaRestClient}

/-- A call that does not pass does not return. -/
theorem Waits.call_of_not_passes (h : Waits threshold c) (k : RestCall × Exchange)
    (hpasses : ¬ Passes c.rateLimiter.throttleStartNs k.2.readings) : c.call k.1 k.2 = none := by
  have hsend : c.send k.1 k.2 = none := by
    rw [send, RateLimiter.waitOrDrop_of_wait h.policy h.consistent]
    exact congrArg (Option.map _) (if_neg hpasses)
  obtain ⟨request, x⟩ := k
  cases request <;> simp [call, placeOrder, cancelOrder, queryOrders, complete, hsend]

/-- **A call that passes is sent**, and afterwards a window is open exactly when the response opens
one, from the time of the response on. -/
theorem Waits.call_of_passes (h : Waits threshold c) (k : RestCall × Exchange)
    (hpasses : Passes c.rateLimiter.throttleStartNs k.2.readings) :
    ∃ reply c', c.call k.1 k.2 = some (reply, c') ∧ c'.requests = c.requests ++ [k.1] ∧
      Waits threshold c' ∧
      ∀ readings, Passes c'.rateLimiter.throttleStartNs readings ↔
        (Throttles threshold k.2.response → Passes k.2.receivedAt readings) := by
  have hsend : c.send k.1 k.2 = some (some k.2.response,
      { rateLimiter :=
          updateRateLimit { c.rateLimiter with throttleStartNs := 0 } k.2.response k.2.receivedAt
        requests := c.requests ++ [k.1] }) := by
    rw [send, RateLimiter.waitOrDrop_of_wait h.policy h.consistent]
    exact congrArg (Option.map _) (if_pos hpasses)
  obtain ⟨reply, hcall, -⟩ := call_of_send hsend
  refine ⟨reply, _, hcall, rfl, ?_⟩
  by_cases hthrottles : Throttles threshold k.2.response
  · obtain ⟨remaining, hlow, heq⟩ := updateRateLimit_of_throttles
      (l := { c.rateLimiter with throttleStartNs := 0 }) rfl h.threshold_eq h.threshold_pos
      hthrottles k.2.receivedAt
    rw [heq]
    refine ⟨⟨h.policy, h.threshold_eq, h.threshold_pos, fun _ => ?_⟩, fun readings => ?_⟩
    · exact lt_of_lt_of_eq hlow h.threshold_eq.symm
    · exact ⟨fun hp _ => hp, fun hp => hp hthrottles⟩
  · obtain ⟨hstart, hthreshold, hpolicy⟩ := updateRateLimit_of_not_throttles
      (l := { c.rateLimiter with throttleStartNs := 0 }) rfl h.threshold_eq hthrottles
      k.2.receivedAt
    refine ⟨⟨hpolicy.trans h.policy, hthreshold.trans h.threshold_eq, h.threshold_pos,
      fun hopen => absurd hstart hopen⟩, fun readings => ?_⟩
    exact ⟨fun _ hyes => absurd hyes hthrottles, fun _ => Or.inl hstart⟩

/-- A call finds the window of the call before it over. -/
def Follows (threshold : ℤ) (k k' : RestCall × Exchange) : Prop :=
  Throttles threshold k.2.response → Passes k.2.receivedAt k'.2.readings

/-- When a run returns. -/
theorem Waits.run_isSome_iff (h : Waits threshold c) (calls : List (RestCall × Exchange)) :
    (c.run calls).isSome = true ↔
      (∀ k ∈ calls.head?, Passes c.rateLimiter.throttleStartNs k.2.readings) ∧
        calls.IsChain (Follows threshold) := by
  induction calls generalizing c with
  | nil => simp [run]
  | cons k calls ih =>
      rw [List.isChain_cons]
      by_cases hpasses : Passes c.rateLimiter.throttleStartNs k.2.readings
      · obtain ⟨reply, c', hcall, -, hwaits, hnext⟩ := h.call_of_passes k hpasses
        rw [run_cons_of_call hcall, ih hwaits]
        constructor
        · rintro ⟨hhead, hchain⟩
          exact ⟨fun k₀ hk₀ => by rwa [← Option.some_inj.1 hk₀],
            fun k' hk' => (hnext _).1 (hhead k' hk'), hchain⟩
        · rintro ⟨-, hhead, hchain⟩
          exact ⟨fun k' hk' => (hnext _).2 (hhead k' hk'), hchain⟩
      · have hnone : c.run (k :: calls) = none := by
          simp [run, List.foldlM_cons, h.call_of_not_passes k hpasses]
        rw [hnone]
        constructor
        · intro hsome
          cases hsome
        · rintro ⟨hhead, -⟩
          exact absurd (hhead k rfl) hpasses

/-- A run that returns has sent all its calls. -/
theorem Waits.requests_of_run (h : Waits threshold c) {calls : List (RestCall × Exchange)}
    {c' : AlpacaRestClient} (hrun : c.run calls = some c') :
    c'.requests = c.requests ++ calls.map Prod.fst := by
  induction calls generalizing c with
  | nil =>
      obtain rfl := Option.some_inj.1 hrun
      simp
  | cons k calls ih =>
      by_cases hpasses : Passes c.rateLimiter.throttleStartNs k.2.readings
      · obtain ⟨reply, c₁, hcall, hrequests, hwaits, -⟩ := h.call_of_passes k hpasses
        rw [run_cons_of_call hcall] at hrun
        rw [ih hwaits hrun, hrequests, List.append_assoc]
        rfl
      · simp [run, List.foldlM_cons, h.call_of_not_passes k hpasses] at hrun

end AlpacaRestClient

/-- **When a waiting client gets its calls through.**  For any threshold, calls, responses and clock
readings: all calls return exactly when each that follows a throttling response finds a reading that
is a minute or more after it; and then every call is sent, in order, and none is dropped. -/
theorem waiting_client_sends_all_iff (threshold : ℤ) (calls : List (RestCall × Exchange)) :
    let client := AlpacaRestClient.create threshold .wait
    ((client.run calls).isSome = true ↔
      calls.IsChain (AlpacaRestClient.Follows client.rateLimiter.threshold)) ∧
    ∀ c, client.run calls = some c → c.requests = calls.map Prod.fst := by
  intro client
  have hwaits := AlpacaRestClient.waits_create threshold
  refine ⟨?_, fun c hrun => ?_⟩
  · rw [hwaits.run_isSome_iff calls]
    exact ⟨And.right, fun hchain => ⟨fun k _ => Or.inl rfl, hchain⟩⟩
  · rw [hwaits.requests_of_run hrun]
    rfl

/-- A query is answered by 429 and the next call looks at the clock until a minute is over: both are
sent. -/
example :
    let query : RestCall × Exchange :=
      (.queryOrders [97, 108, 108] [], ⟨1000000000, [], { statusCode := 429 }, 2000000000⟩)
    let cancel : RestCall × Exchange :=
      (.cancelOrder [97, 45, 49],
        ⟨12000000000, [61900000000, 62000000000], { statusCode := 204 }, 62000000001⟩)
    ((AlpacaRestClient.create 10 .wait).run [query, cancel]).map AlpacaRestClient.requests =
      some [query.1, cancel.1] := by decide +kernel

end Trading
