/-
**The window of the rate limiter.**

A response that says the broker's limit is near opens a window of a minute in which the client drops
its calls.  The limiter keeps a count and a start, sets the start only when there is none, and
clears it in two places, one of them a read; what holds through all of this is that a window is
open only while the count is below the threshold.  So a call that is let through always finds the
start cleared, and the response to it opens a window at its own time.

Main definitions:

* `Trading.Throttles` — the responses that open a window;
* `Trading.AlpacaRestClient.Inv` — the limiter is consistent, with its threshold and policy.

Main results:

* `Trading.AlpacaRestClient.Inv.call` — one call: refused inside the window, or sent, and then a
  window is open afterwards exactly when the response opens one;
* `Trading.AlpacaRestClient.opened_of_run` — a window that is open was opened by a response;
* `Trading.rate_limit_window` — whole runs of a client.
-/

import TradingAlgo.RestClient

set_option relaxedAutoImplicit false
set_option autoImplicit false

namespace Trading

/-- The responses that open a window: the status 429, or a whole number of remaining requests below
the threshold, negative numbers counting as zero. -/
def Throttles (threshold : ℤ) (r : Response) : Prop :=
  r.statusCode = 429 ∨
    ∃ val v, r.ratelimitRemaining = some val ∧ Cxx.wholeInt64 val = some v ∧ max v 0 < threshold

namespace AlpacaRestClient

open RateLimiter (kWindowDurationNs)

/-- The invariant of a dropping client. -/
structure Inv (threshold : ℤ) (c : AlpacaRestClient) : Prop where
  policy : c.rateLimiter.policy = .drop
  threshold_eq : c.rateLimiter.threshold = threshold
  threshold_pos : 0 < threshold
  consistent : c.rateLimiter.Consistent

theorem inv_create (threshold : ℤ) :
    Inv (create threshold .drop).rateLimiter.threshold (create threshold .drop) where
  policy := rfl
  threshold_eq := rfl
  threshold_pos := by
    simp only [create, RateLimiter.create, RateLimiter.kMaxRequestsPerWindow]
    split_ifs <;> omega
  consistent := fun h => absurd rfl h

section Call

variable {threshold : ℤ} {l : RateLimiter}

/-- A response that opens a window, when none is open. -/
theorem updateRateLimit_of_throttles (hstart : l.throttleStartNs = 0)
    (hthreshold : l.threshold = threshold) (hpos : 0 < threshold) {r : Response}
    (h : Throttles threshold r) (now : ℤ) :
    ∃ remaining < threshold,
      updateRateLimit l r now = { l with remaining := remaining, throttleStartNs := now } := by
  by_cases h429 : r.statusCode = 429
  · refine ⟨0, hpos, ?_⟩
    simp [updateRateLimit, h429, RateLimiter.onRateLimited, RateLimiter.openWindow, hstart]
  · obtain ⟨val, v, hval, hv, hlow⟩ := h.resolve_left h429
    refine ⟨max v 0, hlow, ?_⟩
    simp only [updateRateLimit, h429, if_false, hval, hv, RateLimiter.update, hthreshold, hlow,
      if_true, RateLimiter.openWindow, hstart]

/-- Any other response leaves none open. -/
theorem updateRateLimit_of_not_throttles (hstart : l.throttleStartNs = 0)
    (hthreshold : l.threshold = threshold) {r : Response} (h : ¬ Throttles threshold r) (now : ℤ) :
    (updateRateLimit l r now).throttleStartNs = 0 ∧
      (updateRateLimit l r now).threshold = l.threshold ∧
      (updateRateLimit l r now).policy = l.policy := by
  have h429 : r.statusCode ≠ 429 := fun heq => h (Or.inl heq)
  cases hval : r.ratelimitRemaining with
  | none => simp [updateRateLimit, h429, hval, hstart]
  | some val =>
      cases hv : Cxx.wholeInt64 val with
      | none => simp [updateRateLimit, h429, hval, hv, hstart]
      | some v =>
          have hhigh : ¬ max v 0 < l.threshold := by
            rw [hthreshold]
            exact fun hlow => h (Or.inr ⟨val, v, hval, hv, hlow⟩)
          simp [updateRateLimit, h429, hval, hv, RateLimiter.update, hhigh]

/-- **One call.**  It is refused inside an open window; otherwise it is sent, and afterwards a
window is open exactly when the response opens one, from the time of the response on. -/
theorem Inv.call {c : AlpacaRestClient} (h : Inv threshold c) (k : RestCall × Exchange) :
    (c.rateLimiter.throttleStartNs ≠ 0 ∧
      k.2.attemptAt < c.rateLimiter.throttleStartNs + kWindowDurationNs ∧ c.Refused k) ∨
    (¬ (c.rateLimiter.throttleStartNs ≠ 0 ∧
        k.2.attemptAt < c.rateLimiter.throttleStartNs + kWindowDurationNs) ∧
      ∃ reply c', c.call k.1 k.2 = some (reply, c') ∧ c'.requests = c.requests ++ [k.1] ∧
        Inv threshold c' ∧
        (Throttles threshold k.2.response →
          c'.rateLimiter.throttleStartNs = k.2.receivedAt) ∧
        (¬ Throttles threshold k.2.response → c'.rateLimiter.throttleStartNs = 0)) := by
  refine (call_cases h.policy h.consistent k).imp_right ?_
  rintro ⟨hclosed, reply, hcall⟩
  refine ⟨hclosed, reply, _, hcall, rfl, ?_⟩
  by_cases hthrottles : Throttles threshold k.2.response
  · obtain ⟨remaining, hlow, heq⟩ := updateRateLimit_of_throttles
      (l := { c.rateLimiter with throttleStartNs := 0 }) rfl h.threshold_eq h.threshold_pos
      hthrottles k.2.receivedAt
    rw [heq]
    refine ⟨⟨h.policy, h.threshold_eq, h.threshold_pos, fun _ => ?_⟩, fun _ => rfl,
      fun hnot => absurd hthrottles hnot⟩
    exact lt_of_lt_of_eq hlow h.threshold_eq.symm
  · obtain ⟨hstart, hthreshold, hpolicy⟩ := updateRateLimit_of_not_throttles
      (l := { c.rateLimiter with throttleStartNs := 0 }) rfl h.threshold_eq hthrottles
      k.2.receivedAt
    exact ⟨⟨hpolicy.trans h.policy, hthreshold.trans h.threshold_eq, h.threshold_pos,
        fun hopen => absurd hstart hopen⟩,
      fun hyes => absurd hyes hthrottles, fun _ => hstart⟩

/-- A call that was sent. -/
theorem Inv.of_sent {c : AlpacaRestClient} (h : Inv threshold c) {k : RestCall × Exchange}
    (hsent : c.Sent k) (hthrottles : Throttles threshold k.2.response) :
    ∃ reply c', c.call k.1 k.2 = some (reply, c') ∧ Inv threshold c' ∧
      c'.rateLimiter.throttleStartNs = k.2.receivedAt := by
  obtain ⟨reply, c₁, hcall, hreq⟩ := hsent
  rcases h.call k with ⟨-, -, reply', hcall', -⟩ | ⟨-, reply', c', hcall', -, hinv, hyes, -⟩
  · obtain ⟨-, rfl⟩ := Prod.mk.inj (Option.some_inj.1 (hcall.symm.trans hcall'))
    simp at hreq
  · exact ⟨reply', c', hcall', hinv, hyes hthrottles⟩

/-- A call that was refused. -/
theorem Inv.of_refused {c : AlpacaRestClient} (h : Inv threshold c) {k : RestCall × Exchange}
    (hrefused : c.Refused k) :
    c.rateLimiter.throttleStartNs ≠ 0 ∧
      k.2.attemptAt < c.rateLimiter.throttleStartNs + kWindowDurationNs := by
  obtain ⟨reply, hcall, -⟩ := hrefused
  rcases h.call k with ⟨hopen, hlt, -⟩ | ⟨-, reply', c', hcall', hreq, -⟩
  · exact ⟨hopen, hlt⟩
  · obtain ⟨-, rfl⟩ := Prod.mk.inj (Option.some_inj.1 (hcall.symm.trans hcall'))
    simp at hreq

end Call

/-! ### Runs -/

theorem run_append (c : AlpacaRestClient) (calls calls' : List (RestCall × Exchange)) :
    c.run (calls ++ calls') = (c.run calls).bind fun c' => c'.run calls' := by
  simp [run, List.foldlM_append, bind]

theorem run_cons_of_call {c c' : AlpacaRestClient} {k : RestCall × Exchange} {reply : Reply}
    (h : c.call k.1 k.2 = some (reply, c')) (calls : List (RestCall × Exchange)) :
    c.run (k :: calls) = c'.run calls := by
  simp [run, List.foldlM_cons, h, bind]

section Runs

variable {threshold : ℤ} {c : AlpacaRestClient}

/-- A run returns, and keeps the invariant. -/
theorem Inv.run (h : Inv threshold c) (calls : List (RestCall × Exchange)) :
    ∃ c', c.run calls = some c' ∧ Inv threshold c' := by
  induction calls generalizing c with
  | nil => exact ⟨c, rfl, h⟩
  | cons k calls ih =>
      rcases h.call k with ⟨-, -, reply, hcall, -⟩ | ⟨-, reply, c', hcall, -, hinv, -⟩
      · obtain ⟨c', hrun, hinv⟩ := ih h
        exact ⟨c', (run_cons_of_call hcall calls).trans hrun, hinv⟩
      · obtain ⟨c'', hrun, hinv'⟩ := ih hinv
        exact ⟨c'', (run_cons_of_call hcall calls).trans hrun, hinv'⟩

/-- While a window is open, calls change nothing. -/
theorem Inv.run_of_open (h : Inv threshold c) (hopen : c.rateLimiter.throttleStartNs ≠ 0)
    {calls : List (RestCall × Exchange)}
    (hinside : ∀ k ∈ calls,
      k.2.attemptAt < c.rateLimiter.throttleStartNs + kWindowDurationNs) :
    c.run calls = some c := by
  induction calls with
  | nil => rfl
  | cons k calls ih =>
      rcases h.call k with ⟨-, -, reply, hcall, -⟩ | ⟨hclosed, -⟩
      · rw [run_cons_of_call hcall]
        exact ih fun k' hk' => hinside k' (List.mem_cons_of_mem k hk')
      · exact absurd ⟨hopen, hinside k List.mem_cons_self⟩ hclosed

/-- **A window that is open was opened by a response** of the run. -/
theorem opened_of_run (h : Inv threshold c) (hclosed : c.rateLimiter.throttleStartNs = 0)
    {calls : List (RestCall × Exchange)} {c' : AlpacaRestClient} (hrun : c.run calls = some c')
    (hopen : c'.rateLimiter.throttleStartNs ≠ 0) :
    ∃ before k after cₖ, calls = before ++ k :: after ∧ c.run before = some cₖ ∧ cₖ.Sent k ∧
      Throttles threshold k.2.response ∧ k.2.receivedAt = c'.rateLimiter.throttleStartNs := by
  induction calls using List.reverseRecOn generalizing c' with
  | nil =>
      obtain rfl := Option.some_inj.1 hrun
      exact absurd hclosed hopen
  | append_singleton calls k ih =>
      obtain ⟨c₁, hrun₁, hinv₁⟩ := h.run calls
      rw [run_append, hrun₁, Option.bind_some] at hrun
      rcases hinv₁.call k with
        ⟨-, -, reply, hcall, -⟩ | ⟨-, reply, c₂, hcall, hreq, -, hyes, hno⟩
      · -- the call was refused: the window is the one from before
        rw [run_cons_of_call hcall] at hrun
        obtain rfl := Option.some_inj.1 hrun
        obtain ⟨before, k', after, cₖ, rfl, hk'⟩ := ih hrun₁ hopen
        exact ⟨before, k', after ++ [k], cₖ, by simp, hk'⟩
      · rw [run_cons_of_call hcall] at hrun
        obtain rfl := Option.some_inj.1 hrun
        by_cases hthrottles : Throttles threshold k.2.response
        · exact ⟨calls, k, [], c₁, rfl, hrun₁, ⟨reply, c₂, hcall, hreq⟩, hthrottles,
            (hyes hthrottles).symm⟩
        · exact absurd (hno hthrottles) hopen

end Runs

end AlpacaRestClient

open RateLimiter (kWindowDurationNs) in
/-- **The window of the rate limiter, over whole runs of a dropping client.**  After a response that
throttles, received at the time `t`, every call attempted before `t + 60 s` is refused and changes
nothing, and the first call attempted later is sent; and a call is refused only in such a time. -/
theorem rate_limit_window (threshold : ℤ) (calls : List (RestCall × Exchange))
    (hpos : ∀ k ∈ calls, 0 < k.2.attemptAt ∧ k.2.attemptAt ≤ k.2.receivedAt)
    (hclock : calls.Pairwise fun k k' => k.2.receivedAt ≤ k'.2.attemptAt) :
    let client := AlpacaRestClient.create threshold .drop
    (∀ before k between d rest c, calls = before ++ k :: (between ++ d :: rest) →
      client.run before = some c → c.Sent k →
      Throttles client.rateLimiter.threshold k.2.response →
      (d.2.attemptAt < k.2.receivedAt + kWindowDurationNs →
        ∃ c', client.run (before ++ k :: between) = some c' ∧ c'.Refused d) ∧
      ((∀ m ∈ between, m.2.attemptAt < k.2.receivedAt + kWindowDurationNs) →
        k.2.receivedAt + kWindowDurationNs ≤ d.2.attemptAt →
        ∃ c', client.run (before ++ k :: between) = some c' ∧ c'.Sent d)) ∧
    (∀ before d rest c, calls = before ++ d :: rest → client.run before = some c → c.Refused d →
      ∃ before' k after c', before = before' ++ k :: after ∧ client.run before' = some c' ∧
        c'.Sent k ∧ Throttles client.rateLimiter.threshold k.2.response ∧
        k.2.receivedAt ≤ d.2.attemptAt ∧
        d.2.attemptAt < k.2.receivedAt + kWindowDurationNs) := by
  intro client
  have hinv := AlpacaRestClient.inv_create threshold
  refine ⟨?_, ?_⟩
  · rintro before k between d rest c rfl hrun hsent hthrottles
    obtain ⟨c', hrun', hinvc⟩ := hinv.run before
    obtain rfl : c' = c := Option.some_inj.1 (hrun'.symm.trans hrun)
    -- the window that the response to `k` opens
    obtain ⟨reply, cₖ, hcall, hinvₖ, hstart⟩ := hinvc.of_sent hsent hthrottles
    have hopen : cₖ.rateLimiter.throttleStartNs ≠ 0 := by
      have := hpos k (by simp)
      omega
    have hbetween : (∀ m ∈ between, m.2.attemptAt < k.2.receivedAt + kWindowDurationNs) →
        client.run (before ++ k :: between) = some cₖ := by
      intro hinside
      rw [AlpacaRestClient.run_append, hrun, Option.bind_some,
        AlpacaRestClient.run_cons_of_call hcall]
      exact hinvₖ.run_of_open hopen (by rwa [hstart])
    refine ⟨fun hinside => ⟨cₖ, hbetween fun m hm => ?_, ?_⟩, fun hall hafter =>
      ⟨cₖ, hbetween hall, ?_⟩⟩
    · -- what comes before `d` was attempted before it
      have hsub : (between ++ d :: rest).Pairwise _ :=
        (List.pairwise_cons.1 (List.pairwise_append.1 hclock).2.1).2
      have hle := (List.pairwise_append.1 hsub).2.2 m hm d List.mem_cons_self
      have hm := (hpos m (by simp [hm])).2
      omega
    · rcases hinvₖ.call d with ⟨-, -, hrefused⟩ | ⟨hclosed, -⟩
      · exact hrefused
      · exact absurd ⟨hopen, by rwa [hstart]⟩ hclosed
    · rcases hinvₖ.call d with ⟨-, hlt, -⟩ | ⟨-, reply', c', hcall', hreq, -⟩
      · rw [hstart] at hlt
        omega
      · exact ⟨reply', c', hcall', hreq⟩
  · rintro before d rest c rfl hrun hrefused
    obtain ⟨c', hrun', hinvc⟩ := hinv.run before
    obtain rfl : c' = c := Option.some_inj.1 (hrun'.symm.trans hrun)
    obtain ⟨hopen, hlt⟩ := hinvc.of_refused hrefused
    obtain ⟨before', k, after, cₖ, rfl, hrunₖ, hsent, hthrottles, hstart⟩ :=
      AlpacaRestClient.opened_of_run hinv rfl hrun hopen
    refine ⟨before', k, after, cₖ, rfl, hrunₖ, hsent, hthrottles, ?_, by rwa [hstart]⟩
    exact (List.pairwise_append.1 hclock).2.2 k (by simp) d List.mem_cons_self

/-- A query is answered by 429; a cancellation ten seconds later is refused. -/
theorem rate_limit_window_of_429 :
    let query : RestCall × Exchange :=
      (.queryOrders [97, 108, 108] [], ⟨1000000000, [], { statusCode := 429 }, 2000000000⟩)
    let cancel : RestCall × Exchange :=
      (.cancelOrder [97, 45, 49], ⟨12000000000, [], { statusCode := 204 }, 12000000001⟩)
    ∃ c, (AlpacaRestClient.create 10 .drop).run [query] = some c ∧ c.Refused cancel := by
  intro query cancel
  have hsent : (AlpacaRestClient.create 10 .drop).Sent query := ⟨_, _, rfl, rfl⟩
  exact ((rate_limit_window 10 [query, cancel] (by decide) (by decide)).1 [] query [] cancel []
    (AlpacaRestClient.create 10 .drop) rfl rfl hsent (Or.inl rfl)).1 (by decide)

end Trading
