/-
**A publisher and its subscribers.**

Messages are published one after the other.  Every subscriber has a queue of its own: it is handed
the messages that its subscription lets through, takes them in the order in which they were handed
over, and may lose any of them on the way, as with a socket that drops what does not fit.

Nothing else is assumed of a transport: no message is delivered twice or out of its order, none
reaches a subscriber that did not ask for it, and nothing is said of when one arrives.

So what has reached a subscriber, taken or still in its queue, is a part of what was published for
it, in the same order and with nothing twice; and what is missing of it was dropped.

Main definitions:

* `PubSub.State`, `PubSub.publish`, `PubSub.receive` — the queues, and the two operations;
* `PubSub.State.reached` — what has reached a subscriber;
* `PubSub.Faithful` — the invariant.

Main results:

* `PubSub.faithful_empty`, `PubSub.Faithful.publish`, `PubSub.Faithful.receive` — it holds in the
  beginning and is kept by both operations;
* `PubSub.mem_inbox_publish`, `PubSub.mem_inbox_receive` — what the queues hold.
-/

import TradingAlgo.Runs

set_option relaxedAutoImplicit false
set_option autoImplicit false

namespace PubSub

/-- What was published, the queues of the subscribers, how many messages each of them has lost, and
who has received what. -/
structure State (ι μ : Type*) where
  published : List μ := []
  inbox : ι → List μ := fun _ => []
  dropped : ι → ℕ := fun _ => 0
  received : List (ι × μ) := []

variable {ι μ : Type*} [DecidableEq ι]

/-- A message goes to those who want it and do not lose it. -/
def publish (wants : ι → μ → Bool) (s : State ι μ) (m : μ) (lost : ι → Bool) : State ι μ :=
  { s with
    published := s.published ++ [m]
    inbox := fun i => if wants i m ∧ ¬ lost i then s.inbox i ++ [m] else s.inbox i
    dropped := fun i => if wants i m ∧ lost i then s.dropped i + 1 else s.dropped i }

/-- A subscriber takes the first message of its queue. -/
def receive (s : State ι μ) (i : ι) : Option (μ × State ι μ) :=
  match s.inbox i with
  | [] => none
  | m :: rest =>
      some (m,
        { s with
          inbox := Function.update s.inbox i rest
          received := s.received ++ [(i, m)] })

/-- What has reached a subscriber. -/
def State.reached (s : State ι μ) (i : ι) : List μ := Runs.entries s.received i ++ s.inbox i

/-- **Nothing is invented, repeated or reordered**, and what is missing was dropped. -/
structure Faithful (wants : ι → μ → Bool) (s : State ι μ) : Prop where
  sublist : ∀ i, (s.reached i).Sublist (s.published.filter (wants i))
  count : ∀ i, (s.reached i).length + s.dropped i = (s.published.filter (wants i)).length

variable {wants : ι → μ → Bool} {s s' : State ι μ}

theorem faithful_empty : Faithful wants ({} : State ι μ) :=
  ⟨fun _ => List.Sublist.refl _, fun _ => rfl⟩

theorem reached_publish (s : State ι μ) (m : μ) (lost : ι → Bool) (i : ι) :
    (publish wants s m lost).reached i =
      s.reached i ++ if wants i m ∧ ¬ lost i then [m] else [] := by
  simp only [State.reached, publish]
  split_ifs <;> simp

theorem Faithful.publish (h : Faithful wants s) (m : μ) (lost : ι → Bool) :
    Faithful wants (publish wants s m lost) := by
  refine ⟨fun i => ?_, fun i => ?_⟩
  · rw [reached_publish]
    simp only [PubSub.publish, List.filter_append]
    refine (h.sublist i).append ?_
    by_cases hwants : wants i m = true
    · by_cases hlost : lost i = true <;> simp [hwants, hlost]
    · simp [hwants]
  · have hcount := h.count i
    rw [reached_publish]
    simp only [PubSub.publish, List.filter_append, List.length_append, ← hcount]
    by_cases hwants : wants i m = true
    · by_cases hlost : lost i = true
      · simp [hwants, hlost]
        omega
      · simp [hwants, hlost]
        omega
    · simp [hwants]

/-- The queue of the receiver loses its first message to the log; nothing else changes. -/
theorem receive_eq_some {i : ι} {m : μ} (h : receive s i = some (m, s')) :
    s'.published = s.published ∧ s'.dropped = s.dropped ∧
      s'.received = s.received ++ [(i, m)] ∧ ∀ j, s'.reached j = s.reached j := by
  unfold receive at h
  split at h
  · cases h
  · next first rest hinbox =>
      obtain ⟨rfl, rfl⟩ := Prod.mk.inj (Option.some.inj h)
      refine ⟨rfl, rfl, rfl, fun j => ?_⟩
      by_cases hj : j = i
      · subst hj
        simp [State.reached, hinbox, Runs.entries_concat_self]
      · simp [State.reached, hj, Runs.entries_concat_of_ne hj]

omit [DecidableEq ι] in
/-- A queue holds what it held before, and the message. -/
theorem mem_inbox_publish {m m' : μ} {lost : ι → Bool} {i : ι}
    (h : m' ∈ (publish wants s m lost).inbox i) : m' ∈ s.inbox i ∨ m' = m := by
  simp only [publish] at h
  split_ifs at h
  · simpa using h
  · exact Or.inl h

/-- What is taken was in the queue, and so was what is left. -/
theorem mem_inbox_receive {i : ι} {m : μ} (h : receive s i = some (m, s')) :
    m ∈ s.inbox i ∧ ∀ j, ∀ m' ∈ s'.inbox j, m' ∈ s.inbox j := by
  unfold receive at h
  split at h
  · cases h
  · next first rest hinbox =>
      obtain ⟨rfl, rfl⟩ := Prod.mk.inj (Option.some.inj h)
      refine ⟨by simp [hinbox], fun j m' hm' => ?_⟩
      simp only at hm'
      by_cases hj : j = i
      · subst hj
        rw [Function.update_self] at hm'
        rw [hinbox]
        exact List.mem_cons_of_mem _ hm'
      · rwa [Function.update_of_ne hj] at hm'

theorem Faithful.receive (h : Faithful wants s) {i : ι} {m : μ}
    (hreceive : receive s i = some (m, s')) : Faithful wants s' := by
  obtain ⟨hpublished, hdropped, -, hreached⟩ := receive_eq_some hreceive
  refine ⟨fun j => ?_, fun j => ?_⟩
  · rw [hreached, hpublished]
    exact h.sublist j
  · rw [hreached, hpublished, hdropped]
    exact h.count j

end PubSub
