/-
**The lock-free queue of the gateway.**

`include/LockFreeMPSCQueue.hpp` is a linked list with a stub node: producers append by exchanging
`head_` and then storing the link of the previous node, the single consumer follows the links from
`tail_`.  Between the two steps of a push the list is in pieces, and any number of pushes may be
there at once.

The model has an explicit heap of nodes, an address of a deleted node may be allocated again, and
every access to an address without a node raises `fault`.  One action is one atomic step: a producer
allocates, exchanges or links; the consumer performs the next load or store of its call.

Main definitions:

* `Trading.Mpsc.State` — the queue, where its users stand, and the log of what was pushed (in the
  order of the exchanges) and popped;
* `Trading.Mpsc.consume`, `Trading.Mpsc.step` — the steps of the consumer, and of everyone;
* `Trading.Mpsc.Consumed` — everything that a step of the consumer can do.
-/

import Mathlib.Tactic

set_option relaxedAutoImplicit false
set_option autoImplicit false

namespace Trading

namespace Mpsc

/-- Addresses of nodes. -/
abbrev Addr := ℕ

/-- The address of `stub_`, a member of the queue itself. -/
def stub : Addr := 0

/-- `LockFreeMPSCQueue::Node`. -/
structure Node (T : Type) where
  next : Option Addr := none
  data : T
  deriving DecidableEq, Repr

/-- Where a producer stands in `push`. -/
inductive Producer (T : Type)
  | idle
  | allocated (node : Addr) (value : T)
  | exchanged (node prevHead : Addr)
  deriving DecidableEq, Repr

/-- Whether a producer is between calls. -/
def Producer.isIdle {T : Type} : Producer T → Bool
  | .idle => true
  | _ => false

theorem Producer.isIdle_iff {T : Type} {x : Producer T} : x.isIdle = true ↔ x = .idle := by
  cases x <;> simp [isIdle]

/-- The calls of the consumer; the last one is the destructor. -/
inductive Call
  | tryPop
  | waitAndPop
  | waitAndPopWhile
  | destroy
  deriving DecidableEq, Repr

/-- Where the consumer stands: between calls, or before its next atomic step. -/
inductive Consumer (T : Type)
  | idle
  | loadingNext (call : Call)
  | loadingRunning
  | loadingHead
  | copying (call : Call) (next : Addr)
  | advancing (call : Call) (next : Addr) (value : T)
  | deleting (call : Call) (tail : Addr) (value : T)
  | returned (call : Call) (result : Option T)
  | deletingTail
  | destroyed
  deriving DecidableEq, Repr

/-- Whether the consumer can make a call. -/
def Consumer.ready {T : Type} : Consumer T → Bool
  | .idle => true
  | .returned .. => true
  | _ => false

/-- Whether the destructor has begun. -/
def Consumer.destroying {T : Type} : Consumer T → Bool
  | .loadingNext .destroy => true
  | .copying .destroy _ => true
  | .advancing .destroy _ _ => true
  | .deleting .destroy _ _ => true
  | .deletingTail => true
  | .destroyed => true
  | _ => false

/-- What a call does when the next node is null. -/
def Call.onNull {T : Type} : Call → Consumer T
  | .tryPop => .returned .tryPop none
  | .waitAndPop => .loadingNext .waitAndPop
  | .waitAndPopWhile => .loadingRunning
  | .destroy => .deletingTail

/-- What a call does after it popped a value: the destructor pops on, the others return. -/
def Call.onPopped {T : Type} (value : T) : Call → Consumer T
  | .destroy => .loadingNext .destroy
  | call => .returned call (some value)

/-- The queue, its users, and the logs. -/
structure State (n : ℕ) (T : Type) where
  heap : Addr → Option (Node T)
  head : Addr := stub
  tail : Addr := stub
  /-- The flag that `wait_and_pop` polls. -/
  running : Bool := true
  producer : Fin n → Producer T := fun _ => .idle
  consumer : Consumer T := .idle
  /-- A node was accessed that does not exist. -/
  fault : Bool := false
  /-- The values of each producer's calls of `push`, in its own order. -/
  issued : Fin n → List T := fun _ => []
  /-- The values in the order of the exchanges of `head_`, with their producers. -/
  pushed : List (Fin n × T) := []
  /-- The values in the order of the advances of `tail_`. -/
  popped : List T := []

/-- A new queue: the stub is the only node. -/
def init (n : ℕ) (T : Type) [Inhabited T] : State n T where
  heap := Function.update (fun _ => none) stub (some ⟨none, default⟩)

/-- The atomic steps. -/
inductive Action (n : ℕ) (T : Type)
  /-- `new Node(value)`, at any free address. -/
  | allocate (p : Fin n) (value : T) (node : Addr)
  /-- `head_.exchange(node)`. -/
  | exchange (p : Fin n)
  /-- `prev_head->next.store(node)`. -/
  | link (p : Fin n)
  /-- The consumer makes a call. -/
  | call (c : Call)
  /-- The next atomic step of the consumer's call. -/
  | consume
  /-- Some thread stores to the flag. -/
  | setRunning (b : Bool)
  deriving DecidableEq, Repr

variable {n : ℕ} {T : Type}

/-- `delete` of a node, unless it is the stub. -/
def free (s : State n T) (a : Addr) : State n T :=
  if a = stub then s
  else
    match s.heap a with
    | none => { s with fault := true }
    | some _ => { s with heap := Function.update s.heap a none }

/-- The next atomic step of the consumer.  `tail_` is written by this thread alone, so its copy in
the local `tail` is `tail_` itself up to the advance. -/
def consume (s : State n T) : Option (State n T) :=
  match s.consumer with
  | .loadingNext call =>
      match s.heap s.tail with
      -- a node that was deleted: the invariant of the queue excludes it
      | none => some { s with fault := true }
      | some node =>
          match node.next with
          | none => some { s with consumer := call.onNull }
          | some next => some { s with consumer := .copying call next }
  | .loadingRunning =>
      some { s with
        consumer := if s.running then .loadingNext .waitAndPopWhile else .loadingHead }
  | .loadingHead =>
      some { s with
        consumer :=
          if s.tail = s.head then .returned .waitAndPopWhile none
          else .loadingNext .waitAndPopWhile }
  | .copying call next =>
      match s.heap next with
      | none => some { s with fault := true }
      | some node => some { s with consumer := .advancing call next node.data }
  | .advancing call next value =>
      some { s with
        tail := next
        popped := s.popped ++ [value]
        consumer := .deleting call s.tail value }
  | .deleting call tail value => some { free s tail with consumer := call.onPopped value }
  | .deletingTail => some { free s s.tail with consumer := .destroyed }
  | .idle => none
  | .returned .. => none
  | .destroyed => none

/-- The step function.  The destructor begins when no producer is in a call, and no producer begins
one after it. -/
def step (s : State n T) : Action n T → Option (State n T)
  | .allocate p value node =>
      if (s.producer p).isIdle ∧ (s.heap node).isNone ∧ ¬ s.consumer.destroying then
        some { s with
          heap := Function.update s.heap node (some ⟨none, value⟩)
          producer := Function.update s.producer p (.allocated node value)
          issued := Function.update s.issued p (s.issued p ++ [value]) }
      else none
  | .exchange p =>
      match s.producer p with
      | .allocated node value =>
          -- until the link is stored the chain from `tail_` ends at the old head
          some { s with
            head := node
            producer := Function.update s.producer p (.exchanged node s.head)
            pushed := s.pushed ++ [(p, value)] }
      | _ => none
  | .link p =>
      match s.producer p with
      | .exchanged node prevHead =>
          match s.heap prevHead with
          | none => some { s with fault := true }
          | some prev =>
              some { s with
                heap := Function.update s.heap prevHead (some { prev with next := some node })
                producer := Function.update s.producer p .idle }
      | _ => none
  | .call c =>
      if s.consumer.ready ∧ (c = .destroy → ∀ p, (s.producer p).isIdle) then
        some { s with consumer := .loadingNext c }
      else none
  | .consume => consume s
  | .setRunning b => some { s with running := b }

/-! ### The steps -/

/-- Everything that a step of the consumer can do. -/
inductive Consumed (s : State n T) : State n T → Prop
  | missingTail {call : Call} (hc : s.consumer = .loadingNext call) (hnode : s.heap s.tail = none) :
      Consumed s { s with fault := true }
  | null {call : Call} {node : Node T} (hc : s.consumer = .loadingNext call)
      (hnode : s.heap s.tail = some node) (hnext : node.next = none) :
      Consumed s { s with consumer := call.onNull }
  | linked {call : Call} {node : Node T} {next : Addr} (hc : s.consumer = .loadingNext call)
      (hnode : s.heap s.tail = some node) (hnext : node.next = some next) :
      Consumed s { s with consumer := .copying call next }
  | loadedRunning (hc : s.consumer = .loadingRunning) :
      Consumed s
        { s with consumer := if s.running then .loadingNext .waitAndPopWhile else .loadingHead }
  | loadedHead (hc : s.consumer = .loadingHead) :
      Consumed s
        { s with
          consumer :=
            if s.tail = s.head then .returned .waitAndPopWhile none
            else .loadingNext .waitAndPopWhile }
  | missingNext {call : Call} {next : Addr} (hc : s.consumer = .copying call next)
      (hnode : s.heap next = none) : Consumed s { s with fault := true }
  | copied {call : Call} {next : Addr} {node : Node T} (hc : s.consumer = .copying call next)
      (hnode : s.heap next = some node) :
      Consumed s { s with consumer := .advancing call next node.data }
  | advanced {call : Call} {next : Addr} {value : T}
      (hc : s.consumer = .advancing call next value) :
      Consumed s
        { s with
          tail := next
          popped := s.popped ++ [value]
          consumer := .deleting call s.tail value }
  | deleted {call : Call} {tail : Addr} {value : T} (hc : s.consumer = .deleting call tail value) :
      Consumed s { free s tail with consumer := call.onPopped value }
  | deletedTail (hc : s.consumer = .deletingTail) :
      Consumed s { free s s.tail with consumer := .destroyed }

/-- **A step of the consumer does one of these.** -/
theorem consumed_of_consume {s t : State n T} (h : consume s = some t) : Consumed s t := by
  cases hc : s.consumer with
  | loadingNext call =>
      cases hnode : s.heap s.tail with
      | none =>
          simp only [consume, hc, hnode, Option.some_inj] at h
          subst h
          rw [← hc]
          exact .missingTail hc hnode
      | some node =>
          cases hnext : node.next with
          | none =>
              simp only [consume, hc, hnode, hnext, Option.some_inj] at h
              exact h ▸ .null hc hnode hnext
          | some next =>
              simp only [consume, hc, hnode, hnext, Option.some_inj] at h
              exact h ▸ .linked hc hnode hnext
  | loadingRunning =>
      simp only [consume, hc, Option.some_inj] at h
      exact h ▸ .loadedRunning hc
  | loadingHead =>
      simp only [consume, hc, Option.some_inj] at h
      exact h ▸ .loadedHead hc
  | copying call next =>
      cases hnode : s.heap next with
      | none =>
          simp only [consume, hc, hnode, Option.some_inj] at h
          subst h
          rw [← hc]
          exact .missingNext hc hnode
      | some node =>
          simp only [consume, hc, hnode, Option.some_inj] at h
          exact h ▸ .copied hc hnode
  | advancing call next value =>
      simp only [consume, hc, Option.some_inj] at h
      exact h ▸ .advanced hc
  | deleting call tail value =>
      simp only [consume, hc, Option.some_inj] at h
      exact h ▸ .deleted hc
  | deletingTail =>
      simp only [consume, hc, Option.some_inj] at h
      exact h ▸ .deletedTail hc
  | _ => simp [consume, hc] at h

/-- Everything that a step can do. -/
inductive Stepped (s : State n T) : Action n T → State n T → Prop
  | allocated {p : Fin n} {value : T} {node : Addr} (hp : s.producer p = .idle)
      (hfree : s.heap node = none) (hd : ¬ s.consumer.destroying) :
      Stepped s (.allocate p value node)
        { s with
          heap := Function.update s.heap node (some ⟨none, value⟩)
          producer := Function.update s.producer p (.allocated node value)
          issued := Function.update s.issued p (s.issued p ++ [value]) }
  | exchanged {p : Fin n} {node : Addr} {value : T} (hp : s.producer p = .allocated node value) :
      Stepped s (.exchange p)
        { s with
          head := node
          producer := Function.update s.producer p (.exchanged node s.head)
          pushed := s.pushed ++ [(p, value)] }
  | missingPrev {p : Fin n} {node prevHead : Addr} (hp : s.producer p = .exchanged node prevHead)
      (hprev : s.heap prevHead = none) : Stepped s (.link p) { s with fault := true }
  | linked {p : Fin n} {node prevHead : Addr} {prev : Node T}
      (hp : s.producer p = .exchanged node prevHead) (hprev : s.heap prevHead = some prev) :
      Stepped s (.link p)
        { s with
          heap := Function.update s.heap prevHead (some { prev with next := some node })
          producer := Function.update s.producer p .idle }
  | called {c : Call} (hready : s.consumer.ready)
      (hdestroy : c = .destroy → ∀ p, s.producer p = .idle) :
      Stepped s (.call c) { s with consumer := .loadingNext c }
  | consumed {t : State n T} (h : consume s = some t) : Stepped s .consume t
  | setRunning (b : Bool) : Stepped s (.setRunning b) { s with running := b }

/-- **A step does one of these.** -/
theorem stepped_of_step {s t : State n T} {a : Action n T} (h : step s a = some t) :
    Stepped s a t := by
  cases a with
  | allocate p value node =>
      simp only [step, Option.ite_none_right_eq_some, Option.some_inj] at h
      obtain ⟨⟨hp, hfree, hd⟩, rfl⟩ := h
      exact .allocated (Producer.isIdle_iff.1 hp) (Option.isNone_iff_eq_none.1 hfree) hd
  | exchange p =>
      cases hp : s.producer p with
      | allocated node value =>
          simp only [step, hp, Option.some_inj] at h
          exact h ▸ .exchanged hp
      | _ => simp [step, hp] at h
  | link p =>
      cases hp : s.producer p with
      | exchanged node prevHead =>
          cases hprev : s.heap prevHead with
          | none =>
              simp only [step, hp, hprev, Option.some_inj] at h
              exact h ▸ .missingPrev hp hprev
          | some prev =>
              simp only [step, hp, hprev, Option.some_inj] at h
              exact h ▸ .linked hp hprev
      | _ => simp [step, hp] at h
  | call c =>
      simp only [step, Option.ite_none_right_eq_some, Option.some_inj] at h
      obtain ⟨⟨hready, hdestroy⟩, rfl⟩ := h
      exact .called hready fun hc p => Producer.isIdle_iff.1 (hdestroy hc p)
  | consume => exact .consumed h
  | setRunning b =>
      simp only [step, Option.some_inj] at h
      exact h ▸ .setRunning b

/-- `delete` changes the heap only. -/
theorem free_frame (s : State n T) (a : Addr) :
    (free s a).issued = s.issued ∧ (free s a).pushed = s.pushed ∧
      (free s a).producer = s.producer ∧ (free s a).popped = s.popped := by
  unfold free
  split_ifs
  · exact ⟨rfl, rfl, rfl, rfl⟩
  · split <;> exact ⟨rfl, rfl, rfl, rfl⟩

/-- The steps of the consumer do not touch the producers. -/
theorem consume_frame {s t : State n T} (h : consume s = some t) :
    t.issued = s.issued ∧ t.pushed = s.pushed ∧ t.producer = s.producer := by
  cases consumed_of_consume h with
  | deleted hc =>
      obtain ⟨hissued, hpushed, hproducer, -⟩ := free_frame s _
      exact ⟨hissued, hpushed, hproducer⟩
  | deletedTail hc =>
      obtain ⟨hissued, hpushed, hproducer, -⟩ := free_frame s s.tail
      exact ⟨hissued, hpushed, hproducer⟩
  | _ => exact ⟨rfl, rfl, rfl⟩

/-! ### The heap -/

/-- The link of the node at an address. -/
def nextOf (heap : Addr → Option (Node T)) (a : Addr) : Option Addr := (heap a).bind Node.next

/-- The value of the node at an address. -/
def dataOf [Inhabited T] (heap : Addr → Option (Node T)) (a : Addr) : T :=
  ((heap a).map Node.data).getD default

theorem nextOf_update_of_ne {heap : Addr → Option (Node T)} {a b : Addr} (h : b ≠ a)
    (x : Option (Node T)) : nextOf (Function.update heap a x) b = nextOf heap b := by
  rw [nextOf, nextOf, Function.update_of_ne h]

theorem dataOf_update_of_ne [Inhabited T] {heap : Addr → Option (Node T)} {a b : Addr}
    (h : b ≠ a) (x : Option (Node T)) : dataOf (Function.update heap a x) b = dataOf heap b := by
  rw [dataOf, dataOf, Function.update_of_ne h]

/-- One producer took a step: which of them stands where. -/
theorem update_producer {f : Fin n → Producer T} {p q : Fin n} {x y : Producer T}
    (h : Function.update f p x q = y) : (q = p ∧ x = y) ∨ (q ≠ p ∧ f q = y) := by
  by_cases hq : q = p
  · subst hq
    exact Or.inl ⟨rfl, (Function.update_self q x f).symm.trans h⟩
  · exact Or.inr ⟨hq, (Function.update_of_ne hq x f).symm.trans h⟩

/-- A producer in another state than the new one was in it before. -/
theorem of_update_producer {f : Fin n → Producer T} {p q : Fin n} {x y : Producer T}
    (h : Function.update f p x q = y) (hxy : x ≠ y) : f q = y := by
  rcases update_producer h with ⟨-, heq⟩ | ⟨-, hq⟩
  · exact absurd heq hxy
  · exact hq

/-- What only one producer holds is still held by only one, when `p` takes something new. -/
theorem unique_update_producer {f : Fin n → Producer T} (holds : Producer T → Addr → Prop)
    (hf : ∀ q r a, holds (f q) a → holds (f r) a → q = r) {p : Fin n} {x : Producer T}
    (hnew : ∀ a, holds x a → ∀ q, ¬ holds (f q) a) {q r : Fin n} {a : Addr}
    (hq : holds (Function.update f p x q) a) (hr : holds (Function.update f p x r) a) : q = r := by
  by_cases hqp : q = p
  · by_cases hrp : r = p
    · exact hqp.trans hrp.symm
    · rw [hqp, Function.update_self] at hq
      rw [Function.update_of_ne hrp] at hr
      exact absurd hr (hnew a hq r)
  · rw [Function.update_of_ne hqp] at hq
    by_cases hrp : r = p
    · rw [hrp, Function.update_self] at hr
      exact absurd hq (hnew a hr q)
    · rw [Function.update_of_ne hrp] at hr
      exact hf q r a hq hr

/-- A producer in another state than `p` does not move. -/
theorem update_producer_of_ne {f : Fin n → Producer T} {p q : Fin n} (x : Producer T)
    {y : Producer T} (hq : f q = y) (hp : f p ≠ y) : Function.update f p x q = y := by
  have hqp : q ≠ p := by
    rintro rfl
    exact hp hq
  exact (Function.update_of_ne hqp x f).trans hq

theorem isSome_update_of_some {heap : Addr → Option (Node T)} {a b : Addr} (x : Node T)
    (h : (heap b).isSome) : (Function.update heap a (some x) b).isSome := by
  by_cases hb : b = a
  · simp [hb]
  · rwa [Function.update_of_ne hb]

/-! ### What the consumer holds -/

/-- The call that the consumer is in. -/
def Consumer.call? : Consumer T → Option Call
  | .loadingNext call => some call
  | .loadingRunning => some .waitAndPopWhile
  | .loadingHead => some .waitAndPopWhile
  | .copying call _ => some call
  | .advancing call _ _ => some call
  | .deleting call _ _ => some call
  | .deletingTail => some .destroy
  | _ => none

/-- The value that was taken out of the queue and not yet given to the caller's caller. -/
def Consumer.inHand : Consumer T → List T
  | .deleting _ _ value => [value]
  | .returned _ (some value) => [value]
  | _ => []

/-- A step within a pop: what leaves the queue is in the consumer's hand, and the call goes on or
returns. -/
theorem consume_within {s t : State n T} {c : Call} (hcall : s.consumer.call? = some c)
    (hd : c ≠ .destroy) (h : consume s = some t) :
    (∃ new, t.popped = s.popped ++ new ∧ t.consumer.inHand = s.consumer.inHand ++ new) ∧
      (t.consumer.call? = some c ∨ ∃ r, t.consumer = .returned c r) := by
  cases consumed_of_consume h with
  | missingTail | missingNext => exact ⟨⟨[], by simp⟩, Or.inl hcall⟩
  | @null call node hc hnode hnext =>
      simp only [hc, Consumer.call?, Option.some_inj] at hcall
      subst hcall
      cases call <;> simp_all [Call.onNull, Consumer.call?, Consumer.inHand]
  | linked hc hnode hnext | copied hc hnode =>
      exact ⟨⟨[], by simp [hc, Consumer.inHand]⟩,
        Or.inl (by simpa [hc, Consumer.call?] using hcall)⟩
  | loadedRunning hc =>
      cases hr : s.running <;> simp_all [Consumer.call?, Consumer.inHand]
  | loadedHead hc =>
      by_cases ht : s.tail = s.head <;> simp_all [Consumer.call?, Consumer.inHand]
  | advanced hc =>
      exact ⟨⟨_, rfl, by simp [hc, Consumer.inHand]⟩,
        Or.inl (by simpa [hc, Consumer.call?] using hcall)⟩
  | @deleted call tail value hc =>
      simp only [hc, Consumer.call?, Option.some_inj] at hcall
      subst hcall
      have hpopped : (free s tail).popped = s.popped := (free_frame s tail).2.2.2
      cases call <;> simp_all [Call.onPopped, Consumer.inHand]
  | deletedTail hc => exact absurd (by simpa [hc, Consumer.call?] using hcall.symm) hd

end Mpsc

end Trading
