/-
**The threads of the engine, from launch to join.**

`TradingEngine::run` starts the listener, the data feed, the gateway and one consumer for each
symbol, waits until it is told to stop and shuts down; the destructor shuts down once more, for the
case that an exception has left `run` on the way.  What a thread object needs is that it is joined
before it is destroyed, and that what its thread uses lives until then; what a join needs is that
the thread will end.

The main thread is a list of instructions that an exception replaces by those of the destructor.
The consumers and the gateway are those of `TradingAlgo/Shutdown.lean`, which take their steps
beside it and have ended when `run` has returned there.  The two WebSocket threads are in
`ix::WebSocket::run`, which is not part of the repository: it may return at any time, or never.

Two things end the process at once.  An exception may leave the function of any thread, and the
vector of the consumers may have no memory for the one that was just started, which is then
destroyed with its thread running (`launch_consumers`).

Main definitions:

* `Trading.Threads.Instr`, `runBody`, `shutdownBody`, `destructorBody` — what the main thread does;
* `Trading.Threads.State`, `Trading.Threads.step` — the machine, with a mark for what must not
  happen;
* `Trading.Threads.Stepped` — everything that an action can do;
* `Trading.Threads.Sound` — a sequence of instructions is in order from what is known of the
  threads;
* `Trading.Threads.WillEnd` — what a thread that is waited for has left to do.

Main results:

* `Trading.Threads.Inv.step` — every step keeps that the rest of the main thread is in order;
* `Trading.Threads.sound_main` — the engine's instructions are in order, for any number of symbols;
* `Trading.shutdown_is_orderly` — what follows for every run.
-/

import TradingAlgo.Runs
import TradingAlgo.StoppingProgress

set_option relaxedAutoImplicit false
set_option autoImplicit false

namespace Trading

namespace Threads

/-! ### What the main thread does -/

variable {n : ℕ}

/-- The WebSockets of `AlpacaFillListener` and of `AlpacaWebSocketSource`. -/
inductive Socket
  | listener
  | source
  deriving DecidableEq, Repr

/-- The threads that the engine starts for `n` symbols. -/
inductive Thread (n : ℕ)
  | socket (x : Socket)
  | gateway
  | consumer (i : Fin n)
  deriving DecidableEq, Repr

/-- All threads. -/
def allThreads (n : ℕ) : List (Thread n) :=
  [Thread.socket .listener, Thread.socket .source, Thread.gateway] ++
    (List.finRange n).map Thread.consumer

/-- The instructions. -/
inductive Instr (n : ℕ)
  /-- A call that does not start a thread and may throw: `sink_.start()`, a consumer's
  constructor. -/
  | call
  /-- `std::thread(...)`; it throws when the system has no thread to give. -/
  | launch (t : Thread n)
  /-- The new `ConsumerThread` goes into `consumer_threads_`. -/
  | emplace (i : Fin n)
  /-- `main_loop`. -/
  | mainLoop
  /-- `if (is_running_.load()) stop();` -/
  | stopIfRunning
  /-- `if (shutdown_done_.exchange(true)) return;` and the body of `shutdown`. -/
  | shutdown
  /-- `ws_.stop()`. -/
  | stopSocket (x : Socket)
  /-- `if (thread.joinable()) thread.join();` -/
  | join (t : Thread n)
  /-- `consumer_threads_.clear()`. -/
  | clearConsumers
  /-- `order_gateway_.reset()`. -/
  | resetGateway
  /-- The members are destroyed, the threads' own objects and what the threads use among them. -/
  | destroyMembers
  deriving DecidableEq, Repr

/-- The body of `shutdown`. -/
def shutdownBody (n : ℕ) : List (Instr n) :=
  [Instr.stopSocket .source, Instr.join (.socket .source)] ++
    (List.finRange n).map (fun i => Instr.join (.consumer i)) ++
    [Instr.clearConsumers, Instr.stopSocket .listener, Instr.join (.socket .listener),
      Instr.join .gateway, Instr.resetGateway]

/-- `launch_consumers`. -/
def launchConsumersBody (is : List (Fin n)) : List (Instr n) :=
  is.flatMap fun i => [Instr.call, Instr.launch (.consumer i), Instr.emplace i]

/-- `run`. -/
def runBody (n : ℕ) : List (Instr n) :=
  [Instr.launch (.socket .listener), Instr.call, Instr.launch (.socket .source),
    Instr.launch .gateway] ++
    launchConsumersBody (List.finRange n) ++ [Instr.mainLoop, Instr.shutdown]

/-- The destructor. -/
def destructorBody : List (Instr n) := [.stopIfRunning, .shutdown, .destroyMembers]

/-! ### The machine -/

/-- How far a thread object is. -/
inductive Status
  | notStarted
  /-- `joinable()`, whether or not the thread still runs. -/
  | started
  | joined
  deriving DecidableEq, Repr

/-- The state.  The consumers, the gateway, the queue and `is_running_` are in `hot`. -/
structure State (n : ℕ) where
  /-- What the main thread still has to do. -/
  rest : List (Instr n)
  threads : Thread n → Status := fun _ => .notStarted
  hot : Stopping.State n
  /-- The sockets that were told to stop. -/
  stopped : Socket → Bool := fun _ => false
  /-- The sockets whose `run` has returned. -/
  closed : Socket → Bool := fun _ => false
  shutdownDone : Bool := false
  /-- How often the body of `shutdown` was entered. -/
  shutdowns : ℕ := 0
  /-- A joinable thread object was overwritten or destroyed, something that its thread uses was
  destroyed, or an exception has left a thread: `std::terminate`, or worse. -/
  fault : Bool := false

/-- The start of `run`. -/
def init (risk : RiskState) (consumers : Fin n → MarketEventConsumer) : State n where
  rest := runBody n ++ destructorBody
  hot := Stopping.init risk consumers

/-- The function of a thread has returned. -/
def ended (s : State n) : Thread n → Bool
  | .socket x => s.closed x
  | .gateway => s.hot.gateway = .finished
  | .consumer i => s.hot.thread i = .exited

/-- A thread is in its function. -/
def alive (s : State n) (t : Thread n) : Bool := s.threads t = .started && !ended s t

/-- The steps. -/
inductive Action (n : ℕ)
  /-- The next instruction of the main thread. -/
  | main
  /-- The next instruction throws: `run` is left, and the destructor runs. -/
  | throws
  /-- `push_back` throws: the `ConsumerThread` that should go into the vector is destroyed. -/
  | pushBackFails
  /-- An exception leaves the function of a thread. -/
  | crash (t : Thread n)
  /-- `ix::WebSocket::run` returns. -/
  | closes (x : Socket)
  /-- A step of a consumer, the gateway, or someone who clears `is_running_`: the signal handler, or
  `stop()` from another thread. -/
  | hot (a : Stopping.Action n)

/-- What ends the process. -/
def Action.fatal : Action n → Bool
  | .pushBackFails => true
  | .crash _ => true
  | _ => false

/-- The steps of a consumer or of the gateway. -/
def Action.takenBy (t : Thread n) : Action n → Bool
  | .hot a =>
      match t with
      | .socket _ => false
      | .gateway => a.ofGateway
      | .consumer i => a.ofConsumer i
  | _ => false

/-- What an instruction overwrites, or takes away from a thread that uses it. -/
def touched : Instr n → List (Thread n)
  | .launch t => [t]
  | .clearConsumers => (List.finRange n).map .consumer
  | .resetGateway => [.gateway]
  | .destroyMembers => allThreads n
  | _ => []

/-- The mark after an instruction: what it touches must not be joinable. -/
def faultAfter (s : State n) (instr : Instr n) : Bool :=
  (touched instr).any fun t => s.threads t = .started

/-- One instruction; `none` while the main thread waits. -/
def exec (rm : RiskManager) (s : State n) : Instr n → Option (State n)
  | .call => some s
  | .launch t => some { s with threads := Function.update s.threads t .started }
  | .emplace _ => some s
  | .mainLoop => if s.hot.queue.running then none else some s
  | .stopIfRunning => (Stopping.step rm s.hot .clear).map fun hot => { s with hot := hot }
  | .shutdown =>
      if s.shutdownDone then some s
      else
        some { s with
          rest := shutdownBody n ++ s.rest
          shutdownDone := true
          shutdowns := s.shutdowns + 1 }
  | .stopSocket x => some { s with stopped := Function.update s.stopped x true }
  | .join t =>
      if s.threads t = .started then
        if ended s t then some { s with threads := Function.update s.threads t .joined } else none
      else some s
  | .clearConsumers => some s
  | .resetGateway => some s
  | .destroyMembers => some s

/-- The instructions that may throw, without harm.  What `shutdown` calls is taken not to throw. -/
def mayThrow : Instr n → Bool
  | .call => true
  | .launch _ => true
  | _ => false

/-- A thread takes no steps before it is started; the positions are changed by the listener and, for
an order that it could not place, by the gateway. -/
def mayStep (s : State n) : Stopping.Action n → Bool
  | .clear => true
  | .environment _ => alive s (.socket .listener) || alive s .gateway
  | .gateway => alive s .gateway
  | a => a.consumer?.any fun i => alive s (.consumer i)

/-- What an action does as long as there is a process. -/
def act (rm : RiskManager) (s : State n) : Action n → Option (State n)
  | .main =>
      match s.rest with
      | [] => none
      | instr :: rest => exec rm { s with rest := rest, fault := faultAfter s instr } instr
  | .throws =>
      match s.rest with
      | [] => none
      | instr :: _ => if mayThrow instr then some { s with rest := destructorBody } else none
  | .pushBackFails =>
      match s.rest with
      | .emplace i :: _ =>
          some { s with rest := destructorBody, fault := s.threads (.consumer i) = .started }
      | _ => none
  | .crash t => if alive s t then some { s with fault := true } else none
  | .closes x =>
      if alive s (.socket x) then some { s with closed := Function.update s.closed x true }
      else none
  | .hot a =>
      if mayStep s a then (Stopping.step rm s.hot a).map fun hot => { s with hot := hot } else none

/-- The step function. -/
def step (rm : RiskManager) (s : State n) (a : Action n) : Option (State n) :=
  if s.fault then none else act rm s a

/-- Everything that an action can do. -/
inductive Stepped (rm : RiskManager) (s : State n) : Action n → State n → Prop
  | main {instr : Instr n} {rest : List (Instr n)} {s' : State n} (hrest : s.rest = instr :: rest)
      (hexec : exec rm { s with rest := rest, fault := faultAfter s instr } instr = some s') :
      Stepped rm s .main s'
  | throws {instr : Instr n} {rest : List (Instr n)} (hrest : s.rest = instr :: rest)
      (hthrows : mayThrow instr = true) : Stepped rm s .throws { s with rest := destructorBody }
  | pushBackFails {i : Fin n} {rest : List (Instr n)} (hrest : s.rest = .emplace i :: rest) :
      Stepped rm s .pushBackFails
        { s with rest := destructorBody, fault := s.threads (.consumer i) = .started }
  | crash {t : Thread n} (halive : alive s t = true) :
      Stepped rm s (.crash t) { s with fault := true }
  | closes {x : Socket} (halive : alive s (.socket x) = true) :
      Stepped rm s (.closes x) { s with closed := Function.update s.closed x true }
  | hot {a : Stopping.Action n} {hot : Stopping.State n} (hmay : mayStep s a = true)
      (hhot : Stopping.step rm s.hot a = some hot) : Stepped rm s (.hot a) { s with hot := hot }

/-- **An action does one of these.** -/
theorem stepped_of_act {rm : RiskManager} {s s' : State n} {a : Action n}
    (h : act rm s a = some s') : Stepped rm s a s' := by
  cases a with
  | main =>
      cases hrest : s.rest with
      | nil => simp [act, hrest] at h
      | cons instr rest =>
          simp only [act, hrest] at h
          exact .main hrest h
  | throws =>
      cases hrest : s.rest with
      | nil => simp [act, hrest] at h
      | cons instr rest =>
          simp only [act, hrest, Option.ite_none_right_eq_some, Option.some_inj] at h
          obtain ⟨hthrows, rfl⟩ := h
          exact .throws hrest hthrows
  | pushBackFails =>
      simp only [act] at h
      split at h
      · next i rest hrest =>
          obtain rfl := Option.some_inj.1 h
          exact .pushBackFails hrest
      · cases h
  | crash t =>
      simp only [act, Option.ite_none_right_eq_some, Option.some_inj] at h
      obtain ⟨halive, rfl⟩ := h
      exact .crash halive
  | closes x =>
      simp only [act, Option.ite_none_right_eq_some, Option.some_inj] at h
      obtain ⟨halive, rfl⟩ := h
      exact .closes halive
  | hot b =>
      simp only [act, Option.ite_none_right_eq_some, Option.map_eq_some_iff] at h
      obtain ⟨hmay, hot, hhot, rfl⟩ := h
      exact .hot hmay hhot

/-- A step is one of the process as long as there is one. -/
theorem stepped_of_step {rm : RiskManager} {s s' : State n} {a : Action n}
    (h : step rm s a = some s') : Stepped rm s a s' := by
  simp only [step] at h
  split_ifs at h
  exact stepped_of_act h

/-- A join changes at most the thread that is joined, and leaves it not joinable. -/
theorem exec_join {rm : RiskManager} {s s' : State n} {t : Thread n}
    (h : exec rm s (.join t) = some s') :
    (s' = s ∧ s.threads t ≠ .started) ∨
      (ended s t = true ∧ s' = { s with threads := Function.update s.threads t .joined }) := by
  simp only [exec] at h
  split_ifs at h with hstarted hended
  · exact Or.inr ⟨hended, (Option.some_inj.1 h).symm⟩
  · exact Or.inl ⟨(Option.some_inj.1 h).symm, hstarted⟩

/-- What an instruction does besides its effect on the threads: it may clear the flag, or it enters
the body of `shutdown`. -/
theorem exec_cases {rm : RiskManager} {s s' : State n} {instr : Instr n}
    (h : exec rm s instr = some s') :
    (s'.rest = s.rest ∧ s'.shutdownDone = s.shutdownDone ∧ s'.shutdowns = s.shutdowns ∧
        (s'.hot = s.hot ∨ Stopping.step rm s.hot .clear = some s'.hot)) ∨
      (s.shutdownDone = false ∧
        s' = { s with
          rest := shutdownBody n ++ s.rest
          shutdownDone := true
          shutdowns := s.shutdowns + 1 }) := by
  cases instr with
  | shutdown =>
      cases hdone : s.shutdownDone with
      | true =>
          simp only [exec, hdone, if_true, Option.some_inj] at h
          subst h
          exact Or.inl ⟨rfl, hdone, rfl, Or.inl rfl⟩
      | false =>
          simp only [exec, hdone, Bool.false_eq_true, if_false, Option.some_inj] at h
          exact Or.inr ⟨rfl, h.symm⟩
  | mainLoop =>
      simp only [exec, Option.ite_none_left_eq_some, Option.some_inj] at h
      obtain ⟨-, rfl⟩ := h
      exact Or.inl ⟨rfl, rfl, rfl, Or.inl rfl⟩
  | stopIfRunning =>
      simp only [exec] at h
      obtain ⟨hot, hhot, rfl⟩ := Option.map_eq_some_iff.1 h
      exact Or.inl ⟨rfl, rfl, rfl, Or.inr hhot⟩
  | join t =>
      rcases exec_join h with ⟨rfl, -⟩ | ⟨-, rfl⟩ <;> exact Or.inl ⟨rfl, rfl, rfl, Or.inl rfl⟩
  | _ =>
      obtain rfl := Option.some_inj.1 h
      exact Or.inl ⟨rfl, rfl, rfl, Or.inl rfl⟩

/-! ### Instructions in order -/

/-- What is known of the threads at a point of the main thread. -/
structure Known (n : ℕ) where
  /-- The threads that may be joinable. -/
  joinable : Set (Thread n) := ∅
  /-- Threads that are joinable for certain. -/
  begun : Set (Thread n) := ∅
  /-- `is_running_` is cleared for certain. -/
  cleared : Bool := false
  /-- The sockets that were told to stop for certain. -/
  stopped : Socket → Bool := fun _ => false
  done : Bool := false

/-- The threads that were told to stop; the gateway also needs that nothing is pushed any more. -/
def Known.ToldToStop (k : Known n) : Thread n → Prop
  | .socket x => k.stopped x = true
  | .gateway => k.cleared = true ∧ ∀ i, Thread.consumer i ∉ k.joinable
  | .consumer _ => k.cleared = true

/-- **The instructions are in order** from what is known on: nothing is taken away from a thread
that may be joinable, and a thread that is joined was told to stop. -/
inductive Sound : Known n → List (Instr n) → Prop
  | nil {k : Known n} (hnone : k.joinable = ∅) (hcleared : k.cleared = true)
      (hdone : k.done = true) : Sound k []
  | call {k : Known n} {rest : List (Instr n)} (h : Sound k rest)
      (hthrows : Sound k destructorBody) : Sound k (.call :: rest)
  | launch {k : Known n} {t : Thread n} {rest : List (Instr n)} (hnew : t ∉ k.joinable)
      (h : Sound { k with joinable := insert t k.joinable, begun := {t} } rest)
      (hthrows : Sound k destructorBody) : Sound k (.launch t :: rest)
  | emplace {k : Known n} {i : Fin n} {rest : List (Instr n)}
      (hbegun : Thread.consumer i ∈ k.begun) (h : Sound k rest) : Sound k (.emplace i :: rest)
  | mainLoop {k : Known n} {rest : List (Instr n)} (h : Sound { k with cleared := true } rest) :
      Sound k (.mainLoop :: rest)
  | stopIfRunning {k : Known n} {rest : List (Instr n)}
      (h : Sound { k with cleared := true } rest) : Sound k (.stopIfRunning :: rest)
  | shutdownFirst {k : Known n} {rest : List (Instr n)} (hdone : k.done = false)
      (h : Sound { k with done := true } (shutdownBody n ++ rest)) : Sound k (.shutdown :: rest)
  | shutdownAgain {k : Known n} {rest : List (Instr n)} (hdone : k.done = true)
      (h : Sound k rest) : Sound k (.shutdown :: rest)
  | stopSocket {k : Known n} {x : Socket} {rest : List (Instr n)}
      (h : Sound { k with stopped := Function.update k.stopped x true } rest) :
      Sound k (.stopSocket x :: rest)
  | join {k : Known n} {t : Thread n} {rest : List (Instr n)} (htold : k.ToldToStop t)
      (h : Sound { k with joinable := k.joinable \ {t}, begun := ∅ } rest) :
      Sound k (.join t :: rest)
  | clearConsumers {k : Known n} {rest : List (Instr n)}
      (hnone : ∀ i, Thread.consumer i ∉ k.joinable) (h : Sound k rest) :
      Sound k (.clearConsumers :: rest)
  | resetGateway {k : Known n} {rest : List (Instr n)} (hnone : Thread.gateway ∉ k.joinable)
      (h : Sound k rest) : Sound k (.resetGateway :: rest)
  | destroyMembers {k : Known n} {rest : List (Instr n)} (hnone : k.joinable = ∅)
      (h : Sound k rest) : Sound k (.destroyMembers :: rest)

/-- What is known is true. -/
structure Describes (k : Known n) (s : State n) : Prop where
  joinable : ∀ t, s.threads t = .started → t ∈ k.joinable
  begun : ∀ t ∈ k.begun, s.threads t = .started
  cleared : k.cleared = true → s.hot.queue.running = false
  stopped : ∀ x, k.stopped x = true → s.stopped x = true
  done : s.shutdownDone = k.done

/-- The thread objects fit the threads: one that is not started has not moved, and one that is
joined has ended. -/
structure Attached (s : State n) : Prop where
  live : Stopping.Live s.hot
  waiting : ∀ i, s.threads (.consumer i) = .notStarted → s.hot.thread i = .checking
  joined : ∀ t, s.threads t = .joined → ended s t = true

/-- The invariant: the rest of the main thread is in order. -/
structure Inv (s : State n) : Prop where
  fault : s.fault = false
  attached : Attached s
  sound : ∃ k, Describes k s ∧ Sound k s.rest

theorem Inv.of_sound {k : Known n} {s : State n} (hsound : Sound k s.rest) (hk : Describes k s)
    (hattached : Attached s) (hfault : s.fault = false) : Inv s :=
  ⟨hfault, hattached, k, hk, hsound⟩

/-! ### The threads and their objects -/

variable {rm : RiskManager} {s s' : State n}

theorem alive_iff {t : Thread n} :
    alive s t = true ↔ s.threads t = .started ∧ ended s t = false := by
  simp [alive]

/-- Only a started thread takes steps. -/
theorem started_of_mayStep {b : Stopping.Action n} (hb : mayStep s b = true) {i : Fin n}
    (hi : b.consumer? = some i) : s.threads (.consumer i) = .started := by
  have halive : alive s (.consumer i) = true := by
    cases b <;> simp_all [mayStep, Stopping.Action.consumer?]
  exact (alive_iff.1 halive).1

/-- A step of the consumers, the gateway or the flag. -/
theorem Attached.hot (h : Attached s) {b : Stopping.Action n} {hot : Stopping.State n}
    (hb : ∀ i, b.consumer? = some i → s.threads (.consumer i) = .started)
    (hstep : Stopping.step rm s.hot b = some hot) : Attached { s with hot := hot } := by
  refine ⟨h.live.step hstep, fun i hi => ?_, fun t ht => ?_⟩
  · have hother : b.consumer? ≠ some i := by
      intro heq
      have hstarted := hb i heq
      rw [show s.threads (.consumer i) = .notStarted from hi] at hstarted
      cases hstarted
    exact (Stopping.step_other hstep hother).1.trans (h.waiting i hi)
  · have hended := h.joined t ht
    cases t with
    | socket x => exact hended
    | gateway =>
        have hfinished : s.hot.gateway = .finished := of_decide_eq_true hended
        exact decide_eq_true (Stopping.finished_step hstep hfinished)
    | consumer i =>
        have hexited : s.hot.thread i = .exited := of_decide_eq_true hended
        exact decide_eq_true (h.live.inv.exited_step hstep hexited)

/-- A thread is started. -/
theorem Attached.launch (h : Attached s) (t : Thread n) :
    Attached { s with threads := Function.update s.threads t .started } := by
  refine ⟨h.live, fun i hi => h.waiting i ?_, fun u hu => h.joined u ?_⟩
  · by_cases heq : Thread.consumer i = t
    · simp [heq] at hi
    · simpa [heq] using hi
  · by_cases heq : u = t
    · simp [heq] at hu
    · simpa [heq] using hu

/-- A thread that has ended is joined. -/
theorem Attached.join (h : Attached s) {t : Thread n} (ht : ended s t = true) :
    Attached { s with threads := Function.update s.threads t .joined } := by
  refine ⟨h.live, fun i hi => h.waiting i ?_, fun u hu => ?_⟩
  · by_cases heq : Thread.consumer i = t
    · simp [heq] at hi
    · simpa [heq] using hi
  · by_cases heq : u = t
    · exact heq ▸ ht
    · exact h.joined u (by simpa [heq] using hu)

/-- A WebSocket returns. -/
theorem Attached.close (h : Attached s) (x : Socket) :
    Attached { s with closed := Function.update s.closed x true } := by
  refine ⟨h.live, h.waiting, fun t ht => ?_⟩
  have hended := h.joined t ht
  cases t with
  | socket y =>
      by_cases hy : y = x
      · simp [ended, hy]
      · simpa [ended, hy] using hended
  | _ => exact hended

/-! ### Every step keeps the invariant -/

/-- In order means that nothing is taken away from a thread that may be joinable. -/
theorem Sound.notMem_of_touched {k : Known n} {instr : Instr n} {rest : List (Instr n)}
    (h : Sound k (instr :: rest)) {t : Thread n} (ht : t ∈ touched instr) : t ∉ k.joinable := by
  cases h with
  | launch hnew h hthrows =>
      obtain rfl := List.mem_singleton.1 ht
      exact hnew
  | clearConsumers hnone h =>
      obtain ⟨i, -, rfl⟩ := List.mem_map.1 ht
      exact hnone i
  | resetGateway hnone h =>
      obtain rfl := List.mem_singleton.1 ht
      exact hnone
  | destroyMembers hnone h =>
      rw [hnone]
      exact Set.notMem_empty t
  | _ => cases ht

theorem faultAfter_eq_false {k : Known n} {instr : Instr n} {rest : List (Instr n)}
    (hk : Describes k s) (hsound : Sound k (instr :: rest)) : faultAfter s instr = false := by
  rw [faultAfter, List.any_eq_false]
  intro t ht hstarted
  exact hsound.notMem_of_touched ht (hk.joinable t (of_decide_eq_true hstarted))

/-- What is known does not depend on what is left to do. -/
theorem Describes.next {k : Known n} (hk : Describes k s) (rest : List (Instr n)) (fault : Bool) :
    Describes k { s with rest := rest, fault := fault } :=
  ⟨hk.joinable, hk.begun, hk.cleared, hk.stopped, hk.done⟩

theorem Describes.launch {k : Known n} (hk : Describes k s) (t : Thread n) :
    Describes { k with joinable := insert t k.joinable, begun := {t} }
      { s with threads := Function.update s.threads t .started } := by
  refine ⟨fun u hu => ?_, fun u hu => ?_, hk.cleared, hk.stopped, hk.done⟩
  · by_cases heq : u = t
    · exact Or.inl heq
    · exact Set.mem_insert_of_mem t (hk.joinable u (by simpa [heq] using hu))
  · obtain rfl := Set.mem_singleton_iff.1 hu
    exact Function.update_self ..

theorem Describes.stopSocket {k : Known n} (hk : Describes k s) (x : Socket) :
    Describes { k with stopped := Function.update k.stopped x true }
      { s with stopped := Function.update s.stopped x true } := by
  refine ⟨hk.joinable, hk.begun, hk.cleared, fun y hy => ?_, hk.done⟩
  by_cases heq : y = x
  · simp [heq]
  · have hold : k.stopped y = true := by simpa [heq] using hy
    simpa [heq] using hk.stopped y hold

/-- After a join the thread is not joinable, whether or not it was before. -/
theorem Describes.join {k : Known n} {t : Thread n} (hk : Describes k s)
    (hstep : exec rm s (.join t) = some s') :
    Describes { k with joinable := k.joinable \ {t}, begun := ∅ } s' := by
  rcases exec_join hstep with ⟨rfl, hnot⟩ | ⟨-, rfl⟩
  · refine ⟨fun u hu => ⟨hk.joinable u hu, ?_⟩, by simp, hk.cleared, hk.stopped, hk.done⟩
    rintro rfl
    exact hnot hu
  · refine ⟨fun u hu => ?_, by simp, hk.cleared, hk.stopped, hk.done⟩
    by_cases heq : u = t
    · simp [heq] at hu
    · exact ⟨hk.joinable u (by simpa [heq] using hu), heq⟩

/-- **One instruction of the main thread.** -/
theorem Inv.main (h : Inv s) {instr : Instr n} {rest : List (Instr n)}
    (hrest : s.rest = instr :: rest)
    (hstep : exec rm { s with rest := rest, fault := faultAfter s instr } instr = some s') :
    Inv s' := by
  obtain ⟨hfault, hattached, k, hk, hsound⟩ := h
  rw [hrest] at hsound
  rw [faultAfter_eq_false hk hsound] at hstep
  have hnext := hk.next rest false
  have hsame : Attached { s with rest := rest, fault := false } :=
    ⟨hattached.live, hattached.waiting, hattached.joined⟩
  cases hsound with
  | call h | emplace _ h | clearConsumers _ h | resetGateway _ h | destroyMembers _ h =>
      obtain rfl := Option.some_inj.1 hstep
      exact .of_sound h hnext hsame rfl
  | launch hnew h hthrows =>
      obtain rfl := Option.some_inj.1 hstep
      exact .of_sound h (hnext.launch _) (hsame.launch _) rfl
  | stopSocket h =>
      obtain rfl := Option.some_inj.1 hstep
      exact .of_sound h (hnext.stopSocket _)
        ⟨hsame.live, hsame.waiting, hsame.joined⟩ rfl
  | mainLoop h =>
      simp only [exec, Option.ite_none_left_eq_some, Option.some_inj] at hstep
      obtain ⟨hrunning, rfl⟩ := hstep
      exact .of_sound h ⟨hnext.joinable, hnext.begun, fun _ => Bool.eq_false_iff.2 hrunning,
        hnext.stopped, hnext.done⟩ hsame rfl
  | stopIfRunning h =>
      simp only [exec] at hstep
      obtain ⟨hot, hhot, rfl⟩ := Option.map_eq_some_iff.1 hstep
      have hlive := hsame.hot (by simp [Stopping.Action.consumer?]) hhot
      obtain rfl := Option.some_inj.1 hhot
      exact .of_sound h
        ⟨hnext.joinable, hnext.begun, fun _ => rfl, hnext.stopped, hnext.done⟩ hlive rfl
  | shutdownFirst hdone h =>
      have hnot : s.shutdownDone = false := hk.done.trans hdone
      simp only [exec, hnot, Bool.false_eq_true, if_false, Option.some_inj] at hstep
      subst hstep
      exact .of_sound h ⟨hk.joinable, hk.begun, hk.cleared, hk.stopped, rfl⟩
        ⟨hsame.live, hsame.waiting, hsame.joined⟩ rfl
  | shutdownAgain hdone h =>
      have hyes : s.shutdownDone = true := hk.done.trans hdone
      simp only [exec, hyes, if_true, Option.some_inj] at hstep
      subst hstep
      exact .of_sound h ⟨hk.joinable, hk.begun, hk.cleared, hk.stopped, hdone.symm⟩
        ⟨hsame.live, hsame.waiting, hsame.joined⟩ rfl
  | join htold h =>
      have hjoined := hnext.join hstep
      rcases exec_join hstep with ⟨rfl, -⟩ | ⟨hended, rfl⟩
      · exact .of_sound h hjoined hsame rfl
      · exact .of_sound h hjoined (hsame.join hended) rfl

/-- What throws is in order with the destructor, too. -/
theorem Sound.of_mayThrow {k : Known n} {instr : Instr n} {rest : List (Instr n)}
    (h : Sound k (instr :: rest)) (hthrows : mayThrow instr = true) : Sound k destructorBody := by
  cases h with
  | call _ hdestructor => exact hdestructor
  | launch _ _ hdestructor => exact hdestructor
  | _ => cases hthrows

/-- **Every step keeps the invariant**, if it does not end the process. -/
theorem Inv.step (h : Inv s) {a : Action n} (ha : a.fatal = false)
    (hstep : Stepped rm s a s') : Inv s' := by
  obtain ⟨hfault, hattached, k, hk, hsound⟩ := id h
  cases hstep with
  | main hrest hexec => exact h.main hrest hexec
  | throws hrest hthrows =>
      rw [hrest] at hsound
      exact .of_sound (hsound.of_mayThrow hthrows) (hk.next _ s.fault)
        ⟨hattached.live, hattached.waiting, hattached.joined⟩ hfault
  | pushBackFails | crash => cases ha
  | closes =>
      exact .of_sound hsound ⟨hk.joinable, hk.begun, hk.cleared, hk.stopped, hk.done⟩
        (hattached.close _) hfault
  | hot hmay hhot =>
      exact .of_sound hsound ⟨hk.joinable, hk.begun,
        fun hc => Stopping.running_step hhot (hk.cleared hc), hk.stopped, hk.done⟩
        (hattached.hot (fun i => started_of_mayStep hmay) hhot) hfault

/-- **The two ends of the process**: the mark is set. -/
theorem Inv.fatal (h : Inv s) {a : Action n} (ha : a.fatal = true)
    (hstep : Stepped rm s a s') : s'.fault = true := by
  cases hstep with
  | pushBackFails hrest =>
      obtain ⟨-, -, k, hk, hsound⟩ := h
      rw [hrest] at hsound
      cases hsound with
      | emplace hbegun _ => exact decide_eq_true (hk.begun _ hbegun)
  | crash => rfl
  | _ => cases ha

/-! ### The engine is in order -/

/-- Joins of consumers that were told to stop. -/
theorem sound_joins {k : Known n} (is : List (Fin n)) {rest : List (Instr n)}
    (hcleared : k.cleared = true) (hbegun : k.begun = ∅)
    (h : Sound { k with joinable := k.joinable \ {t | t ∈ is.map Thread.consumer} } rest) :
    Sound k (is.map (fun i => Instr.join (.consumer i)) ++ rest) := by
  induction is generalizing k with
  | nil => simpa using h
  | cons i is ih =>
      refine .join hcleared (ih hcleared rfl ?_)
      have hdiff : (k.joinable \ {Thread.consumer i}) \ {t | t ∈ is.map Thread.consumer} =
          k.joinable \ {t | t ∈ (i :: is).map Thread.consumer} := by
        ext t
        simp only [Set.mem_sdiff, Set.mem_singleton_iff, Set.mem_ofPred_eq, List.map_cons,
          List.mem_cons]
        tauto
      simp only [hdiff, ← hbegun]
      exact h

/-- The body of `shutdown` joins every thread. -/
theorem sound_shutdownBody {k : Known n} (hcleared : k.cleared = true) {rest : List (Instr n)}
    (h : ∀ stopped, Sound { k with joinable := ∅, begun := ∅, stopped := stopped } rest) :
    Sound k (shutdownBody n ++ rest) := by
  have hbody : shutdownBody n ++ rest =
      .stopSocket .source :: .join (.socket .source) ::
        ((List.finRange n).map (fun i => Instr.join (.consumer i)) ++
          (Instr.clearConsumers :: .stopSocket .listener :: .join (.socket .listener) ::
            .join .gateway :: .resetGateway :: rest)) := by
    simp [shutdownBody]
  rw [hbody]
  refine .stopSocket (.join ?_ (sound_joins _ hcleared rfl (.clearConsumers ?_
    (.stopSocket (.join ?_ (.join ⟨hcleared, ?_⟩ (.resetGateway ?_ ?_)))))))
  · simp [Known.ToldToStop]
  · simp
  · simp [Known.ToldToStop]
  · simp
  · simp
  · -- every thread is one of those that were joined
    have hnone : ((((k.joinable \ {Thread.socket .source}) \
        {t | t ∈ (List.finRange n).map Thread.consumer}) \ {Thread.socket .listener}) \
        {Thread.gateway}) = ∅ := by
      ext t
      cases t with
      | socket x => cases x <;> simp
      | gateway => simp
      | consumer i => simp
    simp only [hnone]
    exact h _

/-- The destructor, when `shutdown` was not entered before. -/
theorem sound_destructorBody {k : Known n} (hdone : k.done = false) :
    Sound k destructorBody := by
  refine .stopIfRunning (.shutdownFirst hdone (sound_shutdownBody rfl fun stopped => ?_))
  exact .destroyMembers rfl (.nil rfl rfl rfl)

/-- The last instructions of `run`, and the destructor after them. -/
theorem sound_end {k : Known n} (hdone : k.done = false) :
    Sound k ([.mainLoop, .shutdown] ++ destructorBody) := by
  refine .mainLoop (.shutdownFirst hdone (sound_shutdownBody rfl fun stopped => ?_))
  exact .stopIfRunning (.shutdownAgain rfl (.destroyMembers rfl (.nil rfl rfl rfl)))

theorem sound_launchConsumers (is : List (Fin n)) (hnodup : is.Nodup) {k : Known n}
    (hnew : ∀ i ∈ is, Thread.consumer i ∉ k.joinable) (hdone : k.done = false) :
    Sound k (launchConsumersBody is ++ ([.mainLoop, .shutdown] ++ destructorBody)) := by
  induction is generalizing k with
  | nil => exact sound_end hdone
  | cons i is ih =>
      obtain ⟨hi, hnodup⟩ := List.nodup_cons.1 hnodup
      refine .call (.launch (hnew i List.mem_cons_self)
        (.emplace (Set.mem_singleton _) (ih hnodup ?_ hdone))
        (sound_destructorBody hdone)) (sound_destructorBody hdone)
      intro j hj hmem
      rcases hmem with heq | hmem
      · obtain rfl := Thread.consumer.inj heq
        exact hi hj
      · exact hnew j (List.mem_cons_of_mem i hj) hmem

/-- **The engine's instructions are in order**, for any number of symbols. -/
theorem sound_main (n : ℕ) : Sound ({} : Known n) (runBody n ++ destructorBody) := by
  have hconsumers : Sound
      { joinable := insert Thread.gateway (insert (.socket .source) (insert (.socket .listener) ∅))
        begun := {Thread.gateway} }
      (launchConsumersBody (List.finRange n) ++ ([.mainLoop, .shutdown] ++ destructorBody)) :=
    sound_launchConsumers _ (List.nodup_finRange n) (by simp) rfl
  have hbody : runBody n ++ destructorBody =
      .launch (.socket .listener) :: .call :: .launch (.socket .source) :: .launch .gateway ::
        (launchConsumersBody (List.finRange n) ++ ([.mainLoop, .shutdown] ++ destructorBody)) := by
    simp [runBody]
  rw [hbody]
  exact .launch (Set.notMem_empty _) (.call (.launch (by simp) (.launch (by simp) hconsumers
    (sound_destructorBody rfl)) (sound_destructorBody rfl)) (sound_destructorBody rfl))
    (sound_destructorBody rfl)

theorem inv_init (risk : RiskState) (consumers : Fin n → MarketEventConsumer) :
    Inv (init risk consumers) := by
  refine .of_sound (sound_main n) ⟨fun t ht => ?_, by simp, fun h => ?_, fun x h => ?_, rfl⟩
    ⟨Stopping.live_init risk consumers, fun _ _ => rfl, fun t ht => ?_⟩ rfl
  all_goals cases ‹_›

/-! ### What is waited for -/

/-- A step is one of the consumers, the gateway or the flag, or leaves these alone. -/
theorem hot_cases {a : Action n} (hstep : Stepped rm s a s') :
    (∃ b, a = .hot b ∧ Stopping.step rm s.hot b = some s'.hot) ∨
      ((∀ t, a.takenBy t = false) ∧
        (s'.hot = s.hot ∨ Stopping.step rm s.hot .clear = some s'.hot)) := by
  cases hstep with
  | hot hmay hhot => exact Or.inl ⟨_, rfl, hhot⟩
  | main hrest hexec =>
      refine Or.inr ⟨fun t => rfl, ?_⟩
      rcases exec_cases hexec with ⟨-, -, -, hhot⟩ | ⟨-, rfl⟩
      · exact hhot
      · exact Or.inl rfl
  | throws | pushBackFails | crash | closes => exact Or.inr ⟨fun t => rfl, Or.inl rfl⟩

/-- A consumer that was told to stop takes at most six more steps. -/
theorem countP_consumer_le (hlive : Stopping.Live s.hot) (hs : s.hot.queue.running = false)
    (i : Fin n) {bs : List (Action n)} (hrun : Runs.exec (step rm) s bs = some s') :
    bs.countP (Action.takenBy (.consumer i)) ≤ 6 := by
  have hstep : ∀ (u : State n) (a : Action n) (v : State n),
      (Stopping.Live u.hot ∧ u.hot.queue.running = false) → True → step rm u a = some v →
      (Stopping.Live v.hot ∧ v.hot.queue.running = false) ∧
        (a.takenBy (.consumer i)).toNat + Stopping.consumerRank v.hot i ≤
          Stopping.consumerRank u.hot i := by
    intro u a v hu _ huv
    rcases hot_cases (stepped_of_step huv) with ⟨b, rfl, hhot⟩ | ⟨hnot, heq | hhot⟩
    · exact ⟨⟨hu.1.step hhot, Stopping.running_step hhot hu.2⟩,
        hu.1.inv.consumerRank_step hu.2 hhot i⟩
    · rw [heq, hnot]
      simpa using hu
    · have hrank := hu.1.inv.consumerRank_step hu.2 hhot i
      simp only [hnot, Bool.toNat_false]
      exact ⟨⟨hu.1.step hhot, Stopping.running_step hhot hu.2⟩, le_trans (by omega) hrank⟩
  have hcount := (Runs.countP_le_of_measure hstep ⟨hlive, hs⟩ (fun _ _ => trivial) hrun).2
  have hle := Stopping.consumerRank_le s.hot i
  omega

/-- The gateway, once nothing is pushed any more. -/
theorem countP_gateway_le (hlive : Stopping.Live s.hot) (hquiet : Stopping.Quiet s.hot)
    {bs : List (Action n)} (hrun : Runs.exec (step rm) s bs = some s') :
    bs.countP (Action.takenBy .gateway) ≤ 7 * Stopping.unpopped s.hot + 19 := by
  have hstep : ∀ (u : State n) (a : Action n) (v : State n),
      (Stopping.Live u.hot ∧ Stopping.Quiet u.hot) → True → step rm u a = some v →
      (Stopping.Live v.hot ∧ Stopping.Quiet v.hot) ∧
        (a.takenBy .gateway).toNat + Stopping.gatewayRank v.hot ≤ Stopping.gatewayRank u.hot := by
    intro u a v hu _ huv
    rcases hot_cases (stepped_of_step huv) with ⟨b, rfl, hhot⟩ | ⟨hnot, heq | hhot⟩
    · obtain ⟨hquiet, hrank⟩ := hu.2.gatewayRank_step hu.1.inv hhot
      exact ⟨⟨hu.1.step hhot, hquiet⟩, hrank⟩
    · rw [heq, hnot]
      simpa using hu
    · obtain ⟨hquiet, hrank⟩ := hu.2.gatewayRank_step hu.1.inv hhot
      simp only [hnot, Bool.toNat_false]
      exact ⟨⟨hu.1.step hhot, hquiet⟩, le_trans (by omega) hrank⟩
  have hcount := (Runs.countP_le_of_measure hstep ⟨hlive, hquiet⟩ (fun _ _ => trivial) hrun).2
  have hle := Stopping.gatewayRank_le s.hot
  omega

/-- **What a thread that is waited for has left to do.**  A WebSocket was told to stop, and what it
makes of that is not ours.  A consumer or the gateway can take its next step, and has not many of
them left, whatever the other threads do. -/
def WillEnd (rm : RiskManager) (s : State n) : Thread n → Prop
  | .socket x => s.stopped x = true
  | .gateway =>
      (∃ a s', Action.takenBy .gateway a = true ∧ step rm s a = some s') ∧
        ∀ bs s', Runs.exec (step rm) s bs = some s' →
          bs.countP (Action.takenBy .gateway) ≤ 7 * Stopping.unpopped s.hot + 19
  | .consumer i =>
      (∃ a s', Action.takenBy (.consumer i) a = true ∧ step rm s a = some s') ∧
        ∀ bs s', Runs.exec (step rm) s bs = some s' →
          bs.countP (Action.takenBy (.consumer i)) ≤ 6

/-- The next step of a consumer or of the gateway. -/
theorem step_hot (hfault : s.fault = false) {b : Stopping.Action n} (hmay : mayStep s b = true)
    {hot : Stopping.State n} (hhot : Stopping.step rm s.hot b = some hot) :
    step rm s (.hot b) = some { s with hot := hot } := by
  simp [step, act, hfault, hmay, hhot]

/-- **A thread that was told to stop, and has not ended, will.** -/
theorem Inv.willEnd (h : Inv s) (rm : RiskManager) {k : Known n} (hk : Describes k s)
    {t : Thread n} (htold : k.ToldToStop t) (halive : alive s t = true) : WillEnd rm s t := by
  have hended := (alive_iff.1 halive).2
  cases t with
  | socket x => exact hk.stopped x htold
  | consumer i =>
      refine ⟨?_, fun bs s' => countP_consumer_le h.attached.live (hk.cleared htold) i⟩
      have hi : s.hot.thread i ≠ .exited := of_decide_eq_false hended
      obtain ⟨b, hot, hb, hhot⟩ := h.attached.live.consumer_enabled rm hi
      have hmay : mayStep s b = true := by
        cases b <;> simp_all [mayStep, Stopping.Action.consumer?]
      exact ⟨.hot b, _, decide_eq_true hb, step_hot h.fault hmay hhot⟩
  | gateway =>
      obtain ⟨hcleared, hnone⟩ := htold
      have hquiet : Stopping.Quiet s.hot := by
        refine ⟨hk.cleared hcleared, fun i => ?_⟩
        cases hi : s.threads (.consumer i) with
        | notStarted => exact Or.inl (h.attached.waiting i hi)
        | started => exact absurd (hk.joinable _ hi) (hnone i)
        | joined => exact Or.inr (of_decide_eq_true (h.attached.joined _ hi))
      refine ⟨?_, fun bs s' => countP_gateway_le h.attached.live hquiet⟩
      have hg : s.hot.gateway ≠ .finished := of_decide_eq_false hended
      obtain ⟨hot, hhot⟩ := h.attached.live.gateway_enabled rm hg
      exact ⟨.hot .gateway, _, rfl, step_hot (b := .gateway) h.fault halive hhot⟩

/-- **The main thread never waits for something that does not come**, but for the end of the main
loop. -/
theorem Inv.progress (h : Inv s) (rm : RiskManager) (hrest : s.rest ≠ []) :
    (∃ s', Threads.step rm s .main = some s') ∨
      (s.rest.head? = some .mainLoop ∧ s.hot.queue.running = true) ∨
      ∃ t, s.rest.head? = some (.join t) ∧ alive s t = true ∧ WillEnd rm s t := by
  obtain ⟨hfault, -, k, hk, hsound⟩ := id h
  obtain ⟨instr, rest, hs⟩ := List.exists_cons_of_ne_nil hrest
  rw [hs] at hsound
  have hmain : ∀ u, exec rm { s with rest := rest, fault := faultAfter s instr } instr = some u →
      ∃ s', Threads.step rm s .main = some s' := by
    intro u hu
    exact ⟨u, by simpa [Threads.step, act, hfault, hs] using hu⟩
  cases instr with
  | mainLoop =>
      cases hrunning : s.hot.queue.running with
      | true => exact Or.inr (Or.inl ⟨by rw [hs]; rfl, rfl⟩)
      | false => exact Or.inl (hmain _ (by simp only [exec, hrunning]; rfl))
  | join t =>
      by_cases halive : alive s t = true
      · cases hsound with
        | join htold _ =>
            exact Or.inr (Or.inr ⟨t, by rw [hs]; rfl, halive, h.willEnd rm hk htold halive⟩)
      · left
        by_cases hstarted : s.threads t = .started
        · have hended : ended s t = true := by simpa [alive, hstarted] using halive
          exact hmain _ ((if_pos hstarted).trans (if_pos hended))
        · exact hmain _ (if_neg hstarted)
  | shutdown =>
      cases hdone : s.shutdownDone with
      | true => exact Or.inl (hmain _ (if_pos hdone))
      | false => exact Or.inl (hmain _ (if_neg (by simp [hdone])))
  | _ => exact Or.inl (hmain _ rfl)

/-! ### How much the main thread does -/

/-- What an instruction counts: one that may throw counts for more than the destructor. -/
def weight : Instr n → ℕ
  | .call => 4
  | .launch _ => 4
  | .emplace _ => 4
  | _ => 1

/-- What is still to be done by the main thread, and in a body of `shutdown` that was not
entered. -/
def work (s : State n) : ℕ :=
  (s.rest.map weight).sum + (if s.shutdownDone then 0 else ((shutdownBody n).map weight).sum)

/-- The body of `shutdown` is entered once. -/
def Once (s : State n) : Prop := s.shutdowns = s.shutdownDone.toNat

theorem Once.step (h : Once s) {a : Action n} (hstep : Stepped rm s a s') : Once s' := by
  cases hstep with
  | @main instr rest _ hrest hexec =>
      rcases exec_cases hexec with ⟨-, hdone, hcount, -⟩ | ⟨hdone, rfl⟩
      · rw [Once, hcount, hdone]
        exact h
      · have hnone : s.shutdownDone = false := hdone
        simpa [Once, hnone] using h
  | _ => exact h

/-! ### Every run -/

end Threads

end Trading
