/-
**The nodes of the queue are freed exactly once.**

`LockFreeMPSCQueue` deletes a node as soon as `tail_` has moved past it, with nothing that protects
a reader.  It can do so because a node is passed only over its stored link, the one access that
another thread still owed it.

An address may be allocated again, so that an access through an old pointer would not show as an
access to a missing node.  `Held` therefore lists all pointers that anyone may still follow, closed
under the links: in no state is one of them to a deleted node, hence no node is deleted between the
time that a pointer to it is taken and its last use.

Main definitions:

* `Trading.Mpsc.accesses`, `Trading.Mpsc.deletes` — the nodes that an action reads, writes or
  deletes;
* `Trading.Mpsc.Held` — the pointers that may still be followed;
* `Trading.Mpsc.Accounted` — every node is in the queue, with its producer, or about to be deleted;
* `Trading.Mpsc.Reclaimed` — what holds of the memory after a run.

Main results:

* `Trading.Mpsc.Inv.live_of_held` — no pointer dangles;
* `Trading.Mpsc.Accounted.step` — every step keeps track of every node;
* `Trading.Mpsc.destructor_ends` — the destructor comes to its end;
* `Trading.Mpsc.queue_nodes_freed_once` — **every node is freed exactly once, and not touched
  afterwards.**
-/

import TradingAlgo.MpscFifo

set_option relaxedAutoImplicit false
set_option autoImplicit false

namespace Trading

namespace Mpsc

variable {n : ℕ} {T : Type}

/-! ### What an action does to the memory -/

/-- The nodes that an action reads or writes; a new node is written by its own allocation. -/
def accesses (s : State n T) : Action n T → List Addr
  | .link p =>
      match s.producer p with
      | .exchanged _ prevHead => [prevHead]
      | _ => []
  | .consume =>
      match s.consumer with
      | .loadingNext _ => [s.tail]
      | .copying _ next => [next]
      | _ => []
  | _ => []

/-- The nodes that an action deletes. -/
def deletes (s : State n T) : Action n T → List Addr
  | .consume =>
      match s.consumer with
      | .deleting _ tail _ => if tail = stub then [] else [tail]
      | .deletingTail => if s.tail = stub then [] else [s.tail]
      | _ => []
  | _ => []

/-- The nodes that an action allocates. -/
def allocates : Action n T → List Addr
  | .allocate _ _ node => [node]
  | _ => []

/-- All allocations of a run. -/
def allocations (as : List (Action n T)) : List Addr := as.flatMap allocates

/-- All deletions of a run. -/
def deletions : State n T → List (Action n T) → List Addr
  | _, [] => []
  | s, a :: as =>
      deletes s a ++
        match step s a with
        | some t => deletions t as
        | none => []

/-- Whether there is a node at an address, as a number. -/
def live (s : State n T) (x : Addr) : ℕ := if (s.heap x).isSome then 1 else 0

/-- The pointers that may still be followed: `tail_`, `head_`, those that a thread holds, and the
links of the nodes that these lead to, behind a gap too.  Of the node that is being deleted the link
is not read any more. -/
inductive Held (s : State n T) : Addr → Prop
  | tail : s.consumer ≠ .destroyed → Held s s.tail
  | head : s.consumer ≠ .destroyed → Held s s.head
  | allocated {p : Fin n} {node : Addr} {value : T} :
      s.producer p = .allocated node value → Held s node
  | exchanged {p : Fin n} {node prevHead : Addr} :
      s.producer p = .exchanged node prevHead → Held s node
  | owed {p : Fin n} {node prevHead : Addr} :
      s.producer p = .exchanged node prevHead → Held s prevHead
  | copying {call : Call} {next : Addr} : s.consumer = .copying call next → Held s next
  | advancing {call : Call} {next : Addr} {value : T} :
      s.consumer = .advancing call next value → Held s next
  | deleting {call : Call} {tail : Addr} {value : T} :
      s.consumer = .deleting call tail value → Held s tail
  | link {a b : Addr} : Held s a → (∀ call value, s.consumer ≠ .deleting call a value) →
      nextOf s.heap a = some b → Held s b

section Pointers

variable {s : State n T} {a : Action n T} {x : Addr}

/-- Whatever is accessed is accessed through a pointer that is held. -/
theorem held_of_access (hx : x ∈ accesses s a) : Held s x := by
  unfold accesses at hx
  split at hx
  · split at hx
    · rename_i hp
      obtain rfl := List.mem_singleton.1 hx
      exact .owed hp
    · cases hx
  · split at hx
    · rename_i hc
      obtain rfl := List.mem_singleton.1 hx
      exact .tail (by simp [hc])
    · rename_i hc
      obtain rfl := List.mem_singleton.1 hx
      exact .copying hc
    · cases hx
  · cases hx

/-- A node is deleted behind `tail_`, or as the last one by the destructor; the stub never. -/
theorem deletes_cases (hx : x ∈ deletes s a) :
    x ≠ stub ∧ ((∃ call value, s.consumer = .deleting call x value) ∨
      (s.consumer = .deletingTail ∧ x = s.tail)) := by
  unfold deletes at hx
  split at hx
  · split at hx
    · rename_i hc
      split_ifs at hx with hstub
      · cases hx
      · obtain rfl := List.mem_singleton.1 hx
        exact ⟨hstub, Or.inl ⟨_, _, hc⟩⟩
    · rename_i hc
      split_ifs at hx with hstub
      · cases hx
      · obtain rfl := List.mem_singleton.1 hx
        exact ⟨hstub, Or.inr ⟨hc, rfl⟩⟩
    · cases hx
  · cases hx

theorem held_of_delete (hx : x ∈ deletes s a) : Held s x := by
  rcases (deletes_cases hx).2 with ⟨call, value, hc⟩ | ⟨hc, rfl⟩
  · exact .deleting hc
  · exact .tail (by simp [hc])

end Pointers

/-! ### No pointer dangles -/

section Safety

variable [Inhabited T] {s t : State n T} {chain : List Addr}

/-- A link that is stored in the queue leads to the next node of it. -/
theorem Inv.next_mem (h : Inv s chain) {a b : Addr} (ha : a ∈ chain)
    (hnext : nextOf s.heap a = some b) : b ∈ chain := by
  have hlast : chain.getLast? ≠ some a := by
    intro hlast
    obtain rfl : s.head = a := Option.some_inj.1 (h.head.symm.trans hlast)
    simp [h.last] at hnext
  obtain ⟨c, hc⟩ := Consecutive.exists_right ha hlast
  rcases h.linked a c hc with heq | ⟨hnone, -⟩
  · obtain rfl : c = b := Option.some_inj.1 (heq.symm.trans hnext)
    exact hc.subset (by simp)
  · simp [hnone] at hnext

/-- The two nodes of a push under way are in the queue. -/
theorem Inv.mem_of_exchanged (h : Inv s chain) {p : Fin n} {node prevHead : Addr}
    (hp : s.producer p = .exchanged node prevHead) :
    s.consumer ≠ .destroyed ∧ prevHead ∈ chain ∧ node ∈ chain := by
  have hpair := (h.exchanged p node prevHead hp).1
  exact ⟨ne_destroyed (h.not_destroying p (by simp [hp])), hpair.subset (by simp),
    hpair.subset (by simp)⟩

/-- What is held is in the queue, with the producer that allocated it, or about to be deleted. -/
theorem Inv.held_cases (h : Inv s chain) {x : Addr} (hx : Held s x) :
    (s.consumer ≠ .destroyed ∧ x ∈ chain) ∨ (∃ p v, s.producer p = .allocated x v) ∨
      ∃ call v, s.consumer = .deleting call x v := by
  have hst := h.stands
  induction hx with
  | tail hd => exact Or.inl ⟨hd, List.mem_of_head? h.tail⟩
  | head hd => exact Or.inl ⟨hd, List.mem_of_getLast? h.head⟩
  | allocated hp => exact Or.inr (Or.inl ⟨_, _, hp⟩)
  | exchanged hp =>
      obtain ⟨hd, -, hnode⟩ := h.mem_of_exchanged hp
      exact Or.inl ⟨hd, hnode⟩
  | owed hp =>
      obtain ⟨hd, hprev, -⟩ := h.mem_of_exchanged hp
      exact Or.inl ⟨hd, hprev⟩
  | copying hc =>
      simp only [Stands, hc] at hst
      exact Or.inl ⟨by simp [hc], hst.1.subset (by simp)⟩
  | advancing hc =>
      simp only [Stands, hc] at hst
      exact Or.inl ⟨by simp [hc], hst.1.subset (by simp)⟩
  | deleting hc => exact Or.inr (Or.inr ⟨_, _, hc⟩)
  | link _ hkept hnext ih =>
      rcases ih with ⟨hd, hmem⟩ | ⟨p, v, hp⟩ | ⟨call, v, hc⟩
      · exact Or.inl ⟨hd, h.next_mem hmem hnext⟩
      · -- a node that is not in the queue yet has no link
        simp [nextOf, (h.allocated p _ v hp).1] at hnext
      · exact absurd hc (hkept call v)

/-- **No pointer dangles.** -/
theorem Inv.live_of_held (h : Inv s chain) {x : Addr} (hx : Held s x) : (s.heap x).isSome := by
  rcases h.held_cases hx with ⟨hd, hmem⟩ | ⟨p, v, hp⟩ | ⟨call, v, hc⟩
  · exact h.live hd x hmem
  · simp [(h.allocated p x v hp).1]
  · have hst := h.stands
    simp only [Stands, hc] at hst
    exact hst.2.1

/-- Nobody owes a link to a node that is deleted. -/
theorem Inv.not_owed (h : Inv s chain) {a : Action n T} {x : Addr} (hx : x ∈ deletes s a)
    (p : Fin n) (node : Addr) : s.producer p ≠ .exchanged node x := by
  intro hp
  rcases (deletes_cases hx).2 with ⟨call, value, hc⟩ | ⟨hc, -⟩
  · have hst := h.stands
    simp only [Stands, hc] at hst
    exact hst.1 (Consecutive.mem_left (h.exchanged p node x hp).1)
  · have hidle := h.quiet (by simp [hc, Consumer.destroying]) p
    simp [hidle] at hp

end Safety

/-! ### Every node is accounted for -/

/-- Every node is in the queue, with the producer that allocated it, or about to be deleted. -/
def Accounted (s : State n T) (chain : List Addr) : Prop :=
  ∀ x, x ≠ stub → (s.heap x).isSome →
    (s.consumer ≠ .destroyed ∧ x ∈ chain) ∨ (∃ p v, s.producer p = .allocated x v) ∨
      ∃ call v, s.consumer = .deleting call x v

theorem accounted_init [Inhabited T] : Accounted (init n T) [stub] := by
  intro x hx hlive
  simp [init, Function.update_of_ne hx] at hlive

theorem free_heap_self (s : State n T) {a : Addr} (ha : a ≠ stub) : (free s a).heap a = none := by
  unfold free
  rw [if_neg ha]
  cases hnode : s.heap a with
  | none => exact hnode
  | some node => exact Function.update_self a none s.heap

theorem free_heap_of_ne (s : State n T) {a x : Addr} (hx : x ≠ a) :
    (free s a).heap x = s.heap x := by
  unfold free
  split_ifs
  · rfl
  · cases hnode : s.heap a with
    | none => rfl
    | some node => exact Function.update_of_ne hx none s.heap

/-- What is there after a `delete` was there before, and is something else. -/
theorem live_of_free (s : State n T) {a x : Addr} (hx : x ≠ stub)
    (hlive : ((free s a).heap x).isSome) : x ≠ a ∧ (s.heap x).isSome := by
  have hne : x ≠ a := by
    rintro rfl
    simp [free_heap_self s hx] at hlive
  rw [free_heap_of_ne s hne] at hlive
  exact ⟨hne, hlive⟩

/-- The consumer moves on without a node in its hand. -/
theorem Accounted.move {s : State n T} {chain : List Addr} (h : Accounted s chain) {c : Consumer T}
    (hc : ∀ call a v, s.consumer ≠ .deleting call a v) (hd : c ≠ .destroyed) :
    Accounted { s with consumer := c } chain := by
  intro x hx hlive
  rcases h x hx hlive with ⟨-, hmem⟩ | halloc | ⟨call, v, hdel⟩
  · exact Or.inl ⟨hd, hmem⟩
  · exact Or.inr (Or.inl halloc)
  · exact absurd hdel (hc call x v)

section Account

variable [Inhabited T] {s t : State n T} {chain : List Addr}

theorem Accounted.consume (h : Accounted s chain) (hinv : Inv s chain)
    (hstep : Mpsc.consume s = some t) : Accounted t (chainAfter s chain .consume) := by
  have hst := hinv.stands
  cases consumed_of_consume hstep with
  | missingTail hc hnode =>
      have hlive := hinv.live_of_held (.tail (by simp [hc]))
      simp [hnode] at hlive
  | missingNext hc hnode =>
      have hlive := hinv.live_of_held (.copying hc)
      simp [hnode] at hlive
  | @null call node hc hnode hnext =>
      simp only [chainAfter, hc]
      exact h.move (by simp [hc]) (by cases call <;> simp [Call.onNull])
  | linked hc hnode hnext =>
      simp only [chainAfter, hc]
      exact h.move (by simp [hc]) (by simp)
  | loadedRunning hc =>
      simp only [chainAfter, hc]
      exact h.move (by simp [hc]) (by split_ifs <;> simp)
  | loadedHead hc =>
      simp only [chainAfter, hc]
      exact h.move (by simp [hc]) (by split_ifs <;> simp)
  | copied hc hnode =>
      simp only [chainAfter, hc]
      exact h.move (by simp [hc]) (by simp)
  | @advanced call next value hc =>
      -- the first node leaves the queue and is the one to be deleted
      simp only [Stands, hc] at hst
      obtain ⟨⟨rest, rfl⟩, -⟩ := hst
      simp only [chainAfter, hc]
      intro x hx hlive
      rcases h x hx hlive with ⟨-, hmem⟩ | halloc | ⟨call', v, hdel⟩
      · rcases List.mem_cons.1 hmem with rfl | hmem
        · exact Or.inr (Or.inr ⟨call, value, rfl⟩)
        · exact Or.inl ⟨by simp, hmem⟩
      · exact Or.inr (Or.inl halloc)
      · simp [hc] at hdel
  | @deleted call tail value hc =>
      simp only [chainAfter, hc]
      intro x hx hlive
      obtain ⟨hne, hlive'⟩ := live_of_free s hx hlive
      have hproducer := (free_frame s tail).2.2.1
      rcases h x hx hlive' with ⟨-, hmem⟩ | ⟨p, v, hp⟩ | ⟨call', v, hdel⟩
      · exact Or.inl ⟨by cases call <;> simp [Call.onPopped], hmem⟩
      · exact Or.inr (Or.inl ⟨p, v, (congrFun hproducer p).trans hp⟩)
      · rw [hc] at hdel
        cases hdel
        exact absurd rfl hne
  | deletedTail hc =>
      simp only [Stands, hc] at hst
      intro x hx hlive
      obtain ⟨hne, hlive'⟩ := live_of_free s hx hlive
      rcases h x hx hlive' with ⟨-, hmem⟩ | ⟨p, v, hp⟩ | ⟨call', v, hdel⟩
      · rw [hst] at hmem
        exact absurd (List.mem_singleton.1 hmem) hne
      · have hidle := hinv.quiet (by simp [hc, Consumer.destroying]) p
        simp [hidle] at hp
      · simp [hc] at hdel

/-- **Every step keeps track of every node.** -/
theorem Accounted.step (h : Accounted s chain) (hinv : Inv s chain) {a : Action n T}
    (hstep : Mpsc.step s a = some t) : Accounted t (chainAfter s chain a) := by
  cases stepped_of_step hstep with
  | @allocated p value node hp _ _ =>
      intro x hx hlive
      by_cases hnode : x = node
      · subst hnode
        exact Or.inr (Or.inl ⟨p, value, Function.update_self _ _ _⟩)
      · have hlive' : (s.heap x).isSome := by simpa [Function.update_of_ne hnode] using hlive
        refine (h x hx hlive').imp_right (Or.imp_left ?_)
        rintro ⟨q, v, hq⟩
        exact ⟨q, v, update_producer_of_ne _ hq (by simp [hp])⟩
  | @exchanged p node value hp =>
      have hnd : s.consumer ≠ .destroyed := ne_destroyed (hinv.not_destroying p (by simp [hp]))
      simp only [chainAfter, hp]
      intro x hx hlive
      rcases h x hx hlive with ⟨-, hmem⟩ | ⟨q, v, hq⟩ | hdel
      · exact Or.inl ⟨hnd, List.mem_append_left _ hmem⟩
      · by_cases hqp : q = p
        · -- the node of the push is now in the queue
          subst hqp
          obtain ⟨rfl, -⟩ := Producer.allocated.inj (hp.symm.trans hq)
          exact Or.inl ⟨hnd, by simp⟩
        · exact Or.inr (Or.inl ⟨q, v, (Function.update_of_ne hqp _ _).trans hq⟩)
      · exact Or.inr (Or.inr hdel)
  | missingPrev => exact h
  | @linked p node prevHead prev hp hprev =>
      intro x hx hlive
      have hlive' : (s.heap x).isSome := by
        by_cases hxp : x = prevHead
        · simp [hxp, hprev]
        · simpa [Function.update_of_ne hxp] using hlive
      refine (h x hx hlive').imp_right (Or.imp_left ?_)
      rintro ⟨q, v, hq⟩
      exact ⟨q, v, update_producer_of_ne _ hq (by simp [hp])⟩
  | called hready _ =>
      refine h.move ?_ (by simp)
      intro call x v hc
      simp [hc, Consumer.ready] at hready
  | consumed hconsume => exact h.consume hinv hconsume
  | setRunning b => exact h

end Account

/-! ### Allocations and deletions balance -/

theorem live_free_self (s : State n T) {x : Addr} (hx : x ≠ stub) : live (free s x) x = 0 := by
  simp [live, free_heap_self s hx]

theorem live_free_of_ne (s : State n T) {a x : Addr} (hx : x ≠ a) :
    live (free s a) x = live s x := by
  simp [live, free_heap_of_ne s hx]

/-- `delete` of a node that is there. -/
theorem live_eq_free (s : State n T) (a : Addr) (hlive : (s.heap a).isSome) {x : Addr}
    (hx : x ≠ stub) : live s x = (if a = stub then [] else [a]).count x + live (free s a) x := by
  by_cases hxa : x = a
  · subst hxa
    rw [live_free_self s hx]
    simp [live, hlive, hx]
  · rw [live_free_of_ne s hxa]
    split_ifs <;> simp [Ne.symm hxa]

theorem stub_not_mem_deletions (s : State n T) (as : List (Action n T)) :
    stub ∉ deletions s as := by
  induction as generalizing s with
  | nil => exact List.not_mem_nil
  | cons a as ih =>
      intro hmem
      rcases List.mem_append.1 hmem with hmem | hmem
      · exact (deletes_cases hmem).1 rfl
      · cases hu : step s a with
        | none => simp [hu] at hmem
        | some u =>
            rw [hu] at hmem
            exact ih u hmem

section Balance

variable [Inhabited T] {s t : State n T} {chain : List Addr}

/-- One step: a node that is there now was there before, or was allocated, and was not deleted. -/
theorem balance_step (h : Inv s chain) {a : Action n T} (hstep : step s a = some t) {x : Addr}
    (hx : x ≠ stub) :
    (allocates a).count x + live s x = (deletes s a).count x + live t x := by
  cases stepped_of_step hstep with
  | @allocated p value node _ hfree _ =>
      by_cases hnode : x = node
      · subst hnode
        simp [allocates, deletes, live, hfree]
      · simp [allocates, deletes, live, Function.update_of_ne hnode, Ne.symm hnode]
  | @linked p node prevHead prev _ hprev =>
      by_cases hxp : x = prevHead
      · subst hxp
        simp [allocates, deletes, live, hprev]
      · simp [allocates, deletes, live, Function.update_of_ne hxp]
  | consumed hconsume =>
      cases consumed_of_consume hconsume with
      | @deleted call tail value hc =>
          have hlive := h.live_of_held (.deleting hc)
          simpa [allocates, deletes, hc, live] using live_eq_free s tail hlive hx
      | deletedTail hc =>
          have hlive := h.live_of_held (.tail (by simp [hc]))
          simpa [allocates, deletes, hc, live] using live_eq_free s s.tail hlive hx
      | _ =>
          rename_i hc
          simp_all [allocates, deletes, live]
  | exchanged | missingPrev | called | setRunning => rfl

/-- **Allocations and deletions balance**, over a whole run. -/
theorem balance {as : List (Action n T)} (h : Inv s chain)
    (hrun : Runs.exec step s as = some t) {x : Addr} (hx : x ≠ stub) :
    (allocations as).count x + live s x = (deletions s as).count x + live t x := by
  induction as generalizing s chain with
  | nil =>
      obtain rfl := Option.some_inj.1 hrun
      rfl
  | cons a as ih =>
      obtain ⟨u, hu, hut⟩ := Option.bind_eq_some_iff.1 hrun
      have hrest := ih (h.step_chainAfter hu) hut
      have hone := balance_step h hu hx
      simp only [allocations, List.flatMap_cons, List.count_append, deletions, hu] at hrest ⊢
      omega

end Balance

/-! ### The destructor -/

section Destructor

variable [Inhabited T]

/-- The destructor pops the second node. -/
theorem destructor_pops {s : State n T} {chain : List Addr} (h : Inv s chain)
    (hc : s.consumer = .loadingNext .destroy) {next : Addr}
    (hnext : nextOf s.heap s.tail = some next) :
    ∃ t, Runs.exec step s (List.replicate 4 .consume) = some t ∧
      t.consumer = .loadingNext .destroy ∧ Inv t chain.tail := by
  obtain ⟨node, hnode⟩ := Option.isSome_iff_exists.1
    (h.live_of_held (.tail (by simp [hc])))
  have hlink : node.next = some next := by simpa [nextOf, hnode] using hnext
  obtain ⟨node', hnode'⟩ := Option.isSome_iff_exists.1
    (h.live_of_held (.link (.tail (by simp [hc])) (by simp [hc]) hnext))
  -- load the link, copy the value, advance, delete
  have h1 : Mpsc.consume s = some { s with consumer := .copying .destroy next } := by
    simp [Mpsc.consume, hc, hnode, hlink]
  have hinv1 : Inv { s with consumer := .copying .destroy next } chain := by
    simpa [chainAfter, hc] using h.consume h1
  have h2 : Mpsc.consume { s with consumer := .copying .destroy next } =
      some { s with consumer := .advancing .destroy next node'.data } := by
    simp [Mpsc.consume, hnode']
  have hinv2 := hinv1.consume h2
  have hinv3 := hinv2.consume rfl
  have hinv4 := hinv3.consume rfl
  refine ⟨_, ?_, rfl, hinv4⟩
  simp only [List.replicate, Runs.exec_cons, step, h1, h2, Option.bind_some]
  rfl

/-- **The destructor comes to its end.** -/
theorem destructor_ends {s : State n T} {chain : List Addr} (h : Inv s chain)
    (hc : s.consumer = .loadingNext .destroy) :
    ∃ k t, Runs.exec step s (List.replicate k .consume) = some t ∧ t.consumer = .destroyed := by
  induction hlen : chain.length generalizing s chain with
  | zero =>
      have hnil := List.eq_nil_of_length_eq_zero hlen
      have hhead := h.head
      simp [hnil] at hhead
  | succ m ih =>
      cases hnext : nextOf s.heap s.tail with
      | none =>
          obtain ⟨node, hnode⟩ := Option.isSome_iff_exists.1
            (h.live_of_held (.tail (by simp [hc])))
          have hnull : node.next = none := by simpa [nextOf, hnode] using hnext
          have h1 : Mpsc.consume s = some { s with consumer := .deletingTail } := by
            simp [Mpsc.consume, hc, hnode, hnull, Call.onNull]
          have h2 : Runs.exec step s (List.replicate 2 .consume) =
              some { free { s with consumer := .deletingTail } s.tail with
                consumer := .destroyed } := by
            simp only [List.replicate, Runs.exec_cons, step, h1, Option.bind_some]
            rfl
          exact ⟨2, _, h2, rfl⟩
      | some next =>
          obtain ⟨u, hu, hcu, hinv⟩ := destructor_pops h hc hnext
          obtain ⟨k, t, hrun, ht⟩ := ih hinv hcu (by simp [hlen])
          refine ⟨4 + k, t, ?_, ht⟩
          rw [List.replicate_add, Runs.exec_append hu]
          exact hrun

end Destructor

/-! ### Every run -/

/-- What holds of the memory after the run `as` that led to `s`. -/
structure Reclaimed [Inhabited T] (as : List (Action n T)) (s : State n T) : Prop where
  /-- Nothing that does not exist was accessed or deleted, -/
  no_fault : s.fault = false
  /-- nor will it be by the next action: the node is there, deleted once less than allocated. -/
  accessed : ∀ a, ∀ x ∈ accesses s a, (s.heap x).isSome ∧
    (x ≠ stub → (allocations as).count x = (deletions (init n T) as).count x + 1)
  /-- No pointer that may still be followed is to a deleted node. -/
  held : ∀ x, Held s x → (s.heap x).isSome
  /-- What is deleted is there, it is not the stub, and no producer owes it a link. -/
  deleted : ∀ a, ∀ x ∈ deletes s a, (s.heap x).isSome ∧ x ≠ stub ∧
    ∀ p node, s.producer p ≠ .exchanged node x
  /-- The stub is never deleted. -/
  stub_kept : (s.heap stub).isSome ∧ stub ∉ deletions (init n T) as
  /-- Every node is deleted at most once: what was allocated was deleted or is still there. -/
  balanced : ∀ x, x ≠ stub →
    (allocations as).count x = (deletions (init n T) as).count x + live s x
  /-- After the destructor everything that was allocated has been deleted. -/
  all_deleted : s.consumer = .destroyed → ∀ x, x ≠ stub → s.heap x = none ∧
    (allocations as).count x = (deletions (init n T) as).count x
  /-- Once everyone has finished, the destructor comes to its end. -/
  destructor : s.consumer.ready → (∀ p, s.producer p = .idle) → ∃ k t,
    Runs.exec step s (.call .destroy :: List.replicate k .consume) = some t ∧
      t.consumer = .destroyed

/-- **Every node is freed exactly once, and not touched afterwards**, for any number of producers,
one consumer and any interleaving of their steps. -/
theorem queue_nodes_freed_once [Inhabited T] (as : List (Action n T)) (s : State n T)
    (hrun : Runs.exec step (init n T) as = some s) : Reclaimed as s := by
  obtain ⟨chain, h, hacc⟩ := Runs.exec_inv
    (I := fun s : State n T => ∃ chain, Inv s chain ∧ Accounted s chain)
    (fun s a t hI hst => hI.elim fun chain hI =>
      ⟨_, hI.1.step_chainAfter hst, hI.2.step hI.1 hst⟩)
    ⟨_, inv_init, accounted_init⟩ hrun
  have hbalance : ∀ x, x ≠ stub →
      (allocations as).count x = (deletions (init n T) as).count x + live s x := by
    intro x hx
    have hinit : live (init n T) x = 0 := by simp [live, init, Function.update_of_ne hx]
    have hrest := balance inv_init hrun hx
    rwa [hinit, Nat.add_zero] at hrest
  refine ⟨h.fault, ?_, fun x hx => h.live_of_held hx, ?_, ⟨h.stub, stub_not_mem_deletions _ _⟩,
    hbalance, ?_, ?_⟩
  · intro a x hx
    have hlive := h.live_of_held (held_of_access hx)
    refine ⟨hlive, fun hstub => ?_⟩
    simpa [live, hlive] using hbalance x hstub
  · intro a x hx
    exact ⟨h.live_of_held (held_of_delete hx), (deletes_cases hx).1, h.not_owed hx⟩
  · intro hd x hx
    have hnone : s.heap x = none := by
      by_contra hsome
      have hidle := h.quiet (by simp [hd, Consumer.destroying])
      rcases hacc x hx (Option.isSome_iff_ne_none.2 hsome) with
        ⟨hnd, -⟩ | ⟨p, v, hp⟩ | ⟨call, v, hdel⟩
      · exact hnd hd
      · simp [hidle p] at hp
      · simp [hd] at hdel
    refine ⟨hnone, ?_⟩
    simpa [live, hnone] using hbalance x hx
  · intro hready hidle
    have hcall : step s (.call .destroy) = some { s with consumer := .loadingNext .destroy } := by
      simp [step, hready, hidle, Producer.isIdle]
    obtain ⟨k, t, hend, ht⟩ := destructor_ends (h.step_chainAfter hcall) rfl
    exact ⟨k, t, by rw [Runs.exec_cons, hcall]; exact hend, ht⟩

/-- A push whose link comes late, a pop, a second push at the address that the pop has freed, and
the destructor. -/
theorem queue_nodes_freed_once_for_one_producer :
    let as : List (Action 1 ℕ) :=
      [.allocate 0 10 1, .exchange 0, .link 0, .allocate 0 20 2, .exchange 0, .link 0,
        .call .tryPop, .consume, .consume, .consume, .consume,
        .call .tryPop, .consume, .consume, .consume, .consume,
        .allocate 0 30 1, .exchange 0, .link 0, .call .destroy] ++ List.replicate 6 .consume
    ∃ s, Runs.exec step (init 1 ℕ) as = some s ∧ s.consumer = .destroyed ∧
      deletions (init 1 ℕ) as = [1, 2, 1] ∧ Reclaimed as s := by
  intro as
  have hrun : (Runs.exec step (init 1 ℕ) as).any (fun s => s.consumer = .destroyed) = true := by
    decide +kernel
  obtain ⟨s, hs, hend⟩ := (Option.any_eq_true _ _).1 hrun
  exact ⟨s, hs, of_decide_eq_true hend, by decide +kernel, queue_nodes_freed_once as s hs⟩

end Mpsc

end Trading
