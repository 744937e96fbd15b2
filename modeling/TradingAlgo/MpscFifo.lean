/-
**The queue is first in, first out.**

Between the exchange of `head_` and the store of the link the list of the queue is in pieces.  What
holds it together is the order of the exchanges: the invariant lists the nodes from `tail_` to
`head_` in that order, and says of every two consecutive ones that the link between them is stored
or owed by a producer.

Main definitions:

* `Trading.Mpsc.Inv` — the invariant;
* `Trading.Mpsc.Issued` — each producer's values in its own order.

Main results:

* `Trading.Mpsc.Inv.step_chainAfter` — every step keeps the invariant;
* `Trading.Mpsc.returned_none_cases` — the steps at which a call answers that there is nothing;
* `Trading.mpsc_queue_is_fifo` — no value is lost, duplicated or reordered, and an empty answer
  means that the queue was empty.
-/

import TradingAlgo.Consecutive
import TradingAlgo.MpscQueue
import TradingAlgo.Runs

set_option relaxedAutoImplicit false
set_option autoImplicit false

namespace Trading

namespace Mpsc

variable {n : ℕ} {T : Type}

/-! ### The invariant -/

/-- What the consumer relies on where it stands, given the nodes from `tail_` to `head_`. -/
def Stands [Inhabited T] (s : State n T) (chain : List Addr) : Prop :=
  match s.consumer with
  | .copying _ next => [s.tail, next] <+: chain ∧ nextOf s.heap s.tail = some next
  | .advancing _ next value =>
      [s.tail, next] <+: chain ∧ nextOf s.heap s.tail = some next ∧ dataOf s.heap next = value
  | .deleting _ tail _ =>
      tail ∉ chain ∧ (s.heap tail).isSome ∧ ∀ p v, s.producer p ≠ .allocated tail v
  | .deletingTail => chain = [s.tail]
  | .destroyed => chain = [s.tail]
  | _ => True

/-- **The invariant of the queue.**  `chain` lists the nodes from `tail_` to `head_` in the order of
their exchanges; the values after the first are those pushed and not yet popped. -/
structure Inv [Inhabited T] (s : State n T) (chain : List Addr) : Prop where
  fault : s.fault = false
  head : chain.getLast? = some s.head
  tail : chain.head? = some s.tail
  nodup : chain.Nodup
  live : s.consumer ≠ .destroyed → ∀ a ∈ chain, (s.heap a).isSome
  stub : (s.heap stub).isSome
  linked : ∀ a b, [a, b] <:+: chain →
    nextOf s.heap a = some b ∨ nextOf s.heap a = none ∧ ∃ p, s.producer p = .exchanged b a
  last : nextOf s.heap s.head = none
  values : s.pushed.map Prod.snd = s.popped ++ chain.tail.map (dataOf s.heap)
  allocated : ∀ p node v, s.producer p = .allocated node v →
    s.heap node = some ⟨none, v⟩ ∧ node ∉ chain ∧ node ≠ Mpsc.stub
  allocated_inj : ∀ p q node v w, s.producer p = .allocated node v →
    s.producer q = .allocated node w → p = q
  exchanged : ∀ p node prevHead, s.producer p = .exchanged node prevHead →
    [prevHead, node] <:+: chain ∧ nextOf s.heap prevHead = none
  exchanged_inj : ∀ p q node node' prevHead, s.producer p = .exchanged node prevHead →
    s.producer q = .exchanged node' prevHead → p = q
  quiet : s.consumer.destroying → ∀ p, s.producer p = .idle
  stands : Stands s chain

section Steps

variable [Inhabited T] {s t : State n T} {chain : List Addr}

theorem inv_init : Inv (init n T) [Mpsc.stub] where
  fault := rfl
  head := rfl
  tail := rfl
  nodup := by simp
  live := by
    intro _ a ha
    obtain rfl : a = Mpsc.stub := by simpa using ha
    simp [init]
  stub := by simp [init]
  linked := by
    intro a b hab
    rw [Consecutive.cons_iff] at hab
    simp at hab
  last := by simp [nextOf, init]
  values := rfl
  allocated := by
    intro p node v hp
    cases hp
  allocated_inj := by
    intro p q node v w hp
    cases hp
  exchanged := by
    intro p node prevHead hp
    cases hp
  exchanged_inj := by
    intro p q node node' prevHead hp
    cases hp
  quiet := fun _ _ => rfl
  stands := trivial

/-- A step that leaves the nodes of the chain and of the producers alone: of the consumer, or on
other addresses. -/
theorem Inv.frame (h : Inv s chain) (hd : s.consumer ≠ .destroyed)
    {heap : Addr → Option (Node T)} (hchain : ∀ a ∈ chain, heap a = s.heap a)
    (hstub : (heap Mpsc.stub).isSome)
    (halloc : ∀ p node v, s.producer p = .allocated node v → heap node = s.heap node)
    {c : Consumer T} (hquiet : c.destroying → ∀ p, s.producer p = .idle)
    (hstands : Stands { s with heap := heap, consumer := c } chain) :
    Inv { s with heap := heap, consumer := c } chain := by
  have hnext : ∀ a ∈ chain, nextOf heap a = nextOf s.heap a := fun a ha => by
    rw [nextOf, nextOf, hchain a ha]
  constructor
  case fault => exact h.fault
  case head => exact h.head
  case tail => exact h.tail
  case nodup => exact h.nodup
  case live => exact fun _ a ha => (congrArg Option.isSome (hchain a ha)).trans (h.live hd a ha)
  case stub => exact hstub
  case linked =>
    intro a b hab
    show nextOf heap a = some b ∨ nextOf heap a = none ∧ _
    rw [hnext a (Consecutive.mem_left hab)]
    exact h.linked a b hab
  case last => exact (hnext _ (List.mem_of_getLast? h.head)).trans h.last
  case values =>
    refine h.values.trans (congrArg (s.popped ++ ·) (List.map_congr_left fun a ha => ?_))
    simp only [dataOf, hchain a (List.mem_of_mem_tail ha)]
  case allocated =>
    intro q node v hq
    obtain ⟨hheap, hrest⟩ := h.allocated q node v hq
    exact ⟨(halloc q node v hq).trans hheap, hrest⟩
  case allocated_inj => exact h.allocated_inj
  case exchanged =>
    intro q node prevHead hq
    obtain ⟨hpair, hnone⟩ := h.exchanged q node prevHead hq
    exact ⟨hpair, (hnext _ (Consecutive.mem_left hpair)).trans hnone⟩
  case exchanged_inj => exact h.exchanged_inj
  case quiet => exact hquiet
  case stands => exact hstands

/-- The consumer moves on and touches no node. -/
theorem Inv.move (h : Inv s chain) (hd : s.consumer ≠ .destroyed) {c : Consumer T}
    (hquiet : c.destroying → ∀ p, s.producer p = .idle)
    (hstands : Stands { s with consumer := c } chain) : Inv { s with consumer := c } chain :=
  h.frame hd (fun _ _ => rfl) h.stub (fun _ _ _ _ => rfl) hquiet hstands

/-- `delete` of a node outside the chain. -/
theorem Inv.erase (h : Inv s chain) {a : Addr} (ha : a ∉ chain) (hstub : a ≠ Mpsc.stub)
    (hp : ∀ p v, s.producer p ≠ .allocated a v) (hd : s.consumer ≠ .destroyed) {c : Consumer T}
    (hquiet : c.destroying → ∀ p, s.producer p = .idle)
    (hstands : Stands { s with heap := Function.update s.heap a none, consumer := c } chain) :
    Inv { s with heap := Function.update s.heap a none, consumer := c } chain := by
  refine h.frame hd ?_ ?_ ?_ hquiet hstands
  · intro b hb
    refine Function.update_of_ne ?_ _ _
    rintro rfl
    exact ha hb
  · rw [Function.update_of_ne hstub.symm]
    exact h.stub
  · intro p node v hnode
    refine Function.update_of_ne ?_ _ _
    rintro rfl
    exact hp p v hnode

/-- A push under way: the destructor has not started. -/
theorem Inv.not_destroying (h : Inv s chain) (p : Fin n) (hp : s.producer p ≠ .idle) :
    ¬ s.consumer.destroying :=
  fun hdes => hp (h.quiet hdes p)

omit [Inhabited T] in
theorem ne_destroyed {c : Consumer T} (hd : ¬ c.destroying) : c ≠ .destroyed := by
  rintro rfl
  exact hd rfl

/-- Producers do not move the ground under the consumer: the chain grows at its end only, links that
are stored and the data of the chain stay, and nobody takes the node that is being deleted. -/
theorem Stands.mono (h : Stands s chain) (hd : ¬ s.consumer.destroying)
    (hconsumer : t.consumer = s.consumer) (htail : t.tail = s.tail) {chain' : List Addr}
    (hchain : chain <+: chain')
    (hnext : ∀ b, nextOf s.heap s.tail = some b → nextOf t.heap s.tail = some b)
    (hdata : ∀ a ∈ chain, dataOf t.heap a = dataOf s.heap a)
    (hdeleting : ∀ call a v, s.consumer = .deleting call a v → a ∉ chain → (s.heap a).isSome →
      (∀ p w, s.producer p ≠ .allocated a w) →
        a ∉ chain' ∧ (t.heap a).isSome ∧ ∀ p w, t.producer p ≠ .allocated a w) :
    Stands t chain' := by
  unfold Stands at h ⊢
  rw [hconsumer, htail]
  cases hc : s.consumer with
  | copying call next =>
      simp only [hc] at h ⊢
      exact ⟨h.1.trans hchain, hnext next h.2⟩
  | advancing call next v =>
      simp only [hc] at h ⊢
      have hmem : next ∈ chain := h.1.subset (by simp)
      exact ⟨h.1.trans hchain, hnext next h.2.1, (hdata next hmem).trans h.2.2⟩
  | deleting call a v =>
      simp only [hc] at h ⊢
      exact hdeleting call a v hc h.1 h.2.1 h.2.2
  | deletingTail => simp [hc, Consumer.destroying] at hd
  | destroyed => exact absurd hc (ne_destroyed hd)
  | _ => trivial

/-- A producer takes a node that no one else knows. -/
theorem Inv.own (h : Inv s chain) {p : Fin n} {value : T} {node : Addr}
    (hp : s.producer p = .idle) (hnode : s.heap node = some ⟨none, value⟩) (hchain : node ∉ chain)
    (hstub : node ≠ Mpsc.stub) (hother : ∀ q v, s.producer q ≠ .allocated node v)
    (hdeleting : ∀ call v, s.consumer ≠ .deleting call node v) (hd : ¬ s.consumer.destroying) :
    Inv { s with producer := Function.update s.producer p (.allocated node value) } chain := by
  constructor
  case linked =>
    intro a b hab
    refine (h.linked a b hab).imp_right ?_
    rintro ⟨hnone, q, hq⟩
    exact ⟨hnone, q, update_producer_of_ne _ hq (by simp [hp])⟩
  case allocated =>
    intro q node' v hq
    rcases update_producer hq with ⟨-, heq⟩ | ⟨-, hq'⟩
    · cases heq
      exact ⟨hnode, hchain, hstub⟩
    · exact h.allocated q node' v hq'
  case allocated_inj =>
    intro q r node' v w hq hr
    refine unique_update_producer (fun x a => ∃ v, x = .allocated a v) ?_ ?_ ⟨v, hq⟩ ⟨w, hr⟩
    · rintro q r a ⟨v, hq⟩ ⟨w, hr⟩
      exact h.allocated_inj q r a v w hq hr
    · rintro a ⟨v, heq⟩ q ⟨w, hq⟩
      cases heq
      exact hother q w hq
  case exchanged =>
    intro q node' prevHead hq
    exact h.exchanged q node' prevHead (of_update_producer hq (by simp))
  case exchanged_inj =>
    intro q r node' node'' prevHead hq hr
    exact h.exchanged_inj q r node' node'' prevHead (of_update_producer hq (by simp))
      (of_update_producer hr (by simp))
  case quiet => exact fun hdes => absurd hdes hd
  case stands =>
    refine h.stands.mono hd (by rfl) (by rfl) List.prefix_rfl (fun _ hb => hb) (fun _ _ => rfl) ?_
    intro call a v hc hmem hlive hfree
    refine ⟨hmem, hlive, fun q w hq => ?_⟩
    rcases update_producer hq with ⟨-, heq⟩ | ⟨-, hq'⟩
    · cases heq
      exact hdeleting call v hc
    · exact hfree q w hq'
  all_goals first
    | exact h.fault | exact h.head | exact h.tail | exact h.nodup | exact h.live | exact h.stub
    | exact h.last | exact h.values

/-- Allocation of a node: it is at a new address, so nothing else sees it. -/
theorem Inv.allocate (h : Inv s chain) {p : Fin n} {value : T} {node : Addr}
    (hp : s.producer p = .idle) (hfree : s.heap node = none) (hd : ¬ s.consumer.destroying) :
    Inv { s with
      heap := Function.update s.heap node (some ⟨none, value⟩)
      producer := Function.update s.producer p (.allocated node value)
      issued := Function.update s.issued p (s.issued p ++ [value]) } chain := by
  have hnd : s.consumer ≠ .destroyed := ne_destroyed hd
  have hne : ∀ {a : Addr}, (s.heap a).isSome → a ≠ node := by
    rintro a ha rfl
    simp [hfree] at ha
  have hkeeps : ∀ {a : Addr}, (s.heap a).isSome →
      Function.update s.heap node (some ⟨none, value⟩) a = s.heap a :=
    fun ha => Function.update_of_ne (hne ha) _ _
  have halloc : ∀ q node' v, s.producer q = .allocated node' v → (s.heap node').isSome :=
    fun q node' v hq => by simp [(h.allocated q node' v hq).1]
  have hframe : Inv { s with heap := Function.update s.heap node (some ⟨none, value⟩) } chain := by
    refine h.frame hnd (fun a ha => hkeeps (h.live hnd a ha)) ?_
      (fun q node' v hq => hkeeps (halloc q node' v hq)) h.quiet ?_
    · rw [hkeeps h.stub]
      exact h.stub
    · refine h.stands.mono hd (by rfl) (by rfl) List.prefix_rfl (fun b hb => ?_) (fun a ha => ?_) ?_
      · have htail := h.live hnd _ (List.mem_of_head? h.tail)
        exact (congrArg (Option.bind · Node.next) (hkeeps htail)).trans hb
      · simp only [dataOf, hkeeps (h.live hnd a ha)]
      · intro call a v _ hmem hlive hfree
        exact ⟨hmem, (congrArg Option.isSome (hkeeps hlive)).trans hlive, hfree⟩
  have hown := hframe.own hp (Function.update_self _ _ _)
    (fun hmem => hne (h.live hnd node hmem) rfl) (hne h.stub).symm
    (fun q v hq => hne (halloc q node v hq) rfl) ?_ hd
  · exact { hown with }
  · intro call v hc
    have hst := h.stands
    have hc' : s.consumer = .deleting call node v := hc
    simp only [Stands, hc'] at hst
    exact hne hst.2.1 rfl

/-- The exchange of `head_`: the node joins the chain, its link is owed. -/
theorem Inv.exchange (h : Inv s chain) {p : Fin n} {value : T} {node : Addr}
    (hp : s.producer p = .allocated node value) :
    Inv { s with
      head := node
      producer := Function.update s.producer p (.exchanged node s.head)
      pushed := s.pushed ++ [(p, value)] } (chain ++ [node]) := by
  obtain ⟨hheap, hnode, hstub⟩ := h.allocated p node value hp
  have hd : ¬ s.consumer.destroying := h.not_destroying p (by simp [hp])
  have hnd : s.consumer ≠ .destroyed := ne_destroyed hd
  have hne : chain ≠ [] := by
    rintro rfl
    simpa using h.head
  constructor
  case fault => exact h.fault
  case head => simp
  case tail => rw [List.head?_append_of_ne_nil _ hne, h.tail]
  case nodup =>
    rw [List.nodup_append]
    exact ⟨h.nodup, by simp, fun a ha b hb => by
      rintro rfl
      exact hnode (List.mem_singleton.1 hb ▸ ha)⟩
  case live =>
    intro _ a ha
    rcases List.mem_append.1 ha with ha | ha
    · exact h.live hnd a ha
    · obtain rfl := List.mem_singleton.1 ha
      simp [hheap]
  case stub => exact h.stub
  case linked =>
    -- the new pair is the old head and the node: its link is owed by `p`
    intro a b hab
    rcases Consecutive.concat_iff.1 hab with ⟨hlast, rfl⟩ | hab
    · obtain rfl : s.head = a := Option.some_inj.1 (h.head.symm.trans hlast)
      exact Or.inr ⟨h.last, p, Function.update_self _ _ _⟩
    · refine (h.linked a b hab).imp_right ?_
      rintro ⟨hnone, q, hq⟩
      exact ⟨hnone, q, update_producer_of_ne _ hq (by simp [hp])⟩
  case last => simp [nextOf, hheap]
  case values =>
    have htail : (chain ++ [node]).tail = chain.tail ++ [node] := List.tail_append_of_ne_nil hne
    simp [htail, h.values, dataOf, hheap]
  case allocated =>
    intro q node' v hq
    rcases update_producer hq with ⟨-, heq⟩ | ⟨hqp, hq'⟩
    · cases heq
    · obtain ⟨hheap', hnode', hstub'⟩ := h.allocated q node' v hq'
      refine ⟨hheap', fun hmem => ?_, hstub'⟩
      rcases List.mem_append.1 hmem with hmem | hmem
      · exact hnode' hmem
      · obtain rfl := List.mem_singleton.1 hmem
        exact hqp (h.allocated_inj q p node' v value hq' hp)
  case allocated_inj =>
    intro q r node' v w hq hr
    exact h.allocated_inj q r node' v w (of_update_producer hq (by simp))
      (of_update_producer hr (by simp))
  case exchanged =>
    intro q node' prevHead hq
    rcases update_producer hq with ⟨-, heq⟩ | ⟨-, hq'⟩
    · cases heq
      exact ⟨Consecutive.concat_iff.2 (Or.inl ⟨h.head, rfl⟩), h.last⟩
    · obtain ⟨hpair, hnone⟩ := h.exchanged q node' prevHead hq'
      exact ⟨Consecutive.concat_iff.2 (Or.inr hpair), hnone⟩
  case exchanged_inj =>
    -- nobody owed a link of the last node
    have hold : ∀ q node', s.producer q ≠ .exchanged node' s.head := fun q node' hq =>
      Consecutive.not_last h.nodup h.head (h.exchanged q node' s.head hq).1
    intro q r node' node'' prevHead hq hr
    refine unique_update_producer (fun x a => ∃ b, x = .exchanged b a) ?_ ?_ ⟨node', hq⟩
      ⟨node'', hr⟩
    · rintro q r a ⟨b, hq⟩ ⟨b', hr⟩
      exact h.exchanged_inj q r b b' a hq hr
    · rintro a ⟨b, heq⟩ q ⟨b', hq⟩
      cases heq
      exact hold q b' hq
  case quiet => exact fun hdes => absurd hdes hd
  case stands =>
    refine h.stands.mono hd (by rfl) (by rfl) (List.prefix_append _ _) (fun _ hb => hb)
      (fun _ _ => rfl) ?_
    intro call a v _ hmem hlive hfree
    refine ⟨fun hmem' => ?_, hlive, fun q w hq => hfree q w (of_update_producer hq (by simp))⟩
    rcases List.mem_append.1 hmem' with hmem' | hmem'
    · exact hmem hmem'
    · exact hfree p value (List.mem_singleton.1 hmem' ▸ hp)

/-- The store of the link that was owed. -/
theorem Inv.link (h : Inv s chain) {p : Fin n} {node prevHead : Addr} {prev : Node T}
    (hp : s.producer p = .exchanged node prevHead) (hprev : s.heap prevHead = some prev) :
    Inv { s with
      heap := Function.update s.heap prevHead (some { prev with next := some node })
      producer := Function.update s.producer p .idle } chain := by
  obtain ⟨hpair, hnone⟩ := h.exchanged p node prevHead hp
  have hd : ¬ s.consumer.destroying := h.not_destroying p (by simp [hp])
  have hnd : s.consumer ≠ .destroyed := ne_destroyed hd
  have hhead : s.head ≠ prevHead := by
    rintro rfl
    exact Consecutive.not_last h.nodup h.head hpair
  have hdata : ∀ a, dataOf (Function.update s.heap prevHead
      (some { prev with next := some node })) a = dataOf s.heap a := by
    intro a
    by_cases ha : a = prevHead
    · subst ha
      simp [dataOf, hprev]
    · exact dataOf_update_of_ne ha _
  have hstored : ∀ {a b : Addr}, nextOf s.heap a = some b → nextOf (Function.update s.heap prevHead
      (some { prev with next := some node })) a = some b := by
    intro a b hab
    have ha : a ≠ prevHead := by
      rintro rfl
      simp [hnone] at hab
    exact (nextOf_update_of_ne ha _).trans hab
  constructor
  case fault => exact h.fault
  case head => exact h.head
  case tail => exact h.tail
  case nodup => exact h.nodup
  case live => exact fun _ a ha => isSome_update_of_some _ (h.live hnd a ha)
  case stub => exact isSome_update_of_some _ h.stub
  case linked =>
    -- the pair whose link was owed now has it, and no other link is written
    intro a b hab
    by_cases ha : a = prevHead
    · subst ha
      obtain rfl := Consecutive.right_unique h.nodup hpair hab
      left
      simp [nextOf]
    · show nextOf (Function.update s.heap prevHead _) a = some b ∨ _
      rw [nextOf_update_of_ne ha]
      refine (h.linked a b hab).imp_right ?_
      rintro ⟨hnone, q, hq⟩
      exact ⟨hnone, q, update_producer_of_ne _ hq (by simp [hp, Ne.symm ha])⟩
  case last => exact (nextOf_update_of_ne hhead _).trans h.last
  case values =>
    exact h.values.trans (congrArg (s.popped ++ ·) (List.map_congr_left fun a _ => (hdata a).symm))
  case allocated =>
    intro q node' v hq
    obtain ⟨hheap, hnode', hstub⟩ := h.allocated q node' v (of_update_producer hq (by simp))
    have hne : node' ≠ prevHead := fun heq => hnode' (heq ▸ Consecutive.mem_left hpair)
    exact ⟨(Function.update_of_ne hne _ _).trans hheap, hnode', hstub⟩
  case allocated_inj =>
    intro q r node' v w hq hr
    exact h.allocated_inj q r node' v w (of_update_producer hq (by simp))
      (of_update_producer hr (by simp))
  case exchanged =>
    intro q node' prevHead' hq
    rcases update_producer hq with ⟨-, heq⟩ | ⟨hqp, hq'⟩
    · cases heq
    · obtain ⟨hpair', hnone'⟩ := h.exchanged q node' prevHead' hq'
      have hne : prevHead' ≠ prevHead := by
        rintro rfl
        exact hqp (h.exchanged_inj q p node' node prevHead' hq' hp)
      exact ⟨hpair', (nextOf_update_of_ne hne _).trans hnone'⟩
  case exchanged_inj =>
    intro q r node' node'' prevHead' hq hr
    exact h.exchanged_inj q r node' node'' prevHead' (of_update_producer hq (by simp))
      (of_update_producer hr (by simp))
  case quiet => exact fun hdes => absurd hdes hd
  case stands =>
    refine h.stands.mono hd (by rfl) (by rfl) List.prefix_rfl (fun _ hb => hstored hb)
      (fun a _ => hdata a) ?_
    intro call a v _ hmem hlive hfree
    exact ⟨hmem, isSome_update_of_some _ hlive,
      fun q w hq => hfree q w (of_update_producer hq (by simp))⟩

/-- A node that exists again is never missing where a link is stored. -/
theorem Inv.exists_prevHead (h : Inv s chain) {p : Fin n} {node prevHead : Addr}
    (hp : s.producer p = .exchanged node prevHead) : ∃ prev, s.heap prevHead = some prev := by
  have hnd : s.consumer ≠ .destroyed := ne_destroyed (h.not_destroying p (by simp [hp]))
  exact Option.isSome_iff_exists.1
    (h.live hnd prevHead (Consecutive.mem_left (h.exchanged p node prevHead hp).1))

/-- The chain without its first node, when `tail_` advances. -/
theorem Inv.advance (h : Inv s chain) {call : Call} {next : Addr} {value : T}
    (hc : s.consumer = .advancing call next value) :
    Inv { s with
      tail := next
      popped := s.popped ++ [value]
      consumer := .deleting call s.tail value } chain.tail := by
  have hst := h.stands
  simp only [Stands, hc] at hst
  obtain ⟨⟨rest, rfl⟩, hfirst, hvalue⟩ := hst
  have hnodup := h.nodup
  simp only [List.cons_append, List.nil_append, List.nodup_cons] at hnodup
  have hnd : s.consumer ≠ .destroyed := by simp [hc]
  have hlive := h.live hnd
  constructor
  case fault => exact h.fault
  case head => simpa using h.head
  case tail => rfl
  case nodup => simpa using hnodup.2
  case live => exact fun _ a ha => hlive a (List.mem_of_mem_tail ha)
  case stub => exact h.stub
  case linked => exact fun a b hab => h.linked a b (hab.trans (List.tail_suffix _).isInfix)
  case last => exact h.last
  case values => simp [h.values, hvalue]
  case allocated =>
    intro q node v hq
    obtain ⟨hheap, hnode, hstub⟩ := h.allocated q node v hq
    exact ⟨hheap, fun hmem => hnode (List.mem_of_mem_tail hmem), hstub⟩
  case allocated_inj => exact h.allocated_inj
  case exchanged =>
    intro q node prevHead hq
    obtain ⟨hpair, hnone⟩ := h.exchanged q node prevHead hq
    refine ⟨?_, hnone⟩
    -- the first link is stored, so it is not the one that is owed
    rcases Consecutive.cons_iff.1 hpair with ⟨rfl, -⟩ | hpair
    · simp [hfirst] at hnone
    · exact hpair
  case exchanged_inj => exact h.exchanged_inj
  case quiet =>
    intro hdes
    refine h.quiet ?_
    cases call <;> simp_all [Consumer.destroying]
  case stands =>
    refine ⟨by simpa using hnodup.1, hlive _ (by simp), fun q v hq => ?_⟩
    exact (h.allocated q _ v hq).2.1 (by simp)

/-- A stored link of the first node leads to the second. -/
theorem Inv.second (h : Inv s chain) {next : Addr} (hnext : nextOf s.heap s.tail = some next) :
    [s.tail, next] <+: chain := by
  obtain ⟨rest, rfl⟩ := List.head?_eq_some_iff.1 h.tail
  cases rest with
  | nil =>
      have hlast : s.tail = s.head := by simpa using h.head
      simp [hlast, h.last] at hnext
  | cons b rest =>
      rcases h.linked s.tail b (Consecutive.cons_iff.2 (Or.inl ⟨rfl, rfl⟩)) with hb | ⟨hb, -⟩
      · obtain rfl : b = next := Option.some_inj.1 (hb.symm.trans hnext)
        exact ⟨rest, rfl⟩
      · simp [hb] at hnext

/-- A null link of the first node that no producer owes: there is no second. -/
theorem Inv.alone (h : Inv s chain) (hnext : nextOf s.heap s.tail = none)
    (howed : ∀ p node prevHead, s.producer p ≠ .exchanged node prevHead) : chain = [s.tail] := by
  obtain ⟨rest, rfl⟩ := List.head?_eq_some_iff.1 h.tail
  cases rest with
  | nil => rfl
  | cons b rest =>
      rcases h.linked s.tail b (Consecutive.cons_iff.2 (Or.inl ⟨rfl, rfl⟩)) with hb | ⟨-, p, hp⟩
      · simp [hb] at hnext
      · exact absurd hp (howed p b s.tail)

/-- Nothing but the first node: everything pushed has been popped. -/
theorem Inv.all_popped (h : Inv s chain) (hchain : chain = [s.tail]) :
    s.popped = s.pushed.map Prod.snd := by
  simp [h.values, hchain]

/-- The end of the destructor: the last node is deleted unless it is the stub. -/
theorem Inv.destroy (h : Inv s chain) (hc : s.consumer = .deletingTail) :
    Inv { free s s.tail with consumer := .destroyed } chain := by
  have hst := h.stands
  simp only [Stands, hc] at hst
  subst hst
  have hidle : ∀ p, s.producer p = .idle := h.quiet (by simp [hc, Consumer.destroying])
  by_cases hstub : s.tail = Mpsc.stub
  · rw [free, if_pos hstub]
    exact { h with live := fun hd => absurd rfl hd, quiet := fun _ => hidle, stands := rfl }
  · obtain ⟨node, hnode⟩ := Option.isSome_iff_exists.1 (h.live (by simp [hc]) s.tail (by simp))
    have hlast : s.tail = s.head := by simpa using h.head
    rw [free, if_neg hstub]
    simp only [hnode]
    constructor
    case fault => exact h.fault
    case head => exact h.head
    case tail => exact h.tail
    case nodup => exact h.nodup
    case live => exact fun hd => absurd rfl hd
    case stub =>
      show (Function.update s.heap s.tail none Mpsc.stub).isSome
      rw [Function.update_of_ne (Ne.symm hstub)]
      exact h.stub
    case linked =>
      intro a b hab
      rw [Consecutive.cons_iff] at hab
      simp at hab
    case last => simp [nextOf, hlast]
    case values => simpa using h.values
    case allocated_inj => exact h.allocated_inj
    case exchanged_inj => exact h.exchanged_inj
    case allocated => exact fun p node v hp => by simp [hidle p] at hp
    case exchanged => exact fun p node prevHead hp => by simp [hidle p] at hp
    case quiet => exact fun _ => hidle
    case stands => rfl

/-- The nodes from `tail_` to `head_` after an action: an exchange appends one, an advance drops
the first. -/
def chainAfter (s : State n T) (chain : List Addr) : Action n T → List Addr
  | .exchange p =>
      match s.producer p with
      | .allocated node _ => chain ++ [node]
      | _ => chain
  | .consume =>
      match s.consumer with
      | .advancing .. => chain.tail
      | _ => chain
  | _ => chain

/-- **Every step of the consumer keeps the invariant.** -/
theorem Inv.consume (h : Inv s chain) (hstep : Mpsc.consume s = some t) :
    Inv t (chainAfter s chain .consume) := by
  cases consumed_of_consume hstep with
  | missingTail hc hnode =>
      have hlive := h.live (by simp [hc]) s.tail (List.mem_of_head? h.tail)
      simp [hnode] at hlive
  | @null call node hc hnode hnext =>
      have hnull : nextOf s.heap s.tail = none := by simp [nextOf, hnode, hnext]
      simp only [chainAfter, hc]
      refine h.move (by simp [hc]) ?_ ?_
      · cases call <;> simp [Call.onNull, Consumer.destroying]
        exact h.quiet (by simp [hc, Consumer.destroying])
      · cases call with
        | destroy =>
            refine h.alone hnull fun p node prevHead hp => ?_
            rw [h.quiet (by simp [hc, Consumer.destroying]) p] at hp
            cases hp
        | _ => trivial
  | @linked call node next hc hnode hnext =>
      have hlink : nextOf s.heap s.tail = some next := by simp [nextOf, hnode, hnext]
      simp only [chainAfter, hc]
      refine h.move (by simp [hc]) ?_ ⟨h.second hlink, hlink⟩
      cases call <;> simp [Consumer.destroying]
      exact h.quiet (by simp [hc, Consumer.destroying])
  | loadedRunning hc | loadedHead hc =>
      simp only [chainAfter, hc]
      refine h.move (by simp [hc]) ?_ ?_ <;> split_ifs <;>
        simp [Consumer.destroying, Stands]
  | @missingNext call next hc hnode =>
      have hst := h.stands
      simp only [Stands, hc] at hst
      have hlive := h.live (by simp [hc]) next (hst.1.subset (by simp))
      simp [hnode] at hlive
  | @copied call next node hc hnode =>
      have hst := h.stands
      simp only [Stands, hc] at hst
      simp only [chainAfter, hc]
      refine h.move (by simp [hc]) ?_ ⟨hst.1, hst.2, by simp [dataOf, hnode]⟩
      cases call <;> simp [Consumer.destroying]
      exact h.quiet (by simp [hc, Consumer.destroying])
  | advanced hc =>
      simp only [chainAfter, hc]
      exact h.advance hc
  | @deleted call tail value hc =>
      have hst := h.stands
      simp only [Stands, hc] at hst
      obtain ⟨htail, hsome, halloc⟩ := hst
      obtain ⟨node, hnode⟩ := Option.isSome_iff_exists.1 hsome
      have hd : s.consumer ≠ .destroyed := by simp [hc]
      have hquiet : (call.onPopped value).destroying → ∀ p, s.producer p = .idle := by
        cases call <;> simp [Call.onPopped, Consumer.destroying]
        exact h.quiet (by simp [hc, Consumer.destroying])
      simp only [chainAfter, hc]
      by_cases hstub : tail = Mpsc.stub
      · rw [free, if_pos hstub]
        refine h.move hd hquiet ?_
        cases call <;> trivial
      · rw [free, if_neg hstub]
        simp only [hnode]
        refine h.erase htail hstub halloc hd hquiet ?_
        cases call <;> trivial
  | deletedTail hc =>
      simp only [chainAfter, hc]
      exact h.destroy hc

/-- **Every step keeps the invariant.** -/
theorem Inv.step_chainAfter (h : Inv s chain) {a : Action n T} (hstep : Mpsc.step s a = some t) :
    Inv t (chainAfter s chain a) := by
  cases stepped_of_step hstep with
  | allocated hp hfree hd => exact h.allocate hp hfree hd
  | exchanged hp =>
      simp only [chainAfter, hp]
      exact h.exchange hp
  | missingPrev hp hprev =>
      obtain ⟨prev, hsome⟩ := h.exists_prevHead hp
      rw [hprev] at hsome
      cases hsome
  | linked hp hprev => exact h.link hp hprev
  | @called c hready hdestroy =>
      have hd : s.consumer ≠ .destroyed := by
        intro heq
        simp [heq, Consumer.ready] at hready
      refine h.move hd ?_ trivial
      cases c <;> simp [Consumer.destroying]
      exact hdestroy rfl
  | consumed hconsume => exact h.consume hconsume
  | setRunning b => exact { h with }

theorem Inv.step (h : Inv s chain) {a : Action n T} (hstep : Mpsc.step s a = some t) :
    ∃ chain', Inv t chain' :=
  ⟨_, h.step_chainAfter hstep⟩

end Steps

/-! ### Each producer's own order -/

/-- The value of a push that has not exchanged `head_` yet. -/
def Producer.pending : Producer T → List T
  | .allocated _ value => [value]
  | _ => []

/-- The values of one producer in the order of the exchanges. -/
def pushedBy (s : State n T) (p : Fin n) : List T :=
  (s.pushed.filter fun x => x.1 = p).map Prod.snd

/-- What a producer pushed is what it issued, in its own order; only its last value may still be
on the way. -/
def Issued (s : State n T) : Prop :=
  ∀ p, s.issued p = pushedBy s p ++ (s.producer p).pending

/-- The step of one producer leaves the others' values alone. -/
theorem Issued.update {s t : State n T} (h : Issued s) (p : Fin n)
    (hp : t.issued p = pushedBy t p ++ (t.producer p).pending)
    (hother : ∀ q ≠ p, t.issued q = s.issued q ∧ pushedBy t q = pushedBy s q ∧
      t.producer q = s.producer q) : Issued t := by
  intro q
  by_cases hq : q = p
  · rw [hq, hp]
  · obtain ⟨hissued, hpushed, hproducer⟩ := hother q hq
    rw [hissued, hpushed, hproducer]
    exact h q

theorem Issued.step {s t : State n T} {a : Action n T} (h : Issued s)
    (hstep : Mpsc.step s a = some t) : Issued t := by
  cases stepped_of_step hstep with
  | @allocated p value node hp _ _ =>
      have hold := h p
      refine h.update p ?_ fun q hq => ?_
      · simpa [pushedBy, Producer.pending, hp] using hold
      · simp [pushedBy, hq]
  | @exchanged p node value hp =>
      have hold := h p
      refine h.update p ?_ fun q hq => ?_
      · simpa [pushedBy, Producer.pending, hp] using hold
      · simp [pushedBy, hq, Ne.symm hq]
  | @linked p node prevHead prev hp _ =>
      have hold := h p
      refine h.update p ?_ fun q hq => ?_
      · simpa [pushedBy, Producer.pending, hp] using hold
      · simp [pushedBy, hq]
  | consumed hconsume =>
      obtain ⟨hissued, hpushed, hproducer⟩ := consume_frame hconsume
      intro q
      rw [pushedBy, hissued, hpushed, hproducer]
      exact h q
  | missingPrev | called | setRunning => exact h

/-! ### Empty answers -/

/-- Only its own steps and calls move the consumer, and only its own steps take values out. -/
theorem step_of_ne_consume {s t : State n T} {a : Action n T} (h : step s a = some t)
    (ha : a ≠ .consume) :
    t.popped = s.popped ∧ (t.consumer = s.consumer ∨ ∃ c, t.consumer = .loadingNext c) := by
  cases stepped_of_step h with
  | consumed => exact absurd rfl ha
  | @called c => exact ⟨rfl, Or.inr ⟨c, rfl⟩⟩
  | _ => exact ⟨rfl, Or.inl rfl⟩

/-- **The steps at which a call answers that there is nothing**: `try_pop` at its load of a null
link, `wait_and_pop` at a load of `head_` that finds the node it stands on. -/
theorem returned_none_cases {s t : State n T} {a : Action n T} {c : Call}
    (hstep : step s a = some t) (hbefore : s.consumer ≠ .returned c none)
    (hafter : t.consumer = .returned c none) :
    (c = .tryPop ∧ s.consumer = .loadingNext .tryPop ∧ nextOf s.heap s.tail = none) ∨
      (c = .waitAndPopWhile ∧ s.consumer = .loadingHead ∧ s.tail = s.head) := by
  by_cases ha : a = .consume
  · subst ha
    cases consumed_of_consume hstep with
    | missingTail | missingNext => exact absurd hafter hbefore
    | @null call node hc hnode hnext =>
        cases call <;> cases hafter
        exact Or.inl ⟨rfl, hc, by simp [nextOf, hnode, hnext]⟩
    | loadedRunning hc => cases hr : s.running <;> simp [hr] at hafter
    | loadedHead hc =>
        by_cases ht : s.tail = s.head
        · simp only [if_pos ht, Consumer.returned.injEq, and_true] at hafter
          exact Or.inr ⟨hafter.symm, hc, ht⟩
        · simp [ht] at hafter
    | @deleted call tail value hc => cases call <;> cases hafter
    | _ => cases hafter
  · rcases (step_of_ne_consume hstep ha).2 with heq | ⟨c', heq⟩
    · exact absurd (heq.symm.trans hafter) hbefore
    · rw [heq] at hafter
      cases hafter

end Mpsc

/-- **The queue is first in, first out, without loss or duplication.**  In every interleaving of the
steps of any number of producers and one consumer:

* the values popped so far are a prefix of the values pushed, in the order of the exchanges of
  `head_`, in which each producer's values stand in its own order;
* when no push is between its two steps, `try_pop` fails only if every value pushed was popped;
* `wait_and_pop(result, running)` returns false only at a load of `head_` before which every value
  pushed was popped. -/
theorem mpsc_queue_is_fifo {n : ℕ} {T : Type} [Inhabited T] (as : List (Mpsc.Action n T))
    (s : Mpsc.State n T) (hrun : Runs.exec Mpsc.step (Mpsc.init n T) as = some s) :
    s.popped <+: s.pushed.map Prod.snd ∧
      (∀ p, Mpsc.pushedBy s p <+: s.issued p) ∧
      (∀ a t, Mpsc.step s a = some t → s.consumer ≠ .returned .tryPop none →
        t.consumer = .returned .tryPop none →
        (∀ p node prevHead, s.producer p ≠ .exchanged node prevHead) →
        s.popped = s.pushed.map Prod.snd) ∧
      (∀ a t, Mpsc.step s a = some t → s.consumer ≠ .returned .waitAndPopWhile none →
        t.consumer = .returned .waitAndPopWhile none →
        s.consumer = .loadingHead ∧ s.popped = s.pushed.map Prod.snd) := by
  obtain ⟨chain, h⟩ := Runs.exec_inv (I := fun s => ∃ chain, Mpsc.Inv s chain)
    (fun s a t h hst => h.elim fun _ h => h.step hst) ⟨_, Mpsc.inv_init⟩ hrun
  have hissued : Mpsc.Issued s := Runs.exec_inv (fun s a t h hst => Mpsc.Issued.step h hst)
    (fun _ => rfl) hrun
  refine ⟨⟨_, h.values.symm⟩, fun p => ⟨_, (hissued p).symm⟩, ?_, ?_⟩
  · intro a t hstep hbefore hafter howed
    rcases Mpsc.returned_none_cases hstep hbefore hafter with ⟨-, -, hnext⟩ | ⟨hc, -⟩
    · exact h.all_popped (h.alone hnext howed)
    · cases hc
  · intro a t hstep hbefore hafter
    rcases Mpsc.returned_none_cases hstep hbefore hafter with ⟨hc, -⟩ | ⟨-, hload, heq⟩
    · cases hc
    · have hhead : chain.getLast? = some s.tail := by rw [heq]; exact h.head
      exact ⟨hload, h.all_popped (Consecutive.eq_singleton h.nodup h.tail hhead)⟩

/-- Two producers whose exchanges and links cross: the first pop finds the broken chain, the later
ones deliver both values in the order of the exchanges. -/
theorem mpsc_queue_is_fifo_for_two_producers :
    let as : List (Mpsc.Action 2 ℕ) :=
      [.allocate 0 10 1, .allocate 1 20 2, .exchange 1, .exchange 0, .link 0,
        .call .tryPop, .consume, .link 1, .call .tryPop, .consume, .consume, .consume, .consume]
    ∃ s, Runs.exec Mpsc.step (Mpsc.init 2 ℕ) as = some s ∧ s.popped = [20] ∧
      s.popped <+: s.pushed.map Prod.snd := by
  intro as
  have hrun : (Runs.exec Mpsc.step (Mpsc.init 2 ℕ) as).any (fun s => s.popped = [20]) = true := by
    decide +kernel
  obtain ⟨s, hs, hpopped⟩ := (Option.any_eq_true _ _).1 hrun
  exact ⟨s, hs, of_decide_eq_true hpopped, (mpsc_queue_is_fifo as s hs).1⟩

end Trading
