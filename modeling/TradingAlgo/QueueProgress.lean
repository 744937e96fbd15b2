/-
**The queue never holds anybody up, but for one gap.**

`LockFreeMPSCQueue` has no locks.  That a thread which is in the middle of a call cannot keep the
others from finishing theirs is shown here on the machine of its accesses, for any number of
producers and in every reachable state: a push takes three steps of its own, a pop at most four,
whatever the other threads do in between, and the next one is always possible.

The exception is the gap in a push between the exchange of `head_` and the store of the link.  A pop
that finds no link at the first node finds either an empty queue or a single push in this gap, and
`wait_and_pop` then waits for the one step that this push still has to take.

Main definitions:

* `Trading.Mpsc.Visible` — the link of the first node is stored;
* `Trading.Mpsc.Producer.rank`, `Trading.Mpsc.Consumer.rank` — how many steps a call has left;
* `Trading.Mpsc.Popping` — where a pop stands that has begun with a load of the link.

Main results:

* `Trading.queue_calls_are_wait_free` — pushes and pops end within their own steps, and what a pop
  can wait for.
-/

import TradingAlgo.MpscFifo

set_option relaxedAutoImplicit false
set_option autoImplicit false

namespace Trading

namespace Mpsc

variable {n : ℕ} {T : Type}

/-! ### Pushes -/

/-- The steps that a push has left. -/
def Producer.rank : Producer T → ℕ
  | .idle => 0
  | .allocated _ _ => 2
  | .exchanged _ _ => 1

/-- The steps of a push after its allocation. -/
def pushes (p : Fin n) : Action n T → Bool
  | .exchange q => q = p
  | .link q => q = p
  | _ => false

/-- There is a chain, and the invariant of the queue holds with it. -/
def Sound [Inhabited T] (s : State n T) : Prop := ∃ chain, Inv s chain

variable [Inhabited T] {s t : State n T}

theorem Sound.step (h : Sound s) {a : Action n T} (hstep : Mpsc.step s a = some t) : Sound t := by
  obtain ⟨chain, hinv⟩ := h
  exact hinv.step hstep

/-- No step makes an access to a node that does not exist. -/
theorem Sound.fault (h : Sound s) : s.fault = false := by
  obtain ⟨chain, hinv⟩ := h
  exact hinv.fault

theorem sound_of_run {as : List (Action n T)} (hrun : Runs.exec Mpsc.step (init n T) as = some s) :
    Sound s :=
  Runs.exec_inv (fun _ _ _ h hst => h.step hst) ⟨_, inv_init⟩ hrun

/-- **A push that has begun can go on.** -/
theorem Sound.push_enabled (h : Sound s) {p : Fin n} (hp : s.producer p ≠ .idle) :
    ∃ a t, pushes p a = true ∧ Mpsc.step s a = some t := by
  obtain ⟨chain, hinv⟩ := h
  cases hproducer : s.producer p with
  | idle => exact absurd hproducer hp
  | allocated node value =>
      obtain ⟨t, ht⟩ : ∃ t, Mpsc.step s (.exchange p) = some t :=
        Option.isSome_iff_exists.1 (by simp [Mpsc.step, hproducer])
      exact ⟨.exchange p, t, by simp [pushes], ht⟩
  | exchanged node prevHead =>
      obtain ⟨prev, hprev⟩ := hinv.exists_prevHead hproducer
      obtain ⟨t, ht⟩ : ∃ t, Mpsc.step s (.link p) = some t :=
        Option.isSome_iff_exists.1 (by simp [Mpsc.step, hproducer, hprev])
      exact ⟨.link p, t, by simp [pushes], ht⟩

/-- **A step of a push brings it forward**, and the steps of others leave it where it is. -/
theorem Sound.rank_producer (h : Sound s) {p : Fin n} {a : Action n T}
    (hnew : ∀ v node, a ≠ .allocate p v node) (hstep : Mpsc.step s a = some t) :
    (pushes p a).toNat + (t.producer p).rank ≤ (s.producer p).rank := by
  have hfault := (h.step hstep).fault
  cases stepped_of_step hstep with
  | @allocated q value node hq hfree hd =>
      have hne : p ≠ q := fun heq => hnew value node (heq ▸ rfl)
      simp [pushes, Function.update_of_ne hne]
  | @exchanged q node value hq =>
      by_cases hqp : q = p
      · subst hqp
        simp [pushes, hq, Producer.rank]
      · simp [pushes, hqp, Function.update_of_ne (Ne.symm hqp)]
  | missingPrev hq hprev => simp at hfault
  | @linked q node prevHead prev hq hprev =>
      by_cases hqp : q = p
      · subst hqp
        simp [pushes, hq, Producer.rank]
      · simp [pushes, hqp, Function.update_of_ne (Ne.symm hqp)]
  | called hready hdestroy => simp [pushes]
  | consumed hconsume =>
      have hproducer := (consume_frame hconsume).2.2
      simp [pushes, hproducer]
  | setRunning b => simp [pushes]

/-! ### Pops -/

/-- The link of the first node is stored. -/
def Visible (s : State n T) : Prop := (nextOf s.heap s.tail).isSome = true

/-- The steps that a pop has left, at most, once it is to load the link. -/
def Consumer.rank : Consumer T → ℕ
  | .loadingNext _ => 4
  | .copying _ _ => 3
  | .advancing _ _ _ => 2
  | .deleting _ _ _ => 1
  | _ => 0

/-- The steps of the consumer. -/
def consumes : Action n T → Bool
  | .consume => true
  | _ => false

/-- Where a call stands that has begun with a load of the link; `sure` says that the link was stored
then. -/
def Stage (c : Call) (sure : Prop) (s : State n T) : Consumer T → Prop
  | .loadingNext c' => c' = c ∧ (Visible s ∨ c = .tryPop ∧ ¬ sure)
  | .copying c' _ => c' = c
  | .advancing c' _ _ => c' = c
  | .deleting c' _ _ => c' = c
  | .returned c' result => c' = c ∧ (sure → result.isSome = true)
  | _ => False

/-- The call, and what it has taken out of the queue since. -/
structure Popping (c : Call) (sure : Prop) (popped : List T) (s : State n T) : Prop where
  sound : Sound s
  stage : Stage c sure s s.consumer
  popped_eq : s.popped = popped ++ s.consumer.inHand

omit [Inhabited T] in
/-- A stored link stays. -/
theorem Visible.step (h : Visible s) {a : Action n T} (hstep : Mpsc.step s a = some t)
    (ha : a ≠ .consume) : Visible t := by
  obtain ⟨next, hnext⟩ := Option.isSome_iff_exists.1 h
  obtain ⟨node, hnode, hlink⟩ := Option.bind_eq_some_iff.1 hnext
  cases stepped_of_step hstep with
  | @allocated p value fresh hp hfree hd =>
      have hne : s.tail ≠ fresh := by
        rintro heq
        rw [heq, hfree] at hnode
        cases hnode
      simp only [Visible, nextOf, Function.update_of_ne hne]
      exact h
  | @linked p node' prevHead prev hp hprev =>
      by_cases htail : s.tail = prevHead
      · simp [Visible, nextOf, htail]
      · simp only [Visible, nextOf, Function.update_of_ne htail]
        exact h
  | consumed hconsume => exact absurd rfl ha
  | _ => exact h

variable {c : Call} {sure : Prop} {popped : List T}

/-- A step of the consumer within the call. -/
theorem Popping.consume (h : Popping c sure popped s) (hc : c ≠ .destroy)
    (hstep : Mpsc.step s .consume = some t) :
    Popping c sure popped t ∧ 1 + t.consumer.rank ≤ s.consumer.rank := by
  have hsound := h.sound.step hstep
  have hstage := h.stage
  have hpopped := h.popped_eq
  cases consumed_of_consume hstep with
  | missingTail hat hnode => exact absurd hsound.fault (by simp)
  | @null call node hat hnode hnext =>
      rw [hat] at hstage hpopped
      obtain ⟨rfl, hvisible⟩ := hstage
      rcases hvisible with hvisible | ⟨rfl, hsure⟩
      · simp [Visible, nextOf, hnode, hnext] at hvisible
      · refine ⟨⟨hsound, ⟨rfl, fun h => absurd h hsure⟩, hpopped⟩, ?_⟩
        rw [hat]
        exact Nat.le_of_ble_eq_true rfl
  | @linked call node next hat hnode hnext =>
      rw [hat] at hstage hpopped ⊢
      exact ⟨⟨hsound, hstage.1, hpopped⟩, le_rfl⟩
  | loadedRunning hat =>
      rw [hat] at hstage
      exact hstage.elim
  | loadedHead hat =>
      rw [hat] at hstage
      exact hstage.elim
  | missingNext hat hnode => exact absurd hsound.fault (by simp)
  | @copied call next node hat hnode =>
      rw [hat] at hstage hpopped ⊢
      exact ⟨⟨hsound, hstage, hpopped⟩, le_rfl⟩
  | @advanced call next value hat =>
      rw [hat] at hstage hpopped ⊢
      refine ⟨⟨hsound, hstage, ?_⟩, le_rfl⟩
      simp only [Consumer.inHand, List.append_nil] at hpopped ⊢
      rw [hpopped]
  | @deleted call tail value hat =>
      rw [hat] at hstage hpopped ⊢
      obtain rfl : call = c := hstage
      have hreturned : call.onPopped value = .returned call (some value) := by
        cases call with
        | destroy => exact absurd rfl hc
        | _ => rfl
      refine ⟨⟨hsound, ?_, ?_⟩, ?_⟩
      · rw [hreturned]
        exact ⟨rfl, fun _ => rfl⟩
      · rw [hreturned, (free_frame s tail).2.2.2, hpopped]
        rfl
      · rw [hreturned]
        exact le_rfl
  | deletedTail hat =>
      rw [hat] at hstage
      exact hstage.elim

/-- **A step of the consumer brings the pop forward**, and the steps of others leave it where it
is. -/
theorem Popping.step (h : Popping c sure popped s) (hc : c ≠ .destroy) {a : Action n T}
    (hnew : ∀ c', a ≠ .call c') (hstep : Mpsc.step s a = some t) :
    Popping c sure popped t ∧ (consumes a).toNat + t.consumer.rank ≤ s.consumer.rank := by
  by_cases ha : a = .consume
  · subst ha
    exact h.consume hc hstep
  · have hsound := h.sound.step hstep
    have hvisible : Visible s → Visible t := fun hv => hv.step hstep ha
    have hframe : t.popped = s.popped ∧ t.consumer = s.consumer := by
      cases stepped_of_step hstep with
      | called hready hdestroy => exact absurd rfl (hnew _)
      | consumed hconsume => exact absurd rfl ha
      | _ => exact ⟨rfl, rfl⟩
    have hnot : consumes a = false := by
      cases a with
      | consume => exact absurd rfl ha
      | _ => rfl
    refine ⟨⟨hsound, ?_, by rw [hframe.1, hframe.2]; exact h.popped_eq⟩, by simp [hnot, hframe.2]⟩
    rw [hframe.2]
    have hstage := h.stage
    cases hat : s.consumer with
    | loadingNext c' =>
        rw [hat] at hstage
        exact ⟨hstage.1, hstage.2.imp_left hvisible⟩
    | _ => rwa [hat] at hstage

omit [Inhabited T] in
/-- **A call that has begun can go on.** -/
theorem consume_enabled {s : State n T} (h : s.consumer.call? = some c) :
    ∃ t, Mpsc.step s .consume = some t := by
  refine Option.isSome_iff_exists.1 ?_
  simp only [Mpsc.step, Mpsc.consume]
  cases hat : s.consumer with
  | idle | returned | destroyed => simp [hat, Consumer.call?] at h
  | loadingNext c' =>
      simp only
      split
      · rfl
      · split <;> rfl
  | copying c' next =>
      simp only
      split <;> rfl
  | _ => rfl

/-- **What a pop can find in the way**: an empty queue, or one push that has exchanged `head_` and
not yet stored its link, which is the next thing it does. -/
theorem Sound.not_visible (h : Sound s) (hnot : ¬ Visible s) :
    s.popped = s.pushed.map Prod.snd ∨
      ∃ p node, s.producer p = .exchanged node s.tail ∧
        ∃ t, Mpsc.step s (.link p) = some t ∧ Visible t := by
  obtain ⟨chain, hinv⟩ := h
  have hnext : nextOf s.heap s.tail = none := by simpa [Visible] using hnot
  by_cases howed : ∃ p node, s.producer p = .exchanged node s.tail
  · obtain ⟨p, node, hp⟩ := howed
    obtain ⟨prev, hprev⟩ := hinv.exists_prevHead hp
    refine Or.inr ⟨p, node, hp, _, by simp only [Mpsc.step, hp, hprev]; rfl, ?_⟩
    simp [Visible, nextOf]
  · left
    obtain ⟨rest, hchain⟩ := List.head?_eq_some_iff.1 hinv.tail
    cases rest with
    | nil => exact hinv.all_popped hchain
    | cons b rest =>
        rcases hinv.linked s.tail b
            (by rw [hchain]; exact Consecutive.cons_iff.2 (Or.inl ⟨rfl, rfl⟩))
          with hb | ⟨-, p, hp⟩
        · rw [hnext] at hb
          cases hb
        · exact absurd ⟨p, b, hp⟩ howed

end Mpsc

/-- **The calls of the queue are wait-free, but for one gap.**  In every reachable state, for any
number of producers: a push that has begun can take its next step, and has at most two left after
its allocation, whatever the others do; a pop that has begun can take its next step; from a load of
the link on, `try_pop` has at most four left, and any pop that finds the link stored has too, and
returns the first value that is not yet popped; and where the link is not stored, everything is
popped, or just one push is in its gap, and closes it with its next step. -/
theorem queue_calls_are_wait_free {n : ℕ} {T : Type} [Inhabited T] (as : List (Mpsc.Action n T))
    (s : Mpsc.State n T) (hrun : Runs.exec Mpsc.step (Mpsc.init n T) as = some s) :
    (∀ p, s.producer p ≠ .idle → ∃ a t, Mpsc.pushes p a = true ∧ Mpsc.step s a = some t) ∧
      (∀ p bs t, Runs.exec Mpsc.step s bs = some t → (∀ v node, .allocate p v node ∉ bs) →
        bs.countP (Mpsc.pushes p) + (t.producer p).rank ≤ (s.producer p).rank) ∧
      (∀ c, s.consumer.call? = some c → ∃ t, Mpsc.step s .consume = some t) ∧
      (∀ c bs t, c ≠ .destroy → s.consumer = .loadingNext c →
        (c = .tryPop ∨ Mpsc.Visible s) → Runs.exec Mpsc.step s bs = some t →
        (∀ c', .call c' ∉ bs) →
          bs.countP Mpsc.consumes + t.consumer.rank ≤ 4 ∧
            (t.consumer.call? = some c ∨ ∃ result, t.consumer = .returned c result ∧
              (Mpsc.Visible s → ∃ value, result = some value ∧ t.popped = s.popped ++ [value] ∧
                t.popped <+: t.pushed.map Prod.snd))) ∧
      (¬ Mpsc.Visible s →
        s.popped = s.pushed.map Prod.snd ∨
          ∃ p node, s.producer p = .exchanged node s.tail ∧
            ∃ t, Mpsc.step s (.link p) = some t ∧ Mpsc.Visible t) := by
  have hsound := Mpsc.sound_of_run hrun
  refine ⟨fun p hp => hsound.push_enabled hp, fun p bs t hbs hnew => ?_,
    fun c hc => Mpsc.consume_enabled hc, fun c bs t hc hat hsure hbs hnew => ?_,
    fun hnot => hsound.not_visible hnot⟩
  · have hstep : ∀ (u : Mpsc.State n T) (a : Mpsc.Action n T) (u' : Mpsc.State n T), Mpsc.Sound u →
        (∀ v node, a ≠ .allocate p v node) → Mpsc.step u a = some u' →
        Mpsc.Sound u' ∧
          (Mpsc.pushes p a).toNat + (u'.producer p).rank ≤ (u.producer p).rank :=
      fun u a u' h hok hst => ⟨h.step hst, h.rank_producer hok hst⟩
    refine (Runs.countP_le_of_measure hstep hsound (fun a ha v node heq => ?_) hbs).2
    exact hnew v node (heq ▸ ha)
  · have hstart : Mpsc.Popping c (Mpsc.Visible s) s.popped s := by
      refine ⟨hsound, ?_, by simp [hat, Mpsc.Consumer.inHand]⟩
      rw [hat]
      refine ⟨rfl, ?_⟩
      by_cases hvisible : Mpsc.Visible s
      · exact Or.inl hvisible
      · exact Or.inr ⟨hsure.resolve_right hvisible, hvisible⟩
    have hstep : ∀ (u : Mpsc.State n T) (a : Mpsc.Action n T) (u' : Mpsc.State n T),
        Mpsc.Popping c (Mpsc.Visible s) s.popped u → (∀ c', a ≠ .call c') →
        Mpsc.step u a = some u' →
        Mpsc.Popping c (Mpsc.Visible s) s.popped u' ∧
          (Mpsc.consumes a).toNat + u'.consumer.rank ≤ u.consumer.rank :=
      fun u a u' h hok hst => h.step hc hok hst
    have hcalls : ∀ a ∈ bs, ∀ c', a ≠ .call c' := fun a ha c' heq => hnew c' (heq ▸ ha)
    obtain ⟨hpopping, hcount⟩ := Runs.countP_le_of_measure hstep hstart hcalls hbs
    rw [hat] at hcount
    refine ⟨hcount, ?_⟩
    have hstage := hpopping.stage
    have hpopped := hpopping.popped_eq
    obtain ⟨chain, hinv⟩ := hpopping.sound
    cases hend : t.consumer with
    | idle | loadingRunning | loadingHead | deletingTail | destroyed =>
        rw [hend] at hstage
        exact hstage.elim
    | loadingNext c' =>
        rw [hend] at hstage
        exact Or.inl (congrArg some hstage.1)
    | copying c' next =>
        rw [hend] at hstage
        exact Or.inl (congrArg some hstage)
    | advancing c' next value =>
        rw [hend] at hstage
        exact Or.inl (congrArg some hstage)
    | deleting c' tail value =>
        rw [hend] at hstage
        exact Or.inl (congrArg some hstage)
    | returned c' result =>
        rw [hend] at hstage hpopped
        obtain ⟨rfl, hsome⟩ := hstage
        refine Or.inr ⟨result, rfl, fun hvisible => ?_⟩
        obtain ⟨value, rfl⟩ := Option.isSome_iff_exists.1 (hsome hvisible)
        refine ⟨value, rfl, hpopped, ?_⟩
        rw [hinv.values]
        exact List.prefix_append _ _

/-- The second producer has exchanged `head_` first and is still in its gap, when the consumer calls
`try_pop`: two values are pushed and none can be popped, until this producer takes its step. -/
theorem queue_calls_are_wait_free_in_the_gap :
    let as : List (Mpsc.Action 2 ℕ) :=
      [.allocate 0 10 1, .allocate 1 20 2, .exchange 1, .exchange 0, .link 0, .call .tryPop]
    ∃ s, Runs.exec Mpsc.step (Mpsc.init 2 ℕ) as = some s ∧ s.pushed = [(1, 20), (0, 10)] ∧
      ¬ Mpsc.Visible s ∧
      ∃ p node t, s.producer p = .exchanged node s.tail ∧ Mpsc.step s (.link p) = some t ∧
        Mpsc.Visible t := by
  intro as
  have hstate : (Runs.exec Mpsc.step (Mpsc.init 2 ℕ) as).any (fun s =>
      s.pushed = [(1, 20), (0, 10)] ∧ s.popped = [] ∧
        Mpsc.nextOf s.heap s.tail = none) = true := by decide +kernel
  obtain ⟨s, hrun, hs⟩ := (Option.any_eq_true _ _).1 hstate
  obtain ⟨hpushed, hpopped, hnext⟩ := of_decide_eq_true hs
  have hnot : ¬ Mpsc.Visible s := by simp [Mpsc.Visible, hnext]
  obtain ⟨-, -, -, -, hgap⟩ := queue_calls_are_wait_free as s hrun
  rcases hgap hnot with hall | ⟨p, node, hp, t, hlink, hvisible⟩
  · simp [hpushed, hpopped] at hall
  · exact ⟨s, hrun, hpushed, hnot, p, node, t, hp, hlink, hvisible⟩

end Trading
