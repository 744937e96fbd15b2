/-
**Rely and guarantee.**

`Interleaving.lean` has rules for amounts that add up and for parts of the state that one thread
owns. Where a thread goes by values that others change, the clock among them, an invariant needs
more: what the thread knows between two of its accesses has to survive whatever the others do there.
A proof outline gives a thread one such assertion for every point of its script; the others'
accesses are bounded by a relation that the outline relies on, and its own accesses by one that it
guarantees.

Main definitions:

* `Interleaving.Stable` — an assertion that the others' accesses keep;
* `Interleaving.Outline` — a proof outline of a script.

Main results:

* `Interleaving.Outline.andThen`, `Interleaving.Outline.sequence` — how outlines compose;
* `Interleaving.invariant_of_outlines` — **the rule**: when what each thread guarantees is what the
  others rely on, the invariant holds in every state that any order of the accesses leads to.
-/

import TradingAlgo.Interleaving

set_option relaxedAutoImplicit false
set_option autoImplicit false

namespace Interleaving

variable {σ : Type*}

/-- The assertion `K` survives the steps of `R` between states of the invariant. -/
def Stable (I : σ → Prop) (R : σ → σ → Prop) (K : σ → Prop) : Prop :=
  ∀ s s', I s → I s' → R s s' → K s → K s'

/-- A proof outline of a script, from `K` to `Q`: each access keeps the invariant and what is
guaranteed, and what is known after it is stable. -/
def Outline (I : σ → Prop) (R G : σ → σ → Prop) : (σ → Prop) → Script σ → (σ → Prop) → Prop
  | K, .done, Q => ∀ s, I s → K s → Q s
  | K, .access effect next, Q =>
      ∀ s, I s → K s → I (effect s) ∧ G s (effect s) ∧
        ∃ K', Stable I R K' ∧ K' (effect s) ∧ Outline I R G K' (next s) Q

namespace Outline

variable {I : σ → Prop} {R G : σ → σ → Prop} {K K' Q Q' : σ → Prop}

theorem done (h : ∀ s, I s → K s → Q s) : Outline I R G K .done Q := h

/-- More may be known before. -/
theorem of_imp {p : Script σ} (h : Outline I R G K' p Q) (hK : ∀ s, I s → K s → K' s) :
    Outline I R G K p Q := by
  cases p with
  | done => exact fun s hI hs => h s hI (hK s hI hs)
  | access effect next => exact fun s hI hs => h s hI (hK s hI hs)

/-- A read: what is known after it may mention what was read. -/
theorem load {next : σ → Script σ} (hG : ∀ s, I s → G s s) (after : σ → σ → Prop)
    (hstable : ∀ s, I s → K s → Stable I R (after s)) (hafter : ∀ s, I s → K s → after s s)
    (h : ∀ s, I s → K s → Outline I R G (after s) (next s) Q) :
    Outline I R G K (Script.load next) Q :=
  fun s hI hs => ⟨hI, hG s hI, after s, hstable s hI hs, hafter s hI hs, h s hI hs⟩

/-- An update. -/
theorem update {effect : σ → σ} {next : Script σ}
    (hI : ∀ s, I s → K s → I (effect s) ∧ G s (effect s)) (after : σ → Prop)
    (hstable : Stable I R after) (hafter : ∀ s, I s → K s → after (effect s))
    (h : Outline I R G after next Q) : Outline I R G K (Script.update effect next) Q :=
  fun s hs hK => ⟨(hI s hs hK).1, (hI s hs hK).2, after, hstable, hafter s hs hK, h⟩

theorem andThen {p q : Script σ} (hp : Outline I R G K p Q) (hq : Outline I R G Q q Q') :
    Outline I R G K (p.andThen q) Q' := by
  induction p generalizing K with
  | done => exact hq.of_imp hp
  | access effect next ih =>
      intro s hI hs
      obtain ⟨hI', hG, K', hstable, hK', hnext⟩ := hp s hI hs
      exact ⟨hI', hG, K', hstable, hK', ih s hnext⟩

/-- Calls that start and end with the same assertion. -/
theorem sequence {C : Type*} {script : C → Script σ} {cs : List C}
    (h : ∀ c ∈ cs, Outline I R G K (script c) K) :
    Outline I R G K (Script.sequence script cs) K := by
  induction cs with
  | nil => exact fun _ _ hs => hs
  | cons c cs ih =>
      have hrest := ih fun c' hc' => h c' (List.mem_cons_of_mem c hc')
      exact (h c List.mem_cons_self).andThen hrest

end Outline

/-! ### Threads side by side -/

section Parallel

variable {ι : Type*} [DecidableEq ι] {I : σ → Prop} {R G : ι → σ → σ → Prop} {Q : ι → σ → Prop}

/-- Every thread has an outline from something that it knows and that is stable. -/
structure Outlined (I : σ → Prop) (R G : ι → σ → σ → Prop) (Q : ι → σ → Prop) (s : State ι σ) :
    Prop where
  inv : I s.shared
  threads : ∀ i, ∃ K, Stable I (R i) K ∧ K s.shared ∧ Outline I (R i) (G i) K (s.threads i) (Q i)

theorem Outlined.step (hcompat : ∀ i j, i ≠ j → ∀ s s', G i s s' → R j s s') {s t : State ι σ}
    (h : Outlined I R G Q s) {i : ι} (hstep : Interleaving.step s i = some t) :
    Outlined I R G Q t := by
  obtain ⟨effect, next, hi, rfl⟩ := step_cases hstep
  obtain ⟨K, -, hK, houtline⟩ := h.threads i
  rw [hi] at houtline
  obtain ⟨hI, hG, K', hstable', hK', hnext⟩ := houtline s.shared h.inv hK
  refine ⟨hI, fun j => ?_⟩
  by_cases hj : j = i
  · subst hj
    exact ⟨K', hstable', hK', by simpa using hnext⟩
  · -- what another thread knows is kept by what this one guarantees
    obtain ⟨L, hstable, hL, hrest⟩ := h.threads j
    refine ⟨L, hstable, ?_, by simpa [hj] using hrest⟩
    exact hstable _ _ h.inv hI (hcompat i j (Ne.symm hj) _ _ hG) hL

/-- **The rule**: when every thread has an outline, and what each guarantees is what the others rely
on, the invariant holds in every state of every run, and a thread that is done has established what
its outline ends with. -/
theorem invariant_of_outlines (hcompat : ∀ i j, i ≠ j → ∀ s s', G i s s' → R j s s')
    {s t : State ι σ} (hinit : Outlined I R G Q s) {is : List ι}
    (hrun : Runs.exec step s is = some t) :
    I t.shared ∧ ∀ i, t.threads i = .done → Q i t.shared := by
  have hend := Runs.exec_inv (fun _ _ _ h hst => Outlined.step hcompat h hst) hinit hrun
  refine ⟨hend.inv, fun i hi => ?_⟩
  obtain ⟨K, -, hK, houtline⟩ := hend.threads i
  rw [hi] at houtline
  exact houtline t.shared hend.inv hK

end Parallel

end Interleaving
