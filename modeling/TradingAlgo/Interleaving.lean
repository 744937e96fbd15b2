/-
**Threads that share a state through atomic accesses.**

A thread is a script: an atomic access reads and changes the shared state in one step, and what it
has read decides how the script goes on.  Any number of threads take their steps in any order, so a
run is a list of thread names.  Two rules say what can be concluded about the state once all threads
are done, however their accesses were interleaved.

Main definitions:

* `Interleaving.Script`, `Interleaving.Script.run` — scripts, and what one does when it is alone;
* `Interleaving.State`, `Interleaving.step` — the machine;
* `Interleaving.Script.Adds` — whatever a script reads, it adds a fixed amount to a measure;
* `Interleaving.Script.Follows`, `Interleaving.Script.Keeps` — a script that depends on a part of
  the state only, and one that leaves that part alone.

Main results:

* `Interleaving.shared_of_adds` — **conservation**: amounts that are added add up;
* `Interleaving.part_of_follows` — **isolation**: a part that one thread writes is as if that thread
  had been alone;
* `Interleaving.exec_of_order` — one after the other is one of the orders.
-/

import TradingAlgo.Runs

set_option relaxedAutoImplicit false
set_option autoImplicit false

namespace Interleaving

/-! ### Scripts -/

/-- What a thread still has to do. -/
inductive Script (σ : Type*)
  | done
  /-- An atomic access: the state before it determines the state after it and what comes next. -/
  | access (effect : σ → σ) (next : σ → Script σ)

namespace Script

variable {σ M A : Type*}

/-- An access that only reads. -/
def load (next : σ → Script σ) : Script σ := .access id next

/-- An access that reads nothing the thread would keep. -/
def update (effect : σ → σ) (next : Script σ) : Script σ := .access effect fun _ => next

/-- The state after a script that nobody interrupts. -/
def run : Script σ → σ → σ
  | .done, s => s
  | .access effect next, s => (next s).run (effect s)

@[simp] theorem run_done (s : σ) : (done : Script σ).run s = s := rfl

@[simp] theorem run_access (effect : σ → σ) (next : σ → Script σ) (s : σ) :
    (access effect next).run s = (next s).run (effect s) := rfl

@[simp] theorem run_load (next : σ → Script σ) (s : σ) : (load next).run s = (next s).run s := rfl

@[simp] theorem run_update (effect : σ → σ) (next : Script σ) (s : σ) :
    (update effect next).run s = next.run (effect s) := rfl

/-- One script after another. -/
def andThen : Script σ → Script σ → Script σ
  | .done, q => q
  | .access effect next, q => .access effect fun s => (next s).andThen q

@[simp] theorem done_andThen (q : Script σ) : done.andThen q = q := rfl

/-- The scripts of a list of calls, one after another. -/
def sequence {C : Type*} (script : C → Script σ) : List C → Script σ
  | [] => .done
  | c :: cs => (script c).andThen (sequence script cs)

/-! ### What scripts add, and what they depend on -/

/-- The script adds `δ` to the measure `μ` in all, whatever its accesses read. -/
def Adds [AddCommGroup M] (μ : σ → M) : Script σ → M → Prop
  | .done, δ => δ = 0
  | .access effect next, δ => ∀ s, Adds μ (next s) (μ s + δ - μ (effect s))

theorem adds_done [AddCommGroup M] (μ : σ → M) : Adds μ done 0 := rfl

/-- A read adds nothing by itself. -/
theorem Adds.load [AddCommGroup M] {μ : σ → M} {next : σ → Script σ} {δ : M}
    (h : ∀ s, Adds μ (next s) δ) : Adds μ (Script.load next) δ := by
  intro s
  simpa using h s

/-- An update that adds `ε`, and what comes after it. -/
theorem Adds.update [AddCommGroup M] {μ : σ → M} {effect : σ → σ} {next : Script σ} {δ ε : M}
    (heffect : ∀ s, μ (effect s) = μ s + ε) (h : Adds μ next δ) :
    Adds μ (Script.update effect next) (ε + δ) := by
  intro s
  have hrest : μ s + (ε + δ) - μ (effect s) = δ := by
    rw [heffect]
    abel
  rwa [hrest]

theorem Adds.andThen [AddCommGroup M] {μ : σ → M} {p q : Script σ} {δ ε : M} (hp : Adds μ p δ)
    (hq : Adds μ q ε) : Adds μ (p.andThen q) (δ + ε) := by
  induction p generalizing δ with
  | done =>
      obtain rfl : δ = 0 := hp
      rwa [zero_add]
  | access effect next ih =>
      intro s
      have hnext := ih s (hp s)
      have hsum : μ s + δ - μ (effect s) + ε = μ s + (δ + ε) - μ (effect s) := by abel
      rwa [hsum] at hnext

theorem Adds.sequence [AddCommGroup M] {μ : σ → M} {C : Type*} {script : C → Script σ}
    {amount : C → M} {cs : List C} (h : ∀ c ∈ cs, Adds μ (script c) (amount c)) :
    Adds μ (Script.sequence script cs) (cs.map amount).sum := by
  induction cs with
  | nil => exact adds_done μ
  | cons c cs ih =>
      rw [List.map_cons, List.sum_cons]
      have hrest := ih fun c' hc' => h c' (List.mem_cons_of_mem c hc')
      exact (h c List.mem_cons_self).andThen hrest

/-- The script goes by the part `π` of the state: states that agree on it lead to the same rest and
agree on it again. -/
def Follows (π : σ → A) : Script σ → Prop
  | .done => True
  | .access effect next =>
      (∀ s s', π s = π s' → π (effect s) = π (effect s') ∧ next s = next s') ∧
        ∀ s, Follows π (next s)

/-- The script leaves the part `π` of the state alone. -/
def Keeps (π : σ → A) : Script σ → Prop
  | .done => True
  | .access effect next => (∀ s, π (effect s) = π s) ∧ ∀ s, Keeps π (next s)

theorem Follows.load {π : σ → A} {next : σ → Script σ}
    (hnext : ∀ s s', π s = π s' → next s = next s') (h : ∀ s, Follows π (next s)) :
    Follows π (Script.load next) :=
  ⟨fun s s' hs => ⟨hs, hnext s s' hs⟩, h⟩

theorem Follows.update {π : σ → A} {effect : σ → σ} {next : Script σ}
    (heffect : ∀ s s', π s = π s' → π (effect s) = π (effect s')) (h : Follows π next) :
    Follows π (Script.update effect next) :=
  ⟨fun s s' hs => ⟨heffect s s' hs, rfl⟩, fun _ => h⟩

theorem Keeps.update {π : σ → A} {effect : σ → σ} {next : Script σ}
    (heffect : ∀ s, π (effect s) = π s) (h : Keeps π next) : Keeps π (Script.update effect next) :=
  ⟨heffect, fun _ => h⟩

theorem Follows.andThen {π : σ → A} {p q : Script σ} (hp : Follows π p) (hq : Follows π q) :
    Follows π (p.andThen q) := by
  induction p with
  | done => exact hq
  | access effect next ih =>
      refine ⟨fun s s' hs => ?_, fun s => ih s (hp.2 s)⟩
      obtain ⟨heffect, hnext⟩ := hp.1 s s' hs
      exact ⟨heffect, congrArg (·.andThen q) hnext⟩

theorem Keeps.andThen {π : σ → A} {p q : Script σ} (hp : Keeps π p) (hq : Keeps π q) :
    Keeps π (p.andThen q) := by
  induction p with
  | done => exact hq
  | access effect next ih => exact ⟨hp.1, fun s => ih s (hp.2 s)⟩

theorem Follows.sequence {π : σ → A} {C : Type*} {script : C → Script σ} {cs : List C}
    (h : ∀ c ∈ cs, Follows π (script c)) : Follows π (Script.sequence script cs) := by
  induction cs with
  | nil => trivial
  | cons c cs ih =>
      have hrest := ih fun c' hc' => h c' (List.mem_cons_of_mem c hc')
      exact (h c List.mem_cons_self).andThen hrest

theorem Keeps.sequence {π : σ → A} {C : Type*} {script : C → Script σ} {cs : List C}
    (h : ∀ c ∈ cs, Keeps π (script c)) : Keeps π (Script.sequence script cs) := by
  induction cs with
  | nil => trivial
  | cons c cs ih =>
      have hrest := ih fun c' hc' => h c' (List.mem_cons_of_mem c hc')
      exact (h c List.mem_cons_self).andThen hrest

/-- A script that goes by a part of the state ends in states that agree on it. -/
theorem Follows.run_congr {π : σ → A} {p : Script σ} (h : Follows π p) {s s' : σ}
    (hs : π s = π s') : π (p.run s) = π (p.run s') := by
  induction p generalizing s s' with
  | done => exact hs
  | access effect next ih =>
      obtain ⟨heffect, hnext⟩ := h.1 s s' hs
      rw [run_access, run_access, ← hnext]
      exact ih s (h.2 s) heffect

end Script

/-! ### The machine -/

variable {ι σ : Type*} [DecidableEq ι]

/-- The shared state, and what each thread still has to do. -/
structure State (ι σ : Type*) where
  shared : σ
  threads : ι → Script σ

/-- The thread `i` makes its next access. -/
def step (s : State ι σ) (i : ι) : Option (State ι σ) :=
  match s.threads i with
  | .done => none
  | .access effect next =>
      some
        { shared := effect s.shared
          threads := Function.update s.threads i (next s.shared) }

/-- All threads are done. -/
def State.Quiescent (s : State ι σ) : Prop := ∀ i, s.threads i = .done

/-- Whether a thread is done. -/
def Script.isDone : Script σ → Bool
  | .done => true
  | .access _ _ => false

theorem Script.isDone_iff {p : Script σ} : p.isDone = true ↔ p = .done := by
  cases p with
  | done => simp [Script.isDone]
  | access effect next => simp [Script.isDone]

/-- A run to the end, evaluated. -/
theorem exists_quiescent [Fintype ι] (s : State ι σ) (is : List ι)
    (h : (Runs.exec step s is).any (fun t => decide (∀ i, (t.threads i).isDone = true)) = true) :
    ∃ t, Runs.exec step s is = some t ∧ t.Quiescent := by
  obtain ⟨t, ht, hdone⟩ := (Option.any_eq_true _ _).1 h
  exact ⟨t, ht, fun i => Script.isDone_iff.1 (of_decide_eq_true hdone i)⟩

/-- Everything that a step does. -/
theorem step_cases {s t : State ι σ} {i : ι} (h : step s i = some t) :
    ∃ effect next, s.threads i = .access effect next ∧
      t = { shared := effect s.shared
            threads := Function.update s.threads i (next s.shared) } := by
  unfold step at h
  cases hi : s.threads i with
  | done => simp [hi] at h
  | access effect next =>
      rw [hi] at h
      exact ⟨effect, next, rfl, (Option.some_inj.1 h).symm⟩

/-! ### Conservation -/

section Conservation

variable {M : Type*} [AddCommGroup M] [Fintype ι] {μ : σ → M}

/-- What the threads still owe, with what is there, is a constant. -/
def Balanced (μ : σ → M) (total : M) (s : State ι σ) : Prop :=
  ∃ owed : ι → M, (∀ i, (s.threads i).Adds μ (owed i)) ∧ μ s.shared + ∑ i, owed i = total

theorem Balanced.step {total : M} {s t : State ι σ} (h : Balanced μ total s) {i : ι}
    (hstep : Interleaving.step s i = some t) : Balanced μ total t := by
  obtain ⟨owed, hadds, hsum⟩ := h
  obtain ⟨effect, next, hi, rfl⟩ := step_cases hstep
  have hrest := hadds i
  rw [hi] at hrest
  refine ⟨Function.update owed i (μ s.shared + owed i - μ (effect s.shared)), fun j => ?_, ?_⟩
  · by_cases hj : j = i
    · subst hj
      simpa using hrest s.shared
    · simpa [hj] using hadds j
  · have hupdate := Runs.sum_update (fun _ (x : M) => x) owed i
      (μ s.shared + owed i - μ (effect s.shared))
    rw [hupdate, ← hsum]
    abel

/-- **Conservation**: once all threads are done, the measure is what it was with everything that the
scripts add, in whatever order they made their accesses. -/
theorem shared_of_adds {s t : State ι σ} {amount : ι → M}
    (hadds : ∀ i, (s.threads i).Adds μ (amount i)) {is : List ι}
    (hrun : Runs.exec step s is = some t) (hdone : t.Quiescent) :
    μ t.shared = μ s.shared + ∑ i, amount i := by
  have hstart : Balanced μ (μ s.shared + ∑ i, amount i) s := ⟨amount, hadds, rfl⟩
  have hend := Runs.exec_inv (fun _ _ _ h hst => Balanced.step h hst) hstart hrun
  obtain ⟨owed, howed, hsum⟩ := hend
  have hzero : ∀ i, owed i = 0 := by
    intro i
    have hi := howed i
    rwa [hdone i] at hi
  simpa [hzero] using hsum

end Conservation

/-! ### Isolation -/

section Isolation

variable {A : Type*} {π : σ → A} {w : ι}

/-- The thread `w` goes by the part `π` and will lead to `result`; the others leave the part
alone. -/
structure Isolated (π : σ → A) (w : ι) (result : A) (s : State ι σ) : Prop where
  writer : (s.threads w).Follows π
  others : ∀ i ≠ w, (s.threads i).Keeps π
  result_eq : π ((s.threads w).run s.shared) = result

theorem Isolated.step {result : A} {s t : State ι σ} (h : Isolated π w result s) {i : ι}
    (hstep : Interleaving.step s i = some t) : Isolated π w result t := by
  obtain ⟨effect, next, hi, rfl⟩ := step_cases hstep
  by_cases hw : i = w
  · -- the writer itself: what it would lead to is the same after its access
    subst hw
    have hwriter := h.writer
    have hresult := h.result_eq
    rw [hi] at hwriter hresult
    refine ⟨by simpa using hwriter.2 s.shared, fun j hj => ?_, by simpa using hresult⟩
    simpa [hj] using h.others j hj
  · have hkeeps := h.others i hw
    rw [hi] at hkeeps
    have hthread : Function.update s.threads i (next s.shared) w = s.threads w :=
      Function.update_of_ne (Ne.symm hw) _ _
    refine ⟨by simpa only [hthread] using h.writer, fun j hj => ?_, ?_⟩
    · by_cases hji : j = i
      · subst hji
        simpa using hkeeps.2 s.shared
      · simpa [hji] using h.others j hj
    · simp only [hthread]
      rw [← h.result_eq]
      exact h.writer.run_congr (hkeeps.1 s.shared)

/-- **Isolation**: a part of the state that only one thread changes, going by nothing else, is in
the end what that thread makes of it alone. -/
theorem part_of_follows {s t : State ι σ} (hwriter : (s.threads w).Follows π)
    (hothers : ∀ i ≠ w, (s.threads i).Keeps π) {is : List ι}
    (hrun : Runs.exec step s is = some t) (hdone : t.threads w = .done) :
    π t.shared = π ((s.threads w).run s.shared) := by
  have hstart : Isolated π w (π ((s.threads w).run s.shared)) s := ⟨hwriter, hothers, rfl⟩
  have hend := Runs.exec_inv (fun _ _ _ h hst => Isolated.step h hst) hstart hrun
  have hresult := hend.result_eq
  rwa [hdone] at hresult

end Isolation

/-! ### One after the other -/

/-- A thread can finish the first of two scripts while nobody else moves. -/
theorem exec_uninterrupted (p q : Script σ) (s : State ι σ) {i : ι}
    (hi : s.threads i = p.andThen q) :
    ∃ is, Runs.exec step s is =
      some { shared := p.run s.shared, threads := Function.update s.threads i q } := by
  induction p generalizing s with
  | done =>
      refine ⟨[], ?_⟩
      rw [Script.done_andThen] at hi
      simp [← hi]
  | access effect next ih =>
      let t : State ι σ :=
        { shared := effect s.shared
          threads := Function.update s.threads i ((next s.shared).andThen q) }
      have hstep : step s i = some t := by
        rw [step, hi]
        rfl
      obtain ⟨is, his⟩ := ih s.shared t (Function.update_self i _ s.threads)
      refine ⟨i :: is, ?_⟩
      rw [Runs.exec_cons, hstep, Option.bind_some, his]
      simp [t]

variable {C : Type*}

/-- The threads have calls to make. -/
def ofCalls (script : C → Script σ) (s : σ) (calls : ι → List C) : State ι σ where
  shared := s
  threads i := Script.sequence script (calls i)

theorem entries_cons_self (i : ι) (c : C) (order : List (ι × C)) :
    Runs.entries ((i, c) :: order) i = c :: Runs.entries order i := by
  simp [Runs.entries]

theorem entries_cons_of_ne {i j : ι} (h : j ≠ i) (c : C) (order : List (ι × C)) :
    Runs.entries ((i, c) :: order) j = Runs.entries order j := by
  simp [Runs.entries, Ne.symm h]

/-- **One after the other is one of the orders**: any list of calls that has the calls of each
thread in their order is a run, in which all threads come to their end. -/
theorem exec_of_order (script : C → Script σ) (order : List (ι × C)) (s : σ) :
    ∃ is t, Runs.exec step (ofCalls script s (Runs.entries order)) is = some t ∧ t.Quiescent ∧
      t.shared = order.foldl (fun s x => (script x.2).run s) s := by
  induction order generalizing s with
  | nil => exact ⟨[], _, rfl, fun _ => rfl, rfl⟩
  | cons x order ih =>
      obtain ⟨i, c⟩ := x
      have hi : (ofCalls script s (Runs.entries ((i, c) :: order))).threads i =
          (script c).andThen (Script.sequence script (Runs.entries order i)) := by
        simp only [ofCalls, entries_cons_self, Script.sequence]
      obtain ⟨is, his⟩ := exec_uninterrupted _ _ _ hi
      have hrest : Function.update (ofCalls script s (Runs.entries ((i, c) :: order))).threads i
          (Script.sequence script (Runs.entries order i)) =
            fun j => Script.sequence script (Runs.entries order j) := by
        funext j
        by_cases hj : j = i
        · subst hj
          simp
        · simp [hj, ofCalls, entries_cons_of_ne hj]
      obtain ⟨is', t, hrun, hdone, hshared⟩ := ih ((script c).run s)
      refine ⟨is ++ is', t, ?_, hdone, by simpa using hshared⟩
      rw [Runs.exec_append his, hrest]
      exact hrun

end Interleaving
