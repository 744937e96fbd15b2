/-
**Several threads insert into the table of positions.**

`findOrInsert` reads the key of a slot and, when the slot was free, tries to claim it by a
compare-and-exchange; between the two another thread may have claimed it, for the same symbol or
for another one.  Here each load and each exchange of a slot's key is a step of its own, and the
steps of any number of threads, each making call after call, interleave freely.

The argument rests on what does not change: a claimed slot keeps its key.  So what a thread has
seen of its path stays true while it walks on, and when it claims a free slot the path behind it
is still occupied by other keys — which is what the probe path invariant asks for.

Main definitions:

* `Trading.Insert.Pc`, `Trading.Insert.State`, `Trading.Insert.step` — the threads and the table;
* `Trading.Insert.Seen`, `Trading.Insert.Done` — what a thread knows while it walks, and what a
  call that has returned has established;
* `Trading.Insert.Inv` — the invariant.

Main results:

* `Trading.Insert.exec_eq_findOrInsert` — a call that nobody interrupts is `findOrInsert`;
* `Trading.Insert.Grows.exec` — a slot once claimed keeps its key;
* `Trading.concurrent_insert` — no symbol is ever split.
-/

import TradingAlgo.PositionBook
import TradingAlgo.Runs

set_option relaxedAutoImplicit false
set_option autoImplicit false

namespace Trading

namespace Insert

open Probing

variable {ι : Type} [DecidableEq ι]

/-! ### The machine -/

/-- Where a thread stands: outside `findOrInsert`, before the load of round `i`, or before its
compare-and-exchange. -/
inductive Pc
  | idle
  | loading (symbolKey : UInt64) (i : ℕ)
  | exchanging (symbolKey : UInt64) (i : ℕ)
  deriving DecidableEq, Repr

/-- The table, where each thread stands, and what the calls have returned so far. -/
structure State (ι : Type) where
  pm : PositionManager := {}
  pc : ι → Pc := fun _ => .idle
  returns : List (ι × UInt64 × Option (Fin kMaxSymbols)) := []

/-- The steps of a thread. -/
inductive Action (ι : Type)
  | call (thread : ι) (symbolKey : UInt64)
  | load (thread : ι)
  | exchange (thread : ι)
  deriving DecidableEq, Repr

/-- The thread goes on. -/
def goto (s : State ι) (t : ι) (pc : Pc) : State ι := { s with pc := Function.update s.pc t pc }

/-- The call returns. -/
def finish (s : State ι) (t : ι) (symbolKey : UInt64) (entry : Option (Fin kMaxSymbols)) :
    State ι :=
  { goto s t .idle with returns := s.returns ++ [(t, symbolKey, entry)] }

/-- The end of round `i`: the next round, or `nullptr` after the last one. -/
def advance (s : State ι) (t : ι) (symbolKey : UInt64) (i : ℕ) : State ι :=
  if i + 1 < kMaxSymbols then goto s t (.loading symbolKey (i + 1)) else finish s t symbolKey none

/-- The step function. -/
def step (s : State ι) : Action ι → Option (State ι)
  | .call t symbolKey =>
      match s.pc t with
      | .idle =>
          if symbolKey = kEmptySlot then none else some (goto s t (.loading symbolKey 0))
      | _ => none
  | .load t =>
      match s.pc t with
      | .loading symbolKey i =>
          let j := probe (start symbolKey) i
          let expected := (s.pm.table j).key
          if expected = symbolKey then some (finish s t symbolKey (some j))
          else if expected = kEmptySlot then some (goto s t (.exchanging symbolKey i))
          else some (advance s t symbolKey i)
      | _ => none
  | .exchange t =>
      match s.pc t with
      | .exchanging symbolKey i =>
          let j := probe (start symbolKey) i
          let expected := (s.pm.table j).key
          if expected = kEmptySlot then
            some (finish { s with pm := s.pm.claim j symbolKey } t symbolKey (some j))
          -- the exchange failed, and `expected` is what it found
          else if expected = symbolKey then some (finish s t symbolKey (some j))
          else some (advance s t symbolKey i)
      | _ => none

/-! ### A call that nobody interrupts -/

/-- The rounds of one call, from round `i` on. -/
theorem exec_rounds (t : ι) (k : UInt64) (hk : k ≠ kEmptySlot) (m : ℕ) :
    ∀ (i : ℕ) (s : State ι), i + (m + 1) = kMaxSymbols → s.pc t = .loading k i →
      ∃ as s', Runs.exec step s as = some s' ∧ s'.pc = Function.update s.pc t .idle ∧
        s'.pm = (s.pm.findOrInsertLoop k (m + 1) i).1 ∧
        s'.returns = s.returns ++ [(t, k, (s.pm.findOrInsertLoop k (m + 1) i).2)] := by
  induction m with
  | zero =>
      intro i s hi hpc
      have hlast : ¬ i + 1 < kMaxSymbols := by omega
      by_cases h₁ : (s.pm.table (probe (start k) i)).key = k
      · refine ⟨[.load t], ?_⟩
        simp [step, hpc, h₁, finish, goto, PositionManager.findOrInsertLoop]
      · by_cases h₂ : (s.pm.table (probe (start k) i)).key = kEmptySlot
        · refine ⟨[.load t, .exchange t], ?_⟩
          simp [step, hpc, h₂, hk.symm, finish, goto, PositionManager.findOrInsertLoop]
        · refine ⟨[.load t], ?_⟩
          simp [step, hpc, h₁, h₂, hlast, advance, finish, goto, PositionManager.findOrInsertLoop]
  | succ m ih =>
      intro i s hi hpc
      have hmore : i + 1 < kMaxSymbols := by omega
      by_cases h₁ : (s.pm.table (probe (start k) i)).key = k
      · refine ⟨[.load t], ?_⟩
        simp [step, hpc, h₁, finish, goto, PositionManager.findOrInsertLoop]
      · by_cases h₂ : (s.pm.table (probe (start k) i)).key = kEmptySlot
        · refine ⟨[.load t, .exchange t], ?_⟩
          simp [step, hpc, h₂, hk.symm, finish, goto, PositionManager.findOrInsertLoop]
        · obtain ⟨as, s', hrun, hpc', hpm, hret⟩ :=
            ih (i + 1) (goto s t (.loading k (i + 1))) (by omega) (by simp [goto])
          have hloop : s.pm.findOrInsertLoop k (m + 1 + 1) i =
              s.pm.findOrInsertLoop k (m + 1) (i + 1) := by
            rw [PositionManager.findOrInsertLoop]
            simp [h₁, h₂]
          refine ⟨.load t :: as, s', ?_, ?_, ?_, ?_⟩
          · simpa [step, hpc, h₁, h₂, advance, hmore] using hrun
          · simpa [goto] using hpc'
          · rw [hloop]
            exact hpm
          · rw [hloop]
            exact hret

/-- **A call that nobody interrupts is `findOrInsert`.** -/
theorem exec_eq_findOrInsert (s : State ι) (t : ι) (hpc : s.pc t = .idle) (k : UInt64)
    (hk : k ≠ kEmptySlot) :
    ∃ as s', Runs.exec step s as = some s' ∧ s'.pc t = .idle ∧
      s'.pm = (s.pm.findOrInsert k).1 ∧
      s'.returns = s.returns ++ [(t, k, (s.pm.findOrInsert k).2)] := by
  obtain ⟨as, s', hrun, hpc', hpm, hret⟩ :=
    exec_rounds t k hk 255 0 (goto s t (.loading k 0)) rfl (by simp [goto])
  refine ⟨.call t k :: as, s', ?_, by simp [hpc'], hpm, hret⟩
  simpa [step, hpc, hk] using hrun

/-! ### What stays true -/

/-- Slots that are taken keep their keys. -/
def Grows (pm pm' : PositionManager) : Prop :=
  ∀ j, pm.keys j ≠ kEmptySlot → pm'.keys j = pm.keys j

theorem Grows.refl (pm : PositionManager) : Grows pm pm := fun _ _ => rfl

theorem Grows.trans {pm pm' pm'' : PositionManager} (h : Grows pm pm') (h' : Grows pm' pm'') :
    Grows pm pm'' := by
  intro j hj
  rw [h' j (by rwa [h j hj]), h j hj]

theorem grows_claim {pm : PositionManager} {j : Fin kMaxSymbols}
    (hj : pm.keys j = kEmptySlot) (k : UInt64) : Grows pm (pm.claim j k) := by
  intro j' hj'
  have hne : j' ≠ j := fun heq => hj' (heq ▸ hj)
  rw [PositionManager.keys_claim, Function.update_of_ne hne]

/-- The slots before round `i` are taken by other keys. -/
structure Walked (pm : PositionManager) (k : UInt64) (i : ℕ) : Prop where
  valid : k ≠ kEmptySlot
  lt : i < kMaxSymbols
  before : ∀ d < i, pm.keys (probe (start k) d) ≠ kEmptySlot ∧ pm.keys (probe (start k) d) ≠ k

/-- What a thread knows while it walks. -/
def Seen (pm : PositionManager) : Pc → Prop
  | .idle => True
  | .loading k i => Walked pm k i
  | .exchanging k i => Walked pm k i

/-- What a call that has returned has established: its slot holds the key, or every slot holds
another one. -/
def Done (pm : PositionManager) (k : UInt64) : Option (Fin kMaxSymbols) → Prop
  | some j => pm.keys j = k ∧ k ≠ kEmptySlot
  | none => ∀ j, pm.keys j ≠ kEmptySlot ∧ pm.keys j ≠ k

section Mono

variable {pm pm' : PositionManager} {k : UInt64}

theorem Walked.mono {i : ℕ} (h : Walked pm k i) (hg : Grows pm pm') : Walked pm' k i where
  valid := h.valid
  lt := h.lt
  before := by
    intro d hd
    rw [hg _ (h.before d hd).1]
    exact h.before d hd

theorem Seen.mono {pc : Pc} (h : Seen pm pc) (hg : Grows pm pm') : Seen pm' pc := by
  cases pc with
  | idle => trivial
  | loading k i => exact Walked.mono h hg
  | exchanging k i => exact Walked.mono h hg

theorem Done.mono {entry : Option (Fin kMaxSymbols)} (h : Done pm k entry) (hg : Grows pm pm') :
    Done pm' k entry := by
  cases entry with
  | none =>
      intro j
      rw [hg j (h j).1]
      exact h j
  | some j =>
      have hj : pm.keys j ≠ kEmptySlot := by
        rw [h.1]
        exact h.2
      exact ⟨(hg j hj).trans h.1, h.2⟩

end Mono

/-- The invariant. -/
structure Inv (s : State ι) : Prop where
  ok : Ok start kEmptySlot s.pm.keys
  seen : ∀ t, Seen s.pm (s.pc t)
  returned : ∀ x ∈ s.returns, Done s.pm x.2.1 x.2.2

omit [DecidableEq ι] in
theorem inv_init : Inv ({} : State ι) where
  ok := ok_const _ _
  seen := fun _ => trivial
  returned := by simp

section Steps

variable {s : State ι} {t : ι}

/-- A thread goes on with what it knows. -/
theorem Inv.goto (h : Inv s) {pc : Pc} (hpc : Seen s.pm pc) : Inv (Insert.goto s t pc) where
  ok := h.ok
  seen := by
    intro t'
    by_cases ht : t' = t
    · subst ht
      simpa [Insert.goto] using hpc
    · simpa [Insert.goto, ht] using h.seen t'
  returned := h.returned

/-- A call returns with what it has established. -/
theorem Inv.finish (h : Inv s) {k : UInt64} {entry : Option (Fin kMaxSymbols)}
    (hdone : Done s.pm k entry) : Inv (Insert.finish s t k entry) where
  ok := h.ok
  seen := by
    have hidle : Inv (Insert.goto s t .idle) := h.goto trivial
    exact hidle.seen
  returned := by
    intro x hx
    rcases List.mem_append.1 hx with hx | hx
    · exact h.returned x hx
    · rw [List.mem_singleton.1 hx]
      exact hdone

/-- A round ends at a slot that holds another key.  After the last round the walk has been all
around the table. -/
theorem Inv.advance (h : Inv s) {k : UInt64} {i : ℕ} (hwalked : Walked s.pm k i)
    (hfree : s.pm.keys (probe (start k) i) ≠ kEmptySlot)
    (hother : s.pm.keys (probe (start k) i) ≠ k) : Inv (Insert.advance s t k i) := by
  have hbefore : ∀ d < i + 1, s.pm.keys (probe (start k) d) ≠ kEmptySlot ∧
      s.pm.keys (probe (start k) d) ≠ k := by
    intro d hd
    rcases Nat.lt_succ_iff_lt_or_eq.1 hd with hlt | rfl
    · exact hwalked.before d hlt
    · exact ⟨hfree, hother⟩
  unfold Insert.advance
  split_ifs with hmore
  · exact h.goto ⟨hwalked.valid, hmore, hbefore⟩
  · refine h.finish fun j => ?_
    have hd : dist (start k) j < i + 1 := lt_of_lt_of_le (dist_lt _ _) (by omega)
    rw [← probe_dist (start k) j]
    exact hbefore _ hd

omit [DecidableEq ι] in
/-- The exchange succeeds: the key is in no other slot, and the path to its slot is taken. -/
theorem Inv.claim (h : Inv s) {k : UInt64} {i : ℕ} (hwalked : Walked s.pm k i)
    (hfree : s.pm.keys (probe (start k) i) = kEmptySlot) :
    Inv { s with pm := s.pm.claim (probe (start k) i) k } := by
  have hgrows := grows_claim hfree k
  have hnew := h.ok.ne_of_walked hwalked.valid hfree fun d hd => (hwalked.before d hd).2
  refine ⟨?_, fun t => (h.seen t).mono hgrows, fun x hx => (h.returned x hx).mono hgrows⟩
  rw [PositionManager.keys_claim]
  refine h.ok.claim hnew hfree ?_
  intro d hd
  rw [dist_probe _ hwalked.lt] at hd
  exact (hwalked.before d hd).1

/-- **Every step keeps the invariant**, and the keys of the slots that are taken. -/
theorem Inv.step {s' : State ι} {a : Action ι} (h : Inv s) (hstep : Insert.step s a = some s') :
    Inv s' ∧ Grows s.pm s'.pm := by
  cases a with
  | call t k =>
      cases hpc : s.pc t with
      | idle =>
          simp only [Insert.step, hpc, Option.ite_none_left_eq_some, Option.some_inj] at hstep
          obtain ⟨hk, rfl⟩ := hstep
          exact ⟨h.goto ⟨hk, by decide, by simp⟩, Grows.refl _⟩
      | _ => simp [Insert.step, hpc] at hstep
  | load t =>
      cases hpc : s.pc t with
      | loading k i =>
          have hwalked : Walked s.pm k i := by simpa [Seen, hpc] using h.seen t
          simp only [Insert.step, hpc] at hstep
          split_ifs at hstep with h₁ h₂ <;> obtain rfl := Option.some_inj.1 hstep
          · exact ⟨h.finish ⟨h₁, hwalked.valid⟩, Grows.refl _⟩
          · exact ⟨h.goto hwalked, Grows.refl _⟩
          · refine ⟨h.advance hwalked h₂ h₁, ?_⟩
            unfold Insert.advance
            split_ifs <;> exact Grows.refl _
      | _ => simp [Insert.step, hpc] at hstep
  | exchange t =>
      cases hpc : s.pc t with
      | exchanging k i =>
          have hwalked : Walked s.pm k i := by simpa [Seen, hpc] using h.seen t
          simp only [Insert.step, hpc] at hstep
          split_ifs at hstep with h₁ h₂ <;> obtain rfl := Option.some_inj.1 hstep
          · refine ⟨(h.claim hwalked h₁).finish ⟨?_, hwalked.valid⟩, grows_claim h₁ k⟩
            simp
          · exact ⟨h.finish ⟨h₂, hwalked.valid⟩, Grows.refl _⟩
          · refine ⟨h.advance hwalked h₁ h₂, ?_⟩
            unfold Insert.advance
            split_ifs <;> exact Grows.refl _
      | _ => simp [Insert.step, hpc] at hstep

/-- **A slot once claimed keeps its key**, however long the threads go on. -/
theorem Grows.exec (h : Inv s) {as : List (Action ι)} {s' : State ι}
    (hrun : Runs.exec Insert.step s as = some s') : Grows s.pm s'.pm := by
  have hboth : Inv s' ∧ Grows s.pm s'.pm :=
    Runs.exec_inv (I := fun u => Inv u ∧ Grows s.pm u.pm)
      (fun u a v hu hstep =>
        ⟨(hu.1.step hstep).1, hu.2.trans (hu.1.step hstep).2⟩) ⟨h, Grows.refl _⟩ hrun
  exact hboth.2

end Steps

end Insert

/-- **Concurrent insertion never splits a symbol.**  Whatever the threads do and however their loads
and exchanges interleave: no key is in two slots, a slot that is taken keeps its key ever after,
the calls for one key that return an entry return the same one, the slot of that key, and a call
that returns none has found the table full of 256 other keys. -/
theorem concurrent_insert {ι : Type} [DecidableEq ι] (as : List (Insert.Action ι))
    (s : Insert.State ι) (hrun : Runs.exec Insert.step {} as = some s) :
    (∀ i j, s.pm.keys i = s.pm.keys j → s.pm.keys i ≠ kEmptySlot → i = j) ∧
    (∀ as' s', Runs.exec Insert.step s as' = some s' →
      ∀ j, s.pm.keys j ≠ kEmptySlot → s'.pm.keys j = s.pm.keys j) ∧
    (∀ t t' key j j', (t, key, some j) ∈ s.returns → (t', key, some j') ∈ s.returns → j = j') ∧
    (∀ t key j, (t, key, some j) ∈ s.returns → s.pm.keys j = key) ∧
    (∀ t key, (t, key, none) ∈ s.returns →
      (Finset.univ.image s.pm.keys).card = 256 ∧ kEmptySlot ∉ Finset.univ.image s.pm.keys ∧
        key ∉ Finset.univ.image s.pm.keys) := by
  have h : Insert.Inv s :=
    Runs.exec_inv (fun _ _ _ h hst => (h.step hst).1) Insert.inv_init hrun
  refine ⟨fun i j => h.ok.unique, fun as' s' hrun' => Insert.Grows.exec h hrun', ?_,
    fun t key j hmem => (h.returned _ hmem).1, ?_⟩
  · intro t t' key j j' hmem hmem'
    obtain ⟨hj, hkey⟩ := h.returned _ hmem
    obtain ⟨hj', -⟩ := h.returned _ hmem'
    refine h.ok.unique (hj.trans hj'.symm) ?_
    rw [hj]
    exact hkey
  · intro t key hmem
    have hfull := h.returned _ hmem
    refine ⟨?_, ?_, ?_⟩
    · have hinj : Function.Injective s.pm.keys := fun i j hij => h.ok.unique hij (hfull i).1
      rw [Finset.card_image_of_injective _ hinj]
      exact Finset.card_fin _
    · intro hk
      obtain ⟨j, -, hj⟩ := Finset.mem_image.1 hk
      exact (hfull j).1 hj
    · intro hk
      obtain ⟨j, -, hj⟩ := Finset.mem_image.1 hk
      exact (hfull j).2 hj

/-- Two threads read the same slot as free and both try to claim it for one symbol: the second
exchange fails, and the call returns the slot all the same. -/
theorem concurrent_insert_of_race :
    let key : UInt64 := symbolToKey [65, 65, 80, 76]
    let as : List (Insert.Action (Fin 2)) :=
      [.call 0 key, .call 1 key, .load 0, .load 1, .exchange 0, .exchange 1]
    ∃ s j j', Runs.exec Insert.step {} as = some s ∧ (0, key, some j) ∈ s.returns ∧
      (1, key, some j') ∈ s.returns ∧ j = j' := by
  intro key as
  have hrun : (Runs.exec Insert.step {} as).any (fun s =>
      (0, key, some (start key)) ∈ s.returns ∧ (1, key, some (start key)) ∈ s.returns) = true := by
    decide +kernel
  obtain ⟨s, hs, hprops⟩ := (Option.any_eq_true _ _).1 hrun
  obtain ⟨hj, hj'⟩ := of_decide_eq_true hprops
  exact ⟨s, _, _, hs, hj, hj', (concurrent_insert as s hs).2.2.1 0 1 key _ _ hj hj'⟩

end Trading
