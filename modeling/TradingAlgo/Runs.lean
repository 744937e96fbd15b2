/-
**Runs of a machine given by a partial step function.**

A machine is a function `step : σ → α → Option σ`: in the state `s` the action `a` is either not
enabled (`none`) or leads to exactly one next state.  Interleavings of several threads are lists of
actions, so a statement about "every interleaving" is a statement about every list of actions that
executes.

Main definitions:

* `Runs.exec` — the state reached by a list of actions, if all of them are enabled in turn;
* `Runs.AllSteps` — every step of a run meets a condition on the state before it and its action;
* `Runs.tally`, `Runs.entries` — what a log whose entries name a party adds up to, and holds, for
  one of them;
* `Runs.Since` — an entry of a log that nothing of a kind follows.

Main results:

* `Runs.exec_inv` — the invariant rule: what holds at the start and is kept by every step holds
  in every state a run reaches;
* `Runs.exec_inv_of_allSteps` — the same for the runs whose steps meet a condition;
* `Runs.exec_isSome_of_allSteps` — the progress rule: such runs go through;
* `Runs.exec_projection` — the projection rule: a run as a smaller machine sees it;
* `Runs.countP_le_of_measure`, `Runs.length_le_of_measure` — the measure rules: a party whose steps
  lower a measure takes few of them;
* `Runs.AllSteps.of_isPrefix`, `Runs.exists_of_not_allSteps` — such runs and their beginnings;
* `Runs.sum_update` — a sum over a family of parties, one of which took a step.
-/

import Mathlib.Algebra.BigOperators.Fin
import Mathlib.Tactic

set_option relaxedAutoImplicit false
set_option autoImplicit false

namespace Runs

variable {σ α : Type*}

/-- The state that the actions lead to, `none` when one of them is not enabled in its turn. -/
def exec (step : σ → α → Option σ) : σ → List α → Option σ
  | s, [] => some s
  | s, a :: as => (step s a).bind fun t => exec step t as

@[simp] theorem exec_nil (step : σ → α → Option σ) (s : σ) : exec step s [] = some s := rfl

@[simp] theorem exec_cons (step : σ → α → Option σ) (s : σ) (a : α) (as : List α) :
    exec step s (a :: as) = (step s a).bind fun t => exec step t as := rfl

/-- **The invariant rule.** -/
theorem exec_inv {step : σ → α → Option σ} {I : σ → Prop}
    (hstep : ∀ s a t, I s → step s a = some t → I t) :
    ∀ {as : List α} {s t : σ}, I s → exec step s as = some t → I t := by
  intro as
  induction as with
  | nil =>
      intro s t hs ht
      rw [exec_nil] at ht
      exact Option.some_inj.1 ht ▸ hs
  | cons a as ih =>
      intro s t hs ht
      obtain ⟨u, hu, hut⟩ := Option.bind_eq_some_iff.1 ht
      exact ih (hstep s a u hs hu) hut

/-- Every step of the run meets the condition `ok` on the state before it and its action. -/
def AllSteps (step : σ → α → Option σ) (ok : σ → α → Prop) : σ → List α → Prop
  | _, [] => True
  | s, a :: as =>
      ok s a ∧
        match step s a with
        | none => True
        | some t => AllSteps step ok t as

/-- Whether a run meets a decidable condition is decided by running it. -/
instance decidableAllSteps (step : σ → α → Option σ) (ok : σ → α → Prop)
    [∀ s a, Decidable (ok s a)] : ∀ s as, Decidable (AllSteps step ok s as)
  | _, [] => isTrue trivial
  | s, a :: as =>
      match h : step s a with
      | none => decidable_of_iff (ok s a) (by simp [AllSteps, h])
      | some t =>
          have : Decidable (AllSteps step ok t as) := decidableAllSteps step ok t as
          decidable_of_iff (ok s a ∧ AllSteps step ok t as) (by simp [AllSteps, h])

theorem AllSteps.cons_some {step : σ → α → Option σ} {ok : σ → α → Prop} {s t : σ} {a : α}
    {as : List α} (h : AllSteps step ok s (a :: as)) (ht : step s a = some t) :
    ok s a ∧ AllSteps step ok t as := by
  simpa [AllSteps, ht] using h

/-- A condition on the actions alone. -/
theorem allSteps_of_forall {step : σ → α → Option σ} {ok : α → Prop} :
    ∀ {as : List α} (s : σ), (∀ a ∈ as, ok a) → AllSteps step (fun _ => ok) s as := by
  intro as
  induction as with
  | nil => exact fun _ _ => trivial
  | cons a as ih =>
      intro s hok
      refine ⟨hok a List.mem_cons_self, ?_⟩
      cases step s a with
      | none => trivial
      | some t => exact ih t fun b hb => hok b (List.mem_cons_of_mem a hb)

/-- **The invariant rule for the runs whose steps meet a condition.** -/
theorem exec_inv_of_allSteps {step : σ → α → Option σ} {ok : σ → α → Prop} {I : σ → Prop}
    (hstep : ∀ s a t, I s → ok s a → step s a = some t → I t) :
    ∀ {as : List α} {s t : σ}, I s → AllSteps step ok s as → exec step s as = some t → I t := by
  intro as
  induction as with
  | nil =>
      intro s t hs _ ht
      rw [exec_nil] at ht
      exact Option.some_inj.1 ht ▸ hs
  | cons a as ih =>
      intro s t hs hok ht
      obtain ⟨u, hu, hut⟩ := Option.bind_eq_some_iff.1 ht
      obtain ⟨hoka, hoks⟩ := hok.cons_some hu
      exact ih (hstep s a u hs hoka hu) hoks hut

/-- **The progress rule**: where the invariant and the condition make a step possible, a run whose
steps meet the condition goes through. -/
theorem exec_isSome_of_allSteps {step : σ → α → Option σ} {ok : σ → α → Prop} {I : σ → Prop}
    (hstep : ∀ s a, I s → ok s a → ∃ t, step s a = some t ∧ I t) :
    ∀ {as : List α} {s : σ}, I s → AllSteps step ok s as → (exec step s as).isSome := by
  intro as
  induction as with
  | nil => exact fun _ _ => rfl
  | cons a as ih =>
      intro s hs hok
      obtain ⟨t, ht, hinv⟩ := hstep s a hs hok.1
      rw [exec_cons, ht, Option.bind_some]
      exact ih hinv (hok.cons_some ht).2

/-- The beginning of a run whose steps meet a condition is such a run. -/
theorem AllSteps.of_isPrefix {step : σ → α → Option σ} {ok : σ → α → Prop} :
    ∀ {as as' : List α} {s : σ}, AllSteps step ok s as → as' <+: as → AllSteps step ok s as' := by
  intro as as'
  induction as' generalizing as with
  | nil => exact fun _ _ => trivial
  | cons a as' ih =>
      rintro s h ⟨bs, rfl⟩
      refine ⟨h.1, ?_⟩
      cases ht : step s a with
      | none => trivial
      | some t => exact ih (h.cons_some ht).2 (List.prefix_append as' bs)

/-- A run that does not meet a condition throughout has a first step that does not meet it. -/
theorem exists_of_not_allSteps {step : σ → α → Option σ} {ok : σ → α → Prop} :
    ∀ {as : List α} {s : σ}, ¬ AllSteps step ok s as →
      ∃ as' a t, as' ++ [a] <+: as ∧ exec step s as' = some t ∧ ¬ ok t a := by
  intro as
  induction as with
  | nil => exact fun h => absurd trivial h
  | cons a as ih =>
      intro s h
      by_cases hok : ok s a
      · cases ht : step s a with
        | none => exact absurd ⟨hok, by simp [ht]⟩ h
        | some t =>
            have hrest : ¬ AllSteps step ok t as := by
              intro hall
              exact h ⟨hok, by simpa [ht] using hall⟩
            obtain ⟨as', b, u, hpre, hrun, hb⟩ := ih hrest
            refine ⟨a :: as', b, u, ?_, by simpa [ht] using hrun, hb⟩
            exact (List.prefix_cons_inj a).2 hpre
      · exact ⟨[], a, s, ⟨as, rfl⟩, rfl, hok⟩

/-- A run in two parts. -/
theorem exec_append {step : σ → α → Option σ} {as bs : List α} {s t : σ}
    (h : exec step s as = some t) : exec step s (as ++ bs) = exec step t bs := by
  induction as generalizing s with
  | nil =>
      obtain rfl := Option.some_inj.1 h
      rfl
  | cons a as ih =>
      obtain ⟨u, hu, hut⟩ := Option.bind_eq_some_iff.1 h
      simpa [hu] using ih hut

/-- A run with one more step. -/
theorem exec_concat {step : σ → α → Option σ} {as : List α} {a : α} {s t : σ}
    (h : exec step s as = some t) : exec step s (as ++ [a]) = step t a := by
  rw [exec_append h]
  cases ha : step t a <;> simp [ha]

/-- **The projection rule**: where the actions about a part of the state change it as a smaller
machine does, and the other actions leave it alone, a run changes the part as the smaller machine
does on the actions about it. -/
theorem exec_projection {μ : Type*} {step : σ → α → Option σ} {small : μ → α → μ} {about : α → Bool}
    {ok : α → Prop} {R : σ → μ → Prop}
    (hown : ∀ s a t m, ok a → about a = true → R s m → step s a = some t → R t (small m a))
    (hother : ∀ s a t m, ok a → about a = false → R s m → step s a = some t → R t m) :
    ∀ {as : List α} {s t : σ} {m : μ}, R s m → (∀ a ∈ as, ok a) → exec step s as = some t →
      R t ((as.filter about).foldl small m) := by
  intro as
  induction as with
  | nil =>
      intro s t m hs _ h
      obtain rfl := Option.some_inj.1 h
      exact hs
  | cons a as ih =>
      intro s t m hs hok h
      obtain ⟨u, hu, hut⟩ := Option.bind_eq_some_iff.1 h
      have hrest : ∀ b ∈ as, ok b := fun b hb => hok b (List.mem_cons_of_mem a hb)
      cases ha : about a with
      | true =>
          rw [List.filter_cons_of_pos ha, List.foldl_cons]
          exact ih (hown s a u m (hok a List.mem_cons_self) ha hs hu) hrest hut
      | false =>
          rw [List.filter_cons_of_neg (by simp [ha])]
          exact ih (hother s a u m (hok a List.mem_cons_self) ha hs hu) hrest hut

/-- **The measure rule for one party**: where its steps lower a measure and the other steps do not
raise it, a run has at most as many steps of the party as the measure it starts with. -/
theorem countP_le_of_measure {step : σ → α → Option σ} {I : σ → Prop} {ok : α → Prop}
    {own : α → Bool} {work : σ → ℕ}
    (hstep : ∀ s a t, I s → ok a → step s a = some t → I t ∧ (own a).toNat + work t ≤ work s) :
    ∀ {as : List α} {s t : σ}, I s → (∀ a ∈ as, ok a) → exec step s as = some t →
      I t ∧ as.countP own + work t ≤ work s := by
  intro as
  induction as with
  | nil =>
      intro s t hs _ h
      obtain rfl := Option.some_inj.1 h
      exact ⟨hs, by simp⟩
  | cons a as ih =>
      intro s t hs hok h
      obtain ⟨u, hu, hut⟩ := Option.bind_eq_some_iff.1 h
      obtain ⟨hinv, hfirst⟩ := hstep s a u hs (hok a List.mem_cons_self) hu
      obtain ⟨hinv', hrest⟩ := ih hinv (fun b hb => hok b (List.mem_cons_of_mem a hb)) hut
      refine ⟨hinv', ?_⟩
      rw [List.countP_cons]
      cases hown : own a <;> simp only [hown, Bool.toNat_true, Bool.toNat_false, if_true, if_false,
        Bool.false_eq_true] at hfirst ⊢ <;> omega

/-- A sum over a family, after one member of it changed. -/
theorem sum_update {ι β M : Type*} [Fintype ι] [DecidableEq ι] [AddCommGroup M] (g : ι → β → M)
    (st : ι → β) (i : ι) (x : β) :
    ∑ j, g j (Function.update st i x j) = ∑ j, g j (st j) - g i (st i) + g i x := by
  have hupd : ∀ j, g j (Function.update st i x j) =
      Function.update (fun j => g j (st j)) i (g i x) j := by
    intro j
    by_cases hj : j = i
    · subst hj
      simp
    · simp [hj]
  simp only [hupd]
  rw [Finset.sum_update_of_mem (Finset.mem_univ i), Finset.sdiff_singleton_eq_erase,
    ← Finset.add_sum_erase Finset.univ (fun j => g j (st j)) (Finset.mem_univ i)]
  abel

/-! ### Logs -/

section Logs

variable {ι β M : Type*} [DecidableEq ι] [AddCommMonoid M]

/-- The sum of `f` over the entries of a log that are about the party `i`. -/
def tally (f : β → M) (log : List (ι × β)) (i : ι) : M :=
  (log.map fun x => if x.1 = i then f x.2 else 0).sum

@[simp] theorem tally_nil (f : β → M) (i : ι) : tally f [] i = 0 := rfl

theorem tally_cons (f : β → M) (x : ι × β) (log : List (ι × β)) (i : ι) :
    tally f (x :: log) i = (if x.1 = i then f x.2 else 0) + tally f log i := rfl

theorem tally_append (f : β → M) (log log' : List (ι × β)) (i : ι) :
    tally f (log ++ log') i = tally f log i + tally f log' i := by
  simp [tally]

/-- Entries that are all about one party. -/
theorem tally_map_mk (f : β → M) (j : ι) (xs : List β) (i : ι) :
    tally f (xs.map (Prod.mk j)) i = if j = i then (xs.map f).sum else 0 := by
  induction xs with
  | nil => simp
  | cons x xs ih =>
      rw [List.map_cons, tally_cons, ih]
      split_ifs <;> simp

/-- A log that grows by entries about one party. -/
theorem tally_append_map_mk (f : β → M) (log : List (ι × β)) (j : ι) (xs : List β) (i : ι) :
    tally f (log ++ xs.map (Prod.mk j)) i =
      tally f log i + if j = i then (xs.map f).sum else 0 := by
  rw [tally_append, tally_map_mk]

/-- A log that does not mention a party. -/
theorem tally_eq_zero (f : β → M) {log : List (ι × β)} {i : ι} (h : ∀ x ∈ log, x.1 ≠ i) :
    tally f log i = 0 := by
  refine List.sum_eq_zero fun y hy => ?_
  obtain ⟨x, hx, rfl⟩ := List.mem_map.1 hy
  exact if_neg (h x hx)

/-- A sum of quantities that are not negative. -/
theorem tally_nonneg {f : β → ℤ} {log : List (ι × β)} (h : ∀ x ∈ log, 0 ≤ f x.2) (i : ι) :
    0 ≤ tally f log i := by
  refine List.sum_nonneg fun y hy => ?_
  obtain ⟨x, hx, rfl⟩ := List.mem_map.1 hy
  split_ifs
  · exact h x hx
  · exact le_rfl

/-- The entries of a log that are about the party `i`, in their order. -/
def entries (log : List (ι × β)) (i : ι) : List β := (log.filter fun x => x.1 = i).map Prod.snd

theorem entries_concat_self (log : List (ι × β)) (i : ι) (b : β) :
    entries (log ++ [(i, b)]) i = entries log i ++ [b] := by
  simp [entries]

theorem entries_concat_of_ne {i j : ι} (h : j ≠ i) (log : List (ι × β)) (b : β) :
    entries (log ++ [(i, b)]) j = entries log j := by
  simp [entries, Ne.symm h]

theorem count_entries [DecidableEq β] (log : List (ι × β)) (i : ι) (b : β) :
    (entries log i).count b = log.count (i, b) := by
  induction log with
  | nil => rfl
  | cons x log ih =>
      by_cases hx : x.1 = i
      · have hentries : entries (x :: log) i = x.2 :: entries log i := by simp [entries, hx]
        rw [hentries, List.count_cons, List.count_cons, ih]
        simp [Prod.ext_iff, hx]
      · have hentries : entries (x :: log) i = entries log i := by simp [entries, hx]
        have hne : x ≠ (i, b) := fun h => hx (congrArg Prod.fst h)
        rw [hentries, ih, List.count_cons_of_ne hne]

/-- A log that for every party is a beginning of another has no entry that the other has not. -/
theorem subperm_of_entries [DecidableEq β] {log log' : List (ι × β)}
    (h : ∀ i, entries log i <+: entries log' i) : log.Subperm log' := by
  refine List.subperm_ext_iff.2 fun x _ => ?_
  rw [← count_entries log x.1 x.2, ← count_entries log' x.1 x.2]
  exact (h x.1).sublist.count_le x.2

/-- Such a log is shorter when it is for one party. -/
theorem length_lt_of_entries [DecidableEq β] {log log' : List (ι × β)}
    (h : ∀ i, entries log i <+: entries log' i) {i : ι}
    (hlt : (entries log i).length < (entries log' i).length) : log.length < log'.length := by
  have hsub := subperm_of_entries h
  by_contra hle
  have hperm := hsub.perm_of_length_le (not_lt.1 hle)
  have heq := ((hperm.filter fun x => x.1 = i).map Prod.snd).length_eq
  exact absurd heq hlt.ne

end Logs

section Since

variable {β : Type*} {P Q : β → Prop}

/-- Some entry of the log meets `P`, and none after it meets `Q`. -/
def Since (P Q : β → Prop) (log : List β) : Prop :=
  ∃ pre x post, log = pre ++ x :: post ∧ P x ∧ ∀ y ∈ post, ¬ Q y

@[simp] theorem since_nil : ¬ Since P Q [] := by
  rintro ⟨pre, x, post, h, -⟩
  simp at h

/-- A log with one more entry. -/
theorem since_concat (log : List β) (x : β) :
    Since P Q (log ++ [x]) ↔ P x ∨ Since P Q log ∧ ¬ Q x := by
  constructor
  · rintro ⟨pre, y, post, h, hy, hpost⟩
    rcases List.eq_nil_or_concat post with rfl | ⟨post, z, rfl⟩
    · obtain ⟨-, hx⟩ := List.append_inj' h rfl
      exact Or.inl (List.singleton_inj.1 hx ▸ hy)
    · rw [List.concat_eq_append, ← List.cons_append, ← List.append_assoc] at h
      obtain ⟨hlog, hx⟩ := List.append_inj' h rfl
      obtain rfl := List.singleton_inj.1 hx
      exact Or.inr ⟨⟨pre, y, post, hlog, hy, fun w hw => hpost w (by simp [hw])⟩,
        hpost x (by simp)⟩
  · rintro (hx | ⟨⟨pre, y, post, rfl, hy, hpost⟩, hx⟩)
    · exact ⟨log, x, [], rfl, hx, by simp⟩
    · refine ⟨pre, y, post ++ [x], by simp, hy, fun w hw => ?_⟩
      rcases List.mem_append.1 hw with hw | hw
      · exact hpost w hw
      · exact List.mem_singleton.1 hw ▸ hx

end Since

end Runs
