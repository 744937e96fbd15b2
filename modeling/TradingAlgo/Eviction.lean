/-
**First in, first out: what a bounded memory still holds after a run.**

A machine has a memory of keys.  A call of it touches at most one key: a key that is there stays
where it is, a new one goes to the end, and the first one is dropped when the memory is full.
Which keys were inserted and which were evicted is read off the states of the run, not off the
calls.

Main definitions:

* `Eviction.touch` — what touching a key does to the keys;
* `Eviction.Keeps` — a machine whose calls touch keys;
* `Eviction.insertions`, `Eviction.Evicted` — the keys that came in during a run, in their order,
  and whether one was dropped during it.

Main results:

* `Eviction.Keeps.length_run_le`, `Eviction.Keeps.nodup_run` — the memory stays bounded and its
  keys distinct;
* `Eviction.Keeps.keys_run` — **the memory is the last `cap` insertions**;
* `Eviction.Keeps.mem_run_iff`, `Eviction.Keeps.run_value` — a key that is not touched any more
  stays, with what is stored for it, exactly until it is evicted.
-/

import TradingAlgo.BoundedMemo

set_option relaxedAutoImplicit false
set_option autoImplicit false

namespace Eviction

open BoundedMemo

variable {σ γ κ β : Type*}

/-! ### Touching a key -/

theorem length_push_le {cap : ℕ} (hcap : 0 < cap) {l : List κ} (h : l.length ≤ cap) (x : κ) :
    (push cap l x).length ≤ cap := by
  unfold push
  split_ifs
  · simp
    omega
  · simp
    omega

theorem push_of_le {cap : ℕ} {l : List κ} (h : l.length ≤ cap) (x : κ) :
    push cap l x = (if l.length = cap then l.tail else l) ++ [x] := by
  unfold push
  congr 1
  exact if_congr h.ge_iff_eq rfl rfl

theorem map_push {α : Type*} (key : α → κ) (cap : ℕ) (l : List α) (x : α) :
    (push cap l x).map key = push cap (l.map key) (key x) := by
  unfold push
  rw [List.length_map]
  split_ifs <;> simp

section Touch

variable [DecidableEq κ]

/-- A key that is there stays where it is, another one is appended. -/
def touch (cap : ℕ) (ks : List κ) (k : κ) : List κ := if k ∈ ks then ks else push cap ks k

theorem length_touch_le {cap : ℕ} (hcap : 0 < cap) {ks : List κ} (h : ks.length ≤ cap) (k : κ) :
    (touch cap ks k).length ≤ cap := by
  unfold touch
  split_ifs
  · exact h
  · exact length_push_le hcap h k

theorem nodup_touch (cap : ℕ) {ks : List κ} (h : ks.Nodup) (k : κ) : (touch cap ks k).Nodup := by
  unfold touch push
  split_ifs with hmem
  · exact h
  · refine (h.sublist (List.tail_sublist ks)).append (List.nodup_singleton k) ?_
    simpa using fun hk => hmem (List.mem_of_mem_tail hk)
  · refine h.append (List.nodup_singleton k) ?_
    simpa using hmem

theorem mem_touch_self (cap : ℕ) (ks : List κ) (k : κ) : k ∈ touch cap ks k := by
  unfold touch push
  split_ifs with hmem
  · exact hmem
  · simp
  · simp

theorem mem_of_mem_touch {cap : ℕ} {ks : List κ} {k k' : κ} (h : k' ∈ touch cap ks k)
    (hne : k' ≠ k) : k' ∈ ks := by
  unfold touch at h
  split_ifs at h
  · exact h
  · exact (mem_push h).resolve_right hne

/-- The keys that are new after a key was touched. -/
theorem filter_touch (cap : ℕ) (ks : List κ) (k : κ) :
    (touch cap ks k).filter (fun k' => k' ∉ ks) = if k ∈ ks then [] else [k] := by
  unfold touch push
  split_ifs with hmem hfull
  · simp
  · have htail : (ks.tail.filter fun k' => k' ∉ ks) = [] := by
      simpa using fun k' hk' => List.mem_of_mem_tail hk'
    rw [List.filter_append, htail]
    simp [hmem]
  · rw [List.filter_append]
    simp [hmem]

/-! ### Entries with keys -/

section Entries

variable {α : Type*} (key : α → κ)

/-- An update of the entry of a key touches the key. -/
theorem map_upsert (cap : ℕ) {k : κ} {f : α → α} (hf : ∀ a, key (f a) = key a) {new : α}
    (hnew : key new = k) (l : List α) :
    (upsert key cap k f new l).map key = touch cap (l.map key) k := by
  unfold upsert touch
  split_ifs
  · exact keys_modifyFirst key hf l
  · rw [map_push, hnew]

/-- With distinct keys an update leaves the entries of the other keys that are still there. -/
theorem find_upsert_of_mem {cap : ℕ} {k k' : κ} (hk' : k' ≠ k) {f : α → α}
    (hf : ∀ a, key (f a) = key a) {new : α} (hnew : key new = k) {l : List α}
    (hnd : (l.map key).Nodup) (hmem : k' ∈ (upsert key cap k f new l).map key) :
    find key k' (upsert key cap k f new l) = find key k' l := by
  by_cases hroom : Room key cap k l
  · exact find_upsert_of_ne key hroom hf hnew hk'
  · obtain ⟨hk, hfull⟩ := not_or.1 hroom
    have hne : key new ≠ k' := fun h => hk' (h.symm.trans hnew)
    have hpush : upsert key cap k f new l = l.tail ++ [new] := by
      rw [upsert, if_neg hk, push, if_pos (not_lt.1 hfull)]
    rw [hpush] at hmem ⊢
    rw [find_concat, if_neg hne, Option.or_none]
    have htail : k' ∈ l.tail.map key := by simpa [hne.symm] using hmem
    cases l with
    | nil => rfl
    | cons a l =>
        -- the entry that goes has another key, for the keys are distinct
        have ha : key a ≠ k' := by
          rintro rfl
          exact (List.nodup_cons.1 hnd).1 htail
        simp [find, ha]

/-- With distinct keys changing the first entry of a key is changing every one of them. -/
theorem modifyFirst_eq_map {k : κ} {f : α → α} {l : List α} (hnd : (l.map key).Nodup) :
    modifyFirst key k f l = l.map fun a => if key a = k then f a else a := by
  induction l with
  | nil => rfl
  | cons a l ih =>
      obtain ⟨ha, hl⟩ := List.nodup_cons.1 hnd
      simp only [modifyFirst, List.map_cons]
      split_ifs with hk
      · have hrest : ∀ b ∈ l, (if key b = k then f b else b) = b := by
          intro b hb
          refine if_neg fun hbk => ha ?_
          rw [hk, ← hbk]
          exact List.mem_map_of_mem hb
        rw [List.map_congr_left hrest, List.map_id']
      · rw [ih hl]

end Entries

/-! ### The latest keys -/

/-- The last `n` elements. -/
def latest {α : Type*} (n : ℕ) (l : List α) : List α := l.drop (l.length - n)

theorem touch_latest {cap : ℕ} (hcap : 0 < cap) {log : List κ} {k : κ}
    (hk : k ∉ latest cap log) : touch cap (latest cap log) k = latest cap (log ++ [k]) := by
  have hlen : (latest cap log).length = min cap log.length := by
    simp [latest]
    omega
  unfold touch push
  rw [if_neg hk, hlen]
  unfold latest
  split_ifs with hfull
  · have hlog : log.length - cap + 1 = (log ++ [k]).length - cap := by
      simp
      omega
    rw [List.tail_drop, hlog, List.drop_append_of_le_length (by simp; omega)]
  · have h0 : log.length - cap = 0 := by omega
    have h1 : (log ++ [k]).length - cap = 0 := by
      simp
      omega
    rw [h0, h1, List.drop_zero, List.drop_zero]

end Touch

/-! ### Runs -/

section Runs

variable (step : σ → γ → σ) (keys : σ → List κ)

/-- The state after a list of calls. -/
def run (s : σ) (calls : List γ) : σ := calls.foldl step s

/-- Some call of the list dropped the key. -/
def Evicted (k : κ) (s : σ) (calls : List γ) : Prop :=
  ∃ before c after, calls = before ++ c :: after ∧ k ∈ keys (run step s before) ∧
    k ∉ keys (run step s (before ++ [c]))

variable {step keys}

theorem run_append (s : σ) (cs cs' : List γ) :
    run step s (cs ++ cs') = run step (run step s cs) cs' := List.foldl_append

/-- A run at one of its calls. -/
theorem run_split (s : σ) (before : List γ) (c : γ) (after : List γ) :
    run step s (before ++ c :: after) = run step (run step s (before ++ [c])) after := by
  rw [← run_append, List.append_assoc, List.singleton_append]

theorem evicted_cons_iff {k : κ} {s : σ} {c : γ} {calls : List γ} :
    Evicted step keys k s (c :: calls) ↔
      (k ∈ keys s ∧ k ∉ keys (step s c)) ∨ Evicted step keys k (step s c) calls := by
  constructor
  · rintro ⟨before, c', after, heq, hin, hout⟩
    cases before with
    | nil =>
        obtain ⟨rfl, rfl⟩ := List.cons.inj heq
        exact Or.inl ⟨hin, hout⟩
    | cons b before =>
        obtain ⟨rfl, rfl⟩ := List.cons.inj heq
        exact Or.inr ⟨before, c', after, rfl, hin, hout⟩
  · rintro (⟨hin, hout⟩ | ⟨before, c', after, rfl, hin, hout⟩)
    · exact ⟨[], c, calls, rfl, hin, hout⟩
    · exact ⟨c :: before, c', after, rfl, hin, hout⟩

/-- The first call of a list that does not evict a key leaves it where it was. -/
theorem mem_step_of_not_evicted {k : κ} {s : σ} {c : γ} {calls : List γ} (hin : k ∈ keys s)
    (h : ¬ Evicted step keys k s (c :: calls)) :
    k ∈ keys (step s c) ∧ ¬ Evicted step keys k (step s c) calls := by
  rw [evicted_cons_iff] at h
  obtain ⟨hstep, hrest⟩ := not_or.1 h
  exact ⟨not_not.1 fun hout => hstep ⟨hin, hout⟩, hrest⟩

theorem mem_run_of_not_evicted {k : κ} {calls : List γ} {s : σ} (hin : k ∈ keys s)
    (h : ¬ Evicted step keys k s calls) : k ∈ keys (run step s calls) := by
  induction calls generalizing s with
  | nil => exact hin
  | cons c calls ih =>
      obtain ⟨hstep, hrest⟩ := mem_step_of_not_evicted hin h
      exact ih hstep hrest

section Memory

variable [DecidableEq κ]

variable (step keys) in
/-- The keys that came into the memory, in their order. -/
def insertions : σ → List γ → List κ
  | _, [] => []
  | s, c :: calls =>
      ((keys (step s c)).filter fun k => k ∉ keys s) ++ insertions (step s c) calls

variable (step keys) in
/-- The calls `ok` of the machine touch the keys `touched` of its memory, and no others. -/
structure Keeps (cap : ℕ) (touched : γ → Option κ) (ok : γ → Prop) : Prop where
  keys_of_none : ∀ s c, ok c → touched c = none → keys (step s c) = keys s
  keys_of_some : ∀ s c k, ok c → touched c = some k → keys (step s c) = touch cap (keys s) k

namespace Keeps

variable {cap : ℕ} {touched : γ → Option κ} {ok : γ → Prop}
  (h : Keeps step keys cap touched ok)
include h

/-- What every touch keeps, every call keeps. -/
theorem keys_step (P : List κ → Prop) (htouch : ∀ ks k, P ks → P (touch cap ks k)) {s : σ}
    (hs : P (keys s)) {c : γ} (hc : ok c) : P (keys (step s c)) := by
  cases ht : touched c with
  | none => rwa [h.keys_of_none s c hc ht]
  | some k =>
      rw [h.keys_of_some s c k hc ht]
      exact htouch _ k hs

theorem run_inv (P : List κ → Prop) (htouch : ∀ ks k, P ks → P (touch cap ks k))
    {calls : List γ} (hok : ∀ c ∈ calls, ok c) {s : σ} (hs : P (keys s)) :
    P (keys (run step s calls)) := by
  induction calls generalizing s with
  | nil => exact hs
  | cons c calls ih =>
      have hstep := h.keys_step P htouch hs (hok c List.mem_cons_self)
      exact ih (fun c' hc' => hok c' (List.mem_cons_of_mem c hc')) hstep

theorem length_run_le (hcap : 0 < cap) {calls : List γ} (hok : ∀ c ∈ calls, ok c) {s : σ}
    (hs : (keys s).length ≤ cap) : (keys (run step s calls)).length ≤ cap :=
  h.run_inv (fun ks => ks.length ≤ cap) (fun _ k hks => length_touch_le hcap hks k) hok hs

theorem nodup_run {calls : List γ} (hok : ∀ c ∈ calls, ok c) {s : σ} (hs : (keys s).Nodup) :
    (keys (run step s calls)).Nodup :=
  h.run_inv List.Nodup (fun _ k hks => nodup_touch cap hks k) hok hs

/-- **The memory is the last `cap` insertions, in their order.** -/
theorem keys_run (hcap : 0 < cap) {calls : List γ} (hok : ∀ c ∈ calls, ok c) {s : σ}
    (log : List κ) (hs : keys s = latest cap log) :
    keys (run step s calls) = latest cap (log ++ insertions step keys s calls) := by
  induction calls generalizing s log with
  | nil => simpa [insertions, run] using hs
  | cons c calls ih =>
      have hrest : ∀ c' ∈ calls, ok c' := fun c' hc' => hok c' (List.mem_cons_of_mem c hc')
      have hc := hok c List.mem_cons_self
      rw [insertions, ← List.append_assoc]
      refine ih hrest _ ?_
      cases ht : touched c with
      | none =>
          have hnew : ((keys s).filter fun k => k ∉ keys s) = [] := by simp
          rw [h.keys_of_none s c hc ht, hnew, List.append_nil, hs]
      | some k =>
          rw [h.keys_of_some s c k hc ht, filter_touch]
          split_ifs with hmem
          · rw [touch, if_pos hmem, hs, List.append_nil]
          · rw [hs] at hmem ⊢
            exact touch_latest hcap hmem

theorem mem_step_self {k : κ} (s : σ) {c : γ} (hc : ok c) (ht : touched c = some k) :
    k ∈ keys (step s c) := by
  rw [h.keys_of_some s c k hc ht]
  exact mem_touch_self cap (keys s) k

theorem not_mem_step {k : κ} {s : σ} {c : γ} (hc : ok c) (ht : touched c ≠ some k)
    (hout : k ∉ keys s) : k ∉ keys (step s c) := by
  intro hin
  cases htc : touched c with
  | none => exact hout (h.keys_of_none s c hc htc ▸ hin)
  | some k' =>
      rw [h.keys_of_some s c k' hc htc] at hin
      exact hout (mem_of_mem_touch hin fun heq => ht (heq ▸ htc))

theorem not_mem_run {k : κ} {calls : List γ} (hok : ∀ c ∈ calls, ok c)
    (ht : ∀ c ∈ calls, touched c ≠ some k) {s : σ} (hout : k ∉ keys s) :
    k ∉ keys (run step s calls) := by
  induction calls generalizing s with
  | nil => exact hout
  | cons c calls ih =>
      have hstep := h.not_mem_step (hok c List.mem_cons_self) (ht c List.mem_cons_self) hout
      exact ih (fun c' hc' => hok c' (List.mem_cons_of_mem c hc'))
        (fun c' hc' => ht c' (List.mem_cons_of_mem c hc')) hstep

/-- **A key that is not touched any more is there exactly if it was not evicted.** -/
theorem mem_run_iff {k : κ} {calls : List γ} (hok : ∀ c ∈ calls, ok c)
    (ht : ∀ c ∈ calls, touched c ≠ some k) {s : σ} (hin : k ∈ keys s) :
    k ∈ keys (run step s calls) ↔ ¬ Evicted step keys k s calls := by
  refine ⟨?_, mem_run_of_not_evicted hin⟩
  rintro hmem ⟨before, c, after, rfl, -, hout⟩
  rw [run_split] at hmem
  refine h.not_mem_run (fun c' hc' => hok c' ?_) (fun c' hc' => ht c' ?_) hout hmem
  · exact List.mem_append_right _ (List.mem_cons_of_mem c hc')
  · exact List.mem_append_right _ (List.mem_cons_of_mem c hc')

/-- **A key that was not there at first is there exactly if it was touched and not evicted
since.** -/
theorem mem_run_iff_exists {k : κ} {calls : List γ} (hok : ∀ c ∈ calls, ok c) {s : σ}
    (hout : k ∉ keys s) :
    k ∈ keys (run step s calls) ↔ ∃ before c after, calls = before ++ c :: after ∧
      touched c = some k ∧ ¬ Evicted step keys k (run step s (before ++ [c])) after := by
  constructor
  · intro hmem
    -- where the key may also have been there from the start, the induction goes through
    suffices hgoal : (k ∈ keys s ∧ ¬ Evicted step keys k s calls) ∨
        ∃ before c after, calls = before ++ c :: after ∧
          touched c = some k ∧ ¬ Evicted step keys k (run step s (before ++ [c])) after from
      hgoal.resolve_left fun hin => hout hin.1
    clear hout
    induction calls generalizing s with
    | nil =>
        refine Or.inl ⟨hmem, ?_⟩
        rintro ⟨before, c, after, heq, -, -⟩
        simp at heq
    | cons c calls ih =>
        rcases ih (fun c' hc' => hok c' (List.mem_cons_of_mem c hc')) hmem with
          ⟨hin, hev⟩ | ⟨before, c', after, rfl, htouch, hev⟩
        · by_cases htc : touched c = some k
          · exact Or.inr ⟨[], c, calls, rfl, htc, hev⟩
          · have hs : k ∈ keys s := by
              by_contra hnot
              exact h.not_mem_step (hok c List.mem_cons_self) htc hnot hin
            refine Or.inl ⟨hs, ?_⟩
            rw [evicted_cons_iff]
            exact not_or.2 ⟨fun hnot => hnot.2 hin, hev⟩
        · exact Or.inr ⟨c :: before, c', after, rfl, htouch, hev⟩
  · rintro ⟨before, c, after, rfl, htouch, hev⟩
    have hc : ok c := hok c (List.mem_append_right _ List.mem_cons_self)
    have hin : k ∈ keys (run step s (before ++ [c])) := by
      rw [run_append]
      exact h.mem_step_self _ hc htouch
    rw [run_split]
    exact mem_run_of_not_evicted hin hev

/-- What is stored for a key stays as long as it is not touched and not evicted. -/
theorem run_value {value : σ → κ → β}
    (hvalue : ∀ s c k, ok c → (keys s).Nodup → touched c ≠ some k → k ∈ keys (step s c) →
      value (step s c) k = value s k)
    {k : κ} {calls : List γ} (hok : ∀ c ∈ calls, ok c) (ht : ∀ c ∈ calls, touched c ≠ some k)
    {s : σ} (hnd : (keys s).Nodup) (hin : k ∈ keys s) (hev : ¬ Evicted step keys k s calls) :
    value (run step s calls) k = value s k := by
  induction calls generalizing s with
  | nil => rfl
  | cons c calls ih =>
      have hc := hok c List.mem_cons_self
      have htc := ht c List.mem_cons_self
      obtain ⟨hstep, hrest⟩ := mem_step_of_not_evicted hin hev
      have hnd' := h.keys_step List.Nodup (fun _ k' hks => nodup_touch cap hks k') hnd hc
      have hrun := ih (fun c' hc' => hok c' (List.mem_cons_of_mem c hc'))
        (fun c' hc' => ht c' (List.mem_cons_of_mem c hc')) hnd' hstep hrest
      exact hrun.trans (hvalue s c k hc hnd htc hstep)

end Keeps

end Memory

end Runs

end Eviction
