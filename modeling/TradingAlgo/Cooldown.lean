/-
**What the cooldown remembers.**

A cooldown slot stores the time of the last order that passed, and starts with zero.  The loop of
`checkAndUpdate` stops at the first slot of a symbol, so that is all there is to a cooldown: one
stored time for each registered symbol.  Zero stands for "no order yet", but it is also a clock
reading, the boot of the machine; and the time is stored before the limits of the risk manager are
looked at.  Both show: an order too soon after the boot is rejected though it is the first one, and
an order that fails a limit makes the next one wait.

Main definitions:

* `Trading.OrderCooldown.lastOrderTime` — the stored time of a symbol;
* `Trading.OrderCooldown.passedFor` — when the calls for a symbol passed;
* `Trading.OrderCooldown.MeetsSpec` — the answers to a list of calls are those of a cooldown that
  starts with the first order that passes;
* `Trading.LeavesNoTrace` — a rejected order changes nothing, now or later.

Main results:

* `Trading.OrderCooldown.checkAndUpdate_passes`, `Trading.OrderCooldown.lastOrderTime_step` — one
  call reads and writes the stored time of its own symbol;
* `Trading.OrderCooldown.lastOrderTime_check` — after any calls the stored time is that of the last
  call that passed;
* `Trading.OrderCooldown.cooldown_meets_spec_iff` — the answers are as specified exactly when no
  registered symbol is checked before the clock has reached the cooldown;
* `Trading.rejected_order_leaves_no_trace_iff` — which rejections leave no trace.
-/

import TradingAlgo.Tradable

set_option relaxedAutoImplicit false
set_option autoImplicit false

namespace Trading

namespace OrderCooldown

/-! ### The stored time of a symbol -/

/-- The time in the first slot of a symbol. -/
def timeIn (slots : List CooldownSlot) (symbol : CharArray 8) : Option UInt64 :=
  (slots.find? fun slot => slot.symbol = symbol).map CooldownSlot.lastOrderTime

/-- The stored time of a symbol, `none` when it is not registered. -/
def lastOrderTime (c : OrderCooldown) (symbol : CharArray 8) : Option UInt64 :=
  timeIn c.slots symbol

theorem timeIn_cons_self {slot : CooldownSlot} {symbol : CharArray 8} (h : slot.symbol = symbol)
    (slots : List CooldownSlot) : timeIn (slot :: slots) symbol = some slot.lastOrderTime := by
  simp [timeIn, h]

theorem timeIn_cons_of_ne {slot : CooldownSlot} {symbol : CharArray 8} (h : slot.symbol ≠ symbol)
    (slots : List CooldownSlot) : timeIn (slot :: slots) symbol = timeIn slots symbol := by
  simp [timeIn, h]

/-- The answer of the loop is decided by the stored time. -/
theorem checkSlots_passes (cooldownNs : UInt64) (symbol : CharArray 8) (now : UInt64)
    (slots : List CooldownSlot) :
    (checkSlots cooldownNs symbol now slots).1 = true ↔
      ∃ last, timeIn slots symbol = some last ∧ cooldownNs ≤ now - last := by
  induction slots with
  | nil => simp [checkSlots, timeIn]
  | cons slot rest ih =>
      by_cases hsym : slot.symbol = symbol
      · rw [timeIn_cons_self hsym]
        by_cases hnow : now - slot.lastOrderTime < cooldownNs
        · simp [checkSlots, hsym, hnow]
        · simpa [checkSlots, hsym, hnow] using UInt64.not_lt.1 hnow
      · rw [timeIn_cons_of_ne hsym, ← ih]
        simp [checkSlots, hsym]

/-- The loop stores the time under the symbol that passed, and touches no other symbol. -/
theorem timeIn_checkSlots (cooldownNs : UInt64) (symbol : CharArray 8) (now : UInt64)
    (slots : List CooldownSlot) (s : CharArray 8) :
    timeIn (checkSlots cooldownNs symbol now slots).2 s =
      if s = symbol ∧ (checkSlots cooldownNs symbol now slots).1 = true then some now
      else timeIn slots s := by
  induction slots with
  | nil => simp [checkSlots]
  | cons slot rest ih =>
      by_cases hsym : slot.symbol = symbol
      · by_cases hnow : now - slot.lastOrderTime < cooldownNs
        · simp [checkSlots, hsym, hnow]
        · by_cases hs : s = symbol
          · simp [checkSlots, hsym, hnow, hs, timeIn]
          · have hne : slot.symbol ≠ s := fun h => hs (h.symm.trans hsym)
            simp [checkSlots, hsym, hnow, hs, timeIn_cons_of_ne hne]
            simp [timeIn, Ne.symm hs]
      · by_cases hs : slot.symbol = s
        · have hne : s ≠ symbol := fun h => hsym (hs.trans h)
          simp [checkSlots, hsym, timeIn_cons_self hs, hne]
        · simp only [checkSlots, hsym, if_false, timeIn_cons_of_ne hs, ih]

/-- The loop leaves the slots as they are unless it stores a new time. -/
theorem checkSlots_eq_self_iff (cooldownNs : UInt64) (symbol : CharArray 8) (now : UInt64)
    (slots : List CooldownSlot) :
    (checkSlots cooldownNs symbol now slots).2 = slots ↔
      ∀ last, timeIn slots symbol = some last → cooldownNs ≤ now - last → last = now := by
  induction slots with
  | nil => simp [checkSlots, timeIn]
  | cons slot rest ih =>
      by_cases hsym : slot.symbol = symbol
      · rw [timeIn_cons_self hsym]
        by_cases hnow : now - slot.lastOrderTime < cooldownNs
        · simp [checkSlots, hsym, hnow]
        · have hle := UInt64.not_lt.1 hnow
          cases slot with
          | mk t last =>
              simp only at hsym hnow hle ⊢
              simp [checkSlots, hsym, hnow, hle, eq_comm]
      · rw [timeIn_cons_of_ne hsym, ← ih]
        simp [checkSlots, hsym]

/-- **What one call answers.** -/
theorem checkAndUpdate_passes (c : OrderCooldown) (symbol : CharArray 8) (now : UInt64) :
    (c.checkAndUpdate symbol now).1 = true ↔
      ∃ last, c.lastOrderTime symbol = some last ∧ c.cooldownNs ≤ now - last :=
  checkSlots_passes c.cooldownNs symbol now c.slots

/-- **What one call stores.** -/
theorem lastOrderTime_step (c : OrderCooldown) (symbol : CharArray 8) (now : UInt64)
    (s : CharArray 8) :
    (c.checkAndUpdate symbol now).2.lastOrderTime s =
      if s = symbol ∧ (c.checkAndUpdate symbol now).1 = true then some now
      else c.lastOrderTime s :=
  timeIn_checkSlots c.cooldownNs symbol now c.slots s

theorem checkAndUpdate_eq_self_iff (c : OrderCooldown) (symbol : CharArray 8) (now : UInt64) :
    (c.checkAndUpdate symbol now).2 = c ↔
      ∀ last, c.lastOrderTime symbol = some last → c.cooldownNs ≤ now - last → last = now := by
  rw [lastOrderTime, ← checkSlots_eq_self_iff]
  cases c with
  | mk slots cooldownNs => simp [checkAndUpdate]

/-! ### Lists of calls -/

/-- The calls of `checkAndUpdate` do not change the cooldown. -/
@[simp] theorem check_cooldownNs (c : OrderCooldown) (calls : List (CharArray 8 × UInt64)) :
    (c.check calls).cooldownNs = c.cooldownNs := by
  induction calls generalizing c with
  | nil => rfl
  | cons x calls ih =>
      rw [check, List.foldl_cons]
      exact ih _

theorem check_snoc (c : OrderCooldown) (calls : List (CharArray 8 × UInt64))
    (symbol : CharArray 8) (now : UInt64) :
    c.check (calls ++ [(symbol, now)]) = ((c.check calls).checkAndUpdate symbol now).2 := by
  simp [check]

/-- The answer of `checkAndUpdate(symbol)` at the clock reading `now`, after earlier calls. -/
def answerAfter (c : OrderCooldown) (before : List (CharArray 8 × UInt64)) (symbol : CharArray 8)
    (now : UInt64) : Bool :=
  ((c.check before).checkAndUpdate symbol now).1

/-- The clock readings of the calls for a symbol that returned `true`, in their order. -/
def passedFor (symbol : CharArray 8) : OrderCooldown → List (CharArray 8 × UInt64) → List UInt64
  | _, [] => []
  | c, x :: calls =>
      let r := c.checkAndUpdate x.1 x.2
      if x.1 = symbol ∧ r.1 = true then x.2 :: passedFor symbol r.2 calls
      else passedFor symbol r.2 calls

theorem passedFor_snoc (symbol : CharArray 8) (calls : List (CharArray 8 × UInt64))
    (s : CharArray 8) (now : UInt64) (c : OrderCooldown) :
    passedFor symbol c (calls ++ [(s, now)]) =
      passedFor symbol c calls ++
        if s = symbol ∧ c.answerAfter calls s now = true then [now] else [] := by
  induction calls generalizing c with
  | nil =>
      simp only [List.nil_append, passedFor, answerAfter, check, List.foldl_nil]
      congr
  | cons x calls ih =>
      simp only [List.cons_append, passedFor, ih, answerAfter, check, List.foldl_cons]
      split <;> rfl

/-- A call that passed is one of the calls. -/
theorem mem_of_mem_passedFor {symbol : CharArray 8} {c : OrderCooldown}
    {calls : List (CharArray 8 × UInt64)} {t : UInt64} (h : t ∈ passedFor symbol c calls) :
    (symbol, t) ∈ calls := by
  induction calls generalizing c with
  | nil => simp [passedFor] at h
  | cons x calls ih =>
      simp only [passedFor] at h
      split at h
      · next hx =>
          rcases List.mem_cons.1 h with rfl | h
          · rw [← hx.1]
            exact List.mem_cons_self
          · exact List.mem_cons_of_mem _ (ih h)
      · exact List.mem_cons_of_mem _ (ih h)

/-- **What any calls store**: the time of the last call that passed, and before there is one what
was stored at first. -/
theorem lastOrderTime_check (c : OrderCooldown) (calls : List (CharArray 8 × UInt64))
    (symbol : CharArray 8) :
    (c.check calls).lastOrderTime symbol =
      (c.lastOrderTime symbol).map fun t₀ => (passedFor symbol c calls).getLast?.getD t₀ := by
  induction calls using List.reverseRecOn with
  | nil => simp [check, passedFor]
  | append_singleton calls x ih =>
      rw [check_snoc, lastOrderTime_step, passedFor_snoc]
      by_cases hx : x.1 = symbol ∧ c.answerAfter calls x.1 x.2 = true
      · -- it passed, so the symbol has a stored time
        obtain ⟨last, hlast, -⟩ := (checkAndUpdate_passes _ _ _).1 hx.2
        rw [hx.1, ih, Option.map_eq_some_iff] at hlast
        obtain ⟨t₀, ht₀, -⟩ := hlast
        rw [if_pos ⟨hx.1.symm, hx.2⟩, if_pos hx, ht₀]
        simp
      · have hx' : ¬ (symbol = x.1 ∧ ((c.check calls).checkAndUpdate x.1 x.2).1 = true) :=
          fun h => hx ⟨h.1.symm, h.2⟩
        rw [if_neg hx', if_neg hx, List.append_nil, ih]

/-- The answer depends on the earlier calls only through the stored time. -/
theorem answerAfter_congr {c : OrderCooldown} {before before' : List (CharArray 8 × UInt64)}
    {symbol : CharArray 8}
    (h : (c.check before).lastOrderTime symbol = (c.check before').lastOrderTime symbol)
    (now : UInt64) : c.answerAfter before symbol now = c.answerAfter before' symbol now := by
  rw [Bool.eq_iff_iff, answerAfter, answerAfter, checkAndUpdate_passes, checkAndUpdate_passes, h,
    check_cooldownNs, check_cooldownNs]

/-- Replaying only the calls for a symbol that passed leads to the same stored time. -/
theorem lastOrderTime_replay (c : OrderCooldown) (calls : List (CharArray 8 × UInt64))
    (symbol : CharArray 8) :
    (c.check ((passedFor symbol c calls).map fun t => (symbol, t))).lastOrderTime symbol =
      (c.check calls).lastOrderTime symbol := by
  induction calls using List.reverseRecOn with
  | nil => rfl
  | append_singleton calls x ih =>
      rw [check_snoc, lastOrderTime_step, passedFor_snoc]
      by_cases hx : x.1 = symbol ∧ c.answerAfter calls x.1 x.2 = true
      · have hagain : c.answerAfter ((passedFor symbol c calls).map fun t => (symbol, t)) symbol
            x.2 = true := by
          rw [answerAfter_congr ih, ← hx.1]
          exact hx.2
        have hx' : symbol = x.1 ∧ ((c.check calls).checkAndUpdate x.1 x.2).1 = true :=
          ⟨hx.1.symm, hx.2⟩
        rw [if_pos hx, if_pos hx', List.map_append, List.map_singleton, check_snoc,
          lastOrderTime_step, if_pos ⟨rfl, hagain⟩]
      · have hx' : ¬ (symbol = x.1 ∧ ((c.check calls).checkAndUpdate x.1 x.2).1 = true) :=
          fun h => hx ⟨h.1.symm, h.2⟩
        rw [if_neg hx', if_neg hx, List.append_nil, ih]

/-! ### A new cooldown -/

/-- The cooldown after the calls of `registerSymbol`. -/
def registered (symbols : List (List UInt8)) (cooldownNs : UInt64) : OrderCooldown :=
  symbols.foldl registerSymbol { cooldownNs := cooldownNs }

@[simp] theorem registered_cooldownNs (symbols : List (List UInt8)) (cooldownNs : UInt64) :
    (registered symbols cooldownNs).cooldownNs = cooldownNs := by
  suffices h : ∀ c : OrderCooldown, (symbols.foldl registerSymbol c).cooldownNs = c.cooldownNs from
    h _
  induction symbols with
  | nil => intro c; rfl
  | cons s symbols ih =>
      intro c
      rw [List.foldl_cons, ih, registerSymbol]
      split <;> rfl

/-- Up to 64 symbols have the stored time zero, registered once or repeatedly. -/
theorem lastOrderTime_registered {symbols : List (List UInt8)} (hcount : symbols.length ≤ 64)
    (cooldownNs : UInt64) (symbol : CharArray 8) :
    (registered symbols cooldownNs).lastOrderTime symbol =
      if symbol ∈ symbols.map (CharArray.ofBytes 8) then some 0 else none := by
  have hslots := RiskState.foldl_registerSymbol_slots symbols { cooldownNs := cooldownNs }
    (Nat.zero_le _)
  rw [lastOrderTime, registered, hslots]
  simp only [List.nil_append, List.length_nil, Nat.sub_zero, kMaxSymbols,
    List.take_of_length_le hcount]
  clear hslots hcount
  induction symbols with
  | nil => rfl
  | cons s symbols ih =>
      rw [List.map_cons, List.map_cons]
      by_cases hs : CharArray.ofBytes 8 s = symbol
      · rw [timeIn_cons_self hs, if_pos (hs ▸ List.mem_cons_self)]
      · rw [timeIn_cons_of_ne hs, ih]
        simp [Ne.symm hs]

/-- The answers to a list of calls are those of a cooldown that starts with the first order that
passes: a call returns `true` exactly when its symbol is registered and no earlier call for it did,
or the last one that did is at least the cooldown ago.  The calls for other symbols and those that
were rejected could as well not have been made. -/
def MeetsSpec (symbols : List (List UInt8)) (cooldownNs : UInt64)
    (calls : List (CharArray 8 × UInt64)) : Prop :=
  ∀ before symbol now, before ++ [(symbol, now)] <+: calls →
    let c := registered symbols cooldownNs
    (c.answerAfter before symbol now = true ↔
      symbol ∈ symbols.map (CharArray.ofBytes 8) ∧
        (passedFor symbol c before = [] ∨
          ∃ last, (passedFor symbol c before).getLast? = some last ∧
            (cooldownNs.toNat : ℤ) ≤ now.toNat - last.toNat)) ∧
    c.answerAfter before symbol now =
      c.answerAfter ((passedFor symbol c before).map fun t => (symbol, t)) symbol now

section Registered

variable {symbols : List (List UInt8)} {cooldownNs : UInt64}

/-- The answer to a call by a new cooldown: only a registered symbol passes, and a symbol that has
not passed counts as one that passed at time zero. -/
theorem answerAfter_registered (hcount : symbols.length ≤ 64)
    (before : List (CharArray 8 × UInt64)) (symbol : CharArray 8) (now : UInt64) :
    (registered symbols cooldownNs).answerAfter before symbol now = true ↔
      symbol ∈ symbols.map (CharArray.ofBytes 8) ∧
        cooldownNs ≤ now -
          (passedFor symbol (registered symbols cooldownNs) before).getLast?.getD 0 := by
  rw [answerAfter, checkAndUpdate_passes, lastOrderTime_check, lastOrderTime_registered hcount,
    check_cooldownNs, registered_cooldownNs]
  by_cases hreg : symbol ∈ symbols.map (CharArray.ofBytes 8)
  · simp [hreg]
  · simp [hreg]

/-- While the clock is below the cooldown no call passes. -/
theorem passedFor_eq_nil (hcount : symbols.length ≤ 64) {symbol : CharArray 8}
    {calls : List (CharArray 8 × UInt64)} (h : ∀ x ∈ calls, x.2 < cooldownNs) :
    passedFor symbol (registered symbols cooldownNs) calls = [] := by
  induction calls using List.reverseRecOn with
  | nil => rfl
  | append_singleton calls x ih =>
      have hnil := ih fun y hy => h y (List.mem_append_left _ hy)
      have hlate : ¬ cooldownNs ≤ x.2 := UInt64.not_le.2 (h x (by simp))
      rw [passedFor_snoc, hnil, if_neg]
      · rfl
      · rintro ⟨rfl, hpass⟩
        rw [answerAfter_registered hcount, hnil] at hpass
        exact hlate (by simpa using hpass.2)

/-- The unsigned difference is the difference when the clock does not run backwards. -/
theorem le_sub_iff_of_le {cooldownNs now last : UInt64} (h : last ≤ now) :
    cooldownNs ≤ now - last ↔ (cooldownNs.toNat : ℤ) ≤ now.toNat - last.toNat := by
  rw [UInt64.le_iff_toNat_le, UInt64.toNat_sub_of_le _ _ h]
  have := UInt64.le_iff_toNat_le.1 h
  omega

/-- **The cooldown is as specified exactly when no registered symbol is checked too soon after the
clock started.**  For up to 64 registrations and any calls with clock readings that do not
decrease: the time of every call for a registered symbol has to be at least the cooldown. -/
theorem cooldown_meets_spec_iff (hcount : symbols.length ≤ 64) {calls : List (CharArray 8 × UInt64)}
    (hclock : calls.Pairwise fun x y => x.2 ≤ y.2) :
    MeetsSpec symbols cooldownNs calls ↔
      ∀ x ∈ calls, x.1 ∈ symbols.map (CharArray.ofBytes 8) → cooldownNs ≤ x.2 := by
  constructor
  · intro hspec x hx hreg
    obtain ⟨before, after, rfl⟩ := List.append_of_mem hx
    have hpre : before ++ [x] <+: before ++ x :: after := ⟨after, by simp⟩
    by_contra hlate
    have hlt := UInt64.not_le.1 hlate
    -- all calls up to this one are below the cooldown, so none of them passed
    have hbefore : ∀ y ∈ before, y.2 < cooldownNs := fun y hy =>
      UInt64.lt_of_le_of_lt ((List.pairwise_append.1 hclock).2.2 y hy x List.mem_cons_self) hlt
    have hnil : passedFor x.1 (registered symbols cooldownNs) before = [] :=
      passedFor_eq_nil hcount hbefore
    have hpass := (hspec before x.1 x.2 hpre).1.2 ⟨hreg, Or.inl hnil⟩
    rw [answerAfter_registered hcount, hnil] at hpass
    exact hlate (by simpa using hpass.2)
  · intro hlate before symbol now hpre
    obtain ⟨after, rfl⟩ := hpre
    refine ⟨?_, answerAfter_congr (lastOrderTime_replay _ _ _).symm _⟩
    rw [answerAfter_registered hcount]
    refine and_congr_right fun hreg => ?_
    cases hlast : (passedFor symbol (registered symbols cooldownNs) before).getLast? with
    | none =>
        have hnil := List.getLast?_eq_none_iff.1 hlast
        simpa [hnil] using hlate (symbol, now) (by simp) hreg
    | some last =>
        -- the last call that passed is an earlier call, so the clock is not behind it
        have hmem := mem_of_mem_passedFor (List.mem_of_getLast? hlast)
        have hle : last ≤ now := by
          rw [List.append_assoc] at hclock
          exact (List.pairwise_append.1 hclock).2.2 _ hmem (symbol, now) (by simp)
        have hne : passedFor symbol (registered symbols cooldownNs) before ≠ [] := by
          rintro hnil
          simp [hnil] at hlast
        simp [hne, le_sub_iff_of_le hle]

end Registered

/-- A symbol registered twice, checked once the clock is past the cooldown: at first, too soon and
again. -/
theorem cooldown_of_three_calls :
    let aapl : CharArray 8 := CharArray.ofBytes 8 [65, 65, 80, 76]
    MeetsSpec [[65, 65, 80, 76], [65, 65, 80, 76]] 100 [(aapl, 100), (aapl, 150), (aapl, 200)] := by
  intro aapl
  exact (cooldown_meets_spec_iff (by decide) (by decide)).2 (by decide +kernel)

/-- With a cooldown of an hour, the first order ten minutes after the boot is rejected. -/
theorem first_order_after_boot_rejected :
    let aapl : CharArray 8 := CharArray.ofBytes 8 [65, 65, 80, 76]
    [(aapl, (600000000000 : UInt64))].Pairwise (fun x y => x.2 ≤ y.2) ∧
      ¬ MeetsSpec [[65, 65, 80, 76]] 3600000000000 [(aapl, 600000000000)] := by
  intro aapl
  refine ⟨List.pairwise_singleton _ _, fun hspec => ?_⟩
  have hpass := (hspec [] aapl 600000000000 (List.prefix_refl _)).1.2
    ⟨by decide +kernel, Or.inl rfl⟩
  exact absurd hpass (by decide +kernel)

end OrderCooldown

/-! ### A rejected order -/

/-- If the order is rejected, both components are as before, and every later order, after whatever
calls, is decided as if it had not been submitted. -/
def LeavesNoTrace (rm : RiskManager) (s : RiskState) (order : Order) (now : UInt64) : Prop :=
  (rm.onNewOrder s order now).1 = false →
    (rm.onNewOrder s order now).2 = s ∧
      ∀ (calls : List RiskState.Call) (later : Order) (time : UInt64),
        (rm.onNewOrder (calls.foldl (RiskState.call rm) (rm.onNewOrder s order now).2) later
          time).1 = (rm.onNewOrder (calls.foldl (RiskState.call rm) s) later time).1

/-- The order passes the checks after the cooldown. -/
def RiskManager.Accepts (rm : RiskManager) (s : RiskState) (order : Order) : Prop :=
  ∃ pm, s.positionManager = some pm ∧ rm.Admits order (pm.getTotalExposure order.symbol.view)

/-- The order passes the cooldown, and its time is not the one that is stored already. -/
def RiskState.Stores (s : RiskState) (order : Order) (now : UInt64) : Prop :=
  ∃ c last, s.orderCooldown = some c ∧ c.lastOrderTime order.symbol = some last ∧
    c.cooldownNs ≤ now - last ∧ last ≠ now

theorem RiskManager.checkCooldown_eq_self_iff (s : RiskState) (order : Order) (now : UInt64) :
    (RiskManager.checkCooldown s order now).2 = s ↔ ¬ s.Stores order now := by
  cases s with
  | mk pm cooldown =>
      cases cooldown with
      | none => simp [RiskManager.checkCooldown, RiskState.Stores]
      | some c =>
          simp only [RiskManager.checkCooldown, RiskState.mk.injEq, true_and, Option.some_inj,
            OrderCooldown.checkAndUpdate_eq_self_iff, RiskState.Stores]
          constructor
          · rintro h ⟨c', last, rfl, hlast, hpass, hne⟩
            exact hne (h last hlast hpass)
          · intro h last hlast hpass
            by_contra hne
            exact h ⟨c, last, rfl, hlast, hpass, hne⟩

/-- An order that stores its time has passed the cooldown. -/
theorem RiskState.Stores.passes {s : RiskState} {order : Order} {now : UInt64}
    (h : s.Stores order now) : (RiskManager.checkCooldown s order now).1 = true := by
  obtain ⟨c, last, hc, hlast, hpass, -⟩ := h
  simp only [RiskManager.checkCooldown, hc]
  exact (c.checkAndUpdate_passes order.symbol now).2 ⟨last, hlast, hpass⟩

/-- An order that passes the cooldown is approved exactly when it passes the other checks. -/
theorem RiskManager.onNewOrder_of_passes {rm : RiskManager} {s : RiskState} {order : Order}
    {now : UInt64} (h : (checkCooldown s order now).1 = true) :
    (rm.onNewOrder s order now).1 = true ↔ rm.Accepts s order := by
  unfold Accepts
  cases hpm : s.positionManager with
  | none => simp [onNewOrder, h, hpm]
  | some pm =>
      by_cases ha : rm.Admits order (pm.getTotalExposure order.symbol.view)
      · simp [onNewOrder, h, hpm, ha]
      · simp [onNewOrder, h, hpm, ha]

/-- **Which orders leave no trace when they are rejected**: all but those that pass the cooldown,
so that their time is stored, and then fail the position manager or a limit. -/
theorem rejected_order_leaves_no_trace_iff (rm : RiskManager) (s : RiskState) (order : Order)
    (now : UInt64) :
    LeavesNoTrace rm s order now ↔ (s.Stores order now → rm.Accepts s order) := by
  constructor
  · intro h hstores
    rw [← RiskManager.onNewOrder_of_passes hstores.passes]
    by_contra hrejected
    have hfalse : (rm.onNewOrder s order now).1 = false := by simpa using hrejected
    have hsame := (h hfalse).1
    rcases rm.onNewOrder_cases s order now with ⟨pm, -, -, -, heq⟩ | heq
    · simp [heq] at hfalse
    · rw [heq] at hsame
      exact (RiskManager.checkCooldown_eq_self_iff s order now).1 hsame hstores
  · intro h hfalse
    have hnot : ¬ s.Stores order now := by
      intro hstores
      have htrue := (RiskManager.onNewOrder_of_passes hstores.passes).2 (h hstores)
      rw [hfalse] at htrue
      exact Bool.false_ne_true htrue
    have hsame : (rm.onNewOrder s order now).2 = s := by
      rcases rm.onNewOrder_cases s order now with ⟨pm, -, -, -, heq⟩ | heq
      · simp [heq] at hfalse
      · rw [heq]
        exact (RiskManager.checkCooldown_eq_self_iff s order now).2 hnot
    refine ⟨hsame, fun calls later time => ?_⟩
    rw [hsame]

/-- A purchase over the position limit is rejected, and because of it so is one within the limit,
40 ms later, that would have been approved. -/
theorem rejected_order_blocks_the_next :
    let aapl : CharArray 8 := CharArray.ofBytes 8 [65, 65, 80, 76]
    let s := RiskState.wire [[65, 65, 80, 76]] 100000000
    let large : Order := { symbol := aapl, quantity := 1001, price := 100000, side := .buy }
    let small : Order := { symbol := aapl, quantity := 10, price := 100000, side := .buy }
    let r := ({} : RiskManager).onNewOrder s large 1000000000
    r.1 = false ∧ (({} : RiskManager).onNewOrder r.2 small 1040000000).1 = false ∧
      (({} : RiskManager).onNewOrder s small 1040000000).1 = true ∧
      ¬ LeavesNoTrace {} s large 1000000000 := by
  intro aapl s large small r
  have hlarge : r.1 = false := by decide +kernel
  have hafter : (({} : RiskManager).onNewOrder r.2 small 1040000000).1 = false := by
    decide +kernel
  have halone : (({} : RiskManager).onNewOrder s small 1040000000).1 = true := by decide +kernel
  refine ⟨hlarge, hafter, halone, fun h => ?_⟩
  have hsame := (h hlarge).2 [] small 1040000000
  rw [List.foldl_nil, List.foldl_nil, halone] at hsame
  exact Bool.false_ne_true (hafter.symm.trans hsame)

end Trading
