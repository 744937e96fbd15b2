/-
**JSON objects of strings.**

The part of JSON that a program writes when it puts an object together by hand: an object whose
members are strings, without blanks and without escapes.  A character stands for itself in a string
when it is printable ASCII and neither the quote nor the backslash.

Main definitions:

* `JsonObject.isPlain` — the characters that stand for themselves;
* `JsonObject.objectText` — the text of an object;
* `JsonObject.readObject` — the reader, `none` for anything else;
* `JsonObject.WellFormed` — the texts of objects with distinct keys.

Main results:

* `JsonObject.readObject_objectText` — **an object is read back from its text**.
-/

import Mathlib.Tactic

set_option relaxedAutoImplicit false
set_option autoImplicit false

namespace JsonObject

/-! ### Texts -/

/-- The characters that stand for themselves in a string. -/
def isPlain (c : UInt8) : Bool := 32 ≤ c ∧ c ≤ 126 ∧ c ≠ 34 ∧ c ≠ 92

/-- A key with its value. -/
abbrev Member := List UInt8 × List UInt8

/-- A string in its quotes. -/
def stringText (s : List UInt8) : List UInt8 := 34 :: (s ++ [34])

/-- A key, a colon and a value. -/
def memberText (m : Member) : List UInt8 := stringText m.1 ++ 58 :: stringText m.2

/-- The members after the opening brace, with the closing one. -/
def membersText : Member → List Member → List UInt8
  | m, [] => memberText m ++ [125]
  | m, m' :: ms => memberText m ++ 44 :: membersText m' ms

/-- The text of an object. -/
def objectText : List Member → List UInt8
  | [] => [123, 125]
  | m :: ms => 123 :: membersText m ms

/-- Both strings of a member can be written as they are. -/
def PlainMember (m : Member) : Prop := (∀ c ∈ m.1, isPlain c = true) ∧ ∀ c ∈ m.2, isPlain c = true

theorem plainMember_iff (m : Member) :
    PlainMember m ↔ m.1.all isPlain = true ∧ m.2.all isPlain = true := by
  rw [PlainMember, List.all_eq_true, List.all_eq_true]

/-- The text of an object with distinct keys. -/
def WellFormed (text : List UInt8) : Prop :=
  ∃ ms, (∀ m ∈ ms, PlainMember m) ∧ (ms.map Prod.fst).Nodup ∧ text = objectText ms

/-! ### The reader -/

/-- A string up to its closing quote, and what follows it. -/
def readChars : List UInt8 → Option (List UInt8 × List UInt8)
  | [] => none
  | c :: text =>
      if c = 34 then some ([], text)
      else if isPlain c then (readChars text).map fun r => (c :: r.1, r.2)
      else none

/-- A string, and what follows it. -/
def readString : List UInt8 → Option (List UInt8 × List UInt8)
  | 34 :: text => readChars text
  | _ => none

/-- A member, and what follows it. -/
def readMember (text : List UInt8) : Option (Member × List UInt8) :=
  match readString text with
  | some (key, 58 :: rest) => (readString rest).map fun r => ((key, r.1), r.2)
  | _ => none

/-- Members up to the closing brace, which ends the text.  The bound on their number is that of the
characters. -/
def readMembers : ℕ → List UInt8 → Option (List Member)
  | 0, _ => none
  | fuel + 1, text =>
      match readMember text with
      | some (m, [125]) => some [m]
      | some (m, 44 :: rest) => (readMembers fuel rest).map (m :: ·)
      | _ => none

/-- The members of an object, if the text is one. -/
def readObject : List UInt8 → Option (List Member)
  | [123, 125] => some []
  | 123 :: text => readMembers text.length text
  | _ => none

/-! ### Reading what was written -/

theorem readChars_append {s : List UInt8} (hs : ∀ c ∈ s, isPlain c = true) (rest : List UInt8) :
    readChars (s ++ 34 :: rest) = some (s, rest) := by
  induction s with
  | nil => rfl
  | cons c s ih =>
      have hc := hs c List.mem_cons_self
      have hquote : c ≠ 34 := by
        rintro rfl
        simp [isPlain] at hc
      have hrest := ih fun c' hc' => hs c' (List.mem_cons_of_mem c hc')
      rw [List.cons_append, readChars, if_neg hquote, if_pos hc, hrest, Option.map_some]

theorem readString_stringText {s : List UInt8} (hs : ∀ c ∈ s, isPlain c = true)
    (rest : List UInt8) : readString (stringText s ++ rest) = some (s, rest) := by
  have htext : stringText s ++ rest = 34 :: (s ++ 34 :: rest) := by simp [stringText]
  rw [htext]
  exact readChars_append hs rest

theorem readMember_memberText {m : Member} (hm : PlainMember m) (rest : List UInt8) :
    readMember (memberText m ++ rest) = some (m, rest) := by
  have htext : memberText m ++ rest = stringText m.1 ++ (58 :: (stringText m.2 ++ rest)) := by
    simp [memberText]
  rw [htext, readMember, readString_stringText hm.1]
  simp [readString_stringText hm.2]

theorem readMembers_membersText {m : Member} {ms : List Member} (hm : PlainMember m)
    (hms : ∀ m' ∈ ms, PlainMember m') {fuel : ℕ} (hfuel : ms.length < fuel) :
    readMembers fuel (membersText m ms) = some (m :: ms) := by
  induction ms generalizing m fuel with
  | nil =>
      obtain ⟨fuel, rfl⟩ := Nat.exists_eq_succ_of_ne_zero (by omega : fuel ≠ 0)
      rw [membersText, readMembers, readMember_memberText hm]
      rfl
  | cons m' ms ih =>
      obtain ⟨fuel, rfl⟩ := Nat.exists_eq_succ_of_ne_zero (by omega : fuel ≠ 0)
      have hrest := ih (hms m' List.mem_cons_self)
        (fun m'' hm'' => hms m'' (List.mem_cons_of_mem m' hm'')) (Nat.lt_of_succ_lt_succ hfuel)
      rw [membersText, readMembers, readMember_memberText hm]
      simp only [hrest, Option.map_some]

theorem length_lt_membersText (m : Member) (ms : List Member) :
    ms.length < (membersText m ms).length := by
  induction ms generalizing m with
  | nil => simp [membersText]
  | cons m' ms ih =>
      have hrest := ih m'
      simp only [membersText, List.length_append, List.length_cons] at hrest ⊢
      omega

/-- **An object is read back from its text.** -/
theorem readObject_objectText {ms : List Member} (hms : ∀ m ∈ ms, PlainMember m) :
    readObject (objectText ms) = some ms := by
  cases ms with
  | nil => rfl
  | cons m ms =>
      have hread := readMembers_membersText (hms m List.mem_cons_self)
        (fun m' hm' => hms m' (List.mem_cons_of_mem m hm')) (length_lt_membersText m ms)
      unfold readObject objectText
      split
      · -- the text of a member does not begin with a brace
        rename_i heq
        cases ms <;> simp [membersText, memberText, stringText] at heq
      · rename_i heq
        obtain ⟨-, rfl⟩ := List.cons.inj heq
        exact hread
      · rename_i hne
        exact absurd rfl (hne _)

end JsonObject
