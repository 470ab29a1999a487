import ArosTools.Program.Text

/-!
# JSON values

A parsed JSON document: a number is kept the way the parser classifies it, and an object is the
list of its fields.  The accessors answer nothing on a value of another kind.
-/

namespace ArosTools

open Str

/-- A JSON number: an unsigned or a negative integer, or a float by its bits. -/
inductive JsonNumber where
  | posInt (n : UInt64)
  | negInt (n : ℤ)
  | float (bits : UInt64)
  deriving DecidableEq, Repr

/-- A JSON value. -/
inductive JsonValue where
  | null
  | bool (b : Bool)
  | number (n : JsonNumber)
  | string (text : Text)
  | array (values : List JsonValue)
  | object (fields : List (Text × JsonValue))

namespace JsonValue

/-- The fields of an object. -/
abbrev Fields := List (Text × JsonValue)

/-- `Map::get`. -/
def get (fields : Fields) (field : String) : Option JsonValue := fields.lookup (lit field)

/-- `Value::as_object`. -/
def asObject : JsonValue → Option Fields
  | .object fields => some fields
  | _ => none

/-- `Value::as_array`. -/
def asArray : JsonValue → Option (List JsonValue)
  | .array values => some values
  | _ => none

/-- `Value::as_str`. -/
def asStr : JsonValue → Option Text
  | .string text => some text
  | _ => none

/-- `Value::as_u64`. -/
def asU64 : JsonValue → Option UInt64
  | .number (.posInt n) => some n
  | _ => none

/-- `Value::is_null`. -/
def isNull : JsonValue → Bool
  | .null => true
  | _ => false

@[simp] theorem asObject_eq_some {value : JsonValue} {fields : Fields} :
    value.asObject = some fields ↔ value = .object fields := by
  cases value <;> simp [asObject]

@[simp] theorem asArray_eq_some {value : JsonValue} {values : List JsonValue} :
    value.asArray = some values ↔ value = .array values := by
  cases value <;> simp [asArray]

@[simp] theorem asStr_eq_some {value : JsonValue} {text : Text} :
    value.asStr = some text ↔ value = .string text := by
  cases value <;> simp [asStr]

end JsonValue

end ArosTools
