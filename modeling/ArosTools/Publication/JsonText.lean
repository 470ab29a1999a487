import ArosTools.Publication.Names

/-!
# JSON texts

What a compact JSON serializer writes: strings with their escapes, numbers, lists and objects, with
no blanks between them.
-/

namespace ArosTools

namespace Json

/-- A byte of a JSON string. -/
def escape (b : UInt8) : Bytes :=
  if b == 0x22 || b == 0x5c then [0x5c, b]
  else if b == 0x08 then ascii "\\b"
  else if b == 0x09 then ascii "\\t"
  else if b == 0x0a then ascii "\\n"
  else if b == 0x0c then ascii "\\f"
  else if b == 0x0d then ascii "\\r"
  else if b < 0x20 then ascii "\\u" ++ hexDigits 4 b.toNat
  else [b]

/-- A string. -/
def string (text : Bytes) : Bytes := [0x22] ++ text.flatMap escape ++ [0x22]

/-- A number. -/
def number (n : ℕ) : Bytes := (Nat.toDigits 10 n).map fun c => c.toNat.toUInt8

/-- A value that may be absent. -/
def option {α : Type} (write : α → Bytes) : Option α → Bytes
  | some a => write a
  | none => ascii "null"

/-- A list. -/
def array (values : List Bytes) : Bytes := [0x5b] ++ [0x2c].intercalate values ++ [0x5d]

/-- An object. -/
def object (fields : List (Bytes × Bytes)) : Bytes :=
  [0x7b] ++ [0x2c].intercalate (fields.map fun field => string field.1 ++ [0x3a] ++ field.2) ++
    [0x7d]

/-- A field that is left out when it is absent. -/
def optionalField {α : Type} (name : String) (write : α → Bytes) :
    Option α → List (Bytes × Bytes)
  | some a => [(ascii name, write a)]
  | none => []

end Json

end ArosTools
