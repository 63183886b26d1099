/-
  JSON values with their members in document order, over a type of numbers, and the look-ups that
  a reader of documents needs: each answers `none` for a value of another shape.
-/
import BlockScript.Number.Layout

namespace BlockScript.Json

/-- A JSON value whose numbers are of type `ν`. -/
inductive Value (ν : Type) where
  | null
  | bool (b : Bool)
  | number (n : ν)
  | string (s : String)
  | array (items : List (Value ν))
  | object (members : List (String × Value ν))
deriving Repr

/-- A number of a document: an integer that fits in 64 bits, or a double. -/
inductive Number where
  | integer (n : Int)
  | double (d : Double)
deriving DecidableEq, Repr

/-- A document as it is read from text. -/
abbrev Document := Value Number

/-- Text of a number. -/
def Number.text : Number → List Char
  | .integer n => Decimal.intText n
  | .double d => d.text

namespace Value

variable {ν : Type}

/-- The member of an object under `key`. -/
def get? (v : Value ν) (key : String) : Option (Value ν) :=
  match v with
  | .object members => members.lookup key
  | _ => none

def bool? : Value ν → Option Bool
  | .bool b => some b
  | _ => none

def string? : Value ν → Option String
  | .string s => some s
  | _ => none

def number? : Value ν → Option ν
  | .number n => some n
  | _ => none

def array? : Value ν → Option (List (Value ν))
  | .array items => some items
  | _ => none

def object? : Value ν → Option (List (String × Value ν))
  | .object members => some members
  | _ => none

end Value

end BlockScript.Json
