/-
  Compact JSON text of a value: no blanks, members in document order. Strings are quoted: between
  double quotes the quote, the backslash and every character below U+0020 are written as escapes.
-/
import BlockScript.Json.Value

namespace BlockScript.Text

/-- A lower-case hexadecimal digit. -/
def hexDigit (n : Nat) : Char := if n < 10 then Char.ofNat (48 + n) else Char.ofNat (87 + n)

/-- How one character is written between quotes. -/
def escaped (c : Char) : List Char :=
  if c = '"' then ['\\', '"']
  else if c = '\\' then ['\\', '\\']
  else if c = '\n' then ['\\', 'n']
  else if c = '\r' then ['\\', 'r']
  else if c = '\t' then ['\\', 't']
  else if c = '\x08' then ['\\', 'b']
  else if c = '\x0c' then ['\\', 'f']
  else if c.toNat < 32 then
    ['\\', 'u', '0', '0', hexDigit (c.toNat / 16), hexDigit (c.toNat % 16)]
  else [c]

/-- A string in double quotes. -/
def quoted (s : String) : List Char := '"' :: (s.toList.flatMap escaped ++ ['"'])

end BlockScript.Text

namespace BlockScript.Json

open BlockScript.Text

/-- Text of a truth value. -/
def boolText (b : Bool) : List Char := if b then "true".toList else "false".toList

mutual

/-- Compact text of a document. -/
def Value.compact : Document → List Char
  | .null => "null".toList
  | .bool b => boolText b
  | .number n => n.text
  | .string s => quoted s
  | .array items => '[' :: (List.intercalate [','] (itemTexts items) ++ [']'])
  | .object members => '\x7b' :: (List.intercalate [','] (memberTexts members) ++ ['\x7d'])

/-- Compact texts of the items of an array. -/
def itemTexts : List Document → List (List Char)
  | [] => []
  | item :: rest => item.compact :: itemTexts rest

/-- Compact texts of the members of an object, each with its key. -/
def memberTexts : List (String × Document) → List (List Char)
  | [] => []
  | (key, value) :: rest => (quoted key ++ ':' :: value.compact) :: memberTexts rest

end

/-- Compact text of a value, a string standing for itself. -/
def Value.plain (v : Document) : String :=
  match v with
  | .string s => s
  | other => String.ofList other.compact

end BlockScript.Json
