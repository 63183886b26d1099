/-
  Reading JSON text.

  The reader is strict: blanks are space, tab, line feed and carriage return, strings hold no raw
  control character and no unpaired surrogate, numerals have no leading zero, and nothing but blanks
  follows the value. Arrays and objects nest up to a given depth. A key that is repeated in an
  object keeps its first place and takes its last value. What numbers are made of numerals is left
  to the caller, so that the same reader serves exact decimals and doubles.
-/
import BlockScript.Json.Numeral
import BlockScript.Keyed

namespace BlockScript.Json

namespace Reader

/-! ## Blanks and numerals -/

def isBlank (c : Char) : Bool := c == ' ' || c == '\t' || c == '\n' || c == '\r'

def skipBlanks (text : List Char) : List Char := text.dropWhile isBlank

def digitValue (c : Char) : Nat := c.toNat - 48

/-- The longest run of decimal digits at the start, and what follows it. -/
def digits (text : List Char) : List Nat × List Char :=
  ((text.takeWhile Char.isDigit).map digitValue, text.dropWhile Char.isDigit)

/-- The whole part of a numeral: a lone zero, or digits that do not start with one. -/
def whole? (text : List Char) : Option (List Nat × List Char) :=
  match text with
  | '0' :: rest => some ([0], rest)
  | _ =>
    match digits text with
    | ([], _) => none
    | run => some run

/-- The fraction of a numeral: after a point, at least one digit. -/
def fraction? (text : List Char) : Option (List Nat × List Char) :=
  match text with
  | '.' :: rest =>
    match digits rest with
    | ([], _) => none
    | run => some run
  | _ => some ([], text)

/-- The natural number with the given decimal digits. -/
def natOfDigits (run : List Nat) : Nat := run.foldl (fun n digit => 10 * n + digit) 0

/-- The digits of an exponent, at least one. -/
def exponentDigits? (negative : Bool) (text : List Char) : Option (Option Int × List Char) :=
  match digits text with
  | ([], _) => none
  | (run, rest) =>
    let size : Int := natOfDigits run
    some (some (if negative then -size else size), rest)

/-- The exponent of a numeral: after the mark an optional sign and digits. -/
def exponent? (text : List Char) : Option (Option Int × List Char) :=
  match text with
  | mark :: rest =>
    if mark = 'e' ∨ mark = 'E' then
      match rest with
      | '+' :: run => exponentDigits? false run
      | '-' :: run => exponentDigits? true run
      | run => exponentDigits? false run
    else some (none, text)
  | [] => some (none, [])

/-- A numeral after its sign. -/
def unsigned? (negative : Bool) (text : List Char) : Option (Numeral × List Char) := do
  let (whole, rest) ← whole? text
  let (fraction, rest) ← fraction? rest
  let (exponent, rest) ← exponent? rest
  some (⟨negative, whole, fraction, exponent⟩, rest)

def numeral? (text : List Char) : Option (Numeral × List Char) :=
  match text with
  | '-' :: rest => unsigned? true rest
  | _ => unsigned? false text

/-! ## Strings -/

def hexValue? (c : Char) : Option Nat :=
  if '0' ≤ c ∧ c ≤ '9' then some (c.toNat - 48)
  else if 'a' ≤ c ∧ c ≤ 'f' then some (c.toNat - 87)
  else if 'A' ≤ c ∧ c ≤ 'F' then some (c.toNat - 55)
  else none

/-- The 16-bit unit that four hexadecimal digits denote. -/
def unit? (a b c d : Char) : Option Nat := do
  let a ← hexValue? a
  let b ← hexValue? b
  let c ← hexValue? c
  let d ← hexValue? d
  some (((a * 16 + b) * 16 + c) * 16 + d)

def isHighSurrogate (unit : Nat) : Bool := 0xD800 ≤ unit && unit ≤ 0xDBFF

def isLowSurrogate (unit : Nat) : Bool := 0xDC00 ≤ unit && unit ≤ 0xDFFF

/-- The character that a pair of surrogate units denotes. -/
def pairChar (high low : Nat) : Char :=
  Char.ofNat (0x10000 + (high - 0xD800) * 0x400 + (low - 0xDC00))

/-- The character that a one-letter escape stands for. -/
def simpleEscape? (c : Char) : Option Char :=
  if c = '"' ∨ c = '\\' ∨ c = '/' then some c
  else if c = 'b' then some '\x08'
  else if c = 'f' then some '\x0c'
  else if c = 'n' then some '\n'
  else if c = 'r' then some '\r'
  else if c = 't' then some '\t'
  else none

/-- Puts a character in front of a string read so far. -/
def withChar (c : Char) : Option (List Char × List Char) → Option (List Char × List Char)
  | some (body, rest) => some (c :: body, rest)
  | none => none

/-- The characters of a string up to its closing quote, and what follows the quote. -/
def stringBody : List Char → Option (List Char × List Char)
  | [] => none
  | '"' :: rest => some ([], rest)
  | '\\' :: 'u' :: a :: b :: c :: d :: rest =>
    match unit? a b c d with
    | none => none
    | some unit =>
      if isLowSurrogate unit then none
      else if isHighSurrogate unit then
        match rest with
        | '\\' :: 'u' :: e :: f :: g :: h :: rest =>
          match unit? e f g h with
          | none => none
          | some low =>
            if isLowSurrogate low then withChar (pairChar unit low) (stringBody rest) else none
        | _ => none
      else withChar (Char.ofNat unit) (stringBody rest)
  | '\\' :: c :: rest =>
    match simpleEscape? c with
    | none => none
    | some c => withChar c (stringBody rest)
  | c :: rest => if c = '\\' ∨ c.toNat < 32 then none else withChar c (stringBody rest)

/-! ## Values -/

variable {ν : Type} (number? : Numeral → Option ν)

mutual

/-- A value at the start of the text, with at most `depth` levels of nesting, and what follows. -/
def value : (fuel depth : Nat) → List Char → Option (Value ν × List Char)
  | 0, _, _ => none
  | fuel + 1, depth, text =>
    match skipBlanks text with
    | 'n' :: 'u' :: 'l' :: 'l' :: rest => some (.null, rest)
    | 't' :: 'r' :: 'u' :: 'e' :: rest => some (.bool true, rest)
    | 'f' :: 'a' :: 'l' :: 's' :: 'e' :: rest => some (.bool false, rest)
    | '"' :: rest => do
      let (body, rest) ← stringBody rest
      some (.string (String.ofList body), rest)
    | '[' :: rest =>
      match depth with
      | 0 => none
      | depth + 1 =>
        match skipBlanks rest with
        | ']' :: rest => some (.array [], rest)
        | start => do
          let (items, rest) ← items fuel depth start
          some (.array items, rest)
    | '\x7b' :: rest =>
      match depth with
      | 0 => none
      | depth + 1 =>
        match skipBlanks rest with
        | '\x7d' :: rest => some (.object [], rest)
        | start => do
          let (members, rest) ← members fuel depth start
          some (.object (Keyed.settle members), rest)
    | start => do
      let (numeral, rest) ← numeral? start
      let n ← number? numeral
      some (.number n, rest)

/-- One or more items up to the closing bracket of their array. -/
def items : (fuel depth : Nat) → List Char → Option (List (Value ν) × List Char)
  | 0, _, _ => none
  | fuel + 1, depth, text => do
    let (item, rest) ← value fuel depth text
    match skipBlanks rest with
    | ']' :: rest => some ([item], rest)
    | ',' :: rest =>
      let (more, rest) ← items fuel depth rest
      some (item :: more, rest)
    | _ => none

/-- One or more members up to the closing brace of their object. -/
def members : (fuel depth : Nat) → List Char → Option (List (String × Value ν) × List Char)
  | 0, _, _ => none
  | fuel + 1, depth, text =>
    match skipBlanks text with
    | '"' :: rest => do
      let (key, rest) ← stringBody rest
      match skipBlanks rest with
      | ':' :: rest =>
        let (item, rest) ← value fuel depth rest
        let member := (String.ofList key, item)
        match skipBlanks rest with
        | '\x7d' :: rest => some ([member], rest)
        | ',' :: rest =>
          let (more, rest) ← members fuel depth rest
          some (member :: more, rest)
        | _ => none
      | _ => none
    | _ => none

end

end Reader

/-- The value that the whole of a text denotes, with at most `depth` levels of nesting. Every two
    steps of the reader consume a character, which bounds the fuel. -/
def read? {ν : Type} (number? : Numeral → Option ν) (depth : Nat) (text : List Char) :
    Option (Value ν) :=
  match Reader.value number? (2 * text.length + 2) depth text with
  | some (v, rest) => if Reader.skipBlanks rest = [] then some v else none
  | none => none

/-- How many arrays and objects of a document may stand inside one another. -/
def deepestNesting : Nat := 127

/-- The document that a text denotes. -/
def Document.ofText? (text : String) : Option Document :=
  read? Numeral.number? deepestNesting text.toList

end BlockScript.Json
