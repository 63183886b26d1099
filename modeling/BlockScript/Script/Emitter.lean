/-
  A growing text with an indentation level. The level is a 64-bit word: moving it saturates at both
  ends, and the number of spaces it stands for wraps.
-/

namespace BlockScript.Script

/-- Text written so far and the level for indented lines. -/
structure Emitter where
  text : String := ""
  indent : UInt64 := 0
deriving DecidableEq, Repr

namespace Emitter

/-- Spaces for one level. -/
def indentWidth : UInt64 := 4

/-- The spaces in front of an indented line. -/
def margin (e : Emitter) : List Char := List.replicate (e.indent * indentWidth).toNat ' '

/-- Appends text, behind the margin if it is to be indented. -/
def write (e : Emitter) (text : List Char) (indented : Bool) : Emitter :=
  { e with text := e.text ++ String.ofList (if indented then e.margin ++ text else text) }

/-- Appends text and a line feed. -/
def writeLine (e : Emitter) (text : List Char) (indented : Bool) : Emitter :=
  (e.write text indented).write ['\n'] false

/-- Appends each text as an indented line. -/
def writeLines (e : Emitter) (texts : List (List Char)) : Emitter :=
  texts.foldl (fun e text => e.writeLine text true) e

/-- Moves the level, within the range of a 64-bit word. -/
def addIndent (e : Emitter) (delta : Int) : Emitter :=
  let level := max 0 (min (e.indent.toNat + delta) (UInt64.size - 1 : Nat))
  { e with indent := level.toNat.toUInt64 }

/-! ## The text and the level after each operation -/

@[simp]
theorem indent_write (e : Emitter) (text : List Char) (indented : Bool) :
    (e.write text indented).indent = e.indent := rfl

@[simp]
theorem indent_writeLine (e : Emitter) (text : List Char) (indented : Bool) :
    (e.writeLine text indented).indent = e.indent := rfl

@[simp]
theorem indent_writeLines (e : Emitter) (texts : List (List Char)) :
    (e.writeLines texts).indent = e.indent := by
  induction texts generalizing e with
  | nil => rfl
  | cons text rest ih => exact ih (e.writeLine text true)

@[simp]
theorem toList_write (e : Emitter) (text : List Char) (indented : Bool) :
    (e.write text indented).text.toList =
      e.text.toList ++ (if indented then e.margin else []) ++ text := by
  cases indented <;> simp [write]

@[simp]
theorem toList_writeLine (e : Emitter) (text : List Char) (indented : Bool) :
    (e.writeLine text indented).text.toList =
      e.text.toList ++ (if indented then e.margin else []) ++ text ++ ['\n'] := by
  simp [writeLine]

theorem toList_writeLines (e : Emitter) (texts : List (List Char)) :
    (e.writeLines texts).text.toList =
      e.text.toList ++ texts.flatMap fun text => e.margin ++ text ++ ['\n'] := by
  induction texts generalizing e with
  | nil => simp [writeLines]
  | cons text rest ih =>
    have hm : (e.writeLine text true).margin = e.margin := rfl
    have hs : e.writeLines (text :: rest) = (e.writeLine text true).writeLines rest := rfl
    rw [hs, ih, hm]
    simp

@[simp]
theorem text_addIndent (e : Emitter) (delta : Int) : (e.addIndent delta).text = e.text := rfl

end Emitter

end BlockScript.Script
