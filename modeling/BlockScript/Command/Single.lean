/-
  The turn of a single target in a conversion: its file is written, or the target is passed over, or
  the conversion ends there.
-/
import BlockScript.Command.World
import BlockScript.Script.Target

namespace BlockScript.Command

open BlockScript.Disk BlockScript.Script

/-- How a project is converted. -/
structure Options where
  extension : String := defaultExtension
  /-- Whether targets that fail are passed over. -/
  keepGoing : Bool := false

/-- What is reported when the turn of a target comes: its number, how many there are, its name. -/
abbrev Observer := Nat → Nat → String → List Event

/-- Writes the file of one target, and tells its path if it was not passed over. -/
def convertOutput (observer : Observer) (out : Disk.Path) (options : Options) (total index : Nat)
    (output : Output) : Run (Option Disk.Path) := do
  Run.report (observer index total output.name)
  match output.result with
  | .ok text =>
    let path := out.join (output.fileName options.extension)
    Run.writeFile path text.toUTF8
    Run.note .info ("wrote " ++ path.text)
    return some path
  | .error halt =>
    if options.keepGoing then
      Run.note .warning ("Skipping target '" ++ output.name ++ "': " ++ halt.message)
      return none
    else
      throw { contexts := ["Failed to convert target '" ++ output.name ++ "'."]
              cause := .script halt }

end BlockScript.Command
