/-
  Converting a project: one of its targets to a text, or all of them to one file per target.
-/
import BlockScript.Command.Single

namespace BlockScript.Command

open BlockScript.Disk BlockScript.Script

/-- The document of the named target of a project text. -/
def convertTarget (text name : String) : Except Failure String := do
  let project ← (Project.ofText text).mapError fun error => { cause := .project error }
  let some target := project.target? name
    | .error (.plain s!"Target '{name}' not found in project.")
  (Script.targetText project target).mapError fun halt => { cause := .script halt }

/-- Writes the files of targets in their order, the first of them having the given number. -/
def convertOutputs (observer : Observer) (out : Disk.Path) (options : Options) (total : Nat) :
    (index : Nat) → List Output → Run (List Disk.Path)
  | _, [] => return []
  | index, output :: rest => do
    let path ← convertOutput observer out options total index output
    let paths ← convertOutputs observer out options total (index + 1) rest
    return path.toList ++ paths

/-- Writes the scripts of a project below a directory, telling an observer of each target. Without
    `keepGoing` the first target that fails ends the run; what was written before stays. -/
def convertObserved (observer : Observer) (project : Project) (out : Disk.Path)
    (options : Options) : Run (List Disk.Path) := do
  Run.makeDirectories ["Failed to create '" ++ out.text ++ "'."] out
  let outputs := outputs project
  convertOutputs observer out options outputs.length 1 outputs

/-- Writes the scripts of a project below a directory. -/
def convertProject (project : Project) (out : Disk.Path) (options : Options) :
    Run (List Disk.Path) :=
  convertObserved (fun _ _ _ => []) project out options

end BlockScript.Command
