/-
  The command: resolve the input, unpack it if asked to, read the project, write its scripts.
-/
import BlockScript.Command.Arguments
import BlockScript.Command.Convert
import BlockScript.Command.Source

namespace BlockScript.Command

open BlockScript.Disk

/-! ## Progress -/

/-- Marks in a full bar. -/
def barWidth : Nat := 14

/-- A bar of which the share `step / total` is filled, to the nearest mark. -/
def bar (step total : Nat) : String :=
  let filled := (step * barWidth + total / 2) / total
  let marks := (List.range barWidth).map fun i => if i < filled then '=' else '-'
  String.ofList ('[' :: marks ++ [']'])

/-- The line for a stage. -/
def stageLine (label : String) (step total : Nat) : String :=
  s!"[Convert] {label}... ({step}/{total}) " ++ bar step total

/-- Shows that a stage has begun. -/
def stage (label : String) (step total : Nat) : Run Unit :=
  Run.report [.stage (stageLine label step total)]

/-! ## Paths -/

/-- The canonical path of an input that has to be there. -/
def canonicalInput (input : Disk.Path) : Run Disk.Path := do
  let disk ← Run.disk
  if !disk.pathExists input then throw (.plain ("Input not found: '" ++ input.text ++ "'."))
  match disk.canonical input with
  | .ok path => return path
  | .error _ => Run.diskFailure []

/-- Where scripts go unless told otherwise: into a directory, and beside a file. -/
def defaultOutput (disk : Disk) (input : Disk.Path) : Disk.Path :=
  if disk.isDirectory input then input.join "script"
  else (input.parent?.getD ⟨"."⟩).join (input.stem?.getD "project" ++ "_scs")

/-! ## Stages -/

/-- How many stages a run has. -/
def stageCount (arguments : Arguments) : Nat :=
  if arguments.extractOnly then 2
  else if arguments.extract.isSome then 4
  else 3

/-- Unpacks the input as the second stage. -/
def extractStage (arguments : Arguments) (input directory : Disk.Path) : Run Unit := do
  if (← Run.disk).isDirectory input || isJsonFile input then
    throw (.plain "--extract needs an .sb3 archive as input.")
  stage "Extracting archive" 2 (stageCount arguments)
  let count ← extract input directory
  Run.note .info (s!"extracted {count} files into " ++ directory.text)

/-- Reads the project from `source` and writes its scripts, as the last two stages. -/
def convertStages (arguments : Arguments) (input source : Disk.Path) : Run Unit := do
  let total := stageCount arguments
  stage "Reading project" (total - 1) total
  let project ← loadProject source
  stage "Converting targets" total total
  let out := (arguments.output.map Disk.Path.mk).getD (defaultOutput (← Run.disk) input)
  let written ← convertProject project out ⟨arguments.extension, arguments.keepGoing⟩
  let count := written.length
  let targets := project.targets.length
  if count < targets then
    Run.note .warning (s!"{count} of {targets} targets written to '" ++ out.text ++ "'")

/-- Carries out a command line. -/
def run (arguments : Arguments) : Run Unit := do
  if arguments.extractOnly && arguments.extract.isNone then
    throw (.plain "--extract-only requires --extract.")
  stage "Resolving input path" 1 (stageCount arguments)
  let input ← canonicalInput ⟨arguments.input⟩
  match arguments.extract with
  | none => convertStages arguments input input
  | some directory =>
    extractStage arguments input ⟨directory⟩
    if arguments.extractOnly then return
    convertStages arguments input ⟨directory⟩

end BlockScript.Command
