/-
  What the command works on: the disk, and a record of what it reports. A step of the command either
  succeeds or fails, and in both cases leaves a world behind.
-/
import BlockScript.Command.Failure
import BlockScript.Disk.Basic

namespace BlockScript.Command

/-- How important a note is. -/
inductive Level where
  | info
  | warning
deriving DecidableEq, Repr

/-- Something the command reports. -/
inductive Event where
  /-- A line of the log. -/
  | note (level : Level) (text : String)
  /-- A line that shows how far the command is. -/
  | stage (line : String)
  /-- The turn of a target, counted from one. -/
  | target (index total : Nat) (name : String)
deriving DecidableEq, Repr

structure World where
  disk : Disk
  /-- What was reported, the oldest first. -/
  events : List Event := []

/-- A step of the command. -/
abbrev Run := ExceptT Failure (StateM World)

namespace Run

/-- Reports some events. -/
def report (events : List Event) : Run Unit :=
  modify fun w => { w with events := w.events ++ events }

/-- Adds a line to the log. -/
def note (level : Level) (text : String) : Run Unit := report [.note level text]

/-- The disk as it is now. -/
def disk : Run Disk := return (← get).disk

/-- A failure of the disk, within some contexts. -/
def diskFailure {α : Type} (contexts : List String) : Run α :=
  throw { contexts, cause := .disk }

/-- Makes a directory and all that are missing above it. -/
def makeDirectories (contexts : List String) (p : Disk.Path) : Run Unit := do
  let (disk, trouble) := (← disk).makeDirectories p
  modify fun w => { w with disk }
  if trouble.isSome then diskFailure contexts

/-- Writes a file. -/
def writeFile (p : Disk.Path) (content : ByteArray) : Run Unit := do
  match (← disk).writeFile p content with
  | .ok disk => modify fun w => { w with disk }
  | .error _ => diskFailure ["Failed to write '" ++ p.text ++ "'."]

end Run

end BlockScript.Command
