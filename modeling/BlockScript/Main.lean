/-
  The program: takes the parts of the real disk that a command line names into a model of the disk,
  runs the command on it, prints what was reported, and writes back what has changed.
-/
import BlockScript.Command.Basic

namespace BlockScript.Program

open BlockScript.Command BlockScript.Disk

/-! ## From the real disk -/

/-- What stands at a place of the real disk. -/
def nodeAt (place : Place) : IO (Option Node) := do
  try
    let path ← IO.FS.realPath (pathOf place).text
    if ← path.isDir then return some .directory
    return some (.file (← IO.FS.readBinFile path))
  catch _ => return none

/-- The names in a directory of the real disk. -/
def namesAt (place : Place) : IO (List String) := do
  let path ← IO.FS.realPath (pathOf place).text
  return (← path.readDir).toList.map (·.fileName)

/-- What stands at a place of the real disk and below it. -/
partial def nodesFrom (place : Place) : IO (List (Place × Node)) := do
  match ← nodeAt place with
  | none => return []
  | some (.file content) => return [(place, .file content)]
  | some .directory =>
    let below ← (← namesAt place).mapM fun name => nodesFrom (place ++ [name])
    return (place, .directory) :: below.flatten

/-- The places that a path passes, its end last. -/
def placesOf (here : Place) (p : Disk.Path) : List Place :=
  let start := if p.isAbsolute then [] else here
  let step (places : List Place) (piece : String) : List Place :=
    let place := places.getLast?.getD start
    if Disk.Path.isIdle piece then places
    else if piece = ".." then places ++ [place.dropLast]
    else places ++ [place ++ [piece]]
  p.pieces.foldl step [start]

/-- The places above a place, and the place itself. -/
def placesAbove (place : Place) : List Place :=
  (List.range (place.length + 1)).map fun n => place.take n

/-- The part of the real disk that some paths lead through, and all below their ends. -/
def diskAround (here : Place) (paths : List Disk.Path) : IO Disk := do
  let places := paths.flatMap (placesOf here)
  let ends := paths.map fun p => (placesOf here p).getLast?.getD []
  let along := (here :: places).flatMap placesAbove
  let passed ← along.eraseDups.filterMapM fun place => do
    return (← nodeAt place).map fun node => (place, node)
  let below ← ends.mapM nodesFrom
  let nodes := (Keyed.settle (passed ++ below.flatten)).filter (·.1 != [])
  return { nodes, here }

/-- The paths that a command line may touch. -/
def pathsOf (disk : Disk) (a : Arguments) : List Disk.Path :=
  let input : Disk.Path := ⟨a.input⟩
  let canonical := (disk.canonical input).toOption.getD input
  [input, defaultOutput disk canonical] ++ (a.output.toList ++ a.extract.toList).map Disk.Path.mk

/-! ## Back to the real disk -/

/-- Writes a node. -/
def store (place : Place) (node : Node) : IO Unit :=
  match node with
  | .directory => IO.FS.createDirAll (pathOf place).text
  | .file content => IO.FS.writeBinFile (pathOf place).text content

/-- Whether a node stands there already. -/
def isStored : Option Node → Node → Bool
  | some .directory, .directory => true
  | some (.file content), .file new => content.data == new.data
  | _, _ => false

/-- Writes the nodes that are new or have changed, directories before what they hold. -/
def storeChanges (before after : Disk) : IO Unit := do
  let changed := after.nodes.filter fun (place, node) => !isStored (before.get? place) node
  for (place, node) in changed.mergeSort fun a b => a.1.length ≤ b.1.length do
    store place node

/-- Prints an event. Notes of the level `info` are for verbose runs. -/
def printEvent (verbose : Bool) : Event → IO Unit
  | .stage line => IO.eprintln line
  | .note .warning text => IO.eprintln s!"[WARN] {text}"
  | .note .info text => if verbose then IO.eprintln s!"[INFO] {text}" else pure ()
  | .target .. => pure ()

/-- What is printed for a command line that is not carried out. -/
def usage : String :=
  "Usage: block-script [--extract DIR] [--extract-only] [--keep-going] [--extension EXT] [-v] " ++
    "INPUT [OUTPUT]"

def usageText : UsageError → String
  | .missingInput => "the input is missing"
  | .unknownArgument => "an argument is not understood"
  | .invalidValue => "an option has no usable value"
  | .repeatedOption => "an option is given twice"
  | .unexpectedValue => "an option takes no value"
  | .helpRequested => "Writes the scripts of a project, one file per target."

/-- Carries out a command line that was understood. -/
def execute (a : Arguments) : IO UInt32 := do
  let root ← IO.currentDir
  let here := (Disk.Path.pieces ⟨root.toString⟩).filter (· != "")
  let first ← diskAround here [⟨a.input⟩]
  let disk ← diskAround here (pathsOf first a)
  let (result, world) := (Command.run a).run { disk }
  storeChanges disk world.disk
  world.events.forM (printEvent a.verbose)
  match result with
  | .ok () => return 0
  | .error failure =>
    IO.eprintln ("Error: " ++ failure.message?.getD "reading or writing failed")
    return 1

end BlockScript.Program

open BlockScript BlockScript.Command in
/-- Runs the command on the arguments behind the name of the program. -/
def main (arguments : List String) : IO UInt32 := do
  match Arguments.ofList arguments with
  | .ok a => Program.execute a
  | .error error =>
    IO.eprintln (Program.usageText error)
    IO.eprintln Program.usage
    return if error = .helpRequested then 0 else 2
