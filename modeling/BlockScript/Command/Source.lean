/-
  Where a project comes from: an archive, a file, or a directory that an archive was unpacked to.
-/
import BlockScript.Archive.Directory
import BlockScript.Command.World

namespace BlockScript.Command

open BlockScript.Archive BlockScript.Disk

/-- The file of an archive or a directory that holds the project. -/
def projectFile : String := "project.json"

/-! ## Archives -/

/-- The place of an archive on the disk, and the entries it lists. -/
def openArchive (archive : Disk.Path) : Run (Place × List Entry) := do
  let disk ← Run.disk
  let invalid : Run (Place × List Entry) :=
    throw { contexts := ["'" ++ archive.text ++ "' is not a valid zip/.sb3 file."]
            cause := .archive }
  match disk.resolve archive, disk.find archive with
  | .ok place, .ok (.file bytes) =>
    match entries? bytes with
    | some entries => return (place, entries)
    | none => invalid
  | .ok _, .ok .directory => invalid
  | _, _ => Run.diskFailure ["Failed to open '" ++ archive.text ++ "'."]

/-- The bytes of the archive at a place, as they are now. -/
def archiveBytes (place : Place) : Run ByteArray := do
  match (← Run.disk).get? place with
  | some (.file bytes) => return bytes
  | _ => return ByteArray.empty

/-- The text of the project in an archive. An entry that cannot be opened counts as missing. -/
def readProjectText (archive : Disk.Path) : Run String := do
  let (place, entries) ← openArchive archive
  let bytes ← archiveBytes place
  let some opened := (entries.find? (·.name == projectFile)).bind fun entry => entry.open? bytes
    | throw (.plain ("project.json not found in '" ++ archive.text ++ "'."))
  let some text := opened.read?.bind String.fromUTF8?
    | Run.diskFailure ["Failed to read project.json from '" ++ archive.text ++ "'."]
  return text

/-- Unpacks one entry, and tells whether it was a file that was written. -/
def extractEntry (place : Place) (out : Disk.Path) (entry : Entry) : Run Bool := do
  let bytes ← archiveBytes place
  let some opened := entry.open? bytes | throw { cause := .archive }
  if !entry.isEnclosed then return false
  let path := out.join entry.name
  if entry.isDirectory then
    Run.makeDirectories [] path
    return false
  match path.parent? with
  | some parent => Run.makeDirectories [] parent
  | none => pure ()
  let some content := opened.read? | Run.diskFailure []
  Run.writeFile path content
  return true

/-- Unpacks the entries in their order, and counts the files that were written. -/
def extractEntries (place : Place) (out : Disk.Path) : List Entry → Run Nat
  | [] => return 0
  | entry :: rest => do
    let written ← extractEntry place out entry
    let count ← extractEntries place out rest
    return count + (if written then 1 else 0)

/-- Unpacks an archive into a directory, and counts the files that were written. -/
def extract (archive out : Disk.Path) : Run Nat := do
  let (place, entries) ← openArchive archive
  Run.makeDirectories ["Failed to create '" ++ out.text ++ "'."] out
  extractEntries place out entries

/-! ## Directories -/

/-- The directories in a directory, by name. -/
def directoriesIn (disk : Disk) (directory : Disk.Path) (names : List String) : List Disk.Path :=
  ((names.mergeSort fun a b => decide (a ≤ b)).map directory.join).filter disk.isDirectory

/-- Searches directories in the order they were met. Every directory of a disk is met at most once,
    so the number of its nodes bounds the turns. -/
def searchFrom (disk : Disk) (notFound : Failure) :
    (turns : Nat) → (queue : List Disk.Path) → Except Failure Disk.Path
  | 0, _ => .error notFound
  | _ + 1, [] => .error notFound
  | turns + 1, directory :: queue =>
    let candidate := directory.join projectFile
    if disk.isFile candidate then .ok candidate
    else
      match disk.list directory with
      | .error _ =>
        .error { contexts := ["Failed to read directory '" ++ directory.text ++ "'."]
                 cause := .disk }
      | .ok names => searchFrom disk notFound turns (queue ++ directoriesIn disk directory names)

/-- The project file nearest to a directory: in it, or else in the first by name of the directories
    that are least deep below it. -/
def locate (directory : Disk.Path) : Run Disk.Path := do
  let disk ← Run.disk
  let notFound := Failure.plain ("project.json not found under '" ++ directory.text ++ "'.")
  ExceptT.mk (pure (searchFrom disk notFound (disk.nodes.length + 2) [directory]))

/-! ## Projects -/

/-- The text of a file. -/
def readText (file : Disk.Path) : Run String := do
  match (← Run.disk).readFile file with
  | .ok bytes =>
    match String.fromUTF8? bytes with
    | some text => return text
    | none => Run.diskFailure ["Failed to read '" ++ file.text ++ "'."]
  | .error _ => Run.diskFailure ["Failed to read '" ++ file.text ++ "'."]

/-- Whether the name of a path has the extension of JSON files, in letters of either case. -/
def isJsonFile (p : Disk.Path) : Bool :=
  match p.extension? with
  | some extension => extension.toList.map Char.toLower == "json".toList
  | none => false

/-- The text of the project that an input leads to, and the path it was found at. -/
def sourceText (input : Disk.Path) : Run (String × Disk.Path) := do
  let disk ← Run.disk
  if disk.isDirectory input then
    let file ← locate input
    return (← readText file, file)
  else if isJsonFile input then return (← readText input, input)
  else return (← readProjectText input, input)

/-- The project that an input leads to. -/
def loadProject (input : Disk.Path) : Run Project := do
  let (text, origin) ← sourceText input
  match Project.ofText text with
  | .ok project => return project
  | .error error =>
    throw { contexts := ["Failed to load project from '" ++ origin.text ++ "'."]
            cause := .project error }

end BlockScript.Command
