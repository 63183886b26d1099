/-
  A disk: files and directories by their place below the root, without links, and a working
  directory that relative paths start from.

  A path is followed piece by piece. Every piece but the last has to lead to a directory, `..` leads
  to the directory above, and a slash at the end asks for a directory.

  Names and paths are strings. A name whose bytes are not UTF-8, which a directory of a system may
  hold, cannot be expressed.
-/
import BlockScript.Disk.Path

namespace BlockScript.Disk

/-- A place, by the names that lead to it from the root. -/
abbrev Place := List String

inductive Node where
  | file (content : ByteArray)
  | directory

/-- Why an operation of the disk failed. -/
inductive Trouble where
  | notFound
  | notDirectory
  | isDirectory
  | alreadyThere
  | badName
deriving DecidableEq, Repr

/-- The longest name, in bytes. -/
def longestName : Nat := 255

/-- The longest path, in bytes. -/
def longestPath : Nat := 4095

end Disk

/-- What the disk holds below its root, which is a directory itself. -/
structure Disk where
  nodes : List (Disk.Place × Disk.Node)
  /-- The working directory. -/
  here : Disk.Place

namespace Disk

/-! ## Places -/

/-- What stands at a place. -/
def get? (d : Disk) (place : Place) : Option Node :=
  if place = [] then some .directory else d.nodes.lookup place

/-- Puts a node at a place, in the stead of what was there. -/
def set (d : Disk) (place : Place) (node : Node) : Disk :=
  { d with nodes := (place, node) :: d.nodes.filter (·.1 != place) }

theorem get?_set_self (d : Disk) {place : Place} (h : place ≠ []) (node : Node) :
    (d.set place node).get? place = some node := by
  simp [get?, set, h]

theorem lookup_filter_of_ne {place other : Place} (h : other ≠ place)
    (nodes : List (Place × Node)) :
    (nodes.filter (·.1 != place)).lookup other = nodes.lookup other := by
  induction nodes with
  | nil => rfl
  | cons entry rest ih =>
    obtain ⟨p, n⟩ := entry
    by_cases hp : p = place
    · subst hp
      simp [List.lookup_cons, beq_false_of_ne h, ih]
    · by_cases ho : other = p
      · subst ho
        simp [hp]
      · simp [List.lookup_cons, hp, beq_false_of_ne ho, ih]

/-- Setting one place leaves the others as they were. -/
theorem get?_set_of_ne (d : Disk) {place other : Place} (h : other ≠ place) (node : Node) :
    (d.set place node).get? other = d.get? other := by
  simp [get?, set, List.lookup_cons, beq_false_of_ne h, lookup_filter_of_ne h]

/-- The names directly below a place. -/
def namesBelow (d : Disk) (place : Place) : List String :=
  d.nodes.filterMap fun (p, _) => if p.dropLast = place then p.getLast? else none

/-! ## Following a path -/

/-- One step of a path from a place that has to be a directory. -/
def follow (d : Disk) (place : Place) (piece : String) : Except Trouble Place :=
  match d.get? place with
  | none => .error .notFound
  | some (.file _) => .error .notDirectory
  | some .directory =>
    if piece = "" ∨ piece = "." then .ok place
    else if piece = ".." then .ok place.dropLast
    else if longestName < piece.utf8ByteSize then .error .badName
    else .ok (place ++ [piece])

/-- The place that a path leads to. There need not be anything at its end. -/
def resolve (d : Disk) (p : Path) : Except Trouble Place :=
  if p.text = "" then .error .notFound
  else if p.text.toList.contains '\x00' || longestPath < p.text.utf8ByteSize then .error .badName
  else
    let pieces := p.pieces.filter (· != "")
    pieces.foldlM d.follow (if p.isAbsolute then [] else d.here)

/-- Whether a path asks for a directory by a slash at its end. -/
def endsInSlash (p : Path) : Bool := p.text.toList.getLast? == some '/'

/-- The node that a path leads to. -/
def find (d : Disk) (p : Path) : Except Trouble Node := do
  let place ← d.resolve p
  match d.get? place with
  | none => .error .notFound
  | some .directory => .ok .directory
  | some (.file content) => if endsInSlash p then .error .notDirectory else .ok (.file content)

/-! ## Looking -/

def pathExists (d : Disk) (p : Path) : Bool :=
  match d.find p with
  | .ok _ => true
  | .error _ => false

def isDirectory (d : Disk) (p : Path) : Bool :=
  match d.find p with
  | .ok .directory => true
  | _ => false

def isFile (d : Disk) (p : Path) : Bool :=
  match d.find p with
  | .ok (.file _) => true
  | _ => false

/-- The bytes of a file. -/
def readFile (d : Disk) (p : Path) : Except Trouble ByteArray := do
  match ← d.find p with
  | .file content => .ok content
  | .directory => .error .isDirectory

/-- The names in a directory. -/
def list (d : Disk) (p : Path) : Except Trouble (List String) := do
  let place ← d.resolve p
  match ← d.find p with
  | .directory => .ok (d.namesBelow place)
  | .file _ => .error .notDirectory

/-- The absolute path of a place. -/
def pathOf (place : Place) : Path := ⟨"/" ++ "/".intercalate place⟩

/-- The absolute path, without dots and repeated slashes, of what a path leads to. -/
def canonical (d : Disk) (p : Path) : Except Trouble Path := do
  let place ← d.resolve p
  let _ ← d.find p
  return pathOf place

/-! ## Changing -/

/-- Writes a file. Its directory has to be there, and what was in the file is gone. -/
def writeFile (d : Disk) (p : Path) (content : ByteArray) : Except Trouble Disk := do
  let place ← d.resolve p
  match d.get? place with
  | some .directory => .error .isDirectory
  | _ => if endsInSlash p then .error .isDirectory else .ok (d.set place (.file content))

/-- Makes one directory. -/
def makeDirectory (d : Disk) (p : Path) : Except Trouble Disk := do
  let place ← d.resolve p
  match d.get? place with
  | some _ => .error .alreadyThere
  | none => .ok (d.set place .directory)

/-- Makes the first of some paths, and before it those after it as far as they are missing. What was
    made before a failure stays. -/
def makeEach (d : Disk) : List Path → Disk × Option Trouble
  | [] => (d, some .notFound)
  | p :: above =>
    if p.text = "" then (d, none)
    else
      let ifThere (d : Disk) (trouble : Trouble) : Disk × Option Trouble :=
        (d, if d.isDirectory p then none else some trouble)
      match d.makeDirectory p with
      | .ok made => (made, none)
      | .error .notFound =>
        match d.makeEach above with
        | (d, some trouble) => (d, some trouble)
        | (d, none) =>
          match d.makeDirectory p with
          | .ok made => (made, none)
          | .error trouble => ifThere d trouble
      | .error trouble => ifThere d trouble

/-- Makes a directory and all that are missing above it. -/
def makeDirectories (d : Disk) (p : Path) : Disk × Option Trouble := d.makeEach p.ancestors

end Disk

end BlockScript
