/-
  Paths as they are written.

  A path is kept letter by letter; only what asks for a part of it looks past repeated slashes, a
  slash at the end and single dots behind the first piece.
-/
import BlockScript.Text.Pieces

namespace BlockScript.Disk

open BlockScript.Text

/-- A path, by its text. -/
structure Path where
  text : String
deriving DecidableEq, Repr

namespace Path

def isAbsolute (p : Path) : Bool := p.text.toList.head? == some '/'

/-- The path of `name` as seen from `p`. An absolute name stands for itself; otherwise a slash goes
    between the two unless `p` is empty or ends in one. -/
def join (p : Path) (name : String) : Path :=
  if (⟨name⟩ : Path).isAbsolute then ⟨name⟩
  else if p.text.toList.getLast?.all (· == '/') then ⟨p.text ++ name⟩
  else ⟨p.text ++ "/" ++ name⟩

/-- The pieces of a path between its slashes. -/
def pieces (p : Path) : List String := (Text.pieces '/' p.text.toList).map String.ofList

/-! ## The last component -/

/-- Pieces that name nothing. -/
def isIdle (piece : String) : Bool := piece == "" || piece == "."

/-- Drops idle pieces from the end. -/
def trim (pieces : List String) : List String := (pieces.reverse.dropWhile isIdle).reverse

/-- The text of a path whose first piece is `first`. An empty first piece is the root. -/
def ofPieces (first : String) (rest : List String) : Path :=
  if first = "" ∧ rest = [] then ⟨"/"⟩ else ⟨"/".intercalate (first :: rest)⟩

/-- A path without its last component, and that component. The root and the empty path have none; a
    dot that is all of a relative path is one. -/
def split? (p : Path) : Option (Path × String) :=
  match p.pieces with
  | [] => none
  | first :: rest =>
    match (trim rest).getLast? with
    | some last => some (ofPieces first (trim (trim rest).dropLast), last)
    | none => if first = "" then none else some (⟨""⟩, first)

/-- The path without its last component. -/
def parent? (p : Path) : Option Path := p.split?.map Prod.fst

/-- The last component, if it is a name. -/
def fileName? (p : Path) : Option String :=
  match p.split? with
  | some (_, name) => if name = "." ∨ name = ".." then none else some name
  | none => none

/-! ## Stem and extension -/

/-- What stands before and after the last dot of a name. A dot that only starts a name divides
    nothing. -/
def cutAtDot (name : String) : String × Option String :=
  let parts := (Text.pieces '.' name.toList).map String.ofList
  match parts.getLast?, ".".intercalate parts.dropLast with
  | some last, stem => if stem = "" then (name, none) else (stem, some last)
  | none, _ => (name, none)

/-- The name without its extension. -/
def stem? (p : Path) : Option String := p.fileName?.map fun name => (cutAtDot name).1

/-- What follows the last dot of the name. -/
def extension? (p : Path) : Option String := p.fileName?.bind fun name => (cutAtDot name).2

/-- The path and the paths above it, each without the last component of the one before. Each is
    shorter than the one before, so there are no more of them than the path has letters and one. -/
def ancestorsWithin : (count : Nat) → Path → List Path
  | 0, _ => []
  | count + 1, p =>
    match p.parent? with
    | none => [p]
    | some above => p :: ancestorsWithin count above

@[inherit_doc ancestorsWithin]
def ancestors (p : Path) : List Path := ancestorsWithin (p.text.length + 1) p

end Path

end BlockScript.Disk
