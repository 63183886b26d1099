/-
  Failures of the command: what went wrong at the root, under the contexts in which it was met.
-/
import BlockScript.Project.Decode
import BlockScript.Script.Fault

namespace BlockScript.Command

/-- What went wrong. Faults of archives and of the disk have no text of their own. -/
inductive Cause where
  | project (error : ProjectError)
  | script (halt : Script.Halt)
  | archive
  | disk
  | message (text : String)
deriving DecidableEq, Repr

/-- A cause with its contexts, the outermost first. -/
structure Failure where
  contexts : List String := []
  cause : Cause
deriving DecidableEq, Repr

namespace Cause

def text? : Cause → Option String
  | .project .notJson => none
  | .project (.malformed defect) => some defect.message
  | .script halt => some halt.message
  | .archive => none
  | .disk => none
  | .message text => some text

end Cause

namespace Failure

/-- A failure that is all in its text. -/
def plain (text : String) : Failure := { cause := .message text }

/-- Adds an outer context. -/
def within (context : String) (f : Failure) : Failure :=
  { f with contexts := context :: f.contexts }

/-- The texts of a failure from the outside in. -/
def texts (f : Failure) : List String := f.contexts ++ f.cause.text?.toList

/-- The text of a failure, if it has one. -/
def message? (f : Failure) : Option String :=
  if f.texts.isEmpty then none else some (": ".intercalate f.texts)

end Failure

end BlockScript.Command
