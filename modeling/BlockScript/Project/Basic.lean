/-
  Projects: targets with their declarations and block tables, and the monitors that watch variables
  and lists. All tables keep document order.
-/
import BlockScript.Json.Value

namespace BlockScript

open BlockScript.Json

/-- A variable or a list of a target. -/
structure Declaration where
  id : String
  name : String
  value : Document

/-- What stands in a slot of a block. -/
inductive Input where
  /-- Nothing. -/
  | empty
  /-- Another block: a reporter or the head of a chain. -/
  | block (id : String)
  /-- A literal value. -/
  | literal (value : Document)
  /-- A variable or a list. -/
  | reference (name id : String)

/-- What a procedure block carries besides its slots. -/
structure Mutation where
  /-- The signature of the procedure. -/
  proccode : Option String

/-- A block of a target, under its id. -/
structure Block where
  id : String
  opcode : String
  /-- The block that follows in the chain. -/
  next : Option String
  topLevel : Bool
  x : Number
  y : Number
  fields : List (String × Document)
  inputs : List (String × Input)
  mutation : Option Mutation

/-- A sprite or the stage. -/
structure Target where
  name : String
  isStage : Bool
  variableDecls : List Declaration
  listDecls : List Declaration
  blocks : List Block

/-- A display of a variable or a list. -/
structure Monitor where
  id : String
  kind : Option String
  opcode : String
  params : List (String × Document)

structure Project where
  targets : List Target
  monitors : List Monitor

namespace Block

/-- The block that the named slot holds, if it holds one. -/
def inputBlock? (b : Block) (slot : String) : Option String :=
  match b.inputs.lookup slot with
  | some (.block id) => some id
  | _ => none

/-- The signature that the block's mutation carries. -/
def proccode? (b : Block) : Option String := b.mutation.bind Mutation.proccode

end Block

namespace Target

def block? (t : Target) (id : String) : Option Block := t.blocks.find? (·.id == id)

/-- The blocks that start a script. -/
def roots (t : Target) : List Block := t.blocks.filter (·.topLevel)

/-- Whether the target declares a variable under an id. -/
def hasVariable (t : Target) (id : String) : Bool := t.variableDecls.any (·.id == id)

end Target

namespace Monitor

def isList (m : Monitor) : Bool := m.kind == some "list"

/-- The name of the watched variable or list. -/
def param (m : Monitor) : Document :=
  (m.params.lookup (if m.isList then "LIST" else "VARIABLE")).getD .null

end Monitor

namespace Project

/-- The first target of a name. -/
def target? (p : Project) (name : String) : Option Target := p.targets.find? (·.name == name)

/-- The first monitor of an id. -/
def monitor? (p : Project) (id : String) : Option Monitor := p.monitors.find? (·.id == id)

end Project

end BlockScript
