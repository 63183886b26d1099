/-
  Blocks as statements: argument lists, call forms and chains.

  A slot that names a block without a successor holds the call form of that block, and a slot that
  names a block with one holds a braced body. A body is rendered on its own and spliced into the
  call form as text; whoever writes the statement around it indents each of its lines once more.

  Rendering spends one unit of fuel for each block entered along a path of slots and successors. The
  public functions start with one unit more than the target has blocks.
-/
import BlockScript.Json.Printer
import BlockScript.Project.Basic
import BlockScript.Script.Emitter
import BlockScript.Script.Fault
import BlockScript.Text.Pieces

namespace BlockScript.Script

open BlockScript.Json BlockScript.Text

/-! ## Tokens -/

/-- A value as an argument. Strings, numbers and truth values are quoted text. -/
def literalToken (v : Document) : List Char :=
  match v with
  | .string s => quoted s
  | .number n => quoted (String.ofList n.text)
  | .bool b => quoted (String.ofList (boolText b))
  | other => other.compact

/-- A variable or a list as an argument. A monitor of the id wins over the target's own table. -/
def referenceToken (project : Project) (target : Target) (name id : String) : List Char :=
  match project.monitor? id with
  | some monitor => monitor.opcode.toList ++ '(' :: (literalToken monitor.param ++ [')'])
  | none =>
    if target.hasVariable id then "data_variable".toList ++ name.toList
    else "data_listcontents".toList ++ name.toList

/-- The argument of an empty slot. -/
def emptyToken : List Char := ['\x7b', '\x7d']

/-- What separates two arguments. -/
def separator : List Char := [',', ' ']

/-- The opcode of procedure calls, whose first argument is the signature. -/
def callOpcode : String := "procedures_call"

/-! ## One block, given renderings of the blocks it refers to -/

/-- A rendering of the call form of a block. -/
abbrev CallText := Block → Except Halt (List Char)

/-- Writes the statements of the chain that starts at an id, on behalf of the block that refers to
    it. What was written before a halt stays. -/
abbrev ChainWriter := Option Block → String → Emitter → Emitter × Option Halt

/-- The block under an id. Without a block that refers to it, the id itself is at fault. -/
def lookup (target : Target) (referrer : Option Block) (id : String) : Except Halt Block :=
  match target.block? id, referrer with
  | some b, _ => .ok b
  | none, some b => .error (.fault (.missingBlock target.name b.id b.opcode id))
  | none, none => .error (.fault (.missingBlock target.name id "chain start" id))

/-- The chain from `start` between braces, one level deeper than the braces. -/
def bodyText (chain : ChainWriter) (owner : Block) (start : String) : Except Halt (List Char) :=
  let opened := (({} : Emitter).writeLine ['\x7b'] true).addIndent 1
  match chain (some owner) start opened with
  | (_, some halt) => .error halt
  | (filled, none) => .ok ((filled.addIndent (-1)).write ['\x7d'] true).text.toList

section

variable (project : Project) (target : Target) (call : CallText) (chain : ChainWriter)

/-- The argument for one slot of `owner`. -/
def inputText (owner : Block) (input : Input) : Except Halt (List Char) :=
  match input with
  | .empty => .ok emptyToken
  | .literal value => .ok (literalToken value)
  | .reference name id => .ok (referenceToken project target name id)
  | .block id => do
    let nested ← lookup target (some owner) id
    if nested.next.isNone then call nested else bodyText chain owner id

/-- The arguments of a block: its fields, then its slots. -/
def argumentsText (b : Block) : Except Halt (List Char) := do
  let slots ← b.inputs.mapM fun slot => inputText project target call chain b slot.2
  return List.intercalate separator ((b.fields.map fun field => literalToken field.2) ++ slots)

/-- The call form of a block. A procedure call puts its signature first. -/
def callText (b : Block) : Except Halt (List Char) := do
  let arguments ← argumentsText project target call chain b
  if b.opcode = callOpcode then
    match b.proccode? with
    | none => .error (.fault (.missingSignature target.name b.id b.opcode .call))
    | some signature =>
      let rest := if arguments.isEmpty then [] else separator ++ arguments
      return b.opcode.toList ++ '(' :: (quoted signature ++ rest ++ [')'])
  else return b.opcode.toList ++ '(' :: (arguments ++ [')'])

end

/-! ## The whole graph -/

section

variable (project : Project) (target : Target)

mutual

/-- The call form of a block, entering at most `fuel` blocks along a path. -/
def callWith : (fuel : Nat) → CallText
  | 0, _ => .error .exhausted
  | fuel + 1, b => callText project target (callWith fuel) (chainWith fuel) b

/-- Writes a chain, entering at most `fuel` blocks along a path: each block is one statement, and
    each line of a statement is indented. -/
def chainWith : (fuel : Nat) → ChainWriter
  | 0, _, _, out => (out, some .exhausted)
  | fuel + 1, referrer, id, out =>
    match lookup target referrer id with
    | .error halt => (out, some halt)
    | .ok b =>
      match callText project target (callWith fuel) (chainWith fuel) b with
      | .error halt => (out, some halt)
      | .ok text =>
        let out := out.writeLines (lines (text ++ [';']))
        match b.next with
        | none => (out, none)
        | some next => chainWith fuel (some b) next out

end

/-- No path without a circle enters more blocks than the target has. -/
def fuelFor : Nat := target.blocks.length + 1

/-- The arguments of a block of the target. -/
def arguments (b : Block) : Except Halt (List Char) :=
  argumentsText project target (callWith project target (fuelFor target))
    (chainWith project target (fuelFor target)) b

/-- The call form of a block of the target. -/
def callForm : CallText := callWith project target (fuelFor target)

/-- Writes a chain of the target on behalf of the block that refers to it. -/
def chain : ChainWriter := chainWith project target (fuelFor target)

/-- Writes a chain of the target that nothing refers to. -/
def writeChain (start : String) (out : Emitter) : Emitter × Option Halt :=
  chain project target none start out

end

end BlockScript.Script
