/-
  Reading a project out of a document.

  A document has to have a `targets` array; each target a name and a stage flag; each object in its
  block table an opcode and, where it has an `inputs` object, only arrays in it. Everything else has
  a default: entries of another shape are passed over.
-/
import BlockScript.Json.Printer
import BlockScript.Json.Reader
import BlockScript.Project.Basic

namespace BlockScript

open BlockScript.Json

/-! ## What can be wrong with a document -/

/-- The first thing that keeps a document from being a project. -/
inductive Defect where
  | noTargets
  | noName
  | noStageFlag (target : String)
  | noOpcode (target block : String)
  | inputNotArray (target block opcode input : String)
deriving DecidableEq, Repr

/-- Why a text is no project. -/
inductive ProjectError where
  | notJson
  | malformed (defect : Defect)
deriving DecidableEq, Repr

def Defect.text : Defect → String
  | .noTargets => "missing 'targets' array."
  | .noName => "target missing 'name'."
  | .noStageFlag target => s!"target '{target}' missing isStage."
  | .noOpcode target block => s!"target '{target}': block '{block}' missing opcode."
  | .inputNotArray target block opcode input =>
    s!"target '{target}': block '{block}' ({opcode}) has malformed input '{input}'."

def Defect.message (d : Defect) : String := "Invalid project.json: " ++ d.text

/-! ## Inputs -/

/-- The code that marks a primitive as a variable or a list. -/
def referenceCode : Int := 12

/-- The text of a name or an id, empty where it is missing. -/
def nameText (v : Option Document) : String := (v.map Value.plain).getD ""

namespace Input

/-- A primitive: a code followed by its operands. -/
def ofPrimitive (primitive : List Document) : Input :=
  match primitive.head? with
  | some (.number (.integer code)) =>
    if code = referenceCode then
      .reference (nameText primitive[1]?) (nameText primitive[2]?)
    else .literal (primitive[1]?.getD .null)
  | _ => .literal (primitive[1]?.getD .null)

/-- What counts where the payload of an input is null. -/
def ofFallback : Option Document → Input
  | none => .empty
  | some .null => .empty
  | some (.array primitive) => ofPrimitive primitive
  | some value => .literal value

/-- The elements of an input array: a marker, the payload, and the fallback of a null payload. -/
def ofSlots : List Document → Input
  | _ :: .null :: rest => ofFallback rest.head?
  | _ :: .string id :: _ => .block id
  | _ :: .array primitive :: _ => ofPrimitive primitive
  | _ :: payload :: _ => .literal payload
  | _ => .empty

/-- The input that an array describes; a value of another shape describes none. -/
def ofDocument? (v : Document) : Option Input := v.array?.map ofSlots

end Input

/-! ## Blocks, targets and monitors -/

/-- The members of the object under `key`, or no members. -/
def membersAt (v : Document) (key : String) : List (String × Document) :=
  ((v.get? key).bind Value.object?).getD []

/-- The string under `key`. -/
def stringAt? (v : Document) (key : String) : Option String := (v.get? key).bind Value.string?

/-- The truth value under `key`. -/
def boolAt? (v : Document) (key : String) : Option Bool := (v.get? key).bind Value.bool?

/-- The number under `key`, or zero. -/
def coordinateAt (v : Document) (key : String) : Number :=
  ((v.get? key).bind Value.number?).getD (.integer 0)

/-- The value of a field: the first element of an array, anything else as it stands. -/
def fieldValue (v : Document) : Document :=
  match v with
  | .array items => items.head?.getD .null
  | other => other

/-- An object's entry is a block; other entries of a block table are no blocks. -/
def isBlockEntry (entry : String × Document) : Bool := entry.2.object?.isSome

namespace Block

/-- One slot of a block. -/
def decodeInput (target id opcode : String) (slot : String × Document) :
    Except Defect (String × Input) :=
  match Input.ofDocument? slot.2 with
  | some input => .ok (slot.1, input)
  | none => .error (.inputNotArray target id opcode slot.1)

/-- A block of the named target, from its entry in the block table. -/
def decode (target : String) (entry : String × Document) : Except Defect Block := do
  let (id, v) := entry
  let some opcode := stringAt? v "opcode" | .error (.noOpcode target id)
  let inputs ← (membersAt v "inputs").mapM (decodeInput target id opcode)
  return {
    id
    opcode
    next := stringAt? v "next"
    topLevel := (boolAt? v "topLevel").getD false
    x := coordinateAt v "x"
    y := coordinateAt v "y"
    fields := (membersAt v "fields").map fun (name, field) => (name, fieldValue field)
    inputs
    mutation := ((v.get? "mutation").bind Value.object?).map fun members =>
      ⟨(members.lookup "proccode").bind Value.string?⟩
  }

end Block

/-- A variable or a list, from an entry whose value is an array of its name and its value. -/
def Declaration.decode? (entry : String × Document) : Option Declaration :=
  entry.2.array?.map fun parts =>
    ⟨entry.1, nameText parts.head?, parts[1]?.getD .null⟩

def Target.decode (v : Document) : Except Defect Target := do
  let some name := stringAt? v "name" | .error .noName
  let some isStage := boolAt? v "isStage" | .error (.noStageFlag name)
  let blocks ← ((membersAt v "blocks").filter isBlockEntry).mapM (Block.decode name)
  return {
    name
    isStage
    variableDecls := (membersAt v "variables").filterMap Declaration.decode?
    listDecls := (membersAt v "lists").filterMap Declaration.decode?
    blocks
  }

/-- A monitor needs an id. Its kind is its `type`, or its `mode` where it has no `type`. -/
def Monitor.decode? (v : Document) : Option Monitor :=
  (stringAt? v "id").map fun id => {
    id
    kind := ((v.get? "type").or (v.get? "mode")).bind Value.string?
    opcode := (stringAt? v "opcode").getD ""
    params := membersAt v "params"
  }

/-! ## Projects -/

namespace Project

def ofDocument (v : Document) : Except Defect Project := do
  let some targets := (v.get? "targets").bind Value.array? | .error .noTargets
  let targets ← targets.mapM Target.decode
  let monitors := ((v.get? "monitors").bind Value.array?).getD []
  return { targets, monitors := monitors.filterMap Monitor.decode? }

/-- The project that a text holds. -/
def ofText (text : String) : Except ProjectError Project :=
  match Document.ofText? text with
  | none => .error .notJson
  | some v => (ofDocument v).mapError .malformed

end Project

end BlockScript
