/-
  The script of a target: a comment, the target's head line, its declarations, and one script for
  each block that starts one. Every target of a project has a result of its own.
-/
import BlockScript.Script.Statement

namespace BlockScript.Script

open BlockScript.Json BlockScript.Text

/-- The opcode of procedure definitions, whose only argument is the signature of their prototype. -/
def definitionOpcode : String := "procedures_definition"

/-- The slot of a definition that holds its prototype. -/
def prototypeSlot : String := "custom_block"

/-- The first line of every document. -/
def headComment : List Char := "// Generate by scratch-script".toList

/-- The extension of script files. -/
def defaultExtension : String := "scs"

/-- A line `#name(first, second);`. -/
def directive (name : String) (first second : List Char) : List Char :=
  '#' :: name.toList ++ '(' :: (first ++ separator ++ second ++ [')', ';'])

/-- The line of a declaration. -/
def declarationLine (name : String) (d : Declaration) : List Char :=
  directive name (quoted d.name) d.value.compact

/-- What a document starts with: the comment, the head line and the declarations. -/
def preamble (target : Target) : Emitter :=
  ({} : Emitter).writeLines <|
    headComment :: directive "meta" (boolText target.isStage) (quoted target.name) ::
      (target.variableDecls.map (declarationLine "init_var") ++
        target.listDecls.map (declarationLine "init_list"))

section

variable (project : Project) (target : Target)

/-- The signature of the procedure that a definition defines. -/
def definedSignature (root : Block) : Except Halt String := do
  let some id := root.inputBlock? prototypeSlot
    | .error (.fault (.missingSignature target.name root.id root.opcode .definition))
  let prototype ← lookup target (some root) id
  let some signature := prototype.proccode?
    | .error (.fault (.missingSignature target.name root.id root.opcode .prototype))
  return signature

/-- The arguments in a script's opening line. -/
def headerArguments (root : Block) : Except Halt (List Char) :=
  if root.opcode = definitionOpcode then quoted <$> definedSignature target root
  else arguments project target root

/-- The opening line of a script, up to the brace of its body. -/
def headerLine (root : Block) : Except Halt (List Char) := do
  let given ← headerArguments project target root
  let given := if given.isEmpty then [] else given ++ separator
  return root.opcode.toList ++ '(' :: (given ++ ['\x7b'])

/-- The line that places a script on the workspace. -/
def placeLine (root : Block) : List Char :=
  ['@', '('] ++ root.x.text ++ separator ++ root.y.text ++ [')']

/-- Writes the chain below a root. -/
def writeBody (root : Block) (out : Emitter) : Except Halt Emitter :=
  match root.next with
  | none => .ok out
  | some next =>
    match chain project target (some root) next out with
    | (_, some halt) => .error halt
    | (out, none) => .ok out

/-- Writes the script that starts at a root. -/
def writeScript (out : Emitter) (root : Block) : Except Halt Emitter := do
  let out := out.writeLine (placeLine root) true
  let header ← headerLine project target root
  let out := (out.writeLine header true).addIndent 1
  let out ← writeBody project target root out
  return (out.addIndent (-1)).writeLine ['\x7d', ')', ';'] true

/-- The document of a target. -/
def targetText : Except Halt String := do
  let out ← target.roots.foldlM (writeScript project target) (preamble target)
  return out.text

end

/-- The result for one target of a project. -/
structure Output where
  name : String
  result : Except Halt String

namespace Output

/-- The file that an output is written to. -/
def fileName (o : Output) (extension : String) : String := o.name ++ "." ++ extension

end Output

/-- The results for all targets, in order. -/
def outputs (project : Project) : List Output :=
  project.targets.map fun target => ⟨target.name, targetText project target⟩

end BlockScript.Script
