/-
  Renderings that keep account of their levels.

  An emitter moves its level, and counts the spaces that it stands for, in 64-bit words. The
  renderings here are those of the scripts with the kind of level left open: on `Scale.words` it is
  the word of the emitter, on `Scale.integers` an integer without bounds, and nothing else differs.
  Besides their results they give the steps they took with levels (`Step`), one after the other:
  those of the bodies nested in them too, and those before a halt.
-/
import BlockScript.Script.Target

namespace BlockScript.Script

open BlockScript.Json BlockScript.Text

/-! ## Scales -/

/-- A kind of level. -/
structure Scale (L : Type) where
  /-- The level of an empty text. -/
  ground : L
  /-- The level so many levels away. -/
  move : L → Int → L
  /-- The number of spaces that a level stands for. -/
  width : L → Nat

namespace Scale

/-- The words of an emitter: moves stop at the ends of the range, and the spaces wrap. -/
def words : Scale UInt64 where
  ground := ({} : Emitter).indent
  move level delta := (({ indent := level } : Emitter).addIndent delta).indent
  width level := (level * Emitter.indentWidth).toNat

/-- Integers without bounds. No space stands in front of a line at a negative level. -/
def integers : Scale Int where
  ground := 0
  move level delta := level + delta
  width level := (level * 4).toNat

/-- One level above the ground. -/
def first {L : Type} (s : Scale L) : L := s.move s.ground 1

end Scale

/-! ## Steps -/

/-- What is done with a level. -/
inductive Step (L : Type) where
  /-- It is moved. -/
  | move (level : L) (delta : Int)
  /-- Its spaces are counted, for a line that is indented. -/
  | indent (level : L)
deriving DecidableEq, Repr

/-- A result and the steps on the way to it. -/
structure Traced (L α : Type) where
  result : α
  steps : List (Step L)

namespace Traced

variable {L : Type}

instance : Monad (Traced L) where
  map f x := ⟨f x.result, x.steps⟩
  pure a := ⟨a, []⟩
  bind x f := ⟨(f x.result).result, x.steps ++ (f x.result).steps⟩

instance : LawfulMonad (Traced L) where
  map_const := rfl
  id_map _ := rfl
  seqLeft_eq x y := by simp [SeqLeft.seqLeft, Seq.seq, Functor.map]
  seqRight_eq x y := by simp [SeqRight.seqRight, Seq.seq, Functor.map]
  pure_seq g x := by simp [Seq.seq, Functor.map, pure]
  bind_pure_comp f x := by simp [bind, Functor.map, pure]
  bind_map f x := by simp [bind, Seq.seq, Functor.map]
  pure_bind a f := by simp [bind, pure]
  bind_assoc x f g := by simp [bind]

end Traced

/-- A rendering that may halt. The steps before the halt stay. -/
abbrev Tracing (L : Type) : Type → Type := ExceptT Halt (Traced L)

/-! ## Emitters on a scale -/

/-- Text written so far and the level for indented lines. -/
structure Sheet (L : Type) where
  text : String
  level : L
deriving DecidableEq, Repr

/-- The text of an emitter at a level of any kind. -/
def Emitter.on {L : Type} (e : Emitter) (level : L) : Sheet L := ⟨e.text, level⟩

/-- An emitter at its own level. -/
def Emitter.onWords (e : Emitter) : Sheet UInt64 := e.on e.indent

/-- An emitter at the integer that its level stands for. -/
def Emitter.onIntegers (e : Emitter) : Sheet Int := e.on e.indent.toNat

namespace Sheet

variable {L : Type} (s : Scale L)

/-- Nothing written yet. -/
def blank : Sheet L := ⟨"", s.ground⟩

/-- Appends text, behind the spaces of the level if it is to be indented. -/
def write (out : Sheet L) (text : List Char) (indented : Bool) : Traced L (Sheet L) :=
  if indented then
    let margin := List.replicate (s.width out.level) ' '
    ⟨{ out with text := out.text ++ String.ofList (margin ++ text) }, [.indent out.level]⟩
  else pure { out with text := out.text ++ String.ofList text }

/-- Appends text and a line feed. -/
def writeLine (out : Sheet L) (text : List Char) (indented : Bool) : Traced L (Sheet L) := do
  let out ← out.write s text indented
  out.write s ['\n'] false

/-- Appends each text as an indented line. -/
def writeLines (out : Sheet L) (texts : List (List Char)) : Traced L (Sheet L) :=
  texts.foldlM (fun out text => out.writeLine s text true) out

/-- Moves the level. -/
def addIndent (out : Sheet L) (delta : Int) : Traced L (Sheet L) :=
  ⟨{ out with level := s.move out.level delta }, [.move out.level delta]⟩

end Sheet

/-! ## One block -/

/-- Writes the statements of a chain on behalf of the block that refers to it. What was written
    before a halt stays. -/
abbrev ChainTracing (L : Type) : Type :=
  Option Block → String → Sheet L → Traced L (Sheet L × Option Halt)

section

variable {L : Type} (s : Scale L) (project : Project) (target : Target)

/-- What a chain has written, unless it halted. -/
def filled (written : Traced L (Sheet L × Option Halt)) : Tracing L (Sheet L) := do
  match ← written with
  | (_, some halt) => throw halt
  | (out, none) => return out

section

variable (call : Block → Tracing L (List Char)) (chain : ChainTracing L)

/-- The chain from `start` between braces, one level deeper than the braces. -/
def bodyTextOn (owner : Block) (start : String) : Tracing L (List Char) := do
  let out ← (Sheet.blank s).writeLine s ['\x7b'] true
  let out ← out.addIndent s 1
  let out ← filled (chain (some owner) start out)
  let out ← out.addIndent s (-1)
  let out ← out.write s ['\x7d'] true
  return out.text.toList

/-- The argument for one slot of `owner`. -/
def inputTextOn (owner : Block) (input : Input) : Tracing L (List Char) :=
  match input with
  | .empty => return emptyToken
  | .literal value => return literalToken value
  | .reference name id => return referenceToken project target name id
  | .block id => do
    let nested ← lookup target (some owner) id
    if nested.next.isNone then call nested else bodyTextOn s chain owner id

/-- The arguments of a block: its fields, then its slots. -/
def argumentsTextOn (b : Block) : Tracing L (List Char) := do
  let slots ← b.inputs.mapM fun slot => inputTextOn s project target call chain b slot.2
  return List.intercalate separator ((b.fields.map fun field => literalToken field.2) ++ slots)

/-- The call form of a block. A procedure call puts its signature first. -/
def callTextOn (b : Block) : Tracing L (List Char) := do
  let arguments ← argumentsTextOn s project target call chain b
  if b.opcode = callOpcode then
    match b.proccode? with
    | none => throw (.fault (.missingSignature target.name b.id b.opcode .call))
    | some signature =>
      let rest := if arguments.isEmpty then [] else separator ++ arguments
      return b.opcode.toList ++ '(' :: (quoted signature ++ rest ++ [')'])
  else return b.opcode.toList ++ '(' :: (arguments ++ [')'])

end

/-! ## The whole graph -/

mutual

/-- The call form of a block, entering at most `fuel` blocks along a path. -/
def callOn : (fuel : Nat) → Block → Tracing L (List Char)
  | 0, _ => throw .exhausted
  | fuel + 1, b => callTextOn s project target (callOn fuel) (chainOn fuel) b

/-- Writes a chain, entering at most `fuel` blocks along a path. -/
def chainOn : (fuel : Nat) → ChainTracing L
  | 0, _, _, out => pure (out, some .exhausted)
  | fuel + 1, referrer, id, out =>
    match lookup target referrer id with
    | .error halt => pure (out, some halt)
    | .ok b => do
      match ← (callTextOn s project target (callOn fuel) (chainOn fuel) b).run with
      | .error halt => return (out, some halt)
      | .ok text =>
        let out ← out.writeLines s (lines (text ++ [';']))
        match b.next with
        | none => return (out, none)
        | some next => chainOn fuel (some b) next out

end

/-- The arguments of a block of the target. -/
def argumentsOn (b : Block) : Tracing L (List Char) :=
  argumentsTextOn s project target (callOn s project target (fuelFor target))
    (chainOn s project target (fuelFor target)) b

/-- The call form of a block of the target. -/
def callFormOn (b : Block) : Tracing L (List Char) := callOn s project target (fuelFor target) b

/-- Writes a chain of the target that nothing refers to. -/
def writeChainOn (start : String) (out : Sheet L) : Traced L (Sheet L × Option Halt) :=
  chainOn s project target (fuelFor target) none start out

/-! ## Documents -/

/-- What a document starts with. -/
def preambleOn : Traced L (Sheet L) :=
  (Sheet.blank s).writeLines s <|
    headComment :: directive "meta" (boolText target.isStage) (quoted target.name) ::
      (target.variableDecls.map (declarationLine "init_var") ++
        target.listDecls.map (declarationLine "init_list"))

/-- The arguments in a script's opening line. -/
def headerArgumentsOn (root : Block) : Tracing L (List Char) :=
  if root.opcode = definitionOpcode then do
    let signature ← definedSignature target root
    return quoted signature
  else argumentsOn s project target root

/-- The opening line of a script, up to the brace of its body. -/
def headerLineOn (root : Block) : Tracing L (List Char) := do
  let given ← headerArgumentsOn s project target root
  let given := if given.isEmpty then [] else given ++ separator
  return root.opcode.toList ++ '(' :: (given ++ ['\x7b'])

/-- Writes the chain below a root. -/
def writeBodyOn (root : Block) (out : Sheet L) : Tracing L (Sheet L) :=
  match root.next with
  | none => return out
  | some next => filled (chainOn s project target (fuelFor target) (some root) next out)

/-- Writes the script that starts at a root. -/
def writeScriptOn (out : Sheet L) (root : Block) : Tracing L (Sheet L) := do
  let out ← out.writeLine s (placeLine root) true
  let header ← headerLineOn s project target root
  let out ← out.writeLine s header true
  let out ← out.addIndent s 1
  let out ← writeBodyOn s project target root out
  let out ← out.addIndent s (-1)
  out.writeLine s ['\x7d', ')', ';'] true

/-- The document of a target. -/
def targetTextOn : Tracing L String := do
  let out ← preambleOn s target
  let out ← target.roots.foldlM (writeScriptOn s project target) out
  return out.text

end

end BlockScript.Script
