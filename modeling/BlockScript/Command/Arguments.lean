/-
  The command line: an input, an optional output directory, and options that may stand anywhere
  before a bare `--`.

  Arguments are taken from left to right, and the first problem counts. A value is held until the
  next argument that is understood, and only then checked: an argument that is not understood is
  reported before a value that was still held.
-/
import BlockScript.Script.Target

namespace BlockScript.Command

/-- What a command line asks for. -/
structure Arguments where
  input : String
  output : Option String := none
  extract : Option String := none
  extractOnly : Bool := false
  keepGoing : Bool := false
  extension : String := Script.defaultExtension
  verbose : Bool := false
deriving DecidableEq, Repr

/-- Why a command line is not carried out. -/
inductive UsageError where
  | missingInput
  | unknownArgument
  | invalidValue
  | repeatedOption
  | unexpectedValue
  | helpRequested
deriving DecidableEq, Repr

namespace Arguments

/-! ## Options -/

/-- The parts of a command line that hold a value. -/
inductive Slot where
  | input
  | output
  | extract
  | extension
deriving DecidableEq, Repr

/-- The options that hold none. -/
inductive Switch where
  | extractOnly
  | keepGoing
  | verbose
  | help
deriving DecidableEq, Repr

/-- Every slot but the extension holds a path, and a path is not empty. -/
def Slot.accepts (slot : Slot) (value : String) : Bool := slot == .extension || value != ""

/-- The slot of an option that takes a value. -/
def slotOfName? (name : String) : Option Slot :=
  if name = "extract" then some .extract
  else if name = "extension" then some .extension
  else none

/-- The option of a name that takes no value. -/
def switchOfName? (name : String) : Option Switch :=
  if name = "extract-only" then some .extractOnly
  else if name = "keep-going" then some .keepGoing
  else if name = "verbose" then some .verbose
  else if name = "help" then some .help
  else none

/-- The option of a single letter. -/
def switchOfLetter? (c : Char) : Option Switch :=
  if c = 'v' then some .verbose
  else if c = 'h' then some .help
  else none

/-! ## Reading from left to right -/

/-- A command line read so far. -/
structure Reading where
  /-- The values that were checked, by their slots. -/
  values : List (Slot × String) := []
  switches : List Switch := []
  /-- A slot whose value is still to come or still to be checked. -/
  held : Option (Slot × Option String) := none
  /-- How many arguments were no options. -/
  positionals : Nat := 0
  /-- Whether a bare `--` has ended the options. -/
  ended : Bool := false
deriving DecidableEq, Repr

namespace Reading

/-- Puts a value into its slot. -/
def put (r : Reading) (slot : Slot) (value : String) : Except UsageError Reading :=
  if (r.values.lookup slot).isSome then .error .repeatedOption
  else if slot.accepts value then .ok { r with values := (slot, value) :: r.values }
  else .error .invalidValue

/-- Checks the value that is held. -/
def settle (r : Reading) : Except UsageError Reading :=
  match r.held with
  | none => .ok r
  | some (_, none) => .error .invalidValue
  | some (slot, some value) => { r with held := none }.put slot value

/-- Turns a switch on. -/
def turnOn (r : Reading) (switch : Switch) : Except UsageError Reading := do
  let r ← r.settle
  if switch = .help then .error .helpRequested
  else if switch ∈ r.switches then .error .repeatedOption
  else return { r with switches := switch :: r.switches }

/-- An option by its name, with the value written behind an equals sign if there is one. -/
def named (r : Reading) (name : String) (attached : Option String) :
    Except UsageError Reading :=
  match slotOfName? name, switchOfName? name, attached with
  | some slot, _, some value => do (← r.settle).put slot value
  | some slot, _, none => do return { (← r.settle) with held := some (slot, none) }
  | none, some _, some _ => .error .unexpectedValue
  | none, some switch, none => r.turnOn switch
  | none, none, _ => .error .unknownArgument

/-- Options of a single letter, written together. -/
def lettered (r : Reading) (letters : List Char) : Except UsageError Reading :=
  letters.foldlM (fun r c =>
    match switchOfLetter? c with
    | some switch => r.turnOn switch
    | none => .error .unknownArgument) r

/-- An argument that is no option: the input, then the output. -/
def positional (r : Reading) (value : String) : Except UsageError Reading := do
  let slot ← match r.positionals with
    | 0 => pure Slot.input
    | 1 => pure Slot.output
    | _ => .error .unknownArgument
  return { (← r.settle) with held := some (slot, some value), positionals := r.positionals + 1 }

/-- An argument that does not look like an option: the value that is awaited, or a positional. -/
def plain (r : Reading) (value : String) : Except UsageError Reading :=
  match r.held with
  | some (slot, none) => .ok { r with held := some (slot, some value) }
  | _ => r.positional value

/-- Takes one argument. -/
def step (r : Reading) (argument : String) : Except UsageError Reading :=
  if r.ended then r.positional argument
  else
    match argument.toList with
    | ['-', '-'] => .ok { r with ended := true }
    | '-' :: '-' :: option =>
      let name := String.ofList (option.takeWhile (· != '='))
      match option.dropWhile (· != '=') with
      | [] => r.named name none
      | _ :: value => r.named name (some (String.ofList value))
    | '-' :: letter :: letters => r.lettered (letter :: letters)
    | _ => r.plain argument

/-- What a command line asks for once all of it was taken. -/
def finish (r : Reading) : Except UsageError Arguments := do
  let r ← r.settle
  let some input := r.values.lookup .input | .error .missingInput
  return {
    input
    output := r.values.lookup .output
    extract := r.values.lookup .extract
    extractOnly := .extractOnly ∈ r.switches
    keepGoing := .keepGoing ∈ r.switches
    extension := (r.values.lookup .extension).getD Script.defaultExtension
    verbose := .verbose ∈ r.switches
  }

end Reading

/-- Reads the arguments behind the name of the program. -/
def ofList (arguments : List String) : Except UsageError Arguments := do
  (← arguments.foldlM Reading.step {}).finish

end Arguments

end BlockScript.Command
