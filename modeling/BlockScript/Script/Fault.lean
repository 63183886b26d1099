/-
  What is wrong with the block graph of a target, and how a rendering ends early.
-/

namespace BlockScript.Script

/-- Where the signature of a procedure is missing. -/
inductive SignatureGap where
  | call
  | definition
  | prototype
deriving DecidableEq, Repr

/-- A fault of a target, with the block that holds it. -/
inductive Fault where
  /-- The block refers to a block that the table does not have. -/
  | missingBlock (target block opcode missing : String)
  /-- The block needs the signature of a procedure and has none. -/
  | missingSignature (target block opcode : String) (gap : SignatureGap)
deriving DecidableEq, Repr

/-- Why a rendering ended early: at a fault, or because its fuel was used up, which happens only
    where blocks refer to one another in a circle. -/
inductive Halt where
  | fault (fault : Fault)
  | exhausted
deriving DecidableEq, Repr

def SignatureGap.text : SignatureGap → String
  | .call => "procedures_call carries no proccode"
  | .definition => "procedures_definition has no custom_block input"
  | .prototype => "custom_block prototype carries no proccode"

namespace Fault

def target : Fault → String
  | .missingBlock target _ _ _ => target
  | .missingSignature target _ _ _ => target

def block : Fault → String
  | .missingBlock _ block _ _ => block
  | .missingSignature _ block _ _ => block

def message : Fault → String
  | .missingBlock target block opcode missing =>
    s!"target '{target}': block '{block}' ({opcode}) references missing block '{missing}'"
  | .missingSignature target block opcode gap =>
    s!"target '{target}': block '{block}' ({opcode}) has no usable procedure mutation: "
      ++ gap.text

end Fault

namespace Halt

def message : Halt → String
  | .fault f => f.message
  | .exhausted => "blocks refer to one another in a circle"

end Halt

end BlockScript.Script
