/-
  Argument lists token by token.

  No argument token is empty, so the text of an argument list is empty only if there are no
  arguments. A call form is therefore the opcode and, in parentheses, its tokens with separators
  between them, the signature of a procedure call being the first token (`callText_eq`); and a
  header is the opcode, its tokens each with a separator behind it, and the brace
  (`headerLine_eq`).
-/
import BlockScript.Proofs.Results
import BlockScript.Proofs.Text.Tokens
import BlockScript.Script.Target

namespace BlockScript.Script

open BlockScript.Results BlockScript.Text

/-! ## Joined tokens -/

theorem joined_isEmpty {tokens : List (List Char)} (h : ∀ t ∈ tokens, t ≠ []) :
    (List.intercalate separator tokens).isEmpty = tokens.isEmpty := by
  cases tokens with
  | nil => rfl
  | cons first rest =>
    have hfirst : first ≠ [] := h first (List.mem_cons_self ..)
    cases rest with
    | nil => simpa using hfirst
    | cons next rest => simp [List.intercalate_cons_cons, hfirst]

/-- A token in front of others, which are nothing or come behind a separator. -/
theorem joined_cons (first : List Char) {tokens : List (List Char)} (h : ∀ t ∈ tokens, t ≠ []) :
    List.intercalate separator (first :: tokens) =
      first ++ (if (List.intercalate separator tokens).isEmpty then []
        else separator ++ List.intercalate separator tokens) := by
  rw [joined_isEmpty h]
  cases tokens with
  | nil => simp
  | cons next rest => simp [List.intercalate_cons_cons]

section

variable (project : Project) (target : Target) (call : CallText) (chain : ChainWriter)

/-! ## The tokens of a block -/

/-- The arguments of a block, one by one. -/
def argumentTokens (b : Block) : Except Halt (List (List Char)) := do
  let slots ← b.inputs.mapM fun slot => inputText project target call chain b slot.2
  return (b.fields.map fun field => literalToken field.2) ++ slots

/-- The arguments of a call form, one by one. -/
def callTokens (b : Block) : Except Halt (List (List Char)) := do
  let tokens ← argumentTokens project target call chain b
  if b.opcode = callOpcode then
    match b.proccode? with
    | none => .error (.fault (.missingSignature target.name b.id b.opcode .call))
    | some signature => return quoted signature :: tokens
  else return tokens

theorem argumentsText_eq (b : Block) :
    argumentsText project target call chain b =
      (argumentTokens project target call chain b).map (List.intercalate separator) := by
  unfold argumentsText argumentTokens
  cases b.inputs.mapM fun slot => inputText project target call chain b slot.2 <;> rfl

theorem bodyText_ne_nil {owner : Block} {start : String} {text : List Char}
    (h : bodyText chain owner start = .ok text) : text ≠ [] := by
  unfold bodyText at h
  dsimp only at h
  split at h
  · cases h
  · cases h
    simp

theorem inputText_ne_nil (hcall : ∀ b text, call b = .ok text → text ≠ []) {owner : Block}
    {input : Input} {text : List Char}
    (h : inputText project target call chain owner input = .ok text) : text ≠ [] := by
  cases input with
  | empty => cases h; simp [emptyToken]
  | literal value => cases h; exact literalToken_ne_nil value
  | reference name id => cases h; exact referenceToken_ne_nil project target name id
  | block id =>
    obtain ⟨nested, -, h⟩ := bind_eq_ok.mp h
    split at h
    · exact hcall nested text h
    · exact bodyText_ne_nil chain h

theorem argumentTokens_ne_nil (hcall : ∀ b text, call b = .ok text → text ≠ []) {b : Block}
    {tokens : List (List Char)} (h : argumentTokens project target call chain b = .ok tokens) :
    ∀ t ∈ tokens, t ≠ [] := by
  obtain ⟨slots, hslots, h⟩ := bind_eq_ok.mp h
  cases h
  intro t ht
  rcases List.mem_append.mp ht with ht | ht
  · obtain ⟨field, -, rfl⟩ := List.mem_map.mp ht
    exact literalToken_ne_nil field.2
  · obtain ⟨slot, -, hslot⟩ := exists_of_mem_mapM hslots ht
    exact inputText_ne_nil project target call chain hcall hslot

theorem callText_ne_nil {b : Block} {text : List Char}
    (h : callText project target call chain b = .ok text) : text ≠ [] := by
  obtain ⟨arguments, -, h⟩ := bind_eq_ok.mp h
  split at h
  · split at h
    · cases h
    · cases h
      simp
  · cases h
    simp

/-- A call form is the opcode and, in parentheses, its tokens with separators between them. -/
theorem callText_eq (hcall : ∀ b text, call b = .ok text → text ≠ []) (b : Block) :
    callText project target call chain b =
      (callTokens project target call chain b).map fun tokens =>
        b.opcode.toList ++ '(' :: (List.intercalate separator tokens ++ [')']) := by
  unfold callText callTokens
  rw [argumentsText_eq]
  cases ht : argumentTokens project target call chain b with
  | error halt => rfl
  | ok tokens =>
    have hne := argumentTokens_ne_nil project target call chain hcall ht
    by_cases hop : b.opcode = callOpcode
    · cases hp : b.proccode? with
      | none => simp [Except.map, bind, Except.bind, hop]
      | some signature =>
        simp [Except.map, bind, Except.bind, pure, Except.pure, hop, joined_cons _ hne]
    · simp [Except.map, bind, Except.bind, pure, Except.pure, hop]

end

/-! ## Headers -/

section

variable (project : Project) (target : Target)

theorem callForm_ne_nil (b : Block) (text : List Char)
    (h : callForm project target b = .ok text) : text ≠ [] := by
  unfold callForm fuelFor at h
  rw [callWith] at h
  exact callText_ne_nil project target _ _ h

/-- The arguments of a header, one by one. -/
def headerTokens (root : Block) : Except Halt (List (List Char)) :=
  if root.opcode = definitionOpcode then
    (definedSignature target root).map fun signature => [quoted signature]
  else argumentTokens project target (callForm project target) (chain project target) root

theorem headerTokens_ne_nil {root : Block} {tokens : List (List Char)}
    (h : headerTokens project target root = .ok tokens) : ∀ t ∈ tokens, t ≠ [] := by
  unfold headerTokens at h
  split at h
  · obtain ⟨signature, -, rfl⟩ := map_eq_ok.mp h
    simp [quoted]
  · exact argumentTokens_ne_nil project target _ _ (callForm_ne_nil project target) h

theorem headerArguments_eq (root : Block) :
    headerArguments project target root =
      (headerTokens project target root).map (List.intercalate separator) := by
  unfold headerArguments headerTokens
  split
  · cases definedSignature target root <;> simp [Except.map, Functor.map]
  · exact argumentsText_eq project target _ _ root

/-- A header is the opcode, its tokens each with a separator behind it, and the brace. -/
theorem headerLine_eq (root : Block) :
    headerLine project target root =
      (headerTokens project target root).map fun tokens =>
        root.opcode.toList ++ '(' ::
          ((if tokens.isEmpty then [] else List.intercalate separator tokens ++ separator) ++
            ['\x7b']) := by
  unfold headerLine
  rw [headerArguments_eq]
  cases ht : headerTokens project target root with
  | error halt => rfl
  | ok tokens =>
    have hne := headerTokens_ne_nil project target ht
    simp [Except.map, bind, Except.bind, pure, Except.pure, joined_isEmpty hne]

end

end BlockScript.Script
