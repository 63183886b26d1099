/-
  Scripts printed straight from the graph.

  The renderings build a nested body on its own, splice it into a call form as text, and indent its
  lines once more for every statement around it. The printer here does none of that: it carries the
  depth `d` along, a statement starts with `4 * d` spaces, a body prints its statements at `d + 1`,
  and a line feed inside a raw name is followed by `4 * d` spaces. Where a block or a signature is
  missing it prints nothing. It recurses on a bound for how many references it follows in a row,
  which without circles are never more than there are blocks.

  On a target without circles both give the same document (`targetText_eq_ok_iff_printTarget`). What
  carries the proof is that a rendering set at a depth is the text printed at that depth
  (`agrees`), by induction along the references.
-/
import BlockScript.Proofs.Graph.Acyclic
import BlockScript.Proofs.Script.Documents

namespace BlockScript.Script

open BlockScript.Json BlockScript.Results BlockScript.Text

section

variable (project : Project) (target : Target)

/-! ## The printer -/

/-- A variable or a list at a depth. -/
def printReference (d : Nat) (name id : String) : List Char :=
  match project.monitor? id with
  | some monitor => setAt d monitor.opcode.toList ++ '(' :: (literalToken monitor.param ++ [')'])
  | none =>
    if target.hasVariable id then "data_variable".toList ++ setAt d name.toList
    else "data_listcontents".toList ++ setAt d name.toList

section

variable (call : Nat → Block → Option (List Char)) (chain : Nat → String → Option (List Char))

/-- The argument in a slot at a depth, given how call forms and chains are printed. -/
def printSlot (d : Nat) (input : Input) : Option (List Char) :=
  match input with
  | .empty => some ['\x7b', '\x7d']
  | .literal value => some (literalToken value)
  | .reference name id => some (printReference project target d name id)
  | .block id => do
    let b ← target.block? id
    if b.next.isNone then call d b
    else
      let body ← chain (d + 1) id
      return '\x7b' :: '\n' :: (body ++ spaces d ++ ['\x7d'])

/-- The arguments of a block at a depth: its fields, then its slots. -/
def printArguments (d : Nat) (b : Block) : Option (List (List Char)) := do
  let slots ← b.inputs.mapM fun slot => printSlot project target call chain d slot.2
  return (b.fields.map fun field => literalToken field.2) ++ slots

/-- The call form of a block at a depth. A procedure call puts its signature first. -/
def printForm (d : Nat) (b : Block) : Option (List Char) := do
  let arguments ← printArguments project target call chain d b
  let arguments ←
    if b.opcode = callOpcode then b.proccode?.map fun signature => quoted signature :: arguments
    else some arguments
  return setAt d b.opcode.toList ++ '(' :: (List.intercalate [',', ' '] arguments ++ [')'])

end

mutual

/-- The call form of a block at a depth, if no more than `bound` references are followed in a
    row. -/
def printCall : (bound : Nat) → (d : Nat) → Block → Option (List Char)
  | 0, _, _ => none
  | bound + 1, d, b => printForm project target (printCall bound) (printChain bound) d b

/-- The statements of the chain from an id on, at a depth. -/
def printChain : (bound : Nat) → (d : Nat) → String → Option (List Char)
  | 0, _, _ => none
  | bound + 1, d, id => do
    let b ← target.block? id
    let call ← printForm project target (printCall bound) (printChain bound) d b
    let rest ←
      match b.next with
      | none => some []
      | some next => printChain bound d next
    return spaces d ++ call ++ [';', '\n'] ++ rest

end

/-- More references than can be followed in a row without a circle. -/
def printBound : Nat := target.blocks.length + 1

/-- The arguments in the header of a script. -/
def printHeaderArguments (root : Block) : Option (List (List Char)) :=
  if root.opcode = definitionOpcode then do
    let id ← root.inputBlock? prototypeSlot
    let prototype ← target.block? id
    let signature ← prototype.proccode?
    return [quoted signature]
  else
    printArguments project target (printCall project target (printBound target))
      (printChain project target (printBound target)) 0 root

/-- The header of a script. -/
def printHeader (root : Block) : Option (List Char) := do
  let arguments ← printHeaderArguments project target root
  let given :=
    if arguments.isEmpty then [] else List.intercalate [',', ' '] arguments ++ [',', ' ']
  return root.opcode.toList ++ '(' :: (given ++ ['\x7b'])

/-- The statements below a root, at a depth. -/
def printBody (d : Nat) (root : Block) : Option (List Char) :=
  match root.next with
  | none => some []
  | some next => printChain project target (printBound target) d next

/-- The script of a root. -/
def printScript (root : Block) : Option (List Char) := do
  let header ← printHeader project target root
  let body ← printBody project target 1 root
  return placeLine root ++ ['\n'] ++ header ++ ['\n'] ++ body ++ ['\x7d', ')', ';', '\n']

/-- The lines of a document in front of its scripts. -/
def preambleLines : List (List Char) :=
  headComment :: directive "meta" (boolText target.isStage) (quoted target.name) ::
    (target.variableDecls.map (declarationLine "init_var") ++
      target.listDecls.map (declarationLine "init_list"))

/-- The document of a target. -/
def printTarget : Option (List Char) := do
  let scripts ← target.roots.mapM (printScript project target)
  return (preambleLines target).flatMap (· ++ ['\n']) ++ scripts.flatten

end

/-! ## Renderings set at a depth -/

theorem setAt_statementAt (d k : Nat) (call : List Char) :
    setAt d (statementAt k call) = spaces k ++ setAt (d + k) call ++ [';', '\n'] ++ spaces d := by
  unfold statementAt
  rw [setAt_append, setAt_append, setAt_setAt, setAt_of_not_mem (newline_not_mem_spaces k),
    setAt_cons_of_ne (by decide), setAt_newline]
  simp

/-- Statements set at a depth are the statements that much deeper. -/
theorem setAt_statements (d k : Nat) (calls : List (List Char)) :
    spaces d ++ setAt d (calls.flatMap (statementAt k)) =
      calls.flatMap (statementAt (d + k)) ++ spaces d := by
  induction calls with
  | nil => simp
  | cons call rest ih =>
    rw [List.flatMap_cons, List.flatMap_cons, setAt_append, setAt_statementAt]
    have hfirst : statementAt (d + k) call =
        spaces d ++ spaces k ++ setAt (d + k) call ++ [';', '\n'] := by
      rw [statementAt, spaces_add]
    rw [hfirst, List.append_assoc _ (rest.flatMap _), ← ih]
    simp

theorem setAt_braced (d : Nat) (calls : List (List Char)) :
    setAt d (braced calls) =
      '\x7b' :: '\n' :: (calls.flatMap (statementAt (d + 1)) ++ spaces d ++ ['\x7d']) := by
  unfold braced
  rw [setAt_cons_of_ne (by decide), setAt_newline, setAt_append, ← List.append_assoc,
    setAt_statements, setAt_of_not_mem (by decide : '\n' ∉ ['\x7d'])]

theorem newline_not_mem_separator : '\n' ∉ separator := by decide

@[simp]
theorem setAt_literalToken (d : Nat) (v : Document) : setAt d (literalToken v) = literalToken v :=
  (printable_literalToken v).setAt_eq d

theorem setAt_referenceToken (project : Project) (target : Target) (d : Nat) (name id : String) :
    setAt d (referenceToken project target name id) = printReference project target d name id := by
  unfold referenceToken printReference
  cases project.monitor? id with
  | some monitor =>
    dsimp only
    rw [setAt_append, setAt_cons_of_ne (by decide), setAt_append, setAt_literalToken,
      setAt_of_not_mem (by decide : '\n' ∉ [')'])]
  | none =>
    dsimp only
    split
    · rw [setAt_append, setAt_of_not_mem (by decide : '\n' ∉ "data_variable".toList)]
    · rw [setAt_append, setAt_of_not_mem (by decide : '\n' ∉ "data_listcontents".toList)]

section

variable (project : Project) (target : Target)

/-- What is rendered from an id on, set at any depth, is what is printed at that depth. -/
structure Agrees (id : String) : Prop where
  call : ∀ b, target.block? id = some b → ∀ n d, target.rank id < n →
    printCall project target n d b = (callForm project target b).toOption.map (setAt d)
  chain : ∀ referrer n d, target.rank id < n →
    printChain project target n d id =
      (statements project target referrer id).result.toOption.map fun calls =>
        calls.flatMap (statementAt d)

theorem printSlot_eq (owner : Block) (input : Input) {n : Nat}
    (h : ∀ id, input = .block id → Agrees project target id ∧ target.rank id < n) (d : Nat) :
    printSlot project target (printCall project target n) (printChain project target n) d input =
      (inputText project target (callForm project target) (chain project target) owner
        input).toOption.map (setAt d) := by
  cases input with
  | empty => rfl
  | literal value => simp [printSlot, inputText, Except.toOption]
  | reference name id => simp [printSlot, inputText, Except.toOption, setAt_referenceToken]
  | block id =>
    obtain ⟨hid, hn⟩ := h id rfl
    rw [printSlot, inputText_block_eq]
    cases hb : target.block? id with
    | none => simp [lookup, hb, Except.bind, Except.toOption]
    | some b =>
      have hl : lookup target (some owner) id = .ok b := lookup_eq_ok.mpr hb
      rw [hl]
      simp only [Option.bind_eq_bind, Option.bind_some, Except.bind]
      split
      · exact hid.call b hb n d hn
      · rw [hid.chain (some owner) n (d + 1) hn, toOption_map]
        cases (statements project target (some owner) id).result with
        | error halt => rfl
        | ok calls => simp [Except.toOption, setAt_braced]

/-- The printed arguments of a block are its tokens set at the depth. -/
theorem printArguments_eq {b : Block} {n : Nat}
    (h : ∀ id ∈ b.slotBlocks, Agrees project target id ∧ target.rank id < n) (d : Nat) :
    printArguments project target (printCall project target n) (printChain project target n) d b =
      (argumentTokens project target (callForm project target) (chain project target)
        b).toOption.map (List.map (setAt d)) := by
  have hslots := mapM_eq_toOption fun slot hs =>
    printSlot_eq project target b slot.2 (fun id hi => h id (b.mem_slotBlocks hs hi)) d
  rw [printArguments, hslots]
  unfold argumentTokens
  cases b.inputs.mapM fun slot => inputText project target (callForm project target)
      (chain project target) b slot.2 with
  | error halt => rfl
  | ok slots => simp [Except.toOption, bind, Except.bind, pure, Except.pure]

theorem printForm_eq (h : target.Acyclic) {id : String} {b : Block}
    (hb : target.block? id = some b) {n : Nat}
    (hslots : ∀ id ∈ b.slotBlocks, Agrees project target id ∧ target.rank id < n) (d : Nat) :
    printForm project target (printCall project target n) (printChain project target n) d b =
      (callForm project target b).toOption.map (setAt d) := by
  rw [callForm_eq project target h hb,
    callText_eq project target _ _ (callForm_ne_nil project target), printForm,
    printArguments_eq project target hslots]
  unfold callTokens
  cases argumentTokens project target (callForm project target) (chain project target) b with
  | error halt => rfl
  | ok tokens =>
    have hjoin : ∀ tokens, setAt d (List.intercalate separator tokens) =
        List.intercalate [',', ' '] (tokens.map (setAt d)) :=
      setAt_intercalate newline_not_mem_separator d
    have hclose : setAt d [')'] = [')'] := setAt_of_not_mem (by decide) d
    have hopen : ∀ text, setAt d ('(' :: text) = '(' :: setAt d text :=
      setAt_cons_of_ne (by decide) d
    by_cases hop : b.opcode = callOpcode
    · cases b.proccode? with
      | none => simp [Except.toOption, Except.map, bind, Except.bind, hop]
      | some signature =>
        have hsignature := (printable_quoted signature).setAt_eq d
        simp [Except.toOption, Except.map, bind, Except.bind, pure, Except.pure, hop, hjoin, hclose,
          hopen, hsignature]
    · simp [Except.toOption, Except.map, bind, Except.bind, pure, Except.pure, hop, hjoin, hclose,
        hopen]

/-- Set at any depth, the renderings of a target without circles are what is printed. -/
theorem agrees (h : target.Acyclic) (id : String) : Agrees project target id := by
  refine h.induction (fun i ih => ?_) id
  -- what a block refers to has a lower rank, so it is printed within one reference less
  have hnext : ∀ {b j}, target.block? i = some b → j ∈ b.references → ∀ {n},
      target.rank i < n + 1 → Agrees project target j ∧ target.rank j < n := by
    intro b j hb hj n hn
    have hrank := Target.rank_lt h ⟨b, hb, hj⟩
    exact ⟨ih j ⟨b, hb, hj⟩, by omega⟩
  have hform : ∀ {b}, target.block? i = some b → ∀ {n} (d : Nat), target.rank i < n + 1 →
      printForm project target (printCall project target n) (printChain project target n) d b =
        (callForm project target b).toOption.map (setAt d) := by
    intro b hb n d hn
    exact printForm_eq project target h hb
      (fun j hj => hnext hb (b.mem_references_of_slot hj) hn) d
  refine ⟨fun b hb n d hn => ?_, fun referrer n d hn => ?_⟩
  · obtain ⟨n, rfl⟩ : ∃ m, n = m + 1 := ⟨n - 1, by omega⟩
    rw [printCall]
    exact hform hb d hn
  · obtain ⟨n, rfl⟩ : ∃ m, n = m + 1 := ⟨n - 1, by omega⟩
    rw [printChain, statements_eq project target h]
    cases hb : target.block? i with
    | none =>
      obtain ⟨halt, hl⟩ := lookup_eq_error hb referrer
      rw [hl]
      rfl
    | some b =>
      rw [lookup_eq_ok.mpr hb]
      simp only [Option.bind_eq_bind, Option.bind_some, hform hb d hn]
      cases callForm project target b with
      | error halt => rfl
      | ok call =>
        cases hs : b.next with
        | none => simp [Except.toOption, Statements.result, statementAt]
        | some next =>
          obtain ⟨hagrees, hrank⟩ := hnext hb (b.mem_references_of_next hs) hn
          simp only [hagrees.chain (some b) n d hrank, Statements.result_cons, toOption_map]
          cases (statements project target (some b) next).result <;>
            simp [Except.toOption, statementAt]

theorem rank_lt_printBound (id : String) : target.rank id < printBound target :=
  Nat.lt_succ_of_le (target.rank_le id)

/-! ## Scripts and documents -/

theorem toOption_definedSignature (root : Block) :
    (definedSignature target root).toOption =
      (root.inputBlock? prototypeSlot).bind fun id =>
        (target.block? id).bind fun prototype => prototype.proccode? := by
  unfold definedSignature
  cases root.inputBlock? prototypeSlot with
  | none => rfl
  | some id =>
    cases hb : target.block? id with
    | none => simp [lookup, hb, Except.toOption, bind, Except.bind]
    | some prototype =>
      simp only [lookup_eq_ok.mpr hb, hb, bind, Except.bind, Option.bind_some]
      cases prototype.proccode? <;> rfl

theorem printHeader_eq (h : target.Acyclic) (root : Block) :
    printHeader project target root = (headerLine project target root).toOption := by
  have hzero : List.map (setAt 0) = id := by
    funext tokens
    simp [show setAt 0 = id from funext setAt_zero]
  have harguments : printHeaderArguments project target root =
      (headerTokens project target root).toOption := by
    unfold printHeaderArguments headerTokens
    split
    · rw [toOption_map, toOption_definedSignature]
      cases root.inputBlock? prototypeSlot with
      | none => rfl
      | some id => cases hb : target.block? id <;> simp [hb, Option.map_eq_bind]
    · rw [printArguments_eq project target fun id _ =>
        ⟨agrees project target h id, rank_lt_printBound target id⟩, hzero]
      simp
  rw [headerLine_eq, toOption_map, printHeader, harguments]
  cases (headerTokens project target root).toOption <;> rfl

theorem printBody_eq (h : target.Acyclic) (root : Block) (d : Nat) :
    printBody project target d root =
      (bodyCalls project target root).toOption.map fun calls => calls.flatMap (statementAt d) := by
  unfold printBody bodyCalls
  cases root.next with
  | none => rfl
  | some next =>
    exact (agrees project target h next).chain (some root) _ d (rank_lt_printBound target next)

/-- The printed script of a root is the text of its parts. -/
theorem printScript_eq (h : target.Acyclic) (root : Block) :
    printScript project target root = (scriptText project target root).toOption := by
  unfold printScript scriptText scriptParts
  rw [printHeader_eq project target h, headerLine_eq, printBody_eq project target h]
  cases headerTokens project target root with
  | error halt => rfl
  | ok tokens => cases bodyCalls project target root <;> rfl

theorem toList_preamble :
    (preamble target).text.toList = (preambleLines target).flatMap (· ++ ['\n']) := by
  unfold preamble
  rw [Emitter.toList_writeLines, margin_of_indent_zero rfl]
  simp [preambleLines]

/-- Splicing equals printing: a target without circles is rendered exactly where the printer prints
    it, and as the text that the printer prints. -/
theorem targetText_eq_ok_iff_printTarget (h : target.Acyclic) (text : String) :
    targetText project target = .ok text ↔ printTarget project target = some text.toList := by
  have hscripts : target.roots.mapM (printScript project target) =
      (target.roots.mapM (scriptText project target)).toOption.map (List.map id) :=
    mapM_eq_toOption fun root _ => by rw [Option.map_id]; exact printScript_eq project target h root
  rw [targetText_eq, printTarget, hscripts, toList_preamble]
  cases target.roots.mapM (scriptText project target) with
  | error halt => simp [Except.map, Except.toOption]
  | ok scripts =>
    simp only [Except.map, Except.toOption, Option.map_some, List.map_id, Option.bind_eq_bind,
      Option.bind_some, Option.pure_def, Except.ok.injEq, Option.some.injEq]
    rw [← String.toList_inj, String.toList_ofList]

end

/-! ## A body in a body -/

/-- A script with a body in a body, the inner one under an opcode of two lines. -/
def nestedBodies : Target where
  name := "S"
  isStage := false
  variableDecls := []
  listDecls := []
  blocks := [
    { Block.bare "a" "start" (some "b") [] with topLevel := true },
    Block.bare "b" "loop" none [("BODY", .block "c")],
    Block.bare "c" "if\nset" (some "d") [("BODY", .block "e")],
    Block.bare "d" "stop" none [],
    Block.bare "e" "move" (some "f") [],
    Block.bare "f" "turn" none []]

theorem acyclic_nestedBodies : nestedBodies.Acyclic :=
  Target.acyclic_of_measure
    (fun id => match id with | "a" => 4 | "b" => 3 | "c" => 2 | "e" => 1 | _ => 0) (by decide)

def nestedBodiesText : String :=
  "\n".intercalate ["// Generate by scratch-script", "#meta(false, \"S\");", "@(0, 0)",
    "start(\x7b", "    loop(\x7b", "        if", "        set(\x7b", "            move();",
    "            turn();", "        \x7d);", "        stop();", "    \x7d);", "\x7d);", ""]

theorem printTarget_nestedBodies :
    nestedBodies.Acyclic ∧ targetText ⟨[], []⟩ nestedBodies = .ok nestedBodiesText ∧
      printTarget ⟨[], []⟩ nestedBodies = some nestedBodiesText.toList := by
  have htext : targetText ⟨[], []⟩ nestedBodies = .ok nestedBodiesText := by decide +kernel
  exact ⟨acyclic_nestedBodies, htext,
    (targetText_eq_ok_iff_printTarget ⟨[], []⟩ nestedBodies acyclic_nestedBodies
      nestedBodiesText).mp htext⟩

end BlockScript.Script
