/-
  Argument lists taken apart again.

  Who knows an argument list only as text cuts it at the separators outside of strings and brackets
  (`argumentsIn`). Where opcodes hold no mark of the list itself and every name that stands bare in
  it is whole, closed in itself and without such a separator, that gives back exactly the arguments:
  one for each field and each slot, in their order (`argumentsIn_arguments`). All other strings may
  hold anything. A bare name with a separator in it is read as two arguments
  (`argumentsIn_splitName`).
-/
import BlockScript.Proofs.Script.Comparison
import BlockScript.Proofs.Text.Brackets

namespace BlockScript.Script

open BlockScript.Results BlockScript.Text

/-! ## Cutting -/

/-- The pieces of a text between the separators at the top, from a reader on. -/
def cut : Scan → List Char → List (List Char)
  | _, [] => [[]]
  | s, ',' :: ' ' :: rest =>
    if s = {} then [] :: cut s rest
    else onFirst ',' (cut (s.next brackets ',') (' ' :: rest))
  | s, c :: rest => onFirst c (cut (s.next brackets c) rest)

/-- The arguments that a list holds. -/
def argumentsIn (text : List Char) : List (List Char) :=
  if text.isEmpty then [] else cut {} text

/-- The characters that structure an argument list. -/
def marks : List Char := ['"', '(', ')', '[', ']', '\x7b', '\x7d', ',']

/-- A text that counts as one argument: what it opens it closes, and it has no separator at the
    top. -/
structure Whole (text : List Char) : Prop where
  balanced : Balanced brackets text
  uncut : cut {} text = [text]

theorem cut_cons {s : Scan} {c : Char} {rest : List Char}
    (h : c = ',' → rest.head? ≠ some ' ') :
    cut s (c :: rest) = onFirst c (cut (s.next brackets c) rest) := by
  rw [cut]
  rintro rest' rfl rfl
  exact h rfl rfl

theorem cut_cons_of_ne {s : Scan} (hs : s ≠ {}) (c : Char) (rest : List Char) :
    cut s (c :: rest) = onFirst c (cut (s.next brackets c) rest) := by
  by_cases h : c = ',' ∧ rest.head? = some ' '
  · obtain ⟨rfl, hrest⟩ := h
    obtain ⟨rest', rfl⟩ := List.head?_eq_some_iff.mp hrest
    rw [cut, if_neg hs]
  · exact cut_cons fun hc hrest => h ⟨hc, hrest⟩

theorem cut_separator (rest : List Char) : cut {} (separator ++ rest) = [] :: cut {} rest := by
  show cut {} (',' :: ' ' :: rest) = _
  rw [cut, if_pos rfl]

theorem foldr_onFirst (text piece : List Char) (rest : List (List Char)) :
    text.foldr onFirst (piece :: rest) = (text ++ piece) :: rest := by
  induction text with
  | nil => rfl
  | cons c text ih =>
    rw [List.foldr_cons, ih]
    rfl

theorem onFirst_eq_singleton {c : Char} {pieces : List (List Char)} {text : List Char}
    (hne : pieces ≠ []) (h : onFirst c pieces = [c :: text]) : pieces = [text] := by
  cases pieces with
  | nil => exact absurd rfl hne
  | cons piece rest =>
    simp only [onFirst, List.cons.injEq, true_and] at h
    rw [h.1, h.2]

theorem cut_ne_nil (s : Scan) (text : List Char) : cut s text ≠ [] := by
  have honFirst : ∀ c pieces, onFirst c pieces ≠ [] := by
    intro c pieces
    cases pieces <;> exact List.cons_ne_nil _ _
  fun_cases cut s text with
  | case1 => exact List.cons_ne_nil _ _
  | case2 rest => exact List.cons_ne_nil _ _
  | case3 => exact honFirst _ _
  | case4 => exact honFirst _ _

/-- A text that is not cut on its own is not cut in front of other text. What follows must not start
    with a blank, which could complete a separator. -/
theorem cut_append {s : Scan} {text rest : List Char} (h : cut s text = [text])
    (hrest : rest.head? ≠ some ' ') :
    cut s (text ++ rest) = text.foldr onFirst (cut (s.over brackets text) rest) := by
  induction text generalizing s with
  | nil => rfl
  | cons c text ih =>
    -- the text itself is read on behind its first character, without a cut there
    have hstep : cut s (c :: text) = onFirst c (cut (s.next brackets c) text) ∧
        (s = {} → c = ',' → text.head? ≠ some ' ') := by
      by_cases hs : s = {}
      · by_cases hc : c = ',' ∧ text.head? = some ' '
        · obtain ⟨rfl, htext⟩ := hc
          obtain ⟨text', rfl⟩ := List.head?_eq_some_iff.mp htext
          rw [cut, if_pos hs] at h
          cases h
        · exact ⟨cut_cons fun h1 h2 => hc ⟨h1, h2⟩, fun _ h1 h2 => hc ⟨h1, h2⟩⟩
      · exact ⟨cut_cons_of_ne hs c text, fun hs' => absurd hs' hs⟩
    obtain ⟨hself, hhead⟩ := hstep
    have htext : cut (s.next brackets c) text = [text] :=
      onFirst_eq_singleton (cut_ne_nil _ _) (hself ▸ h)
    have hwhole : cut s (c :: (text ++ rest)) =
        onFirst c (cut (s.next brackets c) (text ++ rest)) := by
      by_cases hs : s = {}
      · refine cut_cons fun hc => ?_
        cases text with
        | nil => exact hrest
        | cons x text => exact hhead hs hc
      · exact cut_cons_of_ne hs c (text ++ rest)
    rw [List.cons_append, hwhole, ih htext]
    rfl

/-- A text that is never read at the top is not cut. -/
theorem cut_of_reads {s s' : Scan} {text : List Char} (h : Reads brackets (· ≠ {}) s text s')
    (rest : List Char) : cut s (text ++ rest) = text.foldr onFirst (cut s' rest) := by
  induction h with
  | nil _ => rfl
  | cons hs _ ih =>
    rw [List.cons_append, cut_cons_of_ne hs, ih]
    rfl

/-! ## Whole tokens -/

theorem plain_of_not_mem_marks {c : Char} (h : c ∉ marks) :
    c ≠ '"' ∧ c ≠ ',' ∧ brackets c = 0 := by
  refine ⟨?_, ?_, weighs_brackets.other c fun hc => h ?_⟩
  · rintro rfl; exact h (by decide)
  · rintro rfl; exact h (by decide)
  · exact (by decide : ['(', ')', '[', ']', '\x7b', '\x7d'] ⊆ marks) hc

/-- Text without marks in front of a whole text. -/
theorem Whole.prepend {plain text : List Char} (hplain : ∀ c ∈ plain, c ∉ marks)
    (h : Whole text) : Whole (plain ++ text) := by
  induction plain with
  | nil => exact h
  | cons c plain ih =>
    obtain ⟨hc, hrest⟩ := List.forall_mem_cons.mp hplain
    obtain ⟨hquote, hcomma, hweight⟩ := plain_of_not_mem_marks hc
    have htext := ih hrest
    have hnext : ({} : Scan).next brackets c = {} := by
      rw [next_outside hquote, hweight]
      rfl
    refine ⟨htext.balanced.cons hquote hweight, ?_⟩
    rw [List.cons_append, cut_cons fun hc => absurd hc hcomma, hnext, htext.uncut]
    rfl

theorem whole_nil : Whole [] := ⟨balanced_nil, rfl⟩

theorem whole_of_not_mem_marks {plain : List Char} (h : ∀ c ∈ plain, c ∉ marks) :
    Whole plain := by
  have := whole_nil.prepend h
  rwa [List.append_nil] at this

theorem whole_quoted (s : String) : Whole (quoted s) := by
  refine ⟨weighs_brackets.balanced_quoted s, ?_⟩
  have hinside : Reads brackets (· ≠ {}) ⟨.inside, 0⟩ (s.toList.flatMap escaped) ⟨.inside, 0⟩ :=
    (reads_flatMap_escaped s.toList 0).imp fun s hs heq => hs.1 (heq ▸ rfl)
  have hlast : cut ⟨.inside, 0⟩ ['"'] = [['"']] := rfl
  have hcontent := cut_of_reads hinside ['"']
  rw [hlast, foldr_onFirst] at hcontent
  unfold quoted
  rw [cut_cons fun hc => absurd hc (by decide), weighs_brackets.next_quote, hcontent]
  rfl

/-- Brackets hide the separators between them. -/
theorem whole_enclosed {o c : Char} {text : List Char} (h : Balanced brackets text)
    (ho : brackets o = 1) (hc : brackets c = -1) : Whole (o :: (text ++ [c])) := by
  have hoq : o ≠ '"' := by rintro rfl; exact absurd ho (by decide)
  have hcq : c ≠ '"' := by rintro rfl; exact absurd hc (by decide)
  have hoc : o ≠ ',' := by rintro rfl; exact absurd ho (by decide)
  have hhidden : Reads brackets (· ≠ {}) ⟨.outside, 0 + 1⟩ text ⟨.outside, 0 + 1⟩ :=
    (h (0 + 1)).imp fun s hs heq => by
      rw [heq] at hs
      exact absurd hs (by decide)
  have hlast : cut ⟨.outside, 0 + 1⟩ [c] = [[c]] := by
    rw [cut_cons fun _ => by simp]
    rfl
  have hcontent := cut_of_reads hhidden [c]
  rw [hlast, foldr_onFirst] at hcontent
  refine ⟨h.enclosed hoq hcq (by omega) (by omega), ?_⟩
  rw [cut_cons fun hc => absurd hc hoc, next_outside hoq, ho, hcontent]
  rfl

theorem whole_literalToken (v : Json.Document) : Whole (literalToken v) := by
  cases v with
  | null => exact whole_of_not_mem_marks (by simp [marks, literalToken, Json.Value.compact])
  | bool b => exact whole_quoted _
  | number n => exact whole_quoted _
  | string s => exact whole_quoted s
  | array items =>
    have hitems := balanced_intercalate (weighs_brackets.balanced_char (by decide : ',' ∉ _))
      (weighs_brackets.balanced_itemTexts items)
    rw [literalToken_array]
    exact whole_enclosed hitems rfl rfl
  | object members =>
    have hmembers := balanced_intercalate (weighs_brackets.balanced_char (by decide : ',' ∉ _))
      (weighs_brackets.balanced_memberTexts members)
    rw [literalToken_object]
    exact whole_enclosed hmembers rfl rfl

theorem balanced_separator : Balanced brackets separator :=
  balanced_of_plain (by simp [separator, brackets])

theorem whole_form {opcode : String} (hopcode : ∀ c ∈ opcode.toList, c ∉ marks)
    {tokens : List (List Char)} (h : ∀ a ∈ tokens, Whole a) : Whole (form opcode tokens) := by
  have htokens := balanced_intercalate balanced_separator fun a ha => (h a ha).balanced
  exact (whole_enclosed htokens rfl rfl).prepend hopcode

theorem balanced_statementAt {call : List Char} (h : Balanced brackets call) (d : Nat) :
    Balanced brackets (statementAt d call) := by
  have hspaces : Balanced brackets (spaces d) := balanced_of_plain fun c hc => by
    rw [List.eq_of_mem_replicate hc]
    decide
  exact (hspaces.append (weighs_brackets.balanced_setAt h d)).append
    (balanced_of_plain (by simp [brackets]))

theorem whole_braced {calls : List (List Char)} (h : ∀ a ∈ calls, Whole a) :
    Whole (braced calls) := by
  have hcalls : Balanced brackets (calls.flatMap (statementAt 1)) :=
    balanced_flatMap fun a ha => balanced_statementAt (h a ha).balanced 1
  exact whole_enclosed (hcalls.cons (by decide) rfl) rfl rfl

theorem whole_referenceToken {project : Project} {target : Target} {name id : String}
    (hmonitors : ∀ m ∈ project.monitors, ∀ c ∈ m.opcode.toList, c ∉ marks)
    (hname : project.monitor? id = none → Whole name.toList) :
    Whole (referenceToken project target name id) := by
  unfold referenceToken
  cases hm : project.monitor? id with
  | some monitor =>
    have hparam : ∀ a ∈ [literalToken monitor.param], Whole a := by
      simpa using whole_literalToken monitor.param
    have hform := whole_form (hmonitors monitor (List.mem_of_find?_eq_some hm)) hparam
    rwa [form, List.intercalate_singleton] at hform
  | none =>
    dsimp only
    split
    · exact (hname hm).prepend (by simp [marks])
    · exact (hname hm).prepend (by simp [marks])

/-! ## Lists of tokens -/

theorem cut_intercalate {tokens : List (List Char)} (h : ∀ a ∈ tokens, Whole a)
    (hne : tokens ≠ []) : cut {} (List.intercalate separator tokens) = tokens := by
  induction tokens with
  | nil => exact absurd rfl hne
  | cons token rest ih =>
    obtain ⟨htoken, hrest⟩ := List.forall_mem_cons.mp h
    cases rest with
    | nil => rw [List.intercalate_singleton, htoken.uncut]
    | cons next rest =>
      have hback : ({} : Scan).over brackets token = {} := (htoken.balanced 0).over_eq
      rw [List.intercalate_cons_cons, List.append_assoc,
        cut_append htoken.uncut (by simp [separator]), hback, cut_separator,
        ih hrest (List.cons_ne_nil _ _), foldr_onFirst, List.append_nil]

theorem argumentsIn_intercalate {tokens : List (List Char)} (h : ∀ a ∈ tokens, Whole a)
    (hne : ∀ a ∈ tokens, a ≠ []) : argumentsIn (List.intercalate separator tokens) = tokens := by
  unfold argumentsIn
  rw [joined_isEmpty hne]
  cases tokens with
  | nil => rfl
  | cons token rest => exact cut_intercalate h (List.cons_ne_nil _ _)

section

variable (project : Project) (target : Target)

/-- Cut at the separators outside of strings and brackets, the arguments of a block are those of its
    fields and then those of its slots, each with at least one character. -/
theorem argumentsIn_arguments (h : target.Acyclic)
    (hopcodes : ∀ b ∈ target.blocks, ∀ c ∈ b.opcode.toList, c ∉ marks)
    (hmonitors : ∀ m ∈ project.monitors, ∀ c ∈ m.opcode.toList, c ∉ marks)
    (hnames : ∀ b ∈ target.blocks, ∀ slot ∈ b.inputs, ∀ name id, slot.2 = .reference name id →
      project.monitor? id = none → Whole name.toList)
    {b : Block} (hb : b ∈ target.blocks) {text : List Char}
    (htext : arguments project target b = .ok text) :
    ∃ slots, (b.inputs.mapM fun slot => inputText project target (callForm project target)
        (chain project target) b slot.2) = .ok slots ∧
      argumentsIn text = (b.fields.map fun field => literalToken field.2) ++ slots ∧
      (argumentsIn text).length = b.fields.length + b.inputs.length ∧
      (∀ token ∈ argumentsIn text, token ≠ []) ∧
      (text = [] ↔ b.fields.length + b.inputs.length = 0) := by
  have hwhole : Inherited Whole project target := {
    literal := whole_literalToken
    empty := whole_enclosed balanced_nil rfl rfl
    reference := fun b hb slot hs name id hi =>
      whole_referenceToken hmonitors (hnames b hb slot hs name id hi)
    form := fun b hb tokens => whole_form (hopcodes b hb)
    body := fun calls => whole_braced }
  have htokens := argumentsText_eq project target (callForm project target)
    (chain project target) b
  obtain ⟨tokens, ht, rfl⟩ := map_eq_ok.mp (htokens.symm.trans htext)
  obtain ⟨slots, hslots, hall⟩ := bind_eq_ok.mp ht
  have hne := argumentTokens_ne_nil project target _ _ (callForm_ne_nil project target) ht
  have hcut := argumentsIn_intercalate (hwhole.argumentTokens h hb ht) hne
  have hlength : tokens.length = b.fields.length + b.inputs.length := by
    cases hall
    rw [List.length_append, List.length_map, length_of_mapM hslots]
  refine ⟨slots, hslots, ?_, ?_, ?_, ?_⟩
  · rw [hcut]
    cases hall
    rfl
  · rw [hcut, hlength]
  · rw [hcut]
    exact hne
  · rw [← hlength, List.length_eq_zero_iff, ← List.isEmpty_iff, joined_isEmpty hne,
      List.isEmpty_iff]

end

/-! ## Names in argument lists -/

/-- A block with an argument of every kind: text with a separator, a call, a body, nothing, a value
    with brackets in it, and a bare name that is whole. -/
def mixedBlock : Block :=
  { Block.bare "a" "op.mixed" none [
      ("A", .block "b"), ("B", .block "c"), ("C", .empty),
      ("D", .literal (.array [.string ")", .null])), ("E", .reference "f(x, y)" "v")] with
    fields := [("F", .string "x, \"y")] }

def mixedArguments : Target where
  name := "S"
  isStage := false
  variableDecls := [⟨"v", "f(x, y)", .null⟩]
  listDecls := []
  blocks := [
    mixedBlock,
    Block.bare "b" "sum" none [("L", .literal (.string "1")), ("M", .literal (.string "2"))],
    Block.bare "c" "move" (some "d") [],
    Block.bare "d" "turn" none []]

def mixedTokens : List (List Char) := [
  "\"x, \\\"y\"".toList, "sum(\"1\", \"2\")".toList,
  "\x7b\n    move();\n    turn();\n\x7d".toList, "\x7b\x7d".toList, "[\")\",null]".toList,
  "data_variablef(x, y)".toList]

theorem whole_callName : Whole "f(x, y)".toList := by
  have hinner : Balanced brackets "x, y".toList := balanced_of_plain (by simp [brackets])
  exact (whole_enclosed hinner rfl rfl).prepend (by simp [marks] : ∀ c ∈ ['f'], c ∉ marks)

theorem argumentsIn_mixedBlock :
    mixedArguments.Acyclic ∧
      arguments ⟨[], []⟩ mixedArguments mixedBlock =
        .ok (List.intercalate separator mixedTokens) ∧
      (argumentsIn (List.intercalate separator mixedTokens)).length =
        mixedBlock.fields.length + mixedBlock.inputs.length := by
  have hacyclic : mixedArguments.Acyclic := Target.acyclic_of_measure
    (fun id => match id with | "a" => 2 | "c" => 1 | _ => 0) (by decide)
  have htext : arguments ⟨[], []⟩ mixedArguments mixedBlock =
      .ok (List.intercalate separator mixedTokens) := by decide +kernel
  have hnames : ∀ b ∈ mixedArguments.blocks, ∀ slot ∈ b.inputs, ∀ name id,
      slot.2 = .reference name id → Project.monitor? ⟨[], []⟩ id = none → Whole name.toList := by
    intro b hb slot hs name id hi _
    have hname : name = "f(x, y)" := by
      simp only [mixedArguments, mixedBlock, Block.bare, List.mem_cons, List.not_mem_nil,
        or_false] at hb
      rcases hb with rfl | rfl | rfl | rfl <;> simp at hs
      · rcases hs with rfl | rfl | rfl | rfl | rfl <;> simp_all
      · rcases hs with rfl | rfl <;> simp at hi
    rw [hname]
    exact whole_callName
  have hopcodes : ∀ b ∈ mixedArguments.blocks, ∀ c ∈ b.opcode.toList, c ∉ marks := by
    simp [mixedArguments, mixedBlock, Block.bare, marks]
  obtain ⟨-, -, -, hlength, -⟩ := argumentsIn_arguments ⟨[], []⟩ mixedArguments hacyclic
    hopcodes (by simp) hnames (List.mem_cons_self ..) htext
  exact ⟨hacyclic, htext, hlength⟩

/-- A block with a bare name that holds a separator. -/
def sayBlock : Block := Block.bare "s" "looks_say" none [("MESSAGE", .reference "a, b" "v")]

def splitName : Target where
  name := "S"
  isStage := false
  variableDecls := []
  listDecls := []
  blocks := [sayBlock]

/-- The one argument of the block is read as two. -/
theorem argumentsIn_splitName :
    splitName.Acyclic ∧
      (∀ b ∈ splitName.blocks, ∀ c ∈ b.opcode.toList, c.isAlphanum ∨ c = '_' ∨ c = '.') ∧
      arguments ⟨[splitName], []⟩ splitName sayBlock = .ok "data_listcontentsa, b".toList ∧
      (argumentsIn "data_listcontentsa, b".toList).length ≠
        sayBlock.fields.length + sayBlock.inputs.length := by
  have hacyclic : splitName.Acyclic := Target.acyclic_of_measure (fun _ => 0) (by decide)
  exact ⟨hacyclic, by simp [splitName, sayBlock, Block.bare], by decide +kernel, by decide +kernel⟩

end BlockScript.Script
