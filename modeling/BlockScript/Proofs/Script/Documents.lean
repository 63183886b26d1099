/-
  A document as its parts.

  A script is made of the tokens of its header and the call forms of its body (`Parts`); both come
  from the graph alone, the rest of its text is fixed. Writing a script at the outermost level
  appends the text of its parts and leaves the level as it was (`writeScript_eq`), so a document is
  the preamble and then the scripts of the roots, and it halts where the first of them does
  (`targetText_eq`).
-/
import BlockScript.Proofs.Script.Arguments
import BlockScript.Proofs.Script.Statements

namespace BlockScript.Script

open BlockScript.Results BlockScript.Text

/-- What a script is made of: the tokens of its header and the call forms of its body. -/
structure Parts where
  header : List (List Char)
  calls : List (List Char)

/-- The opening line of a script over its tokens. -/
def headerText (opcode : String) (tokens : List (List Char)) : List Char :=
  opcode.toList ++ '(' ::
    ((if tokens.isEmpty then [] else List.intercalate separator tokens ++ separator) ++ ['\x7b'])

/-- The text of the script of a root over its parts. -/
def Parts.text (parts : Parts) (root : Block) : List Char :=
  placeLine root ++ ['\n'] ++ headerText root.opcode parts.header ++ ['\n'] ++
    parts.calls.flatMap (statementAt 1) ++ ['\x7d', ')', ';', '\n']

section

variable (project : Project) (target : Target)

/-- The call forms from the successor of a block on. -/
def bodyCalls (b : Block) : Except Halt (List (List Char)) :=
  match b.next with
  | none => .ok []
  | some next => (statements project target (some b) next).result

/-- The parts of the script of a root. -/
def scriptParts (root : Block) : Except Halt Parts := do
  let header ← headerTokens project target root
  let calls ← bodyCalls project target root
  return ⟨header, calls⟩

/-- The text of the script of a root. -/
def scriptText (root : Block) : Except Halt (List Char) :=
  (scriptParts project target root).map fun parts => parts.text root

/-! ## Writing the parts -/

theorem margin_of_indent_zero {out : Emitter} (h : out.indent = 0) : out.margin = [] := by
  have hlevel : out.indent.toNat = 0 := by
    rw [h]
    rfl
  exact Emitter.margin_eq hlevel (by decide)

/-- An emitter is what it has written and its level. -/
theorem Emitter.eq_of_toList {e f : Emitter} (ht : e.text.toList = f.text.toList)
    (hi : e.indent = f.indent) : e = f := by
  cases e
  cases f
  simp_all [String.toList_inj]

/-- Appends text as it is. -/
def appended (out : Emitter) (text : List Char) : Emitter := out.write text false

@[simp]
theorem toList_appended (out : Emitter) (text : List Char) :
    (appended out text).text.toList = out.text.toList ++ text := by
  simp [appended]

@[simp]
theorem indent_appended (out : Emitter) (text : List Char) :
    (appended out text).indent = out.indent := rfl

/-- The body of a script at level one is the statements of its call forms. -/
theorem writeBody_eq (root : Block) {out : Emitter} (hm : out.margin = spaces 1) :
    writeBody project target root out =
      (bodyCalls project target root).map fun calls =>
        appended out (calls.flatMap (statementAt 1)) := by
  unfold writeBody bodyCalls
  cases root.next with
  | none =>
    simp only [Except.map, List.flatMap_nil, Except.ok.injEq]
    exact Emitter.eq_of_toList (by simp) rfl
  | some next =>
    dsimp only
    rw [chain_eq_write]
    have htext := (statements project target (some root) next).toList_write hm
    have hindent := (statements project target (some root) next).indent_write out
    revert htext hindent
    unfold Statements.write Statements.result
    cases (statements project target (some root) next).halt with
    | some halt => exact fun _ _ => rfl
    | none =>
      intro htext hindent
      simp only [Except.map, Except.ok.injEq]
      exact Emitter.eq_of_toList (by rw [htext, toList_appended]) hindent

/-- At the outermost level a script is written as the text of its parts. -/
theorem writeScript_eq (root : Block) {out : Emitter} (ho : out.indent = 0) :
    writeScript project target out root = (scriptText project target root).map (appended out) := by
  unfold writeScript scriptText scriptParts
  rw [headerLine_eq]
  cases headerTokens project target root with
  | error halt => rfl
  | ok tokens =>
    -- The level is one while the body is written, and zero before and after.
    obtain ⟨start, hstart⟩ : ∃ start, start =
        ((out.writeLine (placeLine root) true).writeLine
          (headerText root.opcode tokens) true).addIndent 1 := ⟨_, rfl⟩
    have hone : start.indent = 0 + 1 := by
      rw [hstart]
      exact Emitter.indent_addIndent_one ho (by decide)
    have hplaced : (out.writeLine (placeLine root) true).indent = 0 := ho
    have htop : start.text.toList = out.text.toList ++ placeLine root ++ ['\n'] ++
        headerText root.opcode tokens ++ ['\n'] := by
      rw [hstart, Emitter.text_addIndent, Emitter.toList_writeLine, Emitter.toList_writeLine,
        margin_of_indent_zero ho, margin_of_indent_zero hplaced]
      simp
    have hmargin : start.margin = spaces 1 := Emitter.margin_eq (by rw [hone]; rfl) (by decide)
    have hbody := writeBody_eq project target root hmargin
    rw [hstart] at hbody
    simp only [Except.map, bind, Except.bind]
    unfold headerText at hbody
    rw [hbody]
    cases bodyCalls project target root with
    | error halt => rfl
    | ok calls =>
      rw [← headerText, ← hstart]
      simp only [Except.map, pure, Except.pure, Except.ok.injEq]
      have hback : ((appended start (calls.flatMap (statementAt 1))).addIndent (-1)).indent = 0 :=
        Emitter.indent_addIndent_back hone (by decide)
      refine Emitter.eq_of_toList ?_ (by rw [Emitter.indent_writeLine, hback, indent_appended, ho])
      rw [Emitter.toList_writeLine, Emitter.text_addIndent, toList_appended, htop,
        margin_of_indent_zero hback, toList_appended, Parts.text]
      simp

/-- Scripts are written one behind the other, up to the first that halts. -/
theorem writeScripts_eq (roots : List Block) {out : Emitter} (ho : out.indent = 0) :
    roots.foldlM (writeScript project target) out =
      (roots.mapM (scriptText project target)).map fun scripts =>
        appended out scripts.flatten := by
  induction roots generalizing out with
  | nil =>
    simp only [List.foldlM_nil, List.mapM_nil, pure, Except.pure, Except.map, Except.ok.injEq]
    exact Emitter.eq_of_toList (by simp) rfl
  | cons root rest ih =>
    rw [List.foldlM_cons, List.mapM_cons, writeScript_eq project target root ho]
    cases scriptText project target root with
    | error halt => rfl
    | ok text =>
      have hrest := @ih (appended out text) ho
      simp only [Except.map, bind, Except.bind] at hrest ⊢
      rw [hrest]
      cases rest.mapM (scriptText project target) with
      | error halt => rfl
      | ok scripts =>
        simp only [pure, Except.pure, Except.ok.injEq]
        exact Emitter.eq_of_toList (by simp) rfl

theorem indent_preamble : (preamble target).indent = 0 := by
  unfold preamble
  rw [Emitter.indent_writeLines]

/-- A document is the preamble and then the scripts, up to the first that halts. -/
theorem targetText_eq :
    targetText project target = (target.roots.mapM (scriptText project target)).map fun scripts =>
      String.ofList ((preamble target).text.toList ++ scripts.flatten) := by
  unfold targetText
  rw [writeScripts_eq project target target.roots (indent_preamble target)]
  cases target.roots.mapM (scriptText project target) with
  | error halt => rfl
  | ok scripts =>
    simp only [Except.map, bind, Except.bind, pure, Except.pure, Except.ok.injEq]
    rw [← toList_appended, String.ofList_toList]

end

end BlockScript.Script
