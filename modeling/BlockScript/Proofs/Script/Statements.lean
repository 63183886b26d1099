/-
  A chain as the list of its statements.

  What a chain writes does not depend on what was written before: it is the call forms of its
  blocks in order, up to the first block that halts (`statementsWith`). Writing the chain appends
  the lines of these statements, each behind the margin, and nothing else (`chainWith_eq`). A body is
  made of the same statements at depth one (`bodyText_eq`).
-/
import BlockScript.Proofs.Text.Indentation
import BlockScript.Script.Target

namespace BlockScript.Script

open BlockScript.Text

/-! ## Margins -/

namespace Emitter

theorem toNat_indent_addIndent (e : Emitter) (delta : Int) :
    (e.addIndent delta).indent.toNat =
      (max 0 (min (e.indent.toNat + delta) (UInt64.size - 1 : Nat))).toNat := by
  unfold addIndent
  dsimp only
  rw [UInt64.toNat_ofNat']
  apply Nat.mod_eq_of_lt
  have : UInt64.size = 18446744073709551616 := rfl
  omega

/-- A step to the next level, below the end of the range. -/
theorem indent_addIndent_one {e : Emitter} {level : UInt64} (h : e.indent = level)
    (hl : level.toNat + 1 < UInt64.size) : (e.addIndent 1).indent = level + 1 := by
  apply UInt64.toNat.inj
  rw [toNat_indent_addIndent, h, UInt64.toNat_add]
  have : UInt64.size = 18446744073709551616 := rfl
  have : (1 : UInt64).toNat = 1 := rfl
  omega

/-- A step back to the level before. -/
theorem indent_addIndent_back {e : Emitter} {level : UInt64} (h : e.indent = level + 1)
    (hl : level.toNat + 1 < UInt64.size) : (e.addIndent (-1)).indent = level := by
  apply UInt64.toNat.inj
  rw [toNat_indent_addIndent, h, UInt64.toNat_add]
  have : UInt64.size = 18446744073709551616 := rfl
  have : (1 : UInt64).toNat = 1 := rfl
  omega

/-- As long as the spaces can be counted in a word, a margin is the spaces of its level. -/
theorem margin_eq {e : Emitter} {d : Nat} (h : e.indent.toNat = d) (hd : 4 * d < UInt64.size) :
    e.margin = spaces d := by
  unfold margin spaces
  rw [UInt64.toNat_mul, h]
  congr 1
  have : UInt64.size = 18446744073709551616 := rfl
  have : indentWidth.toNat = 4 := rfl
  rw [this]
  omega

end Emitter

/-! ## Statements -/

/-- The lines of a statement. -/
def statementLines (call : List Char) : List (List Char) := lines (call ++ [';'])

/-- A statement at a depth. -/
def statementAt (d : Nat) (call : List Char) : List Char :=
  spaces d ++ setAt d call ++ [';', '\n']

theorem flatMap_statementLines (d : Nat) (call : List Char) :
    ((statementLines call).flatMap fun line => spaces d ++ line ++ ['\n']) =
      statementAt d call := by
  unfold statementLines statementAt
  rw [flatMap_lines, setAt_append, setAt_of_not_mem (by decide : '\n' ∉ [';'])]
  simp

/-- The call forms that a chain got to, and why it ended early. -/
structure Statements where
  calls : List (List Char)
  halt : Option Halt

namespace Statements

/-- Puts a statement in front. -/
def cons (call : List Char) (s : Statements) : Statements := ⟨call :: s.calls, s.halt⟩

/-- The call forms, if none of them halted. -/
def result (s : Statements) : Except Halt (List (List Char)) :=
  match s.halt with
  | none => .ok s.calls
  | some halt => .error halt

/-- Writes the statements. -/
def write (s : Statements) (out : Emitter) : Emitter × Option Halt :=
  (out.writeLines (s.calls.flatMap statementLines), s.halt)

theorem result_cons (call : List Char) (s : Statements) :
    (s.cons call).result = s.result.map (call :: ·) := by
  unfold result cons
  cases s.halt <;> rfl

theorem write_cons (call : List Char) (s : Statements) (out : Emitter) :
    (s.cons call).write out = s.write (out.writeLines (statementLines call)) := by
  unfold write cons Emitter.writeLines
  rw [List.flatMap_cons, List.foldl_append]

/-- What was written is what stood there, and then the statements at the depth of the margin. -/
theorem toList_write (s : Statements) {out : Emitter} {d : Nat} (h : out.margin = spaces d) :
    (s.write out).1.text.toList = out.text.toList ++ s.calls.flatMap (statementAt d) := by
  unfold write
  rw [Emitter.toList_writeLines, h, List.flatMap_assoc]
  congr 2
  funext call
  exact flatMap_statementLines d call

@[simp]
theorem indent_write (s : Statements) (out : Emitter) : (s.write out).1.indent = out.indent := by
  simp [write]

end Statements

section

variable (project : Project) (target : Target)

/-- The statements of a chain, entering at most `fuel` blocks along a path. -/
def statementsWith : (fuel : Nat) → Option Block → String → Statements
  | 0, _, _ => ⟨[], some .exhausted⟩
  | fuel + 1, referrer, id =>
    match lookup target referrer id with
    | .error halt => ⟨[], some halt⟩
    | .ok b =>
      match callWith project target (fuel + 1) b with
      | .error halt => ⟨[], some halt⟩
      | .ok call =>
        match b.next with
        | none => ⟨[call], none⟩
        | some next => (statementsWith fuel (some b) next).cons call

/-- Writing a chain is writing its statements. -/
theorem chainWith_eq (fuel : Nat) (referrer : Option Block) (id : String) (out : Emitter) :
    chainWith project target fuel referrer id out =
      (statementsWith project target fuel referrer id).write out := by
  induction fuel generalizing referrer id out with
  | zero => rw [chainWith, statementsWith]; rfl
  | succ fuel ih =>
    rw [chainWith, statementsWith]
    cases lookup target referrer id with
    | error halt => rfl
    | ok b =>
      dsimp only
      rw [callWith]
      cases callText project target (callWith project target fuel)
          (chainWith project target fuel) b with
      | error halt => rfl
      | ok call =>
        cases b.next with
        | none =>
          simp only [Statements.write, List.flatMap_cons, List.flatMap_nil, List.append_nil]
          rfl
        | some next =>
          dsimp only
          rw [Statements.write_cons]
          exact ih (some b) next _

/-- The statements of a chain of the target. -/
def statements : Option Block → String → Statements :=
  statementsWith project target (fuelFor target)

theorem chain_eq_write (referrer : Option Block) (id : String) (out : Emitter) :
    chain project target referrer id out = (statements project target referrer id).write out :=
  chainWith_eq project target (fuelFor target) referrer id out

end

/-! ## Bodies -/

/-- Statements between braces, one level deeper than the braces. -/
def braced (calls : List (List Char)) : List Char :=
  '\x7b' :: '\n' :: (calls.flatMap (statementAt 1) ++ ['\x7d'])

/-- What a body starts from: the brace is written and the level is one. -/
def opened : Emitter := (({} : Emitter).writeLine ['\x7b'] true).addIndent 1

theorem indent_opened : opened.indent = 0 + 1 := Emitter.indent_addIndent_one rfl (by decide)

theorem margin_opened : opened.margin = spaces 1 :=
  Emitter.margin_eq (by rw [indent_opened]; rfl) (by decide)

theorem toList_opened : opened.text.toList = ['\x7b', '\n'] := rfl

/-- A body is the statements of its chain between braces. -/
theorem bodyText_eq {chain : ChainWriter} {owner : Block} {start : String} {s : Statements}
    (h : chain (some owner) start opened = s.write opened) :
    bodyText chain owner start = s.result.map braced := by
  have hstart : chain (some owner) start ((({} : Emitter).writeLine ['\x7b'] true).addIndent 1) =
      s.write opened := h
  unfold bodyText Statements.result
  dsimp only
  rw [hstart]
  cases hh : s.halt with
  | some halt => simp only [Statements.write, hh]; rfl
  | none =>
    have hfilled : s.write opened = ((s.write opened).1, none) := by rw [Statements.write, hh]
    have hindent : (s.write opened).1.indent = 0 + 1 := by
      rw [Statements.indent_write, indent_opened]
    have hclosed : ((s.write opened).1.addIndent (-1)).margin = spaces 0 := by
      apply Emitter.margin_eq _ (by decide)
      rw [Emitter.indent_addIndent_back hindent (by decide)]
      rfl
    rw [hfilled]
    dsimp only
    rw [Emitter.toList_write, if_pos rfl, hclosed, Emitter.text_addIndent,
      s.toList_write margin_opened, toList_opened]
    simp only [spaces_zero, List.append_nil]
    rfl

end BlockScript.Script
