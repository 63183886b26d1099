/-
  Braces and indentation of the flat text.

  Read without its strings, a document opens every brace that it closes, closes every one that it
  opens, and each of its lines starts with four blanks for each brace that is open there, less four
  if the line starts by closing one (`LaidOut`, `targetText_laidOut`). This says nothing about how
  the text was made. It holds where opcodes hold no blank, quote or brace, and names that stand bare
  hold no line feed, quote or brace; all other strings may hold anything.

  The proof reads the text with a cursor that stops at a brace too many and at a wrong margin
  (`Runs`). A text that is set at a depth and read at that depth, past the margin, leaves the cursor
  where it was (`Inline`), and this goes over from the parts of a rendering to the whole.
-/
import BlockScript.Proofs.Layout.Printer
import BlockScript.Proofs.Script.Comparison
import BlockScript.Proofs.Text.Brackets
import BlockScript.Proofs.Text.Lines

namespace BlockScript.Text

/-- Braces that open more than they close after the text, outside of strings. -/
def openBraces (text : List Char) : Int := (({} : Scan).over braces text).depth

/-- The level of a line where `depth` braces are open and `mark` comes first. -/
def lineLevel (depth : Int) (mark : Option Char) : Int :=
  if mark = some '\x7d' then depth - 1 else depth

/-- Braces balance, and the margins of lines follow them. -/
structure LaidOut (text : List Char) : Prop where
  nonneg : ∀ before, before <+: text → 0 ≤ openBraces before
  closed : openBraces text = 0
  indented : ∀ before line after, lines text = before ++ line :: after →
    (blanks line : Int) =
      4 * lineLevel (openBraces (before.flatMap (· ++ ['\n']))) (firstMark line)

/-! ## A cursor that checks what it reads -/

structure Cursor where
  scan : Scan := {}
  line : Line := .margin 0
deriving DecidableEq, Repr

namespace Cursor

def next (s : Cursor) (c : Char) : Cursor := ⟨s.scan.next braces c, s.line.next c⟩

/-- Whether the character may come next: it closes no brace that is not open, and if it ends the
    margin, the margin has the right width. -/
def Accepts (s : Cursor) (c : Char) : Prop :=
  0 ≤ (s.next c).scan.depth ∧
    ∀ n, s.line = .margin n → c ≠ ' ' → (n : Int) = 4 * lineLevel s.scan.depth (some c)

/-- A cursor outside of strings. -/
def outside (depth : Nat) (line : Line) : Cursor := ⟨⟨.outside, depth⟩, line⟩

end Cursor

theorem Cursor.outside_next {c : Char} (hc : c ≠ '"') (d e : Nat) (h : (d : Int) + braces c = e)
    (line : Line) : (Cursor.outside d line).next c = .outside e (line.next c) := by
  unfold Cursor.outside Cursor.next
  rw [next_outside hc, h]

/-- Reading a text leads from one cursor to another, and every character is accepted. -/
inductive Runs : Cursor → List Char → Cursor → Prop
  | nil {s : Cursor} : Runs s [] s
  | cons {s s' : Cursor} {c : Char} {rest : List Char} (h : s.Accepts c)
    (hr : Runs (s.next c) rest s') : Runs s (c :: rest) s'

namespace Runs

variable {s s' s'' : Cursor} {a b : List Char}

theorem append (ha : Runs s a s') (hb : Runs s' b s'') : Runs s (a ++ b) s'' := by
  induction ha with
  | nil => exact hb
  | cons h _ ih => exact .cons h (ih hb)

theorem flatMap {α : Type} {f : α → List Char} {l : List α} (h : ∀ x ∈ l, Runs s (f x) s) :
    Runs s (l.flatMap f) s := by
  induction l with
  | nil => exact .nil
  | cons x l ih =>
    obtain ⟨hx, hl⟩ := List.forall_mem_cons.mp h
    rw [List.flatMap_cons]
    exact hx.append (ih hl)

theorem of_append (h : Runs s (a ++ b) s'') : ∃ s', Runs s a s' ∧ Runs s' b s'' := by
  induction a generalizing s with
  | nil => exact ⟨s, .nil, h⟩
  | cons c a ih =>
    cases h with
    | cons hc hr =>
      obtain ⟨s', ha, hb⟩ := ih hr
      exact ⟨s', .cons hc ha, hb⟩

theorem scan_eq (h : Runs s a s') : s'.scan = s.scan.over braces a := by
  induction h with
  | nil => rfl
  | cons _ _ ih => exact ih

theorem depth_nonneg (h : Runs s a s') (hs : 0 ≤ s.scan.depth) : 0 ≤ s'.scan.depth := by
  induction h with
  | nil => exact hs
  | cons hc _ ih => exact ih hc.1

theorem line_eq_of_newline (h : Runs s (a ++ ['\n']) s') : s'.line = .margin 0 := by
  obtain ⟨m, -, hlast⟩ := h.of_append
  cases hlast with
  | cons _ hr =>
    cases hr
    exact Line.next_newline m.line

theorem blanks_of_margin {n : Nat} (h : Runs s (List.replicate n ' ') s')
    {k : Nat} (hs : s.line = .margin k) : s'.line = .margin (k + n) := by
  induction n generalizing s k with
  | zero => cases h; exact hs
  | succ n ih =>
    rw [List.replicate_succ] at h
    cases h with
    | cons _ hr =>
      have hnext : (s.next ' ').line = .margin (k + 1) := by
        show s.line.next ' ' = _
        rw [hs]
        rfl
      rw [ih hr hnext]
      congr 1
      omega

theorem depth_of_blanks {n : Nat} (h : Runs s (List.replicate n ' ') s') :
    s'.scan.depth = s.scan.depth := by
  have hspace : ∀ t : Scan, (t.next braces ' ').depth = t.depth := by
    intro t
    show (if _ then t.depth + 0 else t.depth) = t.depth
    split
    · exact Int.add_zero _
    · rfl
  induction n generalizing s with
  | zero => cases h; rfl
  | succ n ih =>
    rw [List.replicate_succ] at h
    cases h with
    | cons _ hr => rw [ih hr]; exact hspace s.scan

/-- The character behind the blanks of a line was accepted, so their number is right. -/
theorem margin_width {n : Nat} {c : Char} (h : Runs s (List.replicate n ' ' ++ c :: a) s')
    (hs : s.line = .margin 0) (hc : c ≠ ' ') :
    (n : Int) = 4 * lineLevel s.scan.depth (some c) := by
  obtain ⟨m, hblanks, hm⟩ := h.of_append
  have hline := hblanks.blanks_of_margin hs
  rw [Nat.zero_add] at hline
  rw [← hblanks.depth_of_blanks]
  cases hm with
  | cons haccepts _ => exact haccepts.2 n hline hc

end Runs

/-- What the cursor lets pass is laid out. -/
theorem Runs.laidOut {text : List Char} (h : Runs {} text {}) : LaidOut text := by
  constructor
  case nonneg =>
    rintro before ⟨rest, rfl⟩
    obtain ⟨s, hs, -⟩ := h.of_append
    have := hs.depth_nonneg (Int.le_refl 0)
    rwa [hs.scan_eq] at this
  case closed =>
    unfold openBraces
    rw [← h.scan_eq]
  case indented =>
    intro before line after hlines
    obtain ⟨hline, rest, rfl, hrest⟩ := eq_of_lines_eq hlines
    obtain ⟨s, hbefore, hs⟩ := h.of_append
    have hdepth : openBraces (before.flatMap (· ++ ['\n'])) = s.scan.depth := by
      unfold openBraces
      rw [← hbefore.scan_eq]
    have hstart : s.line = .margin 0 := by
      cases before using List.reverseRecOn with
      | nil => cases hbefore; rfl
      | append_singleton before last =>
        rw [List.flatMap_append, List.flatMap_singleton, ← List.append_assoc] at hbefore
        exact hbefore.line_eq_of_newline
    rw [hdepth]
    rcases line_cases line with ⟨hmark, heq⟩ | ⟨c, more, hmark, hc, heq⟩
    · rw [hmark]
      rcases hrest with rfl | hrest
      · -- the last line: the cursor ends in a margin without blanks, at depth zero
        rw [List.append_nil, heq] at hs
        have hend := hs.blanks_of_margin hstart
        have hzero : blanks line = 0 := by
          rw [Nat.zero_add] at hend
          exact (Line.margin.inj hend).symm
        have hdepth := hs.depth_of_blanks
        rw [hzero, ← hdepth]
        rfl
      · obtain ⟨tail, rfl⟩ := List.head?_eq_some_iff.mp hrest
        rw [heq] at hs
        exact hs.margin_width hstart (by decide)
    · rw [hmark]
      rw [heq, List.append_assoc, List.cons_append] at hs
      exact hs.margin_width hstart hc

end BlockScript.Text

namespace BlockScript.Script

open BlockScript.Results BlockScript.Text

/-! ## Text in a line -/

/-- Balanced text without line feeds, past the margin. -/
theorem runs_of_reads {s s' : Scan} {text : List Char} {d : Nat}
    (h : Reads braces ((d : Int) ≤ ·.depth) s text s') (hn : '\n' ∉ text) :
    Runs ⟨s, .filled⟩ text ⟨s', .filled⟩ := by
  induction h with
  | nil _ => exact .nil
  | @cons s s' c rest _ hr ih =>
    rw [List.mem_cons, not_or] at hn
    have hnext : (⟨s, .filled⟩ : Cursor).next c = ⟨s.next braces c, .filled⟩ := by
      unfold Cursor.next
      rw [Line.next_filled (Ne.symm hn.1)]
    refine .cons ⟨?_, fun n hline => Line.noConfusion hline⟩ ?_
    · have hdepth := hr.start
      show 0 ≤ (s.next braces c).depth
      omega
    · rw [hnext]
      exact ih hn.2

/-- Balanced text that does not break the line. -/
structure Flat (text : List Char) : Prop where
  balanced : Balanced braces text
  unbroken : '\n' ∉ text

theorem Flat.append {a b : List Char} (ha : Flat a) (hb : Flat b) : Flat (a ++ b) := by
  refine ⟨ha.balanced.append hb.balanced, ?_⟩
  rw [List.mem_append, not_or]
  exact ⟨ha.unbroken, hb.unbroken⟩

theorem flat_of_plain {text : List Char} (h : ∀ c ∈ text, c ∉ ['\n', '"', '\x7b', '\x7d']) :
    Flat text := by
  refine ⟨balanced_of_plain fun c hc => ?_, fun hn => h _ hn (by decide)⟩
  have hmark := h c hc
  simp only [List.mem_cons, List.not_mem_nil, or_false, not_or] at hmark
  refine ⟨hmark.2.1, ?_⟩
  rw [braces, if_neg hmark.2.2.1, if_neg hmark.2.2.2]

/-- The same for a given text, by going through its characters. -/
theorem flat_of_all {text : List Char}
    (h : text.all (fun c => c ∉ ['\n', '"', '\x7b', '\x7d']) = true) : Flat text :=
  flat_of_plain fun c hc => of_decide_eq_true (List.all_eq_true.mp h c hc)

theorem Flat.runs {text : List Char} (h : Flat text) (d : Nat) :
    Runs (.outside d .filled) text (.outside d .filled) :=
  runs_of_reads (h.balanced d) h.unbroken

/-- The blanks of a margin. -/
theorem runs_spaces (d n k : Nat) :
    Runs (.outside d (.margin n)) (spaces k) (.outside d (.margin (n + 4 * k))) := by
  unfold spaces
  induction 4 * k generalizing n with
  | zero => exact .nil
  | succ m ih =>
    have hnext : (Cursor.outside d (.margin n)).next ' ' = .outside d (.margin (n + 1)) :=
      Cursor.outside_next (by decide) d d (Int.add_zero _) _
    rw [List.replicate_succ]
    refine .cons ⟨?_, fun _ _ hc => absurd rfl hc⟩ ?_
    · rw [hnext]
      exact Int.natCast_nonneg d
    · rw [hnext, show n + (m + 1) = n + 1 + m by omega]
      exact ih (n + 1)

/-- Text that, set at a depth and read there past the margin, leaves the cursor where it was. -/
structure Inline (text : List Char) : Prop where
  head : ∃ c rest, text = c :: rest ∧ c ∉ ['\n', ' ', '\x7d']
  runs : ∀ d, Runs (.outside d .filled) (setAt d text) (.outside d .filled)

/-- At the right margin such text is read as past it. -/
theorem Inline.runs_margin {text : List Char} (h : Inline text) (d : Nat) :
    Runs (.outside d (.margin (4 * d))) (setAt d text) (.outside d .filled) := by
  obtain ⟨c, rest, rfl, hc⟩ := h.head
  have hruns := h.runs d
  simp only [List.mem_cons, List.not_mem_nil, or_false, not_or] at hc
  rw [setAt_cons_of_ne hc.1] at hruns ⊢
  have hnext : (Cursor.outside d (.margin (4 * d))).next c = (Cursor.outside d .filled).next c := by
    unfold Cursor.outside Cursor.next
    rw [Line.next_mark hc.1 hc.2.1, Line.next_filled hc.1]
  cases hruns with
  | cons haccepts hr =>
    refine .cons ⟨?_, fun n hline _ => ?_⟩ ?_
    · rw [hnext]
      exact haccepts.1
    · cases hline
      have hlevel : lineLevel d (some c) = d := by
        unfold lineLevel
        rw [if_neg fun hmark => hc.2.2 (Option.some.inj hmark)]
      show ((4 * d : Nat) : Int) = 4 * lineLevel d (some c)
      rw [hlevel]
      omega
    · rw [hnext]
      exact hr

theorem runs_newline (d : Nat) :
    Runs (.outside d .filled) ['\n'] (.outside d (.margin 0)) := by
  have hnext : (Cursor.outside d .filled).next '\n' = .outside d (.margin 0) :=
    Cursor.outside_next (by decide) d d (Int.add_zero _) _
  refine .cons ⟨?_, fun n hline => Line.noConfusion hline⟩ ?_
  · rw [hnext]
    exact Int.natCast_nonneg d
  · rw [hnext]
    exact .nil

/-- A statement is a line of its own, or several. -/
theorem Inline.runs_statementAt {call : List Char} (h : Inline call) (d : Nat) :
    Runs (.outside d (.margin 0)) (statementAt d call) (.outside d (.margin 0)) := by
  have hblanks := runs_spaces d 0 d
  rw [Nat.zero_add] at hblanks
  have hsemicolon : Flat [';'] := flat_of_all (by decide)
  have hend := (hsemicolon.runs d).append (runs_newline d)
  exact (hblanks.append (h.runs_margin d)).append hend

/-! ## Tokens and call forms -/

theorem Flat.inline {c : Char} {rest : List Char} (h : Flat (c :: rest))
    (hc : c ∉ ['\n', ' ', '\x7d']) : Inline (c :: rest) := by
  refine ⟨⟨c, rest, rfl, hc⟩, fun d => ?_⟩
  rw [setAt_of_not_mem h.unbroken]
  exact h.runs d

theorem flat_quoted (s : String) : Flat (quoted s) :=
  ⟨weighs_braces.balanced_quoted s, (printable_quoted s).newline_not_mem⟩

theorem flat_compact (v : Json.Document) : Flat v.compact :=
  ⟨weighs_braces.balanced_compact v, (Json.Value.printable_compact v).newline_not_mem⟩

theorem flat_number (n : Json.Number) : Flat n.text :=
  ⟨weighs_braces.balanced_of_numeral fun _ => Json.Number.numeral_text,
    n.printable_text.newline_not_mem⟩

theorem flat_literalToken (v : Json.Document) : Flat (literalToken v) :=
  ⟨weighs_braces.balanced_literalToken v, (printable_literalToken v).newline_not_mem⟩

theorem flat_emptyToken : Flat emptyToken :=
  ⟨balanced_nil.enclosed (by decide) (by decide) (by decide) rfl, by decide⟩

theorem inline_literalToken (v : Json.Document) : Inline (literalToken v) := by
  have hflat := flat_literalToken v
  obtain ⟨c, rest, heq, hmem⟩ := literalToken_head v
  rw [heq] at hflat ⊢
  exact hflat.inline
    ((by simp : ∀ c ∈ ['n', '"', '[', '\x7b'], c ∉ ['\n', ' ', '\x7d']) c hmem)

/-- Opcodes hold no blank, no quote and no brace. -/
def Tight (opcode : String) : Prop :=
  ∀ c ∈ opcode.toList, ¬ c.isWhitespace ∧ c ∉ ['"', '\x7b', '\x7d']

instance : DecidablePred Tight := fun opcode =>
  List.decidableBAll (fun c : Char => ¬ c.isWhitespace ∧ c ∉ ['"', '\x7b', '\x7d']) opcode.toList

theorem flat_separator : Flat separator := flat_of_all (by decide)

theorem runs_intercalate {tokens : List (List Char)} (h : ∀ a ∈ tokens, Inline a) (d : Nat) :
    Runs (.outside d .filled) (setAt d (List.intercalate separator tokens))
      (.outside d .filled) := by
  rw [setAt_intercalate newline_not_mem_separator]
  induction tokens with
  | nil => exact .nil
  | cons token rest ih =>
    obtain ⟨htoken, hrest⟩ := List.forall_mem_cons.mp h
    cases rest with
    | nil =>
      rw [List.map_singleton, List.intercalate_singleton]
      exact htoken.runs d
    | cons next rest =>
      have htail := ih hrest
      rw [List.map_cons] at htail
      rw [List.map_cons, List.map_cons, List.intercalate_cons_cons]
      exact ((htoken.runs d).append (flat_separator.runs d)).append htail

theorem Tight.flat {opcode : String} (h : Tight opcode) : Flat opcode.toList := by
  refine flat_of_plain fun c hc => ?_
  rw [List.mem_cons, not_or]
  refine ⟨?_, (h c hc).2⟩
  rintro rfl
  exact (h _ hc).1 (by decide)

/-- An opcode and its parenthesis start with no blank and no brace. -/
theorem Tight.head {opcode : String} (h : Tight opcode) (text : List Char) :
    ∃ c rest, opcode.toList ++ '(' :: text = c :: rest ∧ c ∉ ['\n', ' ', '\x7d'] := by
  cases ho : opcode.toList with
  | nil => exact ⟨'(', text, rfl, by decide⟩
  | cons c rest =>
    refine ⟨c, rest ++ '(' :: text, rfl, fun hc => ?_⟩
    have hopcode := h c (ho ▸ List.mem_cons_self ..)
    simp only [List.mem_cons, List.not_mem_nil, or_false] at hc
    rcases hc with rfl | rfl | rfl
    · exact hopcode.1 (by decide)
    · exact hopcode.1 (by decide)
    · exact hopcode.2 (by decide)

/-- An opcode, its parenthesis, and text that leaves the cursor where it was. -/
theorem inline_opened {opcode : String} (hopcode : Tight opcode) {given : List Char}
    (h : ∀ d, Runs (.outside d .filled) (setAt d given) (.outside d .filled)) :
    Inline (opcode.toList ++ '(' :: given) := by
  refine ⟨hopcode.head _, fun d => ?_⟩
  have hparen : Flat ['('] := flat_of_all (by decide)
  have hset : setAt d (opcode.toList ++ '(' :: given) =
      (opcode.toList ++ ['(']) ++ setAt d given := by
    rw [setAt_append, setAt_of_not_mem hopcode.flat.unbroken, setAt_cons_of_ne (by decide)]
    simp
  rw [hset]
  exact ((hopcode.flat.append hparen).runs d).append (h d)

theorem inline_form {opcode : String} (hopcode : Tight opcode) {tokens : List (List Char)}
    (h : ∀ a ∈ tokens, Inline a) : Inline (form opcode tokens) := by
  refine inline_opened hopcode fun d => ?_
  have hclose : Flat [')'] := flat_of_all (by decide)
  rw [setAt_append, setAt_of_not_mem hclose.unbroken]
  exact (runs_intercalate h d).append (hclose.runs d)

theorem runs_open (d : Nat) :
    Runs (.outside d .filled) ['\x7b', '\n'] (.outside (d + 1) (.margin 0)) := by
  have hnext : (Cursor.outside d .filled).next '\x7b' = .outside (d + 1) .filled :=
    Cursor.outside_next (by decide) d (d + 1) rfl _
  refine .cons ⟨?_, fun n hline => Line.noConfusion hline⟩ ?_
  · rw [hnext]
    exact Int.natCast_nonneg (d + 1)
  · rw [hnext]
    exact runs_newline (d + 1)

/-- A line that closes a brace stands one level further out. -/
theorem runs_close (d : Nat) :
    Runs (.outside (d + 1) (.margin (4 * d))) ['\x7d'] (.outside d .filled) := by
  have hcount : ((d + 1 : Nat) : Int) + braces '\x7d' = d := by
    show ((d + 1 : Nat) : Int) + -1 = d
    omega
  have hnext : (Cursor.outside (d + 1) (.margin (4 * d))).next '\x7d' = .outside d .filled :=
    Cursor.outside_next (by decide) (d + 1) d hcount _
  refine .cons ⟨?_, fun n hline _ => ?_⟩ ?_
  · rw [hnext]
    exact Int.natCast_nonneg d
  · cases hline
    show ((4 * d : Nat) : Int) = 4 * (((d + 1 : Nat) : Int) - 1)
    omega
  · rw [hnext]
    exact .nil

theorem inline_braced {calls : List (List Char)} (h : ∀ a ∈ calls, Inline a) :
    Inline (braced calls) := by
  refine ⟨⟨'\x7b', _, rfl, by decide⟩, fun d => ?_⟩
  have hblanks := runs_spaces (d + 1) 0 d
  rw [Nat.zero_add] at hblanks
  have hcalls := Runs.flatMap fun a ha => (h a ha).runs_statementAt (d + 1)
  have hall := (((runs_open d).append hcalls).append hblanks).append (runs_close d)
  rw [setAt_braced]
  simpa using hall

theorem inline_referenceToken {project : Project} {target : Target} {name id : String}
    (hmonitors : ∀ m ∈ project.monitors, Tight m.opcode)
    (hname : ∀ c ∈ name.toList, c ∉ ['\n', '"', '\x7b', '\x7d']) :
    Inline (referenceToken project target name id) := by
  have hbare : Flat name.toList := flat_of_plain hname
  unfold referenceToken
  cases hm : project.monitor? id with
  | some monitor =>
    have hparam : ∀ a ∈ [literalToken monitor.param], Inline a := by
      simpa using inline_literalToken monitor.param
    have hform := inline_form (hmonitors monitor (List.mem_of_find?_eq_some hm)) hparam
    rwa [form, List.intercalate_singleton] at hform
  | none =>
    dsimp only
    split
    · have hkind : Flat "data_variable".toList := flat_of_all (by decide)
      exact (hkind.append hbare).inline (by decide)
    · have hkind : Flat "data_listcontents".toList := flat_of_all (by decide)
      exact (hkind.append hbare).inline (by decide)

/-! ## Documents -/

/-- The cursor at the start of a line at the outermost level. -/
theorem Inline.runs_line {line : List Char} (h : Inline line) :
    Runs (.outside 0 (.margin 0)) (line ++ ['\n']) (.outside 0 (.margin 0)) := by
  have hline := h.runs_margin 0
  rw [setAt_zero] at hline
  exact hline.append (runs_newline 0)

theorem inline_directive {name : String} {first second : List Char} (hn : Flat name.toList)
    (hfirst : Flat first) (hsecond : Flat second) : Inline (directive name first second) := by
  have hstart : Flat ['#'] := flat_of_all (by decide)
  have hopen : Flat ['('] := flat_of_all (by decide)
  have hend : Flat [')', ';'] := flat_of_all (by decide)
  have hall := (hstart.append hn).append
    (hopen.append (((hfirst.append flat_separator).append hsecond).append hend))
  exact hall.inline (by decide)

theorem inline_preambleLines (target : Target) : ∀ line ∈ preambleLines target, Inline line := by
  have hdeclaration : ∀ name : String, Flat name.toList → ∀ decls : List Declaration,
      ∀ line ∈ decls.map (declarationLine name), Inline line := by
    intro name hn decls line hline
    obtain ⟨d, -, rfl⟩ := List.mem_map.mp hline
    exact inline_directive hn (flat_quoted d.name) (flat_compact d.value)
  have hstage : Flat (Json.boolText target.isStage) := by
    cases target.isStage <;> exact flat_of_all (by decide)
  have hcomment : Flat headComment := flat_of_all (by decide)
  unfold preambleLines
  rw [List.forall_mem_cons, List.forall_mem_cons, List.forall_mem_append]
  refine ⟨hcomment.inline (by decide), ?_, ?_, ?_⟩
  · exact inline_directive (flat_of_all (by decide)) hstage (flat_quoted target.name)
  · exact hdeclaration "init_var" (flat_of_all (by decide)) target.variableDecls
  · exact hdeclaration "init_list" (flat_of_all (by decide)) target.listDecls

theorem inline_placeLine (root : Block) : Inline (placeLine root) := by
  have hopen : Flat ['@', '('] := flat_of_all (by decide)
  have hclose : Flat [')'] := flat_of_all (by decide)
  have hall := (((hopen.append (flat_number root.x)).append flat_separator).append
    (flat_number root.y)).append hclose
  exact hall.inline (by decide)

theorem runs_headerText {opcode : String} (hopcode : Tight opcode) {tokens : List (List Char)}
    (h : ∀ a ∈ tokens, Inline a) :
    Runs (.outside 0 (.margin 0)) (headerText opcode tokens ++ ['\n'])
      (.outside 1 (.margin 0)) := by
  obtain ⟨given, hgiven⟩ : ∃ given, given =
      if tokens.isEmpty then [] else List.intercalate separator tokens ++ separator := ⟨_, rfl⟩
  have hruns : ∀ d, Runs (.outside d .filled) (setAt d given) (.outside d .filled) := by
    intro d
    rw [hgiven]
    split
    · exact .nil
    · rw [setAt_append, setAt_of_not_mem newline_not_mem_separator]
      exact (runs_intercalate h d).append (flat_separator.runs d)
  have hline := (inline_opened hopcode hruns).runs_margin 0
  rw [setAt_zero] at hline
  have hall := hline.append (runs_open 0)
  unfold headerText
  rw [← hgiven]
  simpa using hall

/-- A script starts and ends at the start of a line at the outermost level. -/
theorem runs_script {root : Block} (hopcode : Tight root.opcode) {parts : Parts}
    (hheader : ∀ a ∈ parts.header, Inline a) (hcalls : ∀ a ∈ parts.calls, Inline a) :
    Runs (.outside 0 (.margin 0)) (parts.text root) (.outside 0 (.margin 0)) := by
  have hmarks : Flat [')', ';'] := flat_of_all (by decide)
  have hend := (hmarks.runs 0).append (runs_newline 0)
  have hall := (((inline_placeLine root).runs_line.append (runs_headerText hopcode hheader)).append
    (Runs.flatMap fun a ha => (hcalls a ha).runs_statementAt 1)).append ((runs_close 0).append hend)
  unfold Parts.text
  simpa using hall

section

variable (project : Project) (target : Target)

/-- The braces of a document balance, and its lines are indented by them. -/
theorem targetText_laidOut (h : target.Acyclic)
    (hopcodes : ∀ b ∈ target.blocks, Tight b.opcode)
    (hmonitors : ∀ m ∈ project.monitors, Tight m.opcode)
    (hnames : ∀ b ∈ target.blocks, ∀ slot ∈ b.inputs, ∀ name id, slot.2 = .reference name id →
      ∀ c ∈ name.toList, c ∉ ['\n', '"', '\x7b', '\x7d'])
    {text : String} (htext : targetText project target = .ok text) : LaidOut text.toList := by
  have hinline : Inherited Inline project target := {
    literal := inline_literalToken
    empty := flat_emptyToken.inline (by decide)
    reference := fun b hb slot hs name id hi =>
      inline_referenceToken hmonitors (hnames b hb slot hs name id hi)
    form := fun b hb tokens => inline_form (hopcodes b hb)
    body := fun calls => inline_braced }
  rw [targetText_eq] at htext
  obtain ⟨scripts, hscripts, rfl⟩ := map_eq_ok.mp htext
  have hscript : ∀ script ∈ scripts,
      Runs (.outside 0 (.margin 0)) (id script) (.outside 0 (.margin 0)) := by
    intro script hs
    obtain ⟨root, hr, hroot⟩ := exists_of_mem_mapM hscripts hs
    obtain ⟨parts, hparts, rfl⟩ := map_eq_ok.mp hroot
    obtain ⟨hheader, hcalls⟩ := hinline.scriptParts h hr hparts
    exact runs_script (hopcodes root (List.mem_of_mem_filter hr)) hheader hcalls
  have hpreamble := Runs.flatMap fun line hl => (inline_preambleLines target line hl).runs_line
  rw [String.toList_ofList, toList_preamble, ← List.flatMap_id]
  exact (hpreamble.append (Runs.flatMap hscript)).laidOut

end

/-! ## Bodies in a header -/

/-- A script with two bodies in its header, the second with a body in it, and texts and values with
    braces, quotes and line feeds. -/
def bodiesInHeader : Target where
  name := "\x7d\n"
  isStage := false
  variableDecls := [⟨"v", "\"\x7b", .object [("\x7d", .null)]⟩]
  listDecls := []
  blocks := [
    { Block.bare "a" "when" (some "f") [("A", .block "b"), ("B", .block "c")] with
      topLevel := true },
    Block.bare "b" "move" (some "d") [],
    Block.bare "c" "loop" (some "d") [("BODY", .block "b")],
    Block.bare "d" "stop" none [],
    { Block.bare "f" "say" none [
        ("A", .literal (.object [("\x7b", .string "\x7d")])), ("B", .empty),
        ("C", .reference "x y" "v")] with
      fields := [("F", .string "\n    \x7d\"")] }]

theorem acyclic_bodiesInHeader : bodiesInHeader.Acyclic :=
  Target.acyclic_of_measure
    (fun id => match id with | "a" => 3 | "c" => 2 | "b" => 1 | _ => 0) (by decide)

def bodiesInHeaderText : String :=
  "\n".intercalate ["// Generate by scratch-script", "#meta(false, \"\x7d\\n\");",
    "#init_var(\"\\\"\x7b\", \x7b\"\x7d\":null\x7d);", "@(0, 0)",
    "when(\x7b", "    move();", "    stop();", "\x7d, \x7b", "    loop(\x7b", "        move();",
    "        stop();", "    \x7d);", "    stop();", "\x7d, \x7b",
    "    say(\"\\n    \x7d\\\"\", \x7b\"\x7b\":\"\x7d\"\x7d, \x7b\x7d, data_variablex y);",
    "\x7d);", ""]

theorem laidOut_bodiesInHeader :
    bodiesInHeader.Acyclic ∧ targetText ⟨[], []⟩ bodiesInHeader = .ok bodiesInHeaderText ∧
      LaidOut bodiesInHeaderText.toList := by
  have htext : targetText ⟨[], []⟩ bodiesInHeader = .ok bodiesInHeaderText := by decide +kernel
  have hnames : ∀ b ∈ bodiesInHeader.blocks, ∀ slot ∈ b.inputs, ∀ name id,
      slot.2 = .reference name id → ∀ c ∈ name.toList, c ∉ ['\n', '"', '\x7b', '\x7d'] := by
    intro b hb slot hs name id hi
    have hname : name = "x y" := by
      simp only [bodiesInHeader, Block.bare, List.mem_cons, List.not_mem_nil, or_false] at hb
      rcases hb with rfl | rfl | rfl | rfl | rfl <;> simp at hs
      · rcases hs with rfl | rfl <;> simp at hi
      · subst hs
        simp at hi
      · rcases hs with rfl | rfl | rfl <;> simp_all
    rw [hname]
    simp
  exact ⟨acyclic_bodiesInHeader, htext,
    targetText_laidOut ⟨[], []⟩ bodiesInHeader acyclic_bodiesInHeader (by decide) (by decide) hnames
      htext⟩

end BlockScript.Script
