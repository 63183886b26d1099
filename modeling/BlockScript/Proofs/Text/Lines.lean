/-
  Lines read from left to right.

  A line starts with blanks, and its first other character decides how many they are. A reader of
  a text is in the margin of a line or behind it (`Line`). The blanks of all lines of a text are its
  outline, which can be told off while reading (`outline_eq`): text that starts with something else
  than a blank and does not break the line leaves no trace in it but that the line is filled.
-/
import BlockScript.Proofs.Text.Indentation

namespace BlockScript.Text

/-! ## The start of a line -/

/-- How many blanks a line starts with. -/
def blanks (line : List Char) : Nat := (line.takeWhile (· == ' ')).length

/-- The first character of a line that is not a blank. -/
def firstMark (line : List Char) : Option Char := (line.dropWhile (· == ' ')).head?

/-- The blanks in front of the lines of a text, line by line. -/
def outline (text : List Char) : List Nat := (lines text).map blanks

/-- Where a reader is in a line: in its margin, behind so many blanks, or past it. -/
inductive Line where
  | margin (blanks : Nat)
  | filled
deriving DecidableEq, Repr

def Line.next : Line → Char → Line
  | .filled, c => if c = '\n' then .margin 0 else .filled
  | .margin n, c => if c = '\n' then .margin 0 else if c = ' ' then .margin (n + 1) else .filled

theorem Line.next_newline (l : Line) : l.next '\n' = .margin 0 := by
  cases l <;> rfl

theorem Line.next_filled {c : Char} (h : c ≠ '\n') : Line.filled.next c = .filled := by
  simp [Line.next, h]

theorem Line.next_mark {c : Char} (hn : c ≠ '\n') (hb : c ≠ ' ') (l : Line) :
    l.next c = .filled := by
  cases l <;> simp [Line.next, hn, hb]

/-- A line is its blanks and then nothing or its first other character. -/
theorem line_cases (line : List Char) :
    (firstMark line = none ∧ line = List.replicate (blanks line) ' ') ∨
      ∃ c rest, firstMark line = some c ∧ c ≠ ' ' ∧
        line = List.replicate (blanks line) ' ' ++ c :: rest := by
  induction line with
  | nil => exact .inl ⟨rfl, rfl⟩
  | cons x line ih =>
    by_cases hx : x = ' '
    · subst hx
      have hblanks : blanks (' ' :: line) = blanks line + 1 := rfl
      have hmark : firstMark (' ' :: line) = firstMark line := rfl
      rw [hblanks, hmark, List.replicate_succ]
      rcases ih with ⟨hnone, heq⟩ | ⟨c, rest, hsome, hc, heq⟩
      · exact .inl ⟨hnone, by rw [← heq]⟩
      · exact .inr ⟨c, rest, hsome, hc, by rw [List.cons_append, ← heq]⟩
    · have hblanks : blanks (x :: line) = 0 := by simp [blanks, hx]
      have hmark : firstMark (x :: line) = some x := by simp [firstMark, hx]
      exact .inr ⟨x, line, hmark, hx, by rw [hblanks]; rfl⟩

theorem intercalate_append_cons (sep line : List Char) (before after : List (List Char)) :
    List.intercalate sep (before ++ line :: after) =
      before.flatMap (· ++ sep) ++ List.intercalate sep (line :: after) := by
  induction before with
  | nil => rfl
  | cons first before ih =>
    rw [List.cons_append, List.flatMap_cons, List.append_assoc, ← ih]
    cases before with
    | nil => exact List.intercalate_cons_cons ..
    | cons next before => exact List.intercalate_cons_cons ..

/-- A text up to one of its lines, that line, and what is behind it. -/
theorem eq_of_lines_eq {text line : List Char} {before after : List (List Char)}
    (h : lines text = before ++ line :: after) :
    '\n' ∉ line ∧ ∃ rest, text = before.flatMap (· ++ ['\n']) ++ (line ++ rest) ∧
      (rest = [] ∨ rest.head? = some '\n') := by
  have htext := intercalate_pieces '\n' text
  have hpieces : pieces '\n' text = before ++ line :: after := h
  refine ⟨not_mem_of_mem_pieces (hpieces ▸ List.mem_append_right _ (List.mem_cons_self ..)), ?_⟩
  rw [hpieces, intercalate_append_cons] at htext
  cases after with
  | nil =>
    refine ⟨[], ?_, .inl rfl⟩
    rw [← htext, List.intercalate_singleton, List.append_nil]
  | cons next after =>
    refine ⟨'\n' :: List.intercalate ['\n'] (next :: after), ?_, .inr rfl⟩
    rw [← htext, List.intercalate_cons_cons, List.append_assoc, List.singleton_append]

/-! ## The outline while reading -/

/-- The blanks in front of the lines from a reader on. They are told where the margin ends. -/
def outlineFrom : Line → List Char → List Nat
  | .margin n, [] => [n]
  | .filled, [] => []
  | .margin n, c :: rest =>
    (if c = ' ' then [] else [n]) ++ outlineFrom ((Line.margin n).next c) rest
  | .filled, c :: rest => outlineFrom (Line.filled.next c) rest

/-- What the margin of a line tells when it ends. -/
def Line.told : Line → List Nat
  | .margin n => [n]
  | .filled => []

/-- From a reader on, the line it is in and then the outline of the lines below. -/
theorem outlineFrom_eq (text : List Char) : ∃ first more, lines text = first :: more ∧
    outlineFrom .filled text = more.map blanks ∧
    ∀ n, outlineFrom (.margin n) text = (n + blanks first) :: more.map blanks := by
  induction text with
  | nil => exact ⟨[], [], rfl, rfl, fun n => rfl⟩
  | cons c rest ih =>
    obtain ⟨first, more, hlines, hfilled, hmargin⟩ := ih
    have hstart : outlineFrom (.margin 0) rest = (lines rest).map blanks := by
      rw [hmargin, hlines, List.map_cons, Nat.zero_add]
    by_cases hc : c = '\n'
    · subst hc
      refine ⟨[], lines rest, by simp [lines, pieces], ?_, fun n => ?_⟩
      · rw [outlineFrom, Line.next_newline, hstart]
      · rw [outlineFrom, Line.next_newline, hstart]
        rfl
    · have hsplit : lines (c :: rest) = (c :: first) :: more := by
        unfold lines at hlines ⊢
        rw [pieces, if_neg hc, hlines]
        rfl
      refine ⟨c :: first, more, hsplit, ?_, fun n => ?_⟩
      · rw [outlineFrom, Line.next_filled hc, hfilled]
      · by_cases hb : c = ' '
        · subst hb
          have hblanks : blanks (' ' :: first) = blanks first + 1 := rfl
          have hnext : (Line.margin n).next ' ' = .margin (n + 1) := rfl
          rw [outlineFrom, if_pos rfl, hnext, hmargin, hblanks, List.nil_append]
          congr 1
          omega
        · have hblanks : blanks (c :: first) = 0 := by simp [blanks, hb]
          rw [outlineFrom, if_neg hb, Line.next_mark hc hb, hfilled, hblanks]
          rfl

theorem outline_eq (text : List Char) : outline text = outlineFrom (.margin 0) text := by
  obtain ⟨first, more, hlines, -, hmargin⟩ := outlineFrom_eq text
  rw [outline, hlines, hmargin, List.map_cons, Nat.zero_add]

/-- What is told behind a text depends on the line it ends in only. -/
theorem outlineFrom_append_congr {x y : List Char} (h : ∀ l, outlineFrom l x = outlineFrom l y)
    (text : List Char) (l : Line) : outlineFrom l (text ++ x) = outlineFrom l (text ++ y) := by
  induction text generalizing l with
  | nil => exact h l
  | cons c text ih =>
    cases l with
    | margin n => rw [List.cons_append, List.cons_append, outlineFrom, outlineFrom, ih]
    | filled => rw [List.cons_append, List.cons_append, outlineFrom, outlineFrom, ih]

theorem outlineFrom_filled {text : List Char} (h : '\n' ∉ text) (x : List Char) :
    outlineFrom .filled (text ++ x) = outlineFrom .filled x := by
  induction text with
  | nil => rfl
  | cons c text ih =>
    rw [List.mem_cons, not_or] at h
    rw [List.cons_append, outlineFrom, Line.next_filled (Ne.symm h.1), ih h.2]

/-- Text that starts with a mark and does not break the line ends the margin and tells no more. -/
theorem outlineFrom_mark {c : Char} {text : List Char} (hc : c ≠ ' ') (hn : '\n' ∉ c :: text)
    (l : Line) (x : List Char) :
    outlineFrom l (c :: text ++ x) = l.told ++ outlineFrom .filled x := by
  rw [List.mem_cons, not_or] at hn
  have hnext := Line.next_mark (Ne.symm hn.1) hc l
  cases l with
  | margin n =>
    rw [List.cons_append, outlineFrom, if_neg hc, hnext, outlineFrom_filled hn.2]
    rfl
  | filled =>
    rw [List.cons_append, outlineFrom, hnext, outlineFrom_filled hn.2]
    rfl

end BlockScript.Text
