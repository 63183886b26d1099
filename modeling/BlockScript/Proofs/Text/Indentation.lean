/-
  Text set at a depth.

  `setAt d` puts `4 * d` spaces behind every line feed. It goes through concatenation, leaves text
  without line feeds alone, and adds up: `setAt d (setAt k t) = setAt (d + k) t`. Writing the lines
  of a text one by one at a depth is setting the text at that depth (`flatMap_lines`).
-/
import BlockScript.Proofs.Text.Tokens

namespace BlockScript.Text

/-- The spaces in front of a line at a depth. -/
def spaces (d : Nat) : List Char := List.replicate (4 * d) ' '

/-- A text set at a depth: each line feed in it is followed by the spaces of the depth. -/
def setAt (d : Nat) (text : List Char) : List Char :=
  text.flatMap fun c => if c = '\n' then '\n' :: spaces d else [c]

@[simp]
theorem spaces_zero : spaces 0 = [] := rfl

theorem spaces_add (d k : Nat) : spaces (d + k) = spaces d ++ spaces k := by
  unfold spaces
  rw [Nat.mul_add, List.replicate_add]

theorem newline_not_mem_spaces (d : Nat) : '\n' ∉ spaces d := by
  intro h
  exact absurd (List.eq_of_mem_replicate h) (by decide)

@[simp]
theorem setAt_nil (d : Nat) : setAt d [] = [] := rfl

@[simp]
theorem setAt_append (d : Nat) (a b : List Char) : setAt d (a ++ b) = setAt d a ++ setAt d b := by
  unfold setAt
  exact List.flatMap_append

theorem setAt_newline (d : Nat) (text : List Char) :
    setAt d ('\n' :: text) = '\n' :: (spaces d ++ setAt d text) := by
  simp [setAt]

theorem setAt_cons_of_ne {c : Char} (h : c ≠ '\n') (d : Nat) (text : List Char) :
    setAt d (c :: text) = c :: setAt d text := by
  simp [setAt, h]

theorem setAt_of_not_mem {text : List Char} (h : '\n' ∉ text) (d : Nat) : setAt d text = text := by
  induction text with
  | nil => rfl
  | cons c rest ih =>
    rw [List.mem_cons, not_or] at h
    rw [setAt_cons_of_ne (Ne.symm h.1), ih h.2]

theorem Printable.setAt_eq {text : List Char} (h : Printable text) (d : Nat) :
    setAt d text = text :=
  setAt_of_not_mem h.newline_not_mem d

@[simp]
theorem setAt_zero (text : List Char) : setAt 0 text = text := by
  induction text with
  | nil => rfl
  | cons c rest ih =>
    by_cases h : c = '\n'
    · rw [h, setAt_newline, ih, spaces_zero, List.nil_append]
    · rw [setAt_cons_of_ne h, ih]

/-- Setting a text at one depth and the result at another adds the depths. -/
theorem setAt_setAt (d k : Nat) (text : List Char) : setAt d (setAt k text) = setAt (d + k) text := by
  induction text with
  | nil => rfl
  | cons c rest ih =>
    by_cases h : c = '\n'
    · rw [h, setAt_newline, setAt_newline, setAt_append, ih,
        setAt_of_not_mem (newline_not_mem_spaces k), setAt_newline, spaces_add, List.append_assoc]
    · rw [setAt_cons_of_ne h, setAt_cons_of_ne h, setAt_cons_of_ne h, ih]

theorem setAt_intercalate {sep : List Char} (h : '\n' ∉ sep) (d : Nat)
    (texts : List (List Char)) :
    setAt d (List.intercalate sep texts) = List.intercalate sep (texts.map (setAt d)) := by
  induction texts with
  | nil => rfl
  | cons text rest ih =>
    cases rest with
    | nil => simp
    | cons next rest =>
      rw [List.intercalate_cons_cons, setAt_append, setAt_append, ih, setAt_of_not_mem h]
      simp only [List.map_cons, List.intercalate_cons_cons]

/-- Writing the lines of a text one by one behind the spaces of a depth sets the text there. -/
theorem flatMap_lines (d : Nat) (text : List Char) :
    ((lines text).flatMap fun line => spaces d ++ line ++ ['\n']) =
      spaces d ++ setAt d text ++ ['\n'] := by
  induction text with
  | nil => simp [lines, pieces]
  | cons c rest ih =>
    unfold lines at ih ⊢
    by_cases h : c = '\n'
    · rw [h, setAt_newline, pieces, if_pos rfl, List.flatMap_cons, ih]
      simp
    · cases hp : pieces '\n' rest with
      | nil => exact absurd hp (pieces_ne_nil '\n' rest)
      | cons line more =>
        rw [hp, List.flatMap_cons] at ih
        rw [setAt_cons_of_ne h, pieces, if_neg h, hp, onFirst, List.flatMap_cons]
        simp only [List.append_assoc, List.append_cancel_left_eq, List.cons_append] at ih ⊢
        rw [ih]

end BlockScript.Text
