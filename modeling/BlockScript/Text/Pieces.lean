/-
  Text cut at every occurrence of a mark. Text without the mark is one piece, so there is always at
  least one.
-/

namespace BlockScript.Text

/-- Puts a character in front of the first piece. -/
def onFirst (c : Char) : List (List Char) → List (List Char)
  | [] => [[c]]
  | piece :: rest => (c :: piece) :: rest

/-- The pieces of a text between the occurrences of `mark`. -/
def pieces (mark : Char) : List Char → List (List Char)
  | [] => [[]]
  | c :: rest => if c = mark then [] :: pieces mark rest else onFirst c (pieces mark rest)

/-- The lines of a text, without the line feeds between them. -/
def lines (text : List Char) : List (List Char) := pieces '\n' text

theorem pieces_ne_nil (mark : Char) (text : List Char) : pieces mark text ≠ [] := by
  cases text with
  | nil => simp [pieces]
  | cons c rest =>
    by_cases h : c = mark
    · simp [pieces, h]
    · cases hp : pieces mark rest <;> simp [pieces, h, hp, onFirst]

/-- Putting the mark back between the pieces gives the text. -/
theorem intercalate_pieces (mark : Char) (text : List Char) :
    List.intercalate [mark] (pieces mark text) = text := by
  induction text with
  | nil => rfl
  | cons c rest ih =>
    cases hp : pieces mark rest with
    | nil => exact absurd hp (pieces_ne_nil mark rest)
    | cons piece more =>
      rw [hp] at ih
      by_cases h : c = mark
      · subst h
        simp [pieces, hp, List.intercalate] at ih ⊢
        exact ih
      · cases more <;> simp_all [pieces, onFirst, List.intercalate]

/-- No piece holds the mark. -/
theorem not_mem_of_mem_pieces {mark : Char} {text piece : List Char}
    (h : piece ∈ pieces mark text) : mark ∉ piece := by
  induction text generalizing piece with
  | nil => simp [pieces] at h; simp [h]
  | cons c rest ih =>
    by_cases hc : c = mark
    · simp only [pieces, hc, if_true, List.mem_cons] at h
      rcases h with rfl | h
      · simp
      · exact ih h
    · cases hp : pieces mark rest with
      | nil => exact absurd hp (pieces_ne_nil mark rest)
      | cons first more =>
        simp only [pieces, hc, if_false, hp, onFirst, List.mem_cons] at h
        rcases h with rfl | h
        · have hf : mark ∉ first := ih (by simp [hp])
          simp [Ne.symm hc, hf]
        · exact ih (by simp [hp, h])

theorem pieces_of_not_mem {mark : Char} {text : List Char} (h : mark ∉ text) :
    pieces mark text = [text] := by
  induction text with
  | nil => rfl
  | cons c rest ih =>
    rw [List.mem_cons, not_or] at h
    simp [pieces, Ne.symm h.1, ih h.2, onFirst]

end BlockScript.Text
