/-
  Text read from left to right, with the brackets counted that stand outside of strings.

  A string starts and ends with a double quote, and in it a backslash goes with the character behind
  it. Which brackets count, and how much, is a weight of characters: `brackets` counts all six,
  `braces` two of them. Text is balanced if reading it from outside of strings ends there, at the
  depth it started from, and never gets below that depth (`Balanced`). Quoted text, compact JSON and
  literal tokens are balanced, whatever the strings in them hold.
-/
import BlockScript.Proofs.Text.Indentation

namespace BlockScript.Text

/-! ## Reading -/

/-- Where a reader stands: outside of strings, inside of one, or there behind a backslash. -/
inductive Quoting where
  | outside
  | inside
  | escaped
deriving DecidableEq, Repr

def Quoting.next : Quoting → Char → Quoting
  | .outside, c => if c = '"' then .inside else .outside
  | .inside, c => if c = '"' then .outside else if c = '\\' then .escaped else .inside
  | .escaped, _ => .inside

/-- A reader of text, and how many brackets more were opened than closed so far. -/
structure Scan where
  quoting : Quoting := .outside
  depth : Int := 0
deriving DecidableEq, Repr

section

variable (weight : Char → Int)

/-- Reads a character. Brackets in strings do not count. -/
def Scan.next (s : Scan) (c : Char) : Scan where
  quoting := s.quoting.next c
  depth := if s.quoting = .outside then s.depth + weight c else s.depth

/-- Reads a text. -/
def Scan.over (s : Scan) (text : List Char) : Scan := text.foldl (Scan.next weight) s

end

/-- Counts round, square and curly brackets. -/
def brackets (c : Char) : Int :=
  if c ∈ ['(', '[', '\x7b'] then 1 else if c ∈ [')', ']', '\x7d'] then -1 else 0

/-- Counts curly brackets only. -/
def braces (c : Char) : Int := if c = '\x7b' then 1 else if c = '\x7d' then -1 else 0

/-- What a weight has to do: brackets of a kind cancel out, and nothing else counts. -/
structure Weighs (weight : Char → Int) : Prop where
  other : ∀ c, c ∉ ['(', ')', '[', ']', '\x7b', '\x7d'] → weight c = 0
  opening : ∀ c ∈ ['(', '[', '\x7b'], 0 ≤ weight c
  round : weight ')' = -weight '('
  square : weight ']' = -weight '['
  curly : weight '\x7d' = -weight '\x7b'

theorem weighs_brackets : Weighs brackets := by
  refine ⟨fun c hc => ?_, by simp [brackets], rfl, rfl, rfl⟩
  have hopening : c ∉ ['(', '[', '\x7b'] := fun h =>
    hc ((by decide : ['(', '[', '\x7b'] ⊆ ['(', ')', '[', ']', '\x7b', '\x7d']) h)
  have hclosing : c ∉ [')', ']', '\x7d'] := fun h =>
    hc ((by decide : [')', ']', '\x7d'] ⊆ ['(', ')', '[', ']', '\x7b', '\x7d']) h)
  rw [brackets, if_neg hopening, if_neg hclosing]

theorem weighs_braces : Weighs braces := by
  refine ⟨fun c hc => ?_, by simp [braces], rfl, rfl, rfl⟩
  have hopening : c ≠ '\x7b' := by rintro rfl; exact hc (by decide)
  have hclosing : c ≠ '\x7d' := by rintro rfl; exact hc (by decide)
  rw [braces, if_neg hopening, if_neg hclosing]

section

variable {weight : Char → Int}

/-- Reading a text leads from one reader to another, and all readers on the way, the first and the
    last included, are as they should be. -/
inductive Reads (weight : Char → Int) (Q : Scan → Prop) : Scan → List Char → Scan → Prop
  | nil {s : Scan} (h : Q s) : Reads weight Q s [] s
  | cons {s s' : Scan} {c : Char} {rest : List Char} (h : Q s)
    (hr : Reads weight Q (s.next weight c) rest s') : Reads weight Q s (c :: rest) s'

namespace Reads

variable {Q Q' : Scan → Prop} {s s' s'' : Scan} {a b : List Char}

theorem over_eq (h : Reads weight Q s a s') : s.over weight a = s' := by
  induction h with
  | nil _ => rfl
  | cons _ _ ih => exact ih

theorem start (h : Reads weight Q s a s') : Q s := by
  cases h with
  | nil h => exact h
  | cons h _ => exact h

theorem append (ha : Reads weight Q s a s') (hb : Reads weight Q s' b s'') :
    Reads weight Q s (a ++ b) s'' := by
  induction ha with
  | nil _ => exact hb
  | cons h _ ih => exact .cons h (ih hb)

theorem imp (h : Reads weight Q s a s') (hq : ∀ s, Q s → Q' s) : Reads weight Q' s a s' := by
  induction h with
  | nil h => exact .nil (hq _ h)
  | cons h _ ih => exact .cons (hq _ h) ih

end Reads

/-! ## Balanced text -/

/-- Reading the text from outside of strings ends where it started and gets nowhere below. -/
def Balanced (weight : Char → Int) (text : List Char) : Prop :=
  ∀ depth, Reads weight (depth ≤ ·.depth) ⟨.outside, depth⟩ text ⟨.outside, depth⟩

theorem balanced_nil : Balanced weight [] := fun depth => .nil (Int.le_refl depth)

theorem Balanced.append {a b : List Char} (ha : Balanced weight a) (hb : Balanced weight b) :
    Balanced weight (a ++ b) :=
  fun depth => (ha depth).append (hb depth)

theorem next_outside {c : Char} (hc : c ≠ '"') (depth : Int) :
    (⟨.outside, depth⟩ : Scan).next weight c = ⟨.outside, depth + weight c⟩ := by
  simp [Scan.next, Quoting.next, hc]

theorem Balanced.cons {c : Char} {text : List Char} (hc : c ≠ '"') (hw : weight c = 0)
    (h : Balanced weight text) : Balanced weight (c :: text) := by
  intro depth
  refine .cons (Int.le_refl depth) ?_
  rw [next_outside hc, hw, Int.add_zero]
  exact h depth

theorem balanced_of_plain {text : List Char} (h : ∀ c ∈ text, c ≠ '"' ∧ weight c = 0) :
    Balanced weight text := by
  induction text with
  | nil => exact balanced_nil
  | cons c rest ih =>
    obtain ⟨hc, hrest⟩ := List.forall_mem_cons.mp h
    exact (ih hrest).cons hc.1 hc.2

theorem balanced_flatMap {α : Type} {f : α → List Char} {l : List α}
    (h : ∀ a ∈ l, Balanced weight (f a)) : Balanced weight (l.flatMap f) := by
  induction l with
  | nil => exact balanced_nil
  | cons a rest ih =>
    rw [List.flatMap_cons]
    exact (h a (List.mem_cons_self ..)).append (ih fun b hb => h b (List.mem_cons_of_mem a hb))

theorem balanced_intercalate {sep : List Char} {texts : List (List Char)}
    (hs : Balanced weight sep) (ht : ∀ text ∈ texts, Balanced weight text) :
    Balanced weight (List.intercalate sep texts) := by
  induction texts with
  | nil => exact balanced_nil
  | cons text rest ih =>
    obtain ⟨hfirst, hrest⟩ := List.forall_mem_cons.mp ht
    cases rest with
    | nil => simpa using hfirst
    | cons next rest =>
      rw [List.intercalate_cons_cons]
      exact (hfirst.append hs).append (ih hrest)

/-- Brackets around a text: between them the depth is not below that behind the first. -/
theorem Balanced.enclosed {o c : Char} {text : List Char} (h : Balanced weight text)
    (ho : o ≠ '"') (hc : c ≠ '"') (hw : 0 ≤ weight o) (hcancel : weight c = -weight o) :
    Balanced weight (o :: (text ++ [c])) := by
  intro depth
  have hclose : (⟨.outside, depth + weight o⟩ : Scan).next weight c = ⟨.outside, depth⟩ := by
    rw [next_outside hc, hcancel]
    congr 1
    omega
  have hbetween : Reads weight (depth ≤ ·.depth) ⟨.outside, depth + weight o⟩ text
      ⟨.outside, depth + weight o⟩ := (h (depth + weight o)).imp fun s hs => by omega
  refine .cons (Int.le_refl depth) ?_
  rw [next_outside ho]
  refine hbetween.append (.cons (show depth ≤ depth + weight o by omega) ?_)
  rw [hclose]
  exact .nil (Int.le_refl depth)

/-! ## Strings -/

theorem hexDigit_ne {n : Nat} (h : n < 16) : hexDigit n ≠ '"' ∧ hexDigit n ≠ '\\' := by
  have : ∀ n < 16, hexDigit n ≠ '"' ∧ hexDigit n ≠ '\\' := by decide
  exact this n h

/-- A character is written as itself, or as a backslash, a character, and text without marks. -/
theorem escaped_cases (c : Char) :
    (∃ x rest, escaped c = '\\' :: x :: rest ∧ ∀ y ∈ rest, y ≠ '"' ∧ y ≠ '\\') ∨
      (escaped c = [c] ∧ c ≠ '"' ∧ c ≠ '\\') := by
  have hcode : c.toNat < 32 →
      ∀ y ∈ ['0', '0', hexDigit (c.toNat / 16), hexDigit (c.toNat % 16)], y ≠ '"' ∧ y ≠ '\\' := by
    intro hc
    have high := hexDigit_ne (show c.toNat / 16 < 16 by omega)
    have low := hexDigit_ne (show c.toNat % 16 < 16 by omega)
    simp [high, low]
  by_cases hquote : c = '"'
  · subst hquote
    exact .inl ⟨_, [], rfl, by simp⟩
  by_cases hslash : c = '\\'
  · subst hslash
    exact .inl ⟨_, [], rfl, by simp⟩
  rw [escaped, if_neg hquote, if_neg hslash]
  -- the five characters below the blank that have a letter, then the others
  iterate 5
    split
    · exact .inl ⟨_, [], rfl, by simp⟩
  by_cases hlow : c.toNat < 32
  · rw [if_pos hlow]
    exact .inl ⟨_, _, rfl, hcode hlow⟩
  · rw [if_neg hlow]
    exact .inr ⟨rfl, hquote, hslash⟩

/-- A reader in a string at a depth. -/
def Scan.InString (depth : Int) (s : Scan) : Prop := s.quoting ≠ .outside ∧ s.depth = depth

theorem inString_inside (depth : Int) : (⟨.inside, depth⟩ : Scan).InString depth :=
  ⟨Quoting.noConfusion, rfl⟩

theorem reads_inside {text : List Char} (h : ∀ c ∈ text, c ≠ '"' ∧ c ≠ '\\') (depth : Int) :
    Reads weight (·.InString depth) ⟨.inside, depth⟩ text ⟨.inside, depth⟩ := by
  induction text with
  | nil => exact .nil (inString_inside depth)
  | cons c rest ih =>
    obtain ⟨hc, hrest⟩ := List.forall_mem_cons.mp h
    have hnext : (⟨.inside, depth⟩ : Scan).next weight c = ⟨.inside, depth⟩ := by
      simp [Scan.next, Quoting.next, hc]
    refine .cons (inString_inside depth) ?_
    rw [hnext]
    exact ih hrest

theorem reads_escaped (c : Char) (depth : Int) :
    Reads weight (·.InString depth) ⟨.inside, depth⟩ (escaped c) ⟨.inside, depth⟩ := by
  rcases escaped_cases c with ⟨x, rest, he, hrest⟩ | ⟨he, hc⟩
  · rw [he]
    exact .cons (inString_inside depth)
      (.cons ⟨Quoting.noConfusion, rfl⟩ (reads_inside hrest depth))
  · rw [he]
    exact reads_inside (by simpa using hc) depth

/-- What stands between the quotes of a string is read inside of it. -/
theorem reads_flatMap_escaped (text : List Char) (depth : Int) :
    Reads weight (·.InString depth) ⟨.inside, depth⟩ (text.flatMap escaped) ⟨.inside, depth⟩ := by
  induction text with
  | nil => exact .nil (inString_inside depth)
  | cons c rest ih =>
    rw [List.flatMap_cons]
    exact (reads_escaped c depth).append ih

theorem Weighs.next_quote (hw : Weighs weight) (depth : Int) :
    (⟨.outside, depth⟩ : Scan).next weight '"' = ⟨.inside, depth⟩ := by
  have hquote := hw.other '"' (by decide)
  simp [Scan.next, Quoting.next, hquote]

theorem Weighs.balanced_quoted (hw : Weighs weight) (s : String) : Balanced weight (quoted s) := by
  intro depth
  have hcontent : Reads weight (depth ≤ ·.depth) ⟨.inside, depth⟩ (s.toList.flatMap escaped)
      ⟨.inside, depth⟩ :=
    (reads_flatMap_escaped s.toList depth).imp fun s hs => Int.le_of_eq hs.2.symm
  refine .cons (Int.le_refl depth) ?_
  rw [hw.next_quote]
  exact hcontent.append (.cons (Int.le_refl depth) (.nil (Int.le_refl depth)))

/-! ## Values -/

theorem Weighs.balanced_of_numeral (hw : Weighs weight) {text : List Char}
    (h : ∀ c ∈ text, isNumeral c) : Balanced weight text := by
  refine balanced_of_plain fun c hc => ⟨?_, hw.other c ?_⟩
  · rintro rfl
    exact absurd (h _ hc) (by decide)
  · intro hmark
    have hnot : ∀ m ∈ ['(', ')', '[', ']', '\x7b', '\x7d'], ¬ isNumeral m := by simp [isNumeral]
    exact hnot c hmark (h c hc)

theorem Weighs.balanced_boolText (hw : Weighs weight) (b : Bool) :
    Balanced weight (Json.boolText b) := by
  refine hw.balanced_of_numeral ?_
  cases b <;> simp [Json.boolText, isNumeral]

theorem Weighs.balanced_char (hw : Weighs weight) {c : Char}
    (h : c ∉ ['(', ')', '[', ']', '\x7b', '\x7d', '"']) : Balanced weight [c] := by
  refine balanced_nil.cons (by rintro rfl; exact h (by decide)) (hw.other c fun hc => h ?_)
  exact (by decide : ['(', ')', '[', ']', '\x7b', '\x7d'] ⊆
    ['(', ')', '[', ']', '\x7b', '\x7d', '"']) hc

mutual

theorem Weighs.balanced_compact (hw : Weighs weight) :
    (v : Json.Document) → Balanced weight v.compact
  | .null => by
    rw [Json.Value.compact]
    exact hw.balanced_of_numeral (by simp [isNumeral])
  | .bool b => by
    rw [Json.Value.compact]
    exact hw.balanced_boolText b
  | .number n => by
    rw [Json.Value.compact]
    exact hw.balanced_of_numeral fun _ => Json.Number.numeral_text
  | .string s => by
    rw [Json.Value.compact]
    exact hw.balanced_quoted s
  | .array items => by
    rw [Json.Value.compact]
    have hitems := balanced_intercalate (hw.balanced_char (by decide : ',' ∉ _))
      (hw.balanced_itemTexts items)
    exact hitems.enclosed (by decide) (by decide) (hw.opening '[' (by decide)) hw.square
  | .object members => by
    rw [Json.Value.compact]
    have hmembers := balanced_intercalate (hw.balanced_char (by decide : ',' ∉ _))
      (hw.balanced_memberTexts members)
    exact hmembers.enclosed (by decide) (by decide) (hw.opening '\x7b' (by decide)) hw.curly

theorem Weighs.balanced_itemTexts (hw : Weighs weight) :
    (items : List Json.Document) → ∀ text ∈ Json.itemTexts items, Balanced weight text
  | [] => by simp [Json.itemTexts]
  | item :: rest => by
    rw [Json.itemTexts, List.forall_mem_cons]
    exact ⟨hw.balanced_compact item, hw.balanced_itemTexts rest⟩

theorem Weighs.balanced_memberTexts (hw : Weighs weight) :
    (members : List (String × Json.Document)) →
      ∀ text ∈ Json.memberTexts members, Balanced weight text
  | [] => by simp [Json.memberTexts]
  | (key, value) :: rest => by
    rw [Json.memberTexts, List.forall_mem_cons]
    have hvalue := (hw.balanced_compact value).cons (by decide) (hw.other ':' (by decide))
    exact ⟨(hw.balanced_quoted key).append hvalue, hw.balanced_memberTexts rest⟩

end

theorem Weighs.balanced_literalToken (hw : Weighs weight) (v : Json.Document) :
    Balanced weight (Script.literalToken v) := by
  cases v with
  | null => exact hw.balanced_compact .null
  | bool b => exact hw.balanced_quoted _
  | number n => exact hw.balanced_quoted _
  | string s => exact hw.balanced_quoted s
  | array items => exact hw.balanced_compact (.array items)
  | object members => exact hw.balanced_compact (.object members)

/-! ## Set at a depth -/

/-- Spaces change nothing for a reader that is not behind a backslash. -/
theorem Weighs.reads_spaces (hw : Weighs weight) {Q : Scan → Prop} {s : Scan}
    (hs : s.quoting ≠ .escaped) (hq : Q s) (d : Nat) : Reads weight Q s (spaces d) s := by
  have hspace : s.next weight ' ' = s := by
    obtain ⟨quoting, depth⟩ := s
    cases quoting with
    | outside => rw [next_outside (by decide), hw.other ' ' (by decide), Int.add_zero]
    | inside => rfl
    | escaped => exact absurd rfl hs
  unfold spaces
  induction 4 * d with
  | zero => exact .nil hq
  | succ n ih =>
    rw [List.replicate_succ]
    refine .cons hq ?_
    rw [hspace]
    exact ih

/-- The spaces behind line feeds change nothing: no reader is behind a backslash there. -/
theorem Weighs.reads_setAt (hw : Weighs weight) {Q : Scan → Prop} {s s' : Scan} {text : List Char}
    (h : Reads weight Q s text s') (d : Nat) : Reads weight Q s (setAt d text) s' := by
  induction h with
  | nil hq => exact .nil hq
  | @cons s s' c rest hq hr ih =>
    by_cases hc : c = '\n'
    · subst hc
      rw [setAt_newline]
      have hquoting : (s.next weight '\n').quoting ≠ .escaped := by
        obtain ⟨quoting, depth⟩ := s
        cases quoting <;> exact Quoting.noConfusion
      exact .cons hq ((hw.reads_spaces hquoting hr.start d).append ih)
    · rw [setAt_cons_of_ne hc]
      exact .cons hq ih

theorem Weighs.balanced_setAt (hw : Weighs weight) {text : List Char} (h : Balanced weight text)
    (d : Nat) : Balanced weight (setAt d text) :=
  fun depth => hw.reads_setAt (h depth) d

end

end BlockScript.Text
