/-
  What the tokens of a script are made of.

  Numbers are written with digits, letters, signs and points (`numeral_text`). Quoted text, compact
  JSON and literal tokens hold no control character, whatever the strings in them hold
  (`printable_quoted`, `printable_compact`, `printable_literalToken`): in particular they never
  break a line. Every argument token has at least one character.
-/
import BlockScript.Script.Statement
import Mathlib.Data.List.Basic

namespace BlockScript

/-! ## Numbers -/

/-- The characters that numbers are written with. -/
def isNumeral (c : Char) : Bool := c.isAlphanum || c == '-' || c == '+' || c == '.'

namespace Decimal

theorem numeral_natText {n : Nat} {c : Char} (h : c ∈ natText n) : isNumeral c := by
  have hd : c.isDigit := Nat.isDigit_of_mem_toDigits (by decide) (by decide) h
  simp [isNumeral, Char.isAlphanum, hd]

theorem numeral_intText {n : Int} {c : Char} (h : c ∈ intText n) : isNumeral c := by
  unfold intText at h
  split at h
  · rcases List.mem_cons.mp h with rfl | h
    · decide
    · exact numeral_natText h
  · exact numeral_natText h

theorem numeral_layout {digits : List Char} (hd : ∀ c ∈ digits, isNumeral c) (point : Int)
    {c : Char} (h : c ∈ layout digits point) : isNumeral c := by
  have hzero : ∀ n, c ∈ List.replicate n '0' → isNumeral c := by
    intro n hc
    rw [List.eq_of_mem_replicate hc]
    decide
  have htake : ∀ n, c ∈ digits.take n → isNumeral c := fun n hc => hd c (List.mem_of_mem_take hc)
  have hdrop : ∀ n, c ∈ digits.drop n → isNumeral c := fun n hc => hd c (List.mem_of_mem_drop hc)
  unfold layout at h
  dsimp only at h
  split at h
  · rcases List.mem_append.mp h with h | h
    · exact hd c h
    · exact hzero _ h
  split at h
  · simp only [List.mem_append, List.mem_cons] at h
    rcases h with h | rfl | h
    · exact htake _ h
    · decide
    · exact hdrop _ h
  split at h
  · simp only [List.cons_append, List.mem_cons, List.mem_append] at h
    rcases h with rfl | rfl | h | h
    · decide
    · decide
    · exact hzero _ h
    · exact hd c h
  · simp only [List.mem_append, List.mem_cons] at h
    rcases h with (h | h) | rfl | h | h
    · exact htake _ h
    · split at h
      · simp at h
      · rcases List.mem_cons.mp h with rfl | h
        · decide
        · exact hdrop _ h
    · decide
    · rw [h]
      split <;> decide
    · exact numeral_natText h

end Decimal

theorem Double.numeral_text {d : Double} {c : Char} (h : c ∈ d.text) : isNumeral c := by
  have hwords : (∀ c ∈ "NaN".toList, isNumeral c) ∧ ∀ c ∈ "Infinity".toList, isNumeral c := by
    unfold isNumeral Char.isAlphanum Char.isAlpha Char.isUpper Char.isLower
    simp
  have hsign : c ∈ (if d.negative then ['-'] else []) → isNumeral c := by
    split
    · intro hc
      rw [List.mem_singleton.mp hc]
      decide
    · simp
  unfold Double.text at h
  dsimp only at h
  split at h
  · rw [List.mem_singleton.mp h]
    decide
  split at h
  · exact hwords.1 c h
  split at h
  · rcases List.mem_append.mp h with h | h
    · exact hsign h
    · exact hwords.2 c h
  · rcases List.mem_append.mp h with h | h
    · exact hsign h
    · exact Decimal.numeral_layout (fun _ => Decimal.numeral_natText) _ h

namespace Json

theorem Number.numeral_text {n : Number} {c : Char} (h : c ∈ n.text) : isNumeral c := by
  cases n with
  | integer n => exact Decimal.numeral_intText h
  | double d => exact Double.numeral_text h

end Json

/-! ## Text without control characters -/

namespace Text

/-- No character of the text is below the blank. -/
def Printable (text : List Char) : Prop := ∀ c ∈ text, 32 ≤ c.toNat

theorem Printable.newline_not_mem {text : List Char} (h : Printable text) : '\n' ∉ text := by
  intro hn
  have := h '\n' hn
  exact absurd this (by decide)

@[simp]
theorem printable_nil : Printable [] := by simp [Printable]

@[simp]
theorem printable_cons {c : Char} {text : List Char} :
    Printable (c :: text) ↔ 32 ≤ c.toNat ∧ Printable text := by
  simp [Printable]

@[simp]
theorem printable_append {a b : List Char} :
    Printable (a ++ b) ↔ Printable a ∧ Printable b := by
  simp only [Printable, List.mem_append]
  constructor
  · intro h
    exact ⟨fun c hc => h c (Or.inl hc), fun c hc => h c (Or.inr hc)⟩
  · rintro ⟨ha, hb⟩ c (hc | hc)
    · exact ha c hc
    · exact hb c hc

theorem printable_intercalate {sep : List Char} {texts : List (List Char)} (hs : Printable sep)
    (ht : ∀ text ∈ texts, Printable text) : Printable (List.intercalate sep texts) := by
  induction texts with
  | nil => exact printable_nil
  | cons text rest ih =>
    cases rest with
    | nil => simpa using ht
    | cons next rest =>
      rw [List.intercalate_cons_cons, printable_append, printable_append]
      refine ⟨⟨ht _ (List.mem_cons_self ..), hs⟩, ih fun t h => ht t (List.mem_cons_of_mem _ h)⟩

theorem printable_of_numeral {text : List Char} (h : ∀ c ∈ text, isNumeral c) :
    Printable text := by
  intro c hc
  have := h c hc
  unfold isNumeral Char.isAlphanum Char.isAlpha Char.isUpper Char.isLower Char.isDigit at this
  simp only [Bool.or_eq_true, Bool.and_eq_true, decide_eq_true_eq, beq_iff_eq,
    UInt32.le_iff_toNat_le, ge_iff_le] at this
  have hv : c.toNat = c.val.toNat := rfl
  rcases this with (((((h | h) | h) | rfl) | rfl) | rfl)
  · have : 'A'.val.toNat = 65 := rfl
    omega
  · have : 'a'.val.toNat = 97 := rfl
    omega
  · have : '0'.val.toNat = 48 := rfl
    omega
  all_goals decide

/-! ## Quoted text -/

theorem printable_hexDigit {n : Nat} (h : n < 16) : 32 ≤ (hexDigit n).toNat := by
  have : ∀ n < 16, 32 ≤ (hexDigit n).toNat := by decide
  exact this n h

theorem printable_escaped (c : Char) : Printable (escaped c) := by
  unfold escaped
  by_cases hc : c.toNat < 32
  · have high : 32 ≤ (hexDigit (c.toNat / 16)).toNat := printable_hexDigit (by omega)
    have low : 32 ≤ (hexDigit (c.toNat % 16)).toNat := printable_hexDigit (by omega)
    split_ifs <;> simp [high, low]
  · split_ifs <;> simp [Nat.le_of_not_lt hc]

theorem printable_quoted (s : String) : Printable (quoted s) := by
  have : Printable (s.toList.flatMap escaped) := by
    intro c hc
    obtain ⟨a, -, hca⟩ := List.mem_flatMap.mp hc
    exact printable_escaped a c hca
  simp [quoted, this]

end Text

/-! ## Values and arguments -/

namespace Json

open BlockScript.Text

theorem Number.printable_text (n : Number) : Printable n.text :=
  printable_of_numeral fun _ => Number.numeral_text

theorem printable_boolText (b : Bool) : Printable (boolText b) := by
  cases b <;> simp [boolText]

theorem printable_comma : Printable [','] := by simp

mutual

theorem Value.printable_compact : (v : Document) → Printable v.compact
  | .null => by
    simp [Value.compact]
  | .bool b => by simpa [Value.compact] using printable_boolText b
  | .number n => by simpa [Value.compact] using n.printable_text
  | .string s => by simpa [Value.compact] using printable_quoted s
  | .array items => by
    have := printable_intercalate printable_comma (printable_itemTexts items)
    simp [Value.compact, this]
  | .object members => by
    have := printable_intercalate printable_comma (printable_memberTexts members)
    simp [Value.compact, this]

theorem printable_itemTexts : (items : List Document) → ∀ text ∈ itemTexts items, Printable text
  | [] => by simp [itemTexts]
  | item :: rest => by
    simp only [itemTexts, List.mem_cons]
    rintro text (rfl | ht)
    · exact Value.printable_compact item
    · exact printable_itemTexts rest text ht

theorem printable_memberTexts :
    (members : List (String × Document)) → ∀ text ∈ memberTexts members, Printable text
  | [] => by simp [memberTexts]
  | (key, value) :: rest => by
    simp only [memberTexts, List.mem_cons]
    rintro text (rfl | ht)
    · simp [printable_quoted key, Value.printable_compact value]
    · exact printable_memberTexts rest text ht

end

end Json

namespace Script

open BlockScript.Json BlockScript.Text

theorem printable_literalToken (v : Document) : Printable (literalToken v) := by
  cases v with
  | null => exact Value.printable_compact .null
  | bool b => exact printable_quoted _
  | number n => exact printable_quoted _
  | string s => exact printable_quoted s
  | array items => exact Value.printable_compact (.array items)
  | object members => exact Value.printable_compact (.object members)

theorem literalToken_array (items : List Document) :
    literalToken (.array items) = '[' :: (List.intercalate [','] (itemTexts items) ++ [']']) := by
  show Value.compact (.array items) = _
  rw [Value.compact]

theorem literalToken_object (members : List (String × Document)) :
    literalToken (.object members) =
      '\x7b' :: (List.intercalate [','] (memberTexts members) ++ ['\x7d']) := by
  show Value.compact (.object members) = _
  rw [Value.compact]

/-- The first characters of literal tokens. -/
theorem literalToken_head (v : Document) :
    ∃ c rest, literalToken v = c :: rest ∧ c ∈ ['n', '"', '[', '\x7b'] := by
  cases v with
  | null => exact ⟨'n', _, rfl, by decide⟩
  | bool b => exact ⟨'"', _, rfl, by decide⟩
  | number n => exact ⟨'"', _, rfl, by decide⟩
  | string s => exact ⟨'"', _, rfl, by decide⟩
  | array items => exact ⟨'[', _, literalToken_array items, by decide⟩
  | object members => exact ⟨'\x7b', _, literalToken_object members, by decide⟩

theorem literalToken_ne_nil (v : Document) : literalToken v ≠ [] := by
  obtain ⟨c, rest, heq, -⟩ := literalToken_head v
  rw [heq]
  exact List.cons_ne_nil c rest

theorem referenceToken_ne_nil (project : Project) (target : Target) (name id : String) :
    referenceToken project target name id ≠ [] := by
  unfold referenceToken
  split
  · simp
  · split <;> simp

end Script

end BlockScript
