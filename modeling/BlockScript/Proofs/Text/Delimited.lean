/-
  Texts that show where they end.

  Two texts tell something if it holds whenever they start the same text, and then the same follows
  (`Tells`). Telling goes through concatenation, so what the pieces of two texts tell, the texts
  tell together. Quoted text tells its string, whatever stands in it and behind it: the reader of
  JSON reads the string back and stops behind the closing quote (`stringBody_flatMap_escaped`,
  `tells_quoted`). Text up to a mark that it does not hold tells itself.
-/
import BlockScript.Json.Reader
import BlockScript.Proofs.Results
import BlockScript.Proofs.Text.Indentation
import Mathlib.Data.List.Forall2

namespace BlockScript.Json.Reader

open BlockScript.Text

/-! ## Reading strings back -/

theorem hexValue?_hexDigit {n : Nat} (h : n < 16) : hexValue? (hexDigit n) = some n := by
  have hall : ∀ n < 16, hexValue? (hexDigit n) = some n := by decide
  exact hall n h

theorem unit?_hexDigits {n : Nat} (h : n < 256) :
    unit? '0' '0' (hexDigit (n / 16)) (hexDigit (n % 16)) = some n := by
  have hzero : hexValue? '0' = some 0 := by decide
  have hhigh : hexValue? (hexDigit (n / 16)) = some (n / 16) := hexValue?_hexDigit (by omega)
  have hlow : hexValue? (hexDigit (n % 16)) = some (n % 16) := hexValue?_hexDigit (by omega)
  have hsum : ((0 * 16 + 0) * 16 + n / 16) * 16 + n % 16 = n := by omega
  simp only [unit?, hzero, hhigh, hlow, Option.bind_eq_bind, Option.bind_some, hsum]

/-- What one character is written as is read as that character. -/
theorem stringBody_escaped (c : Char) (rest : List Char) :
    stringBody (escaped c ++ rest) = withChar c (stringBody rest) := by
  unfold escaped
  split_ifs with hquote hslash hn hr ht hb hf hlow
  · subst hquote; rfl
  · subst hslash; rfl
  · subst hn; rfl
  · subst hr; rfl
  · subst ht; rfl
  · subst hb; rfl
  · subst hf; rfl
  · have hunit := unit?_hexDigits (show c.toNat < 256 by omega)
    have hsurrogate : isLowSurrogate c.toNat = false ∧ isHighSurrogate c.toNat = false := by
      simp only [isLowSurrogate, isHighSurrogate, Bool.and_eq_false_iff, decide_eq_false_iff_not]
      omega
    simp only [List.cons_append, List.nil_append, stringBody, hunit, hsurrogate, Char.ofNat_toNat]
    rfl
  · simp [stringBody, hslash, hlow]

/-- A string is read back up to its closing quote. -/
theorem stringBody_flatMap_escaped (text rest : List Char) :
    stringBody (text.flatMap escaped ++ '"' :: rest) = some (text, rest) := by
  induction text with
  | nil => rfl
  | cons c text ih =>
    rw [List.flatMap_cons, List.append_assoc, stringBody_escaped, ih]
    rfl

end BlockScript.Json.Reader

namespace BlockScript.Text

open BlockScript.Results

/-! ## What two texts tell -/

/-- Where the same text starts with both, the statement holds and the same follows. -/
def Tells (S : Prop) (a b : List Char) : Prop := ∀ r r', a ++ r = b ++ r' → S ∧ r = r'

theorem tells_same (a : List Char) : Tells True a a :=
  fun _ _ h => ⟨trivial, List.append_cancel_left h⟩

namespace Tells

variable {S T : Prop} {a b c d : List Char}

theorem imp (h : Tells S a b) (hST : S → T) : Tells T a b := by
  intro r r' heq
  obtain ⟨hS, hr⟩ := h r r' heq
  exact ⟨hST hS, hr⟩

theorem append (h : Tells S a b) (h' : Tells T c d) : Tells (S ∧ T) (a ++ c) (b ++ d) := by
  intro r r' heq
  rw [List.append_assoc, List.append_assoc] at heq
  obtain ⟨hS, hrest⟩ := h _ _ heq
  obtain ⟨hT, hr⟩ := h' r r' hrest
  exact ⟨⟨hS, hT⟩, hr⟩

theorem prepend (a : List Char) (h : Tells S c d) : Tells S (a ++ c) (a ++ d) :=
  ((tells_same a).append h).imp fun hall => hall.2

theorem postpend (h : Tells S a b) (c : List Char) : Tells S (a ++ c) (b ++ c) :=
  (h.append (tells_same c)).imp fun hall => hall.1

theorem of_eq (h : Tells S a b) (heq : a = b) : S := (h [] [] (congrArg (· ++ []) heq)).1

section

variable {α β : Type} {R : α → β → Prop} {as : List α} {bs : List β}

theorem flatMap {f : α → List Char} {g : β → List Char}
    (h : List.Forall₂ (fun a b => Tells (R a b) (f a) (g b)) as bs) :
    Tells (List.Forall₂ R as bs) (as.flatMap f) (bs.flatMap g) := by
  induction h with
  | nil => exact (tells_same []).imp fun _ => .nil
  | cons hab _ ih =>
    rw [List.flatMap_cons, List.flatMap_cons]
    exact (hab.append ih).imp fun hall => .cons hall.1 hall.2

/-- The same for pieces that can fail to be there. -/
theorem mapM {ε : Type} {f : α → Except ε (List Char)} {g : β → Except ε (List Char)}
    (h : List.Forall₂ (fun a b => ∀ x y, f a = .ok x → g b = .ok y → Tells (R a b) x y) as bs)
    {xs ys : List (List Char)} (hxs : as.mapM f = .ok xs) (hys : bs.mapM g = .ok ys) :
    Tells (List.Forall₂ R as bs) xs.flatten ys.flatten := by
  have hleft := forall₂_of_mapM hxs
  have hright := forall₂_of_mapM hys
  clear hxs hys
  induction h generalizing xs ys with
  | nil =>
    cases hleft
    cases hright
    exact (tells_same []).imp fun _ => .nil
  | cons hab _ ih =>
    cases hleft with
    | cons hx hleft =>
      cases hright with
      | cons hy hright =>
        rw [List.flatten_cons, List.flatten_cons]
        exact ((hab _ _ hx hy).append (ih hleft hright)).imp fun hall => .cons hall.1 hall.2

end

end Tells

/-- Texts between separators tell what each of them tells. -/
theorem tells_intercalate (sep : List Char) {xs ys : List (List Char)}
    (h : List.Forall₂ (fun x y => Tells (x = y) x y) xs ys) :
    Tells (xs = ys) (List.intercalate sep xs) (List.intercalate sep ys) := by
  induction h with
  | nil => exact (tells_same []).imp fun _ => rfl
  | @cons x y xs ys hxy hrest ih =>
    cases hrest with
    | nil =>
      rw [List.intercalate_singleton, List.intercalate_singleton]
      exact hxy.imp fun heq => by rw [heq]
    | cons hnext hrest =>
      rw [List.intercalate_cons_cons, List.intercalate_cons_cons]
      exact ((hxy.postpend sep).append ih).imp fun hall => by rw [hall.1, hall.2]

/-! ## Marks and quotes -/

theorem tells_upTo {mark : Char} {a b : List Char} (ha : mark ∉ a) (hb : mark ∉ b) :
    Tells (a = b) (a ++ [mark]) (b ++ [mark]) := by
  intro r r' heq
  rw [List.append_assoc, List.append_assoc] at heq
  induction a generalizing b with
  | nil =>
    cases b with
    | nil => exact ⟨rfl, (List.cons.inj heq).2⟩
    | cons y b => exact absurd (List.cons.inj heq).1 (List.ne_of_not_mem_cons hb)
  | cons x a ih =>
    rw [List.mem_cons, not_or] at ha
    cases b with
    | nil => exact absurd (List.cons.inj heq).1.symm ha.1
    | cons y b =>
      rw [List.mem_cons, not_or] at hb
      obtain ⟨hxy, hrest⟩ := List.cons.inj heq
      obtain ⟨hab, hr⟩ := ih ha.2 hb.2 hrest
      exact ⟨by rw [hxy, hab], hr⟩

/-- Quoted text tells its string. -/
theorem tells_quoted (s s' : String) : Tells (s = s') (quoted s) (quoted s') := by
  intro r r' heq
  simp only [quoted, List.cons_append, List.append_assoc, List.nil_append] at heq
  have hread := congrArg Json.Reader.stringBody (List.cons.inj heq).2
  rw [Json.Reader.stringBody_flatMap_escaped, Json.Reader.stringBody_flatMap_escaped] at hread
  obtain ⟨htext, hr⟩ := Prod.mk.inj (Option.some.inj hread)
  exact ⟨String.toList_inj.mp htext, hr⟩

end BlockScript.Text
