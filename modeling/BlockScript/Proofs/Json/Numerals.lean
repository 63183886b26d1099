/-
  Numerals and what they denote.

  A numeral as it is written without its sign (`Written`) has whole digits without a superfluous
  leading zero, digits after the point that end in no zero, and at times an exponent. The reader
  takes it apart into these (`unsigned?_text`) wherever what follows cannot continue it, so that the
  text of a numeral denotes one number, exactly (`Numeral.exact`).
-/
import BlockScript.Json.Reader
import BlockScript.Proofs.Number.Rounding

namespace BlockScript.Json

open BlockScript.Decimal

/-! ## Strings of digits -/

/-- The number that a string of decimal digits denotes. -/
def digitsValue (digits : List Char) : ℕ := Nat.ofDigitChars 10 digits 0

theorem natOfDigits_map (digits : List Char) :
    Reader.natOfDigits (digits.map Reader.digitValue) = digitsValue digits := by
  unfold Reader.natOfDigits digitsValue
  rw [List.foldl_map, Nat.ofDigitChars_eq_foldl]
  rfl

theorem digitsValue_natText (n : ℕ) : digitsValue (natText n) = n := Nat.ofDigitChars_ten_toDigits

theorem digitsValue_append (digits digits' : List Char) :
    digitsValue (digits ++ digits') =
      10 ^ digits'.length * digitsValue digits + digitsValue digits' := by
  unfold digitsValue
  rw [Nat.ofDigitChars_append, Nat.ofDigitChars_eq_ofDigitChars_zero]

theorem digitsValue_cons (c : Char) (digits : List Char) :
    digitsValue (c :: digits) = 10 ^ digits.length * Reader.digitValue c + digitsValue digits := by
  rw [← List.singleton_append, digitsValue_append]
  simp [digitsValue, Nat.ofDigitChars_cons, Reader.digitValue]

theorem digitsValue_zeros (n : ℕ) : digitsValue (List.replicate n '0') = 0 := by
  unfold digitsValue
  rw [Nat.ofDigitChars_replicate_zero, Nat.mul_zero]

theorem digitsValue_zero : digitsValue ['0'] = 0 := digitsValue_zeros 1

theorem isDigit_of_mem_natText {n : ℕ} {c : Char} (h : c ∈ natText n) : c.isDigit :=
  Nat.isDigit_of_mem_toDigits (by decide) (by decide) h

theorem digitValue_le {c : Char} (h : c.isDigit) : Reader.digitValue c ≤ 9 := by
  have hle : c.val ≤ '9'.val := by
    simp only [Char.isDigit, Bool.and_eq_true, decide_eq_true_eq] at h
    exact h.2
  have hnat : c.toNat ≤ 57 := UInt32.le_iff_toNat_le.mp hle
  unfold Reader.digitValue
  omega

theorem digitValue_pos {c : Char} (h : c.isDigit) (hne : c ≠ '0') : 1 ≤ Reader.digitValue c := by
  have hle : '0'.val ≤ c.val := by
    simp only [Char.isDigit, Bool.and_eq_true, decide_eq_true_eq] at h
    exact h.1
  have hnat : 48 ≤ c.toNat := UInt32.le_iff_toNat_le.mp hle
  have hother : c.toNat ≠ 48 := fun heq => hne (Char.ext (UInt32.toNat_inj.mp heq))
  unfold Reader.digitValue
  omega

theorem digitsValue_lt {digits : List Char} (h : ∀ c ∈ digits, c.isDigit) :
    digitsValue digits < 10 ^ digits.length := by
  induction digits with
  | nil => decide
  | cons c digits ih =>
    have hc := digitValue_le (h c (List.mem_cons_self ..))
    have hrest := ih fun c' hc' => h c' (List.mem_cons_of_mem _ hc')
    rw [digitsValue_cons, List.length_cons, pow_succ]
    have hle := Nat.mul_le_mul_left (10 ^ digits.length) hc
    omega

theorem le_digitsValue {c : Char} (digits : List Char) (h : c.isDigit) (hne : c ≠ '0') :
    10 ^ digits.length ≤ digitsValue (c :: digits) := by
  rw [digitsValue_cons]
  have hle := Nat.mul_le_mul_left (10 ^ digits.length) (digitValue_pos h hne)
  omega

/-- Numbers are written without superfluous zeros in front. -/
theorem natText_head (n : ℕ) : ∃ c rest, natText n = c :: rest ∧ (c = '0' → rest = []) := by
  obtain ⟨c, rest, heq⟩ := List.exists_cons_of_ne_nil (Nat.toDigits_ne_nil (n := n) (b := 10))
  refine ⟨c, rest, heq, fun hzero => ?_⟩
  by_contra hne
  have hrest : ∀ c ∈ rest, c.isDigit := fun c' hc' =>
    isDigit_of_mem_natText (n := n) (by rw [natText, heq]; exact List.mem_cons_of_mem _ hc')
  have hvalue : n = digitsValue rest := by
    have hall := digitsValue_natText n
    rw [natText, heq, digitsValue_cons, hzero] at hall
    rw [← hall]
    exact Nat.zero_add _
  have hshort := (Nat.length_toDigits_le_iff (n := n) (show 1 < 10 by decide)
    (List.length_pos_iff.mpr hne)).mpr (by rw [hvalue]; exact digitsValue_lt hrest)
  rw [heq, List.length_cons] at hshort
  omega

theorem dvd_of_natText_last {n : ℕ} (h : (natText n).getLast? = some '0') : 10 ∣ n := by
  obtain ⟨front, heq⟩ := List.getLast?_eq_some_iff.mp h
  have hvalue := digitsValue_natText n
  rw [heq, digitsValue_append, digitsValue_zero, List.length_singleton, pow_one,
    Nat.add_zero] at hvalue
  exact ⟨_, hvalue.symm⟩

/-! ## Written numerals -/

/-- Digits after a point, which is left out with them. -/
def pointed : List Char → List Char
  | [] => []
  | c :: rest => '.' :: c :: rest

/-- An exponent behind its mark, always with a sign. -/
def marked : Option ℤ → List Char
  | none => []
  | some e => 'e' :: (if 0 ≤ e then '+' else '-') :: natText e.natAbs

/-- A numeral as it is written, without its sign. No digit is superfluous: the whole part is a lone
    zero or starts with another digit, and the fraction does not end in a zero. -/
structure Written where
  whole : List Char
  fraction : List Char
  exponent : Option ℤ
  whole_digits : ∀ c ∈ whole, c.isDigit
  fraction_digits : ∀ c ∈ fraction, c.isDigit
  whole_head : ∃ c rest, whole = c :: rest ∧ (c = '0' → rest = [])
  fraction_last : fraction.getLast? ≠ some '0'

theorem Written.no_fraction_digits : ∀ c ∈ ([] : List Char), c.isDigit :=
  fun _ hc => absurd hc List.not_mem_nil

theorem Written.no_fraction_last : ([] : List Char).getLast? ≠ some '0' := fun h => by cases h

/-- How the sign of a number is written. -/
def signText (negative : Bool) : List Char := if negative then ['-'] else []

/-- The factor that a sign stands for. -/
def signFactor (negative : Bool) : ℚ := if negative then -1 else 1

/-- The number that a numeral denotes, without rounding. -/
def Numeral.exact (n : Numeral) : ℚ :=
  signFactor n.negative * (Reader.natOfDigits (n.whole ++ n.fraction) *
    10 ^ (n.exponent.getD 0 - n.fraction.length))

namespace Written

def text (w : Written) : List Char := w.whole ++ (pointed w.fraction ++ marked w.exponent)

/-- The number that a written numeral denotes. -/
def value (w : Written) : ℚ :=
  digitsValue (w.whole ++ w.fraction) * 10 ^ (w.exponent.getD 0 - w.fraction.length)

/-- The parts that a reader finds. -/
def numeral (w : Written) (negative : Bool) : Numeral :=
  ⟨negative, w.whole.map Reader.digitValue, w.fraction.map Reader.digitValue, w.exponent⟩

theorem exact_numeral (w : Written) (negative : Bool) :
    (w.numeral negative).exact = signFactor negative * w.value := by
  unfold Numeral.exact numeral value
  rw [← List.map_append, natOfDigits_map, List.length_map]

/-- A natural number in full. -/
def ofNat (n : ℕ) : Written where
  whole := natText n
  fraction := []
  exponent := none
  whole_digits _ hc := isDigit_of_mem_natText hc
  fraction_digits := no_fraction_digits
  whole_head := natText_head n
  fraction_last := no_fraction_last

theorem text_ofNat (n : ℕ) : (ofNat n).text = natText n := List.append_nil _

theorem value_ofNat (n : ℕ) : (ofNat n).value = n := by
  unfold value ofNat
  rw [List.append_nil, digitsValue_natText]
  simp

end Written

/-! ## Reading them -/

/-- Whether a text cannot continue a numeral that it follows. -/
def Apart (rest : List Char) : Prop :=
  ∀ c ∈ rest.head?, c.isDigit = false ∧ c ≠ '.' ∧ c ≠ 'e' ∧ c ≠ 'E'

theorem apart_nil : Apart [] := fun _ hc => by cases hc

theorem apart_cons {c : Char} (h : c.isDigit = false ∧ c ≠ '.' ∧ c ≠ 'e' ∧ c ≠ 'E')
    (rest : List Char) : Apart (c :: rest) := by
  intro first hfirst
  cases hfirst
  exact h

namespace Reader

variable {rest : List Char}

theorem digits_append {run : List Char} (hrun : ∀ c ∈ run, c.isDigit)
    (hrest : ∀ c ∈ rest.head?, c.isDigit = false) :
    digits (run ++ rest) = (run.map digitValue, rest) := by
  unfold digits
  rw [List.takeWhile_append_of_pos hrun, List.dropWhile_append_of_pos hrun]
  cases rest with
  | nil => simp
  | cons c rest => simp [hrest c rfl]

theorem whole?_append {w : Written} (hrest : ∀ c ∈ rest.head?, c.isDigit = false) :
    whole? (w.whole ++ rest) = some (w.whole.map digitValue, rest) := by
  obtain ⟨c, run, heq, hzero⟩ := w.whole_head
  by_cases hc : c = '0'
  · rw [heq, hzero hc, hc]
    rfl
  · have hdigits := digits_append w.whole_digits hrest
    rw [heq] at hdigits ⊢
    unfold whole?
    split
    · rename_i heq'
      rw [List.cons_append, List.cons.injEq] at heq'
      exact absurd heq'.1 hc
    · rw [hdigits]
      rfl

theorem fraction?_pointed {run : List Char} (hrun : ∀ c ∈ run, c.isDigit)
    (hrest : ∀ c ∈ rest.head?, c.isDigit = false ∧ c ≠ '.') :
    fraction? (pointed run ++ rest) = some (run.map digitValue, rest) := by
  cases run with
  | nil =>
    unfold fraction? pointed
    split
    · rename_i heq
      rw [List.nil_append] at heq
      exact absurd rfl (hrest '.' (by rw [heq]; rfl)).2
    · rfl
  | cons c run =>
    have hdigits := digits_append hrun fun c hc => (hrest c hc).1
    rw [pointed, List.cons_append, fraction?, hdigits]
    rfl

theorem exponentDigits?_natText (negative : Bool) (n : ℕ)
    (hrest : ∀ c ∈ rest.head?, c.isDigit = false) :
    exponentDigits? negative (natText n ++ rest) =
      some (some (if negative then -(n : ℤ) else n), rest) := by
  have hdigits := digits_append (fun _ => isDigit_of_mem_natText (n := n)) hrest
  have hvalue : natOfDigits ((natText n).map digitValue) = n := by
    rw [natOfDigits_map, digitsValue_natText]
  cases hrun : natText n with
  | nil => exact absurd hrun Nat.toDigits_ne_nil
  | cons c run =>
    rw [hrun] at hdigits hvalue
    unfold exponentDigits?
    rw [hdigits, ← hvalue]
    rfl

theorem exponent?_marked (e : Option ℤ) (hrest : Apart rest) :
    exponent? (marked e ++ rest) = some (e, rest) := by
  have hdigit : ∀ c ∈ rest.head?, c.isDigit = false := fun c hc => (hrest c hc).1
  have hplus : ∀ run, exponent? ('e' :: '+' :: run) = exponentDigits? false run := fun _ => rfl
  have hminus : ∀ run, exponent? ('e' :: '-' :: run) = exponentDigits? true run := fun _ => rfl
  cases e with
  | none =>
    cases rest with
    | nil => rfl
    | cons c rest =>
      obtain ⟨-, -, he, hE⟩ := hrest c rfl
      simp [marked, exponent?, he, hE]
  | some e =>
    dsimp only [marked, List.cons_append]
    split
    · rename_i hnonneg
      rw [hplus, exponentDigits?_natText false _ hdigit]
      simp [abs_of_nonneg hnonneg]
    · rename_i hneg
      rw [hminus, exponentDigits?_natText true _ hdigit]
      simp [abs_of_neg (not_le.mp hneg)]

/-- A written numeral is read up to its end. -/
theorem unsigned?_text (w : Written) (negative : Bool) (hrest : Apart rest) :
    unsigned? negative (w.text ++ rest) = some (w.numeral negative, rest) := by
  have hexponent : ∀ c ∈ (marked w.exponent ++ rest).head?, c.isDigit = false ∧ c ≠ '.' := by
    intro c hc
    cases he : w.exponent with
    | none =>
      rw [he] at hc
      exact ⟨(hrest c hc).1, (hrest c hc).2.1⟩
    | some e =>
      rw [he] at hc
      cases hc
      decide
  have hpoint : ∀ c ∈ (pointed w.fraction ++ (marked w.exponent ++ rest)).head?,
      c.isDigit = false := by
    intro c hc
    cases hf : w.fraction with
    | nil =>
      rw [hf] at hc
      exact (hexponent c hc).1
    | cons first run =>
      rw [hf] at hc
      cases hc
      decide
  unfold unsigned? Written.text
  rw [List.append_assoc, List.append_assoc, whole?_append hpoint]
  dsimp only [Option.bind_eq_bind, Option.bind_some]
  rw [fraction?_pointed w.fraction_digits hexponent]
  dsimp only [Option.bind_some]
  rw [exponent?_marked _ hrest]
  rfl

theorem numeral?_text (w : Written) (negative : Bool) (hrest : Apart rest) :
    numeral? (signText negative ++ w.text ++ rest) = some (w.numeral negative, rest) := by
  cases negative with
  | true => exact unsigned?_text w true hrest
  | false =>
    have hread := unsigned?_text w false hrest
    obtain ⟨c, run, heq, -⟩ := w.whole_head
    have hdigit := w.whole_digits c (by rw [heq]; exact List.mem_cons_self ..)
    unfold numeral?
    split
    · rename_i hminus
      rw [Written.text, heq] at hminus
      cases hminus
      exact absurd hdigit (by decide)
    · exact hread

end Reader

end BlockScript.Json
