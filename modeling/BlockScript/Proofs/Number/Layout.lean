/-
  How doubles are written.

  A double is written from its shortest scientific form (`Scientific`): digits without leading or
  trailing zeros and a decimal exponent. The layout of such a form cuts the digits only where they
  can be cut and never asks for a negative number of zeros (`layout?`), denotes exactly the number
  of the form, is positional from `1e-6` up to below `1e21` and has an exponent elsewhere, and is
  the text that JavaScript prescribes for the digits (`ScriptText`). Since a number is rounded to
  one double only, doubles other than zeros have their text to themselves (`text_exact`).
-/
import BlockScript.Proofs.Json.Numerals
import BlockScript.Proofs.Number.Shortest

namespace BlockScript

open BlockScript.Json

/-! ## Scientific forms -/

/-- The form `d.ddd * 10 ^ exponent` of a positive number. -/
structure Scientific where
  digits : List Char
  exponent : ℤ
  isDigit : ∀ c ∈ digits, c.isDigit
  head : ∃ c rest, digits = c :: rest ∧ c ≠ '0'
  last : digits.getLast? ≠ some '0'

namespace Scientific

/-- The number that a scientific form stands for. -/
def value (s : Scientific) : ℚ :=
  digitsValue s.digits * 10 ^ (s.exponent + 1 - s.digits.length)

/-- The text of a scientific form. -/
def text (s : Scientific) : List Char := Decimal.layout s.digits (s.exponent + 1)

theorem length_pos (s : Scientific) : 0 < s.digits.length := by
  obtain ⟨c, rest, heq, -⟩ := s.head
  rw [heq]
  exact Nat.succ_pos _

theorem value_ge (s : Scientific) : 10 ^ s.exponent ≤ s.value := by
  obtain ⟨c, rest, heq, hne⟩ := s.head
  have hdigit := s.isDigit c (by rw [heq]; exact List.mem_cons_self ..)
  have hle : (10 : ℚ) ^ rest.length ≤ digitsValue s.digits := by
    rw [heq]
    exact_mod_cast le_digitsValue rest hdigit hne
  unfold value
  calc (10 : ℚ) ^ s.exponent = 10 ^ rest.length * 10 ^ (s.exponent + 1 - s.digits.length) := by
        rw [← zpow_natCast, ← zpow_add₀ (by norm_num), heq, List.length_cons]
        congr 1
        push_cast
        ring
    _ ≤ digitsValue s.digits * 10 ^ (s.exponent + 1 - s.digits.length) := by gcongr

theorem value_lt (s : Scientific) : s.value < 10 ^ (s.exponent + 1) := by
  have hlt : (digitsValue s.digits : ℚ) < 10 ^ s.digits.length := by
    exact_mod_cast digitsValue_lt s.isDigit
  unfold value
  calc (digitsValue s.digits : ℚ) * 10 ^ (s.exponent + 1 - s.digits.length)
      < 10 ^ s.digits.length * 10 ^ (s.exponent + 1 - s.digits.length) := by gcongr
    _ = 10 ^ (s.exponent + 1) := by
        rw [← zpow_natCast, ← zpow_add₀ (by norm_num), add_sub_cancel]

theorem value_pos (s : Scientific) : 0 < s.value := lt_of_lt_of_le (by positivity) s.value_ge

/-- The exponents of the numbers that are written out. -/
theorem mem_range_iff (s : Scientific) :
    (10 : ℚ) ^ (-6 : ℤ) ≤ s.value ∧ s.value < 10 ^ (21 : ℤ) ↔
      -6 ≤ s.exponent ∧ s.exponent < 21 := by
  have hpow : ∀ {a b : ℤ}, (10 : ℚ) ^ a < 10 ^ b ↔ a < b := zpow_lt_zpow_iff_right₀ (by norm_num)
  have hpow' : ∀ {a b : ℤ}, (10 : ℚ) ^ a ≤ 10 ^ b ↔ a ≤ b := zpow_le_zpow_iff_right₀ (by norm_num)
  constructor
  · rintro ⟨hlow, hhigh⟩
    have hlow := hpow.mp (hlow.trans_lt s.value_lt)
    have hhigh := hpow.mp (s.value_ge.trans_lt hhigh)
    exact ⟨by omega, hhigh⟩
  · rintro ⟨hlow, hhigh⟩
    exact ⟨(hpow'.mpr hlow).trans s.value_ge, s.value_lt.trans_le (hpow'.mpr (by omega))⟩

end Scientific

/-! ## The branches of the layout -/

namespace Decimal

section

variable {digits : List Char} {point : ℤ}

theorem layout_whole (h : digits.length ≤ point) (hw : point ≤ 21) :
    layout digits point = digits ++ List.replicate (point - digits.length).toNat '0' :=
  if_pos ⟨h, hw⟩

theorem layout_point (h : point < digits.length) (hp : 0 < point) (hw : point ≤ 21) :
    layout digits point = digits.take point.toNat ++ '.' :: digits.drop point.toNat :=
  (if_neg fun hall => absurd h (not_lt.mpr hall.1)).trans (if_pos ⟨hp, hw⟩)

theorem layout_zero (h : digits ≠ []) (hd : -6 < point) (hp : point ≤ 0) :
    layout digits point = '0' :: '.' :: List.replicate (-point).toNat '0' ++ digits := by
  have hlength := List.length_pos_iff.mpr h
  refine (if_neg fun hall => ?_).trans ((if_neg fun hall => ?_).trans (if_pos ⟨hd, hp⟩))
  · omega
  · omega

theorem layout_exponent (h : digits ≠ []) (hrange : ¬(-6 < point ∧ point ≤ 21)) :
    layout digits point = digits.take 1 ++
      (if (digits.drop 1).isEmpty then [] else '.' :: digits.drop 1) ++
        'e' :: (if 0 ≤ point - 1 then '+' else '-') :: natText (point - 1).natAbs := by
  have hlength := List.length_pos_iff.mpr h
  have hw : widest = 21 := rfl
  have hd : deepest = -6 := rfl
  refine (if_neg fun hall => ?_).trans ((if_neg fun hall => ?_).trans (if_neg fun hall => ?_))
  · omega
  · omega
  · omega

end

/-! ## The layout with its partial steps -/

/-- The first characters of a text and the others, if it has that many. -/
def cut? (text : List Char) (count : ℤ) : Option (List Char × List Char) :=
  if 0 ≤ count ∧ count ≤ text.length then some (text.splitAt count.toNat) else none

/-- As many zeros as asked for, if that is not a negative number of them. -/
def zeros? (count : ℤ) : Option (List Char) :=
  if 0 ≤ count then some (List.replicate count.toNat '0') else none

/-- `layout` with every cut and every run of zeros checked. -/
def layout? (digits : List Char) (point : ℤ) : Option (List Char) :=
  let count : ℤ := digits.length
  if count ≤ point ∧ point ≤ widest then do
    let zeros ← zeros? (point - count)
    some (digits ++ zeros)
  else if 0 < point ∧ point ≤ widest then do
    let (whole, fraction) ← cut? digits point
    some (whole ++ '.' :: fraction)
  else if deepest < point ∧ point ≤ 0 then do
    let zeros ← zeros? (-point)
    some ('0' :: '.' :: zeros ++ digits)
  else do
    let (first, fraction) ← cut? digits 1
    some (first ++ (if fraction.isEmpty then [] else '.' :: fraction) ++
      'e' :: (if 0 ≤ point - 1 then '+' else '-') :: natText (point - 1).natAbs)

theorem zeros?_of_nonneg {count : ℤ} (h : 0 ≤ count) :
    zeros? count = some (List.replicate count.toNat '0') := if_pos h

theorem cut?_of_le {text : List Char} {count : ℤ} (hnonneg : 0 ≤ count)
    (hle : count ≤ text.length) :
    cut? text count = some (text.take count.toNat, text.drop count.toNat) := by
  unfold cut?
  rw [if_pos ⟨hnonneg, hle⟩, List.splitAt_eq]

/-- Every cut and every run of zeros is in range. -/
theorem layout?_eq {digits : List Char} (h : digits ≠ []) (point : ℤ) :
    layout? digits point = some (layout digits point) := by
  have hlength := List.length_pos_iff.mpr h
  unfold layout? layout
  dsimp only
  split
  · rw [zeros?_of_nonneg (by omega)]
    rfl
  split
  · rw [cut?_of_le (by omega) (by omega)]
    rfl
  split
  · rw [zeros?_of_nonneg (by omega)]
    rfl
  · rw [cut?_of_le (by omega) (by omega)]
    rfl

end Decimal

/-! ## The text that JavaScript prescribes -/

/-- The text of a number with the given digits and its point `n` places after their start, by the
    steps of JavaScript's `Number::toString`, which say how many digits or zeros stand where. -/
inductive ScriptText (digits : List Char) (n : ℤ) : List Char → Prop
  | whole (zeros : ℕ) (hn : -5 ≤ n ∧ n ≤ 21) (hcount : (digits.length : ℤ) + zeros = n) :
      ScriptText digits n (digits ++ List.replicate zeros '0')
  | point (front back : List Char) (hn : -5 ≤ n ∧ n ≤ 21) (hdigits : digits = front ++ back)
      (hfront : (front.length : ℤ) = n) (hpos : 0 < n) (hback : back ≠ []) :
      ScriptText digits n (front ++ '.' :: back)
  | zero (zeros : ℕ) (hn : -5 ≤ n ∧ n ≤ 21) (hcount : n + zeros = 0) :
      ScriptText digits n ('0' :: '.' :: (List.replicate zeros '0' ++ digits))
  | single (c : Char) (hn : ¬(-5 ≤ n ∧ n ≤ 21)) (hdigits : digits = [c]) :
      ScriptText digits n
        (c :: 'e' :: (if n < 1 then '-' else '+') :: Decimal.natText (n - 1).natAbs)
  | several (c : Char) (rest : List Char) (hn : ¬(-5 ≤ n ∧ n ≤ 21)) (hdigits : digits = c :: rest)
      (hrest : rest ≠ []) :
      ScriptText digits n
        (c :: '.' :: rest ++ 'e' :: (if n < 1 then '-' else '+') :: Decimal.natText (n - 1).natAbs)

theorem mark_eq (n : ℤ) : (if 0 ≤ n - 1 then '+' else '-') = if n < 1 then '-' else '+' := by
  split
  · rw [if_neg (by omega)]
  · rw [if_pos (by omega)]

theorem layout_of_scriptText {digits : List Char} (h : digits ≠ []) {n : ℤ} {text : List Char}
    (hscript : ScriptText digits n text) : text = Decimal.layout digits n := by
  cases hscript with
  | whole zeros hn hcount =>
    have hzeros : (n - digits.length).toNat = zeros := by omega
    rw [Decimal.layout_whole (by omega) hn.2, hzeros]
  | point front back hn hdigits hfront hpos hback =>
    have hlt := List.length_pos_iff.mpr hback
    have hcount : front.length = n.toNat := by omega
    subst hdigits
    rw [Decimal.layout_point (by rw [List.length_append]; omega) hpos hn.2, List.take_left' hcount,
      List.drop_left' hcount]
  | zero zeros hn hcount =>
    have hzeros : (-n).toNat = zeros := by omega
    rw [Decimal.layout_zero h (by omega) (by omega), hzeros]
    rfl
  | single c hn hdigits =>
    rw [Decimal.layout_exponent h (by omega), mark_eq, hdigits]
    rfl
  | several c rest hn hdigits hrest =>
    rw [Decimal.layout_exponent h (by omega), mark_eq, hdigits]
    simp [hrest]

theorem scriptText_layout {digits : List Char} (h : digits ≠ []) (n : ℤ) :
    ScriptText digits n (Decimal.layout digits n) := by
  by_cases hrange : -6 < n ∧ n ≤ 21
  · have hn : -5 ≤ n ∧ n ≤ 21 := by omega
    by_cases hwhole : (digits.length : ℤ) ≤ n
    · rw [Decimal.layout_whole hwhole hn.2]
      exact .whole _ hn (by omega)
    by_cases hpos : 0 < n
    · rw [Decimal.layout_point (by omega) hpos hn.2]
      refine .point _ _ hn (List.take_append_drop ..).symm ?_ hpos ?_
      · rw [List.length_take]
        omega
      · rw [Ne, List.drop_eq_nil_iff]
        omega
    · rw [Decimal.layout_zero h hrange.1 (by omega)]
      exact .zero _ hn (by omega)
  · rw [Decimal.layout_exponent h hrange, mark_eq]
    obtain ⟨c, rest, rfl⟩ := List.exists_cons_of_ne_nil h
    cases rest with
    | nil => exact .single c (by omega) rfl
    | cons c' rest => exact .several c (c' :: rest) (by omega) rfl (List.cons_ne_nil c' rest)

/-! ## What a layout denotes -/

namespace Scientific

variable (s : Scientific)

/-- The digits with zeros behind them. -/
def padded (zeros : ℕ) : Written where
  whole := s.digits ++ List.replicate zeros '0'
  fraction := []
  exponent := none
  whole_digits c hc := by
    rcases List.mem_append.mp hc with hc | hc
    · exact s.isDigit c hc
    · rw [List.eq_of_mem_replicate hc]
      decide
  fraction_digits := Written.no_fraction_digits
  whole_head := by
    obtain ⟨c, rest, heq, hne⟩ := s.head
    exact ⟨c, rest ++ List.replicate zeros '0', by rw [heq]; rfl, fun hzero => absurd hzero hne⟩
  fraction_last := Written.no_fraction_last

/-- The digits behind a point and zeros. -/
def leading (zeros : ℕ) : Written where
  whole := ['0']
  fraction := List.replicate zeros '0' ++ s.digits
  exponent := none
  whole_digits := by simp
  fraction_digits c hc := by
    rcases List.mem_append.mp hc with hc | hc
    · rw [List.eq_of_mem_replicate hc]
      decide
    · exact s.isDigit c hc
  whole_head := ⟨'0', [], rfl, fun _ => rfl⟩
  fraction_last := by
    obtain ⟨c, rest, heq, -⟩ := s.head
    rw [List.getLast?_append_of_ne_nil _ (by simp [heq])]
    exact s.last

/-- The digits with a point between the first and the others, and an exponent at times. -/
def split (front back : List Char) (hdigits : s.digits = front ++ back) (hfront : front ≠ [])
    (exponent : Option ℤ) : Written where
  whole := front
  fraction := back
  exponent := exponent
  whole_digits c hc := s.isDigit c (by rw [hdigits]; exact List.mem_append_left _ hc)
  fraction_digits c hc := s.isDigit c (by rw [hdigits]; exact List.mem_append_right _ hc)
  whole_head := by
    obtain ⟨c, rest, heq, hne⟩ := s.head
    obtain ⟨first, others, rfl⟩ := List.exists_cons_of_ne_nil hfront
    rw [heq, List.cons_append, List.cons.injEq] at hdigits
    exact ⟨first, others, rfl, fun hzero => absurd (hdigits.1.trans hzero) hne⟩
  fraction_last := by
    intro hlast
    have hback : back ≠ [] := fun hnil => by simp [hnil] at hlast
    rw [← List.getLast?_append_of_ne_nil front hback, ← hdigits] at hlast
    exact s.last hlast

theorem value_padded (zeros : ℕ) (h : (zeros : ℤ) = s.exponent + 1 - s.digits.length) :
    (s.padded zeros).value = s.value := by
  unfold Written.value value padded
  rw [← h]
  dsimp only
  rw [List.append_nil, digitsValue_append, digitsValue_zeros, List.length_replicate]
  simp [mul_comm]

theorem value_leading (zeros : ℕ) (h : (zeros : ℤ) = -(s.exponent + 1)) :
    (s.leading zeros).value = s.value := by
  have hdigits : digitsValue (['0'] ++ (List.replicate zeros '0' ++ s.digits)) =
      digitsValue s.digits := by
    rw [digitsValue_append, digitsValue_append, digitsValue_zeros, digitsValue_zero]
    simp
  unfold Written.value value leading
  dsimp only [Option.getD_none]
  rw [hdigits, List.length_append, List.length_replicate]
  congr 2
  omega

theorem value_split {front back : List Char} (hdigits : s.digits = front ++ back)
    (hfront : front ≠ []) {exponent : Option ℤ}
    (hexponent : exponent.getD 0 + front.length = s.exponent + 1) :
    (s.split front back hdigits hfront exponent).value = s.value := by
  unfold Written.value value split
  rw [hdigits, List.length_append]
  congr 2
  push_cast
  omega

/-- What is written for a scientific form. -/
structure WrittenAs (w : Written) : Prop where
  value : w.value = s.value
  positional : w.exponent = none ↔ (10 : ℚ) ^ (-6 : ℤ) ≤ s.value ∧ s.value < 10 ^ (21 : ℤ)
  exponential : w.exponent ≠ none → w.whole.length = 1 ∧ w.exponent = some s.exponent

variable {s}

theorem writtenAs_positional {w : Written} (hvalue : w.value = s.value) (hw : w.exponent = none)
    (hlow : -6 ≤ s.exponent) (hhigh : s.exponent < 21) : s.WrittenAs w where
  value := hvalue
  positional := ⟨fun _ => s.mem_range_iff.mpr ⟨hlow, hhigh⟩, fun _ => hw⟩
  exponential hne := absurd hw hne

theorem pointed_of_ne_nil {run : List Char} (h : run ≠ []) : pointed run = '.' :: run := by
  obtain ⟨c, rest, rfl⟩ := List.exists_cons_of_ne_nil h
  rfl

theorem writtenAs_exponential {c : Char} {rest : List Char} (hdigits : s.digits = [c] ++ rest)
    (hrange : ¬(-6 ≤ s.exponent ∧ s.exponent < 21)) :
    s.WrittenAs (s.split [c] rest hdigits (List.cons_ne_nil c []) (some s.exponent)) where
  value := s.value_split hdigits (List.cons_ne_nil c []) rfl
  positional := by
    rw [s.mem_range_iff]
    exact ⟨fun h => absurd h (Option.some_ne_none _), fun h => absurd h hrange⟩
  exponential _ := ⟨rfl, rfl⟩

/-- Every text that is prescribed for a form writes it. -/
theorem exists_writtenAs {text : List Char} (h : ScriptText s.digits (s.exponent + 1) text) :
    ∃ w, text = w.text ∧ s.WrittenAs w := by
  have hlength := s.length_pos
  have hnil : s.digits ≠ [] := List.ne_nil_of_length_pos hlength
  have hmark : (if s.exponent + 1 < 1 then '-' else '+') ::
      Decimal.natText (s.exponent + 1 - 1).natAbs = (marked (some s.exponent)).tail := by
    rw [← mark_eq, add_sub_cancel_right]
    rfl
  cases h with
  | whole zeros hn hcount =>
    refine ⟨s.padded zeros, ?_, ?_⟩
    · simp [Written.text, padded, pointed, marked]
    · exact writtenAs_positional (s.value_padded zeros (by omega)) rfl (by omega) (by omega)
  | point front back hn hdigits hfront hpos hback =>
    have hne : front ≠ [] := List.ne_nil_of_length_pos (by omega)
    refine ⟨s.split front back hdigits hne none, ?_, ?_⟩
    · simp [Written.text, split, pointed_of_ne_nil hback, marked]
    · refine writtenAs_positional (s.value_split hdigits hne ?_) rfl (by omega) (by omega)
      rw [Option.getD_none]
      omega
  | zero zeros hn hcount =>
    have hne : List.replicate zeros '0' ++ s.digits ≠ [] := by simp [hnil]
    refine ⟨s.leading zeros, ?_, ?_⟩
    · simp [Written.text, leading, pointed_of_ne_nil hne, marked]
    · exact writtenAs_positional (s.value_leading zeros (by omega)) rfl (by omega) (by omega)
  | single c hn hdigits =>
    refine ⟨_, ?_, writtenAs_exponential hdigits (by omega)⟩
    rw [hmark]
    rfl
  | several c rest hn hdigits hrest =>
    refine ⟨_, ?_, writtenAs_exponential hdigits (by omega)⟩
    rw [hmark, Written.text, split, pointed_of_ne_nil hrest]
    rfl

variable (s) in
/-- The layout of a scientific form: no cut and no run of zeros is out of range, the text is that of
    a numeral without superfluous digits that denotes the number of the form, and it is the one that
    JavaScript prescribes. -/
structure LaidOut (text : List Char) : Prop where
  inRange : Decimal.layout? s.digits (s.exponent + 1) = some text
  written : ∃ w, text = w.text ∧ s.WrittenAs w
  prescribed : ∀ other, ScriptText s.digits (s.exponent + 1) other ↔ other = text

theorem laidOut_text (s : Scientific) : s.LaidOut s.text := by
  have hnil : s.digits ≠ [] := List.ne_nil_of_length_pos s.length_pos
  have hscript := scriptText_layout hnil (s.exponent + 1)
  refine ⟨Decimal.layout?_eq hnil _, exists_writtenAs hscript, fun other => ?_⟩
  exact ⟨layout_of_scriptText hnil, fun h => h ▸ hscript⟩

end Scientific

/-! ## The digits of a double -/

namespace Double

/-- The double that a rational is rounded to, negative ones to zero. -/
def ofRat (x : ℚ) : Double := nearest x.num.toNat x.den

/-- The digits that JavaScript prescribes for a double: a number with these digits is rounded to the
    double without its sign, no number with fewer digits is, and none with as many digits is closer.
    Where two are equally close either may be taken. -/
structure IsShortestForm (d : Double) (s : Scientific) : Prop where
  rounds : (ofRat s.value).bits.toNat = d.magnitude
  fewest : ∀ (m k : ℕ) (n : ℤ), m < 10 ^ k → (ofRat (m * 10 ^ n)).bits.toNat = d.magnitude →
    s.digits.length ≤ k
  closest : ∀ (m : ℕ) (n : ℤ), m < 10 ^ s.digits.length →
    (ofRat (m * 10 ^ n)).bits.toNat = d.magnitude → |d.size - s.value| ≤ |d.size - m * 10 ^ n|

theorem ofRat_eq_iff {d : Double} (hd : d.IsFinite) (hz : d.isZero = false) {x : ℚ} (hx : 0 ≤ x) :
    (ofRat x).bits.toNat = d.magnitude ↔ d.Covers x := by
  rcases hx.eq_or_lt with rfl | hpos
  · have hne : d.magnitude ≠ 0 := by simpa [isZero] using hz
    refine ⟨fun h => absurd h.symm hne, fun h => absurd (h.pos hz) (lt_irrefl 0)⟩
  · have hnum : 0 < x.num.toNat := by
      have := Rat.num_pos.mpr hpos
      omega
    have hquotient : (x.num.toNat : ℚ) / x.den = x := by
      have hcast : ((x.num.toNat : ℤ) : ℚ) = x.num := by
        rw [Int.toNat_of_nonneg (Rat.num_pos.mpr hpos).le]
      rw [← Int.cast_natCast, hcast, Rat.num_div_den]
    have hiff := nearest_eq_iff hd hz hnum x.den_pos
    rwa [hquotient] at hiff

section

variable {d : Double} (hd : d.IsFinite) (hz : d.isZero = false)

/-- The scientific form of the shortest decimal. -/
def scientific : Scientific where
  digits := Decimal.natText d.shortest.digits
  exponent := d.shortest.exponent + (Decimal.natText d.shortest.digits).length - 1
  isDigit _ hc := isDigit_of_mem_natText hc
  head := by
    obtain ⟨c, rest, heq, hzero⟩ := natText_head d.shortest.digits
    refine ⟨c, rest, heq, fun hc => ?_⟩
    have hpos := (isShortest_shortest hd hz).digits_pos hz
    have hvalue := digitsValue_natText d.shortest.digits
    rw [heq, hzero hc, hc, digitsValue_zero] at hvalue
    omega
  last h := (isShortest_shortest hd hz).not_dvd (dvd_of_natText_last h)

theorem value_scientific : (scientific hd hz).value = d.shortest.value := by
  unfold Scientific.value scientific Decimal.value
  rw [digitsValue_natText, sub_add_cancel, add_sub_cancel_right]

theorem text_eq : d.text = signText d.negative ++ (scientific hd hz).text := by
  unfold text Scientific.text scientific Decimal.text
  rw [hz, hd.1, hd.2, sub_add_cancel]
  rfl

theorem isShortestForm_scientific : d.IsShortestForm (scientific hd hz) := by
  have hshortest := isShortest_shortest hd hz
  have hcovers : ∀ {m : ℕ} {n : ℤ}, (ofRat (m * 10 ^ n)).bits.toNat = d.magnitude →
      d.Covers (m * 10 ^ n) := fun h => (ofRat_eq_iff hd hz (by positivity)).mp h
  refine ⟨?_, fun m k n hm hrounds => ?_, fun m n hm hrounds => ?_⟩
  · rw [ofRat_eq_iff hd hz (Scientific.value_pos _).le, value_scientific]
    exact hshortest.nearest.1
  · have hfew := hshortest.fewest hz hm (hcovers hrounds)
    have hpos := hshortest.digits_pos hz
    cases k with
    | zero => omega
    | succ k =>
      exact (Nat.length_toDigits_le_iff (by decide) (Nat.succ_pos k)).mpr hfew
  · rw [value_scientific]
    obtain ⟨c, rest, heq, hne⟩ := (scientific hd hz).head
    have hlow : 10 ^ rest.length ≤ d.shortest.digits := by
      have hdigit := (scientific hd hz).isDigit c (by rw [heq]; exact List.mem_cons_self ..)
      have hle := le_digitsValue rest hdigit hne
      rwa [← heq, scientific, digitsValue_natText] at hle
    rw [heq, List.length_cons] at hm
    exact hshortest.closest hz hlow hm (hcovers hrounds)

end

/-! ## The number that a text denotes -/

/-- The number that a double is written as: that of its shortest digits, and zero for both zeros. -/
def exact (d : Double) : ℚ := if d.isZero then 0 else signFactor d.negative * d.shortest.value

/-- A double is written as a numeral, with a sign where it has one and is not zero. -/
theorem exists_written {d : Double} (hd : d.IsFinite) : ∃ (negative : Bool) (w : Written),
    d.text = signText negative ++ w.text ∧ signFactor negative * w.value = d.exact := by
  unfold exact
  cases hz : d.isZero with
  | true =>
    refine ⟨false, .ofNat 0, ?_, ?_⟩
    · unfold text
      rw [hz, Written.text_ofNat]
      rfl
    · rw [Written.value_ofNat]
      simp
  | false =>
    obtain ⟨w, htext, hw⟩ := (scientific hd hz).laidOut_text.written
    refine ⟨d.negative, w, ?_, ?_⟩
    · rw [text_eq hd hz, htext]
    · rw [hw.value, value_scientific]
      rfl

/-- Wherever the text of a double cannot be continued, a reader finds its number. -/
theorem exists_numeral {d : Double} (hd : d.IsFinite) : ∃ n : Numeral, n.exact = d.exact ∧
    ∀ rest, Apart rest → Reader.numeral? (d.text ++ rest) = some (n, rest) := by
  obtain ⟨negative, w, htext, hvalue⟩ := exists_written hd
  refine ⟨w.numeral negative, ?_, fun rest hrest => ?_⟩
  · rw [w.exact_numeral, hvalue]
  · rw [htext]
    exact Reader.numeral?_text w negative hrest

/-! ## One text for one double -/

theorem eq_of_magnitude {d d' : Double} (hs : d.negative = d'.negative)
    (hm : d.magnitude = d'.magnitude) : d = d' := by
  have hsize : d.bits.toNat < 18446744073709551616 := d.bits.toNat_lt
  have hsize' : d'.bits.toNat < 18446744073709551616 := d'.bits.toNat_lt
  have hpow : Nat.pow 2 63 = 9223372036854775808 := rfl
  unfold negative at hs
  unfold magnitude at hm
  rw [decide_eq_decide] at hs
  rw [hpow] at hs hm
  have hbits : d.bits.toNat = d'.bits.toNat := by omega
  cases d
  cases d'
  exact congrArg Double.mk (UInt64.toNat_inj.mp hbits)

theorem signFactor_mul_inj {negative negative' : Bool} {x y : ℚ} (hx : 0 < x) (hy : 0 < y)
    (h : signFactor negative * x = signFactor negative' * y) : negative = negative' ∧ x = y := by
  cases negative <;> cases negative' <;> simp [signFactor] at h ⊢ <;> linarith

theorem shortest_value_pos {d : Double} (hd : d.IsFinite) (hz : d.isZero = false) :
    0 < d.shortest.value := by
  rw [← value_scientific hd hz]
  exact Scientific.value_pos _

theorem exact_eq_zero_iff {d : Double} (hd : d.IsFinite) : d.exact = 0 ↔ d.isZero = true := by
  unfold exact
  cases hz : d.isZero with
  | true => exact ⟨fun _ => rfl, fun _ => rfl⟩
  | false =>
    have hpos := shortest_value_pos hd hz
    have hfactor : signFactor d.negative ≠ 0 := by
      unfold signFactor
      split <;> norm_num
    simp [hfactor, hpos.ne']

/-- A number is that of one double only, both zeros apart. -/
theorem exact_inj {d d' : Double} (hd : d.IsFinite) (hd' : d'.IsFinite)
    (h : d.exact = d'.exact) : d = d' ∨ d.isZero ∧ d'.isZero := by
  have hzeros : d.isZero = true ↔ d'.isZero = true := by
    rw [← exact_eq_zero_iff hd, ← exact_eq_zero_iff hd', h]
  cases hz : d.isZero with
  | true => exact .inr ⟨rfl, hzeros.mp hz⟩
  | false =>
    have hz' : d'.isZero = false := by
      rw [hz, Bool.false_eq_true, false_iff, Bool.not_eq_true] at hzeros
      exact hzeros
    unfold exact at h
    rw [hz, hz'] at h
    obtain ⟨hsign, hvalue⟩ := signFactor_mul_inj (shortest_value_pos hd hz)
      (shortest_value_pos hd' hz') h
    refine .inl (eq_of_magnitude hsign ?_)
    have hrounds := (isShortestForm_scientific hd hz).rounds
    have hrounds' := (isShortestForm_scientific hd' hz').rounds
    rw [value_scientific, hvalue] at hrounds
    rw [value_scientific] at hrounds'
    exact hrounds.symm.trans hrounds'

theorem text_of_isZero {d : Double} (hz : d.isZero) : d.text = ['0'] := if_pos hz

theorem text_eq_text_iff {d d' : Double} (hd : d.IsFinite) (hd' : d'.IsFinite) :
    d.text = d'.text ↔ d = d' ∨ d.isZero ∧ d'.isZero := by
  constructor
  · intro htext
    obtain ⟨n, hn, hread⟩ := exists_numeral hd
    obtain ⟨n', hn', hread'⟩ := exists_numeral hd'
    have hsame := hread [] apart_nil
    rw [htext, hread' [] apart_nil, Option.some.injEq, Prod.mk.injEq] at hsame
    apply exact_inj hd hd'
    rw [← hn, ← hn', hsame.1]
  · rintro (rfl | ⟨hz, hz'⟩)
    · rfl
    · rw [text_of_isZero hz, text_of_isZero hz']

/-- The text of a double. The layout of any digits and exponent is exact and the one that JavaScript
    prescribes; a finite double other than zero is written by the layout of the digits that
    JavaScript prescribes for it, behind its sign, and denotes their number; and doubles with the
    same text are equal or both zero. -/
theorem text_exact :
    (∀ s : Scientific, s.LaidOut s.text) ∧
      (∀ d : Double, d.IsFinite → d.isZero = false → ∃ s, d.IsShortestForm s ∧
        d.text = signText d.negative ++ s.text ∧
          ∃ n, Reader.numeral? d.text = some (n, []) ∧ n.exact = signFactor d.negative * s.value) ∧
      ∀ d d' : Double, d.IsFinite → d'.IsFinite →
        (d.text = d'.text ↔ d = d' ∨ d.isZero ∧ d'.isZero) := by
  refine ⟨Scientific.laidOut_text, fun d hd hz => ?_, fun _ _ => text_eq_text_iff⟩
  refine ⟨scientific hd hz, isShortestForm_scientific hd hz, text_eq hd hz, ?_⟩
  obtain ⟨n, hn, hread⟩ := exists_numeral hd
  refine ⟨n, ?_, ?_⟩
  · have hall := hread [] apart_nil
    rwa [List.append_nil] at hall
  · rw [hn, value_scientific, exact, hz]
    rfl

/-- The negative double next to zero, whose interval reaches from half of it to half more. -/
def leastNegative : Double := ⟨0x8000000000000001⟩

theorem text_exact_leastNegative :
    leastNegative.IsFinite ∧ leastNegative.isZero = false ∧ leastNegative.text = "-5e-324".toList ∧
      (∃ s, leastNegative.IsShortestForm s ∧
        leastNegative.text = signText leastNegative.negative ++ s.text ∧
          ∃ n, Reader.numeral? leastNegative.text = some (n, []) ∧
            n.exact = signFactor leastNegative.negative * s.value) ∧
      (leastNegative.text = leastNegative.neg.text ↔ leastNegative = leastNegative.neg ∨
        leastNegative.isZero ∧ leastNegative.neg.isZero) := by
  have hfinite : leastNegative.IsFinite := ⟨by decide, by decide⟩
  have hfinite' : leastNegative.neg.IsFinite := ⟨by decide, by decide⟩
  exact ⟨hfinite, by decide, by decide +kernel, text_exact.2.1 _ hfinite (by decide),
    text_exact.2.2 _ _ hfinite hfinite'⟩

end Double

end BlockScript
